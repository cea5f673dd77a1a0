import Saski.Lib.Logged
import Saski.Lib.ByteMemory
import Saski.Lib.Run
import Saski.Lib.SingleBit
import Saski.Lib.KeyedStore
import Saski.Capnp.Pointer
import Saski.Capnp.Schema
import Saski.Capnp.Validate
import Saski.Capnp.ValidateReads
import Saski.Capnp.ValidateAccepts
import Saski.Capnp.Reader
import Saski.Cap.Record
import Saski.Cap.SchemaMemory
import Saski.Cap.Invoke
import Saski.Cap.DispatchGate
import Saski.Cap.ResponseBuffer
import Saski.Cap.Factory
import Saski.Cap.FactoryRequest
import Saski.Cap.FactoryReady
import Saski.Cap.FactoryRuns
import Saski.Cap.InMemory
import Saski.Cap.ObjectMap
import Saski.Cap.ObjectRuns
import Saski.Cap.Bootstrap
import Saski.Cap.LockSystem
import Saski.Cap.LockRuns
import Saski.Cap.LockMasking
import Saski.Cap.LockRecords
import Saski.Fdt.Blob
import Saski.Fdt.Walk
import Saski.Fdt.Tokens
import Saski.Fdt.Stream
import Saski.Fdt.Iterator
import Saski.Lib.Preorder
import Saski.Fdt.Property
import Saski.Fdt.Search
import Saski.Fdt.ReadSafety
import Saski.Fdt.Tree
import Saski.Fdt.Nodes
import Saski.Fdt.Paths
import Saski.Capnp.ListRoot
import Saski.Capnp.ListRootValid
import Saski.Boot.Macho
import Saski.Boot.MachoLoad
import Saski.Boot.ApRegion
import Saski.Fdt.TreeProps
import Saski.Fdt.TreeSearch
import Saski.Fdt.Cells
import Saski.Fdt.Reg
import Saski.Fdt.RegExact
import Saski.Fdt.OwnRanges
import Saski.Fdt.Memory
import Saski.Fdt.NameSafety
import Saski.Fdt.CellReads
import Saski.Cap.CreateAtomic
import Saski.Cap.CreatedSchema
import Saski.Capnp.CheckedSlots
import Saski.Capnp.Evolution
import Saski.Capnp.ListRootChecks
import Saski.Boot.MachoImage
import Saski.Lib.ByteString
import Saski.Tools.MachoToXnu
import Saski.Tools.XnuRewrite
import Saski.Freestanding.Mem
import Saski.Lib.X86Paging
import Saski.Boot.PageTables
import Saski.Fdt.Climb
import Saski.Fdt.Enabled
import Saski.Boot.EfiMap
import Saski.Boot.RsdpCoverage
import Saski.Boot.EntryAarch64
import Saski.Lib.PeImage
import Saski.Tools.Mkstub
import Saski.Tools.StubFile
import Saski.Tools.StubRun
import Saski.Boot.LoadSteps
import Saski.Boot.ApSteps
import Saski.Boot.ApHandoff
import Saski.Boot.DescriptionAarch64
import Saski.Boot.EntryX86
