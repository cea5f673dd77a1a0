import Saski.Fdt.Blob

/-!
# Walks over the structure block (`lib/fdt.c`)

Every function here makes its own context from the blob and walks the structure
block on its own.  Each loop of the source is one `Prog.loop`, whose body is the
body of the source's loop: `.inl` goes on with the next iteration, `.inr` leaves.

The source counts nesting in an `int`.  A level takes at least eight of the fewer
than 2^32 bytes of the block, so that count stays far below 2^31 and is an
unbounded integer here.  Reading an array slot that was never written gives no
result.
-/

namespace Saski
namespace Fdt

open Capnp Logged Prog

/-- A C string: the characters before its terminator. -/
structure CString where
  chars : List UInt8
  noNul : 0 ∉ chars

/-- `str_at`. -/
def strAt (c : Ctx) (off : Nat) : Option Int :=
  if c.strend - c.str ≤ off then none else some (c.str + off)

/-- `str_eq` of the characters in the blob from `a` on and a C string. -/
def strEq (part : Int → Access) (bytes : Int → UInt8) : (a : Int) → List UInt8 → Logged Access Bool
  | a, [] => do
      let x ← rdByte part bytes a
      pure (x == 0)
  | a, y :: ys => do
      let x ← rdByte part bytes a
      if x ≠ 0 ∧ x = y then strEq part bytes (a + 1) ys else pure (x == y)

/-- The loop of `node_name`: `n` characters are not the terminator. -/
def nameBody (c : Ctx) (p : Int) (n : Nat) : Prog Access (Nat ⊕ Nat) :=
  if ok c (p + n) 1 then do
    let x ← rdByte .struct c.base (p + n)
    if x ≠ 0 then pure (.inl (n + 1)) else pure (.inr n)
  else pure (.inr n)

/-- `node_name`: the length of the name at `p`, if it ends inside the block. -/
def nodeName (c : Ctx) (p : Int) : Prog Access (Option Nat) := do
  let n ← loop (nameBody c p) 0
  if ok c (p + n) 1 then pure (some n) else pure none

/-- The loop of `skip_node`. -/
def skipBody (c : Ctx) : Int × Int → Prog Access (Int × Int ⊕ Int)
  | (p, depth) =>
      if ¬ ok c p 4 then pure (.inr (-1))
      else do
        let token ← rdBe32 .struct c.base p
        let p := p + 4
        if token = fdtBeginNode then do
          match ← nodeName c p with
          | none => pure (.inr (-1))
          | some namelen => pure (.inl (p + align4 (namelen + 1), depth + 1))
        else if token = fdtEndNode then
          if depth - 1 ≤ 0 then pure (.inr (offOf p)) else pure (.inl (p, depth - 1))
        else if token = fdtProp then
          if ¬ ok c p 8 then pure (.inr (-1))
          else do
            let len ← rdBe32 .struct c.base p
            if ¬ ok c (p + 8) len then pure (.inr (-1))
            else pure (.inl (p + ((8 + align4 len) % 2 ^ 32 : Nat), depth))
        else if token = fdtNop then pure (.inl (p, depth))
        else pure (.inr (-1))

/-- `skip_node`. -/
def skipNode (c : Ctx) (off : Int) : Prog Access Int := loop (skipBody c) (off, 0)

/-- `after_name`. -/
def afterName (c : Ctx) (nodeOff : Int) : Prog Access (Option Int) :=
  if ¬ ok c nodeOff 4 then pure none
  else do
    let token ← rdBe32 .struct c.base nodeOff
    if token ≠ fdtBeginNode then pure none
    else do
      match ← nodeName c (nodeOff + 4) with
      | none => pure none
      | some namelen => pure (some (nodeOff + 4 + align4 (namelen + 1)))

/-- The loop of `fdt_first_child`.  Here `p` points at the token. -/
def firstChildBody (c : Ctx) (p : Int) : Prog Access (Int ⊕ Int) :=
  if ¬ ok c p 4 then pure (.inr fdtErrNode)
  else do
    let token ← rdBe32 .struct c.base p
    if token = fdtBeginNode then pure (.inr (offOf p))
    else if token = fdtEndNode then pure (.inr fdtErrNode)
    else if token = fdtProp then do
      -- The length is read before anything says that it lies in the block.
      let len ← rdBe32 .struct c.base (p + 4)
      if ¬ ok c (p + 12) len then pure (.inr fdtErrNode)
      else pure (.inl (p + ((12 + align4 len) % 2 ^ 32 : Nat)))
    else if token = fdtNop then pure (.inl (p + 4))
    else pure (.inr fdtErrNode)

/-- `fdt_first_child`. -/
def fdtFirstChild (blob : Buffer) (parentOffset : Int) : Prog Access Int := do
  match ← ctxInit blob with
  | none => pure fdtErrNode
  | some c => do
      match ← afterName c parentOffset with
      | none => pure fdtErrNode
      | some p => loop (firstChildBody c) p

/-- The state of the walk in `fdt_parent_offset`. -/
structure ParentWalk where
  p : Int
  depth : Int
  stack : Int → Option Int

/-- `stack[i]`. -/
def slot (stack : Int → Option Int) (i : Int) : Prog Access Int :=
  match stack i with
  | some v => pure v
  | none => stuck

/-- The loop of `fdt_parent_offset`. -/
def parentBody (c : Ctx) (nodeOffset : Int) (w : ParentWalk) : Prog Access (ParentWalk ⊕ Int) :=
  if ¬ ok c w.p 4 then pure (.inr fdtErrNode)
  else do
    let here := offOf w.p
    let token ← rdBe32 .struct c.base w.p
    let p := w.p + 4
    if token = fdtBeginNode then do
      match ← nodeName c p with
      | none => pure (.inr fdtErrNode)
      | some namelen => do
          let p := p + align4 (namelen + 1)
          let depth := w.depth + 1
          let stack := if depth < fdtMaxDepth then Function.update w.stack depth (some here)
            else w.stack
          if here = nodeOffset then
            if depth ≤ 0 ∨ fdtMaxDepth ≤ depth - 1 then pure (.inr fdtErrNode)
            else do
              let parent ← slot stack (depth - 1)
              pure (.inr parent)
          else pure (.inl ⟨p, depth, stack⟩)
    else if token = fdtEndNode then
      if w.depth - 1 < 0 then pure (.inr fdtErrNode) else pure (.inl ⟨p, w.depth - 1, w.stack⟩)
    else if token = fdtProp then do
      let len ← rdBe32 .struct c.base p
      if ¬ ok c (p + 8) len then pure (.inr fdtErrNode)
      else pure (.inl ⟨p + ((8 + align4 len) % 2 ^ 32 : Nat), w.depth, w.stack⟩)
    else if token = fdtNop then pure (.inl ⟨p, w.depth, w.stack⟩)
    else pure (.inr fdtErrNode)

/-- `fdt_parent_offset`. -/
def fdtParentOffset (blob : Buffer) (nodeOffset : Int) : Prog Access Int := do
  match ← ctxInit blob with
  | none => pure fdtErrNode
  | some c => loop (parentBody c nodeOffset) ⟨c.s, -1, fun _ => none⟩

/-- The last loop of `fdt_next_sibling`. -/
def siblingBody (c : Ctx) (p : Int) : Prog Access (Int ⊕ Int) :=
  if ¬ ok c p 4 then pure (.inr fdtErrNode)
  else do
    let token ← rdBe32 .struct c.base p
    if token = fdtBeginNode then pure (.inr (offOf p))
    else if token = fdtEndNode then pure (.inr fdtErrNode)
    else if token = fdtNop then pure (.inl (p + 4))
    else pure (.inr fdtErrNode)

/-- `fdt_next_sibling`. -/
def fdtNextSibling (blob : Buffer) (parentOffset prevSibling : Int) : Prog Access Int := do
  match ← ctxInit blob with
  | none => pure fdtErrNode
  | some c => do
      -- The parent is validated rather than merely accepted.
      let parent ← fdtParentOffset blob prevSibling
      if parent ≠ parentOffset then pure fdtErrNode
      else do
        let nxt ← skipNode c prevSibling
        if nxt < 0 then pure fdtErrNode else loop (siblingBody c) nxt

/-- The loop of `fdt_getprop`.  The value of the property found, and its length. -/
def getpropBody (c : Ctx) (name : CString) (p : Int) :
    Prog Access (Int ⊕ Option (Int × Nat)) :=
  if ¬ ok c p 4 then pure (.inr none)
  else do
    let token ← rdBe32 .struct c.base p
    if token = fdtBeginNode ∨ token = fdtEndNode then pure (.inr none)
    else if token = fdtNop then pure (.inl (p + 4))
    else if token ≠ fdtProp ∨ ¬ ok c p 8 then pure (.inr none)
    else do
      -- Eight bytes have been checked; the name offset is behind them.
      let len ← rdBe32 .struct c.base (p + 4)
      let nameoff ← rdBe32 .struct c.base (p + 8)
      if ¬ ok c (p + 12) len then pure (.inr none)
      else
        match strAt c nameoff with
        | none => pure (.inr none)
        | some pn => do
            if ← strEq .strings c.base pn name.chars then pure (.inr (some (p + 12, len)))
            else pure (.inl (p + ((12 + align4 len) % 2 ^ 32 : Nat)))

/-- `fdt_getprop`: where the value of the property is, and `*out_len`. -/
def fdtGetprop (blob : Buffer) (nodeOffset : Int) (name : Option CString) :
    Prog Access (Option (Int × Nat)) :=
  match name with
  | none => pure none
  | some name => do
      match ← ctxInit blob with
      | none => pure none
      | some c => do
          match ← afterName c nodeOffset with
          | none => pure none
          | some p => loop (getpropBody c name) p

/-! ## Paths -/

/-- The separator of a path. -/
def slash : UInt8 := 0x2f

/-- The loop that compares the characters of a node's name with a path component of
the same length. -/
def nameEq (c : Ctx) : (n : Int) → List UInt8 → Logged Access Bool
  | _, [] => pure true
  | n, y :: ys => do
      let x ← rdByte .struct c.base n
      if x = y then nameEq c (n + 1) ys else pure false

/-- The loop of `fdt_path_offset` over the children of `cur`. -/
def componentBody (blob : Buffer) (c : Ctx) (cur : Int) (component : List UInt8) (ch : Int) :
    Prog Access (Int ⊕ Int) :=
  if ch = fdtErrNode then pure (.inr fdtErrNode)
  else do
    match ← nodeName c (ch + 4) with
    | none => pure (.inr fdtErrNode)
    | some namelen => do
        if namelen = component.length then do
          if ← nameEq c (ch + 4) component then pure (.inr ch)
          else do
            let next ← fdtNextSibling blob cur ch
            pure (.inl next)
        else do
          let next ← fdtNextSibling blob cur ch
          pure (.inl next)

/-- The loop of `fdt_path_offset` over the components of the path. -/
def pathBody (blob : Buffer) (c : Ctx) :
    Int × List UInt8 → Prog Access (Int × List UInt8 ⊕ Int)
  | (cur, p) =>
      if p = [] then pure (.inr cur)
      else do
        let component := p.takeWhile (· ≠ slash)
        let p := p.dropWhile (· ≠ slash)
        let first ← fdtFirstChild blob cur
        let found ← loop (componentBody blob c cur component) first
        if found = fdtErrNode then pure (.inr fdtErrNode)
        else pure (.inl (found, p.dropWhile (· = slash)))

/-- `fdt_path_offset`. -/
def fdtPathOffset (blob : Buffer) (path : Option CString) : Prog Access Int := do
  match ← ctxInit blob with
  | none => pure fdtErrNode
  | some c =>
      match path with
      | none => pure fdtErrNode
      | some path =>
          if path.chars.head? ≠ some slash then pure fdtErrNode
          else if ¬ ok c c.s 4 then pure fdtErrNode
          else do
            let token ← rdBe32 .struct c.base c.s
            if token ≠ fdtBeginNode then pure fdtErrNode
            else
              let cur := offOf c.s
              let p := path.chars.dropWhile (· = slash)
              if p = [] then pure cur else loop (pathBody blob c) (cur, p)

/-! ## Search by `compatible` -/

/-- The inner loop of `compatible_match`: the end of the entry at `i`. -/
def entryBody (base : Int → UInt8) (list : Int) (len i : Nat) (j : Nat) :
    Prog Access (Nat ⊕ Nat) :=
  if i + j < len then do
    let x ← rdByte .value base (list + i + j)
    if x ≠ 0 then pure (.inl (j + 1)) else pure (.inr j)
  else pure (.inr j)

/-- The outer loop of `compatible_match`. -/
def compatibleBody (base : Int → UInt8) (list : Int) (len : Nat) (want : CString) (i : Nat) :
    Prog Access (Nat ⊕ Bool) :=
  if i < len then do
    let j ← loop (entryBody base list len i) 0
    if i + j < len then do
      if ← strEq .value base (list + i) want.chars then pure (.inr true)
      else pure (.inl ((i + (j + 1)) % 2 ^ 32))
    else pure (.inl ((i + (j + 1)) % 2 ^ 32))
  else pure (.inr false)

/-- `compatible_match`. -/
def compatibleMatch (base : Int → UInt8) (list : Int) (len : Nat) (want : CString) :
    Prog Access Bool :=
  loop (compatibleBody base list len want) 0

/-- `"compatible"`. -/
def compatibleName : CString where
  chars := [99, 111, 109, 112, 97, 116, 105, 98, 108, 101]
  noNul := by decide

/-- The test of one candidate. -/
def isCompatible (blob : Buffer) (c : Ctx) (compatible : CString) (cur : Int) :
    Prog Access Bool := do
  match ← fdtGetprop blob cur (some compatibleName) with
  | none => pure false
  | some (cp, len) => compatibleMatch c.base cp len compatible

/-- The state of the search: the path from the root to the current node. -/
structure Search where
  depth : Int
  stack : Int → Option Int

/-- The loop that passes over the siblings of a child that is too deep. -/
def passBody (blob : Buffer) (cur : Int) (sib : Int) : Prog Access (Int ⊕ Unit) :=
  if sib = fdtErrNode then pure (.inr ())
  else do
    let next ← fdtNextSibling blob cur sib
    pure (.inl next)

/-- The loop that climbs until there is a sibling. -/
def climbBody (blob : Buffer) (w : Search) : Prog Access (Search ⊕ Option Search) :=
  if w.depth = 0 then pure (.inr none)
  else do
    let parent ← slot w.stack (w.depth - 1)
    let node ← slot w.stack w.depth
    let sib ← fdtNextSibling blob parent node
    if sib ≠ fdtErrNode then
      pure (.inr (some ⟨w.depth, Function.update w.stack w.depth (some sib)⟩))
    else pure (.inl ⟨w.depth - 1, w.stack⟩)

/-- Where the search goes from `cur`, whose first child is `ch`. -/
def searchOn (blob : Buffer) (w : Search) (cur ch : Int) : Prog Access (Search ⊕ Int) :=
  if ch ≠ fdtErrNode then
    if fdtMaxDepth ≤ w.depth + 1 then do
      -- Too deep to descend: go on at the level above.
      let sib ← fdtNextSibling blob cur ch
      loop (passBody blob cur) sib
      if w.depth = 0 then pure (.inr fdtErrNode) else pure (.inl ⟨w.depth - 1, w.stack⟩)
    else pure (.inl ⟨w.depth + 1, Function.update w.stack (w.depth + 1) (some ch)⟩)
  else do
    match ← loop (climbBody blob) w with
    | none => pure (.inr fdtErrNode)
    | some w => pure (.inl w)

/-- The loop of `fdt_node_by_compatible_offset`. -/
def searchBody (blob : Buffer) (c : Ctx) (compatible : CString) (w : Search) :
    Prog Access (Search ⊕ Int) := do
  let cur ← slot w.stack w.depth
  if ← isCompatible blob c compatible cur then pure (.inr cur)
  else do
    let ch ← fdtFirstChild blob cur
    searchOn blob w cur ch

/-- `fdt_node_by_compatible_offset`. -/
def fdtNodeByCompatibleOffset (blob : Buffer) (compatible : Option CString) : Prog Access Int :=
  match compatible with
  | none => pure fdtErrNode
  | some compatible => do
      match ← ctxInit blob with
      | none => pure fdtErrNode
      | some c =>
          if ¬ ok c c.s 4 then pure fdtErrNode
          else do
            let token ← rdBe32 .struct c.base c.s
            if token ≠ fdtBeginNode then pure fdtErrNode
            else
              let stack := Function.update (fun _ => none) 0 (some (offOf c.s))
              loop (searchBody blob c compatible) ⟨0, stack⟩

/-! ## The child cursor -/

/-- `fdt_next_child` with a cursor: the value returned, and `*cursor` afterwards. -/
def fdtNextChild (blob : Buffer) (parentOffset cursor : Int) : Prog Access (Int × Int) := do
  let ch ← if cursor = 0 then fdtFirstChild blob parentOffset
    else fdtNextSibling blob parentOffset cursor
  if ch = fdtErrNode then pure (0, 0) else pure (ch, ch)

end Fdt
end Saski
