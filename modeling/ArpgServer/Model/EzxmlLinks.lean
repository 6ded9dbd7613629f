import ArpgServer.Library.CText
import ArpgServer.Library.Linked

/-!
# The links between tags (`ezxml.c`)

A tag is linked to the tag that follows it in its parent, to the next one of its own name and
to the first one of another name. `ezxml_insert` keeps all three for tags at any offsets. The
loops take fuel; following a link to a tag that is not there is `none`.
-/

namespace ArpgServer.Ezxml

open CText Linked

/-- The name and the offset of a tag. -/
structure Label where
  name : Bytes
  off : Nat
  deriving DecidableEq

/-- The tags in a parent: `child`, and the links `ordered`, `next` and `sibling`. -/
structure Links where
  child : Option Nat
  ordered : Heap Label
  next : Heap Label
  sibling : Heap Label

namespace Links

/-- A parent without tags. -/
def empty : Links :=
  { child := none, ordered := fun _ => none, next := fun _ => none, sibling := fun _ => none }

/-- The links of the new tag are `NULL`. -/
def allocate (m : Links) (a : Nat) (x : Label) : Links :=
  { m with
    ordered := Function.update m.ordered a (some ⟨x, none⟩)
    next := Function.update m.next a (some ⟨x, none⟩)
    sibling := Function.update m.sibling a (some ⟨x, none⟩) }

/-- The new tag is put behind the node `cur`, in front of what followed it. -/
def linkBehind (h : Heap Label) (a cur : Nat) (after : Option Nat) : Option (Heap Label) :=
  (setNext h a after).bind fun h => setNext h cur (some a)

/-- The list of all tags. -/
def insertOrdered (fuel : Nat) (m : Links) (a : Nat) (x : Label) (head : Nat) : Option Links :=
  (m.ordered head).bind fun node =>
    if node.data.off ≤ x.off then
      (search m.ordered (fun y => some (x.off < y.off)) fuel none (some head)).bind fun r =>
        r.1.bind fun cur =>
          (linkBehind m.ordered a cur r.2).map fun ordered => { m with ordered := ordered }
    else
      (setNext m.ordered a (some head)).map fun ordered =>
        { m with ordered := ordered, child := some a }

/-- Not the first tag of its name, which is `cur`. -/
def insertNext (fuel : Nat) (m : Links) (a : Nat) (x : Label) (cur : Nat) : Option Links :=
  (search m.next (fun y => some (x.off < y.off)) fuel none (some cur)).bind fun r =>
    r.1.bind fun last =>
      (linkBehind m.next a last r.2).map fun next => { m with next := next }

/-- The tag `cur` that is linked from `prev` gives way to a new first tag of its name. -/
def unlinkFirst (h : Heap Label) (head : Nat) : Option Nat → Option Nat → Option (Heap Label)
  | some prev, some cur => (unlink h (some head) (some prev) cur).map Prod.fst
  | _, _ => some h

/-- The first tag of its name; `cur` was the first one before, and `prev` leads to it. -/
def insertFirst (fuel : Nat) (m : Links) (a : Nat) (x : Label) (head : Nat)
    (prev cur : Option Nat) : Option Links :=
  (unlinkFirst m.sibling head prev cur).bind fun sibling =>
    (setNext m.next a cur).bind fun next =>
      (search sibling (fun y => some (x.off < y.off)) fuel none (some head)).bind fun r =>
        (match r.1 with
          | none => setNext sibling a r.2
          | some last => linkBehind sibling a last r.2).map fun sibling =>
            { m with next := next, sibling := sibling }

/-- The lists of one name and of the first tags. -/
def insertNamed (fuel : Nat) (m : Links) (a : Nat) (x : Label) (head : Nat) : Option Links :=
  (search m.sibling (fun y => some (y.name = x.name)) fuel none (some head)).bind fun r =>
    match r.2 with
    | none => insertFirst fuel m a x head r.1 none
    | some cur =>
      (m.sibling cur).bind fun node =>
        if node.data.off ≤ x.off then insertNext fuel m a x cur
        else insertFirst fuel m a x head r.1 (some cur)

/-- `ezxml_insert`. -/
def ezxmlInsert (fuel : Nat) (m : Links) (a : Nat) (x : Label) : Option Links :=
  let m := m.allocate a x
  match m.child with
  | none => some { m with child := some a }
  | some head =>
    (insertOrdered fuel m a x head).bind fun m => insertNamed fuel m a x head

/-- `ezxml_child`. -/
def ezxmlChild (fuel : Nat) (m : Links) (name : Bytes) : Option (Option Nat) :=
  (search m.sibling (fun y => some (y.name = name)) fuel none m.child).map Prod.snd

/-- `ezxml_idx`. -/
def ezxmlIdx (m : Links) : Option Nat → Nat → Option (Option Nat)
  | none, _ => some none
  | some a, 0 => some (some a)
  | some a, idx + 1 => (m.next a).bind fun node => ezxmlIdx m node.next idx

/-- `ezxml_get` with one name and one index. -/
def ezxmlGet (fuel : Nat) (m : Links) (name : Bytes) (idx : Nat) : Option (Option Nat) :=
  (ezxmlChild fuel m name).bind fun cur => ezxmlIdx m cur idx

/-- Insertions one after another. -/
def insertAll (fuel : Nat) (m : Links) : List (Nat × Label) → Option Links
  | [] => some m
  | (a, x) :: rest => (ezxmlInsert fuel m a x).bind fun m => insertAll fuel m rest

end Links

end ArpgServer.Ezxml
