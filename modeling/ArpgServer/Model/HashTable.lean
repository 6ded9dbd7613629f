import ArpgServer.Library.Linked
import ArpgServer.Model.Hash

/-!
# The name table in memory (`hash.c`)

The chains of the name table as linked items. The loops take fuel; how the texts behind the
keys are read is an argument, since a key points into memory that the table does not own. A
read or write through a pointer to memory that is not allocated is `none`.
-/

namespace ArpgServer

open Linked

structure HashMemory where
  hashSize : Nat
  items : Heap HashItem
  hashTable : Nat → Option Addr

/-- The text at a key, and `strcmp (key, text) == 0`. -/
structure KeyReader where
  text : Addr → Option Bytes
  same : Addr → Bytes → Option Bool

namespace HashMemory

/-- `hash_create`. -/
def create (size : Nat) : HashMemory :=
  { hashSize := size, items := fun _ => none, hashTable := fun _ => none }

/-- The index of a name. -/
def indexOf (m : HashMemory) (key : Bytes) : Nat := bkdrHash key % m.hashSize

/-- `hash_search`. -/
def hashSearch (keys : KeyReader) (fuel : Nat) (m : HashMemory) (key : Bytes) :
    Option (Option Addr) :=
  if 0 < m.hashSize then
    (search m.items (fun item => keys.same item.key key) fuel none
      (m.hashTable (m.indexOf key))).map Prod.snd
  else some none

/-- `hash_add`. -/
def hashAdd (keys : KeyReader) (fuel : Nat) (m : HashMemory) :
    Option Addr → Option (Int × HashMemory)
  | none => some (0, m)
  | some a =>
    if m.hashSize = 0 then none
    else
      (m.items a).bind fun node =>
        (keys.text node.data.key).bind fun key =>
          (search m.items (fun _ => some false) fuel none
            (m.hashTable (m.indexOf key))).bind fun found =>
              match found.1 with
              | some prev => (setNext m.items prev (some a)).map fun items =>
                  (1, { m with items := items })
              | none => some (1, { m with
                  hashTable := Function.update m.hashTable (m.indexOf key) (some a) })

/-- `hash_del`. -/
def hashDel (keys : KeyReader) (fuel : Nat) (m : HashMemory) (fd : Int) :
    Option Bytes → Option (Int × HashMemory)
  | none => some (0, m)
  | some key =>
    if m.hashSize = 0 then none
    else
      (search m.items (fun item => (keys.same item.key key).map (· && item.data = fd)) fuel none
        (m.hashTable (m.indexOf key))).bind fun found =>
          match found.2 with
          | none => some (0, m)
          | some a =>
            (unlink m.items (m.hashTable (m.indexOf key)) found.1 a).map fun r =>
              (1, { m with
                items := Function.update r.1 a none
                hashTable := Function.update m.hashTable (m.indexOf key) r.2 })

/-- The walk of `get_fdnode_byname`: the descriptor it stops at. -/
def fdByName (keys : KeyReader) (fuel : Nat) (m : HashMemory) (uname : Bytes) (ufd : Int) :
    Option (Option Nat) :=
  (hashSearch keys fuel m uname).bind fun found =>
    (search m.items
      (fun item => (keys.same item.key uname).map (· && (ufd < 0 ∨ (item.data : Int) ≠ ufd)))
      fuel none found).bind fun r =>
        match r.2 with
        | none => some none
        | some a => (m.items a).map fun node => some node.data.data

/-- `node_add` before it calls `hash_add`: `malloc` returns memory that is not in use, and the
fields of the item are filled in. -/
def allocate (m : HashMemory) (a : Addr) (item : HashItem) : HashMemory :=
  { m with items := Function.update m.items a (some ⟨item, none⟩) }

end HashMemory

end ArpgServer
