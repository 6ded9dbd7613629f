import ArpgServer.Names.Chains
import Mathlib.Data.List.TakeWhile

/-!
# The name table as an ordered multimap

While the keys of its items are not modified the table is the list of its items in the order
in which they were added: a chain holds the items of one bucket in that order, so the first
item of a key in its chain is the first one of the key at all.
-/

namespace ArpgServer

open Linked

/-- An item, where it is, and the text of its key when it was added. -/
structure Entry where
  addr : Addr
  item : HashItem
  key : Bytes

namespace Entry

def node (e : Entry) : Addr × HashItem := (e.addr, e.item)

/-- The key is `key` and the data `fd`. -/
def isAt (key : Bytes) (fd : Int) (e : Entry) : Bool := e.key = key ∧ (e.item.data : Int) = fd

/-- The key is `key` and the data is not `ufd`. -/
def isOther (key : Bytes) (ufd : Int) (e : Entry) : Bool :=
  e.key = key ∧ (ufd < 0 ∨ (e.item.data : Int) ≠ ufd)

end Entry

variable {keys : KeyReader} {m m' : HashMemory} {l : List Entry} {e : Entry} {key : Bytes}
  {fuel size : Nat} {fd ufd : Int} {a : Addr} {item : HashItem}

/-- The keys of stored items have not been modified. -/
def Reads (keys : KeyReader) (l : List Entry) : Prop :=
  ∀ e ∈ l, ∀ key, keys.same e.item.key key = some (decide (e.key = key))

/-- The items of one bucket. -/
def inBucket (size i : Nat) (l : List Entry) : List Entry :=
  l.filter fun e => bkdrHash e.key % size = i

/-- The chains hold the items of their buckets in the order of the list. -/
structure Represents (m : HashMemory) (l : List Entry) : Prop where
  size : 0 < m.hashSize
  holds : Holds m fun i => (inBucket m.hashSize i l).map Entry.node

/-- The tables after any sequence of calls, with the items that were added and not deleted. The
memory the keys point to may change between two calls, but not behind the key of an item that
is stored. -/
inductive TableRun (size : Nat) : HashMemory → List Entry → Prop where
  | create : TableRun size (.create size) []
  | add (m m' : HashMemory) (l : List Entry) (keys : KeyReader) (fuel : Nat) (a : Addr)
      (item : HashItem) (key : Bytes) (ret : Int) (h : TableRun size m l) (hkeys : Reads keys l)
      (hfree : m.items a = none) (htext : keys.text item.key = some key)
      (hcall : (m.allocate a item).hashAdd keys fuel (some a) = some (ret, m')) :
      TableRun size m' (l ++ [⟨a, item, key⟩])
  | del (m m' : HashMemory) (l : List Entry) (keys : KeyReader) (fuel : Nat) (key : Bytes)
      (fd : Int) (ret : Int) (h : TableRun size m l) (hkeys : Reads keys l)
      (hcall : m.hashDel keys fuel fd (some key) = some (ret, m')) :
      TableRun size m' (l.eraseP (Entry.isAt key fd))

/-! ## One chain -/

/-- A search along a list of items whose test never faults. -/
theorem cut_entries {p : HashItem → Option Bool} {q : Entry → Bool} {l : List Entry}
    (hpq : ∀ e ∈ l, p e.item = some (q e)) :
    cut p (l.map Entry.node) = some ((l.takeWhile fun e => !q e).map Entry.node,
      (l.dropWhile fun e => !q e).map Entry.node) := by
  induction l with
  | nil => rfl
  | cons e l ih =>
    have he := hpq e List.mem_cons_self
    have ih := ih fun e he => hpq e (List.mem_cons_of_mem _ he)
    rw [List.map_cons]
    show (p e.item).bind _ = _
    rw [he, Option.bind_some]
    cases hq : q e with
    | true => simp [hq, Entry.node]
    | false => simp [hq, ih, Entry.node]

theorem eraseP_eq (q : Entry → Bool) (l : List Entry) :
    l.eraseP q = (l.takeWhile fun e => !q e) ++ (l.dropWhile fun e => !q e).tail := by
  induction l with
  | nil => rfl
  | cons e l ih =>
    cases hq : q e with
    | true => simp [hq]
    | false => simp [hq, ih]

theorem mem_inBucket {i : Nat} : e ∈ inBucket size i l ↔ e ∈ l ∧ bkdrHash e.key % size = i := by
  simp [inBucket]

/-- Items that are found by a key are found in the bucket of the key. -/
theorem find?_inBucket (size : Nat) (key : Bytes) {q : Entry → Bool}
    (hq : ∀ e, q e → e.key = key) :
    (inBucket size (bkdrHash key % size) l).find? q = l.find? q := by
  rw [inBucket, List.find?_filter]
  congr 1
  ext e
  by_cases he : q e = true
  · rw [hq e he]
    simp [he]
  · simp [he]

theorem eraseP_inBucket {q : Entry → Bool} (hq : ∀ e, q e → e.key = key) (i : Nat) :
    inBucket size i (l.eraseP q) =
      if i = bkdrHash key % size then (inBucket size i l).eraseP q else inBucket size i l := by
  unfold inBucket
  split
  · rename_i hi
    rw [List.eraseP_filter]
    congr 2
    ext e
    by_cases he : q e = true
    · rw [hq e he, ← hi]
      simp [he]
    · simp [he]
  · rename_i hi
    rcases List.exists_or_eq_self_of_eraseP q l with heq | ⟨e, front, back, -, he, hl, herase⟩
    · rw [heq]
    · have hout : bkdrHash e.key % size ≠ i := by
        rw [hq e he]
        exact fun h => hi h.symm
      rw [herase, hl]
      simp [hout]

theorem length_inBucket_le (i : Nat) : (inBucket size i l).length ≤ l.length :=
  List.length_filter_le ..

/-! ## Calls -/

theorem represents_create (hsize : 0 < size) : Represents (.create size) [] :=
  ⟨hsize, holds_create size⟩

/-- What a search along the chain of a key finds. -/
theorem Reads.cut (hkeys : Reads keys l) (size : Nat) (key : Bytes) (f : HashItem → Bool)
    (i : Nat) :
    Linked.cut (fun item => (keys.same item.key key).map (· && f item))
      ((inBucket size i l).map Entry.node) =
        some (((inBucket size i l).takeWhile
            fun e => !(decide (e.key = key) && f e.item)).map Entry.node,
          ((inBucket size i l).dropWhile
            fun e => !(decide (e.key = key) && f e.item)).map Entry.node) := by
  apply cut_entries
  intro e he
  rw [hkeys e (mem_inBucket.mp he).1, Option.map_some]

theorem Represents.length_lt (size : Nat) (hfuel : l.length < fuel) (i : Nat) :
    ((inBucket size i l).map Entry.node).length < fuel := by
  rw [List.length_map]
  exact Nat.lt_of_le_of_lt (length_inBucket_le i) hfuel

section
variable (h : Represents m l) (hkeys : Reads keys l)
include h hkeys

/-- A search of a key finds the earliest item of the key. -/
theorem Represents.search (hfuel : l.length < fuel) (key : Bytes) :
    m.hashSearch keys fuel key =
      some ((l.find? fun e => e.key = key).map Entry.addr) := by
  have hcut := hkeys.cut m.hashSize key (fun _ => true) (m.indexOf key)
  simp only [Bool.and_true, Option.map_id_fun', id_eq] at hcut
  rw [hashSearch_eq h.holds h.size (Represents.length_lt _ hfuel _), hcut, Option.map_some,
    ← find?_inBucket m.hashSize key (by simp),
    List.find?_eq_head?_dropWhile_not]
  simp only [first, List.head?_map, Option.map_map]
  rfl

/-- The walk of `get_fdnode_byname` stops at the earliest item of the key that it may take. -/
theorem Represents.walk (hfuel : l.length < fuel) (key : Bytes) (ufd : Int) :
    m.fdByName keys fuel key ufd =
      some ((l.find? (Entry.isOther key ufd)).map fun e => e.item.data) := by
  generalize hB : inBucket m.hashSize (m.indexOf key) l = bucket
  have hmem : ∀ e ∈ bucket, e ∈ l := by
    intro e he
    rw [← hB] at he
    exact (mem_inBucket.mp he).1
  have hcut : Linked.cut (fun item => keys.same item.key key) (bucket.map Entry.node) = _ :=
    cut_entries fun e he => hkeys e (hmem e he) key
  have hcut' : Linked.cut (fun item => (keys.same item.key key).map
      (· && (ufd < 0 ∨ (item.data : Int) ≠ ufd)))
      ((bucket.dropWhile fun e => !decide (e.key = key)).map Entry.node) = _ :=
    cut_entries (q := Entry.isOther key ufd) fun e he => by
      rw [hkeys e (hmem e ((List.dropWhile_sublist _).subset he)), Option.map_some,
        Entry.isOther, Bool.decide_and]
  have hskip : (bucket.takeWhile fun e => !decide (e.key = key)).find?
      (Entry.isOther key ufd) = none := by
    rw [List.find?_eq_none]
    intro e he hother
    have hkey := List.mem_takeWhile_imp he
    simp only [Entry.isOther, decide_eq_true_eq] at hother
    simp [hother.1] at hkey
  rw [fdByName_eq h.holds h.size (Represents.length_lt _ hfuel _), hB, hcut, Option.bind_some,
    hcut', Option.map_some, ← find?_inBucket m.hashSize key (by
      intro e he
      simp only [Entry.isOther, decide_eq_true_eq] at he
      exact he.1)]
  rw [show inBucket m.hashSize (bkdrHash key % m.hashSize) l = bucket from hB,
    ← List.takeWhile_append_dropWhile (p := fun e => !decide (e.key = key)) (l := bucket),
    List.find?_append, hskip, Option.none_or, List.takeWhile_append_dropWhile,
    List.find?_eq_head?_dropWhile_not]
  simp only [List.head?_map, Option.map_map]
  rfl

/-- A deletion takes the earliest item of the key with the data out of the list. -/
theorem Represents.del (hfuel : l.length < fuel) (key : Bytes) (fd : Int) :
    ∃ m', m.hashDel keys fuel fd (some key) =
        some (if l.any (Entry.isAt key fd) then 1 else 0, m') ∧
      Represents m' (l.eraseP (Entry.isAt key fd)) ∧
      (l.any (Entry.isAt key fd) = false → m' = m) := by
  have hq : ∀ e, Entry.isAt key fd e → e.key = key := by
    intro e he
    simp only [Entry.isAt, decide_eq_true_eq] at he
    exact he.1
  have hcut := hkeys.cut m.hashSize key (fun item => (item.data : Int) = fd)
    (m.indexOf key)
  have htest : (fun e : Entry => !(decide (e.key = key) && decide ((e.item.data : Int) = fd))) =
      fun e => !Entry.isAt key fd e := by
    ext e
    rw [Entry.isAt, Bool.decide_and]
  rw [htest] at hcut
  have hfind := find?_inBucket m.hashSize key (l := l) hq
  rw [show inBucket m.hashSize (bkdrHash key % m.hashSize) l =
    inBucket m.hashSize (m.indexOf key) l from rfl, List.find?_eq_head?_dropWhile_not] at hfind
  cases hdrop : (inBucket m.hashSize (m.indexOf key) l).dropWhile
      fun e => !Entry.isAt key fd e with
  | nil =>
    rw [hdrop] at hcut hfind
    have hnone : l.any (Entry.isAt key fd) = false := by
      rw [List.any_eq_false]
      exact List.find?_eq_none.mp hfind.symm
    refine ⟨m, ?_, ?_, fun _ => rfl⟩
    · rw [hnone]
      exact hashDel_missing h.holds h.size (Represents.length_lt _ hfuel _) hcut
    · rw [List.eraseP_of_forall_not (List.find?_eq_none.mp hfind.symm)]
      exact h
  | cons e after =>
    have hfuel' := Represents.length_lt m.hashSize hfuel (m.indexOf key)
    have herase := eraseP_eq (Entry.isAt key fd) (inBucket m.hashSize (m.indexOf key) l)
    rw [hdrop, List.tail_cons] at herase
    rw [hdrop] at hcut hfind
    have hsome : l.any (Entry.isAt key fd) = true := by
      rw [List.any_eq_true]
      exact ⟨e, List.mem_of_find?_eq_some hfind.symm, List.find?_some hfind.symm⟩
    obtain ⟨m', hm', hsize, hholds⟩ := hashDel_found h.holds h.size hfuel' hcut
    refine ⟨m', by rw [hsome]; exact hm', ⟨by rw [hsize]; exact h.size, ?_⟩, by simp [hsome]⟩
    rw [hsize]
    convert hholds using 2 with i
    rw [eraseP_inBucket hq i, show bkdrHash key % m.hashSize = m.indexOf key from rfl]
    by_cases hi : i = m.indexOf key
    · subst hi
      rw [if_pos rfl, Function.update_self, herase, List.map_append]
    · rw [if_neg hi, Function.update_of_ne hi]

omit hkeys in
theorem Represents.add (hfuel : l.length < fuel) (hfree : m.items a = none)
    (htext : keys.text item.key = some key) :
    ∃ m', (m.allocate a item).hashAdd keys fuel (some a) = some (1, m') ∧
      Represents m' (l ++ [⟨a, item, key⟩]) := by
  have hfresh : ∀ i, a ∉ ((inBucket m.hashSize i l).map Entry.node).map Prod.fst := fun i =>
    (h.holds.chain i).not_mem_of_none hfree
  have hmore : Holds (m.allocate a item) fun i => (inBucket m.hashSize i l).map Entry.node :=
    ⟨fun i => (h.holds.chain i).update (hfresh i) _, h.holds.apart⟩
  obtain ⟨m', hm', hsize, hholds⟩ :=
    hashAdd_eq keys hmore h.size hfresh (Function.update_self ..) htext
    (Represents.length_lt _ hfuel _)
  have hsize : m'.hashSize = m.hashSize := hsize
  refine ⟨m', hm', by rw [hsize]; exact h.size, ?_⟩
  rw [hsize]
  convert hholds using 2 with i
  by_cases hi : i = (m.allocate a item).indexOf key
  · subst hi
    rw [Function.update_self, inBucket, List.filter_append, List.map_append]
    congr 1
    simp [HashMemory.indexOf, HashMemory.allocate, Entry.node]
  · have hout : ¬ bkdrHash key % m.hashSize = i := fun heq => hi heq.symm
    rw [Function.update_of_ne hi, inBucket, List.filter_append]
    simp [hout, inBucket]

end

/-! ## All sequences of calls -/

theorem TableRun.represents (hsize : 0 < size) (h : TableRun size m l) : Represents m l := by
  induction h with
  | create => exact represents_create hsize
  | add m m' l keys fuel a item key ret h hkeys hfree htext hcall ih =>
    have hfuel : l.length < max fuel (l.length + 1) := by omega
    obtain ⟨m₁, hm₁, hrep⟩ := ih.add hfuel hfree htext
    rw [hashAdd_mono hcall (Nat.le_max_left ..)] at hm₁
    cases hm₁
    exact hrep
  | del m m' l keys fuel key fd ret h hkeys hcall ih =>
    have hfuel : l.length < max fuel (l.length + 1) := by omega
    obtain ⟨m₁, hm₁, hrep, -⟩ := ih.del hkeys hfuel key fd
    rw [hashDel_mono hcall (Nat.le_max_left ..)] at hm₁
    cases hm₁
    exact hrep

/-- A table and an ordered multimap behave alike: every call returns, given fuel for the chain,
with the result for the earliest item that qualifies, and does to the chains what it does to
the list. -/
structure RefinesMultimap (keys : KeyReader) (m : HashMemory) (l : List Entry) : Prop where
  chains : Represents m l
  search : ∀ key fuel, l.length < fuel →
    m.hashSearch keys fuel key = some ((l.find? fun e => e.key = key).map Entry.addr)
  add : ∀ a item key fuel, l.length < fuel → m.items a = none → keys.text item.key = some key →
    ∃ m', (m.allocate a item).hashAdd keys fuel (some a) = some (1, m') ∧
      Represents m' (l ++ [⟨a, item, key⟩])
  del : ∀ key fd fuel, l.length < fuel →
    ∃ m', m.hashDel keys fuel fd (some key) =
        some (if l.any (Entry.isAt key fd) then 1 else 0, m') ∧
      Represents m' (l.eraseP (Entry.isAt key fd)) ∧
      (l.any (Entry.isAt key fd) = false → m' = m)
  walk : ∀ key ufd fuel, l.length < fuel →
    m.fdByName keys fuel key ufd =
      some ((l.find? (Entry.isOther key ufd)).map fun e => e.item.data)

/-- **Name table.** After every sequence of calls the table is the ordered multimap of the items
that were added and not deleted. -/
theorem hashTable_refines (hsize : 0 < size) (h : TableRun size m l) (hkeys : Reads keys l) :
    RefinesMultimap keys m l where
  chains := h.represents hsize
  search := by
    intro key fuel hfuel
    exact (h.represents hsize).search hkeys hfuel key
  add := by
    intro a item key fuel hfuel hfree htext
    exact (h.represents hsize).add hfuel hfree htext
  del := by
    intro key fd fuel hfuel
    exact (h.represents hsize).del hkeys hfuel key fd
  walk := by
    intro key ufd fuel hfuel
    exact (h.represents hsize).walk hkeys hfuel key ufd

/-- Keys at two places: the letter `a` at 100 and `b` elsewhere. -/
def twoKeys : KeyReader where
  text := fun p => some (if p = 100 then [97] else [98])
  same := fun p key => some (decide ((if p = 100 then [97] else [98]) = key))

/-- Two items in the only chain of a table. -/
theorem hashTable_refines_collision :
    ∃ m, TableRun 1 m [⟨10, ⟨100, 5⟩, [97]⟩, ⟨20, ⟨200, 6⟩, [98]⟩] ∧
    RefinesMultimap twoKeys m [⟨10, ⟨100, 5⟩, [97]⟩, ⟨20, ⟨200, 6⟩, [98]⟩] := by
  have hone : Reads twoKeys [⟨10, ⟨100, 5⟩, [97]⟩] := by
    intro e he key
    rw [List.mem_singleton.mp he]
    rfl
  have htwo : Reads twoKeys [⟨10, ⟨100, 5⟩, [97]⟩, ⟨20, ⟨200, 6⟩, [98]⟩] := by
    intro e he key
    rcases List.mem_cons.mp he with rfl | he
    · rfl
    · rw [List.mem_singleton.mp he]
      rfl
  have hcheck : (((HashMemory.create 1).allocate 10 ⟨100, 5⟩).hashAdd twoKeys 1 (some 10)).any
      (fun r => (r.2.items 20).isNone ∧
        ((r.2.allocate 20 ⟨200, 6⟩).hashAdd twoKeys 2 (some 20)).isSome) := by
    decide +kernel
  obtain ⟨⟨ret, m₁⟩, hadd, hcheck⟩ := (Option.any_eq_true _ _).mp hcheck
  obtain ⟨hfree, hcheck⟩ := of_decide_eq_true hcheck
  obtain ⟨⟨ret', m₂⟩, hadd'⟩ := Option.isSome_iff_exists.mp hcheck
  have hrun₁ : TableRun 1 m₁ [⟨10, ⟨100, 5⟩, [97]⟩] :=
    .add _ m₁ [] twoKeys 1 10 ⟨100, 5⟩ [97] ret .create (by intro e he; cases he) rfl rfl hadd
  have hrun₂ : TableRun 1 m₂ [⟨10, ⟨100, 5⟩, [97]⟩, ⟨20, ⟨200, 6⟩, [98]⟩] :=
    .add m₁ m₂ _ twoKeys 2 20 ⟨200, 6⟩ [98] ret' hrun₁ hone (Option.isNone_iff_eq_none.mp hfree)
      rfl hadd'
  exact ⟨m₂, hrun₂, hashTable_refines (by decide) hrun₂ htwo⟩

end ArpgServer
