import ArpgServer.Model.HashTable

/-!
# The chains of the name table

The loops of `hash.c` walk one chain. A search returns its first item that passes the test, an
item is added behind the last one, and an item is taken out of the one chain it is in; the
lists of `Model/Hash` are these chains.
-/

namespace ArpgServer

open Linked

variable {keys : KeyReader} {m : HashMemory} {nodes : Nat → List (Addr × HashItem)} {key : Bytes}
  {fuel : Nat} {fd : Int} {a : Addr} {item : HashItem} {before after : List (Addr × HashItem)}

/-- The items of each chain, with their addresses. No item is in two chains. -/
structure Holds (m : HashMemory) (nodes : Nat → List (Addr × HashItem)) : Prop where
  chain : ∀ i, Chain m.items (m.hashTable i) (nodes i) none
  apart : ∀ i j, i ≠ j → ∀ a ∈ (nodes i).map Prod.fst, a ∉ (nodes j).map Prod.fst

theorem holds_create (size : Nat) : Holds (.create size) fun _ => [] where
  chain := by
    intro i
    rfl
  apart := by
    intro i j _ a ha
    cases ha

/-- A chain and what is left of the others when its nodes change. -/
theorem Holds.change (h : Holds m nodes) {i : Nat} {items : Heap HashItem}
    {start : Option Addr} {chain : List (Addr × HashItem)}
    (hchain : Chain items start chain none)
    (hitems : ∀ j, j ≠ i → ∀ a ∈ (nodes j).map Prod.fst, items a = m.items a)
    (hnew : ∀ a ∈ chain.map Prod.fst, a ∉ (nodes i).map Prod.fst →
      ∀ j, j ≠ i → a ∉ (nodes j).map Prod.fst) :
    Holds { m with items := items, hashTable := Function.update m.hashTable i start }
      (Function.update nodes i chain) where
  chain := by
    intro j
    by_cases hj : j = i
    · subst hj
      simpa using hchain
    · simp only [Function.update_of_ne hj]
      exact (h.chain j).congr (hitems j hj)
  apart := by
    have hout : ∀ j, j ≠ i → ∀ a ∈ chain.map Prod.fst, a ∉ (nodes j).map Prod.fst := by
      intro j hj a ha
      by_cases hold : a ∈ (nodes i).map Prod.fst
      · exact h.apart i j hj.symm a hold
      · exact hnew a ha hold j hj
    intro j k hjk a ha
    by_cases hj : j = i
    · subst hj
      rw [Function.update_self] at ha
      rw [Function.update_of_ne hjk.symm]
      exact hout k hjk.symm a ha
    · rw [Function.update_of_ne hj] at ha
      by_cases hk : k = i
      · subst hk
        rw [Function.update_self]
        exact fun hmem => hout j hj a hmem ha
      · rw [Function.update_of_ne hk]
        exact h.apart j k hjk a ha

theorem hashSearch_eq (h : Holds m nodes) (hsize : 0 < m.hashSize)
    (hfuel : (nodes (m.indexOf key)).length < fuel) :
    m.hashSearch keys fuel key =
      (cut (fun item => keys.same item.key key) (nodes (m.indexOf key))).map
        fun r => first r.2 := by
  rw [HashMemory.hashSearch, if_pos hsize, search_eq (h.chain _) hfuel, Option.map_map]
  rfl

/-- A test that no node passes cuts nothing off. -/
theorem cut_false (l : List (Addr × HashItem)) :
    cut (fun _ => some false) l = some (l, []) := by
  induction l with
  | nil => rfl
  | cons node l ih =>
    rw [cut, ih]
    rfl

/-- The new item is the last one of its chain. -/
theorem hashAdd_eq (keys : KeyReader) (h : Holds m nodes) (hsize : 0 < m.hashSize)
    (hfresh : ∀ i, a ∉ (nodes i).map Prod.fst) (hitem : m.items a = some ⟨item, none⟩)
    (htext : keys.text item.key = some key)
    (hfuel : (nodes (m.indexOf key)).length < fuel) :
    ∃ m', m.hashAdd keys fuel (some a) = some (1, m') ∧ m'.hashSize = m.hashSize ∧
      Holds m' (Function.update nodes (m.indexOf key)
        (nodes (m.indexOf key) ++ [(a, item)])) := by
  have hsize' : m.hashSize ≠ 0 := by omega
  have hchain := h.chain (m.indexOf key)
  have hsearch := search_eq (p := fun _ => some false) hchain hfuel none
  rw [cut_false, Option.map_some, Option.or_none] at hsearch
  have hnew : ∀ b ∈ (nodes (m.indexOf key) ++ [(a, item)]).map Prod.fst,
      b ∉ (nodes (m.indexOf key)).map Prod.fst →
      ∀ j, j ≠ m.indexOf key → b ∉ (nodes j).map Prod.fst := by
    intro b hb hout j _
    rw [List.map_append, List.mem_append] at hb
    obtain rfl : b = a := by simpa using hb.resolve_left hout
    exact hfresh j
  simp only [HashMemory.hashAdd, if_neg hsize', hitem, htext, Option.bind_some, hsearch]
  rcases List.eq_nil_or_concat' (nodes (m.indexOf key)) with hnil | ⟨front, ⟨l, x⟩, hfront⟩
  · rw [hnil] at hchain ⊢
    have hone : Chain m.items (some a) [(a, item)] none := ⟨rfl, none, hitem, rfl⟩
    refine ⟨_, rfl, rfl, h.change hone ?_ ?_⟩
    · intro j _ b _
      rfl
    · intro b hb
      apply hnew b
      rw [hnil]
      exact hb
  · rw [hfront] at hchain
    obtain ⟨next, hl⟩ := hchain.mem (a := l) (x := x) (by simp)
    obtain ⟨items, hset⟩ : ∃ items, setNext m.items l (some a) = some items :=
      ⟨_, by rw [setNext, hl, Option.map_some]⟩
    obtain ⟨node, -, hitems⟩ := setNext_eq_some hset
    have hmem : l ∈ (nodes (m.indexOf key)).map Prod.fst := by
      rw [hfront]
      simp
    have hla : a ≠ l := by
      rintro rfl
      exact hfresh _ hmem
    have hlong := hchain.redirect hchain.nodup hset
    have hwhole : Chain items (m.hashTable (m.indexOf key))
        (nodes (m.indexOf key) ++ [(a, item)]) none := by
      rw [hfront]
      apply hlong.snoc
      rw [hitems, Function.update_of_ne hla]
      exact hitem
    have hlast : last (nodes (m.indexOf key)) = some l := by
      rw [hfront]
      exact last_append_singleton
    rw [hlast]
    simp only [hset, Option.map_some]
    have hkept := h.change (i := m.indexOf key) hwhole ?_ hnew
    · refine ⟨_, rfl, rfl, ?_⟩
      simpa using hkept
    · intro j hj b hb
      rw [hitems]
      apply Function.update_of_ne
      rintro rfl
      exact h.apart j _ hj b hb hmem

theorem hashDel_missing (h : Holds m nodes) (hsize : 0 < m.hashSize)
    (hfuel : (nodes (m.indexOf key)).length < fuel)
    (hcut : cut (fun item => (keys.same item.key key).map (· && item.data = fd))
      (nodes (m.indexOf key)) = some (before, [])) :
    m.hashDel keys fuel fd (some key) = some (0, m) := by
  have hsize' : m.hashSize ≠ 0 := by omega
  simp only [HashMemory.hashDel, if_neg hsize', search_eq (h.chain _) hfuel, hcut, Option.map_some,
    Option.bind_some]
  rfl

/-- The item found is taken out of its chain. -/
theorem hashDel_found (h : Holds m nodes) (hsize : 0 < m.hashSize)
    (hfuel : (nodes (m.indexOf key)).length < fuel)
    (hcut : cut (fun item => (keys.same item.key key).map (· && item.data = fd))
      (nodes (m.indexOf key)) = some (before, (a, item) :: after)) :
    ∃ m', m.hashDel keys fuel fd (some key) = some (1, m') ∧ m'.hashSize = m.hashSize ∧
      Holds m' (Function.update nodes (m.indexOf key) (before ++ after)) := by
  have hsize' : m.hashSize ≠ 0 := by omega
  have hchain := h.chain (m.indexOf key)
  have hnodes := (cut_eq_some hcut).1
  have hnodup := hchain.nodup
  rw [hnodes] at hchain hnodup
  obtain ⟨items, start, hunlink, hrest, hkept⟩ := hchain.unlink
  have hprev : (last before).or none = last before := Option.or_none
  have hfirst : first ((a, item) :: after) = some a := rfl
  simp only [HashMemory.hashDel, if_neg hsize', search_eq (h.chain _) hfuel, hcut, Option.map_some,
    Option.bind_some, hprev, hfirst, hunlink]
  refine ⟨_, rfl, rfl, h.change ?_ ?_ ?_⟩
  · apply hrest.update
    rw [List.map_append, List.map_cons, List.nodup_append, List.nodup_cons] at hnodup
    rw [List.map_append, List.mem_append]
    rintro (hmem | hmem)
    · exact hnodup.2.2 a hmem a List.mem_cons_self rfl
    · exact hnodup.2.1.1 hmem
  · intro j hj b hb
    have hout : b ∉ (before ++ (a, item) :: after).map Prod.fst := by
      rw [← hnodes]
      exact h.apart j _ hj b hb
    rw [List.map_append, List.mem_append, not_or] at hout
    have hba : b ≠ a := by
      rintro rfl
      exact hout.2 List.mem_cons_self
    rw [Function.update_of_ne hba]
    exact hkept b hout.1
  · intro b hb hout
    rw [hnodes] at hout
    refine absurd ?_ hout
    rw [List.map_append, List.mem_append] at hb ⊢
    exact hb.imp_right (List.mem_cons_of_mem a)

theorem fdByName_eq (h : Holds m nodes) (hsize : 0 < m.hashSize) {ufd : Int}
    (hfuel : (nodes (m.indexOf key)).length < fuel) :
    m.fdByName keys fuel key ufd =
      ((cut (fun item => keys.same item.key key) (nodes (m.indexOf key))).bind fun r =>
        cut (fun item => (keys.same item.key key).map
          (· && (ufd < 0 ∨ (item.data : Int) ≠ ufd))) r.2).map
            fun r => r.2.head?.map fun node => node.2.data := by
  rw [HashMemory.fdByName, hashSearch_eq h hsize hfuel]
  cases hfound : cut (fun item => keys.same item.key key) (nodes (m.indexOf key)) with
  | none => rfl
  | some r =>
    obtain ⟨front, back⟩ := r
    have hchain := h.chain (m.indexOf key)
    rw [(cut_eq_some hfound).1] at hchain hfuel
    obtain ⟨s, -, hback⟩ := chain_append.mp hchain
    rw [List.length_append] at hfuel
    have hstart := hback.start_eq
    rw [hstart] at hback
    simp only [Option.map_some, Option.bind_some]
    rw [search_eq hback (by omega)]
    cases hcut : cut _ back with
    | none => rfl
    | some r =>
      obtain ⟨skipped, rest⟩ := r
      cases rest with
      | nil => rfl
      | cons node rest =>
        obtain ⟨b, y⟩ := node
        have hmem : (b, y) ∈ back := by
          rw [(cut_eq_some hcut).1]
          simp
        obtain ⟨next, hb⟩ := hback.mem hmem
        simp [first, hb]

/-! ## Fuel -/

/-- A call that has returned returns the same with more fuel. -/
theorem hashAdd_mono {fuel' : Nat} {start : Option Addr} {r : Int × HashMemory}
    (hr : m.hashAdd keys fuel start = some r) (hle : fuel ≤ fuel') :
    m.hashAdd keys fuel' start = some r := by
  cases start with
  | none => exact hr
  | some a =>
    simp only [HashMemory.hashAdd] at hr ⊢
    by_cases hsize : m.hashSize = 0
    · rw [if_pos hsize] at hr
      cases hr
    · rw [if_neg hsize] at hr
      obtain ⟨node, ha, hr⟩ := Option.bind_eq_some_iff.mp hr
      obtain ⟨text, htext, hr⟩ := Option.bind_eq_some_iff.mp hr
      obtain ⟨found, hfound, hr⟩ := Option.bind_eq_some_iff.mp hr
      rw [if_neg hsize, ha, Option.bind_some, htext, Option.bind_some, search_mono hfound hle,
        Option.bind_some]
      exact hr

theorem hashDel_mono {fuel' : Nat} {key : Option Bytes} {r : Int × HashMemory}
    (hr : m.hashDel keys fuel fd key = some r) (hle : fuel ≤ fuel') :
    m.hashDel keys fuel' fd key = some r := by
  cases key with
  | none => exact hr
  | some key =>
    simp only [HashMemory.hashDel] at hr ⊢
    by_cases hsize : m.hashSize = 0
    · rw [if_pos hsize] at hr
      cases hr
    · rw [if_neg hsize] at hr
      obtain ⟨found, hfound, hr⟩ := Option.bind_eq_some_iff.mp hr
      rw [if_neg hsize, search_mono hfound hle, Option.bind_some]
      exact hr

/-! ## The lists of the name table -/

section
variable {env : Env} {s t : State}

/-- Keys are the usernames of client records. -/
def readerOf (env : Env) (s : State) : KeyReader where
  text := nameAt env s
  same := fun p name => keyIs env s ⟨p, 0⟩ name

theorem readerOf_same (item : HashItem) (name : Bytes) :
    (readerOf env s).same item.key name = keyIs env s item name := rfl

/-- The items in memory are those of the lists. -/
def Stored (m : HashMemory) (s : State) : Prop :=
  m.hashSize = s.hashSize ∧ ∃ nodes, Holds m nodes ∧ ∀ i, (nodes i).map Prod.snd = s.hashTable i

theorem chainFrom_eq_cut (name : Bytes) (l : List (Addr × HashItem)) :
    chainFrom env s name (l.map Prod.snd) =
      (cut (fun item => (readerOf env s).same item.key name) l).map fun r => r.2.map Prod.snd := by
  induction l with
  | nil => rfl
  | cons node l ih =>
    obtain ⟨a, item⟩ := node
    rw [List.map_cons, chainFrom, cut, ← readerOf_same]
    cases (readerOf env s).same item.key name with
    | none => rfl
    | some same =>
      cases same with
      | true => rfl
      | false =>
        simp only [Option.bind_some, Bool.false_eq_true, if_false, ih, Option.map_map]
        rfl

theorem chainDel_eq_cut (name : Bytes) (k : Nat) (l : List (Addr × HashItem)) :
    chainDel env s name k (l.map Prod.snd) =
      (cut (fun item => ((readerOf env s).same item.key name).map
        (· && item.data = (k : Int))) l).map fun r => (r.1 ++ r.2.tail).map Prod.snd := by
  induction l with
  | nil => rfl
  | cons node l ih =>
    obtain ⟨a, item⟩ := node
    rw [List.map_cons, chainDel, cut, ← readerOf_same]
    cases (readerOf env s).same item.key name with
    | none => rfl
    | some same =>
      simp only [Option.bind_some, Option.map_some]
      by_cases hfound : same = true ∧ item.data = k
      · have htest : (same && decide ((item.data : Int) = k)) = true := by
          simpa using hfound
        rw [if_pos hfound, if_pos htest]
        rfl
      · have htest : ¬ (same && decide ((item.data : Int) = k)) = true := by
          simpa using hfound
        rw [if_neg hfound, if_neg htest, ih, Option.map_map, Option.map_map]
        rfl

theorem fdByName_eq_cut (name : Bytes) (ufd : Int) (l : List (Addr × HashItem)) :
    fdByName env s name ufd (l.map Prod.snd) =
      (cut (fun item => ((readerOf env s).same item.key name).map
        (· && (ufd < 0 ∨ (item.data : Int) ≠ ufd))) l).map
          fun r => r.2.head?.map fun node => node.2.data := by
  induction l with
  | nil => rfl
  | cons node l ih =>
    obtain ⟨a, item⟩ := node
    rw [List.map_cons, fdByName, cut, ← readerOf_same]
    cases (readerOf env s).same item.key name with
    | none => rfl
    | some same =>
      simp only [Option.bind_some, Option.map_some]
      by_cases hfound : same = true ∧ (ufd < 0 ∨ (item.data : Int) ≠ ufd)
      · have htest : (same && decide (ufd < 0 ∨ (item.data : Int) ≠ ufd)) = true := by
          simpa using hfound
        rw [if_pos hfound, if_pos htest]
        rfl
      · have htest : ¬ (same && decide (ufd < 0 ∨ (item.data : Int) ≠ ufd)) = true := by
          simpa using hfound
        rw [if_neg hfound, if_neg htest, ih, Option.map_map]
        rfl

/-- How much fuel a call needs: more than its chain is long. -/
def State.fuelFor (s : State) (key : Bytes) : Nat := (s.hashTable (s.bucketOf key)).length + 1

theorem Stored.bucket (key : Bytes) (h : m.hashSize = s.hashSize) :
    m.indexOf key = s.bucketOf key := by
  rw [HashMemory.indexOf, State.bucketOf, h]

/-- The name lookup in memory. -/
theorem Stored.getFdnodeByname (h : Stored m s) (hsize : 0 < s.hashSize) (ufd : Int)
    (hfuel : s.fuelFor key ≤ fuel) :
    (m.fdByName (readerOf env s) fuel key ufd).map (fun fd => fd.bind s.fdClients) =
      getFdnodeByname env s key ufd := by
  obtain ⟨heq, nodes, hholds, hnodes⟩ := h
  have hindex := Stored.bucket key heq
  have hlen : (nodes (m.indexOf key)).length < fuel := by
    rw [State.fuelFor, ← hnodes, List.length_map, ← hindex] at hfuel
    omega
  rw [fdByName_eq hholds (by omega) hlen, ArpgServer.getFdnodeByname, ArpgServer.hashSearch,
    if_pos hsize, ← hindex, ← hnodes, chainFrom_eq_cut]
  cases cut (fun item => (readerOf env s).same item.key key) (nodes (m.indexOf key)) with
  | none => rfl
  | some r => simp only [Option.bind_some, Option.map_some, fdByName_eq_cut]

/-- An item is added in memory as to its list. -/
theorem Stored.hashAdd (h : Stored m s) (hadd : hashAdd env s item = some t)
    (ha : m.items a = none) (hfuel : ∀ name, nameAt env s item.key = some name →
      s.fuelFor name ≤ fuel) :
    ∃ m', (m.allocate a item).hashAdd (readerOf env s) fuel (some a) = some (1, m') ∧
      Stored m' t := by
  obtain ⟨heq, nodes, hholds, hnodes⟩ := h
  obtain ⟨name, hname, rfl⟩ := hashAdd_eq_some hadd
  have hsize : 0 < s.hashSize := by
    unfold ArpgServer.hashAdd at hadd
    split at hadd
    · cases hadd
    · omega
  have hfresh : ∀ i, a ∉ (nodes i).map Prod.fst := fun i => (hholds.chain i).not_mem_of_none ha
  have hmore : Holds (m.allocate a item) nodes :=
    ⟨fun i => (hholds.chain i).update (hfresh i) _, hholds.apart⟩
  have hindex : (m.allocate a item).indexOf name = s.bucketOf name :=
    Stored.bucket (m := m.allocate a item) name heq
  have hlen : (nodes ((m.allocate a item).indexOf name)).length < fuel := by
    have := hfuel name hname
    rw [State.fuelFor, ← hnodes, List.length_map, ← hindex] at this
    omega
  obtain ⟨m', hm', hsize', hholds'⟩ := hashAdd_eq (readerOf env s) hmore (by
    show 0 < m.hashSize
    omega) hfresh (Function.update_self ..) hname hlen
  refine ⟨m', hm', hsize'.trans heq, _, hholds', fun i => ?_⟩
  rw [hindex, State.setBucket_hashTable]
  by_cases hi : i = s.bucketOf name
  · rw [hi, Function.update_self, Function.update_self, List.map_append, hnodes]
    rfl
  · rw [Function.update_of_ne hi, Function.update_of_ne hi]
    exact hnodes i

/-- An item is taken out in memory as out of its list. -/
theorem Stored.hashDel (h : Stored m s) {k : Nat} (hdel : hashDel env s key k = some t)
    (hfuel : s.fuelFor key ≤ fuel) :
    ∃ ret m', m.hashDel (readerOf env s) fuel k (some key) = some (ret, m') ∧ Stored m' t := by
  obtain ⟨heq, nodes, hholds, hnodes⟩ := h
  obtain ⟨chain, hchain, rfl⟩ := hashDel_eq_some hdel
  have hsize : 0 < s.hashSize := by
    unfold ArpgServer.hashDel at hdel
    split at hdel
    · cases hdel
    · omega
  have hindex := Stored.bucket key heq
  have hlen : (nodes (m.indexOf key)).length < fuel := by
    rw [State.fuelFor, ← hnodes, List.length_map, ← hindex] at hfuel
    omega
  rw [← hindex, ← hnodes, chainDel_eq_cut] at hchain
  obtain ⟨⟨before, after⟩, hcut, rfl⟩ := Option.map_eq_some_iff.mp hchain
  have hchange : ∀ nodes' : Nat → List (Addr × HashItem),
      nodes' = Function.update nodes (m.indexOf key) (before ++ after.tail) →
      ∀ i, (nodes' i).map Prod.snd = (s.setBucket (s.bucketOf key)
        ((before ++ after.tail).map Prod.snd)).hashTable i := by
    rintro nodes' rfl i
    rw [hindex, State.setBucket_hashTable]
    by_cases hi : i = s.bucketOf key
    · rw [hi, Function.update_self, Function.update_self]
    · rw [Function.update_of_ne hi, Function.update_of_ne hi]
      exact hnodes i
  cases after with
  | nil =>
    refine ⟨0, m, hashDel_missing hholds (by omega) hlen hcut, heq, nodes, hholds, ?_⟩
    apply hchange
    rw [List.tail_nil, ← (cut_eq_some hcut).1, Function.update_eq_self]
  | cons node after =>
    obtain ⟨b, y⟩ := node
    obtain ⟨m', hm', hsize', hholds'⟩ := hashDel_found hholds (by omega) hlen hcut
    exact ⟨1, m', hm', hsize'.trans heq, _, hholds', hchange _ rfl⟩

end

end ArpgServer
