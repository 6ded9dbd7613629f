import Mathlib.Data.List.Basic
import Mathlib.Data.List.Nodup
import Mathlib.Logic.Function.Basic

/-!
# Linked lists in a heap

A null-terminated list is a chain of nodes that are found one after another through their
links. Two chains from one address are the same, so a chain visits no address twice, and a
link can be redirected or a node taken out without touching the rest.
-/

namespace Linked

variable {α : Type}

structure Node (α : Type) where
  data : α
  next : Option Nat

abbrev Heap (α : Type) := Nat → Option (Node α)

/-- The nodes found from `start` on; behind the last one the link is `stop`. -/
def Chain (h : Heap α) : Option Nat → List (Nat × α) → Option Nat → Prop
  | start, [], stop => start = stop
  | start, (a, x) :: rest, stop =>
    start = some a ∧ ∃ next, h a = some ⟨x, next⟩ ∧ Chain h next rest stop

/-- The address of the first node. -/
def first (l : List (Nat × α)) : Option Nat := l.head?.map Prod.fst

/-- The address of the last node. -/
def last (l : List (Nat × α)) : Option Nat := l.getLast?.map Prod.fst

/-- A link is overwritten; writing to a node that is not there faults. -/
def setNext (h : Heap α) (a : Nat) (next : Option Nat) : Option (Heap α) :=
  (h a).map fun node => Function.update h a (some { node with next := next })

variable {h h' : Heap α} {l l' before after : List (Nat × α)} {s t m : Option Nat} {a b : Nat}
  {x y : α}

@[simp] theorem chain_nil : Chain h s [] t ↔ s = t := Iff.rfl

theorem chain_cons : Chain h s ((a, x) :: l) t ↔
    s = some a ∧ ∃ next, h a = some ⟨x, next⟩ ∧ Chain h next l t := Iff.rfl

@[simp] theorem last_append_singleton : last (l ++ [(a, x)]) = some a := by
  simp [last]

theorem chain_append : Chain h s (l ++ l') t ↔ ∃ m, Chain h s l m ∧ Chain h m l' t := by
  induction l generalizing s with
  | nil => simp
  | cons node l ih =>
    obtain ⟨a, x⟩ := node
    rw [List.cons_append]
    simp only [chain_cons, ih]
    constructor
    · rintro ⟨hs, next, ha, m, hl, hl'⟩
      exact ⟨m, ⟨hs, next, ha, hl⟩, hl'⟩
    · rintro ⟨m, ⟨hs, next, ha, hl⟩, hl'⟩
      exact ⟨hs, next, ha, m, hl, hl'⟩

/-- Every node of a chain is allocated. -/
theorem Chain.mem (hc : Chain h s l t) (ha : (a, x) ∈ l) : ∃ next, h a = some ⟨x, next⟩ := by
  induction l generalizing s with
  | nil => cases ha
  | cons node l ih =>
    obtain ⟨b, y⟩ := node
    obtain ⟨-, next, hb, hc⟩ := hc
    rcases List.mem_cons.mp ha with heq | ha
    · cases heq
      exact ⟨next, hb⟩
    · exact ih hc ha

theorem Chain.not_mem_of_none (hc : Chain h s l t) (ha : h a = none) : a ∉ l.map Prod.fst := by
  intro hmem
  obtain ⟨⟨b, x⟩, hbx, rfl⟩ := List.mem_map.mp hmem
  obtain ⟨next, hb⟩ := hc.mem hbx
  rw [ha] at hb
  cases hb

/-- Only the nodes of a chain matter to it. -/
theorem Chain.congr (hc : Chain h s l t) (hh : ∀ a ∈ l.map Prod.fst, h' a = h a) :
    Chain h' s l t := by
  induction l generalizing s with
  | nil => exact hc
  | cons node l ih =>
    obtain ⟨a, x⟩ := node
    obtain ⟨hs, next, ha, hc⟩ := hc
    refine ⟨hs, next, ?_, ih hc fun b hb => hh b (List.mem_cons_of_mem _ hb)⟩
    rw [hh a List.mem_cons_self]
    exact ha

theorem Chain.update (hc : Chain h s l t) (ha : a ∉ l.map Prod.fst) (node : Option (Node α)) :
    Chain (Function.update h a node) s l t := by
  apply hc.congr
  intro b hb
  apply Function.update_of_ne
  rintro rfl
  exact ha hb

theorem Chain.start_eq (hc : Chain h s l none) : s = first l := by
  cases l with
  | nil => exact hc
  | cons node l => exact hc.1

/-- A null-terminated list is determined by its first link. -/
theorem Chain.unique (hc : Chain h s l none) (hc' : Chain h s l' none) : l = l' := by
  induction l generalizing s l' with
  | nil =>
    cases l' with
    | nil => rfl
    | cons node l' =>
      obtain rfl : s = none := hc
      cases hc'.1
  | cons node l ih =>
    obtain ⟨a, x⟩ := node
    obtain ⟨rfl, next, ha, hc⟩ := hc
    cases l' with
    | nil => cases hc'
    | cons node' l' =>
      obtain ⟨b, y⟩ := node'
      obtain ⟨hab, next', hb, hc'⟩ := hc'
      cases hab
      rw [ha] at hb
      cases hb
      rw [ih hc hc']

/-- A null-terminated list visits no address twice. -/
theorem Chain.nodup (hc : Chain h s l none) : (l.map Prod.fst).Nodup := by
  induction l generalizing s with
  | nil => exact List.nodup_nil
  | cons node l ih =>
    obtain ⟨a, x⟩ := node
    have hwhole := hc
    obtain ⟨rfl, next, ha, hc⟩ := hc
    rw [List.map_cons, List.nodup_cons]
    refine ⟨fun hmem => ?_, ih hc⟩
    -- A second visit would start the same list over again.
    obtain ⟨⟨b, y⟩, hby, rfl⟩ := List.mem_map.mp hmem
    obtain ⟨front, back, rfl⟩ := List.append_of_mem hby
    obtain ⟨m, -, hback⟩ := chain_append.mp hc
    obtain rfl := hback.1
    have hlen := congrArg List.length (hwhole.unique hback)
    simp only [List.length_cons, List.length_append] at hlen
    omega

/-! ## Changes -/

theorem setNext_eq_some {next : Option Nat} (hs : setNext h a next = some h') :
    ∃ node, h a = some node ∧ h' = Function.update h a (some { node with next := next }) := by
  obtain ⟨node, ha, rfl⟩ := Option.map_eq_some_iff.mp hs
  exact ⟨node, ha, rfl⟩

/-- The link of the last node is redirected. -/
theorem Chain.redirect (hc : Chain h s (l ++ [(a, x)]) t)
    (hnodup : ((l ++ [(a, x)]).map Prod.fst).Nodup) {next : Option Nat}
    (hs : setNext h a next = some h') : Chain h' s (l ++ [(a, x)]) next := by
  obtain ⟨node, ha, rfl⟩ := setNext_eq_some hs
  obtain ⟨m, hl, hm⟩ := chain_append.mp hc
  obtain ⟨rfl, next', ha', -⟩ := hm
  rw [ha] at ha'
  cases ha'
  have hfresh : a ∉ l.map Prod.fst := by
    rw [List.map_append, List.nodup_append] at hnodup
    exact fun hmem => hnodup.2.2 a hmem a (by simp) rfl
  refine chain_append.mpr ⟨some a, hl.update hfresh _, rfl, next, ?_, rfl⟩
  rw [Function.update_self]

/-- A node behind the end of a null-terminated list. -/
theorem Chain.snoc (hc : Chain h s l (some a)) (ha : h a = some ⟨x, t⟩) :
    Chain h s (l ++ [(a, x)]) t :=
  chain_append.mpr ⟨some a, hc, rfl, t, ha, rfl⟩

/-! ## Searches -/

/-- A loop along the links that keeps the node before the current one and ends at the first node
that passes a test. It is `none` when the fuel runs out or a read faults. -/
def search (h : Heap α) (p : α → Option Bool) :
    Nat → Option Nat → Option Nat → Option (Option Nat × Option Nat)
  | 0, _, _ => none
  | _ + 1, prev, none => some (prev, none)
  | fuel + 1, prev, some a =>
    (h a).bind fun node =>
      (p node.data).bind fun found =>
        if found then some (prev, some a) else search h p fuel (some a) node.next

/-- More fuel does not change what is found. -/
theorem search_mono {p : α → Option Bool} {fuel fuel' : Nat} {prev : Option Nat}
    {r : Option Nat × Option Nat} (hr : search h p fuel prev s = some r) (hle : fuel ≤ fuel') :
    search h p fuel' prev s = some r := by
  induction fuel generalizing prev s fuel' with
  | zero => cases hr
  | succ fuel ih =>
    obtain ⟨fuel', rfl⟩ : ∃ k, fuel' = k + 1 := ⟨fuel' - 1, by omega⟩
    cases s with
    | none => exact hr
    | some a =>
      obtain ⟨node, ha, hr⟩ := Option.bind_eq_some_iff.mp hr
      obtain ⟨found, hp, hr⟩ := Option.bind_eq_some_iff.mp hr
      rw [search, ha, Option.bind_some, hp, Option.bind_some]
      split at hr
      · rename_i hfound
        rw [if_pos hfound]
        exact hr
      · rename_i hfound
        rw [if_neg hfound]
        exact ih hr (by omega)

/-- The nodes in front of the first one that passes a test, and those from it on. -/
def cut (p : α → Option Bool) :
    List (Nat × α) → Option (List (Nat × α) × List (Nat × α))
  | [] => some ([], [])
  | (a, x) :: rest =>
    (p x).bind fun found =>
      if found then some ([], (a, x) :: rest)
      else (cut p rest).map fun r => ((a, x) :: r.1, r.2)

theorem last_cons (node : Nat × α) (l : List (Nat × α)) :
    last (node :: l) = (last l).or (some node.1) := by
  rw [last, List.getLast?_cons, last]
  cases l.getLast? <;> rfl

/-- The loop finds the first such node of a null-terminated list, when it may go on for long
enough. -/
theorem search_eq {p : α → Option Bool} (hc : Chain h s l none) {fuel : Nat}
    (hfuel : l.length < fuel) (prev : Option Nat) :
    search h p fuel prev s = (cut p l).map fun r => ((last r.1).or prev, first r.2) := by
  induction l generalizing s fuel prev with
  | nil =>
    obtain rfl : s = none := hc
    obtain ⟨fuel, rfl⟩ : ∃ k, fuel = k + 1 := ⟨fuel - 1, by omega⟩
    rfl
  | cons node l ih =>
    obtain ⟨a, x⟩ := node
    rw [List.length_cons] at hfuel
    obtain ⟨fuel, rfl⟩ : ∃ k, fuel = k + 1 := ⟨fuel - 1, by omega⟩
    obtain ⟨rfl, next, ha, hc⟩ := hc
    rw [search, ha, Option.bind_some, cut]
    cases p x with
    | none => rfl
    | some found =>
      cases found with
      | true => rfl
      | false =>
        simp only [Option.bind_some, Bool.false_eq_true, if_false]
        rw [ih hc (by omega) (some a), Option.map_map]
        apply Option.map_congr
        intro r _
        show ((last r.1).or (some a), first r.2) = ((last ((a, x) :: r.1)).or prev, first r.2)
        rw [last_cons, Option.or_assoc, Option.some_or]

theorem cut_eq_some {p : α → Option Bool} (hcut : cut p l = some (before, after)) :
    l = before ++ after ∧ (∀ z ∈ before, p z.2 = some false) ∧
      ∀ z rest, after = z :: rest → p z.2 = some true := by
  induction l generalizing before after with
  | nil =>
    cases hcut
    exact ⟨rfl, by simp, by simp⟩
  | cons node l ih =>
    obtain ⟨a, x⟩ := node
    obtain ⟨found, hx, hcut⟩ := Option.bind_eq_some_iff.mp hcut
    cases found with
    | true =>
      cases hcut
      refine ⟨rfl, by simp, ?_⟩
      intro z rest heq
      cases heq
      exact hx
    | false =>
      obtain ⟨⟨front, back⟩, hrest, heq⟩ := Option.map_eq_some_iff.mp hcut
      cases heq
      obtain ⟨rfl, hfront, hback⟩ := ih hrest
      refine ⟨rfl, ?_, hback⟩
      intro z hz
      rcases List.mem_cons.mp hz with rfl | hz
      · exact hx
      · exact hfront z hz

/-! ## Taking a node out -/

/-- The link that leads to the node `a`, the start of the list or that of the node `prev`, is
set to what follows it. -/
def unlink (h : Heap α) (s : Option Nat) (prev : Option Nat) (a : Nat) :
    Option (Heap α × Option Nat) :=
  (h a).bind fun node =>
    match prev with
    | none => some (h, node.next)
    | some b => (setNext h b node.next).map fun h => (h, s)

theorem Chain.unlink (hc : Chain h s (before ++ (a, x) :: after) none) :
    ∃ h' s', unlink h s (last before) a = some (h', s') ∧ Chain h' s' (before ++ after) none ∧
      ∀ b, b ∉ before.map Prod.fst → h' b = h b := by
  have hnodup := hc.nodup
  obtain ⟨m, hbefore, hm⟩ := chain_append.mp hc
  obtain ⟨rfl, next, ha, hafter⟩ := hm
  rcases List.eq_nil_or_concat' before with rfl | ⟨front, ⟨b, y⟩, rfl⟩
  · obtain rfl := hbefore
    refine ⟨h, next, ?_, hafter, fun _ _ => rfl⟩
    rw [Linked.unlink, ha]
    rfl
  · obtain ⟨link, hb⟩ := hbefore.mem (a := b) (x := y) (by simp)
    obtain ⟨h', hset⟩ : ∃ h', setNext h b next = some h' :=
      ⟨_, by rw [setNext, hb, Option.map_some]⟩
    obtain ⟨node, -, hh'⟩ := setNext_eq_some hset
    have hsame : ∀ c, c ≠ b → h' c = h c := by
      intro c hc
      rw [hh', Function.update_of_ne hc]
    rw [List.map_append, List.nodup_append] at hnodup
    have hback : Chain h' next after none := by
      apply hafter.congr
      intro c hmem
      apply hsame
      rintro rfl
      exact hnodup.2.2 c (by simp) c (List.mem_cons_of_mem _ hmem) rfl
    refine ⟨h', s, ?_, chain_append.mpr ⟨next, hbefore.redirect hnodup.1 hset, hback⟩, ?_⟩
    · rw [Linked.unlink, ha, last_append_singleton, Option.bind_some]
      simp only [hset, Option.map_some]
    · intro c hmem
      apply hsame
      rintro rfl
      exact hmem (by simp)

/-! ## Putting a node in -/

/-- A test that never faults splits a list where it holds for the first time. -/
theorem cut_decided (q : α → Bool) (l : List (Nat × α)) :
    cut (fun x => some (q x)) l =
      some (l.takeWhile fun z => !q z.2, l.dropWhile fun z => !q z.2) := by
  induction l with
  | nil => rfl
  | cons node l ih =>
    obtain ⟨a, x⟩ := node
    rw [cut, Option.bind_some]
    cases hx : q x with
    | true => simp [hx]
    | false => simp [hx, ih]

/-- A new node before a list. -/
theorem Chain.push (hc : Chain h s l none) (ha : h a = some ⟨x, t⟩) (hfresh : a ∉ l.map Prod.fst) :
    ∃ h', setNext h a s = some h' ∧ Chain h' (some a) ((a, x) :: l) none ∧
      ∀ c, c ≠ a → h' c = h c := by
  refine ⟨_, by rw [setNext, ha, Option.map_some], ?_, fun c hne => Function.update_of_ne hne ..⟩
  exact ⟨rfl, s, Function.update_self .., hc.update hfresh _⟩

/-- A new node behind a node of a list. -/
theorem Chain.insert (hc : Chain h s (before ++ after) none) (ha : h a = some ⟨x, t⟩)
    (hfresh : a ∉ (before ++ after).map Prod.fst) (hlast : last before = some b) :
    ∃ h', ((setNext h a (first after)).bind fun h => setNext h b (some a)) = some h' ∧
      Chain h' s (before ++ (a, x) :: after) none ∧
      ∀ c, c ∉ before.map Prod.fst → c ≠ a → h' c = h c := by
  have hnodup := hc.nodup
  rw [List.map_append, List.mem_append, not_or] at hfresh
  obtain ⟨m, hbefore, hafter⟩ := chain_append.mp hc
  obtain rfl := hafter.start_eq
  obtain ⟨h₁, hset, hpushed, hsame⟩ := hafter.push ha hfresh.2
  have hbefore₁ : Chain h₁ s before (first after) := by
    refine hbefore.congr fun c hmem => hsame c ?_
    rintro rfl
    exact hfresh.1 hmem
  rcases List.eq_nil_or_concat' before with rfl | ⟨front, ⟨b', y⟩, rfl⟩
  · cases hlast
  obtain rfl : b' = b := by simpa [last] using hlast
  obtain ⟨link, hb⟩ := hbefore₁.mem (a := b') (x := y) (by simp)
  obtain ⟨h', hset'⟩ : ∃ h', setNext h₁ b' (some a) = some h' :=
    ⟨_, by rw [setNext, hb, Option.map_some]⟩
  obtain ⟨node, -, hh'⟩ := setNext_eq_some hset'
  have hkeep : ∀ c, c ≠ b' → h' c = h₁ c := by
    intro c hne
    rw [hh', Function.update_of_ne hne]
  rw [List.map_append, List.nodup_append] at hnodup
  refine ⟨h', by rw [hset, Option.bind_some, hset'], ?_, ?_⟩
  · refine chain_append.mpr ⟨some a, hbefore₁.redirect hnodup.1 hset', hpushed.congr ?_⟩
    intro c hmem
    apply hkeep
    rintro rfl
    rcases List.mem_cons.mp hmem with rfl | hmem
    · exact hfresh.1 (by simp)
    · exact hnodup.2.2 c (by simp) c hmem rfl
  · intro c hmem hne
    rw [hkeep c, hsame c hne]
    rintro rfl
    exact hmem (by simp)

end Linked
