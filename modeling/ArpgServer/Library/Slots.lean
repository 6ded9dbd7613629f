import Mathlib.Data.List.Infix

/-!
# Texts with slots

A template is a text with slots: each slot has an opening and a stop, and its value is read
from the opening up to the first stop. The values come back from a filled template exactly
when no value holds the stop of its slot, as long as a stop does not overlap itself.
-/

namespace Slots

variable {α : Type*}

/-! ## Stops -/

/-- No end of the stop is also a start of it. -/
def Borderless (stop : List α) : Prop :=
  stop ≠ [] ∧ ∀ k < stop.length, 0 < k → ¬ stop.drop k <+: stop

variable {stop v rest t : List α}

/-- The first stop is not met before its place. -/
theorem Borderless.not_prefix (hb : Borderless stop) (hv : ¬ stop <:+: v) (hne : v ≠ []) :
    ¬ stop <+: v ++ (stop ++ rest) := by
  intro h
  by_cases hlen : stop.length ≤ v.length
  · exact hv (List.prefix_of_prefix_length_le h (List.prefix_append v _) hlen).isInfix
  · have hpos : 0 < v.length := List.length_pos_iff.mpr hne
    obtain ⟨x, hx⟩ := List.prefix_of_prefix_length_le (List.prefix_append v _) h (by omega)
    have hdrop : stop.drop v.length = x := by rw [← hx, List.drop_left]
    refine hb.2 v.length (by omega) hpos ?_
    rw [hdrop]
    rw [← hx, List.prefix_append_right_inj, hx] at h
    refine List.prefix_of_prefix_length_le h (List.prefix_append stop rest) ?_
    rw [← hdrop, List.length_drop]
    omega

/-! ## Templates -/

structure Slot (α : Type*) where
  opening : List α
  stop : List α

/-- The filled slots and the end of the template. -/
def text (tail : List α) : List (Slot α × List α) → List α
  | [] => tail
  | (slot, v) :: fields => slot.opening ++ (v ++ (slot.stop ++ text tail fields))

/-- No value holds the stop of its slot. -/
def Clean (fields : List (Slot α × List α)) : Prop := ∀ x ∈ fields, ¬ x.1.stop <:+: x.2

variable {tail : List α} {f : List (Slot α × List α)}

/-! ## Reading -/

variable [DecidableEq α] {slots : List (Slot α)}

instance (stop : List α) : Decidable (Borderless stop) :=
  inferInstanceAs (Decidable (_ ∧ _))

/-- What lies before the first stop, and what lies behind it. -/
def upTo (stop : List α) : List α → Option (List α × List α)
  | [] => none
  | a :: t =>
    if stop <+: a :: t then some ([], (a :: t).drop stop.length)
    else (upTo stop t).map fun r => (a :: r.1, r.2)

theorem upTo_sound (h : upTo stop t = some (v, rest)) : t = v ++ (stop ++ rest) := by
  induction t generalizing v with
  | nil => cases h
  | cons a t ih =>
    simp only [upTo] at h
    split at h
    · rename_i hpre
      cases h
      obtain ⟨x, hx⟩ := hpre
      rw [← hx, List.drop_left, List.nil_append]
    · obtain ⟨r, hr, h⟩ := Option.map_eq_some_iff.mp h
      cases h
      rw [ih hr]
      rfl

theorem upTo_first (hne : stop ≠ []) (h : upTo stop t = some (v, rest)) : ¬ stop <:+: v := by
  induction t generalizing v with
  | nil => cases h
  | cons a t ih =>
    simp only [upTo] at h
    split at h
    · cases h
      rwa [List.infix_nil]
    · rename_i hpre
      obtain ⟨r, hr, h⟩ := Option.map_eq_some_iff.mp h
      cases h
      rw [List.infix_cons_iff]
      rintro (hstart | hlater)
      · have ht := upTo_sound hr
        refine hpre (hstart.trans ?_)
        rw [ht]
        exact (List.prefix_cons_inj a).mpr (List.prefix_append r.1 _)
      · exact ih hr hlater

theorem upTo_append (hb : Borderless stop) (hv : ¬ stop <:+: v) (rest : List α) :
    upTo stop (v ++ (stop ++ rest)) = some (v, rest) := by
  induction v with
  | nil =>
    obtain ⟨a, s, hs⟩ := List.exists_cons_of_ne_nil hb.1
    have hpre : stop <+: a :: (s ++ rest) := by
      rw [hs]
      exact (List.prefix_cons_inj a).mpr (List.prefix_append s rest)
    rw [List.nil_append]
    nth_rewrite 2 [hs]
    rw [List.cons_append, upTo, if_pos hpre, hs]
    simp
  | cons a v ih =>
    have hnot : ¬ stop <+: a :: (v ++ (stop ++ rest)) := hb.not_prefix hv (by simp)
    have hv' : ¬ stop <:+: v := fun h => hv (h.trans (List.suffix_cons a v).isInfix)
    rw [List.cons_append, upTo, if_neg hnot, ih hv', Option.map_some]

/-- Every slot is read up to its first stop, and nothing but the end may follow. -/
def read (tail : List α) : List (Slot α) → List α → Option (List (Slot α × List α))
  | [], t => if t = tail then some [] else none
  | slot :: slots, t =>
    if slot.opening <+: t then
      (upTo slot.stop (t.drop slot.opening.length)).bind fun r =>
        (read tail slots r.2).map fun fields => (slot, r.1) :: fields
    else none

theorem read_opening (slot : Slot α) (t : List α) :
    read tail (slot :: slots) (slot.opening ++ t) =
      (upTo slot.stop t).bind fun r =>
        (read tail slots r.2).map fun fields => (slot, r.1) :: fields := by
  rw [read, if_pos (List.prefix_append slot.opening t), List.drop_left]

theorem read_eq_some_iff (hb : ∀ slot ∈ slots, Borderless slot.stop) :
    read tail slots t = some f ↔ f.map Prod.fst = slots ∧ t = text tail f ∧ Clean f := by
  induction slots generalizing t f with
  | nil =>
    simp only [read]
    constructor
    · intro h
      split at h
      · rename_i ht
        cases h
        exact ⟨rfl, ht, by simp [Clean]⟩
      · cases h
    · rintro ⟨hslots, ht, -⟩
      obtain rfl := List.map_eq_nil_iff.mp hslots
      exact if_pos ht
  | cons slot slots ih =>
    have hslot := hb slot List.mem_cons_self
    have hrest : ∀ s ∈ slots, Borderless s.stop := fun s hs => hb s (List.mem_cons_of_mem slot hs)
    constructor
    · intro h
      rw [read] at h
      split at h
      · rename_i hpre
        obtain ⟨⟨v, rest⟩, hv, h⟩ := Option.bind_eq_some_iff.mp h
        obtain ⟨fields, hfields, rfl⟩ := Option.map_eq_some_iff.mp h
        obtain ⟨hslots, ht, hclean⟩ := (ih hrest).mp hfields
        obtain rfl : rest = text tail fields := ht
        obtain ⟨x, rfl⟩ := hpre
        rw [List.drop_left] at hv
        refine ⟨by rw [List.map_cons, hslots], ?_, ?_⟩
        · rw [upTo_sound hv]
          rfl
        · intro y hy
          rcases List.mem_cons.mp hy with rfl | hy
          · exact upTo_first hslot.1 hv
          · exact hclean y hy
      · cases h
    · rintro ⟨hslots, rfl, hclean⟩
      cases f with
      | nil => cases hslots
      | cons y f =>
        obtain ⟨slot', v⟩ := y
        rw [List.map_cons, List.cons.injEq] at hslots
        obtain ⟨hsame, hslots⟩ := hslots
        obtain rfl : slot' = slot := hsame
        have hfields := (ih hrest).mpr
          ⟨hslots, rfl, fun y hy => hclean y (List.mem_cons_of_mem _ hy)⟩
        have hv := hclean _ List.mem_cons_self
        rw [text, read_opening, upTo_append hslot hv, Option.bind_some, hfields, Option.map_some]

/-- What is read of a filled template that was cut. -/
theorem read_take_iff (hb : ∀ x ∈ f, Borderless x.1.stop) (n : Nat) :
    read tail (f.map Prod.fst) ((text tail f).take n) = some f ↔
      Clean f ∧ (text tail f).length ≤ n := by
  have hslots : ∀ slot ∈ f.map Prod.fst, Borderless slot.stop := by
    intro slot hslot
    obtain ⟨x, hx, rfl⟩ := List.mem_map.mp hslot
    exact hb x hx
  rw [read_eq_some_iff hslots, List.take_eq_self_iff]
  constructor
  · rintro ⟨-, hlen, hclean⟩
    exact ⟨hclean, hlen⟩
  · rintro ⟨hclean, hlen⟩
    exact ⟨rfl, hlen, hclean⟩

end Slots
