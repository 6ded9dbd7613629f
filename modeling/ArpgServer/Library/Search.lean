import Mathlib.Data.List.Basic
import Mathlib.Data.List.Infix

/-!
# First occurrences

The first element of a list with some property, and what is left of a list from the first
occurrence of another one on.
-/

namespace Search

variable {α : Type}

/-! ## Elements -/

/-- A list has no element with a property, or it splits at the first one. -/
theorem exists_first (p : α → Prop) [DecidablePred p] (l : List α) :
    (∀ x ∈ l, ¬ p x) ∨
      ∃ front b rest, l = front ++ b :: rest ∧ (∀ x ∈ front, ¬ p x) ∧ p b := by
  induction l with
  | nil => exact Or.inl fun x hx => by cases hx
  | cons a l ih =>
    by_cases ha : p a
    · exact Or.inr ⟨[], a, l, rfl, fun x hx => (by cases hx), ha⟩
    · rcases ih with hnone | ⟨front, b, rest, rfl, hfront, hb⟩
      · left
        intro x hx
        rcases List.mem_cons.mp hx with rfl | hx
        · exact ha
        · exact hnone x hx
      · refine Or.inr ⟨a :: front, b, rest, rfl, ?_, hb⟩
        intro x hx
        rcases List.mem_cons.mp hx with rfl | hx
        · exact ha
        · exact hfront x hx

variable {p : α → Prop} {front front' rest rest' : List α} {b b' : α}

/-- No element with the property comes before the first one. -/
theorem length_le_of_first (h : front ++ b :: rest = front' ++ b' :: rest')
    (hfront : ∀ x ∈ front, ¬ p x) (hb' : p b') : front.length ≤ front'.length := by
  by_contra hlt
  have hlt : front'.length < front.length := by omega
  have hget : (front ++ b :: rest)[front'.length]? = some b' := by rw [h]; simp
  rw [List.getElem?_append_left hlt] at hget
  exact hfront b' (List.mem_of_getElem? hget) hb'

/-- A list splits at the first element in one way only. -/
theorem first_unique (h : front ++ b :: rest = front' ++ b' :: rest')
    (hfront : ∀ x ∈ front, ¬ p x) (hb : p b) (hfront' : ∀ x ∈ front', ¬ p x) (hb' : p b') :
    front = front' ∧ b = b' ∧ rest = rest' := by
  have hle := length_le_of_first h hfront hb'
  have hge := length_le_of_first h.symm hfront' hb
  obtain ⟨hfronts, hrests⟩ := List.append_inj h (by omega)
  cases hrests
  exact ⟨hfronts, rfl, rfl⟩

/-! ## Lists -/

/-- `rest` is what is left of a list from the first occurrence of a pattern on. -/
def FirstAt (pat l rest : List α) : Prop :=
  ∃ front, l = front ++ rest ∧ pat <+: rest ∧
    ∀ front' rest', l = front' ++ rest' → pat <+: rest' → front.length ≤ front'.length

theorem FirstAt.unique {pat l rest rest' : List α} (h : FirstAt pat l rest)
    (h' : FirstAt pat l rest') : rest = rest' := by
  obtain ⟨front, hl, hpat, hfirst⟩ := h
  obtain ⟨front', hl', hpat', hfirst'⟩ := h'
  have hle := hfirst front' rest' hl' hpat'
  have hge := hfirst' front rest hl hpat
  exact (List.append_inj (hl.symm.trans hl') (by omega)).2

theorem FirstAt.infix {pat l rest : List α} (h : FirstAt pat l rest) : pat <:+: l := by
  obtain ⟨front, rfl, ⟨post, rfl⟩, -⟩ := h
  exact ⟨front, post, by rw [List.append_assoc]⟩

/-- The first occurrence of one element. -/
theorem firstAt_singleton {a : α} {l rest : List α} :
    FirstAt [a] l rest ↔ ∃ front post, l = front ++ rest ∧ rest = a :: post ∧ a ∉ front := by
  constructor
  · rintro ⟨front, rfl, ⟨post, rfl⟩, hfirst⟩
    refine ⟨front, post, rfl, rfl, fun hmem => ?_⟩
    obtain ⟨front', rest', rfl⟩ := List.append_of_mem hmem
    have hle := hfirst front' (a :: rest' ++ a :: post) (by simp) ⟨rest' ++ a :: post, rfl⟩
    rw [List.length_append, List.length_cons] at hle
    omega
  · rintro ⟨front, post, rfl, rfl, hfront⟩
    refine ⟨front, rfl, ⟨post, rfl⟩, fun front' rest' hl hpat => ?_⟩
    obtain ⟨post', rfl⟩ := hpat
    exact length_le_of_first (p := (· = a)) hl (fun x hx hxa => hfront (hxa ▸ hx)) rfl

theorem FirstAt.mem {pat l rest : List α} {a : α} (h : FirstAt pat l rest) (ha : a ∈ rest) :
    a ∈ l := by
  obtain ⟨front, rfl, -, -⟩ := h
  exact List.mem_append_right _ ha

variable [BEq α] [LawfulBEq α]

/-- The rest of a list from the first occurrence of a pattern on. -/
def search (pat : List α) : List α → Option (List α)
  | [] => if pat.isPrefixOf [] then some [] else none
  | a :: l => if pat.isPrefixOf (a :: l) then some (a :: l) else search pat l

theorem search_of_starts {pat l : List α} (h : pat <+: l) : search pat l = some l := by
  cases l with
  | nil => exact if_pos (List.isPrefixOf_iff_prefix.mpr h)
  | cons a l => exact if_pos (List.isPrefixOf_iff_prefix.mpr h)

theorem search_cons_of_not_starts {pat l : List α} {a : α} (h : ¬ pat <+: a :: l) :
    search pat (a :: l) = search pat l := if_neg (mt List.isPrefixOf_iff_prefix.mp h)

theorem search_eq_none_iff {pat l : List α} : search pat l = none ↔ ¬ pat <:+: l := by
  induction l with
  | nil =>
    have hnil : pat <:+: [] ↔ pat <+: [] := by rw [List.infix_nil, List.prefix_nil]
    rw [search, hnil, ← List.isPrefixOf_iff_prefix]
    split <;> simp_all
  | cons a l ih =>
    by_cases hpat : pat <+: a :: l
    · rw [search_of_starts hpat]
      exact iff_of_false (Option.some_ne_none _) fun h => h hpat.isInfix
    · rw [search_cons_of_not_starts hpat, ih, List.infix_cons_iff]
      exact not_congr ⟨Or.inr, fun h => h.resolve_left hpat⟩

theorem firstAt_of_search {pat l rest : List α} (h : search pat l = some rest) :
    FirstAt pat l rest := by
  induction l with
  | nil =>
    rw [search] at h
    split at h
    · rename_i hpat
      cases h
      exact ⟨[], rfl, List.isPrefixOf_iff_prefix.mp hpat, fun _ _ _ _ => Nat.zero_le _⟩
    · cases h
  | cons a l ih =>
    by_cases hpat : pat <+: a :: l
    · rw [search_of_starts hpat] at h
      cases h
      exact ⟨[], rfl, hpat, fun _ _ _ _ => Nat.zero_le _⟩
    · rw [search_cons_of_not_starts hpat] at h
      obtain ⟨front, rfl, hrest, hfirst⟩ := ih h
      refine ⟨a :: front, rfl, hrest, fun front' rest' hl hpat' => ?_⟩
      cases front' with
      | nil =>
        rw [List.nil_append] at hl
        exact absurd (hl ▸ hpat') hpat
      | cons a' front' =>
        have htail := (List.cons.inj hl).2
        rw [List.length_cons, List.length_cons]
        exact Nat.succ_le_succ (hfirst front' rest' htail hpat')

theorem search_eq_some_iff {pat l rest : List α} :
    search pat l = some rest ↔ FirstAt pat l rest := by
  refine ⟨firstAt_of_search, fun h => ?_⟩
  cases hsearch : search pat l with
  | none => exact absurd h.infix (search_eq_none_iff.mp hsearch)
  | some rest' => rw [(firstAt_of_search hsearch).unique h]

theorem exists_firstAt {pat l : List α} (h : pat <:+: l) : ∃ rest, FirstAt pat l rest := by
  cases hsearch : search pat l with
  | none => exact absurd h (search_eq_none_iff.mp hsearch)
  | some rest => exact ⟨rest, firstAt_of_search hsearch⟩

end Search
