import Mathlib.Data.List.Basic

/-!
# Loops over a text

A loop over a text takes one or more symbols in every turn and writes something for them,
until a turn stops it. A word that is read the same way whatever follows it is read as part
of any text, and so is a text made of such words: this is how an escaped text is read back.
-/

namespace Scan

variable {α β : Type}

/-- A turn at a symbol and what follows it: what it writes and how many further symbols it
takes. `none` stops the loop. -/
abbrev Turn (α β : Type) := α → List α → Option (List β × Nat)

variable (turn : Turn α β)

/-- What the loop writes, and what is left where it stops. The number is how many symbols
the last turn still takes. -/
def scan : Nat → List α → List β × List α
  | _, [] => ([], [])
  | k + 1, _ :: s => scan k s
  | 0, a :: s =>
    match turn a s with
    | none => ([], a :: s)
    | some (out, k) => (out ++ (scan k s).1, (scan k s).2)

@[simp] theorem scan_nil (k : Nat) : scan turn k [] = ([], []) := by cases k <;> rfl

theorem scan_taken (w rest : List α) : scan turn w.length (w ++ rest) = scan turn 0 rest := by
  induction w with
  | nil => rfl
  | cons a w ih => exact ih

theorem scan_drop (k : Nat) (s : List α) : scan turn k s = scan turn 0 (s.drop k) := by
  induction k generalizing s with
  | zero => rfl
  | succ k ih =>
    cases s with
    | nil => rfl
    | cons a s => exact ih s

variable {turn} {a : α} {s w w' rest : List α} {out out' : List β}

theorem scan_of_stop (h : turn a s = none) : scan turn 0 (a :: s) = ([], a :: s) := by
  rw [scan, h]

theorem scan_of_turn (h : turn a (w ++ rest) = some (out, w.length)) :
    scan turn 0 (a :: (w ++ rest)) = (out ++ (scan turn 0 rest).1, (scan turn 0 rest).2) := by
  rw [scan, h]
  simp only [scan_taken]

/-- What every turn writes, the loop writes. -/
theorem scan_forall {P : β → Prop}
    (h : ∀ a s out k, a ∈ w → turn a s = some (out, k) → ∀ b ∈ out, P b) (k : Nat) :
    ∀ b ∈ (scan turn k w).1, P b := by
  induction w generalizing k with
  | nil => simp
  | cons a w ih =>
    have hw := ih fun a' s out k ha => h a' s out k (List.mem_cons_of_mem a ha)
    cases k with
    | succ k => exact hw k
    | zero =>
      rw [scan]
      cases hturn : turn a w with
      | none => simp
      | some r =>
        obtain ⟨out, k⟩ := r
        intro b hb
        rcases List.mem_append.mp hb with hb | hb
        · exact h a w out k List.mem_cons_self hturn b hb
        · exact hw k b hb

variable (turn)

/-- The loop reads the word as `out`, whatever follows it. -/
def Yields (w : List α) (out : List β) : Prop :=
  ∀ rest, scan turn 0 (w ++ rest) = (out ++ (scan turn 0 rest).1, (scan turn 0 rest).2)

variable {turn}

theorem Yields.of_turn (h : ∀ rest, turn a (w ++ rest) = some (out, w.length)) :
    Yields turn (a :: w) out := fun rest => scan_of_turn (h rest)

theorem Yields.nil : Yields turn [] [] := fun _ => rfl

theorem Yields.append (h : Yields turn w out) (h' : Yields turn w' out') :
    Yields turn (w ++ w') (out ++ out') := by
  intro rest
  rw [List.append_assoc, h, h', List.append_assoc]

/-- A text whose symbols are spelled by words that are read back is read back. -/
theorem Yields.flatMap {γ : Type} {code : γ → List α} {mean : γ → List β} {text : List γ}
    (h : ∀ c ∈ text, Yields turn (code c) (mean c)) :
    Yields turn (text.flatMap code) (text.flatMap mean) := by
  induction text with
  | nil => exact .nil
  | cons c text ih =>
    have hc := h c List.mem_cons_self
    have htext := ih fun x hx => h x (List.mem_cons_of_mem c hx)
    exact hc.append htext

theorem Yields.scan (h : Yields turn w out) : scan turn 0 w = (out, []) := by
  have hw := h []
  rwa [List.append_nil, scan_nil, List.append_nil] at hw

end Scan
