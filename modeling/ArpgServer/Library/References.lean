import Mathlib.Logic.Relation

/-!
# References that cannot be circular

A collection of definitions grows by one definition at a time. A definition may refer to the
others, and it is only added when nothing that is reached from it refers back to it. Then the
references stay well-founded, so that whatever follows them ends.
-/

namespace References

variable {α : Type*} {R R' : α → α → Prop} {v : α} {Names : α → Prop}

/-- What is reached from `w` by references, where `R x w` says that `w` refers to `x`. -/
abbrev Reached (R : α → α → Prop) (w x : α) : Prop := Relation.ReflTransGen (fun a b => R b a) w x

/-- The new references lead to `v` only, and nothing behind `v` has one. -/
theorem wellFounded_insert (hwf : WellFounded R) (hnew : ∀ x w, R' x w → R x w ∨ x = v ∧ Names w)
    (hfree : ∀ w, Reached R v w → ¬ Names w) : WellFounded R' := by
  have hbehind : ∀ w, Reached R v w → Acc R' w := by
    intro w
    induction w using hwf.induction with
    | _ w ih =>
      intro hw
      refine ⟨w, fun x hx => ?_⟩
      rcases hnew x w hx with hx | ⟨-, hnames⟩
      · exact ih x hx (hw.tail hx)
      · exact absurd hnames (hfree w hw)
  refine ⟨fun w => ?_⟩
  induction w using hwf.induction with
  | _ w ih =>
    refine ⟨w, fun x hx => ?_⟩
    rcases hnew x w hx with hx | ⟨rfl, -⟩
    · exact ih x hx
    · exact hbehind x .refl

end References
