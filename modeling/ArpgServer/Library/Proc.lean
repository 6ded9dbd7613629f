import Mathlib.Data.List.Basic
import Mathlib.Order.Defs.Unbundled

/-!
# Procedures made of atomic sections

A procedure over a shared state is a tree of atomic sections: each section reads and
writes the whole state at once, and what it returns decides how the procedure goes on.
`none` is a fault: the section is undefined at that state and the run ends there.

`run` executes a procedure alone, section after section. A relation that is reflexive and
transitive is kept by a procedure when its sections keep it.
-/

inductive Proc (σ : Type) (α : Type) : Type 1 where
  | ret (a : α)
  | atomic {β : Type} (f : σ → Option (β × σ)) (k : β → Proc σ α)

namespace Proc

variable {σ α β γ : Type}

def bind (p : Proc σ α) (g : α → Proc σ β) : Proc σ β :=
  match p with
  | .ret a => g a
  | .atomic f k => .atomic f (fun b => (k b).bind g)

instance : Monad (Proc σ) where
  pure := .ret
  bind := bind

/-- One atomic section that returns a value. -/
def step (f : σ → Option (β × σ)) : Proc σ β := .atomic f .ret

/-- One atomic section that only writes. -/
def modify (f : σ → Option σ) : Proc σ Unit := step fun s => (f s).map fun s' => ((), s')

/-- One atomic section that only reads. -/
def read (f : σ → Option β) : Proc σ β := step fun s => (f s).map fun b => (b, s)

/-- The procedure executed alone. -/
def run : Proc σ α → σ → Option (α × σ)
  | .ret a, s => some (a, s)
  | .atomic f k, s => (f s).bind fun r => (k r.1).run r.2

@[simp] theorem run_ret (a : α) (s : σ) : (ret a : Proc σ α).run s = some (a, s) := rfl

@[simp] theorem run_pure (a : α) (s : σ) : (pure a : Proc σ α).run s = some (a, s) := rfl

@[simp] theorem run_step (f : σ → Option (β × σ)) (s : σ) : (step f).run s = f s := by
  change (f s).bind (fun r => some (r.1, r.2)) = f s
  cases f s <;> rfl

@[simp] theorem run_modify (f : σ → Option σ) (s : σ) :
    (modify f).run s = (f s).map fun s' => ((), s') := run_step _ s

@[simp] theorem run_read (f : σ → Option β) (s : σ) :
    (read f).run s = (f s).map fun b => (b, s) := run_step _ s

theorem run_bind (p : Proc σ α) (g : α → Proc σ β) (s : σ) :
    (p >>= g).run s = (p.run s).bind fun r => (g r.1).run r.2 := by
  change (p.bind g).run s = _
  induction p generalizing s with
  | ret a => rfl
  | atomic f k ih =>
    change (f s).bind (fun r => ((k r.1).bind g).run r.2) =
      ((f s).bind fun r => (k r.1).run r.2).bind _
    rw [Option.bind_assoc]
    congr 1
    funext r
    exact ih r.1 r.2

/-- A successful run of a sequence splits at the intermediate state. -/
theorem run_bind_eq_some {p : Proc σ α} {g : α → Proc σ β} {s : σ} {r : β × σ} :
    (p >>= g).run s = some r ↔ ∃ a t, p.run s = some (a, t) ∧ (g a).run t = some r := by
  rw [run_bind, Option.bind_eq_some_iff]
  constructor
  · rintro ⟨⟨a, t⟩, hp, hg⟩
    exact ⟨a, t, hp, hg⟩
  · rintro ⟨a, t, hp, hg⟩
    exact ⟨⟨a, t⟩, hp, hg⟩

/-- Two sequences run alike when their first parts do, and then their rests from wherever the
first part leads. -/
theorem run_bind_congr {p p' : Proc σ α} {g g' : α → Proc σ β} {s : σ} (hp : p.run s = p'.run s)
    (hg : ∀ a t, p.run s = some (a, t) → (g a).run t = (g' a).run t) :
    (p >>= g).run s = (p' >>= g').run s := by
  rw [run_bind, run_bind, ← hp]
  cases hrun : p.run s with
  | none => rfl
  | some r => exact hg r.1 r.2 hrun

theorem run_step_eq_some {f : σ → Option (β × σ)} {s t : σ} {b : β} :
    (step f).run s = some (b, t) ↔ f s = some (b, t) := by rw [run_step]

theorem run_modify_eq_some {f : σ → Option σ} {s t : σ} {u : Unit} :
    (modify f).run s = some (u, t) ↔ f s = some t := by
  rw [run_modify, Option.map_eq_some_iff]
  constructor
  · rintro ⟨t', ht, h⟩
    cases h
    exact ht
  · intro h
    exact ⟨t, h, rfl⟩

theorem run_read_eq_some {f : σ → Option β} {s t : σ} {b : β} :
    (read f).run s = some (b, t) ↔ f s = some b ∧ s = t := by
  rw [run_read, Option.map_eq_some_iff]
  constructor
  · rintro ⟨b', hb, h⟩
    cases h
    exact ⟨hb, rfl⟩
  · rintro ⟨hb, rfl⟩
    exact ⟨b, hb, rfl⟩

/-! ## What a run keeps -/

/-- The first and the last state of every run are related. -/
def Keeps (R : σ → σ → Prop) (p : Proc σ α) : Prop := ∀ s a t, p.run s = some (a, t) → R s t

namespace Keeps

variable {R : σ → σ → Prop}

theorem ret [IsPreorder σ R] (a : α) : (ret a : Proc σ α).Keeps R := by
  intro s b t h
  cases h
  exact refl s

theorem step {f : σ → Option (β × σ)} (h : ∀ s b t, f s = some (b, t) → R s t) :
    (Proc.step f).Keeps R :=
  fun s b t hrun => h s b t (run_step_eq_some.mp hrun)

theorem modify {f : σ → Option σ} (h : ∀ s t, f s = some t → R s t) :
    (Proc.modify f).Keeps R :=
  fun s _ t hrun => h s t (run_modify_eq_some.mp hrun)

theorem read [IsPreorder σ R] (f : σ → Option β) : (Proc.read f).Keeps R := by
  intro s b t h
  obtain ⟨-, rfl⟩ := run_read_eq_some.mp h
  exact refl s

theorem bind [IsPreorder σ R] {p : Proc σ α} {g : α → Proc σ β} (hp : p.Keeps R)
    (hg : ∀ a, (g a).Keeps R) : (p >>= g).Keeps R := by
  intro s b t h
  obtain ⟨a, u, hrun, hrest⟩ := run_bind_eq_some.mp h
  exact IsTrans.trans s u t (hp s a u hrun) (hg a u b t hrest)

end Keeps

/-! ## What every section keeps -/

/-- The states before and after every section are related, whatever happens between two
sections. -/
def Sections (R : σ → σ → Prop) : Proc σ α → Prop
  | .ret _ => True
  | .atomic f k => (∀ s b t, f s = some (b, t) → R s t) ∧ ∀ b, (k b).Sections R

namespace Sections

variable {R : σ → σ → Prop}

theorem ret (a : α) : (ret a : Proc σ α).Sections R := trivial

theorem step {f : σ → Option (β × σ)} (h : ∀ s b t, f s = some (b, t) → R s t) :
    (Proc.step f).Sections R := ⟨h, fun _ => trivial⟩

theorem modify {f : σ → Option σ} (h : ∀ s t, f s = some t → R s t) :
    (Proc.modify f).Sections R := by
  refine step fun s b t hf => ?_
  obtain ⟨t', ht, heq⟩ := Option.map_eq_some_iff.mp hf
  cases heq
  exact h s t ht

theorem read [IsPreorder σ R] (f : σ → Option β) : (Proc.read f).Sections R := by
  refine step fun s b t hf => ?_
  obtain ⟨b', -, heq⟩ := Option.map_eq_some_iff.mp hf
  cases heq
  exact refl s

theorem bind {p : Proc σ α} {g : α → Proc σ β} (hp : p.Sections R)
    (hg : ∀ a, (g a).Sections R) : (p >>= g).Sections R := by
  change (p.bind g).Sections R
  induction p with
  | ret a => exact hg a
  | atomic f k ih => exact ⟨hp.1, fun b => ih b (hp.2 b)⟩

theorem ite {P : Prop} [Decidable P] {p q : Proc σ α} (hp : p.Sections R) (hq : q.Sections R) :
    (if P then p else q).Sections R := by
  split
  · exact hp
  · exact hq

theorem mono {R' : σ → σ → Prop} (hR : ∀ s t, R s t → R' s t) {p : Proc σ α} (h : p.Sections R) :
    p.Sections R' := by
  induction p with
  | ret a => exact .ret a
  | atomic f k ih => exact ⟨fun s b t hf => hR s t (h.1 s b t hf), fun b => ih b (h.2 b)⟩

/-- A run is made of the sections alone. -/
theorem keeps [IsPreorder σ R] {p : Proc σ α} (h : p.Sections R) : p.Keeps R := by
  induction p with
  | ret a => exact .ret a
  | atomic f k ih =>
    intro s a t hrun
    obtain ⟨⟨b, u⟩, hf, hrest⟩ := Option.bind_eq_some_iff.mp hrun
    exact IsTrans.trans s u t (h.1 s b u hf) (ih b (h.2 b) u a t hrest)

end Sections

/-! ## Runs without a fault -/

/-- The procedure comes to its end from a state. -/
def Ends (p : Proc σ α) (s : σ) : Prop := ∃ r, p.run s = some r

namespace Ends

theorem ret (a : α) (s : σ) : (ret a : Proc σ α).Ends s := ⟨(a, s), rfl⟩

theorem step {f : σ → Option (β × σ)} {s : σ} (h : ∃ b t, f s = some (b, t)) :
    (Proc.step f).Ends s := by
  obtain ⟨b, t, hf⟩ := h
  exact ⟨(b, t), run_step_eq_some.mpr hf⟩

theorem modify {f : σ → Option σ} {s : σ} (h : ∃ t, f s = some t) : (Proc.modify f).Ends s := by
  obtain ⟨t, hf⟩ := h
  exact ⟨((), t), run_modify_eq_some.mpr hf⟩

theorem read {f : σ → Option β} {s : σ} (h : ∃ b, f s = some b) : (Proc.read f).Ends s := by
  obtain ⟨b, hf⟩ := h
  exact ⟨(b, s), run_read_eq_some.mpr ⟨hf, rfl⟩⟩

/-- The rest has to end from wherever the first part leads. -/
theorem bind {p : Proc σ α} {g : α → Proc σ β} {s : σ} (hp : p.Ends s)
    (hg : ∀ a t, p.run s = some (a, t) → (g a).Ends t) : (p >>= g).Ends s := by
  obtain ⟨⟨a, t⟩, hrun⟩ := hp
  obtain ⟨r, hrest⟩ := hg a t hrun
  exact ⟨r, run_bind_eq_some.mpr ⟨a, t, hrun, hrest⟩⟩

/-- A first section whose result is known. -/
theorem bind_step {f : σ → Option (β × σ)} {g : β → Proc σ α} {s t : σ} {b : β}
    (h : f s = some (b, t)) (hg : (g b).Ends t) : (Proc.step f >>= g).Ends s := by
  refine .bind (.step ⟨b, t, h⟩) ?_
  intro b' t' hrun
  cases h.symm.trans (run_step_eq_some.mp hrun)
  exact hg

theorem bind_modify {f : σ → Option σ} {g : Unit → Proc σ α} {s t : σ} (h : f s = some t)
    (hg : (g ()).Ends t) : (Proc.modify f >>= g).Ends s := by
  refine bind_step ?_ hg
  rw [h, Option.map_some]

theorem bind_read {f : σ → Option β} {g : β → Proc σ α} {s : σ} {b : β} (h : f s = some b)
    (hg : (g b).Ends s) : (Proc.read f >>= g).Ends s := by
  refine bind_step ?_ hg
  rw [h, Option.map_some]

theorem modify_iff {f : σ → Option σ} {s : σ} : (Proc.modify f).Ends s ↔ ∃ t, f s = some t := by
  constructor
  · intro ⟨⟨u, t⟩, hrun⟩
    exact ⟨t, run_modify_eq_some.mp hrun⟩
  · exact modify

end Ends

end Proc
