import ArpgServer.Library.Proc
import Mathlib.Logic.Relation

/-!
# Workers that share a state

Jobs wait in a queue and are taken from it in order; any job that has been taken may execute
its next section. What such a pool computes is compared, as far as a `view` of the state
shows it, with what the jobs compute one after another. The two agree when a section is
executed ahead of an older job only if it commutes with all that job may still do.
-/

namespace Proc

variable {σ τ α β γ δ : Type} {view : σ → τ}

/-! ## What is seen of a result -/

/-- A result as far as `view` shows it. -/
def seen (view : σ → τ) (x : Option (β × σ)) : Option (β × τ) := x.map fun r => (r.1, view r.2)

/-- What is seen of the result depends on what is seen of the state. -/
def Local (view : σ → τ) (f : σ → Option (β × σ)) : Prop :=
  ∀ s t, view s = view t → seen view (f s) = seen view (f t)

/-- Two sections that give the same in either order. -/
def Commute (view : σ → τ) (f : σ → Option (β × σ)) (g : σ → Option (γ × σ)) : Prop :=
  ∀ s, seen view ((f s).bind fun r => (g r.2).map fun r' => ((r.1, r'.1), r'.2)) =
    seen view ((g s).bind fun r' => (f r'.2).map fun r => ((r.1, r'.1), r.2))

theorem seen_bind (x : Option α) (F : α → Option (β × σ)) :
    seen view (x.bind F) = x.bind fun a => seen view (F a) := by
  cases x <;> rfl

theorem seen_map (x : Option (α × σ)) (b : β) :
    seen view (x.map fun r => ((b, r.1), r.2)) = (seen view x).map fun r => ((b, r.1), r.2) := by
  cases x <;> rfl

theorem bind_congr_seen {x y : Option (β × σ)} (h : seen view x = seen view y)
    {F G : β × σ → Option δ} (hF : ∀ b s t, view s = view t → F (b, s) = G (b, t)) :
    x.bind F = y.bind G := by
  cases x with
  | none =>
    have hy : y = none := Option.map_eq_none_iff.mp h.symm
    rw [hy]
    rfl
  | some r =>
    obtain ⟨r', rfl, hr⟩ := Option.map_eq_some_iff.mp h.symm
    simp only [Prod.mk.injEq] at hr
    obtain ⟨b, s⟩ := r
    obtain ⟨b', s'⟩ := r'
    obtain ⟨rfl, hview⟩ := hr
    exact hF b' s s' hview.symm

theorem Commute.symm {f : σ → Option (β × σ)} {g : σ → Option (γ × σ)} (h : Commute view f g) :
    Commute view g f := by
  intro s
  have hswap := congrArg (Option.map fun r : (β × γ) × τ => ((r.1.2, r.1.1), r.2)) (h s)
  simp only [seen, Option.map_map, Option.map_bind, Function.comp_def] at hswap ⊢
  exact hswap.symm

/-- What a section returns, whatever it changes. -/
def value (f : σ → Option (β × σ)) (s : σ) : Option β := (f s).map Prod.fst

theorem value_eq_none {f : σ → Option (β × σ)} {s : σ} : value f s = none ↔ f s = none :=
  Option.map_eq_none_iff

theorem value_eq_some {f : σ → Option (β × σ)} {s : σ} {b : β} :
    value f s = some b ↔ ∃ t, f s = some (b, t) := by
  rw [value, Option.map_eq_some_iff]
  constructor
  · rintro ⟨⟨b', t⟩, hf, rfl⟩
    exact ⟨t, hf⟩
  · rintro ⟨t, hf⟩
    exact ⟨(b, t), hf, rfl⟩

/-- The section changes the state as `u` does. -/
def Edits (view : σ → τ) (u : σ → σ) (f : σ → Option (β × σ)) : Prop :=
  ∀ s b t, f s = some (b, t) → view t = view (u s)

/-- Two sections commute when what they do commutes and none changes what the other returns. -/
theorem Edits.commute {u v : σ → σ} {f : σ → Option (β × σ)} {g : σ → Option (γ × σ)}
    (hf : Edits view u f) (hg : Edits view v g)
    (hfv : ∀ s t, view t = view (v s) → value f t = value f s)
    (hgu : ∀ s t, view t = view (u s) → value g t = value g s)
    (huv : ∀ s t t', view t = view (u s) → view t' = view (v s) → view (v t) = view (u t')) :
    Commute view f g := by
  intro s
  cases hfs : f s with
  | none =>
    cases hgs : g s with
    | none => rfl
    | some r' =>
      have hnone : f r'.2 = none := by
        rw [← value_eq_none, hfv s r'.2 (hg s r'.1 r'.2 hgs), value_eq_none, hfs]
      simp only [Option.bind_none, Option.bind_some, hnone, Option.map_none]
  | some r =>
    have hr := hf s r.1 r.2 hfs
    cases hgs : g s with
    | none =>
      have hnone : g r.2 = none := by
        rw [← value_eq_none, hgu s r.2 hr, value_eq_none, hgs]
      simp only [Option.bind_none, Option.bind_some, hnone, Option.map_none]
    | some r' =>
      have hr' := hg s r'.1 r'.2 hgs
      obtain ⟨t, ht⟩ := value_eq_some.mp
        ((hgu s r.2 hr).trans (value_eq_some.mpr ⟨r'.2, hgs⟩))
      obtain ⟨t', ht'⟩ := value_eq_some.mp
        ((hfv s r'.2 hr').trans (value_eq_some.mpr ⟨r.2, hfs⟩))
      simp only [Option.bind_some, ht, ht', Option.map_some, seen, hg _ _ _ ht, hf _ _ _ ht',
        huv s r.2 r'.2 hr hr']

/-- A section that only observes commutes with what keeps its observations. -/
theorem Edits.commute_observe {f : σ → Option (β × σ)} {g : σ → Option (γ × σ)}
    (hf : Edits view id f) (hg : Local view g)
    (hkeep : ∀ s c t, g s = some (c, t) → value f t = value f s) : Commute view f g := by
  intro s
  cases hfs : f s with
  | none =>
    cases hgs : g s with
    | none => rfl
    | some r' =>
      have hnone : f r'.2 = none := by
        rw [← value_eq_none, hkeep s r'.1 r'.2 hgs, value_eq_none, hfs]
      simp only [Option.bind_none, Option.bind_some, hnone, Option.map_none]
  | some r =>
    have hsame := hg r.2 s (hf s r.1 r.2 hfs)
    cases hgs : g s with
    | none =>
      rw [hgs] at hsame
      have hnone : g r.2 = none := Option.map_eq_none_iff.mp hsame
      simp only [Option.bind_none, Option.bind_some, hnone, Option.map_none]
    | some r' =>
      rw [hgs] at hsame
      obtain ⟨t, ht, hview⟩ := Option.map_eq_some_iff.mp hsame
      simp only [Prod.mk.injEq] at hview
      obtain ⟨t', ht'⟩ := value_eq_some.mp
        ((hkeep s r'.1 r'.2 hgs).trans (value_eq_some.mpr ⟨r.2, hfs⟩))
      simp only [Option.bind_some, ht, ht', Option.map_some, seen, hview.1, hview.2,
        hf _ _ _ ht', id]

/-- A section that always succeeds commutes with what passes its change through. -/
theorem Edits.commute_through {u : σ → σ} {b : β} {f : σ → Option (β × σ)}
    {g : σ → Option (γ × σ)} (hf : Edits view u f) (hsome : ∀ s, value f s = some b)
    (hg : ∀ s t, view t = view (u s) →
      seen view (g t) = (g s).map fun r => (r.1, view (u r.2))) : Commute view f g := by
  intro s
  obtain ⟨t, ht⟩ := value_eq_some.mp (hsome s)
  have hthrough := hg s t (hf s b t ht)
  rw [ht, Option.bind_some, seen_map, hthrough]
  cases hgs : g s with
  | none => rfl
  | some r' =>
    obtain ⟨t', ht'⟩ := value_eq_some.mp (hsome r'.2)
    simp only [Option.bind_some, ht', Option.map_some, seen, hf _ _ _ ht']

/-! ## Procedures -/

/-- All sections of the procedure are of some kind. -/
def All (P : ∀ β : Type, (σ → Option (β × σ)) → Prop) : Proc σ α → Prop
  | .ret _ => True
  | .atomic f k => P _ f ∧ ∀ b, (k b).All P

namespace All

variable {P Q : ∀ β : Type, (σ → Option (β × σ)) → Prop}

theorem ret (a : α) : (ret a : Proc σ α).All P := trivial

theorem step {f : σ → Option (β × σ)} (hf : P β f) : (Proc.step f).All P := ⟨hf, fun _ => trivial⟩

theorem bind {p : Proc σ α} {g : α → Proc σ β} (hp : p.All P) (hg : ∀ a, (g a).All P) :
    (p >>= g).All P := by
  show (p.bind g).All P
  induction p with
  | ret a => exact hg a
  | atomic f k ih => exact ⟨hp.1, fun b => ih b (hp.2 b)⟩

theorem ite {c : Prop} [Decidable c] {p q : Proc σ α} (hp : p.All P) (hq : q.All P) :
    (if c then p else q).All P := by
  split
  · exact hp
  · exact hq

theorem mono (h : ∀ β f, P β f → Q β f) {p : Proc σ α} (hp : p.All P) : p.All Q := by
  induction p with
  | ret a => trivial
  | atomic f k ih => exact ⟨h _ f hp.1, fun b => ih b (hp.2 b)⟩

end All

/-- All sections of the procedure are local. -/
def IsLocal (view : σ → τ) (p : Proc σ α) : Prop := p.All fun _ => Local view

/-- The section commutes with all sections of the procedure. -/
def CommutesWith (view : σ → τ) (f : σ → Option (β × σ)) (p : Proc σ α) : Prop :=
  p.All fun _ => Commute view f

theorem IsLocal.bind {p : Proc σ α} {g : α → Proc σ β} (hp : p.IsLocal view)
    (hg : ∀ a, (g a).IsLocal view) : (p >>= g).IsLocal view := All.bind hp hg

theorem IsLocal.step {f : σ → Option (β × σ)} (hf : Local view f) : (step f).IsLocal view :=
  All.step hf

theorem IsLocal.ite {P : Prop} [Decidable P] {p q : Proc σ α} (hp : p.IsLocal view)
    (hq : q.IsLocal view) : (if P then p else q).IsLocal view := All.ite hp hq

theorem IsLocal.run {p : Proc σ α} (hp : p.IsLocal view) {s t : σ} (h : view s = view t) :
    seen view (p.run s) = seen view (p.run t) := by
  induction p generalizing s t with
  | ret a => simp only [Proc.run, seen, Option.map_some, h]
  | atomic f k ih =>
    simp only [Proc.run, seen_bind]
    exact bind_congr_seen (hp.1 s t h) fun b s' t' h' => ih b (hp.2 b) h'

/-- A section that commutes with a procedure may be executed before it. -/
theorem CommutesWith.run {f : σ → Option (β × σ)} {p : Proc σ α} (hp : p.IsLocal view)
    (h : p.CommutesWith view f) (s : σ) :
    seen view ((p.run s).bind fun r => (f r.2).map fun r' => ((r'.1, r.1), r'.2)) =
      seen view ((f s).bind fun r' => (p.run r'.2).map fun r => ((r'.1, r.1), r.2)) := by
  induction p generalizing s with
  | ret a => cases hf : f s <;> simp [Proc.run, hf]
  | atomic g k ih =>
    calc
      _ = (g s).bind fun c => seen view
            (((k c.1).run c.2).bind fun r => (f r.2).map fun r' => ((r'.1, r.1), r'.2)) := by
        rw [Proc.run, Option.bind_assoc, seen_bind]
      _ = (g s).bind fun c => seen view
            ((f c.2).bind fun r' => ((k c.1).run r'.2).map fun r => ((r'.1, r.1), r.2)) := by
        congr 1
        funext c
        exact ih c.1 (hp.2 c.1) (h.2 c.1) c.2
      _ = ((g s).bind fun c => (f c.2).map fun r' => ((r'.1, c.1), r'.2)).bind fun x =>
            seen view (((k x.1.2).run x.2).map fun r => ((x.1.1, r.1), r.2)) := by
        cases g s with
        | none => rfl
        | some c =>
          simp only [Option.bind_some]
          cases f c.2 <;> rfl
      _ = ((f s).bind fun r' => (g r'.2).map fun c => ((r'.1, c.1), c.2)).bind fun x =>
            seen view (((k x.1.2).run x.2).map fun r => ((x.1.1, r.1), r.2)) := by
        refine bind_congr_seen (h.1 s).symm fun b t t' ht => ?_
        rw [seen_map, seen_map, IsLocal.run (hp.2 b.2) ht]
      _ = _ := by
        cases f s with
        | none => rfl
        | some r' =>
          simp only [Option.bind_some, Proc.run]
          cases g r'.2 <;> rfl

/-! ## One after another -/

/-- Several procedures run one after another, each alone. -/
def runAll : List (Proc σ Unit) → σ → Option σ
  | [], s => some s
  | p :: ps, s => (p.run s).bind fun r => runAll ps r.2

theorem runAll_local {ps : List (Proc σ Unit)} (hps : ∀ p ∈ ps, p.IsLocal view) {s t : σ}
    (h : view s = view t) : (runAll ps s).map view = (runAll ps t).map view := by
  induction ps generalizing s t with
  | nil => simp only [runAll, Option.map_some, h]
  | cons p ps ih =>
    simp only [runAll, Option.map_bind]
    exact bind_congr_seen ((hps p List.mem_cons_self).run h) fun b s' t' h' =>
      ih (fun q hq => hps q (List.mem_cons_of_mem p hq)) h'

/-- A section that commutes with all older jobs may be executed before them. -/
theorem runAll_commute {older rest : List (Proc σ Unit)} {f : σ → Option (β × σ)}
    {k : β → Proc σ Unit} (holder : ∀ p ∈ older, p.IsLocal view ∧ p.CommutesWith view f)
    (hk : ∀ b, (k b).IsLocal view) (hrest : ∀ p ∈ rest, p.IsLocal view) (s : σ) :
    (runAll (older ++ .atomic f k :: rest) s).map view =
      (f s).bind fun r => (runAll (older ++ k r.1 :: rest) r.2).map view := by
  induction older generalizing s with
  | nil =>
    simp only [List.nil_append, runAll, run]
    cases f s <;> rfl
  | cons p older ih =>
    have hlocal : ∀ b, ∀ q ∈ older ++ k b :: rest, q.IsLocal view := by
      intro b q hq
      rcases List.mem_append.mp hq with hq | hq
      · exact (holder q (List.mem_cons_of_mem p hq)).1
      · rcases List.mem_cons.mp hq with rfl | hq
        · exact hk b
        · exact hrest q hq
    obtain ⟨hp, hcomm⟩ := holder p List.mem_cons_self
    calc
      _ = (p.run s).bind fun r => (runAll (older ++ .atomic f k :: rest) r.2).map view := by
        rw [List.cons_append, runAll, Option.map_bind]
        rfl
      _ = (p.run s).bind fun r => (f r.2).bind fun r' =>
            (runAll (older ++ k r'.1 :: rest) r'.2).map view := by
        congr 1
        funext r
        exact ih (fun q hq => holder q (List.mem_cons_of_mem p hq)) r.2
      _ = ((p.run s).bind fun r => (f r.2).map fun r' => ((r'.1, r.1), r'.2)).bind fun x =>
            (runAll (older ++ k x.1.1 :: rest) x.2).map view := by
        cases p.run s with
        | none => rfl
        | some r =>
          simp only [Option.bind_some]
          cases f r.2 <;> rfl
      _ = ((f s).bind fun r' => (p.run r'.2).map fun r => ((r'.1, r.1), r.2)).bind fun x =>
            (runAll (older ++ k x.1.1 :: rest) x.2).map view := by
        exact bind_congr_seen (hcomm.run hp s) fun b t t' h => runAll_local (hlocal b.1) h
      _ = _ := by
        cases f s with
        | none => rfl
        | some r' =>
          simp only [Option.bind_some, List.cons_append, runAll]
          cases p.run r'.2 <;> rfl

theorem runAll_eraseIdx_ret {ps : List (Proc σ Unit)} {i : Nat}
    (h : ps[i]? = some (.ret ())) (rest : List (Proc σ Unit)) (s : σ) :
    runAll (ps.eraseIdx i ++ rest) s = runAll (ps ++ rest) s := by
  induction ps generalizing i s with
  | nil => simp at h
  | cons p ps ih =>
    cases i with
    | zero =>
      have hp : p = .ret () := by simpa using h
      subst hp
      rfl
    | succ i =>
      simp only [List.getElem?_cons_succ] at h
      simp only [List.eraseIdx_cons_succ, List.cons_append, runAll]
      congr 1
      funext r
      exact ih h r.2

end Proc

/-! ## Pools -/

/-- Jobs waiting in a queue and jobs taken from it, in the order they were taken. -/
structure Pool (σ : Type) : Type 1 where
  state : σ
  waiting : List (Proc σ Unit)
  running : List (Proc σ Unit)

/-- What a pool of workers may do next. -/
inductive Pool.Move where
  | take
  | advance (i : Nat)
  | finish (i : Nat)

namespace Pool

open Proc

variable {σ τ : Type} {view : σ → τ} {workers : Nat} {c c' : Pool σ} {m : Move}

/-- One move of a pool of `workers` threads. An idle worker takes the first waiting job; a
worker executes the next section of its job; a worker whose job is over lets it go. -/
def next (workers : Nat) (c : Pool σ) : Move → Option (Pool σ)
  | .take =>
    match c.waiting with
    | [] => none
    | p :: waiting =>
      if c.running.length < workers then
        some { c with waiting := waiting, running := c.running ++ [p] }
      else none
  | .advance i =>
    match c.running[i]? with
    | some (.atomic f k) =>
      (f c.state).map fun r => { c with state := r.2, running := c.running.set i (k r.1) }
    | _ => none
  | .finish i =>
    match c.running[i]? with
    | some (.ret _) => some { c with running := c.running.eraseIdx i }
    | _ => none

/-- Runs of a pool, with a condition on every move. -/
def Run (workers : Nat) (allowed : Pool σ → Move → Prop) : Pool σ → Pool σ → Prop :=
  Relation.ReflTransGen fun c c' => ∃ m, allowed c m ∧ c.next workers m = some c'

/-- The next section of the job commutes with all that is left of the older one. -/
def Independent (view : σ → τ) (older : Proc σ Unit) : Proc σ Unit → Prop
  | .ret _ => True
  | .atomic f _ => older.CommutesWith view f

/-- A section is executed ahead of older jobs only as a relation between them and its job
allows it. -/
def Ahead (R : Proc σ Unit → Proc σ Unit → Prop) (c : Pool σ) : Move → Prop
  | .advance i => ∀ p, c.running[i]? = some p → ∀ older ∈ c.running.take i, R older p
  | _ => True

/-- A section is executed ahead of older jobs only if it commutes with them. -/
abbrev Orderly (view : σ → τ) : Pool σ → Move → Prop := Ahead (Independent view)

/-- No job is older than the first one. -/
theorem ahead_advance_zero (R : Proc σ Unit → Proc σ Unit → Prop) (c : Pool σ) :
    c.Ahead R (.advance 0) := by
  intro p _ older holder
  rw [List.take_zero] at holder
  cases holder

theorem Run.mono {R R' : Proc σ Unit → Proc σ Unit → Prop}
    (hR : ∀ older p, R older p → R' older p) (h : Run workers (Ahead R) c c') :
    Run workers (Ahead R') c c' := by
  refine Relation.ReflTransGen.mono ?_ _ _ h
  rintro d d' ⟨m, hm, hnext⟩
  refine ⟨m, ?_, hnext⟩
  cases m with
  | take => trivial
  | finish i => trivial
  | advance i => exact fun p hp older holder => hR older p (hm p hp older holder)

/-- The jobs of the pool, the oldest first. -/
def jobs (c : Pool σ) : List (Proc σ Unit) := c.running ++ c.waiting

theorem running_eq {i : Nat} {p : Proc σ Unit} (h : c.running[i]? = some p) :
    c.running = c.running.take i ++ p :: c.running.drop (i + 1) ∧
      ∀ q, c.running.set i q = c.running.take i ++ q :: c.running.drop (i + 1) := by
  obtain ⟨hi, hp⟩ := List.getElem?_eq_some_iff.mp h
  refine ⟨?_, fun q => ?_⟩
  · rw [← hp, ← List.drop_eq_getElem_cons hi, List.take_append_drop]
  · rw [List.set_eq_take_append_cons_drop, if_pos hi]

theorem next_advance {β : Type} {f : σ → Option (β × σ)} {k : β → Proc σ Unit} {i : Nat}
    (hi : c.running[i]? = some (.atomic f k)) (h : c.next workers (.advance i) = some c') :
    ∃ b s, c' = { c with state := s, running := c.running.set i (k b) } := by
  simp only [next, hi] at h
  obtain ⟨r, -, rfl⟩ := Option.map_eq_some_iff.mp h
  exact ⟨r.1, r.2, rfl⟩

theorem next_local (hlocal : ∀ p ∈ c.jobs, p.IsLocal view) (h : c.next workers m = some c') :
    ∀ p ∈ c'.jobs, p.IsLocal view := by
  cases m with
  | take =>
    simp only [next] at h
    split at h
    · cases h
    · rename_i p waiting hwaiting
      split at h
      · cases h
        simpa [jobs, hwaiting] using hlocal
      · cases h
  | advance i =>
    simp only [next] at h
    split at h
    · rename_i β f k hi
      obtain ⟨r, hr, rfl⟩ := Option.map_eq_some_iff.mp h
      intro p hp
      rcases List.mem_append.mp hp with hp | hp
      · rcases List.mem_or_eq_of_mem_set hp with hp | rfl
        · exact hlocal p (List.mem_append.mpr (Or.inl hp))
        · have hjob := hlocal _ (List.mem_append.mpr (Or.inl (List.mem_of_getElem? hi)))
          exact hjob.2 r.1
      · exact hlocal p (List.mem_append.mpr (Or.inr hp))
    · cases h
  | finish i =>
    simp only [next] at h
    split at h
    · cases h
      intro p hp
      rcases List.mem_append.mp hp with hp | hp
      · exact hlocal p (List.mem_append.mpr (Or.inl (List.mem_of_mem_eraseIdx hp)))
      · exact hlocal p (List.mem_append.mpr (Or.inr hp))
    · cases h

/-- An orderly move keeps what the jobs of the pool compute one after another. -/
theorem next_runAll (hlocal : ∀ p ∈ c.jobs, p.IsLocal view) (horder : c.Orderly view m)
    (h : c.next workers m = some c') :
    (runAll c'.jobs c'.state).map view = (runAll c.jobs c.state).map view := by
  cases m with
  | take =>
    simp only [next] at h
    split at h
    · cases h
    · rename_i p waiting hwaiting
      split at h
      · cases h
        simp only [jobs, hwaiting, List.append_assoc, List.singleton_append]
      · cases h
  | advance i =>
    simp only [next] at h
    split at h
    · rename_i β f k hi
      obtain ⟨r, hr, rfl⟩ := Option.map_eq_some_iff.mp h
      obtain ⟨hrunning, hset⟩ := running_eq hi
      have hjob : (Proc.atomic f k).IsLocal view :=
        hlocal _ (List.mem_append.mpr (Or.inl (List.mem_of_getElem? hi)))
      have holder : ∀ p ∈ c.running.take i, p.IsLocal view ∧ p.CommutesWith view f := by
        intro p hp
        refine ⟨hlocal p (List.mem_append.mpr (Or.inl (List.mem_of_mem_take hp))), ?_⟩
        exact horder _ hi p hp
      have hrest : ∀ p ∈ c.running.drop (i + 1) ++ c.waiting, p.IsLocal view := by
        intro p hp
        rcases List.mem_append.mp hp with hp | hp
        · exact hlocal p (List.mem_append.mpr (Or.inl (List.mem_of_mem_drop hp)))
        · exact hlocal p (List.mem_append.mpr (Or.inr hp))
      have hcomm := runAll_commute holder hjob.2 hrest c.state
      rw [hr, Option.bind_some] at hcomm
      have hjobs : c.jobs = c.running.take i ++
          .atomic f k :: (c.running.drop (i + 1) ++ c.waiting) := by
        rw [jobs]
        nth_rewrite 1 [hrunning]
        rw [List.append_assoc, List.cons_append]
      rw [hjobs, hcomm]
      simp only [jobs, hset, List.append_assoc, List.cons_append]
    · cases h
  | finish i =>
    simp only [next] at h
    split at h
    · rename_i hi
      cases h
      simp only [jobs, runAll_eraseIdx_ret hi]
    · cases h

theorem Run.runAll_eq (hlocal : ∀ p ∈ c.jobs, p.IsLocal view)
    (h : Run workers (Orderly view) c c') :
    (∀ p ∈ c'.jobs, p.IsLocal view) ∧
      (runAll c'.jobs c'.state).map view = (runAll c.jobs c.state).map view := by
  induction h with
  | refl => exact ⟨hlocal, rfl⟩
  | tail _ hstep ih =>
    obtain ⟨m, hm, hnext⟩ := hstep
    exact ⟨next_local ih.1 hnext, (next_runAll ih.1 hm hnext).trans ih.2⟩

/-- An orderly run that finishes all jobs ends in what they compute one after another. -/
theorem Run.complete {s s' : σ} {waiting : List (Proc σ Unit)}
    (hlocal : ∀ p ∈ waiting, p.IsLocal view)
    (h : Run workers (Orderly view) ⟨s, waiting, []⟩ ⟨s', [], []⟩) :
    ∃ t, runAll waiting s = some t ∧ view t = view s' := by
  have hall : (some s').map view = (runAll waiting s).map view := (h.runAll_eq hlocal).2
  exact Option.map_eq_some_iff.mp hall.symm

/-- A relation between an older job and a younger one that lasts while they go on. -/
structure Lasting (R : Proc σ Unit → Proc σ Unit → Prop) : Prop where
  older : ∀ {β : Type} (f : σ → Option (β × σ)) (k : β → Proc σ Unit) (b : β) (p : Proc σ Unit),
    R (.atomic f k) p → R (k b) p
  younger : ∀ {β : Type} (f : σ → Option (β × σ)) (k : β → Proc σ Unit) (b : β) (p : Proc σ Unit),
    R p (.atomic f k) → R p (k b)

theorem next_pairwise {R : Proc σ Unit → Proc σ Unit → Prop} (hR : Lasting R)
    (hjobs : c.jobs.Pairwise R) (h : c.next workers m = some c') : c'.jobs.Pairwise R := by
  cases m with
  | take =>
    simp only [next] at h
    split at h
    · cases h
    · rename_i p waiting hwaiting
      split at h
      · cases h
        simpa [jobs, hwaiting] using hjobs
      · cases h
  | advance i =>
    simp only [next] at h
    split at h
    · rename_i β f k hi
      obtain ⟨r, -, rfl⟩ := Option.map_eq_some_iff.mp h
      obtain ⟨hrunning, hset⟩ := running_eq hi
      rw [jobs, hrunning, List.append_assoc, List.cons_append, List.pairwise_append,
        List.pairwise_cons] at hjobs
      obtain ⟨holder, ⟨hyounger, hrest⟩, hacross⟩ := hjobs
      simp only [jobs, hset, List.append_assoc, List.cons_append]
      rw [List.pairwise_append, List.pairwise_cons]
      refine ⟨holder, ⟨fun q hq => hR.older f k r.1 q (hyounger q hq), hrest⟩, ?_⟩
      intro q hq q' hq'
      rcases List.mem_cons.mp hq' with rfl | hq'
      · exact hR.younger f k r.1 q (hacross q hq _ List.mem_cons_self)
      · exact hacross q hq q' (List.mem_cons_of_mem _ hq')
    · cases h
  | finish i =>
    simp only [next] at h
    split at h
    · cases h
      exact hjobs.sublist ((List.eraseIdx_sublist c.running i).append_right c.waiting)
    · cases h

/-- Jobs that are related from the start may take any turns. -/
theorem Run.ahead {R : Proc σ Unit → Proc σ Unit → Prop} (hR : Lasting R)
    (hjobs : c.jobs.Pairwise R) (h : Run workers (fun _ _ => True) c c') :
    c'.jobs.Pairwise R ∧ Run workers (Ahead R) c c' := by
  induction h with
  | refl => exact ⟨hjobs, .refl⟩
  | @tail d d' _ hstep ih =>
    obtain ⟨m, -, hnext⟩ := hstep
    obtain ⟨hd, hrun⟩ := ih
    refine ⟨next_pairwise hR hd hnext, hrun.tail ⟨m, ?_, hnext⟩⟩
    cases m with
    | take => trivial
    | finish i => trivial
    | advance i =>
      intro p hp older holder
      obtain ⟨hrunning, -⟩ := running_eq hp
      rw [jobs, hrunning, List.append_assoc, List.pairwise_append] at hd
      exact hd.2.2 older holder p List.mem_cons_self

/-! ## Given runs -/

/-- A run of given moves. -/
def moves (workers : Nat) (c : Pool σ) : List Move → Option (Pool σ)
  | [] => some c
  | m :: rest => (c.next workers m).bind fun c' => c'.moves workers rest

/-- Every move of a given run meets a condition where it is taken. -/
def Allows (workers : Nat) (allowed : Pool σ → Move → Prop) : Pool σ → List Move → Prop
  | _, [] => True
  | c, m :: rest =>
    allowed c m ∧ ∀ c', c.next workers m = some c' → Allows workers allowed c' rest

theorem Allows.of_forall {allowed : Pool σ → Move → Prop} {l : List Move}
    (h : ∀ m ∈ l, ∀ c, allowed c m) (c : Pool σ) : c.Allows workers allowed l := by
  induction l generalizing c with
  | nil => trivial
  | cons m rest ih =>
    exact ⟨h m List.mem_cons_self c,
      fun c' _ => ih (fun m' hm => h m' (List.mem_cons_of_mem m hm)) c'⟩

theorem run_of_moves {allowed : Pool σ → Move → Prop} {l : List Move}
    (hall : c.Allows workers allowed l) (h : c.moves workers l = some c') :
    Run workers allowed c c' := by
  induction l generalizing c with
  | nil =>
    cases h
    exact .refl
  | cons m rest ih =>
    obtain ⟨c₁, hc₁, hrest⟩ := Option.bind_eq_some_iff.mp h
    exact .head ⟨m, hall.1, hc₁⟩ (ih (hall.2 c₁ hc₁) hrest)

end Pool
