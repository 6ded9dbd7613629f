import Mathlib.Data.List.Count
import Mathlib.Logic.Relation

/-!
# Workers that sleep on a condition

Jobs are put into a queue, and a worker that finds it empty goes to sleep. Whoever puts a job
wakes one of the sleepers, if there are any; a sleeper may also wake up by itself. No wake-up
is lost: while anybody sleeps, there are no more jobs than workers that look for one.
-/

namespace Monitor

/-- What a worker does. One that is awake and has no job looks for one. -/
inductive Status where
  | asleep | looking | busy
  deriving DecidableEq

/-- The number of jobs that wait, and the workers. -/
structure Pool where
  jobs : Nat
  workers : List Status

def Pool.set (p : Pool) (i : Nat) (w : Status) : Pool := { p with workers := p.workers.set i w }

inductive Step : Pool → Pool → Prop where
  | put (p : Pool) (hnone : .asleep ∉ p.workers) : Step p { p with jobs := p.jobs + 1 }
  | signal (p : Pool) (i : Nat) (hi : p.workers[i]? = some .asleep) :
      Step p { p.set i .looking with jobs := p.jobs + 1 }
  | wake (p : Pool) (i : Nat) (hi : p.workers[i]? = some .asleep) : Step p (p.set i .looking)
  | sleep (p : Pool) (i : Nat) (hi : p.workers[i]? = some .looking) (hempty : p.jobs = 0) :
      Step p (p.set i .asleep)
  | take (p : Pool) (i : Nat) (hi : p.workers[i]? = some .looking) (hjobs : 0 < p.jobs) :
      Step p { p.set i .busy with jobs := p.jobs - 1 }
  | finish (p : Pool) (i : Nat) (hi : p.workers[i]? = some .busy) : Step p (p.set i .looking)

/-- While anybody sleeps, every job has a worker that looks for it. -/
def Watched (p : Pool) : Prop := .asleep ∈ p.workers → p.jobs ≤ p.workers.count .looking

variable {p p' : Pool} {i : Nat} {w : Status}

theorem Pool.asleep_of_set (hw : w ≠ .asleep) (h : .asleep ∈ (p.set i w).workers) :
    .asleep ∈ p.workers :=
  (List.mem_or_eq_of_mem_set h).resolve_right hw.symm

/-- A worker that changes is counted anew. -/
theorem Pool.count_set (hi : p.workers[i]? = some w) (w' x : Status) :
    (p.set i w').workers.count x + (if w = x then 1 else 0) =
      p.workers.count x + (if w' = x then 1 else 0) := by
  obtain ⟨hlt, hw⟩ := List.getElem?_eq_some_iff.mp hi
  have hcount : 0 < p.workers.count w := List.count_pos_iff.mpr (List.mem_of_getElem? hi)
  rw [Pool.set, List.count_set hlt, hw]
  by_cases hx : w = x
  · subst hx
    simp only [beq_self_eq_true, if_true, beq_iff_eq]
    omega
  · simp [hx]

theorem Step.watched (h : Step p p') (hp : Watched p) : Watched p' := by
  cases h with
  | put hnone => exact fun hasleep => absurd hasleep hnone
  | signal i hi =>
    intro hasleep
    have hjobs : p.jobs ≤ p.workers.count .looking := hp (List.mem_of_getElem? hi)
    have hcount := Pool.count_set hi .looking .looking
    simp only [reduceCtorEq, if_false, if_true] at hcount ⊢
    omega
  | wake i hi =>
    intro hasleep
    have hjobs : p.jobs ≤ p.workers.count .looking := hp (List.mem_of_getElem? hi)
    have hcount := Pool.count_set hi .looking .looking
    simp only [Pool.set, reduceCtorEq, if_false, if_true] at hcount ⊢
    omega
  | sleep i hi hempty =>
    intro hasleep
    simp only [Pool.set, hempty]
    exact Nat.zero_le _
  | take i hi hwaits =>
    intro hasleep
    have hjobs : p.jobs ≤ p.workers.count .looking := hp (Pool.asleep_of_set (by decide) hasleep)
    have hcount := Pool.count_set hi .busy .looking
    simp only [reduceCtorEq, if_false, if_true] at hcount ⊢
    omega
  | finish i hi =>
    intro hasleep
    have hjobs : p.jobs ≤ p.workers.count .looking := hp (Pool.asleep_of_set (by decide) hasleep)
    have hcount := Pool.count_set hi .looking .looking
    simp only [Pool.set, reduceCtorEq, if_false, if_true] at hcount ⊢
    omega

theorem Watched.run (hp : Watched p) (h : Relation.ReflTransGen Step p p') : Watched p' := by
  induction h with
  | refl => exact hp
  | tail _ hstep ih => exact hstep.watched ih

/-- A job waits only for a worker that is on its way, or because all are busy. -/
theorem Watched.served (hp : Watched p) (hjobs : 0 < p.jobs) :
    .looking ∈ p.workers ∨ ∀ w ∈ p.workers, w = .busy := by
  by_cases hasleep : .asleep ∈ p.workers
  · have hcount := hp hasleep
    exact Or.inl (List.count_pos_iff.mp (by omega))
  by_cases hlooking : .looking ∈ p.workers
  · exact Or.inl hlooking
  refine Or.inr fun w hw => ?_
  cases w with
  | asleep => exact absurd hw hasleep
  | looking => exact absurd hw hlooking
  | busy => rfl

end Monitor
