import ArpgServer.Model.Threads

/-!
# Waiting for tasks (`readtask`)

A worker that finds the queue empty sleeps in `pthread_cond_wait`. For every task that it
queues, the reading thread wakes one of the sleepers with `pthread_cond_signal`; a worker may
also wake up without a signal. Whoever wakes up looks at the queue again.
-/

namespace ArpgServer

open CText

/-- The threads, and which of the workers sleep. -/
structure Sleepers where
  threads : Threads
  asleep : Nat → Bool

namespace Sleepers

open Threads

inductive Move where
  /-- What has nothing to do with the condition. -/
  | other (a : Threads.Move)
  /-- A task is queued, and a signal is sent, which wakes one sleeper if there are any. -/
  | put (woken : Option Nat)
  /-- A worker finds the queue empty. -/
  | sleep (i : Nat)
  /-- A worker wakes up by itself. -/
  | wake (i : Nat)

/-- The worker sleeps. -/
def isAsleep (m : Sleepers) (i : Nat) : Bool :=
  decide (i < m.threads.workers.length) && m.asleep i

/-- Nobody sleeps. -/
def nobody (m : Sleepers) : Bool := (List.range m.threads.workers.length).all fun i => !m.asleep i

def awaken (m : Sleepers) (i : Nat) : Sleepers :=
  { m with asleep := Function.update m.asleep i false }

/-- A move that the thread behind it is awake for, and that queues no task. -/
def allows (m : Sleepers) : Threads.Move → Bool
  | .take i => !m.isAsleep i
  | .work i => !m.isAsleep i
  | .enqueue =>
    match m.threads.reader with
    | .queuing (_ :: _) => false
    | _ => true
  | _ => true

def next (env : Env) (m : Sleepers) : Move → Option Sleepers
  | .other a =>
    if m.allows a then (m.threads.next env a).map fun t => { m with threads := t } else none
  | .put woken =>
    match m.threads.reader with
    | .queuing (task :: rest) =>
      let t : Threads :=
        { m.threads with queue := m.threads.queue ++ [task], reader := .queuing rest }
      match woken with
      | none => if m.nobody then some { m with threads := t } else none
      | some i => if m.isAsleep i then some ({ m with threads := t }.awaken i) else none
    | _ => none
  | .sleep i =>
    match m.threads.workers[i]?, m.threads.queue with
    | some job, [] =>
      if isOver job ∧ m.isAsleep i = false then
        some { m with asleep := Function.update m.asleep i true }
      else none
    | _, _ => none
  | .wake i => if m.isAsleep i then some (m.awaken i) else none

/-- The threads after start-up: all workers go to look for a task. -/
def start (conf : Nat → RoomConf) (workers : Nat) : Sleepers where
  threads := resting (Machine.start conf) workers
  asleep := fun _ => false

def Moves (outside : Env → Prop) (m m' : Sleepers) : Prop :=
  ∃ env a, outside env ∧ m.next env a = some m'

/-- What the threads can reach when workers sleep and are woken. -/
def Reached (outside : Env → Prop) (conf : Nat → RoomConf) (workers : Nat) (m : Sleepers) : Prop :=
  Relation.ReflTransGen (Moves outside) (start conf workers) m

/-! ## Given runs -/

/-- A run of given moves. -/
def moves (m : Sleepers) : List (Env × Move) → Option Sleepers
  | [] => some m
  | (env, a) :: rest => (m.next env a).bind fun m' => m'.moves rest

theorem reached_of_moves {outside : Env → Prop} {conf : Nat → RoomConf} {workers : Nat}
    {l : List (Env × Move)} {m : Sleepers} (hall : ∀ x ∈ l, outside x.1)
    (h : (start conf workers).moves l = some m) : Reached outside conf workers m := by
  suffices hRun : ∀ m₀ : Sleepers, m₀.moves l = some m →
      Relation.ReflTransGen (Moves outside) m₀ m from hRun _ h
  clear h
  induction l with
  | nil =>
    intro m₀ h
    cases h
    exact .refl
  | cons x rest ih =>
    obtain ⟨env, a⟩ := x
    intro m₀ h
    obtain ⟨m₁, hm₁, hrest⟩ := Option.bind_eq_some_iff.mp h
    exact .head ⟨env, a, hall _ List.mem_cons_self, hm₁⟩
      (ih (fun y hy => hall y (List.mem_cons_of_mem _ hy)) m₁ hrest)

end Sleepers

end ArpgServer
