import Mathlib.Logic.Relation
import ArpgServer.Library.Linked
import ArpgServer.Model.Message

/-!
# The list of tasks (`task_head`, `task_last`)

The reading thread allocates a task and links it behind the last one under `t_mutex`; a worker
takes the first one under `t_mutex`, handles it and frees it. The workers never write
`task_last`. A read or write through a pointer to memory that is not allocated is `none`.
-/

namespace ArpgServer

open Linked

structure TaskQueue where
  heap : Heap Task
  taskHead : Option Addr
  taskLast : Option Addr
  /-- The local `new_task` of the reading thread, while it is not in the list. -/
  newTask : Option Addr
  /-- The local `temp` of each worker, while it handles a task. -/
  temp : Nat → Option Addr

namespace TaskQueue

/-- The two pointers are global variables. -/
def start : TaskQueue where
  heap := fun _ => none
  taskHead := none
  taskLast := none
  newTask := none
  temp := fun _ => none

/-- `malloc` returns memory that is not in use, and the fields are filled in. -/
def allocate (a : Addr) (t : Task) (q : TaskQueue) : Option TaskQueue :=
  if q.newTask = none ∧ q.heap a = none then
    some { q with heap := Function.update q.heap a (some ⟨t, none⟩), newTask := some a }
  else none

/-- The task behind the list: `task_head = new_task` or `task_last->next = new_task`. -/
def link (a : Addr) (q : TaskQueue) : Option TaskQueue :=
  match q.taskHead with
  | none => some { q with taskHead := some a }
  | some _ => q.taskLast.bind fun l =>
      (setNext q.heap l (some a)).map fun heap => { q with heap := heap }

/-- The section of `serv_epoll` under `t_mutex`. -/
def enqueue (q : TaskQueue) : Option TaskQueue :=
  q.newTask.bind fun a =>
    (q.link a).map fun q => { q with taskLast := some a, newTask := none }

/-- The section of `readtask` under `t_mutex`, when the list is not empty. -/
def dequeue (w : Nat) (q : TaskQueue) : Option TaskQueue :=
  q.taskHead.bind fun a =>
    (q.heap a).map fun node =>
      { q with taskHead := node.next, temp := Function.update q.temp w (some a) }

/-- `free (temp)`. -/
def release (w : Nat) (q : TaskQueue) : Option TaskQueue :=
  (q.temp w).bind fun a =>
    (q.heap a).map fun _ =>
      { q with heap := Function.update q.heap a none, temp := Function.update q.temp w none }

end TaskQueue

/-- What a thread does next. -/
inductive QueueAction where
  | allocate (a : Addr) (t : Task)
  | enqueue
  | dequeue (w : Nat)
  | release (w : Nat)

/-- The list with all tasks that were put in and all that were handed out. -/
structure QueueHistory where
  queue : TaskQueue
  put : List Task
  got : List (Nat × Task)

namespace QueueHistory

def start : QueueHistory := { queue := TaskQueue.start, put := [], got := [] }

/-- The task a pointer leads to. -/
def taskAt (s : QueueHistory) (a : Option Addr) : List Task :=
  ((a.bind s.queue.heap).map Node.data).toList

def step (s : QueueHistory) : QueueAction → Option QueueHistory
  | .allocate a t => (s.queue.allocate a t).map fun q => { s with queue := q }
  | .enqueue => s.queue.enqueue.map fun q =>
      { s with queue := q, put := s.put ++ s.taskAt s.queue.newTask }
  | .dequeue w =>
    if s.queue.temp w = none then
      (s.queue.dequeue w).map fun q =>
        { s with queue := q, got := s.got ++ (s.taskAt s.queue.taskHead).map (w, ·) }
    else none
  | .release w => (s.queue.release w).map fun q => { s with queue := q }

/-- The histories of all interleavings. -/
def Runs (s : QueueHistory) : Prop :=
  Relation.ReflTransGen (fun s s' : QueueHistory => ∃ a, s.step a = some s') start s

/-- A run of given actions. -/
def steps (s : QueueHistory) : List QueueAction → Option QueueHistory
  | [] => some s
  | a :: rest => (s.step a).bind fun s' => s'.steps rest

theorem runs_of_steps {s : QueueHistory} {actions : List QueueAction}
    (h : start.steps actions = some s) : Runs s := by
  suffices hRun : ∀ t : QueueHistory, t.steps actions = some s →
      Relation.ReflTransGen (fun s s' : QueueHistory => ∃ a, s.step a = some s') t s from
    hRun start h
  clear h
  induction actions with
  | nil =>
    intro t h
    cases h
    exact .refl
  | cons a rest ih =>
    intro t h
    obtain ⟨t', ht, h⟩ := Option.bind_eq_some_iff.mp h
    exact .head ⟨a, ht⟩ (ih t' h)

end QueueHistory

end ArpgServer
