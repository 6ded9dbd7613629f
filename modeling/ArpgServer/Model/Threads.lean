import ArpgServer.Model.Machine

/-!
# The threads of the server

All threads share the tables and the queue, and any of them may take the next step: `main`
accepts, the reading thread queues the tasks of an input event one after another, a worker
executes a section of the task it has taken, and the heartbeat a section of its sweep. The
code of a procedure between two locked parts is one section.
-/

namespace ArpgServer

open CText

/-- The body of the loop of `serv_heartbeat` at index `i`. It reads `fd_clients[i]` three
times. -/
def sweepAt (env : Env) (i : Nat) : Proc State Unit := do
  let first ← Proc.read fun s => some (s.fdClients i)
  if first = none then return ()
  else
    let idle ← Proc.read fun s =>
      (s.fdClients i).bind fun p => (s.heap p).map (isIdle s.mytimestamp)
    if idle then
      let node ← Proc.read fun s => some (s.fdClients i)
      let _ ← nodeDel env node
      return ()
    else return ()

def sweepOver (env : Env) : List Nat → Proc State Unit
  | [] => .ret ()
  | i :: rest => do
    sweepAt env i
    sweepOver env rest

/-- One round of `serv_heartbeat`. -/
def sweep (env : Env) : Proc State Unit := do
  Proc.modify fun s => some (s.tick env.now)
  sweepOver env (List.range maxFds)

/-- What the reading thread has left to do for an input event: to note the activity of the
client it has found, and to queue its tasks. -/
inductive Reading where
  | waiting
  | stamping (client : Addr) (tasks : List Task)
  | queuing (tasks : List Task)

/-- A worker whose procedure is over waits for a task, and so does the heartbeat for its next
round. -/
structure Threads extends Machine where
  reader : Reading
  workers : List (Proc State Unit)
  heart : Proc State Unit

namespace Threads

inductive Move where
  | accept (fd : Nat) (node : Addr)
  | event (fd : Nat) (ready : List (Ready × Ready)) (stream : Bytes)
  | stamp
  | enqueue
  | take (i : Nat)
  | work (i : Nat)
  | wake
  | beat

/-- The next section of a procedure. -/
def advance (job : Proc State Unit) (s : State) : Option (State × Proc State Unit) :=
  match job with
  | .ret _ => none
  | .atomic f k => (f s).map fun r => (r.2, k r.1)

/-- The procedure is over. -/
def isOver : Proc State Unit → Bool
  | .ret _ => true
  | .atomic _ _ => false

def next (env : Env) (m : Threads) : Move → Option Threads
  | .accept fd node => (acceptClient fd node m.server).map fun s => { m with server := s }
  | .event fd ready stream =>
    match m.reader with
    | .waiting =>
      some { m with
        server := m.server.tick env.now
        reader :=
          match m.server.fdClients fd with
          | none => .waiting
          | some client => .stamping client (readLoop fd client 0 ready stream).1 }
    | _ => none
  | .stamp =>
    match m.reader with
    | .stamping client tasks =>
      (m.server.heap client).map fun c =>
        { m with
          server := m.server.setClient client
            { c with keepalivetime := toInt32 m.server.mytimestamp }
          reader := .queuing tasks }
    | _ => none
  | .enqueue =>
    match m.reader with
    | .queuing [] => some { m with reader := .waiting }
    | .queuing (task :: rest) =>
      some { m with queue := m.queue ++ [task], reader := .queuing rest }
    | _ => none
  | .take i =>
    match m.workers[i]?, m.queue with
    | some job, task :: rest =>
      if isOver job then
        some { m with
          queue := rest
          workers := m.workers.set i (parseMessage (getFdnodeByname env) env task) }
      else none
    | _, _ => none
  | .work i =>
    (m.workers[i]?).bind fun job =>
      (advance job m.server).map fun r =>
        { m with server := r.1, workers := m.workers.set i r.2 }
  | .wake => if isOver m.heart then some { m with heart := sweep env } else none
  | .beat => (advance m.heart m.server).map fun r => { m with server := r.1, heart := r.2 }

/-- A machine whose threads all wait. -/
def resting (m : Machine) (workers : Nat) : Threads :=
  { m with reader := .waiting, workers := List.replicate workers (.ret ()), heart := .ret () }

/-- A move in an environment of some kind. -/
def Moves (outside : Env → Prop) (m m' : Threads) : Prop :=
  ∃ env a, outside env ∧ m.next env a = some m'

/-- What the threads can reach after start-up, however they take turns. -/
def Interleaved (outside : Env → Prop) (conf : Nat → RoomConf) (workers : Nat) (m : Threads) :
    Prop :=
  Relation.ReflTransGen (Moves outside) (resting (Machine.start conf) workers) m

/-! ## Given runs -/

/-- A run of given moves. -/
def moves (m : Threads) : List (Env × Move) → Option Threads
  | [] => some m
  | (env, a) :: rest => (m.next env a).bind fun m' => m'.moves rest

theorem interleaved_of_moves {outside : Env → Prop} {conf : Nat → RoomConf} {workers : Nat}
    {l : List (Env × Move)} {m : Threads} (hall : ∀ x ∈ l, outside x.1)
    (h : (resting (Machine.start conf) workers).moves l = some m) :
    Interleaved outside conf workers m := by
  suffices hRun : ∀ m₀ : Threads, m₀.moves l = some m →
      Relation.ReflTransGen (Moves outside) m₀ m from hRun _ h
  clear h
  induction l with
  | nil =>
    intro m₀ h
    cases h
    exact .refl
  | cons x rest ih =>
    obtain ⟨env, a⟩ := x
    intro m₀ h
    obtain ⟨m₁, hm₁, hrest⟩ := Option.bind_eq_some_iff.mp h
    exact .head ⟨env, a, hall _ List.mem_cons_self, hm₁⟩
      (ih (fun y hy => hall y (List.mem_cons_of_mem _ hy)) m₁ hrest)

end Threads

end ArpgServer
