import ArpgServer.Model.Epoll

/-!
# The server and its task queue

The threads of the server take turns: `main` accepts, the reading thread queues tasks, a
worker takes the first task and handles it, and the heartbeat goes through all descriptors.
A task keeps the client it was read for, whatever happens before a worker takes it.
-/

namespace ArpgServer

structure Machine where
  server : State
  queue : List Task

/-- What a thread does. The reading thread handles one input event of a descriptor. -/
inductive Turn where
  | accept (fd : Nat) (node : Addr)
  | input (fd : Nat) (ready : List (Ready × Ready)) (stream : Bytes)
  | work
  | heartbeat

/-- The loop of `serv_heartbeat` over some indices. -/
def heartbeatOver (env : Env) : List Nat → State → Option State
  | [], s => some s
  | i :: rest, s => (heartbeatAt env i s).bind (heartbeatOver env rest)

/-- An input event of a descriptor that has no client is dropped. -/
def Machine.turn (env : Env) (m : Machine) : Turn → Option Machine
  | .accept fd node => (acceptClient fd node m.server).map fun s => { m with server := s }
  | .input fd ready stream =>
    match m.server.fdClients fd with
    | none => some { m with server := m.server.tick env.now }
    | some client => (noteInput env fd m.server).map fun s =>
        { server := s, queue := m.queue ++ (readLoop fd client 0 ready stream).1 }
  | .work =>
    match m.queue with
    | [] => none
    | task :: rest =>
      ((parseMessage (getFdnodeByname env) env task).run m.server).map fun r =>
        { server := r.2, queue := rest }
  | .heartbeat =>
    (heartbeatOver env (List.range maxFds) m.server).map fun s => { m with server := s }

/-- The machine after start-up. -/
def Machine.start (conf : Nat → RoomConf) : Machine := { server := State.start conf, queue := [] }

/-- The runs of the machine all of whose turns meet a condition. -/
def MachineRuns (allowed : Env → Machine → Turn → Prop) (m : Machine) : Prop :=
  ∃ conf, Relation.ReflTransGen
    (fun m m' => ∃ env a, allowed env m a ∧ m.turn env a = some m') (Machine.start conf) m

theorem MachineRuns.invariant {allowed : Env → Machine → Turn → Prop} {I : Machine → Prop}
    (hStart : ∀ conf, I (Machine.start conf))
    (hTurn : ∀ env m a m', I m → allowed env m a → m.turn env a = some m' → I m')
    {m : Machine} (h : MachineRuns allowed m) : I m := by
  obtain ⟨conf, h⟩ := h
  induction h with
  | refl => exact hStart conf
  | tail _ hm ih =>
    obtain ⟨env, a, ha, hturn⟩ := hm
    exact hTurn env _ a _ ih ha hturn

/-! ## Given runs -/

/-- A run of given turns. -/
def Machine.turns (m : Machine) : List (Env × Turn) → Option Machine
  | [] => some m
  | (env, a) :: rest => (m.turn env a).bind fun m' => m'.turns rest

/-- Every turn of a given run meets a condition where it is taken. -/
def Machine.Allows (allowed : Env → Machine → Turn → Prop) : Machine → List (Env × Turn) → Prop
  | _, [] => True
  | m, (env, a) :: rest =>
    allowed env m a ∧ ∀ m', m.turn env a = some m' → Machine.Allows allowed m' rest

theorem machineRuns_of_turns {allowed : Env → Machine → Turn → Prop} {conf : Nat → RoomConf}
    {turns : List (Env × Turn)} {m : Machine} (hall : (Machine.start conf).Allows allowed turns)
    (h : (Machine.start conf).turns turns = some m) : MachineRuns allowed m := by
  suffices hRun : ∀ m₀ : Machine, m₀.Allows allowed turns → m₀.turns turns = some m →
      Relation.ReflTransGen (fun m m' => ∃ env a, allowed env m a ∧ m.turn env a = some m') m₀ m
    from ⟨conf, hRun _ hall h⟩
  clear h hall
  induction turns with
  | nil =>
    intro m₀ _ h
    cases h
    exact .refl
  | cons ea rest ih =>
    obtain ⟨env, a⟩ := ea
    intro m₀ hall h
    obtain ⟨m₁, hm₁, hrest⟩ := Option.bind_eq_some_iff.mp h
    exact .head ⟨env, a, hall.1, hm₁⟩ (ih m₁ (hall.2 m₁ hm₁) hrest)

end ArpgServer
