import ArpgServer.Model.Machine
import ArpgServer.Names.Lookup

/-!
# Tasks and the clients they were read for

A task waits in the queue while other threads remove clients. As long as no turn removes a
client that another task waits for, every waiting task was read for the client that is
registered at its descriptor now.
-/

namespace ArpgServer

variable {lookup : Lookup} {env : Env} {s s' : State} {p q : Addr} {c : Client} {fd : Nat}
  {a : Action} {m m' : Machine} {turn : Turn}

/-- Every waiting task was read for the client at its descriptor. -/
def Current (tasks : List Task) (s : State) : Prop :=
  ∀ task ∈ tasks, s.fdClients task.fd = some task.client

/-- The tasks that wait while a turn is taken. -/
def Machine.waiting (m : Machine) : Turn → List Task
  | .work => m.queue.tail
  | _ => m.queue

/-- What happens to the server in a turn that removes a client. -/
def Machine.acts (m : Machine) : Turn → Action → Prop
  | .work, a => ∃ task rest, m.queue = task :: rest ∧ a = .task task.fd task.recvBits task.data
  | .heartbeat, a => ∃ i, a = .idle i
  | _, _ => False

/-- The turn removes no client that another task waits for. -/
def SparesWaiting (env : Env) (m : Machine) (turn : Turn) : Prop :=
  ∀ a q, m.acts turn a → Removes (getFdnodeByname env) env m.server a q →
    ∀ task ∈ m.waiting turn, task.client ≠ q

/-! ## Actions -/

/-- A client stays at its descriptor unless the action removes it. -/
theorem ActEffect.registered (hs : Sound s) (h : ActEffect lookup env s a s')
    (hp : s.fdClients fd = some p) (hno : ¬ Removes lookup env s a p) :
    s'.fdClients fd = some p := by
  cases h with
  | quiet h => rw [(h.sameFaces hs).fdClients, hp]
  | accept k node hk hnode h =>
    have hne : fd ≠ k := by
      rintro rfl
      rw [hk] at hp
      cases hp
    rw [h]
    show Function.update s.fdClients k (some node) fd = some p
    rw [Function.update_of_ne hne, hp]
  | remove t q d ht hq h hwhy =>
    have htp : t.fdClients fd = some p := by rw [(ht.sameFaces hs).fdClients, hp]
    have hne : fd ≠ d.fd := by
      rintro rfl
      rw [(ht.sound hs).current q d hq] at htp
      cases htp
      exact hno hwhy
    obtain ⟨l, key, chain, -, -, -, rfl⟩ := h
    simpa [State.freed, hne] using htp
  | auth k recvBits data q d e ha hk hq hdecode ht h =>
    have hframe := (AuthEffect.frame (s := s.tick env.now) (hs.tick env.now) hq h).1
    rw [hframe]
    exact hp

theorem heartbeatAt_heap {i : Nat} (hs : Sound s) (h : heartbeatAt env i s = some s')
    (hno : ¬ Removes lookup env s (.idle i) q) : s'.heap q = s.heap q := by
  simp only [heartbeatAt] at h
  split at h
  · cases h
    rfl
  · rename_i p hfd
    obtain ⟨c, hp, h⟩ := Option.bind_eq_some_iff.mp h
    split at h
    · rename_i hidle
      obtain ⟨r, hdel, rfl⟩ := Option.map_eq_some_iff.mp h
      have hne : q ≠ p := by
        rintro rfl
        exact hno (.idle i q c hfd hp hidle)
      have hrem := nodeDel_effect (hs.tick env.now) hp hdel
      rw [hrem.heap_eq (hs.tick env.now) hp, Function.update_of_ne hne]
      rfl
    · cases h
      rfl

/-! ## Turns -/

/-- The heartbeat leaves the clients alone that tasks wait for. -/
theorem heartbeatOver_current {tasks : List Task} {l : List Nat} (hs : Sound s)
    (hcur : Current tasks s)
    (hawake : ∀ task ∈ tasks, ∀ c, s.heap task.client = some c → isIdle env.now c = false)
    (h : heartbeatOver env l s = some s') : Sound s' ∧ Current tasks s' := by
  induction l generalizing s with
  | nil =>
    cases h
    exact ⟨hs, hcur⟩
  | cons i rest ih =>
    obtain ⟨t, ht, h⟩ := Option.bind_eq_some_iff.mp h
    have heff := act_effect hs (getFdnodeByname_registered env) (a := .idle i) ht
    have hno : ∀ task ∈ tasks,
        ¬ Removes (getFdnodeByname env) env s (.idle i) task.client := by
      intro task hmem hrem
      cases hrem with
      | idle _ _ c hfd hq hidle =>
        rw [hawake task hmem c hq] at hidle
        cases hidle
    refine ih (heff.sound hs) ?_ ?_ h
    · intro task hmem
      exact heff.registered hs (hcur task hmem) (hno task hmem)
    · intro task hmem c hc
      rw [heartbeatAt_heap hs ht (hno task hmem)] at hc
      exact hawake task hmem c hc

theorem readPass_task {client : Addr} {readnum : Nat} {header body : Ready}
    {stream rest : Bytes} {task : Task}
    (h : readPass fd client readnum header body stream = .last task rest ∨
      readPass fd client readnum header body stream = .again task rest) :
    task.fd = fd ∧ task.client = client := by
  unfold readPass at h
  dsimp only at h
  generalize readBody (readFd header stream 4) body = buf at h
  split at h
  · rcases h with h | h <;> cases h
  · split at h
    · rcases h with h | h <;> cases h
    · split at h <;> rcases h with h | h <;> cases h <;> exact ⟨rfl, rfl⟩

/-- A task is queued for the client that is registered when its event is handled. -/
theorem readLoop_task {client : Addr} {readnum : Nat} {ready : List (Ready × Ready)}
    {stream : Bytes} {task : Task} (h : task ∈ (readLoop fd client readnum ready stream).1) :
    task.fd = fd ∧ task.client = client := by
  induction ready generalizing readnum stream with
  | nil =>
    simp only [readLoop] at h
    split at h
    · cases h
    · rw [List.mem_singleton.mp h]
      exact ⟨rfl, rfl⟩
  | cons answer ready ih =>
    obtain ⟨header, body⟩ := answer
    simp only [readLoop] at h
    split at h
    · cases h
    · rename_i task' rest hpass
      rw [List.mem_singleton.mp h]
      exact readPass_task (Or.inl hpass)
    · rename_i task' rest hpass
      rcases List.mem_cons.mp h with rfl | h
      · exact readPass_task (Or.inr hpass)
      · exact ih h

/-- The tasks of an input event are queued for the client that is there, and nobody leaves. -/
theorem Machine.input_current {ready : List (Ready × Ready)} {stream : Bytes}
    (hs : Sound m.server) (hcur : Current m.queue m.server)
    (h : m.turn env (.input fd ready stream) = some m') :
    Sound m'.server ∧ Current m'.queue m'.server := by
  simp only [Machine.turn] at h
  split at h
  · cases h
    exact ⟨hs.tick env.now, hcur⟩
  rename_i client hfd
  obtain ⟨s, hnote, rfl⟩ := Option.map_eq_some_iff.mp h
  have heff := act_effect hs (getFdnodeByname_registered env) (a := .input fd) hnote
  have hkeep : ∀ k p, m.server.fdClients k = some p → s.fdClients k = some p := by
    intro k p hk
    exact heff.registered hs hk (by rintro ⟨⟩)
  refine ⟨heff.sound hs, fun task hmem => ?_⟩
  rcases List.mem_append.mp hmem with hmem | hmem
  · exact hkeep _ _ (hcur task hmem)
  · obtain ⟨hk, hclient⟩ := readLoop_task hmem
    rw [hk, hclient]
    exact hkeep fd client hfd

/-- A worker handles the first task as an action of the client the task was read for. -/
theorem Machine.work_current (hs : Sound m.server) (hcur : Current m.queue m.server)
    (hspare : SparesWaiting env m .work) (h : m.turn env .work = some m') :
    Sound m'.server ∧ Current m'.queue m'.server := by
  simp only [Machine.turn] at h
  split at h
  · cases h
  rename_i task rest hqueue
  obtain ⟨r, hrun, rfl⟩ := Option.map_eq_some_iff.mp h
  have htask := hcur task (hqueue ▸ List.mem_cons_self)
  have hact : act (getFdnodeByname env) env m.server
      (.task task.fd task.recvBits task.data) = some r.2 := by
    simp only [act, htask, Option.bind_some]
    exact Option.map_eq_some_iff.mpr ⟨r, hrun, rfl⟩
  have heff := act_effect hs (getFdnodeByname_registered env) hact
  refine ⟨heff.sound hs, fun waiting hmem => ?_⟩
  refine heff.registered hs (hcur waiting (hqueue ▸ List.mem_cons_of_mem task hmem)) ?_
  intro hrem
  refine hspare _ _ ⟨task, rest, hqueue, rfl⟩ hrem waiting ?_ rfl
  rw [Machine.waiting, hqueue]
  exact hmem

theorem Machine.turn_current (hs : Sound m.server) (hcur : Current m.queue m.server)
    (hspare : SparesWaiting env m turn) (h : m.turn env turn = some m') :
    Sound m'.server ∧ Current m'.queue m'.server := by
  cases turn with
  | accept fd node =>
    obtain ⟨s, hacc, rfl⟩ := Option.map_eq_some_iff.mp h
    have hact : act (getFdnodeByname env) env m.server (.accept fd node) = some s := hacc
    have heff := act_effect hs (getFdnodeByname_registered env) hact
    refine ⟨heff.sound hs, fun task hmem => heff.registered hs (hcur task hmem) ?_⟩
    rintro ⟨⟩
  | input fd ready stream => exact Machine.input_current hs hcur h
  | work => exact Machine.work_current hs hcur hspare h
  | heartbeat =>
    simp only [Machine.turn] at h
    obtain ⟨s, hbeat, rfl⟩ := Option.map_eq_some_iff.mp h
    refine heartbeatOver_current hs hcur (fun task hmem c hc => ?_) hbeat
    by_contra hidle
    rw [Bool.not_eq_false] at hidle
    have hrem : Removes (getFdnodeByname env) env m.server (.idle task.fd) task.client :=
      .idle task.fd task.client c (hcur task hmem) hc hidle
    exact hspare _ _ ⟨task.fd, rfl⟩ hrem task hmem rfl

/-- **No task outlives its client**, in the runs in which no turn removes a client that
another task waits for. -/
theorem current_of_runs (h : MachineRuns SparesWaiting m) : Current m.queue m.server := by
  refine (h.invariant (I := fun m => Sound m.server ∧ Current m.queue m.server) ?_ ?_).2
  · intro conf
    refine ⟨Sound.start conf, fun task hmem => ?_⟩
    cases hmem
  · rintro env m turn m' ⟨hs, hcur⟩ hspare hturn
    exact Machine.turn_current hs hcur hspare hturn

/-- A client asks for a sign of life and quits then. -/
def pingRun : List (Env × Turn) :=
  [(.delivering 0 pingPacket, .accept 5 100),
    (.delivering 0 pingPacket, .input 5 [(.bytes 4, .bytes 15), (.bytes 4, .bytes 15)]
      (Framing.frames 4 [pingPacket.data, quitPacket.data]))]

theorem not_removes_ping {k : Nat} :
    ¬ Removes lookup (.delivering 0 pingPacket) s (.task k 4 pingPacket.data) q := by
  have hping : ∀ p, Task.decode (.delivering 0 pingPacket) ⟨k, p, 4, pingPacket.data⟩ = .ping :=
    fun _ => rfl
  intro h
  cases h with
  | logout _ _ _ _ hfd hdecode =>
    rw [hping] at hdecode
    cases hdecode
  | goout _ _ _ p _ c e username hfd hp hdecode =>
    rw [hping] at hdecode
    cases hdecode

/-- The sign of life is answered while the quit waits. -/
theorem current_of_runs_ping : ∃ m, (Machine.start fun _ => lobbyConf).turns
      (pingRun ++ [(.delivering 0 pingPacket, .work)]) = some m ∧
    m.queue.map Task.data = [quitPacket.data] ∧ Current m.queue m.server := by
  have hcheck : ((Machine.start fun _ => lobbyConf).turns
      (pingRun ++ [(.delivering 0 pingPacket, .work)])).any (fun m =>
        m.queue.map Task.data = [quitPacket.data]) := by
    decide +kernel
  have hhead : ((Machine.start fun _ => lobbyConf).turns pingRun).all (fun m =>
      m.queue.head?.map (fun task : Task => (task.recvBits, task.data)) =
        some (4, pingPacket.data)) := by
    decide +kernel
  obtain ⟨m, hrun, hm⟩ := (Option.any_eq_true _ _).mp hcheck
  refine ⟨m, hrun, of_decide_eq_true hm, current_of_runs (machineRuns_of_turns ?_ hrun)⟩
  refine ⟨?_, fun m₁ h₁ => ⟨?_, fun m₂ h₂ => ⟨?_, fun _ _ => trivial⟩⟩⟩
  · rintro a q ⟨⟩
  · rintro a q ⟨⟩
  · rintro a q ⟨task, rest, hqueue, rfl⟩ hrem
    have hturns : (Machine.start fun _ => lobbyConf).turns pingRun = some m₂ := by
      simp only [pingRun, Machine.turns, h₁, Option.bind_some, h₂]
    rw [hturns, Option.all_some, hqueue] at hhead
    have hhead := of_decide_eq_true hhead
    simp only [List.head?_cons, Option.map_some, Option.some.injEq, Prod.mk.injEq] at hhead
    rw [hhead.1, hhead.2] at hrem
    exact absurd hrem not_removes_ping

/-- A client quits, and a task behind its last one is left. -/
theorem current_not_kept : ¬ ∀ m, MachineRuns (fun _ _ _ => True) m →
    Current m.queue m.server := by
  intro hcur
  have hcheck : ((Machine.start fun _ => lobbyConf).turns
      [(.delivering 0 quitPacket, .accept 5 100),
        (.delivering 0 quitPacket, .input 5 [(.bytes 4, .bytes 15), (.bytes 4, .bytes 15)]
          (Framing.frames 4 [quitPacket.data, pingPacket.data])),
        (.delivering 0 quitPacket, .work)]).any (fun m =>
      m.queue.map (fun task : Task => (task.fd, task.client)) = [(5, 100)] ∧
        m.server.fdClients 5 = none) := by
    decide +kernel
  obtain ⟨m, hrun, hm⟩ := (Option.any_eq_true _ _).mp hcheck
  obtain ⟨hqueue, hfd⟩ := of_decide_eq_true hm
  obtain ⟨task, hmem, htask⟩ : ∃ task ∈ m.queue, (task.fd, task.client) = (5, 100) := by
    have hin : ((5, 100) : Nat × Addr) ∈
        m.queue.map (fun task : Task => (task.fd, task.client)) := by
      rw [hqueue]
      exact List.mem_singleton_self _
    obtain ⟨task, hmem, htask⟩ := List.mem_map.mp hin
    exact ⟨task, hmem, htask⟩
  have hstill := hcur m (machineRuns_of_turns ?_ hrun) task hmem
  · simp only [Prod.mk.injEq] at htask
    rw [htask.1, htask.2, hfd] at hstill
    cases hstill
  · exact ⟨trivial, fun _ _ => ⟨trivial, fun _ _ => ⟨trivial, fun _ _ => trivial⟩⟩⟩

end ArpgServer
