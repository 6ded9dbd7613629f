import ArpgServer.Model.Message
import Mathlib.Logic.Relation

/-!
# The running server (`MyleftServer.c`)

The start-up state, the connection of a client, its input events, the removal of an idle
client, and the runs in which all of these and the tasks are handled one at a time.
-/

namespace ArpgServer

open CText

/-- What the configuration says about a room. -/
structure RoomConf where
  enable : Int
  anonymous : Int
  visable : Int
  name : Option Bytes

def RoomConf.toRoom (conf : RoomConf) : Room :=
  { enable := conf.enable, anonymous := conf.anonymous, visable := conf.visable, num := 0
    name := conf.name, rClient := [] }

/-- Room 0, which `main` opens itself. -/
def lobbyConf : RoomConf :=
  { enable := 1, anonymous := 1, visable := 1, name := some (ofString "Myleft聊天大厅") }

/-- The tables after start-up, for the rooms the configuration lists. -/
def State.start (conf : Nat → RoomConf) : State where
  fdClients := fun _ => none
  heap := fun _ => none
  rooms := fun r => (if r = 0 then lobbyConf else conf r).toRoom
  hashSize := maxUsers
  hashTable := fun _ => []
  mytimestamp := 0
  sent := []

/-- The record `main` fills in for a new connection. -/
def newClient (fd : Nat) (mytimestamp : Int) : Client where
  fd := fd
  roomid := -1
  state := .wait
  type := clientTypeNone
  anonymous := 1
  keepalivetime := toInt32 mytimestamp
  username := CharArray.zero 64
  character := CharArray.zero 32
  doing := CharArray.zero 24
  direction := 0
  x := 1
  y := 1

/-- `accept` returns a closed descriptor and `malloc` memory that is not in use. -/
def acceptClient (fd : Nat) (node : Addr) (s : State) : Option State :=
  if fd < maxFds ∧ s.fdClients fd = none ∧ s.heap node = none then
    some { s with
      fdClients := Function.update s.fdClients fd (some node)
      heap := Function.update s.heap node (some (newClient fd s.mytimestamp)) }
  else none

theorem acceptClient_eq_some {fd : Nat} {node : Addr} {s s' : State}
    (h : acceptClient fd node s = some s') :
    (fd < maxFds ∧ s.fdClients fd = none ∧ s.heap node = none) ∧
      s' = { s with
        fdClients := Function.update s.fdClients fd (some node)
        heap := Function.update s.heap node (some (newClient fd s.mytimestamp)) } := by
  unfold acceptClient at h
  split at h
  · rename_i hfree
    exact ⟨hfree, (Option.some.inj h).symm⟩
  · cases h

theorem acceptClient_heap {fd : Nat} {node : Addr} {s s' : State}
    (h : acceptClient fd node s = some s') :
    s'.heap node = some (newClient fd s.mytimestamp) := by
  obtain ⟨-, rfl⟩ := acceptClient_eq_some h
  exact Function.update_self ..

/-- What `serv_epoll` notes for an input event of a registered client. -/
def noteInput (env : Env) (fd : Nat) (s : State) : Option State :=
  (s.fdClients fd).bind fun p =>
    (s.heap p).map fun c =>
      (s.tick env.now).setClient p { c with keepalivetime := toInt32 env.now }

/-- The test of `serv_heartbeat`. -/
def isIdle (now : Int) (c : Client) : Bool := 120 < now - c.keepalivetime

/-- The body of the loop of `serv_heartbeat` at index `i`. -/
def heartbeatAt (env : Env) (i : Nat) (s : State) : Option State :=
  let s := s.tick env.now
  match s.fdClients i with
  | none => some s
  | some p =>
    (s.heap p).bind fun c =>
      if isIdle env.now c then ((nodeDel env (some p)).run s).map Prod.snd else some s

/-- What can happen next when everything is handled one at a time. A task is handled for the
client that is registered at its descriptor. -/
inductive Action where
  | accept (fd : Nat) (node : Addr)
  | input (fd : Nat)
  | task (fd : Nat) (recvBits : Int) (data : Bytes)
  | idle (i : Nat)

def act (lookup : Lookup) (env : Env) (s : State) : Action → Option State
  | .accept fd node => acceptClient fd node s
  | .input fd => noteInput env fd s
  | .task fd recvBits data =>
    (s.fdClients fd).bind fun client =>
      ((parseMessage lookup env { fd, client, recvBits, data }).run s).map Prod.snd
  | .idle i => heartbeatAt env i s

/-- A condition on the steps of a run: on the lookup and the environment of the step, the
state before it and the action. -/
abbrev Condition := Lookup → Env → State → Action → Prop

/-- The name lookup is that of the server. -/
def byTable (cond : Env → State → Action → Prop) : Condition := fun lookup env s a =>
  lookup = getFdnodeByname env ∧ cond env s a

/-- A lookup that returns registered clients only. -/
def Lookup.Registered (lookup : Lookup) : Prop :=
  ∀ s uname ufd q, lookup s uname ufd = some (some q) → ∃ fd, s.fdClients fd = some q

/-- The name lookup returns `NULL` or any registered client. -/
def anyLookup : Condition := fun lookup _ _ _ => lookup.Registered

def Step (allowed : Condition) (s s' : State) : Prop :=
  ∃ lookup env a, allowed lookup env s a ∧ act lookup env s a = some s'

/-- The states of the runs all of whose steps meet a condition. -/
def Runs (allowed : Condition) (s : State) : Prop :=
  ∃ conf, Relation.ReflTransGen (Step allowed) (State.start conf) s

/-- The states the server can reach. -/
def Reachable : State → Prop := Runs (byTable fun _ _ _ => True)

/-- A run of given actions. -/
def actAll (s : State) : List (Env × Action) → Option State
  | [] => some s
  | (env, a) :: rest => (act (getFdnodeByname env) env s a).bind fun s' => actAll s' rest

/-- Every action of a given run meets a condition where it is taken. -/
def Allows (allowed : Condition) : State → List (Env × Action) → Prop
  | _, [] => True
  | s, (env, a) :: rest =>
    allowed (getFdnodeByname env) env s a ∧
      ∀ s', act (getFdnodeByname env) env s a = some s' → Allows allowed s' rest

theorem Allows.of_forall {allowed : Condition} {acts : List (Env × Action)}
    (h : ∀ x ∈ acts, ∀ s, allowed (getFdnodeByname x.1) x.1 s x.2) (s : State) :
    Allows allowed s acts := by
  induction acts generalizing s with
  | nil => trivial
  | cons x rest ih =>
    refine ⟨h x List.mem_cons_self s, fun s' _ => ih ?_ s'⟩
    exact fun y hy => h y (List.mem_cons_of_mem x hy)

theorem runs_of_actAll {allowed : Condition} {conf : Nat → RoomConf}
    {acts : List (Env × Action)} {s : State} (hall : Allows allowed (State.start conf) acts)
    (h : actAll (State.start conf) acts = some s) : Runs allowed s := by
  suffices hRun : ∀ t, Allows allowed t acts → actAll t acts = some s →
      Relation.ReflTransGen (Step allowed) t s from ⟨conf, hRun _ hall h⟩
  clear h hall
  induction acts with
  | nil =>
    intro t _ h
    cases h
    exact .refl
  | cons ea rest ih =>
    obtain ⟨env, a⟩ := ea
    intro t hall h
    obtain ⟨t', ht, hrest⟩ := Option.bind_eq_some_iff.mp h
    exact .head ⟨_, env, a, hall.1, ht⟩ (ih t' (hall.2 t' ht) hrest)

theorem actAll_append (s : State) (l r : List (Env × Action)) :
    actAll s (l ++ r) = (actAll s l).bind fun t => actAll t r := by
  induction l generalizing s with
  | nil => rfl
  | cons x l ih =>
    simp only [List.cons_append, actAll, ih, Option.bind_assoc]

/-- A given run each of whose actions is allowed in the state that those before it lead to. -/
theorem runs_of_takes {allowed : Condition} {conf : Nat → RoomConf} {acts : List (Env × Action)}
    {s : State} (hall : ∀ (i : Nat) (hi : i < acts.length) (t : State),
      actAll (State.start conf) (acts.take i) = some t → Runs allowed t →
        allowed (getFdnodeByname acts[i].1) acts[i].1 t acts[i].2)
    (h : actAll (State.start conf) acts = some s) : Runs allowed s := by
  suffices hRun : ∀ i t, i ≤ acts.length → actAll (State.start conf) (acts.take i) = some t →
      Runs allowed t from hRun acts.length s (Nat.le_refl _) (by rwa [List.take_length])
  intro i
  induction i with
  | zero =>
    intro t _ ht
    cases ht
    exact ⟨conf, .refl⟩
  | succ i ih =>
    intro t hi ht
    rw [List.take_succ_eq_append_getElem hi, actAll_append] at ht
    obtain ⟨u, hu, ht⟩ := Option.bind_eq_some_iff.mp ht
    obtain ⟨t', hact, hnil⟩ := Option.bind_eq_some_iff.mp ht
    cases hnil
    have hruns := ih u (by omega) hu
    have hok := hall i hi u hu hruns
    obtain ⟨conf', hsteps⟩ := hruns
    exact ⟨conf', hsteps.tail ⟨_, _, _, hok, hact⟩⟩

theorem reachable_of_actAll {conf : Nat → RoomConf} {acts : List (Env × Action)} {s : State}
    (h : actAll (State.start conf) acts = some s) : Reachable s :=
  runs_of_actAll (.of_forall (fun _ _ _ => ⟨rfl, trivial⟩) _) h

/-- An invariant of the start-up states that every allowed step keeps holds in every state
of the runs whose steps are allowed. -/
theorem Runs.invariant {allowed : Condition} {I : State → Prop}
    (hStart : ∀ conf, I (State.start conf))
    (hStep : ∀ lookup env s a s', I s → allowed lookup env s a → act lookup env s a = some s' →
      I s')
    {s : State} (h : Runs allowed s) : I s := by
  obtain ⟨conf, h⟩ := h
  induction h with
  | refl => exact hStart conf
  | tail _ hs ih =>
    obtain ⟨lookup, env, a, ha, hact⟩ := hs
    exact hStep lookup env _ a _ ih ha hact

theorem Runs.mono {allowed allowed' : Condition}
    (h : ∀ lookup env s a, allowed lookup env s a → allowed' lookup env s a) {s : State}
    (hs : Runs allowed s) : Runs allowed' s := by
  obtain ⟨conf, hs⟩ := hs
  refine ⟨conf, Relation.ReflTransGen.mono ?_ _ _ hs⟩
  rintro a b ⟨lookup, env, act', ha, hact⟩
  exact ⟨lookup, env, act', h _ _ _ _ ha, hact⟩

/-! ## Runs with notes -/

section
variable {ν : Type} {allowed : Condition} {note : Env → State → Action → State → ν → ν} {start : ν}

/-- A step of a run on which notes are taken. No step reads them. -/
def NotedStep (allowed : Condition) (note : Env → State → Action → State → ν → ν)
    (x y : State × ν) : Prop :=
  ∃ lookup env a, allowed lookup env x.1 a ∧ act lookup env x.1 a = some y.1 ∧
    y.2 = note env x.1 a y.1 x.2

def NotedRuns (allowed : Condition) (note : Env → State → Action → State → ν → ν) (start : ν)
    (s : State) (n : ν) : Prop :=
  ∃ conf, Relation.ReflTransGen (NotedStep allowed note) (State.start conf, start) (s, n)

/-- The notes of a run of given actions. -/
def noteAll (note : Env → State → Action → State → ν → ν) (s : State) (n : ν) :
    List (Env × Action) → ν
  | [] => n
  | (env, a) :: rest =>
    match act (getFdnodeByname env) env s a with
    | none => n
    | some s' => noteAll note s' (note env s a s' n) rest

theorem NotedRuns.invariant {I : State → ν → Prop} (hStart : ∀ conf, I (State.start conf) start)
    (hStep : ∀ lookup env s n a s', I s n → allowed lookup env s a →
      act lookup env s a = some s' → I s' (note env s a s' n))
    {s : State} {n : ν} (h : NotedRuns allowed note start s n) : I s n := by
  obtain ⟨conf, h⟩ := h
  suffices hall : ∀ x, Relation.ReflTransGen (NotedStep allowed note) (State.start conf, start) x →
      I x.1 x.2 from hall _ h
  intro x hx
  induction hx with
  | refl => exact hStart conf
  | @tail y z _ hstep ih =>
    obtain ⟨lookup, env, a, ha, hact, hnote⟩ := hstep
    rw [hnote]
    exact hStep lookup env y.1 y.2 a z.1 ih ha hact

/-- Taking notes changes nothing. -/
theorem NotedRuns.runs {s : State} {n : ν} (h : NotedRuns allowed note start s n) :
    Runs allowed s := by
  obtain ⟨conf, h⟩ := h
  exact ⟨conf, h.lift Prod.fst fun x y ⟨lookup, env, a, ha, hact, _⟩ => ⟨lookup, env, a, ha, hact⟩⟩

theorem notedRuns_of_actAll {conf : Nat → RoomConf} {acts : List (Env × Action)} {s : State}
    (hall : Allows allowed (State.start conf) acts)
    (h : actAll (State.start conf) acts = some s) :
    NotedRuns allowed note start s (noteAll note (State.start conf) start acts) := by
  suffices hRun : ∀ t n, Allows allowed t acts → actAll t acts = some s →
      Relation.ReflTransGen (NotedStep allowed note) (t, n) (s, noteAll note t n acts) from
    ⟨conf, hRun _ _ hall h⟩
  clear h hall
  induction acts with
  | nil =>
    intro t n _ h
    cases h
    exact .refl
  | cons ea rest ih =>
    obtain ⟨env, a⟩ := ea
    intro t n hall h
    obtain ⟨t', ht, hrest⟩ := Option.bind_eq_some_iff.mp h
    have htail := ih t' (note env t a t' n) (hall.2 t' ht) hrest
    simp only [noteAll, ht]
    exact .head ⟨_, env, a, hall.1, ht, rfl⟩ htail

end

theorem getFdnodeByname_registered (env : Env) : Lookup.Registered (getFdnodeByname env) := by
  intro s uname ufd q h
  obtain ⟨found, -, h⟩ := Option.bind_eq_some_iff.mp h
  obtain ⟨fd, -, h⟩ := Option.map_eq_some_iff.mp h
  obtain ⟨fd, -, hfd⟩ := Option.bind_eq_some_iff.mp h
  exact ⟨fd, hfd⟩

theorem Runs.toAnyLookup {cond : Env → State → Action → Prop} {s : State}
    (h : Runs (byTable cond) s) : Runs anyLookup s := by
  refine h.mono ?_
  rintro lookup env s a ⟨rfl, -⟩
  exact getFdnodeByname_registered env

/-! ## Given runs -/

def Event.ofList (attrs : List (Attr × Bytes)) : Event :=
  { attr := fun a => attrs.lookup a, body := none }

theorem Event.ofList_isText {attrs : List (Attr × Bytes)} (h : ∀ x ∈ attrs, 0 ∉ x.2) :
    (Event.ofList attrs).IsText := by
  refine ⟨fun k v hv => ?_, fun b hb => by cases hb⟩
  change attrs.lookup k = some v at hv
  obtain ⟨before, after, hattrs, -⟩ := List.lookup_eq_some_iff.mp hv
  apply h (k, v)
  rw [hattrs]
  simp

/-- A message as it is sent: the compressed text, the text and the event in it. -/
structure Packet where
  data : Bytes
  text : Bytes
  event : Event

/-- An environment without accounts that decodes one packet. -/
def Env.delivering (now : Int) (m : Packet) : Env where
  now := now
  uncompress := fun data => if data = m.data then some m.text else none
  ezxmlParseStr := fun text => if text = m.text then m.event else .ofList []
  ezxmlToxml := fun _ => []
  md5Digest := fun _ => Vector.replicate 16 0
  crypt := fun _ _ => none
  dbType := none
  dbGetPassword := fun _ => none
  accountLua := none
  userLua := none
  luaStringToNumber := fun _ => none
  stale := fun _ => none
  overrun := fun _ _ => none
  body := .null
  itembuffer := 0
  message := none

def quitPacket : Packet where
  data := [120, 156, 179, 41, 44, 205, 44, 209, 183, 3, 0, 10, 54, 2, 109]
  text := quitText
  event := .ofList []

def pingPacket : Packet where
  data := [120, 156, 179, 41, 200, 204, 75, 215, 183, 3, 0, 9, 225, 2, 88]
  text := pingText
  event := .ofList []

def guestLogin : Packet where
  data := [120, 156, 179, 73, 45, 75, 205, 43, 81, 40, 169, 44, 72, 181, 85, 55, 52, 80, 87, 72,
    204, 203, 207, 171, 204, 205, 47, 45, 6, 114, 213, 245, 237, 0, 180, 98, 10, 95]
  text := ofString "<event type='10' anonymous='1'/>"
  event := .ofList [(.type, ofString "10"), (.anonymous, ofString "1")]

/-- A new connection at descriptor `fd`. -/
def connect (fd : Nat) (node : Addr) : Env × Action := (.delivering 0 quitPacket, .accept fd node)

/-- The client at `fd` sends a packet at time `now`. -/
def deliver (now : Int) (fd : Nat) (m : Packet) : Env × Action :=
  (.delivering now m, .task fd 4 m.data)

/-- The connection at `fd` is lost. -/
def hangUp (fd : Nat) : Env × Action := (.delivering 0 quitPacket, .task fd 0 [])

end ArpgServer
