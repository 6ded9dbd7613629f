import ArpgServer.Model.Server

/-!
# The clock

The threads share `mytimestamp`, and each sets it to the time of day at moments of its own:
`serv_epoll` for every event, `parse_message` for every message, `sleep_thread` before it
sleeps and `serv_heartbeat` when it wakes. Between any two of these steps any time can pass.
`main` reads `mytimestamp` when it accepts a client and does not set it. No lock keeps the other
threads away between the steps of `serv_heartbeat` and of the `node_del` it calls.
-/

namespace ArpgServer

open CText

def Env.atTime (env : Env) (now : Int) : Env := { env with now := now }

/-! ## The heartbeat -/

/-- Where `serv_heartbeat` is. In its loop it reads `fd_clients[i]` three times; the last four
places are those of `node_del`. -/
inductive Heart where
  | asleep
  | look (i : Nat)
  | test (i : Nat)
  | fetch (i : Nat)
  | leave (i : Nat) (node : Addr)
  | quit (i : Nat) (node : Addr) (roomid : Int)
  | unregister (i : Nat) (node : Addr)
  | free (i : Nat) (node : Addr)
  deriving DecidableEq

namespace Heart

/-- The index of the loop. -/
def index : Heart → Option Nat
  | asleep => none
  | look i | test i | fetch i | leave i _ | quit i _ _ | unregister i _ | free i _ => some i

/-- The index and the client that `node_del` has been given. -/
def removing : Heart → Option (Nat × Addr)
  | asleep | look _ | test _ | fetch _ => none
  | leave i node | quit i node _ | unregister i node | free i node => some (i, node)

/-- What `node_del` takes for the room of its client. -/
def Expects : Heart → Int → Prop
  | quit _ _ roomid, current => current = roomid
  | unregister _ _, current | free _ _, current => current = -1
  | _, _ => True

instance (heart : Heart) (current : Int) : Decidable (heart.Expects current) :=
  match heart with
  | quit _ _ roomid => inferInstanceAs (Decidable (current = roomid))
  | unregister _ _ | free _ _ => inferInstanceAs (Decidable (current = -1))
  | asleep | look _ | test _ | fetch _ | leave _ _ => inferInstanceAs (Decidable True)

/-- The next step of `serv_heartbeat`, which does not end in the middle of the loop. -/
def beat (env : Env) (s : State) : Heart → Option (State × Heart)
  | asleep => none
  | look i =>
    if i < maxFds then some (s, if s.fdClients i = none then look (i + 1) else test i) else none
  | test i =>
    (s.fdClients i).bind fun p =>
      (s.heap p).map fun c =>
        (s, if isIdle s.mytimestamp c then fetch i else look (i + 1))
  | fetch i =>
    match s.fdClients i with
    | none => some (s, look (i + 1))
    | some node => some (s, leave i node)
  | leave i node =>
    (s.heap node).map fun c =>
      if (maxRooms : Int) < c.roomid ∨ c.roomid < 0 then (s, unregister i node)
      else (s, quit i node c.roomid)
  | quit i node roomid => (leaveSection env node roomid s).map fun t => (t, unregister i node)
  | unregister i node => (unregisterSection env node s).map fun t => (t, free i node)
  | free i node => (freeSection node s).map fun t => (t, look (i + 1))

end Heart

/-! ## The server in time -/

/-- Where `serv_epoll` is with an event: it has read the time, or found the client. -/
inductive Noting where
  | waiting
  | begun (fd : Nat)
  | found (client : Addr)
  deriving DecidableEq

/-- The server with the time of day and the places of two threads. -/
structure Timed where
  server : State
  clock : Int
  heart : Heart
  noting : Noting

inductive Moment where
  /-- Time passes. -/
  | wait (seconds : Nat)
  | accept (fd : Nat) (node : Addr)
  /-- `serv_epoll` goes on to the next event: it reads the time. -/
  | event (fd : Nat)
  /-- `serv_epoll` looks for the client of its event. -/
  | find
  /-- `serv_epoll` notes the time for the client of its event. -/
  | note
  | task (fd : Nat) (recvBits : Int) (data : Bytes)
  /-- `serv_heartbeat` enters `sleep_thread` after its loop. -/
  | sleep
  /-- `serv_heartbeat` reads the time after its sleep. -/
  | wake
  /-- The next step of the loop of `serv_heartbeat`. -/
  | beat

namespace Timed

/-- What the server does with the time read from the clock. -/
def serve (env : Env) (w : Timed) (a : Action) : Option Timed :=
  (act (getFdnodeByname (env.atTime w.clock)) (env.atTime w.clock) w.server a).map fun s =>
    { w with server := s }

/-- `mytimestamp` is what is compared and stored, whoever has set it last. An event of a
descriptor without a client is dropped. -/
def turn (env : Env) (w : Timed) : Moment → Option Timed
  | .wait seconds => some { w with clock := w.clock + seconds }
  | .accept fd node => w.serve env (.accept fd node)
  | .event fd =>
    match w.noting with
    | .waiting => some { w with server := w.server.tick w.clock, noting := .begun fd }
    | _ => none
  | .find =>
    match w.noting with
    | .begun fd =>
      match w.server.fdClients fd with
      | none => some { w with noting := .waiting }
      | some client => some { w with noting := .found client }
    | _ => none
  | .note =>
    match w.noting with
    | .found client =>
      (w.server.heap client).map fun c =>
        { w with
          server := w.server.setClient client
            { c with keepalivetime := toInt32 w.server.mytimestamp }
          noting := .waiting }
    | _ => none
  | .task fd recvBits data => w.serve env (.task fd recvBits data)
  | .sleep =>
    match w.heart with
    | .look i =>
      if i < maxFds then none
      else some { w with server := w.server.tick w.clock, heart := .asleep }
    | _ => none
  | .wake =>
    match w.heart with
    | .asleep => some { w with server := w.server.tick w.clock, heart := .look 0 }
    | _ => none
  | .beat => (w.heart.beat env w.server).map fun r => { w with server := r.1, heart := r.2 }

/-- After start-up `serv_heartbeat` is about to sleep. -/
def start (conf : Nat → RoomConf) (clock : Int) : Timed where
  server := State.start conf
  clock := clock
  heart := .look maxFds
  noting := .waiting

end Timed

/-! ## What really happened -/

/-- When a connection was accepted and when the handling of its last input event began. -/
structure Activity where
  accepted : Int
  input : Option Int

/-- A removal by `serv_heartbeat`: its time and the activity of the client. -/
structure Removal where
  time : Int
  activity : Activity

/-- The activity of every client, the time at which the heartbeat last woke and its removals. -/
structure History where
  activity : Addr → Activity
  woken : Int
  removals : List Removal

def History.start : History where
  activity := fun _ => ⟨0, none⟩
  woken := 0
  removals := []

/-- The history with the activity of one client. -/
def History.set (h : History) (p : Addr) (activity : Activity) : History :=
  { h with activity := Function.update h.activity p activity }

theorem History.set_self (h : History) (p : Addr) (activity : Activity) :
    (h.set p activity).activity p = activity := Function.update_self ..

theorem History.set_of_ne (h : History) {p q : Addr} (activity : Activity) (hq : q ≠ p) :
    (h.set p activity).activity q = h.activity q := Function.update_of_ne hq ..

/-- What a moment adds to the history. A client is removed when its record is freed. -/
def Timed.record (w : Timed) (h : History) (a : Moment) : History :=
  match a with
  | .accept _ node => h.set node ⟨w.clock, none⟩
  | .event fd =>
    match w.server.fdClients fd with
    | none => h
    | some p => h.set p ⟨(h.activity p).accepted, some w.clock⟩
  | .wake => { h with woken := w.clock }
  | .beat =>
    match w.heart with
    | .free _ p => { h with removals := h.removals ++ [⟨w.clock, h.activity p⟩] }
    | _ => h
  | _ => h

/-- The runs all of whose moments meet a condition, with their history. -/
def TimedRuns (allowed : Timed → Moment → Prop) (w : Timed) (h : History) : Prop :=
  ∃ conf clock, 0 ≤ clock ∧ Relation.ReflTransGen
    (fun x y : Timed × History => ∃ env a, allowed x.1 a ∧ x.1.turn env a = some y.1 ∧
      y.2 = x.1.record x.2 a) (Timed.start conf clock, History.start) (w, h)

theorem TimedRuns.invariant {allowed : Timed → Moment → Prop} {I : Timed → History → Prop}
    {w : Timed} {h : History} (hrun : TimedRuns allowed w h)
    (hStart : ∀ conf clock, 0 ≤ clock → I (Timed.start conf clock) History.start)
    (hTurn : ∀ env w h a w', I w h → allowed w a → w.turn env a = some w' →
      I w' (w.record h a)) : I w h := by
  obtain ⟨conf, clock, hclock, hrun⟩ := hrun
  suffices hPair : ∀ y : Timed × History, Relation.ReflTransGen _ _ y → I y.1 y.2 from
    hPair (w, h) hrun
  intro y hy
  induction hy with
  | refl => exact hStart conf clock hclock
  | tail _ hstep ih =>
    obtain ⟨env, a, ha, hturn, hrecord⟩ := hstep
    rw [hrecord]
    exact hTurn env _ _ a _ ih ha hturn

/-! ## Given runs -/

/-- A run of given moments that are checked. -/
def Timed.turns (ok : Timed → Moment → Bool) (env : Env) :
    List Moment → Timed × History → Option (Timed × History)
  | [], x => some x
  | a :: rest, (w, h) =>
    if ok w a then
      (w.turn env a).bind fun w' => Timed.turns ok env rest (w', w.record h a)
    else none

theorem timedRuns_of_turns {allowed : Timed → Moment → Prop} {ok : Timed → Moment → Bool}
    {env : Env} {moments : List Moment} {conf : Nat → RoomConf} {clock : Int}
    {x : Timed × History} (hclock : 0 ≤ clock) (hok : ∀ w a, ok w a = true → allowed w a)
    (h : Timed.turns ok env moments (Timed.start conf clock, History.start) = some x) :
    TimedRuns allowed x.1 x.2 := by
  refine ⟨conf, clock, hclock, ?_⟩
  generalize (Timed.start conf clock, History.start) = y at h ⊢
  induction moments generalizing y with
  | nil =>
    cases h
    exact .refl
  | cons a rest ih =>
    obtain ⟨w, hist⟩ := y
    simp only [Timed.turns] at h
    split at h
    · rename_i ha
      obtain ⟨w', hturn, h⟩ := Option.bind_eq_some_iff.mp h
      exact .head ⟨env, a, hok w a ha, hturn, rfl⟩ (ih _ h)
    · cases h

end ArpgServer
