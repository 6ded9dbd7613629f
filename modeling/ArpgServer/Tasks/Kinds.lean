import ArpgServer.Tasks.Sends

/-!
# Kinds of sections

The sections that are executed for one client, by what they read and write of the tables, and
a small table of the kinds that may change places. Every section a frame executes is of one of
the kinds of the frame.
-/

namespace ArpgServer

open CText Proc

variable {env : Env} {p : Addr} {fd : Nat} {e : Event} {α β : Type}
  {f : State → Option (β × State)}

/-! ## Kinds of sections -/

/-- What a section does. A `speak` reads names and rooms, the next three write one part of the
client's own record that nothing but a user list shows, and `room` moves the client. -/
inductive Kind where
  | answer
  | clock (now : Int)
  | look
  | speak
  | place
  | doing
  | character
  | room
  | other
  deriving DecidableEq

namespace Kind

/-- Sections of these kinds may change places. -/
def apart : Kind → Kind → Bool
  | answer, _ | _, answer => true
  | other, _ | _, other => false
  | look, _ | _, look => true
  | clock now, clock now' => now = now'
  | clock _, _ | _, clock _ => true
  | room, _ | _, room => false
  | speak, _ | _, speak => true
  | place, κ => κ ≠ place
  | doing, κ => κ ≠ doing
  | character, κ => κ ≠ character

/-- Sections that leave names, rooms and rights as they are. -/
def isLight : Kind → Bool
  | answer | room | other => false
  | clock _ | look | speak | place | doing | character => true

theorem apart_cases {κ κ' : Kind} (h : κ.apart κ') :
    κ = answer ∨ κ' = answer ∨ (κ.isLight ∧ κ'.isLight) ∨ (κ = room ∧ κ' = look) ∨
      (κ = look ∧ κ' = room) ∨ (κ = room ∧ ∃ now, κ' = clock now) ∨
        ((∃ now, κ = clock now) ∧ κ' = room) := by
  cases κ <;> cases κ' <;> simp_all [apart, isLight]

end Kind

/-- A section that returns nothing. -/
def unit (F : State → Option State) (s : State) : Option (Unit × State) :=
  (F s).map fun s' => ((), s')

/-- A section that only reads. -/
def reading (F : State → Option β) (s : State) : Option (β × State) := (F s).map fun b => (b, s)

/-- The sections that are executed for the client at `p`, by their kinds. -/
inductive Section (fd : Nat) (p : Addr) : Kind → ∀ β : Type, (State → Option (β × State)) → Prop
  | reply (n : Notice) : Section fd p .answer Unit (unit fun s => some (s.sendMessage fd n))
  | script (env : Env) (str : Bytes) : Section fd p .answer Unit (unit (luaExec env fd str))
  | time (now : Int) : Section fd p (.clock now) Unit (unit fun s => some (s.tick now))
  | state : Section fd p .look FdState (reading fun s => (s.heap p).map Client.state)
  | changeState (env : Env) (e : Event) :
      Section fd p .speak Unit (unit (changeStateSection env p fd e))
  | privateMessage (env : Env) (e : Event) (body : LocalPtr) : Section fd p .speak Unit
      (unit (privateMessageSection (getFdnodeByname env) env p fd e body))
  | publicMessage (env : Env) (body : LocalPtr) :
      Section fd p .speak Unit (unit (publicMessageSection env p fd body))
  | roomlist (env : Env) : Section fd p .speak Unit (unit (sendRoomlist env p))
  | move (env : Env) (e : Event) : Section fd p .place Unit (unit (moveSection env p e))
  | doing (env : Env) (e : Event) : Section fd p .doing Unit (unit (doingSection env p e))
  | changeCharacter (env : Env) (e : Event) :
      Section fd p .character Unit (unit (changeCharacterSection env p fd e))
  | roomid : Section fd p .room Int (reading fun s => (s.heap p).map Client.roomid)
  | joinCheck (roomid : Int) : Section fd p .room JoinStart (joinCheck p roomid)
  | leave (env : Env) (roomid : Int) :
      Section fd p .room Unit (unit (leaveSection env p roomid))
  | join (env : Env) (roomid : Int) : Section fd p .room Unit (unit (joinSection env p roomid))
  | other (β : Type) (f : State → Option (β × State)) (hf : Local State.tables f) :
      Section fd p .other β f

variable {κ κ' : Kind}

theorem Section.isLocal (h : Section fd p κ β f) : Local State.tables f := by
  cases h with
  | reply n => exact (Mute.modify (.pure fun _ _ => rfl)).1
  | script env str => exact (luaExec_mute env fd str).modify.1
  | time now => exact (Mute.modify (.pure fun _ _ => rfl)).1
  | state => exact (Mute.read fun _ _ => rfl).1
  | changeState env e => exact (changeStateSection_mute env p fd e).modify.1
  | privateMessage env e body => exact (privateMessageSection_mute env p fd e body).modify.1
  | publicMessage env body => exact (publicMessageSection_mute env p fd body).modify.1
  | roomlist env => exact (sendRoomlist_mute env p).modify.1
  | move env e => exact (moveSection_mute env p e).modify.1
  | doing env e => exact (doingSection_mute env p e).modify.1
  | changeCharacter env e => exact (changeCharacterSection_mute env p fd e).modify.1
  | roomid => exact (Mute.read fun _ _ => rfl).1
  | joinCheck roomid => exact (joinCheck_mute p roomid).isLocal.1
  | leave env roomid => exact (leaveSection_mute env p roomid).modify.1
  | join env roomid => exact (joinSection_mute env p roomid).modify.1
  | other β f hf => exact hf

/-! ## Kinds of frames -/

/-- The section is of one of the kinds. -/
def OfKind (fd : Nat) (p : Addr) (K : Kind → Prop) (β : Type) (f : State → Option (β × State)) :
    Prop := ∃ κ, K κ ∧ Section fd p κ β f

theorem Section.ofKind {K : Kind → Prop} (h : Section fd p κ β f) (hκ : K κ) :
    OfKind fd p K β f := ⟨κ, hκ, h⟩

/-- Sections of which nothing else is known. -/
theorem all_other {K : Kind → Prop} {job : Proc State α} (hjob : job.IsLocal State.tables)
    (hK : K .other) : job.All (OfKind fd p K) :=
  All.mono (fun β f hf => ⟨.other, hK, .other β f hf⟩) hjob

/-- The kind of the handler of an event. -/
def kindOf (evType : Int) : Kind :=
  if evType ∈ [evTypeAuth, evTypeAdminCommandGoout, evTypeAdminCommandShutup] then .other
  else if evType ∈ [evTypeChangeRoom, evTypeLeaveRoom] then .room
  else if evType ∈ [evTypeUserChangeState, evTypePrivateMessage, evTypePublicMessage,
      evTypeGetRoomList] then .speak
  else if evType = evTypeChangeCharacter then .character
  else if evType = evTypeMove then .place
  else if evType = evTypeDoing then .doing
  else .answer

/-- An event that does not fit the client's state is answered by the script. -/
def Event.kinds (e : Event) (now : Int) : List Kind :=
  match e.evType with
  | none => []
  | some evType => [.clock now, .look, .answer, kindOf evType]

variable {K : Kind → Prop}

theorem leaveRoom_all (env : Env) (hroom : K .room) :
    (leaveRoom env (some p)).All (OfKind fd p K) := by
  refine .bind (.step (Section.roomid.ofKind hroom)) fun roomid => .ite (.ret _) ?_
  exact .bind (.step ((Section.leave env roomid).ofKind hroom)) fun _ => .ret _

theorem joinRoom_all (env : Env) (roomid : Int) (hroom : K .room) :
    (joinRoom env (some p) roomid).All (OfKind fd p K) := by
  have hjoin : OfKind fd p K Unit (unit (joinSection env p roomid)) :=
    ⟨.room, hroom, .join env roomid⟩
  refine .bind (.step ((Section.joinCheck roomid).ofKind hroom)) fun start => ?_
  cases start with
  | refused => exact .ret _
  | leaveFirst =>
    exact .bind (leaveRoom_all env hroom) fun _ => .bind (.step hjoin) fun _ => .ret _
  | enter => exact .bind (.step hjoin) fun _ => .ret _

/-- Every branch of `parse_message`, taken for a client with some state. -/
theorem HandledBy.all {evType : Int} {c : Client} {job : Proc State Unit}
    (h : HandledBy (getFdnodeByname env) env p fd e evType c job) (hanswer : K .answer)
    (hkind : K (kindOf evType)) : job.All (OfKind fd p K) := by
  cases h with
  | auth ht =>
    subst ht
    exact all_other (authEvent_local env p fd e c.state) hkind
  | changeState ht hc =>
    subst ht
    exact .step ((Section.changeState env e).ofKind hkind)
  | changeCharacter ht hc =>
    subst ht
    exact .step ((Section.changeCharacter env e).ofKind hkind)
  | privateMessage ht hc htarget hbody =>
    subst ht
    exact .step ((Section.privateMessage env e _).ofKind hkind)
  | publicMessage ht hc hbody =>
    subst ht
    exact .step ((Section.publicMessage env _).ofKind hkind)
  | changeRoom ht hc =>
    subst ht
    refine .bind (.step (Section.roomid.ofKind hkind)) fun current => .ite ?_ (.ret _)
    exact .bind (joinRoom_all env e.roomid hkind) fun _ => .ret _
  | roomList ht hc =>
    subst ht
    exact .step ((Section.roomlist env).ofKind hkind)
  | leaveRoom ht hc =>
    subst ht
    exact .bind (leaveRoom_all env hkind) fun _ => .ret _
  | goout ht hc =>
    subst ht
    exact all_other (gooutEvent_local env p fd e) hkind
  | shutup ht hc =>
    subst ht
    exact all_other (shutupSection_mute env p fd e).modify hkind
  | move ht hc =>
    subst ht
    exact .step ((Section.move env e).ofKind hkind)
  | doing ht hc =>
    subst ht
    exact .step ((Section.doing env e).ofKind hkind)
  | nothing hc hauth hcharacter hdoing => exact .ret _
  | script hc hauth => exact .step ((Section.script env _).ofKind hanswer)

theorem handleEvent_all (env : Env) (p : Addr) (fd : Nat) (e : Event) (evType : Int)
    (state : FdState) (hanswer : K .answer) (hkind : K (kindOf evType)) :
    (handleEvent (getFdnodeByname env) env p fd e evType state).All (OfKind fd p K) :=
  (handleEvent_handledBy _ env p fd e evType { newClient fd 0 with state := state }).all hanswer
    hkind

end ArpgServer
