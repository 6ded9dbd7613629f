import ArpgServer.Effects.Login
import ArpgServer.Effects.Messages

/-!
# What a step does

The chain of handlers brings an event to the effect of one handler. From the effects of all
actions follow the two facts every run needs: the room invariant holds in it, and all that
happens besides logins, removals and new connections is a sequence of `QuietStep`s, which
leave descriptors, names, session states and the name table alone.
-/

namespace ArpgServer

open CText

variable {lookup : Lookup} {env : Env} {s s' : State} {p q : Addr} {c d : Client} {fd : Nat}
  {e : Event}

/-! ## Decoding -/

/-- What `parse_message` finds in a task. -/
inductive Decoded where
  | logout | undecodable | ping
  | event (e : Event)

def Task.decode (env : Env) (t : Task) : Decoded :=
  if 0 < t.recvBits then
    match env.uncompress t.data with
    | none => .undecodable
    | some text =>
      if text.takeWhile (· ≠ 0) = quitText then .logout
      else if text.takeWhile (· ≠ 0) = pingText then .ping
      else .event (env.ezxmlParseStr text)
  else .logout

theorem decode_packet {m : Packet} (hquit : m.text.takeWhile (· ≠ 0) ≠ quitText)
    (hping : m.text.takeWhile (· ≠ 0) ≠ pingText) (now : Int) (fd : Nat) (p : Addr) :
    Task.decode (.delivering now m) ⟨fd, p, 4, m.data⟩ = .event m.event := by
  simp only [Task.decode, Env.delivering, Int.reduceLT, if_true, if_neg hquit, if_neg hping]

theorem guestLogin_decode (now : Int) (fd : Nat) (p : Addr) :
    Task.decode (.delivering now guestLogin) ⟨fd, p, 4, guestLogin.data⟩ =
      .event guestLogin.event :=
  decode_packet (by decide +kernel) (by decide +kernel) now fd p

/-- The number in the attribute `type`. -/
def Event.evType (e : Event) : Option Int := (e.attr .type).map atoi

theorem parseMessage_decode (t : Task) :
    parseMessage lookup env t =
      match t.decode env with
      | .logout => do
        let _ ← nodeDel env (some t.client)
        return ()
      | .undecodable => .ret ()
      | .ping => Proc.modify fun s => some (s.sendMessage t.fd .pong)
      | .event e => parseEvent lookup env t.client t.fd e := by
  unfold parseMessage Task.decode
  by_cases hrecv : 0 < t.recvBits
  · rw [if_pos hrecv, if_pos hrecv]
    cases env.uncompress t.data with
    | none => rfl
    | some text =>
      dsimp only
      split
      · rfl
      · split <;> rfl
  · rw [if_neg hrecv, if_neg hrecv]

/-! ## The chain of handlers -/

inductive EventEffect (lookup : Lookup) (env : Env) (fd : Nat) (e : Event) (p : Addr)
    (c : Client) (s s' : State) : Prop where
  | nothing (h : s' = s)
  | auth (ht : e.evType = some evTypeAuth) (h : AuthEffect lookup env fd e p c s s')
  | talk (hc : c.state = .success) (h : TalkEffect p c s s')
  | changeRoom (hc : c.state = .success) (h : JoinEffect env p c e.roomid s s')
  | leaveRoom (hc : c.state = .success)
      (h : ∃ l, LogoutSends env s p c l ∧ s' = (s.vacate p c).post l)
  | goout (hc : c.state = .success) (ht : e.evType = some evTypeAdminCommandGoout)
      (h : CommandEffect lookup env p c fd e s s' (GooutEffect env s s'))
  | shutup (hc : c.state = .success) (ht : e.evType = some evTypeAdminCommandShutup)
      (h : CommandEffect lookup env p c fd e s s' (ShutupEffect s s'))
  | script (hc : c.state ≠ .success)
      (h : ∃ l, s' = s.post l ∧ ∀ m ∈ l, m.fd = fd ∧ ∃ text, m.message = [.script text])

/-- The branches of `parse_message`, each with what has been found when it is taken. -/
inductive HandledBy (lookup : Lookup) (env : Env) (p : Addr) (fd : Nat) (e : Event) (evType : Int)
    (c : Client) : Proc State Unit → Prop where
  | auth (ht : evType = evTypeAuth) :
      HandledBy lookup env p fd e evType c (authEvent lookup env p fd e c.state)
  | changeState (ht : evType = evTypeUserChangeState) (hc : c.state = .success) :
      HandledBy lookup env p fd e evType c (Proc.modify (changeStateSection env p fd e))
  | changeCharacter (ht : evType = evTypeChangeCharacter) (hc : c.state = .success) :
      HandledBy lookup env p fd e evType c (Proc.modify (changeCharacterSection env p fd e))
  | privateMessage (ht : evType = evTypePrivateMessage) (hc : c.state = .success)
      (htarget : (e.attr .target).isSome) (hbody : (e.localBody env).isNull = false) :
      HandledBy lookup env p fd e evType c
        (Proc.modify (privateMessageSection lookup env p fd e (e.localBody env)))
  | publicMessage (ht : evType = evTypePublicMessage) (hc : c.state = .success)
      (hbody : (e.localBody env).isNull = false) :
      HandledBy lookup env p fd e evType c
        (Proc.modify (publicMessageSection env p fd (e.localBody env)))
  | changeRoom (ht : evType = evTypeChangeRoom) (hc : c.state = .success) :
      HandledBy lookup env p fd e evType c (changeRoomEvent env p e.roomid)
  | roomList (ht : evType = evTypeGetRoomList) (hc : c.state = .success) :
      HandledBy lookup env p fd e evType c (Proc.modify (sendRoomlist env p))
  | leaveRoom (ht : evType = evTypeLeaveRoom) (hc : c.state = .success) :
      HandledBy lookup env p fd e evType c (leaveRoomEvent env p)
  | goout (ht : evType = evTypeAdminCommandGoout) (hc : c.state = .success) :
      HandledBy lookup env p fd e evType c (gooutEvent lookup env p fd e)
  | shutup (ht : evType = evTypeAdminCommandShutup) (hc : c.state = .success) :
      HandledBy lookup env p fd e evType c (Proc.modify (shutupSection lookup env p fd e))
  | move (ht : evType = evTypeMove) (hc : c.state = .success) :
      HandledBy lookup env p fd e evType c (Proc.modify (moveSection env p e))
  | doing (ht : evType = evTypeDoing) (hc : c.state = .success) :
      HandledBy lookup env p fd e evType c (Proc.modify (doingSection env p e))
  | nothing (hc : c.state = .success) (hauth : evType ≠ evTypeAuth)
      (hcharacter : evType ≠ evTypeChangeCharacter) (hdoing : evType ≠ evTypeDoing) :
      HandledBy lookup env p fd e evType c (.ret ())
  | script (hc : c.state ≠ .success) (hauth : evType ≠ evTypeAuth) :
      HandledBy lookup env p fd e evType c (Proc.modify (luaExec env fd (env.ezxmlToxml e)))

theorem handleEvent_handledBy (lookup : Lookup) (env : Env) (p : Addr) (fd : Nat) (e : Event)
    (evType : Int) (c : Client) :
    HandledBy lookup env p fd e evType c (handleEvent lookup env p fd e evType c.state) := by
  unfold handleEvent
  by_cases hAuth : evType = evTypeAuth
  · rw [if_pos hAuth]
    exact .auth hAuth
  rw [if_neg hAuth]
  by_cases hState : evType = evTypeUserChangeState ∧ c.state = .success
  · rw [if_pos hState]
    exact .changeState hState.1 hState.2
  rw [if_neg hState]
  by_cases hChar : evType = evTypeChangeCharacter ∧ c.state = .success
  · rw [if_pos hChar]
    exact .changeCharacter hChar.1 hChar.2
  rw [if_neg hChar]
  by_cases hPrivate : evType = evTypePrivateMessage ∧ c.state = .success ∧
      (e.attr .target).isSome ∧ (e.localBody env).isNull = false
  · rw [if_pos hPrivate]
    exact .privateMessage hPrivate.1 hPrivate.2.1 hPrivate.2.2.1 hPrivate.2.2.2
  rw [if_neg hPrivate]
  by_cases hPublic : evType = evTypePublicMessage ∧ c.state = .success ∧
      (e.localBody env).isNull = false
  · rw [if_pos hPublic]
    exact .publicMessage hPublic.1 hPublic.2.1 hPublic.2.2
  rw [if_neg hPublic]
  by_cases hRoom : evType = evTypeChangeRoom ∧ c.state = .success
  · rw [if_pos hRoom]
    exact .changeRoom hRoom.1 hRoom.2
  rw [if_neg hRoom]
  by_cases hList : evType = evTypeGetRoomList ∧ c.state = .success
  · rw [if_pos hList]
    exact .roomList hList.1 hList.2
  rw [if_neg hList]
  by_cases hLeave : evType = evTypeLeaveRoom ∧ c.state = .success
  · rw [if_pos hLeave]
    exact .leaveRoom hLeave.1 hLeave.2
  rw [if_neg hLeave]
  by_cases hGoout : evType = evTypeAdminCommandGoout ∧ c.state = .success
  · rw [if_pos hGoout]
    exact .goout hGoout.1 hGoout.2
  rw [if_neg hGoout]
  by_cases hc : c.state = .success
  · rw [if_pos hc]
    by_cases hShutup : evType = evTypeAdminCommandShutup
    · rw [if_pos hShutup]
      exact .shutup hShutup hc
    rw [if_neg hShutup]
    by_cases hMove : evType = evTypeMove
    · rw [if_pos hMove]
      exact .move hMove hc
    rw [if_neg hMove]
    by_cases hDoing : evType = evTypeDoing
    · rw [if_pos hDoing]
      exact .doing hDoing hc
    rw [if_neg hDoing]
    exact .nothing hc hAuth (fun h => hChar ⟨h, hc⟩) hDoing
  · rw [if_neg hc]
    exact .script hc hAuth

theorem handleEvent_effect (hs : Sound s) (hl : lookup.Registered) (hp : s.heap p = some c)
    {evType : Int} (ht : e.evType = some evType)
    (h : (handleEvent lookup env p fd e evType c.state).run s = some ((), s')) :
    EventEffect lookup env fd e p c s s' := by
  have hjob := handleEvent_handledBy lookup env p fd e evType c
  generalize handleEvent lookup env p fd e evType c.state = job at h hjob
  cases hjob with
  | auth hAuth => exact .auth (hAuth ▸ ht) (authEvent_effect hs hl hp h)
  | changeState _ hc =>
    exact .talk hc (changeStateSection_effect hp (Proc.run_modify_eq_some.mp h))
  | changeCharacter _ hc =>
    exact .talk hc (changeCharacterSection_effect hp (Proc.run_modify_eq_some.mp h))
  | privateMessage _ hc =>
    exact .talk hc (privateMessageSection_effect hp (Proc.run_modify_eq_some.mp h))
  | publicMessage _ hc =>
    exact .talk hc (publicMessageSection_effect hp (Proc.run_modify_eq_some.mp h))
  | changeRoom _ hc =>
    rcases changeRoomEvent_effect hs hp hc h with rfl | h
    · exact .nothing rfl
    · exact .changeRoom hc h
  | roomList _ hc => exact .talk hc (sendRoomlist_effect hp (Proc.run_modify_eq_some.mp h))
  | leaveRoom _ hc => exact .leaveRoom hc (leaveRoomEvent_effect hs hp h)
  | goout hGoout hc => exact .goout hc (hGoout ▸ ht) (gooutEvent_effect hs hp h)
  | shutup hShutup hc =>
    exact .shutup hc (hShutup ▸ ht) (shutupSection_effect hp (Proc.run_modify_eq_some.mp h))
  | move _ hc => exact .talk hc (moveSection_effect hp (Proc.run_modify_eq_some.mp h))
  | doing _ hc => exact .talk hc (doingSection_effect hp (Proc.run_modify_eq_some.mp h))
  | nothing =>
    cases h
    exact .nothing rfl
  | script hc => exact .script hc (luaExec_effect (Proc.run_modify_eq_some.mp h))

/-- The clock is read and the branches are tried. -/
theorem parseEvent_run (hp : s.heap p = some c) {evType : Int} (ht : e.evType = some evType) :
    (parseEvent lookup env p fd e).run s =
      (handleEvent lookup env p fd e evType c.state).run (s.tick env.now) := by
  obtain ⟨type, htype, rfl⟩ := Option.map_eq_some_iff.mp ht
  have hp' : (s.tick env.now).heap p = some c := hp
  unfold parseEvent
  rw [htype]
  simp only [Proc.run_bind, Proc.run_modify, Proc.run_read, hp', Option.map_some,
    Option.bind_some]

theorem parseEvent_handle (hp : s.heap p = some c) {evType : Int} (ht : e.evType = some evType)
    (h : (parseEvent lookup env p fd e).run s = some ((), s')) :
    (handleEvent lookup env p fd e evType c.state).run (s.tick env.now) = some ((), s') := by
  rwa [parseEvent_run hp ht] at h

theorem parseEvent_effect (hs : Sound s) (hl : lookup.Registered) (hp : s.heap p = some c)
    (h : (parseEvent lookup env p fd e).run s = some ((), s')) :
    s' = s ∨ EventEffect lookup env fd e p c (s.tick env.now) s' := by
  cases ht : e.evType with
  | none =>
    have htype : e.attr .type = none := Option.map_eq_none_iff.mp ht
    unfold parseEvent at h
    rw [htype] at h
    cases h
    exact Or.inl rfl
  | some evType =>
    exact Or.inr (handleEvent_effect (hs.tick env.now) hl hp ht (parseEvent_handle hp ht h))

theorem parseEvent_auth (hp : s.heap p = some c) (ht : e.evType = some evTypeAuth)
    (h : (parseEvent lookup env p fd e).run s = some ((), s')) :
    (authEvent lookup env p fd e c.state).run (s.tick env.now) = some ((), s') := by
  have h := parseEvent_handle hp ht h
  unfold handleEvent at h
  rwa [if_pos rfl] at h

end ArpgServer
