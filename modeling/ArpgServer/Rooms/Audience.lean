import ArpgServer.Messages.Supplied
import ArpgServer.Names.Delivery

/-!
# Who is told

What a client says, does and looks like is told to its room. `send_message_all` walks the list
of the room and passes over clients that are not authenticated. In every reachable state the
list and the room numbers in the records agree, so the audience is the clients with the number
of the sender.
-/

namespace ArpgServer

open CText

variable {env : Env} {s s' : State} {p : Addr} {c d : Client} {e : Event} {evType : Int}
  {n : Notice} {task : Task} {fd : Nat} {lookup : Lookup}

/-! ## The audience -/

/-- One event is sent, once to each client registered with the room number of `c`, and to no
other descriptor. A client in no room tells nobody. -/
def ToldOnce (s s' : State) (c : Client) (n : Notice) : Prop :=
  ∃ l, s'.sent = s.sent ++ l ∧ (∀ m ∈ l, m.message = [n]) ∧ (l.map Send.fd).Nodup ∧
    ∀ k, k ∈ l.map Send.fd ↔
      0 ≤ c.roomid ∧ ∃ q d, s.fdClients k = some q ∧ s.heap q = some d ∧ d.roomid = c.roomid

theorem map_fd_toEach (l : List Addr) : (s.toEach l n).map Send.fd = l.map s.fdOf := by
  rw [State.toEach, List.map_map]
  rfl

theorem nodup_fdOf (hs : Sound s) (r : Nat) : ((s.rooms r).rClient.map s.fdOf).Nodup := by
  apply (hs.nodup r).map_on
  intro q hq q' hq' heq
  obtain ⟨d, hd, -⟩ := hs.member_success hq
  obtain ⟨d', hd', -⟩ := hs.member_success hq'
  rw [State.fdOf_eq hd, State.fdOf_eq hd'] at heq
  exact hs.eq_of_fd hd hd' heq

/-- The descriptors of a room's list are those of the clients with its number. -/
theorem mem_fdOf_iff (hs : Sound s) (r k : Nat) :
    k ∈ (s.rooms r).rClient.map s.fdOf ↔
      ∃ q d, s.fdClients k = some q ∧ s.heap q = some d ∧ d.roomid = r := by
  constructor
  · intro hk
    obtain ⟨q, hq, rfl⟩ := List.mem_map.mp hk
    obtain ⟨d, hd, hroom⟩ := (hs.member r q).mp hq
    rw [State.fdOf_eq hd]
    exact ⟨q, d, hs.current q d hd, hd, hroom⟩
  · intro ⟨q, d, hk, hd, hroom⟩
    obtain ⟨d', hd', hfd⟩ := hs.registered k q hk
    obtain rfl : d' = d := Option.some.inj (hd'.symm.trans hd)
    apply List.mem_map.mpr
    refine ⟨q, (hs.member r q).mpr ⟨d', hd, hroom⟩, ?_⟩
    rw [State.fdOf_eq hd, hfd]

theorem Sound.toldOnce (hs : Sound s) (hp : s.heap p = some c)
    (h : sendMessageAll s c.fd n = some s') : ToldOnce s s' c n := by
  obtain ⟨hlow, hhigh⟩ := hs.range p c hp
  by_cases hroom : 0 ≤ c.roomid
  · obtain ⟨r, hr⟩ := Int.eq_ofNat_of_zero_le hroom
    rw [hs.sendMessageAll_member hp hr] at h
    cases h
    refine ⟨s.toEach (s.rooms r).rClient n, rfl, ?_, ?_, ?_⟩
    · intro m hm
      obtain ⟨q, -, rfl⟩ := List.mem_map.mp hm
      rfl
    · rw [map_fd_toEach]
      exact nodup_fdOf hs r
    · intro k
      rw [map_fd_toEach, mem_fdOf_iff hs, hr]
      exact (and_iff_right (Int.natCast_nonneg r)).symm
  · have hnone : c.roomid = -1 := by omega
    rw [hs.sendMessageAll_outside hp hnone] at h
    cases h
    refine ⟨[], by rw [List.append_nil], by simp, List.nodup_nil, ?_⟩
    intro k
    exact iff_of_false List.not_mem_nil fun hk => hroom hk.1

/-- The sender's own record may change before, but not its descriptor and its room. -/
theorem ToldOnce.of_setClient (hp : s.heap p = some c) (hcore : c.SameCore d)
    (h : ToldOnce (s.setClient p d) s' d n) : ToldOnce s s' c n := by
  obtain ⟨l, hsent, hmessage, hnodup, hmem⟩ := h
  refine ⟨l, hsent, hmessage, hnodup, ?_⟩
  intro k
  rw [hmem, hcore.roomid]
  apply and_congr_right
  intro _
  constructor
  · intro ⟨q, x, hk, hx, hroom⟩
    rcases update_eq_some hx with ⟨rfl, rfl⟩ | ⟨-, hx⟩
    · exact ⟨q, c, hk, hp, rfl⟩
    · exact ⟨q, x, hk, hx, hroom⟩
  · intro ⟨q, x, hk, hx, hroom⟩
    by_cases hq : q = p
    · subst hq
      exact ⟨q, d, hk, Function.update_self .., hcore.roomid⟩
    · exact ⟨q, x, hk, (Function.update_of_ne hq ..).trans hx, hroom⟩

theorem Sound.toldOnce_setClient (hs : Sound s) (hp : s.heap p = some c) (hfd : c.fd = fd)
    (h : sendMessageAll (s.setClient p d) fd n = some s') (hcore : c.SameCore d) :
    ToldOnce s s' c n := by
  have hst : Sound (s.setClient p d) := by
    apply hs.setClient hp hcore.fd hcore.roomid
    intro hstate
    rw [hcore.state] at hstate
    exact hs.waiting p c hp hstate
  have hd : (s.setClient p d).heap p = some d := Function.update_self ..
  rw [← hfd, ← hcore.fd] at h
  exact (hst.toldOnce hd h).of_setClient hp hcore

/-! ## What is told -/

/-- The copy into `character` is as long as the array. -/
theorem character_size : 32 ≤ 32 := le_rfl

/-- The event the room of `c` is told when one of the five types is handled; `none` when there
is nothing to tell. -/
def Event.announcement (env : Env) (now : Int) (p : Addr) (c : Client) (e : Event)
    (evType : Int) : Option Notice :=
  (c.username.read (env.overrun p .username)).bind fun name =>
    if evType = evTypeUserChangeState then (e.attr .state).map fun _ => .changeState name 0
    else if evType = evTypeChangeCharacter then
      (e.attr .character).bind fun character =>
        ((c.character.strncpy character 32 character_size).read (env.overrun p .character)).map
          (.changeCharacter name)
    else if evType = evTypePublicMessage then
      (e.localBody env).deref.map (.publicMessage name now)
    else if evType = evTypeMove then
      (e.attr .x).bind fun x => (e.attr .y).map fun y =>
        .move name (setDirection c e).direction (atoi x) (atoi y)
    else if evType = evTypeDoing then (e.attr .doing).map (.doing name)
    else none

/-- An event that its handler accepts: a public message with a body from a client that is not
muted, a move with both coordinates, something done, or a change of the looks. -/
def Event.Accepted (env : Env) (c : Client) (e : Event) (evType : Int) : Prop :=
  evType = evTypePublicMessage ∧ c.type ≠ clientTypeShutup ∧ (e.localBody env).isNull = false ∨
    evType = evTypeMove ∧ (e.attr .x).isSome ∧ (e.attr .y).isSome ∨
    evType = evTypeDoing ∧ (e.attr .doing).isSome ∨
    evType = evTypeChangeCharacter ∨ evType = evTypeUserChangeState

/-- The handler's state is `s'`, and the room has been told of the event. -/
def Announces (env : Env) (s s' : State) (p : Addr) (c : Client) (e : Event) (evType : Int) :
    Prop :=
  ∃ n, e.announcement env s.mytimestamp p c evType = some n ∧ ToldOnce s s' c n

theorem changeStateSection_announces (hs : Sound s) (hp : s.heap p = some c) (hfd : c.fd = fd)
    (h : changeStateSection env p fd e s = some s') :
    Announces env s s' p c e evTypeUserChangeState := by
  obtain ⟨state, hstate, h⟩ := Option.bind_eq_some_iff.mp h
  obtain ⟨name, hname, h⟩ := Option.bind_eq_some_iff.mp h
  simp only [nameAt, hp] at hname
  rw [← State.setClient_self hp] at h
  refine ⟨.changeState name 0, ?_, hs.toldOnce_setClient hp hfd h (.refl c)⟩
  simp only [Event.announcement, hname, Option.bind_some, if_true, hstate, Option.map_some]

theorem changeCharacterSection_announces (hs : Sound s) (hp : s.heap p = some c)
    (hfd : c.fd = fd) (h : changeCharacterSection env p fd e s = some s') :
    Announces env s s' p c e evTypeChangeCharacter := by
  obtain ⟨character, hcharacter, h⟩ := Option.bind_eq_some_iff.mp h
  simp only [hp, Option.bind_some] at h
  obtain ⟨name, hname, h⟩ := Option.bind_eq_some_iff.mp h
  obtain ⟨text, htext, h⟩ := Option.bind_eq_some_iff.mp h
  refine ⟨.changeCharacter name text, ?_,
    hs.toldOnce_setClient hp hfd h ⟨rfl, rfl, rfl, rfl, rfl, rfl⟩⟩
  have htype : evTypeChangeCharacter ≠ evTypeUserChangeState := by decide
  simp only [Event.announcement, hname, Option.bind_some, if_neg htype, if_true, hcharacter,
    htext, Option.map_some]

theorem publicMessageSection_announces (hs : Sound s) (hp : s.heap p = some c) (hfd : c.fd = fd)
    (hmuted : c.type ≠ clientTypeShutup)
    (h : publicMessageSection env p fd (e.localBody env) s = some s') :
    Announces env s s' p c e evTypePublicMessage := by
  simp only [publicMessageSection, hp, Option.bind_some, if_neg hmuted] at h
  obtain ⟨name, hname, h⟩ := Option.bind_eq_some_iff.mp h
  obtain ⟨text, htext, h⟩ := Option.bind_eq_some_iff.mp h
  rw [← State.setClient_self hp] at h
  refine ⟨.publicMessage name s.mytimestamp text, ?_, hs.toldOnce_setClient hp hfd h (.refl c)⟩
  have hstate : evTypePublicMessage ≠ evTypeUserChangeState := by decide
  have hcharacter : evTypePublicMessage ≠ evTypeChangeCharacter := by decide
  simp only [Event.announcement, hname, Option.bind_some, if_neg hstate, if_neg hcharacter,
    if_true, htext, Option.map_some]

theorem moveSection_announces (hs : Sound s) (hp : s.heap p = some c)
    (hx : (e.attr .x).isSome) (hy : (e.attr .y).isSome) (h : moveSection env p e s = some s') :
    Announces env s s' p c e evTypeMove := by
  obtain ⟨x, hx⟩ := Option.isSome_iff_exists.mp hx
  obtain ⟨y, hy⟩ := Option.isSome_iff_exists.mp hy
  have hcore := setDirection_sameCore c e
  simp only [moveSection, hp, Option.bind_some, hx, hy] at h
  obtain ⟨name, hname, h⟩ := Option.bind_eq_some_iff.mp h
  rw [hcore.username] at hname
  refine ⟨.move name (setDirection c e).direction (atoi x) (atoi y), ?_,
    hs.toldOnce_setClient hp hcore.fd.symm h
      ⟨hcore.fd, hcore.roomid, hcore.state, hcore.type, hcore.anonymous, hcore.username⟩⟩
  have hstate : evTypeMove ≠ evTypeUserChangeState := by decide
  have hcharacter : evTypeMove ≠ evTypeChangeCharacter := by decide
  have hpublic : evTypeMove ≠ evTypePublicMessage := by decide
  simp only [Event.announcement, hname, Option.bind_some, if_neg hstate, if_neg hcharacter,
    if_neg hpublic, if_true, hx, hy, Option.map_some]

theorem doingSection_announces (hs : Sound s) (hp : s.heap p = some c)
    (hdoing : (e.attr .doing).isSome) (h : doingSection env p e s = some s') :
    Announces env s s' p c e evTypeDoing := by
  obtain ⟨doing, hdoing⟩ := Option.isSome_iff_exists.mp hdoing
  simp only [doingSection, hdoing, hp, Option.bind_some] at h
  obtain ⟨name, hname, h⟩ := Option.bind_eq_some_iff.mp h
  refine ⟨.doing name doing, ?_, hs.toldOnce_setClient hp rfl h ⟨rfl, rfl, rfl, rfl, rfl, rfl⟩⟩
  have hstate : evTypeDoing ≠ evTypeUserChangeState := by decide
  have hcharacter : evTypeDoing ≠ evTypeChangeCharacter := by decide
  have hpublic : evTypeDoing ≠ evTypePublicMessage := by decide
  have hmove : evTypeDoing ≠ evTypeMove := by decide
  simp only [Event.announcement, hname, Option.bind_some, if_neg hstate, if_neg hcharacter,
    if_neg hpublic, if_neg hmove, if_true, hdoing, Option.map_some]

theorem handleEvent_announces (hs : Sound s) (hp : s.heap p = some c) (hfd : c.fd = fd)
    (hstate : c.state = .success) (hacc : e.Accepted env c evType)
    (h : (handleEvent lookup env p fd e evType c.state).run s = some ((), s')) :
    Announces env s s' p c e evType := by
  rcases hacc with ⟨rfl, hmuted, hbody⟩ | ⟨rfl, hx, hy⟩ | ⟨rfl, hdoing⟩ | rfl | rfl
  · have hsec : publicMessageSection env p fd (e.localBody env) s = some s' := by
      simpa [handleEvent, hstate, hbody, evTypePublicMessage, evTypeAuth, evTypeUserChangeState,
        evTypeChangeCharacter, evTypePrivateMessage] using h
    exact publicMessageSection_announces hs hp hfd hmuted hsec
  · have hsec : moveSection env p e s = some s' := by
      simpa [handleEvent, hstate, evTypeMove, evTypeAuth, evTypeUserChangeState,
        evTypeChangeCharacter, evTypePrivateMessage, evTypePublicMessage, evTypeChangeRoom,
        evTypeGetRoomList, evTypeLeaveRoom, evTypeAdminCommandGoout,
        evTypeAdminCommandShutup] using h
    exact moveSection_announces hs hp hx hy hsec
  · have hsec : doingSection env p e s = some s' := by
      simpa [handleEvent, hstate, evTypeDoing, evTypeMove, evTypeAuth, evTypeUserChangeState,
        evTypeChangeCharacter, evTypePrivateMessage, evTypePublicMessage, evTypeChangeRoom,
        evTypeGetRoomList, evTypeLeaveRoom, evTypeAdminCommandGoout,
        evTypeAdminCommandShutup] using h
    exact doingSection_announces hs hp hdoing hsec
  · have hsec : changeCharacterSection env p fd e s = some s' := by
      simpa [handleEvent, hstate, evTypeChangeCharacter, evTypeAuth, evTypeUserChangeState]
        using h
    exact changeCharacterSection_announces hs hp hfd hsec
  · have hsec : changeStateSection env p fd e s = some s' := by
      simpa [handleEvent, hstate, evTypeUserChangeState, evTypeAuth] using h
    exact changeStateSection_announces hs hp hfd hsec

/-- **Audience.** In every reachable state, what an authenticated client does is told to all
clients with its room number, once to each, and to no one else. -/
theorem accepted_toldOnce (hs : Reachable s) (h : Handled env s task c e evType s')
    (hstate : c.state = .success) (hacc : e.Accepted env c evType) :
    ∃ n, e.announcement env env.now task.client c evType = some n ∧ ToldOnce s s' c n := by
  have hsound := hs.toAnyLookup.sound
  obtain ⟨d, hd, hfd⟩ := hsound.registered _ _ h.registered
  obtain rfl : d = c := Option.some.inj (hd.symm.trans h.record)
  exact handleEvent_announces (hsound.tick env.now) h.record hfd hstate hacc h.handle

/-- A guest greets the lobby, where another guest is. -/
theorem accepted_toldOnce_greeting : ∃ (s s' : State) (c : Client) (n : Notice),
    Reachable s ∧ Handled (.delivering 2 greeting) s ⟨5, 100, 4, greeting.data⟩ c greeting.event
      evTypePublicMessage s' ∧ ToldOnce s s' c n ∧ c.roomid = 0 := by
  have hcheck : (actAll (State.start fun _ => lobbyConf) [connect 5 100, connect 6 200,
      deliver 0 5 guestLogin, deliver 1 6 guestLogin]).any (fun s => s.fdClients 5 = some 100 ∧
        (s.heap 100).any (fun c : Client => c.state = .success ∧ c.type ≠ clientTypeShutup ∧
          c.roomid = 0) ∧
        ((parseMessage (getFdnodeByname (.delivering 2 greeting)) (.delivering 2 greeting)
          ⟨5, 100, 4, greeting.data⟩).run s).isSome) := by
    decide +kernel
  obtain ⟨s, hrun, hs⟩ := (Option.any_eq_true _ _).mp hcheck
  obtain ⟨h5, h100, hparse⟩ := of_decide_eq_true hs
  obtain ⟨c, hc, hcs⟩ := (Option.any_eq_true _ _).mp h100
  obtain ⟨hstate, hmuted, hroom⟩ := of_decide_eq_true hcs
  obtain ⟨⟨u, s'⟩, hparse⟩ := Option.isSome_iff_exists.mp hparse
  have hhandled : Handled (.delivering 2 greeting) s ⟨5, 100, 4, greeting.data⟩ c greeting.event
      evTypePublicMessage s' :=
    ⟨h5, hc, decode_packet (by decide +kernel) (by decide +kernel) 2 5 100, by decide +kernel,
      hparse⟩
  have hreach := reachable_of_actAll hrun
  obtain ⟨n, -, htold⟩ := accepted_toldOnce hreach hhandled hstate
    (Or.inl ⟨rfl, hmuted, by decide +kernel⟩)
  exact ⟨s, s', c, n, hreach, hhandled, htold, hroom⟩

end ArpgServer
