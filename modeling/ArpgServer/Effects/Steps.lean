import ArpgServer.Effects.Events

/-!
# Quiet steps, logins and removals

Everything that happens besides logins, removals and new connections is a sequence of
`QuietStep`s, which leave descriptors, names, session states and the name table alone. The
room invariant is kept by each of the four kinds of step, so it holds in every run.
-/

namespace ArpgServer

open CText

variable {lookup : Lookup} {env : Env} {s s' t : State} {p q : Addr} {c d : Client} {fd : Nat}
  {e : Event} {a : Action}

/-! ## Quiet steps -/

/-- Two records of one client at one place. -/
structure Client.SamePlace (c d : Client) : Prop where
  fd : d.fd = c.fd
  roomid : d.roomid = c.roomid
  state : d.state = c.state
  username : d.username = c.username

theorem Client.SameCore.samePlace (h : c.SameCore d) : c.SamePlace d :=
  ⟨h.fd, h.roomid, h.state, h.username⟩

inductive QuietStep (env : Env) : State → State → Prop where
  | clock (s : State) (now : Int) : QuietStep env s (s.tick now)
  | talk (s : State) (p : Addr) (c d : Client) (l : List Send) (hp : s.heap p = some c)
      (hd : c.SamePlace d) (hl : ∀ m ∈ l, ∀ n ∈ m.message, n.isPlain) :
      QuietStep env s ((s.setClient p d).post l)
  | script (s : State) (p : Addr) (c : Client) (l : List Send) (hp : s.heap p = some c)
      (hc : c.state ≠ .success)
      (hl : ∀ m ∈ l, m.fd = c.fd ∧ ∃ text, m.message = [.script text]) :
      QuietStep env s (s.post l)
  | leave (s : State) (p : Addr) (c : Client) (l : List Send) (hp : s.heap p = some c)
      (hl : LogoutSends env s p c l) : QuietStep env s ((s.vacate p c).post l)
  | enter (s : State) (p : Addr) (c : Client) (r : Nat) (l : List Send) (hp : s.heap p = some c)
      (hroom : c.roomid = -1) (hc : c.state = .success) (hr : r < maxRooms)
      (hen : (s.rooms r).enable ≠ 0) (hl : JoinSends env s p c r l) :
      QuietStep env s ((s.enter p c r).post l)

abbrev Quiet (env : Env) : State → State → Prop := Relation.ReflTransGen (QuietStep env)

theorem QuietStep.sound (hs : Sound s) (h : QuietStep env s s') : Sound s' := by
  cases h with
  | clock now => exact hs.tick now
  | talk p c d l hp hd hl =>
    refine (hs.setClient hp hd.fd hd.roomid ?_).post l
    intro hne
    exact hs.waiting p c hp (by rwa [hd.state] at hne)
  | script p c l hp hc hl => exact hs.post l
  | leave p c l hp hl => exact (hs.vacate hp).post l
  | enter p c r l hp hroom hc hr hen hl => exact (hs.enter hp hroom hc hr hen).post l

theorem QuietStep.sent (h : QuietStep env s s') : ∃ l, s'.sent = s.sent ++ l := by
  cases h with
  | clock now => exact ⟨[], by simp [State.tick]⟩
  | talk p c d l hp hd hl => exact ⟨l, rfl⟩
  | script p c l hp hc hl => exact ⟨l, rfl⟩
  | leave p c l hp hl => exact ⟨l, by simp⟩
  | enter p c r l hp hroom hc hr hen hl => exact ⟨l, rfl⟩

theorem Quiet.sent (h : Quiet env s s') : ∃ l, s'.sent = s.sent ++ l := by
  induction h with
  | refl => exact ⟨[], by simp⟩
  | tail _ hstep ih =>
    obtain ⟨l, hl⟩ := ih
    obtain ⟨l', hl'⟩ := hstep.sent
    exact ⟨l ++ l', by rw [hl', hl, List.append_assoc]⟩

theorem Quiet.sound (hs : Sound s) (h : Quiet env s s') : Sound s' := by
  induction h with
  | refl => exact hs
  | tail _ hstep ih => exact hstep.sound ih

theorem TalkEffect.quiet (hp : s.heap p = some c) (h : TalkEffect p c s s') : Quiet env s s' := by
  obtain ⟨d, l, hd, hl, rfl⟩ := h
  exact .single (.talk s p c d l hp hd.samePlace hl)

/-- Plain events are quiet. -/
theorem quiet_post (hp : s.heap p = some c) {l : List Send}
    (hl : ∀ m ∈ l, ∀ n ∈ m.message, n.isPlain) : Quiet env s (s.post l) :=
  (talkEffect_post hp hl).quiet hp

theorem JoinSends.congr {r : Nat} {l : List Send} (hh : t.heap = s.heap) (hr : t.rooms = s.rooms)
    (h : JoinSends env s p c r l) : JoinSends env t p c r l := by
  obtain ⟨profile, msgs, hprof, hmsgs, rfl⟩ := h
  refine ⟨profile, msgs, (profileAt_congr hh).trans hprof, ?_, ?_⟩
  · rw [hr, userlist_congr hh]
    exact hmsgs
  · simp only [hr, State.toEach, State.fdOf, hh]

theorem JoinEffect.quiet (hs : Sound s) (hp : s.heap p = some c) (hc : c.state = .success)
    {roomid : Int} (h : JoinEffect env p c roomid s s') : Quiet env s s' := by
  rcases h with ⟨l, hl, rfl⟩ | ⟨r, l₁, l₂, -, hr, hen, -, hl₁, hl₂, rfl⟩
  · refine quiet_post hp ?_
    rcases hl with rfl | ⟨name, rfl⟩ <;> simp [Notice.isPlain]
  · have hleave : QuietStep env s ((s.vacate p c).post l₁) := .leave s p c l₁ hp hl₁
    have hvac : ((s.vacate p c).post l₁).heap p = some { c with roomid := -1 } := by
      rw [State.post_heap, hs.vacate_heap_self hp]
    have hen' : (((s.vacate p c).post l₁).rooms r).enable ≠ 0 := by
      rw [State.post_rooms, State.vacate_rooms]
      split <;> exact hen
    have henter : QuietStep env ((s.vacate p c).post l₁)
        ((((s.vacate p c).post l₁).enter p { c with roomid := -1 } r).post l₂) :=
      .enter _ p { c with roomid := -1 } r l₂ hvac rfl hc hr hen'
        (.congr (s := s.vacate p c) rfl rfl hl₂)
    rw [← State.post_post]
    exact (Relation.ReflTransGen.single hleave).tail henter

/-! ## Removals and logins -/

theorem RemoveEffect.sound (hs : Sound s) (hp : s.heap p = some c)
    (h : RemoveEffect env p c s s') : Sound s' := by
  obtain ⟨l, key, chain, -, -, -, rfl⟩ := h
  have hvac := hs.vacate hp
  have hvacp := hs.vacate_heap_self hp
  exact ((hvac.post l).setBucket _ _).freed (c := { c with roomid := -1 }) hvacp rfl

/-- The session that has logged in goes to a room, which is quiet. -/
theorem JoinEffect.afterLogin (ht : Sound t) (hp : t.heap p = some d) {name : Bytes}
    {role roomid : Int} {n : Notice}
    (h : JoinEffect env p (d.loggedIn role) roomid ((t.login p d name role).sendMessage fd n) s') :
    Sound ((t.login p d name role).sendMessage fd n) ∧
      Quiet env ((t.login p d name role).sendMessage fd n) s' := by
  have hlogin : Sound ((t.login p d name role).sendMessage fd n) := (ht.login hp name role).post _
  exact ⟨hlogin, h.quiet hlogin (by simp [State.login, State.sendMessage]) rfl⟩

theorem AuthEffect.sound (hs : Sound s) (hp : s.heap p = some c)
    (h : AuthEffect lookup env fd e p c s s') : Sound s' := by
  cases h with
  | already hc h =>
    rw [h]
    exact hs.post _
  | refused d why hc hd h =>
    have hsame : c.SameSession d := authCredentials_client hd
    rw [h]
    exact (hs.setWaiting hp hc hsame).post _
  | passed c' d name node t hc hpass hd hname hnode hrival hjoin =>
    obtain ⟨ht, hpt⟩ := hrival.waiting hs hp hc (passed_sameSession hpass hd)
    obtain ⟨hlogin, hquiet⟩ := hjoin.afterLogin ht hpt
    exact hquiet.sound hlogin

theorem RivalEffect.sent {node : Option Addr} (h : RivalEffect env node s s') :
    ∃ l, s'.sent = s.sent ++ l := by
  rcases h with ⟨-, rfl⟩ | ⟨q, d, -, -, ⟨-, rfl⟩ | ⟨-, l, -, rfl⟩⟩
  · exact ⟨[], by simp⟩
  · exact ⟨[], by simp⟩
  · exact ⟨l ++ [⟨d.fd, [.otherLogin]⟩], by simp⟩

/-- A login that is answered with a refusal is refused. -/
theorem AuthEffect.refused_of_sent (hs : Sound s) (hp : s.heap p = some c) {why : AuthFailure}
    (h : AuthEffect lookup env fd e p c s s')
    (hsent : s'.sent = s.sent ++ [⟨fd, [.authFailure why]⟩]) :
    ∃ d, authCredentials env s.mytimestamp c e = some (.refused d why) ∧
      s' = (s.setClient p d).sendMessage fd (.authFailure why) := by
  cases h with
  | already hc h =>
    rw [h] at hsent
    simp [State.sendMessage] at hsent
  | refused d why' hc hd h =>
    have hwhy : why' = why := by
      rw [h] at hsent
      simpa [State.sendMessage] using hsent
    subst hwhy
    exact ⟨d, hd, h⟩
  | passed c' d name node t hc hpass hd hname hnode hrival hjoin =>
    obtain ⟨hst, hpt⟩ := hrival.waiting hs hp hc (passed_sameSession hpass hd)
    obtain ⟨-, hquiet⟩ := hjoin.afterLogin hst hpt
    obtain ⟨l, hl⟩ := hrival.sent
    obtain ⟨l', hl'⟩ := hquiet.sent
    have hlogin : (⟨fd, [.authSuccess name (luaGetuserrole env name)]⟩ : Send) ∈
        [(⟨fd, [.authFailure why]⟩ : Send)] := by
      have heq : s.sent ++ [⟨fd, [.authFailure why]⟩] =
          s.sent ++ (l ++ [⟨fd, [.authSuccess name (luaGetuserrole env name)]⟩] ++ l') := by
        rw [← hsent, hl']
        simp [State.login, State.sendMessage, hl]
      rw [List.append_cancel_left heq]
      simp
    simp at hlogin

/-! ## What an action does -/

/-- The action removes the client `q`: it logs out, an administrator names it, or it is idle. -/
inductive Removes (lookup : Lookup) (env : Env) (s : State) : Action → Addr → Prop where
  | logout (fd : Nat) (recvBits : Int) (data : Bytes) (q : Addr) (hfd : s.fdClients fd = some q)
      (hdecode : Task.decode env ⟨fd, q, recvBits, data⟩ = .logout) :
      Removes lookup env s (.task fd recvBits data) q
  | goout (fd : Nat) (recvBits : Int) (data : Bytes) (p q : Addr) (c : Client) (e : Event)
      (username : Bytes) (hfd : s.fdClients fd = some p) (hp : s.heap p = some c)
      (hdecode : Task.decode env ⟨fd, p, recvBits, data⟩ = .event e)
      (ht : e.evType = some evTypeAdminCommandGoout) (hc : c.state = .success)
      (hadmin : c.type = clientTypeAdmin) (hu : e.attr .username = some username)
      (hq : targetOf lookup env p c username (s.tick env.now) = some (some q)) :
      Removes lookup env s (.task fd recvBits data) q
  | idle (i : Nat) (q : Addr) (c : Client) (hfd : s.fdClients i = some q)
      (hq : s.heap q = some c) (hidle : isIdle env.now c) : Removes lookup env s (.idle i) q

inductive ActEffect (lookup : Lookup) (env : Env) (s : State) (a : Action) (s' : State) :
    Prop where
  | quiet (h : Quiet env s s')
  | accept (fd : Nat) (node : Addr) (hfd : s.fdClients fd = none) (hnode : s.heap node = none)
      (h : s' = { s with
        fdClients := Function.update s.fdClients fd (some node)
        heap := Function.update s.heap node (some (newClient fd s.mytimestamp)) })
  | remove (t : State) (q : Addr) (d : Client) (ht : Quiet env s t) (hq : t.heap q = some d)
      (h : RemoveEffect env q d t s') (hwhy : Removes lookup env s a q)
  | auth (fd : Nat) (recvBits : Int) (data : Bytes) (p : Addr) (c : Client) (e : Event)
      (ha : a = .task fd recvBits data) (hfd : s.fdClients fd = some p) (hp : s.heap p = some c)
      (hdecode : Task.decode env ⟨fd, p, recvBits, data⟩ = .event e)
      (ht : e.evType = some evTypeAuth)
      (h : AuthEffect lookup env fd e p c (s.tick env.now) s')

theorem parseMessage_event {task : Task} (hdecode : task.decode env = .event e)
    {r : Unit × State} (h : (parseMessage lookup env task).run s = some r) :
    (parseEvent lookup env task.client task.fd e).run s = some r := by
  rw [parseMessage_decode, hdecode] at h
  exact h

/-- The event is a login. -/
theorem parseMessage_auth (hs : Sound s) (hl : lookup.Registered) (hp : s.heap p = some c)
    {recvBits : Int} {data : Bytes} (hdecode : Task.decode env ⟨fd, p, recvBits, data⟩ = .event e)
    (ht : e.evType = some evTypeAuth)
    (h : (parseMessage lookup env ⟨fd, p, recvBits, data⟩).run s = some ((), s')) :
    AuthEffect lookup env fd e p c (s.tick env.now) s' :=
  authEvent_effect (hs.tick env.now) hl hp (parseEvent_auth hp ht (parseMessage_event hdecode h))

theorem parseMessage_logout {task : Task} (hdecode : task.decode env = .logout)
    {r : Unit × State} (h : (parseMessage lookup env task).run s = some r) :
    ∃ x, (nodeDel env (some task.client)).run s = some (x, r.2) := by
  rw [parseMessage_decode, hdecode] at h
  obtain ⟨x, t, hdel, h⟩ := Proc.run_bind_eq_some.mp h
  cases h
  exact ⟨x, hdel⟩

theorem task_effect (hs : Sound s) (hl : lookup.Registered) {recvBits : Int} {data : Bytes}
    (h : act lookup env s (.task fd recvBits data) = some s') :
    ActEffect lookup env s (.task fd recvBits data) s' := by
  obtain ⟨p, hfd, h⟩ := Option.bind_eq_some_iff.mp h
  obtain ⟨⟨u, t⟩, hrun, rfl⟩ := Option.map_eq_some_iff.mp h
  obtain ⟨c, hp, hcfd⟩ := hs.registered fd p hfd
  let task : Task := ⟨fd, p, recvBits, data⟩
  have hclock : Quiet env s (s.tick env.now) := .single (.clock s env.now)
  have hs' := hs.tick env.now
  have hp' : (s.tick env.now).heap p = some c := hp
  generalize hdecode : task.decode env = x
  cases x with
  | logout =>
    obtain ⟨y, hdel⟩ := parseMessage_logout hdecode hrun
    exact .remove s p c .refl hp (nodeDel_effect hs hp hdel)
      (.logout fd recvBits data p hfd hdecode)
  | undecodable =>
    rw [parseMessage_decode, hdecode] at hrun
    cases hrun
    exact .quiet .refl
  | ping =>
    rw [parseMessage_decode, hdecode] at hrun
    cases Proc.run_modify_eq_some.mp hrun
    exact .quiet (quiet_post hp (by simp [Notice.isPlain]))
  | event e =>
    rcases parseEvent_effect hs hl hp (parseMessage_event hdecode hrun) with hsame | heff
    · rw [hsame]
      exact .quiet .refl
    cases heff with
    | nothing h => exact .quiet (h ▸ hclock)
    | auth ht h => exact .auth fd recvBits data p c e rfl hfd hp hdecode ht h
    | talk hc h => exact .quiet (hclock.trans (h.quiet hp'))
    | changeRoom hc h => exact .quiet (hclock.trans (h.quiet hs' hp' hc))
    | leaveRoom hc h =>
      obtain ⟨l, hl, h⟩ := h
      exact .quiet (h ▸ hclock.tail (.leave _ p c l hp' hl))
    | goout hc ht h =>
      cases h with
      | answered l hl h => exact .quiet (h ▸ hclock.trans (quiet_post hp' fun m hm => (hl m hm).2))
      | obeyed username q d hadmin hu htarget hq h =>
        obtain ⟨l, hl, h⟩ := h
        exact .remove _ q d (hclock.trans (quiet_post hp' hl)) hq h
          (.goout fd recvBits data p q c e username hfd hp hdecode ht hc hadmin hu htarget)
    | shutup hc ht h =>
      cases h with
      | answered l hl h => exact .quiet (h ▸ hclock.trans (quiet_post hp' fun m hm => (hl m hm).2))
      | obeyed username q d hadmin hu ht hq h =>
        obtain ⟨type, l, -, hl, h⟩ := h
        exact .quiet (h ▸ hclock.tail (.talk _ q d _ l hq ⟨rfl, rfl, rfl, rfl⟩ hl))
    | script hc h =>
      obtain ⟨l, h, hl⟩ := h
      exact .quiet (h ▸ hclock.tail (.script _ p c l hp' hc (hcfd.symm ▸ hl)))

theorem act_effect (hs : Sound s) (hl : lookup.Registered) (h : act lookup env s a = some s') :
    ActEffect lookup env s a s' := by
  cases a with
  | accept fd node =>
    change acceptClient fd node s = some s' at h
    obtain ⟨⟨-, hfd, hnode⟩, hs'⟩ := acceptClient_eq_some h
    exact .accept fd node hfd hnode hs'
  | input fd =>
    obtain ⟨p, hfd, h⟩ := Option.bind_eq_some_iff.mp h
    obtain ⟨c, hp, rfl⟩ := Option.map_eq_some_iff.mp h
    have hclock : Quiet env s (s.tick env.now) := .single (.clock s env.now)
    refine .quiet (hclock.tail ?_)
    have hnote : QuietStep env (s.tick env.now) _ := .talk (s.tick env.now) p c
      { c with keepalivetime := toInt32 env.now } [] hp ⟨rfl, rfl, rfl, rfl⟩ (by simp)
    simpa using hnote
  | task fd recvBits data => exact task_effect hs hl h
  | idle i =>
    have hclock : Quiet env s (s.tick env.now) := .single (.clock s env.now)
    simp only [act, heartbeatAt] at h
    split at h
    · cases h
      exact .quiet hclock
    · rename_i p hfd
      obtain ⟨c, hp, h⟩ := Option.bind_eq_some_iff.mp h
      split at h
      · rename_i hidle
        obtain ⟨r, hdel, rfl⟩ := Option.map_eq_some_iff.mp h
        exact .remove _ p c hclock hp (nodeDel_effect (hs.tick env.now) hp hdel)
          (.idle i p c hfd hp hidle)
      · cases h
        exact .quiet hclock

theorem ActEffect.sound (hs : Sound s) (h : ActEffect lookup env s a s') : Sound s' := by
  cases h with
  | quiet h => exact h.sound hs
  | accept fd node hfd hnode h =>
    rw [h]
    exact hs.accept hfd hnode s.mytimestamp
  | remove t q d ht hq h => exact h.sound (ht.sound hs) hq
  | auth fd recvBits data p c e ha hfd hp hdecode ht h => exact h.sound (hs.tick env.now) hp

theorem act_sound (hs : Sound s) (hl : lookup.Registered) (h : act lookup env s a = some s') :
    Sound s' := (act_effect hs hl h).sound hs

/-- The room invariant holds in every run. -/
theorem Runs.sound (h : Runs anyLookup s) : Sound s :=
  h.invariant Sound.start fun _ _ _ _ _ hs hl hact => act_sound hs hl hact

end ArpgServer
