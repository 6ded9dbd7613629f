import ArpgServer.Effects.Events

/-!
# What a section does

Between two sections of a procedure other threads may run, so nothing is assumed of the state
a section finds. Whatever it finds, it changes the tables by a few elementary changes, and
every fact about all interleavings is derived from these.
-/

namespace ArpgServer

open CText

variable {racing : Prop} {lookup : Lookup} {env : Env} {s s' t : State} {p q : Addr}
  {c d : Client} {fd : Nat} {e : Event} {a : Action}

/-- A record after anything but a login: it may lose its room and its rights. -/
structure Client.Rewritten (c d : Client) : Prop where
  fd : d.fd = c.fd
  roomid : d.roomid = c.roomid ∨ d.roomid = -1
  rights : d.state = .success → d.type = clientTypeAdmin →
    c.state = .success ∧ c.type = clientTypeAdmin ∧ d.username = c.username

/-- The elementary changes. A login that races with another one of its connection may rename a
session that has been authenticated meanwhile. -/
inductive Change (racing : Prop) (env : Env) : State → State → Prop where
  | post (s : State) (l : List Send) : Change racing env s (s.post l)
  | clock (s : State) (now : Int) : Change racing env s (s.tick now)
  | chain (s : State) (i : Nat) (chain : List HashItem) : Change racing env s (s.setBucket i chain)
  | write (s : State) (p : Addr) (c d : Client) (hp : s.heap p = some c) (hd : c.Rewritten d) :
      Change racing env s (s.setClient p d)
  | rename (s : State) (p : Addr) (c d : Client) (hp : s.heap p = some c)
      (hd : c.SameSession d) (hrace : c.state = .success → racing) :
      Change racing env s (s.setClient p d)
  | login (s : State) (p : Addr) (c : Client) (name : Bytes) (hp : s.heap p = some c)
      (hname : c.username.read (env.overrun p .username) = some name) :
      Change racing env s (s.setClient p (c.loggedIn (luaGetuserrole env name)))
  | unlink (s : State) (r fd : Nat) (l : List Addr)
      (hl : unlinkFd s fd (s.rooms r).rClient = some (some l)) :
      Change racing env s (s.setRoom r ((s.rooms r).unlinked (some l)))
  | enter (s : State) (p : Addr) (c : Client) (r : Nat) (hp : s.heap p = some c)
      (hr : r < maxRooms) (hen : (s.rooms r).enable ≠ 0) : Change racing env s (s.enter p c r)
  | free (s : State) (p : Addr) (c : Client) (hp : s.heap p = some c) :
      Change racing env s (s.freed p c)

abbrev Changes (racing : Prop) (env : Env) : State → State → Prop :=
  Relation.ReflTransGen (Change racing env)

namespace Changes

theorem post (s : State) (l : List Send) : Changes racing env s (s.post l) := .single (.post s l)

theorem write (hp : s.heap p = some c) (hd : c.Rewritten d) :
    Changes racing env s (s.setClient p d) :=
  .single (.write s p c d hp hd)

theorem broadcast {n : Notice} (h : sendMessageAll s fd n = some s') : Changes racing env s s' := by
  obtain ⟨l, rfl, -⟩ := sendMessageAll_post h
  exact .post s l

/-- A record is rewritten, and an event goes to a room. -/
theorem talk {n : Notice} (hp : s.heap p = some c)
    (h : sendMessageAll (s.setClient p d) fd n = some s') (hd : c.Rewritten d) :
    Changes racing env s s' :=
  (write hp hd).trans (broadcast h)

end Changes

/-- The record says the same of its session. -/
theorem Client.Rewritten.of_same (hfd : d.fd = c.fd) (hroom : d.roomid = c.roomid)
    (hstate : d.state = c.state) (htype : d.type = c.type) (hname : d.username = c.username) :
    c.Rewritten d :=
  ⟨hfd, Or.inl hroom, fun hd hadmin => ⟨hstate ▸ hd, htype ▸ hadmin, hname⟩⟩

/-! ## Rooms -/

theorem unlinkFd_length {l l' : List Addr} (h : unlinkFd s fd l = some (some l')) :
    l'.length + 1 = l.length := by
  induction l generalizing l' with
  | nil => cases h
  | cons q l ih =>
    obtain ⟨cur, -, h⟩ := Option.bind_eq_some_iff.mp h
    split at h
    · cases h
      rfl
    · obtain ⟨found, hfound, h⟩ := Option.map_eq_some_iff.mp h
      obtain ⟨l'', rfl, rfl⟩ := Option.map_eq_some_iff.mp h
      rw [List.length_cons, List.length_cons, ih hfound]

theorem leaveSection_changes {roomid : Int} (h : leaveSection env p roomid s = some s') :
    Changes racing env s s' := by
  obtain ⟨room, hroom, h⟩ := Option.bind_eq_some_iff.mp h
  obtain ⟨-, -, rfl⟩ := State.room?_eq_some.mp hroom
  obtain ⟨c, hp, h⟩ := Option.bind_eq_some_iff.mp h
  obtain ⟨current, -, h⟩ := Option.bind_eq_some_iff.mp h
  split at h
  · cases h
    exact .refl
  obtain ⟨list, hlist, h⟩ := Option.bind_eq_some_iff.mp h
  have hunlink : Changes racing env s
      (s.setRoom roomid.toNat ((s.rooms roomid.toNat).unlinked list)) := by
    cases list with
    | none =>
      have hsame : s.setRoom roomid.toNat ((s.rooms roomid.toNat).unlinked none) = s := by
        simp [State.setRoom, Room.unlinked]
      rw [hsame]
    | some l => exact .single (.unlink s _ c.fd l hlist)
  dsimp only at h
  split at h
  · obtain ⟨name, -, h⟩ := Option.bind_eq_some_iff.mp h
    obtain ⟨t, hsend, rfl⟩ := Option.map_eq_some_iff.mp h
    obtain ⟨l, rfl, -⟩ := sendMessageAll_post hsend
    refine (hunlink.trans (Changes.post _ l)).trans (Changes.write hp ⟨rfl, Or.inr rfl, ?_⟩)
    intro hd hadmin
    exact ⟨hd, hadmin, rfl⟩
  · cases h
    exact hunlink

theorem joinCheck_changes {roomid : Int} {start : JoinStart}
    (h : joinCheck p roomid s = some (start, s')) : Changes racing env s s' := by
  unfold joinCheck at h
  split at h
  · cases h
    exact .refl
  · obtain ⟨room, -, h⟩ := Option.bind_eq_some_iff.mp h
    obtain ⟨c, -, h⟩ := Option.map_eq_some_iff.mp h
    split at h
    · cases h
      exact .refl
    · split at h
      · cases h
        exact .post s _
      · split at h <;>
        · cases h
          exact .refl

theorem sendUserlist_changes (h : sendUserlist env p s = some s') : Changes racing env s s' := by
  obtain ⟨node, -, h⟩ := Option.bind_eq_some_iff.mp h
  obtain ⟨room, -, h⟩ := Option.bind_eq_some_iff.mp h
  split at h
  · obtain ⟨msgs, -, rfl⟩ := Option.map_eq_some_iff.mp h
    exact .post s _
  · cases h
    exact .refl

theorem joinSection_changes {roomid : Int} (h : joinSection env p roomid s = some s') :
    Changes racing env s s' := by
  obtain ⟨room, hroom, h⟩ := Option.bind_eq_some_iff.mp h
  obtain ⟨h0, hlt, rfl⟩ := State.room?_eq_some.mp hroom
  obtain ⟨r, rfl⟩ : ∃ r : Nat, roomid = r := ⟨roomid.toNat, by omega⟩
  split at h
  · rename_i hen
    obtain ⟨c, hp, h⟩ := Option.bind_eq_some_iff.mp h
    obtain ⟨profile, -, h⟩ := Option.bind_eq_some_iff.mp h
    obtain ⟨t, hsend, h⟩ := Option.bind_eq_some_iff.mp h
    have henter : Change racing env s (s.enter p c r) := .enter s p c r hp (by omega) hen
    exact (((Relation.ReflTransGen.single henter).trans (Changes.post _ _)).trans
      (Changes.broadcast hsend)).trans (sendUserlist_changes h)
  · cases h
    exact .refl

theorem leaveRoom_sections (env : Env) (p : Option Addr) :
    (leaveRoom env p).Sections (Changes racing env) := by
  cases p with
  | none => exact .ret _
  | some p =>
    refine .bind (.read _) fun roomid => ?_
    split
    · exact .ret _
    · exact .bind (.modify fun _ _ => leaveSection_changes) fun _ => .ret _

theorem joinRoom_sections (env : Env) (p : Option Addr) (roomid : Int) :
    (joinRoom env p roomid).Sections (Changes racing env) := by
  cases p with
  | none => exact .ret _
  | some p =>
    have hjoin : (Proc.modify (joinSection env p roomid)).Sections (Changes racing env) :=
      .modify fun _ _ => joinSection_changes
    refine .bind (.step fun _ _ _ => joinCheck_changes) fun start => ?_
    cases start with
    | refused => exact .ret _
    | leaveFirst => exact .bind (leaveRoom_sections env _) fun _ => .bind hjoin fun _ => .ret _
    | enter => exact .bind hjoin fun _ => .ret _

/-! ## Registration -/

theorem nodeAdd_sections (env : Env) (p : Addr) :
    (nodeAdd env p).Sections (Changes racing env) := by
  refine .modify fun s s' h => ?_
  obtain ⟨c, -, h⟩ := Option.bind_eq_some_iff.mp h
  obtain ⟨name, -, rfl⟩ := hashAdd_eq_some h
  exact .single (.chain s _ _)

theorem nodeDel_sections (env : Env) (p : Option Addr) :
    (nodeDel env p).Sections (Changes racing env) := by
  cases p with
  | none => exact .ret _
  | some p =>
    refine .bind (leaveRoom_sections env (some p)) fun _ => .bind (.modify fun s s' h => ?_)
      fun _ => .bind (.modify fun s s' h => ?_) fun _ => .ret _
    · obtain ⟨c, -, h⟩ := Option.bind_eq_some_iff.mp h
      obtain ⟨key, -, h⟩ := Option.bind_eq_some_iff.mp h
      obtain ⟨chain, -, rfl⟩ := hashDel_eq_some h
      exact .single (.chain s _ _)
    · obtain ⟨c, hp, rfl⟩ := Option.map_eq_some_iff.mp h
      exact .single (.free s p c hp)

theorem displaceSection_changes (h : displaceSection env p s = some s') :
    Changes racing env s s' := by
  obtain ⟨c, hp, h⟩ := Option.bind_eq_some_iff.mp h
  split at h
  · obtain ⟨name, -, h⟩ := Option.bind_eq_some_iff.mp h
    have hwait : Changes racing env s (s.setClient p { c with state := .wait }) :=
      .write hp ⟨rfl, Or.inl rfl, fun hd => by cases hd⟩
    exact (hwait.trans (Changes.post _ _)).trans (Changes.broadcast h)
  · cases h
    exact .refl

theorem otherSameUsername_sections (env : Env) (p : Option Addr) :
    (otherSameUsername env p).Sections (Changes racing env) := by
  cases p with
  | none => exact .ret _
  | some p =>
    exact .bind (leaveRoom_sections env (some p)) fun _ => .modify fun _ _ =>
      displaceSection_changes

/-! ## Handlers -/

theorem authSection_changes {passed : Bool}
    (hrace : ∀ c, s.heap p = some c → c.state = .success → racing)
    (h : authSection env p fd e s = some (passed, s')) : Changes racing env s s' := by
  obtain ⟨c, hp, h⟩ := Option.bind_eq_some_iff.mp h
  obtain ⟨out, hout, h⟩ := Option.map_eq_some_iff.mp h
  have hsame := authCredentials_client hout
  have hrename : ∀ d, c.SameSession d → Changes racing env s (s.setClient p d) := fun d hd =>
    .single (.rename s p c d hp hd (hrace c hp))
  cases out with
  | refused c' why =>
    cases h
    exact (hrename c' hsame).trans (Changes.post _ _)
  | passed c' =>
    cases h
    exact hrename _ (hsame.trans (setCharacter_sameSession c' e))

theorem authSuccess_changes (h : authSuccess env p fd s = some s') : Changes racing env s s' := by
  obtain ⟨c, hp, h⟩ := Option.bind_eq_some_iff.mp h
  obtain ⟨name, hname, rfl⟩ := Option.map_eq_some_iff.mp h
  exact (Relation.ReflTransGen.single (.login s p c name hp hname)).trans (Changes.post _ _)

/-- A login from the search for its rival on. -/
theorem passed_sections (lookup : Lookup) (env : Env) (p : Addr) (fd : Nat) (roomid : Int) :
    (do
      let node ← Proc.read (rivalOf lookup env p)
      otherSameUsername env node
      nodeAdd env p
      Proc.modify (authSuccess env p fd)
      let _ ← joinRoom env (some p) roomid
      return () : Proc State Unit).Sections (Changes racing env) := by
  refine .bind (.read _) fun node => .bind (otherSameUsername_sections env node) fun _ => ?_
  refine .bind (nodeAdd_sections env p) fun _ => ?_
  refine .bind (.modify fun _ _ => authSuccess_changes) fun _ => ?_
  exact .bind (joinRoom_sections env (some p) roomid) fun _ => .ret _

theorem authEvent_sections (lookup : Lookup) (env : Env) (p : Addr) (fd : Nat) (e : Event)
    (state : FdState) : (authEvent lookup env p fd e state).Sections (Changes True env) := by
  refine .ite (.modify fun s s' h => ?_) ?_
  · cases h
    exact .post s _
  · refine .bind (.step fun _ _ _ => authSection_changes fun _ _ _ => trivial) fun passed => ?_
    exact .ite (passed_sections lookup env p fd e.roomid) (.ret _)

/-- A login that is handled alone meets the state that was tested. -/
theorem authEvent_changes (hp : s.heap p = some c)
    (h : (authEvent lookup env p fd e c.state).run s = some ((), s')) :
    Changes False env s s' := by
  unfold authEvent at h
  split at h
  · cases h
    exact .post s _
  · rename_i hc
    obtain ⟨passed, t, hsection, h⟩ := Proc.run_bind_eq_some.mp h
    have hrace : ∀ d, s.heap p = some d → d.state = .success → False := by
      intro d hd hstate
      cases hp.symm.trans hd
      exact hc hstate
    have hchecks := authSection_changes hrace (Proc.run_step_eq_some.mp hsection)
    split at h
    · exact hchecks.trans ((passed_sections lookup env p fd e.roomid).keeps _ _ _ h)
    · cases h
      exact hchecks

theorem changeStateSection_changes (h : changeStateSection env p fd e s = some s') :
    Changes racing env s s' := by
  obtain ⟨_, -, h⟩ := Option.bind_eq_some_iff.mp h
  obtain ⟨name, -, h⟩ := Option.bind_eq_some_iff.mp h
  exact .broadcast h

theorem changeCharacterSection_changes (h : changeCharacterSection env p fd e s = some s') :
    Changes racing env s s' := by
  obtain ⟨character, -, h⟩ := Option.bind_eq_some_iff.mp h
  obtain ⟨c, hp, h⟩ := Option.bind_eq_some_iff.mp h
  obtain ⟨name, -, h⟩ := Option.bind_eq_some_iff.mp h
  obtain ⟨text, -, h⟩ := Option.bind_eq_some_iff.mp h
  exact .talk hp h (.of_same rfl rfl rfl rfl rfl)

theorem privateMessageSection_changes {body : LocalPtr}
    (h : privateMessageSection lookup env p fd e body s = some s') : Changes racing env s s' := by
  obtain ⟨target, -, h⟩ := Option.bind_eq_some_iff.mp h
  obtain ⟨c, -, h⟩ := Option.bind_eq_some_iff.mp h
  split at h
  · cases h
    exact .post s _
  obtain ⟨self, -, h⟩ := Option.bind_eq_some_iff.mp h
  obtain ⟨name, -, h⟩ := Option.bind_eq_some_iff.mp h
  split at h
  · obtain ⟨text, -, rfl⟩ := Option.map_eq_some_iff.mp h
    exact .post s _
  obtain ⟨node, -, h⟩ := Option.bind_eq_some_iff.mp h
  cases node with
  | none =>
    cases h
    exact .post s _
  | some q =>
    obtain ⟨tonode, -, h⟩ := Option.bind_eq_some_iff.mp h
    obtain ⟨text, -, rfl⟩ := Option.map_eq_some_iff.mp h
    exact (Changes.post s _).trans (Changes.post _ _)

theorem publicMessageSection_changes {body : LocalPtr}
    (h : publicMessageSection env p fd body s = some s') : Changes racing env s s' := by
  obtain ⟨c, -, h⟩ := Option.bind_eq_some_iff.mp h
  split at h
  · cases h
    exact .post s _
  · obtain ⟨name, -, h⟩ := Option.bind_eq_some_iff.mp h
    obtain ⟨text, -, h⟩ := Option.bind_eq_some_iff.mp h
    exact .broadcast h

theorem setDirection_rewritten (c : Client) (e : Event) : c.Rewritten (setDirection c e) := by
  unfold setDirection
  split <;> exact .of_same rfl rfl rfl rfl rfl

theorem moveSection_changes (h : moveSection env p e s = some s') : Changes racing env s s' := by
  obtain ⟨c, hp, h⟩ := Option.bind_eq_some_iff.mp h
  have hturn := setDirection_rewritten c e
  dsimp only at h
  split at h
  · obtain ⟨name, -, h⟩ := Option.bind_eq_some_iff.mp h
    exact .talk hp h ⟨hturn.fd, hturn.roomid, hturn.rights⟩
  · cases h
    exact .write hp hturn

theorem doingSection_changes (h : doingSection env p e s = some s') : Changes racing env s s' := by
  unfold doingSection at h
  split at h
  · cases h
    exact .refl
  · obtain ⟨c, hp, h⟩ := Option.bind_eq_some_iff.mp h
    obtain ⟨name, -, h⟩ := Option.bind_eq_some_iff.mp h
    exact .talk hp h (.of_same rfl rfl rfl rfl rfl)

theorem luaExec_changes {str : Bytes} (h : luaExec env fd str s = some s') :
    Changes racing env s s' := by
  obtain ⟨l, rfl, -⟩ := luaExec_effect h
  exact .post s l

theorem gooutSection_changes {node : Option Addr}
    (h : gooutSection lookup env p fd e s = some (node, s')) : Changes racing env s s' := by
  obtain ⟨c, -, h⟩ := Option.bind_eq_some_iff.mp h
  split at h
  · cases h
    exact .post s _
  split at h
  · cases h
    exact .refl
  obtain ⟨target, -, h⟩ := Option.bind_eq_some_iff.mp h
  cases target with
  | none =>
    cases h
    exact .refl
  | some q =>
    obtain ⟨d, -, h⟩ := Option.bind_eq_some_iff.mp h
    obtain ⟨name, -, h⟩ := Option.bind_eq_some_iff.mp h
    obtain ⟨t, hsend, h⟩ := Option.map_eq_some_iff.mp h
    cases h
    exact .broadcast hsend

/-- A type that is set by hand gives no rights. -/
theorem Client.rewritten_type (c : Client) {type : Int} (h : type ≠ clientTypeAdmin) :
    c.Rewritten { c with type := type } :=
  ⟨rfl, Or.inl rfl, fun _ hadmin => absurd hadmin h⟩

theorem shutupSection_changes (h : shutupSection lookup env p fd e s = some s') :
    Changes racing env s s' := by
  obtain ⟨c, -, h⟩ := Option.bind_eq_some_iff.mp h
  split at h
  · cases h
    exact .post s _
  split at h
  · cases h
    exact .refl
  obtain ⟨target, -, h⟩ := Option.bind_eq_some_iff.mp h
  cases target with
  | none =>
    cases h
    exact .refl
  | some q =>
    obtain ⟨d, hq, h⟩ := Option.bind_eq_some_iff.mp h
    obtain ⟨name, -, h⟩ := Option.bind_eq_some_iff.mp h
    split at h
    · exact .talk hq h (d.rewritten_type (by decide))
    · exact .talk hq h (d.rewritten_type (by decide))

theorem handleEvent_sections (lookup : Lookup) (env : Env) (p : Addr) (fd : Nat) (e : Event)
    (evType : Int) (state : FdState)
    (hauth : evType = evTypeAuth →
      (authEvent lookup env p fd e state).Sections (Changes racing env)) :
    (handleEvent lookup env p fd e evType state).Sections (Changes racing env) := by
  unfold handleEvent
  by_cases ht : evType = evTypeAuth
  · rw [if_pos ht]
    exact hauth ht
  rw [if_neg ht]
  refine .ite (.modify fun _ _ => changeStateSection_changes) ?_
  refine .ite (.modify fun _ _ => changeCharacterSection_changes) ?_
  refine .ite (.modify fun _ _ => privateMessageSection_changes) ?_
  refine .ite (.modify fun _ _ => publicMessageSection_changes) ?_
  refine .ite (.bind (.read _) fun current => .ite ?_ (.ret _)) ?_
  · exact .bind (joinRoom_sections env (some p) e.roomid) fun _ => .ret _
  refine .ite (.modify fun s s' h => ?_) ?_
  · obtain ⟨node, -, rfl⟩ := Option.map_eq_some_iff.mp h
    exact .post s _
  refine .ite (.bind (leaveRoom_sections env (some p)) fun _ => .ret _) ?_
  refine .ite (.bind (.step fun _ _ _ => gooutSection_changes) fun node => ?_) ?_
  · cases node with
    | none => exact .ret _
    | some q => exact .bind (nodeDel_sections env (some q)) fun _ => .ret _
  refine .ite ?_ (.modify fun _ _ => luaExec_changes)
  refine .ite (.modify fun _ _ => shutupSection_changes) ?_
  refine .ite (.modify fun _ _ => moveSection_changes) ?_
  exact .ite (.modify fun _ _ => doingSection_changes) (.ret _)

theorem quit_sections (env : Env) (p : Addr) :
    (do let _ ← nodeDel env (some p); return () : Proc State Unit).Sections
      (Changes racing env) :=
  .bind (nodeDel_sections env (some p)) fun _ => .ret _

/-- Whatever the task, and whatever other threads do meanwhile. -/
theorem parseMessage_sections (lookup : Lookup) (env : Env) (task : Task) :
    (parseMessage lookup env task).Sections (Changes True env) := by
  unfold parseMessage
  refine .ite ?_ (quit_sections env task.client)
  split
  · exact .ret _
  · refine .ite (quit_sections env task.client) (.ite (.modify fun s s' h => ?_) ?_)
    · cases h
      exact .post s _
    · unfold parseEvent
      split
      · exact .ret _
      · refine .bind (.modify fun s s' h => ?_) fun _ => .bind (.read _) fun state => ?_
        · cases h
          exact .single (.clock s env.now)
        · exact handleEvent_sections lookup env task.client task.fd _ _ state fun _ =>
            authEvent_sections lookup env task.client task.fd _ state

/-- A task that is handled alone. -/
theorem parseMessage_changes {task : Task}
    (h : (parseMessage lookup env task).run s = some ((), s')) : Changes False env s s' := by
  rw [parseMessage_decode] at h
  split at h
  · exact (quit_sections env task.client).keeps _ _ _ h
  · cases h
    exact .refl
  · cases h
    exact .post s _
  · rename_i e hdecode
    unfold parseEvent at h
    split at h
    · cases h
      exact .refl
    · rename_i type htype
      obtain ⟨u, t, htick, h⟩ := Proc.run_bind_eq_some.mp h
      obtain ⟨state, t', hread, h⟩ := Proc.run_bind_eq_some.mp h
      cases htick
      obtain ⟨hstate, rfl⟩ := Proc.run_read_eq_some.mp hread
      obtain ⟨c, hp, rfl⟩ := Option.map_eq_some_iff.mp hstate
      refine .head (.clock s env.now) ?_
      by_cases ht : atoi type = evTypeAuth
      · rw [handleEvent, if_pos ht] at h
        exact authEvent_changes hp h
      · exact (handleEvent_sections lookup env task.client task.fd _ _ c.state
          fun hauth => absurd hauth ht).keeps _ _ _ h

/-! ## Actions -/

theorem act_changes (h : act lookup env s a = some s') :
    Changes False env s s' ∨ ∃ fd node, a = .accept fd node ∧ acceptClient fd node s = some s' := by
  have hclock : Changes False env s (s.tick env.now) := .single (.clock s env.now)
  cases a with
  | accept fd node => exact Or.inr ⟨fd, node, rfl, h⟩
  | input fd =>
    obtain ⟨p, -, h⟩ := Option.bind_eq_some_iff.mp h
    obtain ⟨c, hp, rfl⟩ := Option.map_eq_some_iff.mp h
    exact Or.inl (hclock.trans (Changes.write hp (.of_same rfl rfl rfl rfl rfl)))
  | task fd recvBits data =>
    obtain ⟨p, -, h⟩ := Option.bind_eq_some_iff.mp h
    obtain ⟨⟨u, t⟩, hrun, rfl⟩ := Option.map_eq_some_iff.mp h
    exact Or.inl (parseMessage_changes hrun)
  | idle i =>
    simp only [act, heartbeatAt] at h
    split at h
    · cases h
      exact Or.inl hclock
    · obtain ⟨c, -, h⟩ := Option.bind_eq_some_iff.mp h
      split at h
      · obtain ⟨⟨x, t⟩, hdel, rfl⟩ := Option.map_eq_some_iff.mp h
        exact Or.inl (hclock.trans ((nodeDel_sections env _).keeps _ _ _ hdel))
      · cases h
        exact Or.inl hclock

/-- No change makes a record. -/
theorem Change.heap_old (h : Change racing env s t) (hq : t.heap q = some d) :
    ∃ c, s.heap q = some c := by
  have hset : ∀ p c' d', s.heap p = some c' → (s.setClient p d').heap q = some d →
      ∃ c, s.heap q = some c := by
    intro p c' d' hp hq
    rcases update_eq_some hq with ⟨rfl, -⟩ | ⟨-, hq⟩
    · exact ⟨c', hp⟩
    · exact ⟨d, hq⟩
  cases h with
  | post l => exact ⟨d, hq⟩
  | clock now => exact ⟨d, hq⟩
  | chain i chain => exact ⟨d, hq⟩
  | unlink r fd l hl => exact ⟨d, hq⟩
  | write p c d' hp hd => exact hset p c d' hp hq
  | rename p c d' hp hd hrace => exact hset p c d' hp hq
  | login p c name hp hname => exact hset p c _ hp hq
  | enter p c r hp hr hen => exact hset p c _ hp hq
  | free p c hp =>
    by_cases hqp : q = p
    · exact ⟨c, hqp ▸ hp⟩
    · exact ⟨d, by simpa [State.freed, hqp] using hq⟩

theorem Changes.heap_old (h : Changes racing env s t) (hq : t.heap q = some d) :
    ∃ c, s.heap q = some c := by
  induction h generalizing d with
  | refl => exact ⟨d, hq⟩
  | tail _ hchange ih =>
    obtain ⟨c, hc⟩ := hchange.heap_old hq
    exact ih hc

/-- Every record of a given run was made when a client connected. -/
theorem actAll_heap_old {acts : List (Env × Action)} (h : actAll s acts = some t)
    (hq : t.heap q = some d) :
    (∃ c, s.heap q = some c) ∨ ∃ env fd, (env, .accept fd q) ∈ acts := by
  induction acts generalizing s with
  | nil =>
    cases h
    exact Or.inl ⟨d, hq⟩
  | cons x rest ih =>
    obtain ⟨env, a⟩ := x
    obtain ⟨u, hact, hrest⟩ := Option.bind_eq_some_iff.mp h
    rcases ih hrest with ⟨c, hc⟩ | ⟨env', fd, hmem⟩
    · rcases act_changes hact with hchanges | ⟨fd, node, rfl, hacc⟩
      · exact Or.inl (hchanges.heap_old hc)
      · obtain ⟨-, rfl⟩ := acceptClient_eq_some hacc
        rcases update_eq_some hc with ⟨rfl, -⟩ | ⟨-, hold⟩
        · exact Or.inr ⟨env, fd, List.mem_cons_self⟩
        · exact Or.inl ⟨c, hold⟩
    · exact Or.inr ⟨env', fd, List.mem_cons_of_mem _ hmem⟩

end ArpgServer
