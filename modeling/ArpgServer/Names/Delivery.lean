import ArpgServer.Names.Addressing

/-!
# Messages and commands that name a client

A private message goes back to its sender and on to the client that the name leads to; the
two commands of an administrator remove or silence that client. Where names lead to the
clients that are authenticated under them, these are the clients that are concerned.
-/

namespace ArpgServer

open CText

variable {lookup : Lookup} {env : Env} {s s' : State} {p q : Addr} {c d : Client} {fd : Nat}
  {e : Event} {name : Bytes} {task : Task}

/-! ## The three handlers -/

theorem handleEvent_privateMessage :
    handleEvent lookup env p fd e evTypePrivateMessage c.state =
      if c.state = .success ∧ (e.attr .target).isSome ∧ (e.localBody env).isNull = false then
        Proc.modify (privateMessageSection lookup env p fd e (e.localBody env))
      else if c.state = .success then .ret ()
      else Proc.modify (luaExec env fd (env.ezxmlToxml e)) := by
  unfold handleEvent
  simp [evTypePrivateMessage, evTypeAuth, evTypeUserChangeState, evTypeChangeCharacter,
    evTypePublicMessage, evTypeChangeRoom, evTypeGetRoomList, evTypeLeaveRoom,
    evTypeAdminCommandGoout, evTypeAdminCommandShutup, evTypeMove, evTypeDoing]
  rfl

theorem handleEvent_goout :
    handleEvent lookup env p fd e evTypeAdminCommandGoout c.state =
      if c.state = .success then gooutEvent lookup env p fd e
      else Proc.modify (luaExec env fd (env.ezxmlToxml e)) := by
  unfold handleEvent
  by_cases hc : c.state = .success <;>
    simp [hc, evTypePrivateMessage, evTypeAuth, evTypeUserChangeState, evTypeChangeCharacter,
      evTypePublicMessage, evTypeChangeRoom, evTypeGetRoomList, evTypeLeaveRoom,
      evTypeAdminCommandGoout]

theorem handleEvent_shutup :
    handleEvent lookup env p fd e evTypeAdminCommandShutup c.state =
      if c.state = .success then Proc.modify (shutupSection lookup env p fd e)
      else Proc.modify (luaExec env fd (env.ezxmlToxml e)) := by
  unfold handleEvent
  simp [evTypePrivateMessage, evTypeAuth, evTypeUserChangeState, evTypeChangeCharacter,
    evTypePublicMessage, evTypeChangeRoom, evTypeGetRoomList, evTypeLeaveRoom,
    evTypeAdminCommandGoout, evTypeAdminCommandShutup]

/-- A private message goes to its sender and to the client its name leads to. -/
theorem privateMessageSection_sends {body : LocalPtr} (hp : s.heap p = some c) (hfd : c.fd = fd)
    (hterm : c.username.terminated = true) (ht : e.attr .target = some name)
    (h : privateMessageSection lookup env p fd e body s = some s') :
    ∃ l, s' = s.post l ∧
      (∀ m ∈ l, m.fd = fd ∨ ∃ q d, targetOf lookup env p c name s = some (some q) ∧
        s.heap q = some d ∧ m.fd = d.fd) ∧
      (c.type ≠ clientTypeShutup → ∀ text, body.deref = some text → ∀ q d,
        targetOf lookup env p c name s = some (some q) → s.heap q = some d →
          ⟨d.fd, [.privateMessage c.username.text name s.mytimestamp text]⟩ ∈ l) := by
  simp only [privateMessageSection, ht, hp, CharArray.strcmp_of_terminated hterm,
    CharArray.read_of_terminated hterm, Option.bind_some] at h
  unfold targetOf
  rw [CharArray.strcmp_of_terminated hterm, Option.bind_some]
  split at h
  · rename_i hmuted
    cases h
    exact ⟨_, rfl, by simp, fun hne => absurd hmuted hne⟩
  split at h
  · rename_i hself
    obtain ⟨text, htext, rfl⟩ := Option.map_eq_some_iff.mp h
    refine ⟨_, rfl, by simp, fun _ text' htext' q d hq hd => ?_⟩
    rw [if_pos hself] at hq
    cases hq
    rw [htext] at htext'
    cases htext'
    rw [hp] at hd
    cases hd
    simp [hfd]
  · rename_i hself
    obtain ⟨node, hnode, h⟩ := Option.bind_eq_some_iff.mp h
    simp only [if_neg hself, hnode]
    cases node with
    | none =>
      cases h
      exact ⟨_, rfl, by simp, by simp⟩
    | some q =>
      obtain ⟨d, hd, h⟩ := Option.bind_eq_some_iff.mp h
      obtain ⟨text, htext, rfl⟩ := Option.map_eq_some_iff.mp h
      rw [State.sendMessage, State.sendMessage, State.post_post]
      refine ⟨_, rfl, ?_, fun _ text' htext' q' d' hq' hd' => ?_⟩
      · intro m hm
        rcases List.mem_append.mp hm with hm | hm
        · rw [List.mem_singleton.mp hm]
          exact Or.inr ⟨q, d, rfl, hd, rfl⟩
        · rw [List.mem_singleton.mp hm]
          exact Or.inl rfl
      · cases hq'
        rw [hd] at hd'
        cases hd'
        rw [htext] at htext'
        cases htext'
        simp

/-- The command removes the client its name leads to and no other one. -/
theorem GooutEffect.heap_none (hs : Sound s) (hq : s.heap q = some d)
    (h : GooutEffect env s s' q d) (k : Addr) (hk : (s.heap k).isSome) :
    s'.heap k = none ↔ k = q := by
  obtain ⟨l, -, hrem⟩ := h
  have hql : (s.post l).heap q = some d := hq
  rw [hrem.heap_eq (hs.post l) hql]
  by_cases hkq : k = q
  · simp [hkq]
  · simp only [Function.update_of_ne hkq, hkq, iff_false]
    exact Option.isSome_iff_ne_none.mp hk

/-- The command changes the type of the client its name leads to and of no other one. -/
theorem ShutupEffect.type_ne (hq : s.heap q = some d) (h : ShutupEffect s s' q d) (k : Addr) :
    (s'.heap k).map Client.type ≠ (s.heap k).map Client.type ↔ k = q := by
  obtain ⟨type, l, htype, -, rfl⟩ := h
  by_cases hkq : k = q
  · subst hkq
    simp [hq, htype]
  · simp [hkq]

/-! ## Names lead to the right clients -/

/-- The client registered at the descriptor of a task, with the record `c`, sends an event
of a type in it, and the task is handled. -/
structure Handled (env : Env) (s : State) (task : Task) (c : Client) (e : Event) (evType : Int)
    (s' : State) : Prop where
  registered : s.fdClients task.fd = some task.client
  record : s.heap task.client = some c
  decoded : task.decode env = .event e
  type : e.evType = some evType
  run : (parseMessage (getFdnodeByname env) env task).run s = some ((), s')

/-- What names lead to, in lookups and in the messages that use them. -/
structure Addressed (s : State) : Prop where
  found : ∀ env name q, AuthenticatedAs s name q →
    getFdnodeByname env s name (-1) = some (some q)
  missing : ∀ env name, (∀ q, ¬ AuthenticatedAs s name q) →
    getFdnodeByname env s name (-1) = some none
  told : ∀ env task c e name s', Handled env s task c e evTypePrivateMessage s' →
    e.attr .target = some name → ∃ l, s' = (s.tick env.now).post l ∧
      (∀ m ∈ l, m.fd = task.fd ∨ ∃ q, s.fdClients m.fd = some q ∧ AuthenticatedAs s name q) ∧
      (c.state = .success → c.type ≠ clientTypeShutup → ∀ text, e.body = some text →
        ∀ k q, s.fdClients k = some q → AuthenticatedAs s name q →
          ⟨k, [.privateMessage c.username.text name env.now text]⟩ ∈ l)
  removed : ∀ env task c e name s', Handled env s task c e evTypeAdminCommandGoout s' →
    e.attr .username = some name → ∀ q, (s.heap q).isSome →
      (s'.heap q = none ↔
        c.state = .success ∧ c.type = clientTypeAdmin ∧ AuthenticatedAs s name q)
  silenced : ∀ env task c e name s', Handled env s task c e evTypeAdminCommandShutup s' →
    e.attr .username = some name → ∀ q,
      ((s'.heap q).map Client.type ≠ (s.heap q).map Client.type ↔
        c.state = .success ∧ c.type = clientTypeAdmin ∧ AuthenticatedAs s name q)

theorem Handled.handle {evType : Int} (h : Handled env s task c e evType s') :
    (handleEvent (getFdnodeByname env) env task.client task.fd e evType c.state).run
      (s.tick env.now) = some ((), s') :=
  parseEvent_handle h.record h.type (parseMessage_event h.decoded h.run)

theorem AuthenticatedAs.unique (hsingle : SingleSession s) (hp : AuthenticatedAs s name p)
    (hq : AuthenticatedAs s name q) : p = q := by
  obtain ⟨k, c, hk, hc, hcs, hcn⟩ := hp
  obtain ⟨k', d, hk', hd, hds, hdn⟩ := hq
  exact hsingle k k' p q c d hk hk' hc hd hcs hds (hcn.trans hdn.symm)

namespace Addressable

/-- The name in a message or a command of an authenticated client leads to the client that
is authenticated under it. -/
theorem target_iff (hs : Sound s) (hsize : 0 < s.hashSize) (hsingle : SingleSession s)
    (h : Addressable s) (hp : s.heap p = some c) (hc : c.state = .success) :
    targetOf (getFdnodeByname env) env p c name s = some (some q) ↔ AuthenticatedAs s name q := by
  refine ⟨h.of_target hs hsize hsingle hp hc, fun hq => ?_⟩
  unfold targetOf
  rw [CharArray.strcmp_of_terminated (h.terminated hp hc), Option.bind_some]
  split
  · rename_i hself
    have hp' : AuthenticatedAs s name p :=
      ⟨c.fd, c, hs.current p c hp, hp, hc, beq_iff_eq.mp hself⟩
    rw [hp'.unique hsingle hq]
  · exact h.found hs hsize hsingle env hq

/-- What a command does is decided by who is authenticated under its name. -/
theorem command_iff (hs : Sound s) (hsize : 0 < s.hashSize) (hsingle : SingleSession s)
    (h : Addressable s) (hp : s.heap p = some c) (hc : c.state = .success)
    (hu : e.attr .username = some name) {effect : Addr → Client → Prop} {changed : Prop}
    (hcommand : CommandEffect (getFdnodeByname env) env p c fd e s s' effect)
    (hpost : ∀ l, s' = s.post l → ¬ changed)
    (heffect : ∀ k d, s.heap k = some d → effect k d → (changed ↔ q = k)) :
    changed ↔ c.type = clientTypeAdmin ∧ AuthenticatedAs s name q := by
  cases hcommand with
  | answered l hl hs' hnone =>
    refine ⟨fun hq => absurd hq (hpost l hs'), ?_⟩
    rintro ⟨hadmin, hq⟩
    have htarget : targetOf (getFdnodeByname env) env p c name s = some (some q) :=
      (h.target_iff hs hsize hsingle hp hc).mpr hq
    rw [hnone hadmin name hu] at htarget
    cases htarget
  | obeyed username k d hadmin hu' ht hk heff =>
    rw [hu] at hu'
    cases hu'
    have hnamed := h.of_target hs hsize hsingle hp hc ht
    rw [heffect k d hk heff]
    constructor
    · rintro rfl
      exact ⟨hadmin, hnamed⟩
    · rintro ⟨-, hq⟩
      exact hq.unique hsingle hnamed

theorem told (hs : Sound s) (hsize : 0 < s.hashSize) (hsingle : SingleSession s)
    (h : Addressable s) (hhandled : Handled env s task c e evTypePrivateMessage s')
    (ht : e.attr .target = some name) : ∃ l, s' = (s.tick env.now).post l ∧
      (∀ m ∈ l, m.fd = task.fd ∨ ∃ q, s.fdClients m.fd = some q ∧ AuthenticatedAs s name q) ∧
      (c.state = .success → c.type ≠ clientTypeShutup → ∀ text, e.body = some text →
        ∀ k q, s.fdClients k = some q → AuthenticatedAs s name q →
          ⟨k, [.privateMessage c.username.text name env.now text]⟩ ∈ l) := by
  have hrun := hhandled.handle
  have hp : (s.tick env.now).heap task.client = some c := hhandled.record
  have hs₁ := hs.tick env.now
  have h₁ := h.of_sameFaces (.tick s env.now)
  rw [handleEvent_privateMessage] at hrun
  split at hrun
  · rename_i hcond
    obtain ⟨x, hx, hfd⟩ := hs.registered _ _ hhandled.registered
    rw [hhandled.record] at hx
    cases hx
    have htarget : ∀ q, targetOf (getFdnodeByname env) env task.client c name (s.tick env.now) =
        some (some q) ↔ AuthenticatedAs s name q := fun q =>
      h₁.target_iff hs₁ hsize hsingle hp hcond.1
    obtain ⟨l, hl, hto, hsent⟩ := privateMessageSection_sends hp hfd
      (h.terminated hhandled.record hcond.1) ht (Proc.run_modify_eq_some.mp hrun)
    refine ⟨l, hl, fun m hm => ?_, fun hc htype text hbody k q hk hq => ?_⟩
    · rcases hto m hm with hfd | ⟨q, d, hq, hd, hmd⟩
      · exact Or.inl hfd
      · exact Or.inr ⟨q, hmd ▸ hs.current q d hd, (htarget q).mp hq⟩
    · obtain ⟨d, hd, hdfd⟩ := hs.registered k q hk
      have hderef : (e.localBody env).deref = some text := by
        simp [Event.localBody, hbody, LocalPtr.deref]
      rw [← hdfd]
      exact hsent htype text hderef q d ((htarget q).mpr hq) hd
  · rename_i hcond
    split at hrun
    · cases hrun
      refine ⟨[], by simp, by simp, fun hc htype text hbody => absurd ⟨hc, ?_, ?_⟩ hcond⟩
      · rw [ht, Option.isSome_some]
      · simp [Event.localBody, hbody, LocalPtr.isNull]
    · rename_i hc
      obtain ⟨l, hl, hfd⟩ := luaExec_effect (Proc.run_modify_eq_some.mp hrun)
      exact ⟨l, hl, fun m hm => Or.inl (hfd m hm).1, fun hc' => absurd hc' hc⟩

theorem addressed (hs : Sound s) (hsize : 0 < s.hashSize) (hsingle : SingleSession s)
    (h : Addressable s) : Addressed s where
  found env name q hq := h.found hs hsize hsingle env hq
  missing env name hno := h.missing hs hsize env hno
  told env task c e name s' hhandled ht := h.told hs hsize hsingle hhandled ht
  removed := by
    intro env task c e name s' hhandled hu q hq
    have hrun := hhandled.handle
    have hp : (s.tick env.now).heap task.client = some c := hhandled.record
    have h₁ := h.of_sameFaces (.tick s env.now)
    have hkept : ∀ l, s' = (s.tick env.now).post l → ¬ s'.heap q = none := by
      rintro l rfl
      exact Option.isSome_iff_ne_none.mp hq
    rw [handleEvent_goout] at hrun
    split at hrun
    · rename_i hc
      have hcommand := gooutEvent_effect (hs.tick env.now) hp hrun
      have hiff := h₁.command_iff (hs.tick env.now) hsize hsingle hp hc hu hcommand hkept
        fun k d hk heff => heff.heap_none (hs.tick env.now) hk q hq
      rw [hiff, and_iff_right hc]
      rfl
    · rename_i hc
      obtain ⟨l, hl, -⟩ := luaExec_effect (Proc.run_modify_eq_some.mp hrun)
      exact ⟨fun hnone => absurd hnone (hkept l hl), fun hadmin => absurd hadmin.1 hc⟩
  silenced := by
    intro env task c e name s' hhandled hu q
    have hrun := hhandled.handle
    have hp : (s.tick env.now).heap task.client = some c := hhandled.record
    have h₁ := h.of_sameFaces (.tick s env.now)
    have hkept : ∀ l, s' = (s.tick env.now).post l →
        ¬ (s'.heap q).map Client.type ≠ (s.heap q).map Client.type := by
      rintro l rfl
      exact not_not.mpr rfl
    rw [handleEvent_shutup] at hrun
    split at hrun
    · rename_i hc
      have hcommand := shutupSection_effect hp (Proc.run_modify_eq_some.mp hrun)
      have hiff := h₁.command_iff (hs.tick env.now) hsize hsingle hp hc hu hcommand hkept
        fun k d hk heff => heff.type_ne hk q
      rw [hiff, and_iff_right hc]
      rfl
    · rename_i hc
      obtain ⟨l, hl, -⟩ := luaExec_effect (Proc.run_modify_eq_some.mp hrun)
      exact ⟨fun hne => absurd hne (hkept l hl), fun hadmin => absurd hadmin.1 hc⟩

end Addressable

/-- **Names lead to the right clients**, in the runs in which no login takes a name that is
in use. -/
theorem addressed_of_runs (h : Runs (byTable FreshName) s) : Addressed s := by
  obtain ⟨hs, hsize, hsingle, haddr⟩ := h.addressable
  exact haddr.addressed hs hsize hsingle

/-- A guest takes the name of one that has left. -/
def nextGuest : List (Env × Action) :=
  [connect 5 100, connect 6 200, deliver 0 5 guestLogin, hangUp 5, deliver 0 6 guestLogin]

theorem nextGuest_freshName {i : Nat} (hi : i < nextGuest.length)
    (ht : actAll (State.start fun _ => lobbyConf) (nextGuest.take i) = some t) :
    FreshName nextGuest[i].1 t nextGuest[i].2 := by
  intro p c c' hends
  have hold : ∀ q d, t.heap q = some d → q = 100 ∨ q = 200 := by
    intro q d hq
    obtain ⟨env, fd, hmem⟩ := actAll_take_heap ht hq
    simp only [nextGuest, connect, deliver, hangUp, List.mem_cons, Prod.mk.injEq,
      Action.accept.injEq, reduceCtorEq, and_false, List.not_mem_nil, or_false] at hmem
    exact hmem.imp (fun h => h.2.2) fun h => h.2.2
  have hlen : i < 5 := hi
  rcases i with _ | _ | _ | _ | _ | i
  · exact (connect_checks hends).elim
  · exact (connect_checks hends).elim
  · have hcheck : (actAll (State.start fun _ => lobbyConf) (nextGuest.take 2)).all (fun t =>
        (t.heap 100).all (fun d => d.state = .wait) ∧
          (t.heap 200).all (fun d => d.state = .wait)) := by
      decide +kernel
    rw [ht, Option.all_some] at hcheck
    obtain ⟨hwait, hwait'⟩ := of_decide_eq_true hcheck
    obtain ⟨-, -, hout⟩ := guestLogin_checks hends
    cases hout
    refine ⟨authAnonymous_terminated c _, fun q d _ hq hd => ?_⟩
    have hidle : d.state = .wait := by
      rcases hold q d hq with rfl | rfl
      · rw [hq, Option.all_some] at hwait
        exact of_decide_eq_true hwait
      · rw [hq, Option.all_some] at hwait'
        exact of_decide_eq_true hwait'
    rw [hd] at hidle
    cases hidle
  · obtain ⟨fd, recvBits, data, e, ha, -, -, hdecode, -⟩ := hends
    cases ha
    simp [Task.decode] at hdecode
  · have hcheck : (actAll (State.start fun _ => lobbyConf) (nextGuest.take 4)).all (fun t =>
        t.fdClients 6 = some 200 ∧ (t.heap 100).isNone) := by
      decide +kernel
    rw [ht, Option.all_some] at hcheck
    obtain ⟨h6, hgone⟩ := of_decide_eq_true hcheck
    obtain ⟨hfd, -, hout⟩ := guestLogin_checks hends
    cases hout
    rw [h6] at hfd
    cases hfd
    refine ⟨authAnonymous_terminated c _, fun q d hqp hq _ => ?_⟩
    have hfirst : q = 100 := (hold q d hq).resolve_right hqp
    rw [hfirst, Option.isNone_iff_eq_none.mp hgone] at hq
    cases hq
  · omega

/-- The name leads to the guest that has taken it over. -/
theorem addressed_of_runs_guests : ∃ s,
    actAll (State.start fun _ => lobbyConf) nextGuest = some s ∧
      AuthenticatedAs s (guestName 0) 200 ∧ Addressed s := by
  have hcheck : (actAll (State.start fun _ => lobbyConf) nextGuest).any (fun s =>
      s.fdClients 6 = some 200 ∧
        (s.heap 200).any fun c => c.state = .success ∧ c.username.text = guestName 0) := by
    decide +kernel
  obtain ⟨s, hrun, hs⟩ := (Option.any_eq_true _ _).mp hcheck
  obtain ⟨h6, h200⟩ := of_decide_eq_true hs
  obtain ⟨c, hc, hcs⟩ := (Option.any_eq_true _ _).mp h200
  obtain ⟨hstate, hname⟩ := of_decide_eq_true hcs
  refine ⟨s, hrun, ⟨6, c, h6, hc, hstate, hname⟩, addressed_of_runs (runs_of_takes ?_ hrun)⟩
  intro i hi t ht _
  exact ⟨rfl, nextGuest_freshName hi ht⟩

/-- Two guests of one name: the name leads to the first one, who waits. -/
theorem addressed_not_kept : ¬ ∀ s, Reachable s → Addressed s := by
  intro haddr
  have hcheck : (actAll (State.start fun _ => lobbyConf) [connect 5 100, connect 6 200,
      deliver 0 5 guestLogin, deliver 0 6 guestLogin]).any
        (fun s => (s.fdClients 6 = some 200 ∧
          (s.heap 200).any fun c => c.state = .success ∧ c.username.text = guestName 0) ∧
          getFdnodeByname (.delivering 0 guestLogin) s (guestName 0) (-1) = some (some 100)) := by
    decide +kernel
  obtain ⟨s, hrun, hs⟩ := (Option.any_eq_true _ _).mp hcheck
  obtain ⟨⟨h6, h200⟩, hfound⟩ := of_decide_eq_true hs
  obtain ⟨c, hc, hcs⟩ := (Option.any_eq_true _ _).mp h200
  obtain ⟨hstate, hname⟩ := of_decide_eq_true hcs
  rw [(haddr s (reachable_of_actAll hrun)).found _ _ 200 ⟨6, c, h6, hc, hstate, hname⟩] at hfound
  cases hfound

end ArpgServer
