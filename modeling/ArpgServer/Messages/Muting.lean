import ArpgServer.Messages.Credentials
import ArpgServer.Messages.Supplied
import ArpgServer.Names.Delivery

/-!
# Muting and unmuting

The type of a client is its role and tells at the same time that it is muted. The command that
mutes a client writes over the role, and the same command writes `CLIENT_TYPE_NONE` when it is
given again. What clients do in between leaves all types alone.
-/

namespace ArpgServer

open CText

variable {env env' : Env} {s s' t : State} {p q : Addr} {c c' d : Client} {e e' : Event}
  {task task' : Task} {lookup : Lookup} {fd : Nat} {username username' : Bytes}

/-! ## The command -/

/-- An administrator gives the command, with a name that leads to the client at `q`. -/
structure Silences (env : Env) (s : State) (task : Task) (c : Client) (e : Event)
    (username : Bytes) (q : Addr) (s' : State) : Prop
    extends Handled env s task c e evTypeAdminCommandShutup s' where
  state : c.state = .success
  admin : c.type = clientTypeAdmin
  named : e.attr .username = some username
  target : targetOf (getFdnodeByname env) env task.client c username s = some (some q)

/-- The type that the command writes. -/
def toggledType (type : Int) : Int :=
  if type ≠ clientTypeShutup then clientTypeShutup else clientTypeNone

theorem shutupSection_target (hp : s.heap p = some c) (hadmin : c.type = clientTypeAdmin)
    (hu : e.attr .username = some username)
    (ht : targetOf lookup env p c username s = some (some q)) (hq : s.heap q = some d)
    (h : shutupSection lookup env p fd e s = some s') :
    ∃ l, s' = (s.setClient q { d with type := toggledType d.type }).post l := by
  have hright : ¬ c.type ≠ clientTypeAdmin := not_not.mpr hadmin
  simp only [shutupSection, hp, Option.bind_some, if_neg hright, hu, ht, hq] at h
  obtain ⟨name, -, h⟩ := Option.bind_eq_some_iff.mp h
  unfold toggledType
  split at h
  · rename_i htype
    obtain ⟨l, rfl, -⟩ := sendMessageAll_post h
    exact ⟨l, by rw [if_pos htype]⟩
  · rename_i htype
    obtain ⟨l, rfl, -⟩ := sendMessageAll_post h
    exact ⟨l, by rw [if_neg htype]⟩

theorem Silences.toggles (h : Silences env s task c e username q s') (hq : s.heap q = some d) :
    ∃ d', s'.heap q = some d' ∧ d'.type = toggledType d.type := by
  have hrun := h.toHandled.handle
  rw [handleEvent_shutup, if_pos h.state] at hrun
  have hp : (s.tick env.now).heap task.client = some c := h.record
  have hq' : (s.tick env.now).heap q = some d := hq
  have ht : targetOf (getFdnodeByname env) env task.client c username (s.tick env.now) =
      some (some q) :=
    (targetOf_tick username env.now).trans h.target
  obtain ⟨l, rfl⟩ := shutupSection_target hp h.admin h.named ht hq'
    (Proc.run_modify_eq_some.mp hrun)
  exact ⟨{ d with type := toggledType d.type }, Function.update_self .., rfl⟩

/-! ## What happens in between -/

/-- A registered client sends a message that is no login, no logout and no command of an
administrator. -/
def Chatter (s s' : State) : Prop :=
  ∃ (env : Env) (task : Task), s.fdClients task.fd = some task.client ∧
    task.decode env ≠ .logout ∧
    (∀ e, task.decode env = .event e → e.evType ≠ some evTypeAuth ∧
      e.evType ≠ some evTypeAdminCommandGoout ∧ e.evType ≠ some evTypeAdminCommandShutup) ∧
    (parseMessage (getFdnodeByname env) env task).run s = some ((), s')

/-- No client loses its type. -/
def TypesKept (s s' : State) : Prop :=
  ∀ q d, s.heap q = some d → ∃ d', s'.heap q = some d' ∧ d'.type = d.type

theorem TypesKept.of_heap (h : s'.heap = s.heap) : TypesKept s s' := by
  intro q d hq
  exact ⟨d, by rw [h, hq], rfl⟩

theorem TypesKept.trans (h : TypesKept s t) (h' : TypesKept t s') : TypesKept s s' := by
  intro q d hq
  obtain ⟨d₁, hd₁, htype₁⟩ := h q d hq
  obtain ⟨d₂, hd₂, htype₂⟩ := h' q d₁ hd₁
  exact ⟨d₂, hd₂, htype₂.trans htype₁⟩

theorem TypesKept.of_update (hp : s.heap p = some c) (htype : d.type = c.type)
    (h : s'.heap = Function.update s.heap p (some d)) : TypesKept s s' := by
  intro q x hq
  rw [h]
  by_cases hqp : q = p
  · subst hqp
    obtain rfl : c = x := Option.some.inj (hp.symm.trans hq)
    exact ⟨d, Function.update_self .., htype⟩
  · exact ⟨x, (Function.update_of_ne hqp ..).trans hq, rfl⟩

theorem JoinEffect.typesKept (hs : Sound s) (hp : s.heap p = some c) {roomid : Int}
    (h : JoinEffect env p c roomid s s') : TypesKept s s' := by
  rcases h with ⟨l, -, rfl⟩ | ⟨r, l₁, l₂, -, -, -, -, -, -, rfl⟩
  · exact .of_heap rfl
  · apply TypesKept.of_update (d := { c with roomid := r }) hp rfl
    rw [State.post_heap, State.enter_heap, hs.vacate_heap hp, Function.update_idem]

theorem EventEffect.typesKept (hs : Sound s) (hp : s.heap p = some c)
    (hauth : e.evType ≠ some evTypeAuth) (hgoout : e.evType ≠ some evTypeAdminCommandGoout)
    (hshutup : e.evType ≠ some evTypeAdminCommandShutup)
    (h : EventEffect lookup env fd e p c s s') : TypesKept s s' := by
  cases h with
  | nothing h => exact .of_heap (by rw [h])
  | auth ht => exact absurd ht hauth
  | talk hc h =>
    obtain ⟨d, l, hcore, -, rfl⟩ := h
    exact .of_update hp hcore.type rfl
  | changeRoom hc h => exact h.typesKept hs hp
  | leaveRoom hc h =>
    obtain ⟨l, -, rfl⟩ := h
    exact .of_update (d := { c with roomid := -1 }) hp rfl (hs.vacate_heap hp)
  | goout hc ht => exact absurd ht hgoout
  | shutup hc ht => exact absurd ht hshutup
  | script hc h =>
    obtain ⟨l, rfl, -⟩ := h
    exact .of_heap rfl

theorem Chatter.typesKept (hs : Sound s) (h : Chatter s s') : TypesKept s s' := by
  obtain ⟨env, task, hreg, hlogout, hevent, hrun⟩ := h
  obtain ⟨c, hp, -⟩ := hs.registered task.fd task.client hreg
  cases hdecode : task.decode env with
  | logout => exact absurd hdecode hlogout
  | undecodable =>
    rw [parseMessage_decode, hdecode] at hrun
    cases hrun
    exact .of_heap rfl
  | ping =>
    rw [parseMessage_decode, hdecode] at hrun
    cases Proc.run_modify_eq_some.mp hrun
    exact .of_heap rfl
  | event e =>
    obtain ⟨hauth, hgoout, hshutup⟩ := hevent e hdecode
    have hparse := parseMessage_event hdecode hrun
    rcases parseEvent_effect hs (getFdnodeByname_registered env) hp hparse with rfl | heff
    · exact .of_heap rfl
    · have htick : TypesKept s (s.tick env.now) := .of_heap rfl
      exact htick.trans (heff.typesKept (hs.tick env.now) hp hauth hgoout hshutup)

/-! ## Muting and unmuting -/

theorem act_task (hreg : s.fdClients task.fd = some task.client)
    (h : (parseMessage lookup env task).run s = some ((), s')) :
    act lookup env s (.task task.fd task.recvBits task.data) = some s' := by
  simp only [act, hreg, Option.bind_some, h, Option.map_some]

theorem Chatter.sound (hs : Sound s) (h : Chatter s s') : Sound s' := by
  obtain ⟨env, task, hreg, -, -, hrun⟩ := h
  exact act_sound hs (getFdnodeByname_registered env) (act_task hreg hrun)

theorem chatter_run (hs : Sound s) (h : Relation.ReflTransGen Chatter s s') :
    Sound s' ∧ TypesKept s s' := by
  induction h with
  | refl => exact ⟨hs, .of_heap rfl⟩
  | tail _ hstep ih => exact ⟨hstep.sound ih.1, ih.2.trans (hstep.typesKept ih.1)⟩

/-- **Unmuting.** A client that is muted and unmuted has the type it had before exactly when
that was `CLIENT_TYPE_NONE`, whatever is sent in between. -/
theorem unmute_restores_iff {s₀ s₁ s₂ s₃ : State} (hs : Reachable s₀) (hq : s₀.heap q = some d)
    (hmuted : d.type ≠ clientTypeShutup) (h₁ : Silences env s₀ task c e username q s₁)
    (hchat : Relation.ReflTransGen Chatter s₁ s₂)
    (h₂ : Silences env' s₂ task' c' e' username' q s₃) :
    (s₃.heap q).map Client.type = some d.type ↔ d.type = clientTypeNone := by
  have hs₁ : Sound s₁ := act_sound hs.toAnyLookup.sound (getFdnodeByname_registered env)
    (act_task h₁.registered h₁.run)
  obtain ⟨d₁, hd₁, htype₁⟩ := h₁.toggles hq
  obtain ⟨d₂, hd₂, htype₂⟩ := (chatter_run hs₁ hchat).2 q d₁ hd₁
  obtain ⟨d₃, hd₃, htype₃⟩ := h₂.toggles hd₂
  have hmute : d₂.type = clientTypeShutup := by
    rw [htype₂, htype₁, toggledType, if_pos hmuted]
  have hunmute : d₃.type = clientTypeNone := by
    rw [htype₃, hmute, toggledType, if_neg (not_not.mpr rfl)]
  rw [hd₃, Option.map_some, hunmute]
  exact Option.some_inj.trans eq_comm

/-! ## Two administrators and a guest -/

/-- The users of the shipped `conf/user.lua`: four administrators. -/
def shippedUsers (name : Bytes) : LuaValue :=
  if name = ofString "dreamsxin" ∨ name = ofString "zyl" ∨ name = ofString "dreamszhu" ∨
      name = ofString "flora" then
    .table [(ofString "passwd", .string []), (ofString "role", .number 9 (ofString "9")),
      (ofString "salt", .string [])]
  else luaLibGlobal name

/-- The administrator `zyl`. -/
def zylLogin : Packet where
  data := [120, 156, 179, 73, 45, 75, 205, 43, 81, 40, 169, 44, 72, 181, 85, 55, 52, 80, 87, 40, 45,
    78, 45, 202, 75, 204, 5, 242, 170, 42, 115, 212, 21, 18, 147, 147, 243, 75, 243, 74, 108, 213,
    115, 43, 115, 82, 211, 74, 212, 21, 138, 51, 211, 243, 64, 188, 224, 136, 196, 252, 66, 255,
    130, 244, 12, 63, 87, 117, 133, 146, 204, 220, 212, 226, 146, 196, 220, 2, 144, 25, 6, 234, 250,
    118, 0, 50, 181, 29, 140]
  text := ofString
    "<event type='10' username='zyl' account='myleft' sign='mySXaoqOpghNE' timestamp='100'/>"
  event := .ofList [(.type, ofString "10"), (.username, ofString "zyl"),
    (.account, ofString "myleft"), (.sign, ofString "mySXaoqOpghNE"), (.timestamp, ofString "100")]

/-- The administrator `flora`. -/
def floraLogin : Packet where
  data := [120, 156, 21, 204, 49, 14, 128, 32, 12, 0, 192, 175, 116, 235, 40, 238, 234, 230, 170,
    131, 139, 107, 99, 10, 146, 80, 64, 169, 38, 252, 94, 25, 111, 185, 129, 95, 142, 10, 90, 51,
    143, 216, 27, 132, 167, 240, 29, 73, 126, 217, 144, 110, 66, 160, 227, 72, 79, 212, 17, 165, 6,
    182, 138, 80, 188, 139, 77, 219, 78, 233, 90, 179, 59, 151, 25, 65, 189, 112, 81, 146, 220, 22,
    131, 221, 244, 1, 112, 152, 30, 65]
  text := ofString
    "<event type='10' username='flora' account='myleft' sign='mySXaoqOpghNE' timestamp='100'/>"
  event := .ofList [(.type, ofString "10"), (.username, ofString "flora"),
    (.account, ofString "myleft"), (.sign, ofString "mySXaoqOpghNE"), (.timestamp, ofString "100")]

/-- The command for `flora`. -/
def silenceFlora : Packet where
  data := [120, 156, 179, 73, 45, 75, 205, 43, 81, 40, 169, 44, 72, 181, 85, 183, 52, 84, 87, 40,
    45, 78, 45, 202, 75, 204, 5, 242, 210, 114, 242, 139, 18, 213, 245, 237, 0, 216, 238, 11, 194]
  text := ofString "<event type='91' username='flora'/>"
  event := .ofList [(.type, ofString "91"), (.username, ofString "flora")]

/-- The command for a guest of midnight. -/
def silenceGuest : Packet where
  data := [120, 156, 179, 73, 45, 75, 205, 43, 81, 40, 169, 44, 72, 181, 85, 183, 52, 84, 87, 40,
    45, 78, 45, 202, 75, 204, 5, 242, 158, 237, 216, 241, 116, 221, 34, 3, 3, 3, 117, 125, 59, 0,
    31, 132, 14, 201]
  text := ofString "<event type='91' username='游客000'/>"
  event := .ofList [(.type, ofString "91"), (.username, ofString "游客000")]

/-- The signature is the same for all users: `crypt` reads eight bytes of the text. -/
def usersEnv (m : Packet) : Env :=
  { Env.delivering 100 m with
    crypt := fun text _ =>
      if ofString "myleft20" <+: text then some (ofString "mySXaoqOpghNE") else none
    accountLua := some shippedAccounts
    userLua := some shippedUsers }

/-- A packet of a user at time 100. -/
def sendsPacket (fd : Nat) (m : Packet) : Env × Action := (usersEnv m, .task fd 4 m.data)

/-- The command of the client at 5, which is an administrator and reaches the one at 6. -/
def obeys (m : Packet) (username : Bytes) (s : State) : Option State :=
  if s.fdClients 5 = some 100 ∧ ((s.heap 100).any fun c => c.state = .success ∧
      c.type = clientTypeAdmin ∧ targetOf (getFdnodeByname (usersEnv m)) (usersEnv m) 100 c username
        s = some (some 200)) then
    ((parseMessage (getFdnodeByname (usersEnv m)) (usersEnv m) ⟨5, 100, 4, m.data⟩).run s).map
      Prod.snd
  else none

theorem silences_of_obeys {m : Packet}
    (hdecode : Task.decode (usersEnv m) ⟨5, 100, 4, m.data⟩ = .event m.event)
    (htype : m.event.evType = some evTypeAdminCommandShutup)
    (hu : m.event.attr .username = some username) (h : obeys m username s = some s') :
    ∃ c, Silences (usersEnv m) s ⟨5, 100, 4, m.data⟩ c m.event username 200 s' := by
  obtain ⟨⟨hreg, hadmin⟩, h⟩ := Option.ite_none_right_eq_some.mp h
  obtain ⟨⟨u, t⟩, hrun, rfl⟩ := Option.map_eq_some_iff.mp h
  obtain ⟨c, hc, hcs⟩ := (Option.any_eq_true _ _).mp hadmin
  obtain ⟨hstate, htypeAdmin, htarget⟩ := of_decide_eq_true hcs
  exact ⟨c, ⟨hreg, hc, hdecode, htype, hrun⟩, hstate, htypeAdmin, hu, htarget⟩

/-- A guest is muted, tries to greet the room and is unmuted. -/
theorem unmute_restores_iff_guest : ∃ (s₀ s₁ s₂ s₃ : State) (c c' d : Client), Reachable s₀ ∧
    s₀.heap 200 = some d ∧
    Silences (usersEnv silenceGuest) s₀ ⟨5, 100, 4, silenceGuest.data⟩ c silenceGuest.event
      (guestName 0) 200 s₁ ∧ Chatter s₁ s₂ ∧
    Silences (usersEnv silenceGuest) s₂ ⟨5, 100, 4, silenceGuest.data⟩ c' silenceGuest.event
      (guestName 0) 200 s₃ ∧ (s₃.heap 200).map Client.type = some d.type := by
  have hcheck : (actAll (State.start fun _ => lobbyConf) [connect 5 100, connect 6 200,
      sendsPacket 5 zylLogin, deliver 0 6 guestLogin]).any (fun s₀ =>
        ((s₀.heap 200).any fun d => d.type = clientTypeNone) ∧
        (obeys silenceGuest (guestName 0) s₀).any fun s₁ => s₁.fdClients 6 = some 200 ∧
          ((parseMessage (getFdnodeByname (.delivering 101 greeting)) (.delivering 101 greeting)
            ⟨6, 200, 4, greeting.data⟩).run s₁).any fun r =>
              (obeys silenceGuest (guestName 0) r.2).isSome) := by
    decide +kernel
  obtain ⟨s₀, hrun, hs⟩ := (Option.any_eq_true _ _).mp hcheck
  obtain ⟨h200, hobeys⟩ := of_decide_eq_true hs
  obtain ⟨d, hd, htype⟩ := (Option.any_eq_true _ _).mp h200
  obtain ⟨s₁, hs₁, hmuted⟩ := (Option.any_eq_true _ _).mp hobeys
  obtain ⟨h6, hgreets⟩ := of_decide_eq_true hmuted
  obtain ⟨⟨u, s₂⟩, hs₂, hagain⟩ := (Option.any_eq_true _ _).mp hgreets
  obtain ⟨s₃, hs₃⟩ := Option.isSome_iff_exists.mp hagain
  have hdecode : Task.decode (usersEnv silenceGuest) ⟨5, 100, 4, silenceGuest.data⟩ =
      .event silenceGuest.event :=
    decode_packet (by decide +kernel) (by decide +kernel) 100 5 100
  have hcommand : silenceGuest.event.evType = some evTypeAdminCommandShutup := by decide +kernel
  have hname : silenceGuest.event.attr .username = some (guestName 0) := by decide +kernel
  obtain ⟨c, h₁⟩ := silences_of_obeys hdecode hcommand hname hs₁
  obtain ⟨c', h₂⟩ := silences_of_obeys hdecode hcommand hname hs₃
  have hgreeting : Task.decode (.delivering 101 greeting) ⟨6, 200, 4, greeting.data⟩ =
      .event greeting.event :=
    decode_packet (by decide +kernel) (by decide +kernel) 101 6 200
  have hchat : Chatter s₁ s₂ := by
    refine ⟨.delivering 101 greeting, ⟨6, 200, 4, greeting.data⟩, h6, ?_, ?_, hs₂⟩
    · rw [hgreeting]
      exact Decoded.noConfusion
    · intro e he
      rw [hgreeting] at he
      cases he
      decide +kernel
  have htype := of_decide_eq_true htype
  refine ⟨s₀, s₁, s₂, s₃, c, c', d, reachable_of_actAll hrun, hd, h₁, hchat, h₂, ?_⟩
  apply (unmute_restores_iff (reachable_of_actAll hrun) hd _ h₁ (.single hchat) h₂).mpr htype
  rw [htype]
  decide

/-- An administrator that is muted and unmuted is none any more. -/
theorem unmute_not_restored : ¬ ∀ (s₀ s₁ s₂ s₃ : State) (env env' : Env) (task task' : Task)
    (c c' d : Client) (e e' : Event) (username : Bytes) (q : Addr), Reachable s₀ →
    s₀.heap q = some d → d.type ≠ clientTypeShutup → q ≠ task.client →
    Silences env s₀ task c e username q s₁ → Relation.ReflTransGen Chatter s₁ s₂ →
    task'.client = task.client → Silences env' s₂ task' c' e' username q s₃ →
    (s₃.heap q).map Client.type = some d.type := by
  intro hall
  have hcheck : (actAll (State.start fun _ => lobbyConf) [connect 5 100, connect 6 200,
      sendsPacket 5 zylLogin, sendsPacket 6 floraLogin]).any (fun s₀ =>
        ((s₀.heap 200).any fun d => d.type = clientTypeAdmin) ∧
        (obeys silenceFlora (ofString "flora") s₀).any fun s₁ =>
          (obeys silenceFlora (ofString "flora") s₁).any fun s₃ =>
            (s₃.heap 200).map Client.type = some clientTypeNone) := by
    decide +kernel
  obtain ⟨s₀, hrun, hs⟩ := (Option.any_eq_true _ _).mp hcheck
  obtain ⟨h200, hobeys⟩ := of_decide_eq_true hs
  obtain ⟨d, hd, htype⟩ := (Option.any_eq_true _ _).mp h200
  obtain ⟨s₁, hs₁, hmuted⟩ := (Option.any_eq_true _ _).mp hobeys
  obtain ⟨s₃, hs₃, hnone⟩ := (Option.any_eq_true _ _).mp hmuted
  have hdecode : Task.decode (usersEnv silenceFlora) ⟨5, 100, 4, silenceFlora.data⟩ =
      .event silenceFlora.event :=
    decode_packet (by decide +kernel) (by decide +kernel) 100 5 100
  have hcommand : silenceFlora.event.evType = some evTypeAdminCommandShutup := by decide +kernel
  have hname : silenceFlora.event.attr .username = some (ofString "flora") := by decide +kernel
  obtain ⟨c, h₁⟩ := silences_of_obeys hdecode hcommand hname hs₁
  obtain ⟨c', h₂⟩ := silences_of_obeys hdecode hcommand hname hs₃
  have htype := of_decide_eq_true htype
  have hmuted : d.type ≠ clientTypeShutup := by
    rw [htype]
    decide
  have hrestored := hall s₀ s₁ s₁ s₃ _ _ _ _ c c' d _ _ _ 200 (reachable_of_actAll hrun) hd hmuted
    (by decide) h₁ .refl rfl h₂
  rw [of_decide_eq_true hnone, htype] at hrestored
  exact absurd hrestored (by decide)

end ArpgServer
