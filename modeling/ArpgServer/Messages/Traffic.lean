import ArpgServer.Messages.Causes
import ArpgServer.Messages.Muting

/-!
# The traffic of a run

All messages that the server has sent so far are in the state. Each was sent by one action of
the run, and the action and the state before it tell the reason. A client that has not logged
in hears nothing of the rooms: it is answered alone, or it logs in, or a private message finds
it under the name it had before.
-/

namespace ArpgServer

open CText

variable {lookup : Lookup} {env : Env} {s s' t : State} {p q : Addr} {c d : Client} {fd k : Nat}
  {e : Event} {a : Action} {m : Send} {allowed : Condition}

/-! ## Actions -/

/-- Why an action sends a message. -/
inductive Reason (lookup : Lookup) (env : Env) (s : State) : Action → Send → Prop where
  | pong (fd : Nat) (recvBits : Int) (data : Bytes) (p : Addr) (hfd : s.fdClients fd = some p)
      (hdecode : Task.decode env ⟨fd, p, recvBits, data⟩ = .ping) :
      Reason lookup env s (.task fd recvBits data) ⟨fd, [.pong]⟩
  | event (fd : Nat) (recvBits : Int) (data : Bytes) (p : Addr) (c : Client) (e : Event) (m : Send)
      (hfd : s.fdClients fd = some p) (hp : s.heap p = some c)
      (hdecode : Task.decode env ⟨fd, p, recvBits, data⟩ = .event e)
      (h : Cause lookup env (s.tick env.now) fd p c e m) :
      Reason lookup env s (.task fd recvBits data) m
  | removed (a : Action) (q : Addr) (d : Client) (m : Send) (hq : s.heap q = some d)
      (hwhy : Removes lookup env s a q) (h : Farewell env s q d m) : Reason lookup env s a m

theorem parseEvent_posts (hs : Sound s) (hl : lookup.Registered) (hp : s.heap p = some c)
    (hfd : c.fd = fd) (h : (parseEvent lookup env p fd e).run s = some ((), s')) :
    Posts (Cause lookup env (s.tick env.now) fd p c e) s s' := by
  cases ht : e.evType with
  | none =>
    have htype : e.attr .type = none := Option.map_eq_none_iff.mp ht
    unfold parseEvent at h
    rw [htype] at h
    cases h
    exact .of_sent rfl
  | some evType =>
    exact handleEvent_posts (hs.tick env.now) hl hp hfd ht (parseEvent_handle hp ht h)

theorem task_posts (hs : Sound s) (hl : lookup.Registered) {recvBits : Int} {data : Bytes}
    (h : act lookup env s (.task fd recvBits data) = some s') :
    Posts (Reason lookup env s (.task fd recvBits data)) s s' := by
  obtain ⟨p, hfd, h⟩ := Option.bind_eq_some_iff.mp h
  obtain ⟨⟨u, t⟩, hrun, rfl⟩ := Option.map_eq_some_iff.mp h
  obtain ⟨c, hp, hcfd⟩ := hs.registered fd p hfd
  generalize hdecode : Task.decode env ⟨fd, p, recvBits, data⟩ = x
  cases x with
  | logout =>
    obtain ⟨y, hdel⟩ := parseMessage_logout hdecode hrun
    refine ((nodeDel_effect hs hp hdel).posts hs hp).mono fun m hm => ?_
    exact .removed _ p c m hp (.logout fd recvBits data p hfd hdecode) hm
  | undecodable =>
    rw [parseMessage_decode, hdecode] at hrun
    cases hrun
    exact .of_sent rfl
  | ping =>
    rw [parseMessage_decode, hdecode] at hrun
    cases Proc.run_modify_eq_some.mp hrun
    exact .single (.pong fd recvBits data p hfd hdecode) rfl
  | event e =>
    refine (parseEvent_posts hs hl hp hcfd (parseMessage_event hdecode hrun)).mono fun m hm => ?_
    exact .event fd recvBits data p c e m hfd hp hdecode hm

theorem act_posts (hs : Sound s) (hl : lookup.Registered) (h : act lookup env s a = some s') :
    Posts (Reason lookup env s a) s s' := by
  cases a with
  | accept fd node =>
    obtain ⟨-, rfl⟩ := acceptClient_eq_some h
    exact .of_sent rfl
  | input fd =>
    obtain ⟨p, -, h⟩ := Option.bind_eq_some_iff.mp h
    obtain ⟨c, -, rfl⟩ := Option.map_eq_some_iff.mp h
    exact .of_sent rfl
  | task fd recvBits data => exact task_posts hs hl h
  | idle i =>
    simp only [act, heartbeatAt] at h
    split at h
    · cases h
      exact .of_sent rfl
    · rename_i q hfd
      obtain ⟨d, hq, h⟩ := Option.bind_eq_some_iff.mp h
      split at h
      · rename_i hidle
        obtain ⟨⟨x, t⟩, hdel, rfl⟩ := Option.map_eq_some_iff.mp h
        have hremove := nodeDel_effect (hs.tick env.now) hq hdel
        refine (hremove.posts (hs.tick env.now) hq).mono fun m hm => ?_
        refine .removed _ q d m hq (.idle i q d hfd hq hidle) ?_
        cases hm with
        | told name k hname hk hne => exact .told name k hname hk hne
      · cases h
        exact .of_sent rfl

/-! ## Runs -/

theorem Runs.sound_of (hallowed : ∀ lookup env s a, allowed lookup env s a → lookup.Registered)
    (h : Runs allowed s) : Sound s :=
  (h.mono hallowed).sound

/-- The message at a place of the log was sent by one step of the run, with a reason. -/
theorem Runs.origin (hallowed : ∀ lookup env s a, allowed lookup env s a → lookup.Registered)
    (h : Runs allowed s) {i : Nat} (hm : s.sent[i]? = some m) :
    ∃ (lookup : Lookup) (env : Env) (a : Action) (t t' : State), Runs allowed t ∧
      allowed lookup env t a ∧ act lookup env t a = some t' ∧
      Relation.ReflTransGen (Step allowed) t' s ∧ t.sent.length ≤ i ∧ t'.sent[i]? = some m ∧
      Reason lookup env t a m := by
  obtain ⟨conf, h⟩ := h
  induction h with
  | refl => cases hm
  | @tail t s hrun hstep ih =>
    obtain ⟨lookup, env, a, hallow, hact⟩ := hstep
    have hruns : Runs allowed t := ⟨conf, hrun⟩
    obtain ⟨l, hl, hreason⟩ := act_posts (hruns.sound_of hallowed) (hallowed _ _ _ _ hallow) hact
    by_cases hi : i < t.sent.length
    · rw [hl, List.getElem?_append_left hi] at hm
      obtain ⟨lookup', env', a', u, u', hu, hallow', hact', hlater, hrest⟩ := ih hm
      exact ⟨lookup', env', a', u, u', hu, hallow', hact',
        hlater.tail ⟨lookup, env, a, hallow, hact⟩, hrest⟩
    · have hi : t.sent.length ≤ i := not_lt.mp hi
      refine ⟨lookup, env, a, t, s, hruns, hallow, hact, .refl, hi, hm, hreason m ?_⟩
      rw [hl, List.getElem?_append_right hi] at hm
      exact List.mem_of_getElem? hm

theorem byTable_registered (cond : Env → State → Action → Prop) (lookup : Lookup) (env : Env)
    (s : State) (a : Action) (h : byTable cond lookup env s a) : lookup.Registered := by
  rw [h.1]
  exact getFdnodeByname_registered env

/-- **Every message has its reason**: in every run of the server, each message ever sent was
sent by an action of the run, for a reason in that action and in the state before it. -/
theorem sent_has_reason {cond : Env → State → Action → Prop} (h : Runs (byTable cond) s) {i : Nat}
    (hm : s.sent[i]? = some m) :
    ∃ (env : Env) (a : Action) (t t' : State), Runs (byTable cond) t ∧ cond env t a ∧
      act (getFdnodeByname env) env t a = some t' ∧
      Relation.ReflTransGen (Step (byTable cond)) t' s ∧ t.sent.length ≤ i ∧ t'.sent[i]? = some m ∧
      Reason (getFdnodeByname env) env t a m := by
  obtain ⟨lookup, env, a, t, t', ht, ⟨rfl, hcond⟩, hrest⟩ := h.origin (byTable_registered cond) hm
  exact ⟨env, a, t, t', ht, hcond, hrest⟩

/-- The last message of a run in which a guest greets the lobby. -/
theorem sent_has_reason_greeting : ∃ (s : State) (m : Send), s.sent.getLast? = some m ∧
    m.message = [.publicMessage (guestName 0) 2 (ofString "hello")] ∧
    ∃ (env : Env) (a : Action) (t : State), Reachable t ∧
      Reason (getFdnodeByname env) env t a m := by
  have hcheck : (actAll (State.start fun _ => lobbyConf) [connect 5 100, deliver 0 5 guestLogin,
      deliver 2 5 greeting]).any (fun s => s.sent.getLast?.any fun m =>
        m.message = [.publicMessage (guestName 0) 2 (ofString "hello")]) := by
    decide +kernel
  obtain ⟨s, hrun, hs⟩ := (Option.any_eq_true _ _).mp hcheck
  obtain ⟨m, hm, hmessage⟩ := (Option.any_eq_true _ _).mp hs
  have hget : s.sent[s.sent.length - 1]? = some m := by rwa [List.getLast?_eq_getElem?] at hm
  have hreach : Runs (byTable fun _ _ _ => True) s := reachable_of_actAll hrun
  obtain ⟨env, a, t, t', ht, -, -, -, -, -, hreason⟩ := sent_has_reason hreach hget
  exact ⟨s, m, hm, of_decide_eq_true hmessage, env, a, t, ht, hreason⟩

/-! ## Clients that have not logged in -/

/-- What the client at descriptor `k`, which has not logged in, can be sent by an action. -/
inductive Overhears (lookup : Lookup) (env : Env) (s : State) (k : Nat) :
    Action → List Notice → Prop where
  | answer (recvBits : Int) (data : Bytes) (n : Notice)
      (hn : n = .pong ∨ (∃ why, n = .authFailure why) ∨ ∃ text, n = .script text) :
      Overhears lookup env s k (.task k recvBits data) [n]
  | login (recvBits : Int) (data : Bytes) (p : Addr) (c : Client) (e : Event) (d : Client)
      (name : Bytes) (msg : List Notice) (hk : s.fdClients k = some p) (hp : s.heap p = some c)
      (hdecode : Task.decode env ⟨k, p, recvBits, data⟩ = .event e)
      (h : PassesLogin env (s.tick env.now) p c e d name)
      (hmsg : msg = [.authSuccess name (luaGetuserrole env name)] ∨
        Arrival env (s.tick env.now) p d e.roomid ⟨k, msg⟩) :
      Overhears lookup env s k (.task k recvBits data) msg
  | privateMessage (fd : Nat) (recvBits : Int) (data : Bytes) (p : Addr) (c : Client) (q : Addr)
      (name target text : Bytes) (hfd : s.fdClients fd = some p) (hp : s.heap p = some c)
      (hstate : c.state = .success) (hfree : c.type ≠ clientTypeShutup)
      (hname : c.username.read (env.overrun p .username) = some name)
      (hlookup : lookup (s.tick env.now) target (-1) = some (some q))
      (hk : s.fdClients k = some q) :
      Overhears lookup env s k (.task fd recvBits data)
        [.privateMessage name target env.now text]

theorem InRoom.success (hs : Sound s) {r : Int} (h : InRoom s r k) (hk : s.fdClients k = some q)
    (hq : s.heap q = some d) : d.state = .success := by
  obtain ⟨hr, q', d', hk', hq', hroom⟩ := h
  obtain rfl : q' = q := Option.some.inj (hk'.symm.trans hk)
  obtain rfl : d' = d := Option.some.inj (hq'.symm.trans hq)
  by_contra hwait
  have := hs.waiting q' d' hq hwait
  omega

theorem Farewell.success (hs : Sound s) (h : Farewell env s p c m) (hk : s.fdClients m.fd = some q)
    (hq : s.heap q = some d) : d.state = .success := by
  cases h with
  | told name k hname hroom hne => exact hroom.success hs hk hq

/-- Only the client itself and those in the room hear of an arrival. -/
theorem Arrival.audience (hs : Sound s) {roomid : Int} (h : Arrival env s p c roomid m)
    (hk : s.fdClients m.fd = some q) (hq : s.heap q = some d) :
    m.fd = c.fd ∨ d.state = .success := by
  cases h with
  | refused name => exact Or.inl rfl
  | leaves m hm => exact Or.inr (hm.success hs hk hq)
  | room => exact Or.inl rfl
  | newcomer profile k hprofile hroom => exact hroom.imp_right fun hroom => hroom.success hs hk hq
  | others msg hroom hmsg => exact Or.inl rfl

/-- **Strangers.** In every run, a client that has not logged in is sent an answer to its own
message, what belongs to its own login, or a private message whose target leads to it. It is
told nothing of what goes on in the rooms. -/
theorem stranger_overhears {cond : Env → State → Action → Prop} (h : Runs (byTable cond) s)
    (hact : act (getFdnodeByname env) env s a = some s') (hk : s.fdClients k = some q)
    (hq : s.heap q = some d) (hwait : d.state ≠ .success)
    (hm : m ∈ s'.sent.drop s.sent.length) (hmk : m.fd = k) :
    Overhears (getFdnodeByname env) env s k a m.message := by
  have hs : Sound s := h.toAnyLookup.sound
  have htick : Sound (s.tick env.now) := hs.tick env.now
  have hdfd : d.fd = k := by
    obtain ⟨d', hd', hfd⟩ := hs.registered k q hk
    rw [hq] at hd'
    cases hd'
    exact hfd
  have hroom : ∀ r, ¬ InRoom (s.tick env.now) r k := fun r hr => hwait (hr.success htick hk hq)
  subst hmk
  have hreason := (act_posts hs (getFdnodeByname_registered env) hact).of_mem_drop hm
  cases hreason with
  | pong fd recvBits data p hfd hdecode => exact .answer recvBits data .pong (Or.inl rfl)
  | removed a q' d' m hq' hwhy hfarewell => exact absurd (hfarewell.success hs hk hq) hwait
  | event fd recvBits data p c e m hfd hp hdecode hcause =>
    have hcfd : c.fd = fd := by
      obtain ⟨c', hc', hfd'⟩ := hs.registered fd p hfd
      rw [hp] at hc'
      cases hc'
      exact hfd'
    have hself : c.state = .success → fd ≠ m.fd := by
      rintro hstate rfl
      obtain rfl : p = q := Option.some.inj (hfd.symm.trans hk)
      obtain rfl : c = d := Option.some.inj (hp.symm.trans hq)
      exact hwait hstate
    cases hcause with
    | talk evType n k ht hstate hfree hsaid hin => exact absurd hin (hroom _)
    | privateMessage name target text k ht hstate hfree hname htarget htext hto =>
      rcases hto with rfl | ⟨q', d', hlookup, hq', rfl⟩
      · exact absurd rfl (hself hstate)
      · have hq' : s.heap q' = some d' := hq'
        exact .privateMessage fd recvBits data p c q' name target text hfd hp hstate hfree hname
          hlookup (hs.current q' d' hq')
    | answer msg hstate hmsg => exact absurd rfl (hself hstate)
    | order text q' d' name k horder hname htext hin => exact absurd hin (hroom _)
    | removed m q' d' ht horder hfarewell =>
      exact absurd (hfarewell.success htick hk hq) hwait
    | leaves m ht hstate hfarewell => exact absurd (hfarewell.success htick hk hq) hwait
    | moves m ht hstate harrival =>
      rcases harrival.audience htick hk hq with hown | hsuccess
      · exact absurd (hcfd.symm.trans hown.symm) (hself hstate)
      · exact absurd hsuccess hwait
    | refused d' why ht hstate hd' =>
      exact .answer recvBits data (.authFailure why) (Or.inr (Or.inl ⟨why, rfl⟩))
    | login d' name hlogin =>
      exact .login recvBits data p c e d' name _ hfd hp hdecode hlogin (Or.inl rfl)
    | rival d' name q' x hlogin hlookup hq' hx =>
      have hq' : s.heap q' = some x := hq'
      have hsame : q' = q := Option.some.inj ((hs.current q' x hq').symm.trans hk)
      rw [hsame, hq] at hq'
      cases hq'
      exact absurd hx hwait
    | displaced m d' name q' x hlogin hlookup hq' hfarewell =>
      exact absurd (hfarewell.success htick hk hq) hwait
    | arrives m d' name hlogin harrival =>
      rcases harrival.audience htick hk hq with hown | hsuccess
      · obtain ⟨-, -, ⟨c', hpass, hd'⟩, -⟩ := id hlogin
        have hdfd' : d'.fd = fd := (passed_sameSession hpass hd').fd.trans hcfd
        obtain ⟨k, msg⟩ := m
        obtain rfl : k = fd := hown.trans hdfd'
        exact .login recvBits data p c e d' name msg hfd hp hdecode hlogin (Or.inr harrival)
      · exact absurd hsuccess hwait
    | script text ht hstate =>
      exact .answer recvBits data (.script text) (Or.inr (Or.inr ⟨text, rfl⟩))

/-- A private message for `zyl`. -/
def whisper : Packet where
  data := [120, 156, 179, 73, 45, 75, 205, 43, 81, 40, 169, 44, 72, 181, 85, 55, 54, 86, 87, 40,
    73, 44, 74, 79, 45, 177, 85, 175, 170, 204, 81, 183, 179, 73, 202, 79, 169, 180, 203, 72, 205,
    201, 201, 183, 209, 7, 179, 109, 244, 193, 26, 236, 0, 34, 7, 19, 95]
  text := ofString "<event type='33' target='zyl'><body>hello</body></event>"
  event := { Event.ofList [(.type, ofString "33"), (.target, ofString "zyl")] with
    body := some (ofString "hello") }

/-- `zyl` logs in at 5 and again at 6. The session at 5 waits, and still gets the messages. -/
theorem stranger_overhears_whisper : ∃ (s s' : State) (d : Client), Reachable s ∧
    s.fdClients 5 = some 100 ∧ s.heap 100 = some d ∧ d.state ≠ .success ∧
    act (getFdnodeByname (usersEnv whisper)) (usersEnv whisper) s (.task 7 4 whisper.data) =
      some s' ∧
    Overhears (getFdnodeByname (usersEnv whisper)) (usersEnv whisper) s 5 (.task 7 4 whisper.data)
      [.privateMessage (guestName 0) (ofString "zyl") 100 (ofString "hello")] := by
  have hcheck : (actAll (State.start fun _ => lobbyConf) [connect 5 100, connect 6 200,
      connect 7 300, sendsPacket 5 zylLogin, sendsPacket 6 zylLogin, deliver 0 7 guestLogin]).any
        (fun s => s.fdClients 5 = some 100 ∧
          ((s.heap 100).any fun d : Client => d.state ≠ .success) ∧
          (act (getFdnodeByname (usersEnv whisper)) (usersEnv whisper) s
            (.task 7 4 whisper.data)).any fun s' =>
              ⟨5, [.privateMessage (guestName 0) (ofString "zyl") 100 (ofString "hello")]⟩ ∈
                s'.sent.drop s.sent.length) := by
    decide +kernel
  obtain ⟨s, hrun, hs⟩ := (Option.any_eq_true _ _).mp hcheck
  obtain ⟨hk, hd, hact⟩ := of_decide_eq_true hs
  obtain ⟨d, hd, hwait⟩ := (Option.any_eq_true _ _).mp hd
  obtain ⟨s', hact, hm⟩ := (Option.any_eq_true _ _).mp hact
  have hwait := of_decide_eq_true hwait
  have hreach : Runs (byTable fun _ _ _ => True) s := reachable_of_actAll hrun
  exact ⟨s, s', d, hreach, hk, hd, hwait, hact,
    stranger_overhears hreach hact hk hd hwait (of_decide_eq_true hm) rfl⟩

end ArpgServer
