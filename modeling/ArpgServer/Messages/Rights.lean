import ArpgServer.Messages.Muting
import ArpgServer.Tasks.Interleaving
import ArpgServer.Tasks.Lifetime

/-!
# The rights of administrators

The type of a client is written by its login, from the user table, and by the command that
mutes and unmutes. While messages are handled one at a time, a session with the rights of an
administrator has a name to which the user table gives them; so has everyone who removes
another client. Two logins of one connection that are handled at once can break this.
-/

namespace ArpgServer

open CText Threads

variable {outside : Env → Prop} {conf : Nat → RoomConf} {lookup : Lookup} {env : Env}
  {s s' t : State} {p q : Addr} {c d : Client} {fd : Nat} {a : Action} {m : Threads}

/-- The user table makes an administrator of everyone who is one. -/
def Licensed (outside : Env → Prop) (s : State) : Prop :=
  ∀ p c, s.heap p = some c → c.state = .success → c.type = clientTypeAdmin →
    ∃ env past name, outside env ∧ c.username.read past = some name ∧
      luaGetuserrole env name = clientTypeAdmin

namespace Licensed

theorem of_eq (hs : Licensed outside s) (h : t.heap = s.heap) : Licensed outside t := by
  intro p c hp
  rw [h] at hp
  exact hs p c hp

theorem setClient (hs : Licensed outside s)
    (hd : d.state = .success → d.type = clientTypeAdmin → ∃ env past name, outside env ∧
      d.username.read past = some name ∧ luaGetuserrole env name = clientTypeAdmin) :
    Licensed outside (s.setClient p d) := by
  intro q e hq
  rcases update_eq_some hq with ⟨rfl, rfl⟩ | ⟨-, hq⟩
  · exact hd
  · exact hs q e hq

theorem change (ho : outside env) (hs : Licensed outside s) (h : Change False env s t) :
    Licensed outside t := by
  cases h with
  | post l => exact hs.of_eq rfl
  | clock now => exact hs.of_eq rfl
  | chain i chain => exact hs.of_eq rfl
  | unlink r fd l hl => exact hs.of_eq rfl
  | write p c d hp hd =>
    refine hs.setClient fun hstate htype => ?_
    obtain ⟨hstate', htype', hname⟩ := hd.rights hstate htype
    rw [hname]
    exact hs p c hp hstate' htype'
  | rename p c d hp hd hrace =>
    -- nobody else has authenticated the session meanwhile
    exact hs.setClient fun hstate => (hrace (hd.state ▸ hstate)).elim
  | login p c name hp hname =>
    exact hs.setClient fun _ htype => ⟨env, env.overrun p .username, name, ho, hname, htype⟩
  | enter p c r hp hr hen =>
    have hset : Licensed outside (s.setClient p { c with roomid := r }) := hs.setClient (hs p c hp)
    exact hset.of_eq rfl
  | free p c hp =>
    intro q e hq
    by_cases hqp : q = p
    · rw [hqp] at hq
      simp [State.freed] at hq
    · exact hs q e (by simpa [State.freed, hqp] using hq)

theorem changes (ho : outside env) (hs : Licensed outside s) (h : Changes False env s t) :
    Licensed outside t := by
  induction h with
  | refl => exact hs
  | tail _ hchange ih => exact ih.change ho hchange

theorem accept (hs : Licensed outside s) {fd : Nat} (h : acceptClient fd p s = some t) :
    Licensed outside t := by
  obtain ⟨-, rfl⟩ := acceptClient_eq_some h
  intro q e hq
  rcases update_eq_some hq with ⟨rfl, rfl⟩ | ⟨-, hq⟩
  · intro hstate
    cases hstate
  · exact hs q e hq

theorem start (conf : Nat → RoomConf) : Licensed outside (State.start conf) :=
  fun _ _ h => by cases h

end Licensed

/-- The runs in environments of some kind. -/
def inside (outside : Env → Prop) : Condition := fun lookup env _ _ =>
  lookup.Registered ∧ outside env

theorem Runs.licensed (h : Runs (inside outside) s) : Licensed outside s := by
  refine h.invariant Licensed.start ?_
  rintro lookup env s a s' hs ⟨-, ho⟩ hact
  rcases act_changes hact with hchanges | ⟨fd, node, -, hacc⟩
  · exact hs.changes ho hchanges
  · exact hs.accept hacc

/-- **Administrators.** In every run that handles messages one at a time, whoever has the
rights of an administrator has a name to which the user table gives them. -/
theorem administrators_licensed (h : Runs (inside outside) s) (hp : s.heap p = some c)
    (hstate : c.state = .success) (htype : c.type = clientTypeAdmin) :
    ∃ env past name, outside env ∧ c.username.read past = some name ∧
      luaGetuserrole env name = clientTypeAdmin :=
  h.licensed p c hp hstate htype

/-- The environments of the user table as shipped. -/
def shipped (env : Env) : Prop := ∃ m, env = usersEnv m

/-- The administrator at 5 has muted another one. -/
theorem administrators_licensed_zyl : ∃ (s : State) (c : Client), s.heap 100 = some c ∧
    ∃ env past name, shipped env ∧ c.username.read past = some name ∧
      luaGetuserrole env name = clientTypeAdmin := by
  have hcheck : (actAll (State.start fun _ => lobbyConf) [(usersEnv zylLogin, .accept 5 100),
      (usersEnv floraLogin, .accept 6 200), sendsPacket 5 zylLogin, sendsPacket 6 floraLogin,
      sendsPacket 5 silenceFlora]).any (fun s => (s.heap 100).any fun c =>
        c.state = .success ∧ c.type = clientTypeAdmin) := by
    decide +kernel
  obtain ⟨s, hrun, hs⟩ := (Option.any_eq_true _ _).mp hcheck
  obtain ⟨c, hc, hadmin⟩ := (Option.any_eq_true _ _).mp hs
  obtain ⟨hstate, htype⟩ := of_decide_eq_true hadmin
  have hruns : Runs (inside shipped) s := by
    refine runs_of_actAll (.of_forall (fun x hx _ => ?_) _) hrun
    refine ⟨getFdnodeByname_registered x.1, ?_⟩
    simp only [List.mem_cons, List.not_mem_nil, or_false] at hx
    rcases hx with rfl | rfl | rfl | rfl | rfl <;> exact ⟨_, rfl⟩
  exact ⟨s, c, hc, administrators_licensed hruns hc hstate htype⟩

/-- The moves that bring a message of a user into the queue. -/
def userSends (fd : Nat) (m : Packet) : List (Env × Move) :=
  [Move.event fd [(.bytes 4, .bytes m.data.length)] (Framing.frames 4 [m.data]),
    .stamp, .enqueue, .enqueue].map fun a => (usersEnv m, a)

/-- Two workers handle two logins of one connection. One of them finds the client waiting, the
other one authenticates it as `zyl`; then the first one renames it and refuses the login. -/
def racingLogins : List (Env × Move) :=
  (usersEnv zylLogin, .accept 5 100) :: userSends 5 zylLogin ++ userSends 5 lateSignature ++
    [(usersEnv zylLogin, .take 0), (usersEnv lateSignature, .take 1)] ++
    (List.replicate 2 (Move.work 1) ++ List.replicate 8 (Move.work 0) ++ [Move.work 1]).map fun a =>
      (usersEnv zylLogin, a)

/-- With two workers a session keeps the rights of a name it has lost. -/
theorem administrator_unlicensed : ∃ m : Threads,
    Interleaved shipped (fun _ => lobbyConf) 2 m ∧ ¬ Licensed shipped m.server := by
  have hcheck : ((resting (Machine.start fun _ => lobbyConf) 2).moves racingLogins).any (fun m =>
      (m.server.heap 100).any fun c => c.state = .success ∧ c.type = clientTypeAdmin ∧
        c.username.terminated ∧ c.username.text = ofString "admin") := by
    decide +kernel
  obtain ⟨m, hrun, hm⟩ := (Option.any_eq_true _ _).mp hcheck
  obtain ⟨c, hc, hc'⟩ := (Option.any_eq_true _ _).mp hm
  obtain ⟨hstate, htype, hterm, htext⟩ := of_decide_eq_true hc'
  refine ⟨m, interleaved_of_moves ?_ hrun, fun hlicensed => ?_⟩
  · simp [racingLogins, userSends, shipped]
  · obtain ⟨env, past, name, ⟨packet, rfl⟩, hname, hrole⟩ := hlicensed 100 c hc hstate htype
    rw [CharArray.read_of_terminated hterm, htext] at hname
    cases hname
    have hno : luaGetuserrole (usersEnv packet) (ofString "admin") ≠ clientTypeAdmin := by
      change luaGetuserrole (usersEnv zylLogin) (ofString "admin") ≠ clientTypeAdmin
      decide +kernel
    exact hno hrole

/-! ## Removals -/

/-- Why a client is removed: it quits or its connection is lost, it is idle, or a session
orders it to which the user table gives the right. -/
inductive Justified (outside : Env → Prop) (lookup : Lookup) (env : Env) (s : State) (fd : Nat)
    (q : Addr) : Action → Prop where
  | quit (recvBits : Int) (data : Bytes)
      (hdecode : Task.decode env ⟨fd, q, recvBits, data⟩ = .logout) :
      Justified outside lookup env s fd q (.task fd recvBits data)
  | idle (d : Client) (hq : s.heap q = some d) (hidle : isIdle env.now d) :
      Justified outside lookup env s fd q (.idle fd)
  | ordered (k : Nat) (recvBits : Int) (data : Bytes) (p : Addr) (c : Client) (e : Event)
      (username : Bytes) (env' : Env) (past : Option Bytes) (name : Bytes)
      (hk : s.fdClients k = some p) (hp : s.heap p = some c) (hstate : c.state = .success)
      (hdecode : Task.decode env ⟨k, p, recvBits, data⟩ = .event e)
      (ht : e.evType = some evTypeAdminCommandGoout) (hu : e.attr .username = some username)
      (htarget : targetOf lookup env p c username (s.tick env.now) = some (some q))
      (ho : outside env') (hname : c.username.read past = some name)
      (hrole : luaGetuserrole env' name = clientTypeAdmin) :
      Justified outside lookup env s fd q (.task k recvBits data)

/-- **Every removal has its reason**, in every run that handles messages one at a time. -/
theorem removal_justified (h : Runs (inside outside) s) (hl : lookup.Registered)
    (hact : act lookup env s a = some s') (hq : s.fdClients fd = some q)
    (hgone : s'.fdClients fd ≠ some q) : Justified outside lookup env s fd q a := by
  have hs : Sound s := (h.mono fun _ _ _ _ ha => ha.1).sound
  have hremoves : Removes lookup env s a q := by
    by_contra hno
    exact hgone ((act_effect hs hl hact).registered hs hq hno)
  obtain ⟨d, hd, hdfd⟩ := hs.registered fd q hq
  have hsame : ∀ k, s.fdClients k = some q → k = fd := by
    intro k hk
    obtain ⟨d', hd', hkfd⟩ := hs.registered k q hk
    rw [hd] at hd'
    cases hd'
    exact hkfd.symm.trans hdfd
  cases hremoves with
  | logout k recvBits data _ hk hdecode =>
    obtain rfl := hsame k hk
    exact .quit recvBits data hdecode
  | idle i _ c hi hc hidle =>
    obtain rfl := hsame i hi
    exact .idle c hc hidle
  | goout k recvBits data p _ c e username hk hp hdecode ht hstate hadmin hu htarget =>
    obtain ⟨env', past, name, ho, hname, hrole⟩ := h.licensed p c hp hstate hadmin
    exact .ordered k recvBits data p c e username env' past name hk hp hstate hdecode ht hu
      htarget ho hname hrole

/-- The order to remove a guest of midnight. -/
def removeGuest : Packet where
  data := [120, 156, 179, 73, 45, 75, 205, 43, 81, 40, 169, 44, 72, 181, 85, 183, 52, 80, 87, 40,
    45, 78, 45, 202, 75, 204, 5, 242, 158, 237, 216, 241, 116, 221, 34, 3, 3, 3, 117, 125, 59, 0,
    31, 107, 14, 200]
  text := ofString "<event type='90' username='游客000'/>"
  event := .ofList [(.type, ofString "90"), (.username, ofString "游客000")]

/-- The administrator at 5 removes the guest at 6. -/
theorem removal_justified_guest : ∃ s s' : State, Runs (inside fun _ => True) s ∧
    s.fdClients 6 = some 200 ∧ s'.fdClients 6 = none ∧
      Justified (fun _ => True) (getFdnodeByname (usersEnv removeGuest)) (usersEnv removeGuest) s
        6 200 (.task 5 4 removeGuest.data) := by
  have hcheck : (actAll (State.start fun _ => lobbyConf) [connect 5 100, connect 6 200,
      sendsPacket 5 zylLogin, deliver 0 6 guestLogin]).any (fun s => s.fdClients 6 = some 200 ∧
        (act (getFdnodeByname (usersEnv removeGuest)) (usersEnv removeGuest) s
          (.task 5 4 removeGuest.data)).any fun s' => s'.fdClients 6 = none) := by
    decide +kernel
  obtain ⟨s, hrun, hs⟩ := (Option.any_eq_true _ _).mp hcheck
  obtain ⟨hq, hact⟩ := of_decide_eq_true hs
  obtain ⟨s', hact, hnone⟩ := (Option.any_eq_true _ _).mp hact
  have hnone : s'.fdClients 6 = none := of_decide_eq_true hnone
  have hruns : Runs (inside fun _ => True) s := by
    refine runs_of_actAll (.of_forall (fun x _ _ => ?_) _) hrun
    exact ⟨getFdnodeByname_registered x.1, trivial⟩
  refine ⟨s, s', hruns, hq, hnone, removal_justified hruns ?_ hact hq ?_⟩
  · exact getFdnodeByname_registered _
  · rw [hnone]
    exact Option.some_ne_none 200 |>.symm

end ArpgServer
