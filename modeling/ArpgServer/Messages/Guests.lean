import ArpgServer.Effects.Frame
import ArpgServer.Messages.Credentials

/-!
# Who is a guest

The flag of a guest is set when a connection is accepted and by a guest's login, and cleared
by a signed login before it is checked. A login with a password leaves it as it is, but never
comes to an end: `md5` does not come back from its log line. So the flag says how a client has
logged in, and the rooms that are closed to guests are closed to them only.
-/

namespace ArpgServer

open CText

variable {lookup : Lookup} {env : Env} {s s' t : State} {p q : Addr} {c d : Client} {fd : Nat}
  {e : Event} {a : Action} {guest : Addr → Bool}

/-! ## The latest login -/

/-- A client becomes authenticated. -/
def LogsIn (s s' : State) (p : Addr) : Bool :=
  (s.heap p).map Client.state ≠ some .success ∧ (s'.heap p).map Client.state = some .success

/-- Whose latest successful login went through the anonymous branch. -/
def noteLogin (env : Env) (s : State) (a : Action) (s' : State) (guest : Addr → Bool)
    (q : Addr) : Bool :=
  if LogsIn s s' q then
    match a with
    | .task fd recvBits data =>
      match Task.decode env ⟨fd, q, recvBits, data⟩ with
      | .event e => e.isAnonymous
      | _ => guest q
    | _ => guest q
  else guest q

theorem noteLogin_of_not (env : Env) (a : Action) (guest : Addr → Bool)
    (h : LogsIn s s' q = false) : noteLogin env s a s' guest q = guest q := by
  unfold noteLogin
  rw [if_neg (by simp [h])]

theorem noteLogin_self {recvBits : Int} {data : Bytes}
    (hdecode : Task.decode env ⟨fd, p, recvBits, data⟩ = .event e) (hlog : LogsIn s s' p = true)
    (guest : Addr → Bool) :
    noteLogin env s (.task fd recvBits data) s' guest p = e.isAnonymous := by
  unfold noteLogin
  rw [if_pos hlog]
  simp only [hdecode]

theorem logsIn_of_success (hq : s.heap q = some c) (hc : c.state = .success) :
    LogsIn s s' q = false := by
  simp [LogsIn, hq, hc]

/-! ## The flag of a login -/

/-- The password branch does not pass. -/
theorem authPassword_ne_passed {username password : Bytes} {c' : Client} :
    authPassword env c username password ≠ some (.passed c') := by
  intro h
  obtain ⟨row, -, h⟩ := Option.bind_eq_some_iff.mp h
  cases row with
  | none => cases h
  | some row =>
    obtain ⟨buf, hbuf, -⟩ := Option.bind_eq_some_iff.mp h
    rw [md5_eq_none] at hbuf
    cases hbuf

/-- What each branch does to the flag when it passes. -/
theorem authCredentials_anonymous {now : Int} {c' : Client}
    (h : authCredentials env now c e = some (.passed c')) :
    (e.isAnonymous = true ∧ c'.anonymous = 1) ∨ (e.isAnonymous = false ∧ c'.anonymous = 0) := by
  unfold authCredentials at h
  split at h
  · rename_i hguest
    cases h
    exact Or.inl ⟨hguest, rfl⟩
  rename_i hguest
  have hnot : e.isAnonymous = false := by simpa using hguest
  split at h
  · exact absurd h authPassword_ne_passed
  split at h
  · split at h
    · obtain ⟨name, -, hout⟩ := authSignature_client h
      obtain rfl : c' = c.renamed 0 name := hout
      exact Or.inr ⟨hnot, rfl⟩
    · cases h
  · cases h

theorem setCharacter_anonymous (c : Client) (e : Event) :
    (setCharacter c e).anonymous = c.anonymous := by
  unfold setCharacter
  split <;> rfl

/-! ## One step -/

/-- The flag says how each client has logged in, and every client is in a room that is open
to it. -/
structure Flagged (s : State) (guest : Addr → Bool) : Prop where
  flag : ∀ p c, s.heap p = some c → c.state = .success → (c.anonymous = 1 ↔ guest p = true)
  admitted : ∀ p c, s.heap p = some c → Admitted s c

namespace Flagged

/-- A client that was authenticated before and whose flag is as it was. -/
theorem flag_same (h : Flagged s guest) (hq : s.heap q = some c) (hc : c.state = .success)
    (hd : d.anonymous = c.anonymous) (env : Env) (a : Action) (s' : State) :
    d.anonymous = 1 ↔ noteLogin env s a s' guest q = true := by
  rw [noteLogin_of_not env a guest (logsIn_of_success hq hc), hd]
  exact h.flag q c hq hc

theorem tick (h : Flagged s guest) (now : Int) : Flagged (s.tick now) guest where
  flag := h.flag
  admitted p c hp := (h.admitted p c hp).congr rfl rfl fun _ => rfl

theorem kept (h : Flagged s guest) {env' : Env} {sender : Option Addr}
    (hkept : Kept env' sender s s') (env : Env) (a : Action) :
    Flagged s' (noteLogin env s a s' guest) where
  flag q d hd hst := by
    obtain ⟨c, hc, hremains⟩ := hkept.record q d hd
    exact h.flag_same hc (hremains.state hst) hremains.self.anonymous env a s'
  admitted q d hd := by
    obtain ⟨c, hc, hremains⟩ := hkept.record q d hd
    exact hremains.place (h.admitted q c hc)

theorem accept (h : Flagged s guest) {node : Addr} (hacc : acceptClient fd node s = some s')
    (env : Env) (a : Action) : Flagged s' (noteLogin env s a s' guest) := by
  obtain ⟨-, rfl⟩ := acceptClient_eq_some hacc
  constructor
  · intro q d hd hst
    rcases update_eq_some hd with ⟨rfl, rfl⟩ | ⟨-, hd⟩
    · cases hst
    · exact h.flag_same hd hst rfl env a _
  · intro q d hd
    rcases update_eq_some hd with ⟨rfl, rfl⟩ | ⟨-, hd⟩
    · exact admitted_outside _ rfl
    · exact (h.admitted q d hd).congr rfl rfl fun _ => rfl

/-- One record changes, but neither its flag nor its state nor its room. -/
theorem setClient (h : Flagged s guest) (hp : s.heap p = some c)
    (hanon : d.anonymous = c.anonymous) (hst : d.state = c.state) (hroom : d.roomid = c.roomid)
    (now : Int) (l : List Send) (env : Env) (a : Action) :
    Flagged (((s.tick now).setClient p d).post l)
      (noteLogin env s a (((s.tick now).setClient p d).post l) guest) where
  flag q x hx hxst := by
    rcases update_eq_some hx with ⟨rfl, rfl⟩ | ⟨-, hx⟩
    · exact h.flag_same hp (hst ▸ hxst) hanon env a _
    · exact h.flag_same hx hxst rfl env a _
  admitted q x hx := by
    rcases update_eq_some hx with ⟨rfl, rfl⟩ | ⟨-, hx⟩
    · exact (h.admitted _ c hp).congr hanon hroom fun _ => rfl
    · exact (h.admitted q x hx).congr rfl rfl fun _ => rfl

/-- A client that waits is in no room, and its flag does not matter yet. -/
theorem waiting (h : Flagged s guest) (hd : d.state ≠ .success) (hroom : d.roomid = -1)
    (now : Int) (l : List Send) (env : Env) (a : Action) :
    Flagged (((s.tick now).setClient p d).post l)
      (noteLogin env s a (((s.tick now).setClient p d).post l) guest) where
  flag q x hx hxst := by
    rcases update_eq_some hx with ⟨rfl, rfl⟩ | ⟨-, hx⟩
    · exact absurd hxst hd
    · exact h.flag_same hx hxst rfl env a _
  admitted q x hx := by
    rcases update_eq_some hx with ⟨rfl, rfl⟩ | ⟨-, hx⟩
    · exact admitted_outside _ hroom
    · exact (h.admitted q x hx).congr rfl rfl fun _ => rfl

/-- A login that passes. -/
theorem passed (h : Flagged s guest) (hs : Sound s) {recvBits : Int} {data : Bytes}
    {c' d : Client} {role now : Int} {n : Notice} {u : State}
    (hp : s.heap p = some c) (hc : c.state ≠ .success)
    (hdecode : Task.decode env ⟨fd, p, recvBits, data⟩ = .event e)
    (hpass : authCredentials env now c e = some (.passed c'))
    (hbefore : Kept env (some p) ((s.tick now).setClient p (setCharacter c' e)) t)
    (hpt : t.heap p = some d)
    (hu : u = (t.setClient p (d.loggedIn role)).sendMessage fd n)
    (hafter : Kept env (some p) u s') :
    Flagged s' (noteLogin env s (.task fd recvBits data) s' guest) := by
  have hsame : c.SameSession (setCharacter c' e) := passed_sameSession hpass rfl
  have hroom : (setCharacter c' e).roomid = -1 := by
    rw [hsame.roomid]
    exact hs.waiting p c hp hc
  obtain ⟨d', hd', hremains⟩ := hbefore.record p d hpt
  rw [State.setClient_heap, Function.update_self] at hd'
  cases hd'
  have hup : u.heap p = some (d.loggedIn role) := by
    rw [hu]
    exact Function.update_self ..
  have hother : ∀ q, q ≠ p → u.heap q = t.heap q := by
    intro q hq
    rw [hu]
    exact Function.update_of_ne hq ..
  constructor
  · intro q x hx hst
    obtain ⟨y, hy, hyx⟩ := hafter.record q x hx
    have hyst := hyx.state hst
    by_cases hq : q = p
    · subst hq
      rw [hup] at hy
      cases hy
      have hlog : LogsIn s s' q = true := by simp [LogsIn, hp, hc, hx, hst]
      have hanon : x.anonymous = c'.anonymous := by
        rw [hyx.self.anonymous]
        exact hremains.self.anonymous.trans (setCharacter_anonymous c' e)
      rw [noteLogin_self hdecode hlog, hanon]
      rcases authCredentials_anonymous hpass with ⟨hguest, h1⟩ | ⟨hnot, h0⟩
      · simp [hguest, h1]
      · simp [hnot, h0]
    · rw [hother q hq] at hy
      obtain ⟨z, hz, hzy⟩ := hbefore.record q y hy
      rw [State.setClient_heap, Function.update_of_ne hq] at hz
      exact h.flag_same hz (hzy.state hyst) ((hzy.self.trans hyx.self).anonymous) env _ s'
  · intro q x hx
    obtain ⟨y, hy, hyx⟩ := hafter.record q x hx
    have hconf : ∀ r, (u.rooms r).anonymous = (t.rooms r).anonymous := by
      intro r
      rw [hu]
      rfl
    refine hyx.place ?_
    by_cases hq : q = p
    · subst hq
      rw [hup] at hy
      cases hy
      exact (hremains.place (admitted_outside _ hroom)).congr rfl rfl hconf
    · rw [hother q hq] at hy
      obtain ⟨z, hz, hzy⟩ := hbefore.record q y hy
      rw [State.setClient_heap, Function.update_of_ne hq] at hz
      exact (hzy.place ((h.admitted q z hz).congr rfl rfl fun _ => rfl)).congr rfl rfl hconf

/-- Messages do not matter. -/
theorem post (h : Flagged s guest) (l : List Send) : Flagged (s.post l) guest where
  flag := h.flag
  admitted p c hp := (h.admitted p c hp).congr rfl rfl fun _ => rfl

end Flagged

/-- A refusal changes no record and no room. -/
theorem TurnedAway.sent_only (h : TurnedAway p s s') :
    ∃ c name, s.heap p = some c ∧ s'.heap p = some c ∧ c.anonymous = 1 ∧
      s' = s.post [⟨c.fd, [.systemMessage s.mytimestamp (.guestRefused name)]⟩] := by
  obtain ⟨c, name, hp, hguest, rfl⟩ := h
  exact ⟨c, name, hp, hp, hguest, rfl⟩

end ArpgServer
