import ArpgServer.Effects.Rooms

/-!
# What a login does

The checks of a login touch the sender's record only, and there neither its descriptor nor
its room, state and type. A login that passes them displaces the session the name lookup
returns, registers the sender under its new name and takes it to a room.
-/

namespace ArpgServer

open CText

variable {lookup : Lookup} {env : Env} {s s' t : State} {p q : Addr} {c d : Client} {fd : Nat}
  {e : Event}

/-! ## The checks -/

/-- Two records of one connection in one state. -/
structure Client.SameSession (c d : Client) : Prop where
  fd : d.fd = c.fd
  roomid : d.roomid = c.roomid
  state : d.state = c.state
  type : d.type = c.type

theorem Client.SameSession.trans {c d e : Client} (h : c.SameSession d) (h' : d.SameSession e) :
    c.SameSession e :=
  ⟨h'.fd.trans h.fd, h'.roomid.trans h.roomid, h'.state.trans h.state, h'.type.trans h.type⟩

def AuthOutcome.client : AuthOutcome → Client
  | .refused c _ => c
  | .passed c => c

/-- The checks write the flag and the name. -/
def Client.renamed (c : Client) (anonymous : Int) (username : CharArray 64) : Client :=
  { c with anonymous := anonymous, username := username }

theorem Client.renamed_sameSession (c : Client) (anonymous : Int) (username : CharArray 64) :
    c.SameSession (c.renamed anonymous username) := ⟨rfl, rfl, rfl, rfl⟩

/-- How the password branch ends. -/
theorem authPassword_cases {username password : Bytes} {out : AuthOutcome}
    (h : authPassword env c username password = some out) :
    (getPassword env username = some none ∧ out = .refused c .unknownUser) ∨
      ∃ stored salt, getPassword env username = some (some (stored, salt)) ∧
        (md5Hex env password ++ salt).length < maxCharLength ∧
        out = if md5Hex env (md5Hex env password ++ salt) = stored then
          .passed { c with username := c.username.strncpy username 64 (by decide) }
        else .refused c .wrongPassword := by
  obtain ⟨row, hrow, h⟩ := Option.bind_eq_some_iff.mp h
  cases row with
  | none =>
    cases h
    exact Or.inl ⟨hrow, rfl⟩
  | some row =>
    obtain ⟨buf, hbuf, h⟩ := Option.bind_eq_some_iff.mp h
    obtain rfl := md5_eq_some hbuf
    simp only at h
    split at h
    · rename_i hlen
      obtain ⟨buf, hbuf, rfl⟩ := Option.map_eq_some_iff.mp h
      obtain rfl := md5_eq_some hbuf
      exact Or.inr ⟨row.1, row.2, hrow, hlen, rfl⟩
    · cases h

/-- How the signature branch ends. -/
theorem authSignature_cases {t : Int} {username sign account timestampChar : Bytes}
    {out : AuthOutcome}
    (h : authSignature env t c username sign account timestampChar = some out) :
    ∃ name, signedName c account username = some name ∧ logUsername username = some () ∧
      ((¬ (0 ≤ t - atol timestampChar ∧ t - atol timestampChar < 60) ∧
          out = .refused { c with anonymous := 0, username := name } .expired) ∨
        ((0 ≤ t - atol timestampChar ∧ t - atol timestampChar < 60) ∧
          ∃ crypted same, cryptStr env account username timestampChar sign = some crypted ∧
            crypted.strcmp none sign = some same ∧
            out = if same then .passed { c with anonymous := 0, username := name }
              else .refused { c with anonymous := 0, username := name } .badSignature)) := by
  obtain ⟨name, hname, h⟩ := Option.bind_eq_some_iff.mp h
  obtain ⟨_, hlog, h⟩ := Option.bind_eq_some_iff.mp h
  refine ⟨name, hname, hlog, ?_⟩
  simp only at h
  split at h
  · rename_i hrecent
    obtain ⟨crypted, hcrypted, h⟩ := Option.bind_eq_some_iff.mp h
    obtain ⟨same, hsame, rfl⟩ := Option.map_eq_some_iff.mp h
    exact Or.inr ⟨hrecent, crypted, same, hcrypted, hsame, rfl⟩
  · rename_i hold
    cases h
    exact Or.inl ⟨hold, rfl⟩

theorem authPassword_client {username password : Bytes} {out : AuthOutcome}
    (h : authPassword env c username password = some out) :
    ∃ name, out.client = c.renamed c.anonymous name := by
  rcases authPassword_cases h with ⟨-, rfl⟩ | ⟨stored, salt, -, -, rfl⟩
  · exact ⟨c.username, rfl⟩
  · split <;> exact ⟨_, rfl⟩

theorem authSignature_client {t : Int} {username sign account timestampChar : Bytes}
    {out : AuthOutcome}
    (h : authSignature env t c username sign account timestampChar = some out) :
    ∃ name, signedName c account username = some name ∧ out.client = c.renamed 0 name := by
  obtain ⟨name, hname, -, ⟨-, rfl⟩ | ⟨-, crypted, same, -, -, rfl⟩⟩ := authSignature_cases h
  · exact ⟨name, hname, rfl⟩
  · refine ⟨name, hname, ?_⟩
    split <;> rfl

theorem authCredentials_renamed {t : Int} {out : AuthOutcome}
    (h : authCredentials env t c e = some out) :
    ∃ anonymous name, out.client = c.renamed anonymous name := by
  unfold authCredentials at h
  split at h
  · cases h
    exact ⟨1, _, rfl⟩
  split at h
  · obtain ⟨name, hout⟩ := authPassword_client h
    exact ⟨c.anonymous, name, hout⟩
  split at h
  · split at h
    · obtain ⟨name, -, hout⟩ := authSignature_client h
      exact ⟨0, name, hout⟩
    · cases h
      exact ⟨c.anonymous, c.username, rfl⟩
  · cases h
    exact ⟨c.anonymous, c.username, rfl⟩

theorem authCredentials_client {t : Int} {out : AuthOutcome}
    (h : authCredentials env t c e = some out) : c.SameSession out.client := by
  obtain ⟨anonymous, name, hout⟩ := authCredentials_renamed h
  rw [hout]
  exact c.renamed_sameSession anonymous name

theorem setCharacter_sameSession (c : Client) (e : Event) :
    c.SameSession (setCharacter c e) := by
  unfold setCharacter
  split <;> exact ⟨rfl, rfl, rfl, rfl⟩

@[simp] theorem setCharacter_username (c : Client) (e : Event) :
    (setCharacter c e).username = c.username := by
  unfold setCharacter
  split <;> rfl

/-- A login that passes its checks gives the session a new name and leaves it waiting. -/
theorem passed_sameSession {t : Int} {c' : Client}
    (hpass : authCredentials env t c e = some (.passed c')) (hd : d = setCharacter c' e) :
    c.SameSession d := by
  rw [hd]
  exact (authCredentials_client hpass).trans (setCharacter_sameSession c' e)

/-- A session that waits may have any record. -/
theorem Sound.setWaiting (hs : Sound s) (hp : s.heap p = some c) (hc : c.state ≠ .success)
    (hsame : c.SameSession d) : Sound (s.setClient p d) :=
  hs.setClient hp hsame.fd hsame.roomid (fun _ => hs.waiting p c hp hc)

/-! ## The login -/

/-- The record of a session that has just been authenticated. -/
def Client.loggedIn (c : Client) (role : Int) : Client := { c with type := role, state := .success }

/-- The registration of a session and its new state. -/
def State.login (s : State) (p : Addr) (c : Client) (name : Bytes) (role : Int) : State :=
  (s.setBucket (s.bucketOf name) (s.hashTable (s.bucketOf name) ++ [⟨p, c.fd⟩])).setClient p
    (c.loggedIn role)

/-- The session of the name, if the lookup returned one, is displaced. -/
def RivalEffect (env : Env) (node : Option Addr) (s s' : State) : Prop :=
  (node = none ∧ s' = s) ∨ ∃ q d, node = some q ∧ s.heap q = some d ∧ DisplaceEffect env q d s s'

inductive AuthEffect (lookup : Lookup) (env : Env) (fd : Nat) (e : Event) (p : Addr) (c : Client)
    (s s' : State) : Prop where
  | already (hc : c.state = .success) (h : s' = s.sendMessage fd .alreadyLogin)
  | refused (d : Client) (why : AuthFailure) (hc : c.state ≠ .success)
      (hd : authCredentials env s.mytimestamp c e = some (.refused d why))
      (h : s' = (s.setClient p d).sendMessage fd (.authFailure why))
  | passed (c' d : Client) (name : Bytes) (node : Option Addr) (t : State)
      (hc : c.state ≠ .success)
      (hpass : authCredentials env s.mytimestamp c e = some (.passed c'))
      (hd : d = setCharacter c' e)
      (hname : d.username.read (env.overrun p .username) = some name)
      (hnode : lookup (s.setClient p d) name d.fd = some node)
      (hrival : RivalEffect env node (s.setClient p d) t)
      (hjoin : JoinEffect env p (d.loggedIn (luaGetuserrole env name)) e.roomid
        ((t.login p d name (luaGetuserrole env name)).sendMessage fd
          (.authSuccess name (luaGetuserrole env name))) s')

/-- A displaced session is not the one that waits. -/
theorem DisplaceEffect.heap_waiting (hs : Sound s) (hq : s.heap q = some d) (hp : s.heap p = some c)
    (hc : c.state ≠ .success) (h : DisplaceEffect env q d s s') : s'.heap p = some c := by
  rcases h with ⟨-, rfl⟩ | ⟨hd, l, -, rfl⟩
  · exact hp
  · have hne : p ≠ q := by
      rintro rfl
      rw [hp] at hq
      cases hq
      exact hc hd
    simp [hs.vacate_heap hq, hne, hp]

theorem DisplaceEffect.sound (hs : Sound s) (hq : s.heap q = some d)
    (h : DisplaceEffect env q d s s') : Sound s' := by
  rcases h with ⟨-, rfl⟩ | ⟨-, l, -, rfl⟩
  · exact hs
  · have hvac := hs.vacate_heap_self hq
    exact ((hs.vacate hq).setClient hvac (d := { d with roomid := -1, state := .wait }) rfl rfl
      (fun _ => rfl)).post _

theorem RivalEffect.heap_waiting (hs : Sound s) {node : Option Addr} (hp : s.heap p = some c)
    (hc : c.state ≠ .success) (h : RivalEffect env node s s') : s'.heap p = some c := by
  rcases h with ⟨-, rfl⟩ | ⟨q, d, -, hq, h⟩
  · exact hp
  · exact h.heap_waiting hs hq hp hc

theorem RivalEffect.sound (hs : Sound s) {node : Option Addr} (h : RivalEffect env node s s') :
    Sound s' := by
  rcases h with ⟨-, rfl⟩ | ⟨q, d, -, hq, h⟩
  · exact hs
  · exact h.sound hs hq

/-- The session that logs in waits while its rival is displaced. -/
theorem RivalEffect.waiting (hs : Sound s) (hp : s.heap p = some c) (hc : c.state ≠ .success)
    (hsame : c.SameSession d) {node : Option Addr}
    (h : RivalEffect env node (s.setClient p d) t) : Sound t ∧ t.heap p = some d := by
  have hs₁ := hs.setWaiting hp hc hsame
  have hp₁ : (s.setClient p d).heap p = some d := by simp
  exact ⟨h.sound hs₁, h.heap_waiting hs₁ hp₁ (by rwa [hsame.state])⟩

/-- A session that waits may be logged in. -/
theorem Sound.login (hs : Sound s) (hp : s.heap p = some c) (name : Bytes) (role : Int) :
    Sound (s.login p c name role) :=
  (hs.setBucket _ _).setClient hp rfl rfl (fun h => absurd rfl h)

theorem otherSameUsername_rival (hs : Sound s) {node : Option Addr}
    (hnode : ∀ q, node = some q → ∃ d, s.heap q = some d)
    (h : (otherSameUsername env node).run s = some ((), s')) : RivalEffect env node s s' := by
  cases node with
  | none =>
    cases h
    exact Or.inl ⟨rfl, rfl⟩
  | some q =>
    obtain ⟨d, hq⟩ := hnode q rfl
    exact Or.inr ⟨q, d, rfl, hq, otherSameUsername_effect hs hq h⟩

theorem authEvent_effect (hs : Sound s) (hl : lookup.Registered) (hp : s.heap p = some c)
    (h : (authEvent lookup env p fd e c.state).run s = some ((), s')) :
    AuthEffect lookup env fd e p c s s' := by
  unfold authEvent at h
  by_cases hc : c.state = .success
  · rw [if_pos hc] at h
    cases h
    exact .already hc rfl
  · rw [if_neg hc] at h
    obtain ⟨passed, t, hsec, h⟩ := Proc.run_bind_eq_some.mp h
    have hsec := Proc.run_step_eq_some.mp hsec
    simp only [authSection, hp, Option.bind_some] at hsec
    obtain ⟨out, hout, hsec⟩ := Option.map_eq_some_iff.mp hsec
    cases out with
    | refused d why =>
      cases hsec
      cases h
      exact .refused d why hc hout rfl
    | passed c' =>
      cases hsec
      have hd : c.SameSession (setCharacter c' e) := passed_sameSession hout rfl
      generalize hdef : setCharacter c' e = d at h hd
      have hs₁ : Sound (s.setClient p d) := hs.setWaiting hp hc hd
      have hp₁ : (s.setClient p d).heap p = some d := by simp
      obtain ⟨node, t, hread, h⟩ := Proc.run_bind_eq_some.mp h
      obtain ⟨hrival, rfl⟩ := Proc.run_read_eq_some.mp hread
      simp only [rivalOf, hp₁, Option.bind_some] at hrival
      obtain ⟨name, hname, hnode⟩ := Option.bind_eq_some_iff.mp hrival
      have hreg : ∀ q, node = some q → ∃ d', (s.setClient p d).heap q = some d' := by
        rintro q rfl
        obtain ⟨k, hk⟩ := hl _ _ _ _ hnode
        obtain ⟨d', hd', -⟩ := hs₁.registered k q hk
        exact ⟨d', hd'⟩
      obtain ⟨u, t, hother, h⟩ := Proc.run_bind_eq_some.mp h
      have heff := otherSameUsername_rival hs₁ hreg hother
      obtain ⟨hst, hpt⟩ := heff.waiting hs hp hc hd
      obtain ⟨u, t₁, hadd, h⟩ := Proc.run_bind_eq_some.mp h
      have hadd := Proc.run_modify_eq_some.mp hadd
      simp only [hpt, Option.bind_some] at hadd
      obtain ⟨name', hname', rfl⟩ := hashAdd_eq_some hadd
      have hnames : name' = name := by
        have : d.username.read (env.overrun p .username) = some name' := by
          simpa [nameAt, hpt] using hname'
        exact Option.some.inj (this.symm.trans hname)
      subst hnames
      obtain ⟨u, t₂, hsucc, h⟩ := Proc.run_bind_eq_some.mp h
      have hsucc := Proc.run_modify_eq_some.mp hsucc
      simp only [authSuccess, State.setBucket_heap, hpt, Option.bind_some, hname, Option.map_some,
        Option.some.injEq] at hsucc
      obtain ⟨x, t₃, hjoin, h⟩ := Proc.run_bind_eq_some.mp h
      cases h
      refine .passed c' d name' node t hc hout hdef.symm hname hnode heff ?_
      subst hsucc
      exact joinRoom_effect ((hst.login hpt name' _).post _)
        (c := d.loggedIn (luaGetuserrole env name')) (by simp [State.login]) rfl hjoin

end ArpgServer
