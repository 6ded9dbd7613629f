import ArpgServer.Messages.Texts

/-!
# Who a name stands for

The checks of a login are made for a user of the local account, which shares its names with
the password store, or for a user of another account. The record keeps one text: the name, or
the account with the name behind it. The two parts are not kept apart and each is cut to what
its copy takes, so two users get one name when the border between the parts can be moved.
-/

namespace ArpgServer

open CText

variable {env env' : Env} {s s' t t' : State} {p q : Addr} {c c' d : Client} {fd fd' : Nat}
  {e e' : Event} {account username name name' past : Bytes}

/-- Who a login is checked for: a user of the local account or the password store, or a user of
another account. -/
inductive Identity where
  | home (username : Bytes)
  | foreign (account username : Bytes)
  deriving DecidableEq

def Event.identity (e : Event) : Option Identity :=
  match e.attr .username, e.attr .password, e.attr .account with
  | some username, some _, _ => some (.home username)
  | some username, none, some account =>
    some (if account = localAccount then .home username else .foreign account username)
  | _, _, _ => none

/-- What the account puts into the name array. An account of 32 bytes runs on into what was there
before. -/
def Identity.front (c : Client) : Identity → Bytes
  | .home _ => []
  | .foreign account _ =>
    if account.length < 32 then account else account.take 32 ++ c.leftBehind

/-- What the name puts behind it. A name of 64 bytes runs on into what lies behind the array. -/
def Identity.back (past : Bytes) : Identity → Bytes
  | .home username => if username.length < 64 then username else username.take 64 ++ past
  | .foreign _ username => username.take 32

/-- The name that a user gets. -/
def Identity.stored (c : Client) (past : Bytes) (id : Identity) : Bytes :=
  id.front c ++ id.back past

/-- A local user has the name of an account with the name of its user behind it. -/
def ClashesHome (c : Client) (home account username : Bytes) : Prop :=
  home.length < 64 ∧
    if account.length < 32 then home = account ++ username.take 32
    else home.take 32 = account.take 32 ∧ home.drop 32 = c.leftBehind ++ username.take 32

/-- One account goes on as the other one's user begins. -/
def ClashesAway (c c' : Client) (account username account' username' : Bytes) : Prop :=
  if account.length < 32 then
    if account'.length < 32 then
      (∃ x, account' = account ++ x ∧ username.take 32 = x ++ username'.take 32) ∨
        ∃ x, account = account' ++ x ∧ username'.take 32 = x ++ username.take 32
    else ∃ x, account'.take 32 = account ++ x ∧
      username.take 32 = x ++ (c'.leftBehind ++ username'.take 32)
  else if account'.length < 32 then
    ∃ x, account.take 32 = account' ++ x ∧
      username'.take 32 = x ++ (c.leftBehind ++ username.take 32)
  else account.take 32 = account'.take 32 ∧
    c.leftBehind ++ username.take 32 = c'.leftBehind ++ username'.take 32

/-- Two different users get one name. The records are those the logins find; `past` is what lies
behind their name arrays. -/
def Clash (c c' : Client) (past past' : Bytes) : Identity → Identity → Prop
  | .home username, .home username' =>
    64 ≤ username.length ∧ 64 ≤ username'.length ∧ username.take 64 = username'.take 64 ∧
      past = past'
  | .home home, .foreign account username => ClashesHome c' home account username
  | .foreign account username, .home home => ClashesHome c home account username
  | .foreign account username, .foreign account' username' =>
    ClashesAway c c' account username account' username'

/-- A login by name and password or by signature that succeeds, and the name it leaves. -/
structure NamedLogin (env : Env) (s s' : State) (fd : Nat) (p : Addr) (c : Client) (e : Event)
    (id : Identity) (name : Bytes) : Prop where
  reachable : Reachable s
  record : s.heap p = some c
  waiting : c.state ≠ .success
  text : e.IsText
  type : e.evType = some evTypeAuth
  guest : e.isAnonymous = false
  identity : e.identity = some id
  run : ∃ recvBits data, Task.decode env ⟨fd, p, recvBits, data⟩ = .event e ∧
    (parseMessage (getFdnodeByname env) env ⟨fd, p, recvBits, data⟩).run s = some ((), s')
  success : ∃ d, s'.heap p = some d ∧ d.state = .success ∧
    d.username.read (env.overrun p .username) = some name

/-! ## Names that are equal -/

/-- The longer front goes on as the back behind the shorter one begins. -/
theorem append_eq_iff_of_le {x y x' y' : Bytes} (h : x.length ≤ x'.length) :
    x ++ y = x' ++ y' ↔ ∃ z, x' = x ++ z ∧ y = z ++ y' := by
  rw [List.append_eq_append_iff]
  constructor
  · rintro (hz | ⟨z, rfl, rfl⟩)
    · exact hz
    · rw [List.length_append] at h
      obtain rfl : z = [] := List.eq_nil_of_length_eq_zero (by omega)
      exact ⟨[], by simp, by simp⟩
  · exact Or.inl

section
variable {past past' home account' username' : Bytes}

theorem foreign_eq_iff :
    (Identity.foreign account username).stored c past =
        (Identity.foreign account' username').stored c' past' ↔
      ClashesAway c c' account username account' username' := by
  simp only [Identity.stored, Identity.front, Identity.back, ClashesAway]
  have htake : ∀ {a : Bytes}, ¬ a.length < 32 → (a.take 32).length = 32 := fun ha =>
    List.length_take_of_le (by omega)
  by_cases hlen : account.length < 32 <;> by_cases hlen' : account'.length < 32
  · rw [if_pos hlen, if_pos hlen', if_pos hlen, if_pos hlen']
    exact List.append_eq_append_iff
  · rw [if_pos hlen, if_neg hlen', if_pos hlen, if_neg hlen', List.append_assoc]
    exact append_eq_iff_of_le (by rw [htake hlen']; omega)
  · rw [if_neg hlen, if_pos hlen', if_neg hlen, if_pos hlen', List.append_assoc, eq_comm]
    exact append_eq_iff_of_le (by rw [htake hlen]; omega)
  · rw [if_neg hlen, if_neg hlen', if_neg hlen, if_neg hlen', List.append_assoc,
      List.append_assoc]
    constructor
    · exact fun heq => List.append_inj heq ((htake hlen).trans (htake hlen').symm)
    · rintro ⟨hfront, hback⟩
      rw [hfront, hback]

/-- Short names of one account are told apart. -/
theorem not_clash_of_account (haccount : account.length < 32) (hlen : username.length ≤ 32)
    (hlen' : username'.length ≤ 32) (hne : username ≠ username') :
    ¬ Clash c c' past past' (.foreign account username) (.foreign account username') := by
  rintro hclash
  have hstored : (Identity.foreign account username).stored c past =
      (Identity.foreign account username').stored c' past' := foreign_eq_iff.mpr hclash
  refine hne ?_
  simpa only [Identity.stored, Identity.front, if_pos haccount, Identity.back,
    List.take_of_length_le hlen, List.take_of_length_le hlen', List.append_cancel_left_eq]
    using hstored

end

/-! ## The name in the record -/

theorem read_strncpy_name (a : CharArray 64) (h0 : 0 ∉ username) {behind : Option Bytes}
    (h : (a.strncpy username 64 (by decide)).read behind = some name) :
    name = (Identity.home username).back (behind.getD []) := by
  have hterm := CharArray.terminated_strncpy a h0
  by_cases hlen : username.length < 64
  · rw [CharArray.read_of_terminated (hterm.mpr hlen), CharArray.text_strncpy a h0 hlen] at h
    simp only [Identity.back, if_pos hlen]
    exact (Option.some.inj h).symm
  · rw [CharArray.read, if_neg (mt hterm.mp hlen)] at h
    obtain ⟨rest, hrest, rfl⟩ := Option.map_eq_some_iff.mp h
    have hdrop : a.bytes.drop 64 = [] := List.drop_eq_nil_of_le a.size_eq.le
    have hpad : 64 - username.length = 0 := by omega
    simp only [Identity.back, if_neg hlen, hrest, CharArray.strncpy, hpad, List.replicate_zero,
      hdrop, List.append_nil, Option.getD_some]

theorem read_strncat_name {a : CharArray 64} (h0 : 0 ∉ account) (h0' : 0 ∉ username)
    (ha : (c.username.strncpy account 32 (by decide)).strncat username 32 = some a)
    {behind : Option Bytes} (h : a.read behind = some name) :
    name = (Identity.foreign account username).stored c past ∧ name.length < 64 := by
  obtain ⟨-, hfit, hbytes⟩ := CharArray.strncat_eq_some ha
  have hterm : a.terminated = true := by
    rw [CharArray.terminated, List.contains_iff_mem, hbytes]
    simp
  rw [CharArray.read_of_terminated hterm, CharArray.text_strncat h0' ha] at h
  rw [← Option.some.inj h]
  refine ⟨?_, by rwa [List.length_append]⟩
  rw [Identity.stored, Identity.back, Identity.front]
  congr 1
  split
  · rename_i hlen
    exact CharArray.text_strncpy_of_lt _ _ h0 hlen
  · rename_i hlen
    exact CharArray.text_strncpy_of_le _ _ h0 (by omega)

/-- The name is what the account puts into the array and what the name puts behind it. With
another account it fits the array. -/
theorem name_of_passed {now : Int} {id : Identity} (he : e.IsText) (hguest : e.isAnonymous = false)
    (hid : e.identity = some id) (h : authCredentials env now c e = some (.passed d))
    {behind : Option Bytes} (hname : d.username.read behind = some name) :
    name = id.stored c (behind.getD []) ∧
      ∀ account username, id = .foreign account username → name.length < 64 := by
  unfold authCredentials at h
  rw [hguest, if_neg Bool.false_ne_true] at h
  unfold Event.identity at hid
  split at h
  · rename_i username password hu hpw
    rw [hu, hpw] at hid
    cases hid
    rcases authPassword_cases h with ⟨-, hout⟩ | ⟨stored, salt, -, -, hout⟩
    · cases hout
    · split at hout
      · cases hout
        exact ⟨read_strncpy_name c.username (he.attr _ _ hu) hname, fun _ _ h => by cases h⟩
      · cases hout
  · rename_i hnopw
    split at h
    · rename_i username sign account timestampChar hu hsign haccount htime
      split at h
      · obtain ⟨stored, hstored, hd⟩ := authSignature_client h
        have hpw : e.attr .password = none := by
          cases hpw : e.attr .password with
          | none => rfl
          | some password => exact (hnopw username password hu hpw).elim
        have hd : d.username = stored := by
          have hd : d = c.renamed 0 stored := hd
          rw [hd]
          rfl
        rw [hu, hpw, haccount] at hid
        simp only [Option.some.injEq] at hid
        rw [hd] at hname
        unfold signedName at hstored
        by_cases hlocal : account = localAccount
        · rw [if_neg (not_not.mpr hlocal)] at hstored
          rw [if_pos hlocal] at hid
          cases hstored
          cases hid
          exact ⟨read_strncpy_name c.username (he.attr _ _ hu) hname, fun _ _ h => by cases h⟩
        · rw [if_pos hlocal] at hstored
          rw [if_neg hlocal] at hid
          cases hid
          obtain ⟨heq, hfit⟩ :=
            read_strncat_name (he.attr _ _ haccount) (he.attr _ _ hu) hstored hname
          exact ⟨heq, fun _ _ _ => hfit⟩
      · cases h
    · cases h

/-- A client that changes its room keeps its name. -/
theorem JoinEffect.username_self (hp : s.heap p = some c) {roomid : Int}
    (h : JoinEffect env p c roomid s s') : ∃ d, s'.heap p = some d ∧ d.username = c.username := by
  rcases h with ⟨l, -, rfl⟩ | ⟨r, l₁, l₂, -, -, -, -, -, -, rfl⟩
  · exact ⟨c, hp, rfl⟩
  · exact ⟨{ c with roomid := (r : Int) }, by simp, rfl⟩

theorem NamedLogin.name_eq {id : Identity} (h : NamedLogin env s s' fd p c e id name) :
    name = id.stored c ((env.overrun p .username).getD []) ∧
      ∀ account username, id = .foreign account username → name.length < 64 := by
  have hs := h.reachable.toAnyLookup.sound
  obtain ⟨recvBits, data, hdecode, hrun⟩ := h.run
  obtain ⟨d, hd, hstate, hname⟩ := h.success
  have hauth : AuthEffect (getFdnodeByname env) env fd e p c (s.tick env.now) s' :=
    parseMessage_auth hs (getFdnodeByname_registered env) h.record hdecode h.type hrun
  cases hauth with
  | already hc => exact absurd hc h.waiting
  | refused w why _ hw h' =>
    have hsame : c.SameSession w := authCredentials_client hw
    have hw' : s'.heap p = some w := by simp [h', State.sendMessage]
    rw [hd] at hw'
    cases hw'
    exact absurd (hsame.state.symm.trans hstate) h.waiting
  | passed c' w name' node u _ hpass hw hname' hnode hrival hjoin =>
    obtain ⟨w', hw', husername⟩ := hjoin.username_self (by simp [State.login, State.sendMessage])
    rw [hd] at hw'
    cases hw'
    have husername : d.username = c'.username := by
      rw [husername]
      show w.username = c'.username
      rw [hw, setCharacter_username]
    rw [husername] at hname
    exact name_of_passed h.text h.guest h.identity hpass hname

end ArpgServer
