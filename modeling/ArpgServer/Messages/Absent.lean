import ArpgServer.Effects.Endings
import ArpgServer.Messages.Buffers
import ArpgServer.Messages.Supplied

/-!
# Absent fields

`parse_message` looks up all fields of an event first and each branch tests those it needs. The
fields that a branch gives to functions on texts are collected here. Four branches give away a
field that may be absent: the test of `state` is the wrong way round, `character` is not tested,
and the tests of `body` read a pointer that is only assigned when there is a body.
-/

namespace ArpgServer

open CText

variable {lookup : Lookup} {env : Env} {s : State} {p : Addr} {c : Client} {fd : Nat} {e : Event}
  {task : Task}

/-- A field that is used behind a test of its presence. -/
def tested (field : Option Bytes) : List (Option Bytes) := if field.isSome then [field] else []

/-- The local `timestamp`. -/
def Event.timestamp (e : Event) : Int :=
  match e.attr .timestamp with
  | none => 0
  | some timestampChar => atol timestampChar

/-- The fields that a login gives to functions on texts. -/
def Event.loginFields (e : Event) : List (Option Bytes) :=
  tested (e.attr .anonymous) ++
    (if e.isAnonymous then []
    else if (e.attr .username).isSome ∧ (e.attr .password).isSome then
      [e.attr .username, e.attr .password]
    else if (e.attr .username).isSome ∧ (e.attr .sign).isSome ∧ (e.attr .account).isSome ∧
        e.timestamp ≠ 0 then
      [e.attr .account, e.attr .username, e.attr .timestamp, e.attr .sign]
    else []) ++
    tested (e.attr .character)

/-- The fields that the branch of a type gives to functions on texts. -/
def Event.handlerFields (e : Event) (lookup : Lookup) (env : Env) (s : State) (p : Addr)
    (c : Client) (evType : Int) : List (Option Bytes) :=
  let body := e.localBody env
  if evType = evTypeAuth then if c.state = .success then [] else e.loginFields
  else if evType = evTypeUserChangeState ∧ c.state = .success then
    if (e.attr .state).isNone then [e.attr .state] else []
  else if evType = evTypeChangeCharacter ∧ c.state = .success then [e.attr .character]
  else if evType = evTypePrivateMessage ∧ c.state = .success ∧ (e.attr .target).isSome ∧
      body.isNull = false then
    if c.type = clientTypeShutup then []
    else
      match (e.attr .target).bind fun target => targetOf lookup env p c target s with
      | some (some _) => [e.attr .target, body.deref]
      | _ => [e.attr .target]
  else if evType = evTypePublicMessage ∧ c.state = .success ∧ body.isNull = false then
    if c.type = clientTypeShutup then [] else [body.deref]
  else if (evType = evTypeAdminCommandGoout ∨ evType = evTypeAdminCommandShutup) ∧
      c.state = .success then
    if c.type = clientTypeAdmin then tested (e.attr .username) else []
  else if evType = evTypeMove ∧ c.state = .success then
    tested (e.attr .direction) ++
      if (e.attr .x).isSome ∧ (e.attr .y).isSome then [e.attr .x, e.attr .y] else []
  else if evType = evTypeDoing ∧ c.state = .success then tested (e.attr .doing)
  else []

/-- All fields that `parse_message` gives to functions on texts. -/
def Event.usedFields (e : Event) (lookup : Lookup) (env : Env) (s : State) (p : Addr)
    (c : Client) : List (Option Bytes) :=
  match e.evType with
  | none => []
  | some evType =>
    e.attr .type :: tested (e.attr .roomid) ++ tested (e.attr .timestamp) ++
      e.handlerFields lookup env s p c evType

/-- The environment in which the local `body` starts with a value. -/
def Env.withBody (env : Env) (body : LocalPtr) : Env := { env with body := body }

/-- The event has the fields that are used without a good test: the number of a state, the
character to change to, and the body of a message that somebody gets. -/
structure FieldsPresent (env : Env) (s : State) (p : Addr) (c : Client) (e : Event) : Prop where
  state : e.evType = some evTypeUserChangeState → c.state = .success → (e.attr .state).isSome
  character : e.evType = some evTypeChangeCharacter → c.state = .success →
    (e.attr .character).isSome
  privateBody : e.evType = some evTypePrivateMessage → c.state = .success →
    ∀ target q, e.attr .target = some target → c.type ≠ clientTypeShutup →
      targetOf (getFdnodeByname env) env p c target s = some (some q) → e.body.isSome
  publicBody : e.evType = some evTypePublicMessage → c.state = .success →
    c.type ≠ clientTypeShutup → e.body.isSome

/-- Everything but the fields is in order: what lies behind the arrays can be read, a database
is configured, and the texts that a login builds are short enough. -/
structure SoundMemory (env : Env) (c : Client) (e : Event) : Prop where
  legible : env.Legible
  message : env.message.isSome
  dbType : env.dbType.isSome
  fit : CredentialsFit env env.now e
  named : ∀ account username, BySignature e account username →
    (signedName c account username).isSome
  crypted : ∀ username sign account timestampChar key,
    Signed env.now e username sign account timestampChar → luaGetaccountkey env account = some key →
    ∃ r, env.crypt (signedText key username timestampChar) sign = some r ∧ 0 ∉ r ∧ r.length < 64

/-- The log lines that a login reaches come back: no password is found for the name, and a name
that is signed is a format that the two arguments serve. -/
structure LogServed (env : Env) (e : Event) : Prop where
  password : ∀ username password, Asked e username password → storedRow env username = none
  signature : ∀ account username, BySignature e account username →
    logUsername username = some ()

/-- The message is no login, or one that its log lines let pass. -/
def LoginServed (env : Env) (c : Client) (e : Event) : Prop :=
  e.evType = some evTypeAuth → c.state ≠ .success → LogServed env e

/-! ## The fields in use -/

theorem mem_tested {field v : Option Bytes} (h : v ∈ tested field) : v.isSome := by
  unfold tested at h
  split at h
  · rename_i hsome
    rwa [List.mem_singleton.mp h]
  · cases h

/-- The checks of a login use what they have tested. -/
theorem Event.loginFields_isSome {v : Option Bytes} (h : v ∈ e.loginFields) : v.isSome := by
  simp only [Event.loginFields, List.mem_append] at h
  rcases h with (h | h) | h
  · exact mem_tested h
  · split at h
    · cases h
    split at h
    · rename_i hpassword
      rcases List.mem_pair.mp h with rfl | rfl
      · exact hpassword.1
      · exact hpassword.2
    split at h
    · rename_i hsign
      obtain ⟨hu, hs, ha, ht⟩ := hsign
      have htime : (e.attr .timestamp).isSome := by
        by_contra hnone
        rw [Option.not_isSome_iff_eq_none] at hnone
        exact ht (by rw [Event.timestamp, hnone])
      simp only [List.mem_cons, List.not_mem_nil, or_false] at h
      rcases h with rfl | rfl | rfl | rfl
      · exact ha
      · exact hu
      · exact htime
      · exact hs
    · cases h
  · exact mem_tested h

theorem Event.handlerFields_isSome {evType : Int}
    (hgiven : UntestedGiven lookup env s p c e evType) {v : Option Bytes}
    (h : v ∈ e.handlerFields lookup env s p c evType) : v.isSome := by
  simp only [Event.handlerFields] at h
  split at h
  · split at h
    · cases h
    · exact Event.loginFields_isSome h
  split at h
  · rename_i hState
    rw [if_neg] at h
    · cases h
    · rw [Option.isNone_iff_eq_none]
      exact Option.isSome_iff_ne_none.mp (hgiven.state hState.1 hState.2)
  split at h
  · rename_i hChar
    rw [List.mem_singleton.mp h]
    exact hgiven.character hChar.1 hChar.2
  split at h
  · rename_i hPrivate
    obtain ⟨htype, hc, htarget, hbody⟩ := hPrivate
    split at h
    · cases h
    rename_i hmuted
    split at h
    · rename_i q hq
      obtain ⟨target, ht, hq⟩ := Option.bind_eq_some_iff.mp hq
      rcases List.mem_pair.mp h with rfl | rfl
      · exact htarget
      · exact hgiven.privateBody htype hc hbody target q ht hmuted hq
    · rwa [List.mem_singleton.mp h]
  split at h
  · rename_i hPublic
    split at h
    · cases h
    · rename_i hmuted
      rw [List.mem_singleton.mp h]
      exact hgiven.publicBody hPublic.1 hPublic.2.1 hPublic.2.2 hmuted
  split at h
  · split at h
    · exact mem_tested h
    · cases h
  split at h
  · rcases List.mem_append.mp h with h | h
    · exact mem_tested h
    split at h
    · rename_i hxy
      rcases List.mem_pair.mp h with rfl | rfl
      · exact hxy.1
      · exact hxy.2
    · cases h
  split at h
  · exact mem_tested h
  · cases h

theorem untestedGiven_of_handlerFields {evType : Int}
    (h : ∀ v ∈ e.handlerFields lookup env s p c evType, v.isSome) :
    UntestedGiven lookup env s p c e evType := by
  constructor
  · rintro rfl hc
    rw [Event.handlerFields, if_neg (by decide), if_pos ⟨rfl, hc⟩] at h
    by_contra hnone
    rw [if_pos (by simpa using hnone)] at h
    exact hnone (h _ (List.mem_singleton_self _))
  · rintro rfl hc
    rw [Event.handlerFields, if_neg (by decide), if_neg (fun h => absurd h.1 (by decide)),
      if_pos ⟨rfl, hc⟩] at h
    exact h _ (List.mem_singleton_self _)
  · rintro rfl hc hbody target q htarget htype hq
    rw [Event.handlerFields, if_neg (by decide), if_neg (fun h => absurd h.1 (by decide)),
      if_neg (fun h => absurd h.1 (by decide)),
      if_pos ⟨rfl, hc, Option.isSome_iff_exists.mpr ⟨target, htarget⟩, hbody⟩, if_neg htype,
      htarget, Option.bind_some, hq] at h
    exact h _ (List.mem_cons_of_mem _ (List.mem_singleton_self _))
  · rintro rfl hc hbody htype
    rw [Event.handlerFields, if_neg (by decide), if_neg (fun h => absurd h.1 (by decide)),
      if_neg (fun h => absurd h.1 (by decide)), if_neg (fun h => absurd h.1 (by decide)),
      if_pos ⟨rfl, hc, hbody⟩, if_neg htype] at h
    exact h _ (List.mem_singleton_self _)

/-- No absent field is used exactly when the untested ones are there. -/
theorem Event.usedFields_iff {evType : Int} (ht : e.evType = some evType) :
    (∀ v ∈ e.usedFields lookup env s p c, v.isSome) ↔
      UntestedGiven lookup env s p c e evType := by
  have htype : (e.attr .type).isSome := by
    obtain ⟨type, htype, -⟩ := Option.map_eq_some_iff.mp ht
    exact Option.isSome_iff_exists.mpr ⟨type, htype⟩
  have hfields : e.usedFields lookup env s p c = e.attr .type :: tested (e.attr .roomid) ++
      tested (e.attr .timestamp) ++ e.handlerFields lookup env s p c evType := by
    rw [Event.usedFields, ht]
  rw [hfields]
  constructor
  · intro h
    exact untestedGiven_of_handlerFields fun v hv => h v (List.mem_append_right _ hv)
  · intro hgiven v hv
    rcases List.mem_append.mp hv with hv | hv
    · rcases List.mem_append.mp hv with hv | hv
      · rcases List.mem_cons.mp hv with rfl | hv
        · exact htype
        · exact mem_tested hv
      · exact mem_tested hv
    · exact Event.handlerFields_isSome hgiven hv

/-! ## A login that is in order -/

theorem SoundMemory.withBody (h : SoundMemory env c e) (body : LocalPtr) :
    SoundMemory (env.withBody body) c e where
  legible := ⟨h.legible.stale, h.legible.overrun⟩
  message := h.message
  dbType := h.dbType
  fit := ⟨h.fit.stored, h.fit.signed⟩
  named := h.named
  crypted := h.crypted

/-- The password branch ends when there is no password to compare with. -/
theorem SoundMemory.authPassword_ends_iff (h : SoundMemory env c e) {username password : Bytes}
    (hasked : Asked e username password) :
    (authPassword env c username password).isSome ↔ storedRow env username = none := by
  have hrow : getPassword env username = some (storedRow env username) := by
    apply getPassword_total h.dbType
    intro stored salt hrow
    have hlen := h.fit.stored username password stored salt hasked hrow
    omega
  rw [authPassword, hrow, Option.bind_some]
  cases hstored : storedRow env username with
  | none => simp
  | some row => simp [md5_eq_none]

/-- The signature branch ends when the name it logs is a format that is served. -/
theorem SoundMemory.authSignature_ends_iff (h : SoundMemory env c e)
    {username sign account timestampChar : Bytes} (hbranch : BySignature e account username)
    (hsign : e.attr .sign = some sign) (htime : e.attr .timestamp = some timestampChar)
    (hnonzero : atol timestampChar ≠ 0) :
    (authSignature env env.now c username sign account timestampChar).isSome ↔
      logUsername username = some () := by
  obtain ⟨name, hname⟩ := Option.isSome_iff_exists.mp (h.named account username hbranch)
  rw [authSignature, hname, Option.bind_some]
  cases hlog : logUsername username with
  | none => simp
  | some _ =>
    rw [Option.bind_some]
    refine iff_of_true ?_ rfl
    dsimp only
    split
    · rename_i hrecent
      have hsigned : Signed env.now e username sign account timestampChar :=
        ⟨hbranch.guest, hbranch.username, hbranch.password, hsign, hbranch.account, htime, hnonzero,
          hrecent⟩
      suffices hcrypt : ∃ crypted, cryptStr env account username timestampChar sign = some crypted ∧
          crypted.terminated by
        obtain ⟨crypted, hcrypted, hterm⟩ := hcrypt
        rw [hcrypted, Option.bind_some, CharArray.strcmp_of_terminated hterm]
        rfl
      cases hkey : luaGetaccountkey env account with
      | none =>
        refine ⟨CharArray.zero 64, ?_, by decide⟩
        rw [cryptStr, hkey]
      | some key =>
        obtain ⟨r, hr, h0, hlen⟩ := h.crypted _ _ _ _ key hsigned hkey
        have hshort := h.fit.signed _ _ _ _ key hsigned hkey
        refine ⟨(CharArray.zero 64).strncpy r 64 (by decide), ?_,
          (CharArray.terminated_strncpy _ h0).mpr hlen⟩
        have htext : (key.take maxCharLength).take 18 ++ username ++ timestampChar =
            signedText key username timestampChar := by
          rw [List.take_take]
          rfl
        have hroom : (signedText key username timestampChar).length < maxBufferLength := by
          simp only [signedText, List.length_append, List.length_take, maxBufferLength]
          omega
        simp only [cryptStr, hkey, htext, if_pos hroom, hr, Option.map_some]
    · rfl

/-- A login that asks for no password and brings no signature reaches none of the two lines. -/
theorem logServed_of_plain (hpw : ∀ username password, ¬ Asked e username password)
    (hsig : ∀ account username, ¬ BySignature e account username) : LogServed env e :=
  ⟨fun _ _ h => absurd h (hpw _ _), fun _ _ h => absurd h (hsig _ _)⟩

theorem SoundMemory.authCredentials_ends_iff (h : SoundMemory env c e) :
    (authCredentials env env.now c e).isSome ↔ LogServed env e := by
  unfold authCredentials
  split
  · rename_i hguest
    refine iff_of_true rfl (logServed_of_plain ?_ ?_)
    · exact fun _ _ hasked => absurd hguest (by simp [hasked.guest])
    · exact fun _ _ hsig => absurd hguest (by simp [hsig.guest])
  rename_i hguest
  have hguest : e.isAnonymous = false := by simpa using hguest
  split
  · rename_i username password hu hpw
    have hasked : Asked e username password := ⟨hguest, hu, hpw⟩
    rw [h.authPassword_ends_iff hasked]
    constructor
    · intro hnone
      refine ⟨fun username' password' hasked' => ?_, fun account username' hsig => ?_⟩
      · cases hu.symm.trans hasked'.username
        exact hnone
      · rw [hsig.password] at hpw
        cases hpw
    · exact fun hserved => hserved.password username password hasked
  rename_i hnopw
  have hpw : ∀ username password, ¬ Asked e username password := fun username password hasked =>
    hnopw username password hasked.username hasked.password
  split
  · rename_i username sign account timestampChar hu hs ha ht
    have hpassword : e.attr .password = none := by
      cases hpw : e.attr .password with
      | none => rfl
      | some password => exact (hnopw username password hu hpw).elim
    split
    · rename_i hnonzero
      have hsig : BySignature e account username :=
        ⟨hguest, hu, hpassword, ⟨sign, hs⟩, ha, timestampChar, ht, hnonzero⟩
      rw [h.authSignature_ends_iff hsig hs ht hnonzero]
      constructor
      · refine fun hlog =>
          ⟨fun _ _ hasked => absurd hasked (hpw _ _), fun account' username' h' => ?_⟩
        obtain ⟨-, rfl⟩ := hsig.unique h'
        exact hlog
      · exact fun hserved => hserved.signature account username hsig
    · rename_i hzero
      refine iff_of_true rfl (logServed_of_plain hpw fun account' username' hsig => ?_)
      obtain ⟨timestampChar', ht', hnonzero⟩ := hsig.timestamp
      cases ht.symm.trans ht'
      exact hzero hnonzero
  · rename_i hnosig
    refine iff_of_true rfl (logServed_of_plain hpw fun account username hsig => ?_)
    obtain ⟨sign, hs⟩ := hsig.sign
    obtain ⟨timestampChar, ht, -⟩ := hsig.timestamp
    exact hnosig username sign account timestampChar hsig.username hs hsig.account ht

/-! ## Whatever the local holds -/

theorem fdByName_withBody (body : LocalPtr) (s : State) (name : Bytes) (ufd : Int)
    (l : List HashItem) :
    fdByName (env.withBody body) s name ufd l = fdByName env s name ufd l := by
  have hkey : keyIs (env.withBody body) = keyIs env := rfl
  exact fdByName_of_keyIs (fun _ => by rw [hkey]) ufd l

theorem targetOf_withBody (hsize : 0 < s.hashSize) (body : LocalPtr) (target : Bytes) :
    targetOf (getFdnodeByname (env.withBody body)) (env.withBody body) p c target s =
      targetOf (getFdnodeByname env) env p c target s := by
  unfold targetOf
  rw [getFdnodeByname_eq hsize, getFdnodeByname_eq hsize, fdByName_withBody]
  rfl

theorem localBody_isSome (h : e.body.isSome) (env : Env) : (e.localBody env).deref.isSome := by
  obtain ⟨b, hb⟩ := Option.isSome_iff_exists.mp h
  rw [Event.localBody, hb]
  rfl

/-- The message that somebody gets has a body if its local may hold anything. -/
theorem body_isSome (h : (e.localBody (env.withBody .wild)).isNull = false →
    (e.localBody (env.withBody .wild)).deref.isSome) : e.body.isSome := by
  by_contra hnone
  have hlocal : e.localBody (env.withBody .wild) = .wild := by
    rw [Event.localBody, Option.not_isSome_iff_eq_none.mp hnone]
    rfl
  rw [hlocal] at h
  cases h rfl

theorem forall_untestedGiven_iff (hsize : 0 < s.hashSize) {evType : Int}
    (ht : e.evType = some evType) :
    (∀ body, UntestedGiven (getFdnodeByname (env.withBody body)) (env.withBody body) s p c e
      evType) ↔ FieldsPresent env s p c e := by
  have htype : ∀ {n : Int}, e.evType = some n ↔ evType = n := by
    intro n
    rw [ht, Option.some_inj]
  constructor
  · intro h
    constructor
    · exact fun hn => (h .null).state (htype.mp hn)
    · exact fun hn => (h .null).character (htype.mp hn)
    · intro hn hc target q htarget hmuted hq
      rw [← targetOf_withBody hsize .wild] at hq
      exact body_isSome fun hnull =>
        (h .wild).privateBody (htype.mp hn) hc hnull target q htarget hmuted hq
    · intro hn hc hmuted
      exact body_isSome fun hnull => (h .wild).publicBody (htype.mp hn) hc hnull hmuted
  · intro h body
    constructor
    · exact fun hn => h.state (htype.mpr hn)
    · exact fun hn => h.character (htype.mpr hn)
    · intro hn hc _ target q htarget hmuted hq
      rw [targetOf_withBody hsize] at hq
      exact localBody_isSome (h.privateBody (htype.mpr hn) hc target q htarget hmuted hq) _
    · intro hn hc _ hmuted
      exact localBody_isSome (h.publicBody (htype.mpr hn) hc hmuted) _

/-- An event without a type needs nothing. -/
theorem fieldsPresent_of_untyped (ht : e.evType = none) : FieldsPresent env s p c e := by
  have hno : ∀ n, e.evType ≠ some n := by
    intro n hn
    rw [ht] at hn
    cases hn
  exact ⟨fun hn => absurd hn (hno _), fun hn => absurd hn (hno _), fun hn => absurd hn (hno _),
    fun hn => absurd hn (hno _)⟩

theorem usedFields_iff_present (hsize : 0 < s.hashSize) :
    (∀ body, ∀ v ∈ e.usedFields (getFdnodeByname (env.withBody body)) (env.withBody body) s p c,
      v.isSome) ↔ FieldsPresent env s p c e := by
  cases ht : e.evType with
  | none =>
    refine iff_of_true ?_ (fieldsPresent_of_untyped ht)
    intro body v hv
    rw [Event.usedFields, ht] at hv
    cases hv
  | some evType =>
    rw [← forall_untestedGiven_iff hsize ht]
    exact forall_congr' fun body => Event.usedFields_iff ht

/-! ## The message -/

theorem UntestedGiven.tick_iff {evType : Int} (now : Int) :
    UntestedGiven (getFdnodeByname env) env (s.tick now) p c e evType ↔
      UntestedGiven (getFdnodeByname env) env s p c e evType := by
  constructor
  · intro h
    refine ⟨h.state, h.character, ?_, h.publicBody⟩
    intro hn hc hnull target q htarget hmuted hq
    exact h.privateBody hn hc hnull target q htarget hmuted ((targetOf_tick target now).trans hq)
  · intro h
    refine ⟨h.state, h.character, ?_, h.publicBody⟩
    intro hn hc hnull target q htarget hmuted hq
    exact h.privateBody hn hc hnull target q htarget hmuted
      ((targetOf_tick target now).symm.trans hq)

/-- In one environment that is in order, an event is handled to its end exactly when the
untested fields are there and the log lines of a login come back. -/
theorem SoundMemory.parseEvent_ends_iff (h : SoundMemory env c e) (hs : Sound s)
    (hsize : 0 < s.hashSize) (hp : s.heap p = some c) {evType : Int}
    (ht : e.evType = some evType) :
    (parseEvent (getFdnodeByname env) env p fd e).Ends s ↔
      UntestedGiven (getFdnodeByname env) env s p c e evType ∧ LoginServed env c e := by
  have htick : (s.tick env.now).heap p = some c := hp
  have hhandled : (parseEvent (getFdnodeByname env) env p fd e).Ends s ↔
      (handleEvent (getFdnodeByname env) env p fd e evType c.state).Ends (s.tick env.now) := by
    rw [Proc.Ends, parseEvent_run hp ht, Proc.Ends]
  rw [hhandled, ← UntestedGiven.tick_iff env.now]
  constructor
  · intro hends
    refine ⟨untestedGiven_of_ends htick hends, fun hauth hc => ?_⟩
    obtain rfl := Option.some.inj (ht.symm.trans hauth)
    have hchecks := authCredentials_of_ends htick hc hends
    exact h.authCredentials_ends_iff.mp hchecks
  · rintro ⟨hgiven, hserved⟩
    refine handleEvent_ends (hs.tick env.now) h.legible h.message hsize htick ?_ hgiven
    rintro rfl hc
    exact h.authCredentials_ends_iff.mpr (hserved ht hc)

theorem SoundMemory.parseMessage_ends_iff (h : SoundMemory env c e) (hs : Sound s)
    (hsize : 0 < s.hashSize) (hp : s.heap task.client = some c)
    (hdecode : task.decode env = .event e) :
    (∀ body, (parseMessage (getFdnodeByname (env.withBody body)) (env.withBody body) task).Ends s) ↔
      FieldsPresent env s task.client c e ∧ LoginServed env c e := by
  have hparse : ∀ body,
      parseMessage (getFdnodeByname (env.withBody body)) (env.withBody body) task =
        parseEvent (getFdnodeByname (env.withBody body)) (env.withBody body) task.client task.fd
          e := by
    intro body
    have hdecode' : task.decode (env.withBody body) = .event e := hdecode
    rw [parseMessage_decode, hdecode']
  simp only [hparse]
  cases ht : e.evType with
  | none =>
    refine iff_of_true ?_ ⟨fieldsPresent_of_untyped ht, fun hauth => ?_⟩
    · intro body
      rw [parseEvent, Option.map_eq_none_iff.mp ht]
      exact .ret () s
    · rw [ht] at hauth
      cases hauth
  | some evType =>
    have hbody : ∀ body, LoginServed (env.withBody body) c e ↔ LoginServed env c e := fun body =>
      forall_congr' fun _ => forall_congr' fun _ =>
        ⟨fun hlog => ⟨hlog.password, hlog.signature⟩, fun hlog => ⟨hlog.password, hlog.signature⟩⟩
    have hends : ∀ body, (parseEvent (getFdnodeByname (env.withBody body)) (env.withBody body)
        task.client task.fd e).Ends s ↔ UntestedGiven (getFdnodeByname (env.withBody body))
          (env.withBody body) s task.client c e evType ∧ LoginServed env c e := by
      intro body
      rw [(h.withBody body).parseEvent_ends_iff hs hsize hp ht, hbody body]
    rw [← forall_untestedGiven_iff hsize ht]
    have : Nonempty LocalPtr := ⟨.null⟩
    simp only [hends, forall_and, forall_const]

/-- **Absent fields.** No absent field is used exactly when the fields that are used without a
good test are there; and a message in order is handled without a fault exactly when, besides, the
log lines of a login come back. -/
theorem absent_unused_iff (hs : Reachable s) (hp : s.heap task.client = some c)
    (hdecode : task.decode env = .event e) :
    ((∀ body, ∀ v ∈ e.usedFields (getFdnodeByname (env.withBody body)) (env.withBody body) s
        task.client c, v.isSome) ↔ FieldsPresent env s task.client c e) ∧
    (SoundMemory env c e →
      ((∀ body, (parseMessage (getFdnodeByname (env.withBody body)) (env.withBody body)
        task).Ends s) ↔ FieldsPresent env s task.client c e ∧ LoginServed env c e)) := by
  have hsize := hs.toAnyLookup.hashSize_pos
  refine ⟨usedFields_iff_present hsize, ?_⟩
  exact fun horder => horder.parseMessage_ends_iff hs.toAnyLookup.sound hsize hp hdecode

/-! ## A guest that says hello and one that changes nothing -/

/-- An environment in which all memory can be read. -/
def orderlyEnv (m : Packet) : Env :=
  { (Env.delivering 0 m).cleared with dbType := some databaseTypeMysql, message := some [] }

theorem soundMemory_nameless (m : Packet) (c : Client) (hu : e.attr .username = none) :
    SoundMemory (orderlyEnv m) c e := by
  have hno : ∀ username, e.attr .username ≠ some username := by
    intro username h
    rw [hu] at h
    cases h
  refine ⟨⟨fun _ => rfl, fun _ _ => rfl⟩, rfl, rfl, ⟨?_, ?_⟩, ?_, ?_⟩
  · intro username _ _ _ h
    exact absurd h.username (hno username)
  · intro username _ _ _ _ h
    exact absurd h.username (hno username)
  · intro _ username h
    exact absurd h.username (hno username)
  · intro username _ _ _ _ h
    exact absurd h.username (hno username)

theorem orderly_decode {m : Packet} (hquit : m.text.takeWhile (· ≠ 0) ≠ quitText)
    (hping : m.text.takeWhile (· ≠ 0) ≠ pingText) :
    Task.decode (orderlyEnv m) ⟨5, 100, 4, m.data⟩ = .event m.event :=
  decode_packet hquit hping 0 5 100

/-- A guest says hello. -/
theorem absent_unused_iff_hello : ∃ (s : State) (c : Client), Reachable s ∧
    s.heap 100 = some c ∧ ∀ body,
      (parseMessage (getFdnodeByname ((orderlyEnv greeting).withBody body))
        ((orderlyEnv greeting).withBody body) ⟨5, 100, 4, greeting.data⟩).Ends s := by
  obtain ⟨s, c, hs, -, hc, -⟩ := exists_guest
  have hdecode : Task.decode (orderlyEnv greeting) ⟨5, 100, 4, greeting.data⟩ =
      .event greeting.event :=
    orderly_decode (by decide +kernel) (by decide +kernel)
  have htype : greeting.event.evType = some evTypePublicMessage := by decide +kernel
  have hu : greeting.event.attr .username = none := by decide +kernel
  refine ⟨s, c, hs, hc, ((absent_unused_iff hs hc hdecode).2 (soundMemory_nameless _ c hu)).mpr
    ⟨?_, fun hauth => absurd (htype.symm.trans hauth) (by decide)⟩⟩
  constructor
  · intro hn
    exact absurd (htype.symm.trans hn) (by decide)
  · intro hn
    exact absurd (htype.symm.trans hn) (by decide)
  · exact fun _ _ _ _ _ _ _ => rfl
  · exact fun _ _ _ => rfl

/-- A change of state that does not say which. -/
def bareState : Packet where
  data := [120, 156, 179, 73, 45, 75, 205, 43, 81, 40, 169, 44, 72, 181, 85, 55, 50, 86, 215, 183,
    3, 0, 59, 236, 5, 158]
  text := ofString "<event type='23'/>"
  event := .ofList [(.type, ofString "23")]

/-- The guest changes its state to none. -/
theorem absent_used : ¬ ∀ (env : Env) (s : State) (task : Task) (c : Client) (e : Event),
    Reachable s → s.fdClients task.fd = some task.client → s.heap task.client = some c →
    task.decode env = .event e →
    (∀ v ∈ e.usedFields (getFdnodeByname env) env s task.client c, v.isSome) ∧
      (SoundMemory env c e → (parseMessage (getFdnodeByname env) env task).Ends s) := by
  intro hall
  obtain ⟨s, c, hs, h5, hc, hstate⟩ := exists_guest
  have hdecode : Task.decode (orderlyEnv bareState) ⟨5, 100, 4, bareState.data⟩ =
      .event bareState.event :=
    orderly_decode (by decide +kernel) (by decide +kernel)
  have htype : bareState.event.evType = some evTypeUserChangeState := by decide +kernel
  have hu : bareState.event.attr .username = none := by decide +kernel
  have horder : SoundMemory (orderlyEnv bareState) c bareState.event := soundMemory_nameless _ c hu
  obtain ⟨-, hends⟩ := hall _ s ⟨5, 100, 4, bareState.data⟩ c _ hs h5 hc hdecode
  have hends := hends horder
  rw [parseMessage_decode, hdecode] at hends
  have hgiven := ((horder.parseEvent_ends_iff hs.toAnyLookup.sound hs.toAnyLookup.hashSize_pos hc
    htype).mp hends).1
  have hgone : (bareState.event.attr .state).isSome = false := by decide +kernel
  rw [hgiven.state rfl hstate] at hgone
  cases hgone

end ArpgServer
