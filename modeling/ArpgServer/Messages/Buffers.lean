import ArpgServer.Messages.Credentials

/-!
# The buffers of the credential checks

While a login is checked, strings of other people's lengths are put into arrays of the stack:
the stored password and salt, the digest with the salt behind it, and the text that is signed.
None of these copies has a limit. The checks come to an end only when all of them fit.
-/

namespace ArpgServer

open CText

variable {env : Env} {now : Int} {c : Client} {e : Event}
  {username password stored salt sign account timestampChar key : Bytes}

/-- A string and the size of the buffer it is built in. -/
structure Copy where
  text : Bytes
  size : Nat
  deriving DecidableEq

/-- The string and its terminator fit. -/
def Copy.Fits (copy : Copy) : Prop := copy.text.length < copy.size

instance : DecidablePred Copy.Fits := fun _ => inferInstanceAs (Decidable (_ < _))

/-- What `get_password` finds for a name: the row of the database or the entry of the table. -/
def storedRow (env : Env) (username : Bytes) : Option (Bytes × Bytes) :=
  env.dbType.bind fun dbType =>
    if dbType = databaseTypeMysql then env.dbGetPassword username
    else luaGetuserpasswd env username

/-- The copies of the password branch: two in `get_password`, then `temp_password`. -/
def passwordCopies (env : Env) (username password : Bytes) : List Copy :=
  match storedRow env username with
  | none => []
  | some (stored, salt) =>
    [⟨stored, maxCharLength⟩, ⟨salt, maxCharLength⟩, ⟨md5Hex env password ++ salt, maxCharLength⟩]

/-- The copies into `temp_str`, which are made for a recent login of an account with a key. -/
def signatureCopies (env : Env) (mytimestamp : Int) (username account timestampChar : Bytes) :
    List Copy :=
  if 0 ≤ mytimestamp - atol timestampChar ∧ mytimestamp - atol timestampChar < 60 then
    match luaGetaccountkey env account with
    | none => []
    | some tempKey =>
      [⟨(tempKey.take maxCharLength).take 18 ++ username ++ timestampChar, maxBufferLength⟩]
  else []

/-- All strings that are built while the credentials of a login are checked. -/
def Event.credentialCopies (e : Event) (env : Env) (mytimestamp : Int) : List Copy :=
  if e.isAnonymous then []
  else
    match e.attr .username, e.attr .password with
    | some username, some password => passwordCopies env username password
    | _, _ =>
      match e.attr .username, e.attr .sign, e.attr .account, e.attr .timestamp with
      | some username, some _, some account, some timestampChar =>
        if atol timestampChar ≠ 0 then
          signatureCopies env mytimestamp username account timestampChar
        else []
      | _, _, _, _ => []

/-- The password branch looks up a name. -/
structure Asked (e : Event) (username password : Bytes) : Prop where
  guest : e.isAnonymous = false
  username : e.attr .username = some username
  password : e.attr .password = some password

/-- What is stored for the name, and the name with its timestamp, are short enough. -/
structure CredentialsFit (env : Env) (now : Int) (e : Event) : Prop where
  stored : ∀ username password stored salt, Asked e username password →
    storedRow env username = some (stored, salt) → stored.length < 64 ∧ salt.length < 32
  signed : ∀ username sign account timestampChar key,
    Signed now e username sign account timestampChar → luaGetaccountkey env account = some key →
    min 18 key.length + username.length + timestampChar.length < 1024

/-! ## The lengths -/

theorem length_md5Hex (env : Env) (text : Bytes) : (md5Hex env text).length = 32 := by
  have htwo : ∀ b : UInt8, (hexText b).length = 2 := fun _ => rfl
  rw [md5Hex, List.length_flatMap, List.map_congr_left fun b _ => htwo b]
  simp

/-- The digest leaves room for a salt of 31 bytes. -/
theorem passwordCopies_fit (hrow : storedRow env username = some (stored, salt)) :
    (∀ copy ∈ passwordCopies env username password, copy.Fits) ↔
      stored.length < 64 ∧ salt.length < 32 := by
  simp only [passwordCopies, hrow, List.forall_mem_cons, Copy.Fits, List.length_append,
    length_md5Hex, maxCharLength, List.not_mem_nil, false_implies, implies_true, and_true]
  omega

theorem signatureCopies_fit (hkey : luaGetaccountkey env account = some key)
    (hrecent : 0 ≤ now - atol timestampChar ∧ now - atol timestampChar < 60) :
    (∀ copy ∈ signatureCopies env now username account timestampChar, copy.Fits) ↔
      min 18 key.length + username.length + timestampChar.length < 1024 := by
  simp only [signatureCopies, if_pos hrecent, hkey, List.forall_mem_singleton, Copy.Fits,
    List.length_append, List.length_take, maxCharLength, maxBufferLength]
  omega

theorem credentialCopies_password (h : Asked e username password) :
    e.credentialCopies env now = passwordCopies env username password := by
  simp only [Event.credentialCopies, h.guest, h.username, h.password, Bool.false_eq_true, if_false]

theorem credentialCopies_signature (h : Signed now e username sign account timestampChar) :
    e.credentialCopies env now = signatureCopies env now username account timestampChar := by
  simp only [Event.credentialCopies, h.guest, h.username, h.password, h.sign, h.account,
    h.timestamp, Bool.false_eq_true, if_false, ne_eq, h.nonzero, not_false_eq_true, if_true]

/-- A login that builds a string looks up a name or reaches the signature in time. -/
theorem exists_of_mem_credentialCopies {copy : Copy} (h : copy ∈ e.credentialCopies env now) :
    (∃ username password stored salt, Asked e username password ∧
        storedRow env username = some (stored, salt)) ∨
      ∃ username sign account timestampChar key, Signed now e username sign account timestampChar ∧
        luaGetaccountkey env account = some key := by
  unfold Event.credentialCopies at h
  by_cases hguest : e.isAnonymous = true
  · rw [if_pos hguest] at h
    cases h
  rw [if_neg hguest] at h
  have hguest : e.isAnonymous = false := by simpa using hguest
  split at h
  · rename_i username password hu hpw
    cases hrow : storedRow env username with
    | none =>
      rw [passwordCopies, hrow] at h
      cases h
    | some row => exact Or.inl ⟨username, password, row.1, row.2, ⟨hguest, hu, hpw⟩, hrow⟩
  · rename_i hnopw
    split at h
    · rename_i username sign account timestampChar hu hsign haccount htime
      have hpassword : e.attr .password = none := by
        cases hpw : e.attr .password with
        | none => rfl
        | some password => exact (hnopw username password hu hpw).elim
      split at h
      · rename_i hnonzero
        unfold signatureCopies at h
        split at h
        · rename_i hrecent
          cases hkey : luaGetaccountkey env account with
          | none =>
            rw [hkey] at h
            cases h
          | some key =>
            exact Or.inr ⟨username, sign, account, timestampChar, key,
              ⟨hguest, hu, hpassword, hsign, haccount, htime, hnonzero, hrecent⟩, hkey⟩
        · cases h
      · cases h
    · cases h

/-! ## The checks of the model -/

theorem storedRow_of_getPassword {row : Option (Bytes × Bytes)}
    (h : getPassword env username = some row) : storedRow env username = row ∧
      ∀ stored salt, row = some (stored, salt) → stored.length < 64 ∧ salt.length < 64 := by
  obtain ⟨dbType, hdb, h⟩ := Option.bind_eq_some_iff.mp h
  have hrow : storedRow env username = if dbType = databaseTypeMysql then env.dbGetPassword username
      else luaGetuserpasswd env username := by
    rw [storedRow, hdb, Option.bind_some]
  rw [hrow]
  split at h
  · rename_i hnone
    cases h
    exact ⟨hnone, by simp⟩
  · rename_i stored salt hsome
    split at h
    · rename_i hfit
      cases h
      refine ⟨hsome, ?_⟩
      rintro _ _ ⟨⟩
      exact hfit
    · cases h

theorem getPassword_total (hdb : env.dbType.isSome)
    (hfit : ∀ stored salt, storedRow env username = some (stored, salt) →
      stored.length < 64 ∧ salt.length < 64) :
    getPassword env username = some (storedRow env username) := by
  obtain ⟨dbType, hdb⟩ := Option.isSome_iff_exists.mp hdb
  unfold getPassword
  unfold storedRow at hfit ⊢
  rw [hdb, Option.bind_some] at hfit ⊢
  split
  · rename_i hnone
    rw [Option.bind_some, hnone]
  · rename_i stored salt hsome
    have hlen : stored.length < maxCharLength ∧ salt.length < maxCharLength :=
      hfit stored salt hsome
    rw [if_pos hlen, Option.bind_some, hsome]

theorem authPassword_fits {out : AuthOutcome}
    (h : authPassword env c username password = some out) :
    ∀ copy ∈ passwordCopies env username password, copy.Fits := by
  rcases authPassword_cases h with ⟨hrow, -⟩ | ⟨stored, salt, hrow, hlen, -⟩
  · obtain ⟨hstored, -⟩ := storedRow_of_getPassword hrow
    rw [passwordCopies, hstored]
    simp
  · obtain ⟨hstored, hfit⟩ := storedRow_of_getPassword hrow
    rw [passwordCopies_fit hstored]
    rw [List.length_append, length_md5Hex, maxCharLength] at hlen
    exact ⟨(hfit stored salt rfl).1, by omega⟩

theorem authSignature_fits {out : AuthOutcome} (hkey : luaGetaccountkey env account = some key)
    (hrecent : 0 ≤ now - atol timestampChar ∧ now - atol timestampChar < 60)
    (h : authSignature env now c username sign account timestampChar = some out) :
    ∀ copy ∈ signatureCopies env now username account timestampChar, copy.Fits := by
  obtain ⟨name, -, -, ⟨hold, -⟩ | ⟨-, crypted, same, hcrypted, -, -⟩⟩ := authSignature_cases h
  · exact absurd hrecent hold
  simp only [cryptStr, hkey, List.length_append, List.length_take, maxCharLength,
    maxBufferLength] at hcrypted
  rw [signatureCopies_fit hkey hrecent]
  split at hcrypted
  · rename_i hlen
    omega
  · cases hcrypted

theorem authCredentials_password (h : Asked e username password) :
    authCredentials env now c e = authPassword env c username password := by
  simp only [authCredentials, h.guest, h.username, h.password, Bool.false_eq_true, if_false]

theorem authCredentials_signature (h : Signed now e username sign account timestampChar) :
    authCredentials env now c e =
      authSignature env now c username sign account timestampChar := by
  simp only [authCredentials, h.guest, h.username, h.password, h.sign, h.account, h.timestamp,
    Bool.false_eq_true, if_false, ne_eq, h.nonzero, not_false_eq_true, if_true]

/-- Checks that come to an end have built strings that fit. -/
theorem credentials_fit_of_ended {out : AuthOutcome} (h : authCredentials env now c e = some out) :
    ∀ copy ∈ e.credentialCopies env now, copy.Fits := by
  intro copy hcopy
  rcases exists_of_mem_credentialCopies hcopy with
    ⟨username, password, stored, salt, hasked, -⟩ |
    ⟨username, sign, account, timestampChar, key, hsigned, hkey⟩
  · rw [authCredentials_password hasked] at h
    rw [credentialCopies_password hasked] at hcopy
    exact authPassword_fits h copy hcopy
  · rw [authCredentials_signature hsigned] at h
    rw [credentialCopies_signature hsigned] at hcopy
    exact authSignature_fits hkey hsigned.recent h copy hcopy

/-- **Buffers of a login.** All strings fit exactly when the stored texts and the signed ones are
short enough. -/
theorem credentials_fit_iff (env : Env) (now : Int) (e : Event) :
    (∀ copy ∈ e.credentialCopies env now, copy.Fits) ↔ CredentialsFit env now e := by
  constructor
  · intro h
    constructor
    · intro username password stored salt hasked hrow
      rw [credentialCopies_password hasked] at h
      exact (passwordCopies_fit hrow).mp h
    · intro username sign account timestampChar key hsigned hkey
      rw [credentialCopies_signature hsigned] at h
      exact (signatureCopies_fit hkey hsigned.recent).mp h
  · intro hfit copy hcopy
    rcases exists_of_mem_credentialCopies hcopy with
      ⟨username, password, stored, salt, hasked, hrow⟩ |
      ⟨username, sign, account, timestampChar, key, hsigned, hkey⟩
    · rw [credentialCopies_password hasked] at hcopy
      exact (passwordCopies_fit hrow).mpr (hfit.stored _ _ _ _ hasked hrow) copy hcopy
    · rw [credentialCopies_signature hsigned] at hcopy
      exact (signatureCopies_fit hkey hsigned.recent).mpr (hfit.signed _ _ _ _ _ hsigned hkey)
        copy hcopy

/-- A login whose name is as long as the buffer of the signed text. -/
def longName : Packet where
  data := [120, 156, 179, 73, 45, 75, 205, 43, 81, 40, 169, 44, 72, 181, 85, 55, 52, 80, 87, 40, 45,
    78, 45, 202, 75, 204, 5, 242, 18, 71, 193, 40, 24, 5, 163, 128, 10, 64, 93, 33, 49, 57, 57, 191,
    52, 175, 196, 86, 189, 36, 181, 184, 68, 93, 161, 56, 51, 61, 207, 86, 189, 66, 93, 161, 36, 51,
    23, 40, 144, 152, 91, 0, 42, 126, 12, 212, 245, 237, 0, 190, 213, 183, 188]
  text := ofString "<event type='10' username='" ++ List.replicate 1100 97 ++
    ofString "' account='test' sign='x' timestamp='100'/>"
  event := .ofList [(.type, ofString "10"), (.username, List.replicate 1100 97),
    (.account, ofString "test"), (.sign, ofString "x"), (.timestamp, ofString "100")]

def longNameEnv : Env :=
  { Env.delivering 100 longName with accountLua := some shippedAccounts }

/-- A message of a regular size overflows the buffer of the signed text. -/
theorem credentials_not_fit : ¬ ∀ (env : Env) (fd : Nat) (p : Addr) (recvBits : Int)
    (data text : Bytes) (e : Event), env.uncompress data = some text →
    text.length ≤ tempBufferLength → Task.decode env ⟨fd, p, recvBits, data⟩ = .event e →
    e.evType = some evTypeAuth → ∀ copy ∈ e.credentialCopies env env.now, copy.Fits := by
  intro hall
  have hquit : longName.text.takeWhile (· ≠ 0) ≠ quitText := by decide +kernel
  have hping : longName.text.takeWhile (· ≠ 0) ≠ pingText := by decide +kernel
  have htext : longNameEnv.uncompress longName.data = some longName.text := by
    simp only [longNameEnv, Env.delivering, if_true]
  have hdecode : Task.decode longNameEnv ⟨5, 100, 4, longName.data⟩ = .event longName.event := by
    simp only [Task.decode, longNameEnv, Env.delivering, Int.reduceLT, if_true, if_neg hquit,
      if_neg hping]
  have hfit := hall longNameEnv 5 100 4 longName.data longName.text longName.event
    htext (by decide +kernel) hdecode (by decide +kernel)
  have hlong : ¬ ∀ copy ∈ longName.event.credentialCopies longNameEnv longNameEnv.now,
      copy.Fits := by
    decide +kernel
  exact hlong hfit

end ArpgServer
