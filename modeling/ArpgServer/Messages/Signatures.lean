import ArpgServer.Messages.Credentials
import ArpgServer.Messages.Stored

/-!
# The text that is signed

A signature covers the first 18 bytes of the account's key, the name and the text of the
timestamp, one behind the other and nothing between them. The end of a name can pass for the
beginning of a timestamp when a fresh timestamp ends in another one. Two timestamps written as
plain numbers do not.
-/

namespace ArpgServer

open CText

variable {env : Env} {now : Int} {c d c' d' : Client} {e : Event}
  {key username username' sign account timestampChar timestampChar' : Bytes}

/-- A timestamp text that passes the tests of the signature branch. -/
structure Fresh (now : Int) (timestampChar : Bytes) : Prop where
  text : 0 ∉ timestampChar
  nonzero : atol timestampChar ≠ 0
  recent : 0 ≤ now - atol timestampChar ∧ now - atol timestampChar < 60

theorem Signed.fresh (h : Signed now e username sign account timestampChar) (he : e.IsText) :
    Fresh now timestampChar := ⟨he.attr _ _ h.timestamp, h.nonzero, h.recent⟩

/-- A signature passes for a name, whatever record it is checked for. -/
def Accepted (env : Env) (now : Int) (account sign username timestampChar : Bytes) : Prop :=
  ∃ c d, authSignature env now c username sign account timestampChar = some (.passed d)

/-- A name that is stored, logged and signed without leaving a buffer. -/
structure Signable (account key username timestampChar : Bytes) : Prop where
  text : 0 ∉ username
  stored : account = localAccount ∨ min 32 account.length + min 32 username.length < 64
  logged : logUsername username = some ()
  signed : (signedText key username timestampChar).length < maxBufferLength

/-- The name is stored in front of 32 bytes at most of the account. -/
theorem exists_signedName (h0 : 0 ∉ account) :
    (∃ (c : Client) (name : CharArray 64), signedName c account username = some name) ↔
      account = localAccount ∨ min 32 account.length + min 32 username.length < 64 := by
  by_cases hlocal : account = localAccount
  · refine iff_of_true ⟨newClient 0 0, ?_⟩ (Or.inl hlocal)
    rw [signedName, if_neg (not_not.mpr hlocal)]
    exact ⟨_, rfl⟩
  rw [or_iff_right hlocal]
  constructor
  · rintro ⟨c, name, h⟩
    rw [signedName, if_pos hlocal] at h
    obtain ⟨-, hlen, -⟩ := CharArray.strncat_eq_some h
    have hfront : min 32 account.length ≤
        (c.username.strncpy account 32 (by decide)).text.length := by
      by_cases hshort : account.length < 32
      · rw [CharArray.text_strncpy_of_lt _ _ h0 hshort]
        omega
      · rw [CharArray.text_strncpy_of_le _ _ h0 (by omega), List.length_append, List.length_take]
        omega
    rw [List.length_take] at hlen
    omega
  · intro hlen
    have hzero : (newClient 0 0).username.LastZero := rfl
    have hlast := hzero.strncpy account (k := 32) (by decide)
    have htext : ((newClient 0 0).username.strncpy account 32 (by decide)).text.length =
        min 32 account.length := by
      by_cases hshort : account.length < 32
      · rw [CharArray.text_strncpy_of_lt _ _ h0 hshort]
        omega
      · have hbehind : ((newClient 0 0).username.bytes.drop 32).takeWhile (· ≠ 0) = [] := rfl
        rw [CharArray.text_strncpy_of_le _ _ h0 (by omega), hbehind, List.append_nil,
          List.length_take]
    refine ⟨newClient 0 0, ?_⟩
    rw [signedName, if_pos hlocal, CharArray.strncat, dif_pos]
    · exact ⟨_, rfl⟩
    · refine ⟨hlast.terminated, ?_⟩
      rw [htext, List.length_take]
      exact hlen

section
variable (hcrypt : ∀ text salt r, env.crypt text salt = some r → 0 ∉ r)
  (hkey : luaGetaccountkey env account = some key)
include hcrypt hkey

/-- The buffer of a signature that passes holds the signature. -/
theorem cryptStr_passes_iff :
    (∃ crypted, cryptStr env account username timestampChar sign = some crypted ∧
        crypted.strcmp none sign = some true) ↔
      (signedText key username timestampChar).length < maxBufferLength ∧ sign.length < 64 ∧
        env.crypt (signedText key username timestampChar) sign = some sign := by
  have htake : (key.take maxCharLength).take 18 = key.take 18 := by
    rw [List.take_take]
    rfl
  have hstr : cryptStr env account username timestampChar sign =
      if (signedText key username timestampChar).length < maxBufferLength then
        (env.crypt (signedText key username timestampChar) sign).map fun r =>
          (CharArray.zero 64).strncpy r 64 (by decide)
      else none := by
    simp only [cryptStr, hkey, htake, signedText]
    rfl
  rw [hstr]
  constructor
  · rintro ⟨crypted, hcrypted, hsame⟩
    obtain ⟨hlen, hcrypted⟩ := Option.ite_none_right_eq_some.mp hcrypted
    obtain ⟨r, hr, rfl⟩ := Option.map_eq_some_iff.mp hcrypted
    obtain rfl := CharArray.eq_of_strcmp_strncpy (hcrypt _ _ r hr) hsame
    exact ⟨hlen, CharArray.length_of_strcmp_strncpy (hcrypt _ _ r hr) hsame, hr⟩
  · rintro ⟨hlen, hshort, hsign⟩
    have h0 := hcrypt _ _ sign hsign
    refine ⟨(CharArray.zero 64).strncpy sign 64 (by decide), ?_, ?_⟩
    · rw [if_pos hlen, hsign, Option.map_some]
    · rw [CharArray.strcmp_of_terminated ((CharArray.terminated_strncpy _ h0).mpr hshort),
        CharArray.text_strncpy _ h0 hshort, beq_self_eq_true]

/-- The signatures that pass are those `crypt` makes of the signed text. -/
theorem accepted_iff (h0 : 0 ∉ account) (h0u : 0 ∉ username) :
    Accepted env now account sign username timestampChar ↔
      (0 ≤ now - atol timestampChar ∧ now - atol timestampChar < 60) ∧
        Signable account key username timestampChar ∧ sign.length < 64 ∧
          env.crypt (signedText key username timestampChar) sign = some sign := by
  constructor
  · rintro ⟨c, d, h⟩
    obtain ⟨name, hname, hlog, ⟨-, hout⟩ | ⟨hrecent, crypted, same, hcrypted, hsame, hout⟩⟩ :=
      authSignature_cases h
    · cases hout
    · split at hout
      · rename_i htrue
        rw [htrue] at hsame
        obtain ⟨hlen, hshort, hsign⟩ :=
          (cryptStr_passes_iff hcrypt hkey).mp ⟨crypted, hcrypted, hsame⟩
        have hstored := (exists_signedName h0).mp ⟨c, name, hname⟩
        exact ⟨hrecent, ⟨h0u, hstored, hlog, hlen⟩, hshort, hsign⟩
      · cases hout
  · rintro ⟨hrecent, hsignable, hshort, hsign⟩
    obtain ⟨c, name, hname⟩ := (exists_signedName h0).mpr hsignable.stored
    obtain ⟨crypted, hcrypted, hsame⟩ :=
      (cryptStr_passes_iff hcrypt hkey).mpr ⟨hsignable.signed, hshort, hsign⟩
    refine ⟨c, { c with anonymous := 0, username := name }, ?_⟩
    simp only [authSignature, hname, Option.bind_some, hsignable.logged, if_pos hrecent, hcrypted,
      hsame, Option.map_some, if_true]

end

/-- `crypt` reads the first eight bytes of the text. A key of that length leaves nothing of the
name in it, and a signature that passes for one name passes for all. -/
theorem accepted_of_prefix (hcrypt : ∀ text salt r, env.crypt text salt = some r → 0 ∉ r)
    (hread : ∀ text text' salt, text.take 8 = text'.take 8 →
      env.crypt text salt = env.crypt text' salt)
    (h0 : 0 ∉ account) (hkey : luaGetaccountkey env account = some key) (hlen : 8 ≤ key.length)
    (h0u : 0 ∉ username) (hacc : Accepted env now account sign username timestampChar)
    (hsig' : Signable account key username' timestampChar') (hfresh' : Fresh now timestampChar') :
    Accepted env now account sign username' timestampChar' := by
  obtain ⟨-, -, hshort, hsign⟩ := (accepted_iff hcrypt hkey h0 h0u).mp hacc
  have htake : ∀ username timestampChar,
      (signedText key username timestampChar).take 8 = key.take 8 := by
    intro username timestampChar
    rw [signedText, List.append_assoc, List.take_append_of_le_length, List.take_take]
    · rfl
    · rw [List.length_take]
      omega
  refine (accepted_iff hcrypt hkey h0 hsig'.text).mpr ⟨hfresh'.recent, hsig', hshort, ?_⟩
  rw [hread _ (signedText key username timestampChar) sign (by rw [htake, htake]), hsign]

end ArpgServer
