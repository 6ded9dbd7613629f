import ArpgServer.Model.Ezxml
import ArpgServer.Xml.Escaping

/-!
# Characters

The bytes the library writes for a character are those of UTF-8, whether the character came
from a reference or from a document in UTF-16.
-/

namespace ArpgServer.Ezxml

open CText Scan

/-! ## UTF-8 -/

theorem toNat_toUInt8 (n : Nat) : n.toUInt8.toNat = n % 256 := by
  rw [Nat.toUInt8_eq, UInt8.toNat_ofNat']

/-- A byte behind the head of a character. -/
theorem payload_byte (n : Nat) :
    (0x80 ||| (n &&& 0x3F)).toUInt8 = UInt8.ofNat (n % 0x40 + 0x80) := by
  have hmask : n &&& 0x3F = n % 2 ^ 6 := Nat.and_two_pow_sub_one_eq_mod n 6
  have hor : 2 ^ 6 * 2 + n % 2 ^ 6 = 2 ^ 6 * 2 ||| n % 2 ^ 6 :=
    Nat.two_pow_add_eq_or_of_lt (Nat.mod_lt n (by decide)) 2
  rw [hmask, show 0x80 = 2 ^ 6 * 2 from rfl, ← hor, Nat.toUInt8_eq, Nat.add_comm]
  rfl

/-- The head of a character whose bits leave room for the marks. -/
theorem head_byte {i n : Nat} (hi : i ≤ 8) (hn : n < 2 ^ i) :
    ((0xFF <<< i) ||| n).toUInt8 = UInt8.ofNat (n + (2 ^ 8 - 2 ^ i)) := by
  have hor : 2 ^ i * 0xFF + n = 2 ^ i * 0xFF ||| n := Nat.two_pow_add_eq_or_of_lt hn 0xFF
  have hpow : 2 ^ i ≤ 2 ^ 8 := Nat.pow_le_pow_right (by decide) hi
  rw [Nat.shiftLeft_eq, Nat.mul_comm, ← hor, ← UInt8.toNat_inj, toNat_toUInt8, UInt8.toNat_ofNat']
  have hmul : 2 ^ i * 0xFF + n = n + (2 ^ 8 - 2 ^ i) + 256 * (2 ^ i - 1) := by
    have hone : 1 ≤ 2 ^ i := Nat.one_le_two_pow
    omega
  rw [hmul, Nat.add_mul_mod_self_left]

theorem payload_eq {c k : Nat} (hlow : 2 ^ (5 * k + 1) ≤ c) (hhigh : c < 2 ^ (5 * k + 6)) :
    payload c = k := by
  have hc : c ≠ 0 := by
    have hone : 1 ≤ 2 ^ (5 * k + 1) := Nat.one_le_two_pow
    omega
  have h1 : 5 * k + 1 ≤ c.log2 := (Nat.le_log2 hc).mpr hlow
  have h2 : c.log2 < 5 * k + 6 := (Nat.log2_lt hc).mpr hhigh
  unfold payload
  omega

theorem multiByte_eq {c k : Nat} (hk : k ≤ 6) (hlow : 2 ^ (5 * k + 1) ≤ c)
    (hhigh : c < 2 ^ (5 * k + 6)) :
    multiByte c = UInt8.ofNat (c / 2 ^ (6 * k) + (2 ^ 8 - 2 ^ (7 - k))) ::
      (List.range k).reverse.map fun j => UInt8.ofNat (c / 2 ^ (6 * j) % 0x40 + 0x80) := by
  have hroom : c >>> (6 * k) < 2 ^ (7 - k) := by
    rw [Nat.shiftRight_eq_div_pow, Nat.div_lt_iff_lt_mul (Nat.two_pow_pos _), ← Nat.pow_add]
    exact Nat.lt_of_lt_of_le hhigh (Nat.pow_le_pow_right (by decide) (by omega))
  rw [multiByte, payload_eq hlow hhigh, head_byte (by omega) hroom, Nat.shiftRight_eq_div_pow]
  refine congrArg _ (List.map_congr_left fun j _ => ?_)
  rw [payload_byte, Nat.shiftRight_eq_div_pow]

theorem toNat_lt (c : Char) : c.toNat < 0x110000 := by
  rcases c.valid with h | h
  · exact Nat.lt_trans h (by decide)
  · exact h.2

theorem utf8Char_eq (c : Char) : utf8Char c.toNat = String.utf8EncodeChar c := by
  have hmax := toNat_lt c
  have hval : c.val.toNat = c.toNat := rfl
  simp only [utf8Char, String.utf8EncodeChar, hval]
  by_cases h1 : c.toNat < 0x80
  · have h1' : c.toNat ≤ 0x7F := by omega
    rw [if_pos h1, if_pos h1', Nat.toUInt8_eq]
  · have h1' : ¬ c.toNat ≤ 0x7F := by omega
    rw [if_neg h1, if_neg h1']
    by_cases h2 : c.toNat ≤ 0x7FF
    · have hhead : c.toNat / 64 % 0x20 = c.toNat / 64 := Nat.mod_eq_of_lt (by omega)
      rw [if_pos h2, hhead, multiByte_eq (k := 1) (by decide) (by omega) (by omega)]
      simp [List.range_succ]
    · rw [if_neg h2]
      by_cases h3 : c.toNat ≤ 0xFFFF
      · have hhead : c.toNat / 4096 % 0x10 = c.toNat / 4096 := Nat.mod_eq_of_lt (by omega)
        rw [if_pos h3, hhead, multiByte_eq (k := 2) (by decide) (by omega) (by omega)]
        simp [List.range_succ]
      · have hhead : c.toNat / 262144 % 0x08 = c.toNat / 262144 := Nat.mod_eq_of_lt (by omega)
        rw [if_neg h3, hhead, multiByte_eq (k := 3) (by decide) (by omega) (by omega)]
        simp [List.range_succ]

/-! ## References -/

theorem isDigitIn_of_isDigit {b : UInt8} (h : 48 ≤ b ∧ b ≤ 57) :
    isDigitIn 10 b = true ∧ (digitIn 10 b).getD 0 = b.toNat - 48 := by
  have hlt : b.toNat - 48 < 10 := by
    have h2 := UInt8.le_iff_toNat_le.mp h.2
    have h57 : (57 : UInt8).toNat = 57 := rfl
    omega
  have hdigit : digitIn 10 b = some (b.toNat - 48) := by
    simp only [digitIn, h.1, h.2, decide_true, Bool.and_self, if_true, if_pos hlt]
  rw [isDigitIn, hdigit]
  exact ⟨rfl, rfl⟩

theorem valueIn_eq_digitsValue {ds : Bytes} (h : ∀ d ∈ ds, 48 ≤ d ∧ d ≤ 57) :
    valueIn 10 ds = digitsValue ds := by
  unfold valueIn digitsValue
  refine List.foldl_ext _ _ 0 fun n d hd => ?_
  rw [(isDigitIn_of_isDigit (h d hd)).2]

/-- `&#`, the number of the character, `;`. -/
def reference (c : Char) : Bytes := ofString "&#" ++ natText c.toNat ++ ofString ";"

theorem reads_reference {t : Mode} (ht : t ≠ .cdata) {c : Char} (hc : c.toNat ≠ 0) :
    Yields (decodeTurn t) (reference c) (String.utf8EncodeChar c) := by
  have hdigits : ∀ d ∈ natText c.toNat, 48 ≤ d ∧ d ≤ 57 := fun d hd => byte_of_mem_natText hd
  have hvalue : valueIn 10 (natText c.toNat) = c.toNat := by
    rw [valueIn_eq_digitsValue hdigits, digitsValue_natText]
  have hne : natText c.toNat ≠ [] := by
    intro h
    rw [h] at hvalue
    exact hc hvalue.symm
  have hstart : ofString "&#" = [38, 35] := rfl
  have hstop : ofString ";" = [59] := rfl
  have hmax := toNat_lt c
  have hread := reads_decimal ht hne (fun d hd => (isDigitIn_of_isDigit (hdigits d hd)).1)
    (by omega) (by omega)
  rw [hvalue, utf8Char_eq] at hread
  rw [reference, hstart, hstop, List.append_assoc]
  exact hread

/-- A text that is written in references is read as its UTF-8 bytes, in contents and in
attributes. -/
theorem decode_references {t : Mode} (ht : t ≠ .cdata) {s : String}
    (hs : ∀ c ∈ s.toList, c.toNat ≠ 0) (rest : Bytes) :
    decode t (s.toList.flatMap reference) rest = some (ofString s, rest) := by
  have hread : Yields (decodeTurn t) (s.toList.flatMap reference) (ofString s) :=
    .flatMap fun c hc => reads_reference ht (hs c hc)
  refine decode_of_reads ?_ hread rest
  intro hmem
  obtain ⟨c, -, hc⟩ := List.mem_flatMap.mp hmem
  have hstart : ofString "&#" = [38, 35] := rfl
  have hstop : ofString ";" = [59] := rfl
  rw [reference, hstart, hstop, List.mem_append, List.mem_append] at hc
  rcases hc with (hc | hc) | hc
  · exact absurd hc (by decide)
  · exact absurd (byte_of_mem_natText hc).1 (by decide)
  · exact absurd hc (by decide)

theorem decode_references_accents :
    decode .attribute ("é日".toList.flatMap reference) [34] =
      some (ofString "é日", [34]) := by
  refine decode_references (by decide) (fun c hc => ?_) [34]
  have hchars : "é日".toList = ['é', '日'] := by simp
  rw [hchars] at hc
  rcases List.mem_pair.mp hc with rfl | rfl <;> decide

/-! ## UTF-16 -/

def utf16Bytes (be : Bool) (u : Nat) : Bytes :=
  if be then [(u / 256).toUInt8, u.toUInt8] else [u.toUInt8, (u / 256).toUInt8]

/-- The units of a character in UTF-16. -/
def utf16Char (be : Bool) (c : Char) : Bytes :=
  if c.toNat < 0x10000 then utf16Bytes be c.toNat
  else utf16Bytes be (0xD800 + (c.toNat - 0x10000) / 0x400) ++
    utf16Bytes be (0xDC00 + (c.toNat - 0x10000) % 0x400)

/-- The mark at the start of a document in UTF-16. -/
def byteOrderMark (be : Bool) : Bytes := if be then [0xFE, 0xFF] else [0xFF, 0xFE]

theorem utf16Bytes_eq {be : Bool} {u : Nat} (hu : u < 0x10000) :
    ∃ a b, utf16Bytes be u = [a, b] ∧ utf16Unit be a b = u := by
  have hor : ∀ x y : Nat, y < 256 → x <<< 8 ||| y = 256 * x + y := by
    intro x y hy
    rw [Nat.shiftLeft_eq, Nat.mul_comm]
    exact (Nat.two_pow_add_eq_or_of_lt (i := 8) hy x).symm
  have hunit : (u / 256).toUInt8.toNat <<< 8 ||| u.toUInt8.toNat = u := by
    rw [toNat_toUInt8, toNat_toUInt8, hor _ _ (Nat.mod_lt u (by decide))]
    omega
  cases be with
  | true => exact ⟨_, _, rfl, hunit⟩
  | false => exact ⟨_, _, rfl, hunit⟩

theorem utf16Loop_unit {be : Bool} {a b : UInt8}
    (h : ¬ (0xD800 ≤ utf16Unit be a b ∧ utf16Unit be a b ≤ 0xDFFF)) (s : Bytes) :
    utf16Loop be (a :: b :: s) = utf8Char (utf16Unit be a b) ++ utf16Loop be s := by
  conv_lhs => unfold utf16Loop
  exact if_neg h

theorem utf16Loop_pair {be : Bool} {a b : UInt8}
    (h : 0xD800 ≤ utf16Unit be a b ∧ utf16Unit be a b ≤ 0xDFFF) (a' b' : UInt8) (s : Bytes) :
    utf16Loop be (a :: b :: a' :: b' :: s) =
      utf8Char ((((utf16Unit be a b &&& 0x3FF) <<< 10) |||
        (utf16Unit be a' b' &&& 0x3FF)) + 0x10000) ++ utf16Loop be s := by
  conv_lhs => unfold utf16Loop
  exact if_pos h

theorem utf16Loop_char (be : Bool) (c : Char) (rest : Bytes) :
    utf16Loop be (utf16Char be c ++ rest) = String.utf8EncodeChar c ++ utf16Loop be rest := by
  have hmax := toNat_lt c
  unfold utf16Char
  split
  · rename_i hlow
    obtain ⟨a, b, hbytes, hunit⟩ := @utf16Bytes_eq be c.toNat hlow
    have hplain : ¬ (0xD800 ≤ c.toNat ∧ c.toNat ≤ 0xDFFF) := by
      rcases c.valid with h | h
      · have hval : c.toNat < 0xD800 := h
        omega
      · have hval : 0xDFFF < c.toNat := h.1
        omega
    rw [hbytes, List.cons_append, List.cons_append, List.nil_append,
      utf16Loop_unit (by rwa [hunit]), hunit, utf8Char_eq]
  · rename_i hhigh
    have hx : (c.toNat - 0x10000) / 0x400 < 0x400 := by omega
    have hy : (c.toNat - 0x10000) % 0x400 < 0x400 := Nat.mod_lt _ (by decide)
    obtain ⟨a, b, hbytes, hunit⟩ :=
      @utf16Bytes_eq be (0xD800 + (c.toNat - 0x10000) / 0x400) (by omega)
    obtain ⟨a', b', hbytes', hunit'⟩ :=
      @utf16Bytes_eq be (0xDC00 + (c.toNat - 0x10000) % 0x400) (by omega)
    have hmask : ∀ n, n &&& 0x3FF = n % 0x400 := fun n => Nat.and_two_pow_sub_one_eq_mod n 10
    have hor : ((c.toNat - 0x10000) / 0x400) <<< 10 ||| (c.toNat - 0x10000) % 0x400 =
        c.toNat - 0x10000 := by
      rw [Nat.shiftLeft_eq, Nat.mul_comm]
      refine (Nat.two_pow_add_eq_or_of_lt hy _).symm.trans ?_
      omega
    have hpair : (((0xD800 + (c.toNat - 0x10000) / 0x400) &&& 0x3FF) <<< 10 |||
        ((0xDC00 + (c.toNat - 0x10000) % 0x400) &&& 0x3FF)) + 0x10000 = c.toNat := by
      have hhead : (0xD800 + (c.toNat - 0x10000) / 0x400) % 0x400 =
          (c.toNat - 0x10000) / 0x400 := by omega
      have htail : (0xDC00 + (c.toNat - 0x10000) % 0x400) % 0x400 =
          (c.toNat - 0x10000) % 0x400 := by omega
      rw [hmask, hmask, hhead, htail, hor]
      omega
    rw [hbytes, hbytes', List.append_assoc, List.cons_append, List.cons_append, List.nil_append,
      List.cons_append, List.cons_append, List.nil_append, utf16Loop_pair (by omega), hunit,
      hunit', hpair, utf8Char_eq]

theorem utf16Loop_text (be : Bool) (s : List Char) (rest : Bytes) :
    utf16Loop be (s.flatMap (utf16Char be) ++ rest) =
      s.flatMap String.utf8EncodeChar ++ utf16Loop be rest := by
  induction s with
  | nil => rfl
  | cons c s ih =>
    rw [List.flatMap_cons, List.append_assoc, utf16Loop_char, ih, List.flatMap_cons,
      List.append_assoc]

theorem utf16Loop_zeros (be : Bool) (k : Nat) :
    utf16Loop be (List.replicate (2 * k) 0) = List.replicate k 0 := by
  induction k with
  | zero => rfl
  | succ k ih =>
    have hunit : utf16Unit be 0 0 = 0 := by cases be <;> rfl
    rw [Nat.mul_succ, List.replicate_succ, List.replicate_succ,
      utf16Loop_unit (by rw [hunit]; decide), hunit, ih]
    rfl

theorem str2utf8_utf16 (be : Bool) (s : String) (k : Nat) :
    str2utf8 (byteOrderMark be ++ s.toList.flatMap (utf16Char be) ++ List.replicate (2 * k) 0) =
      ofString s ++ List.replicate k 0 := by
  have hloop := utf16Loop_text be s.toList (List.replicate (2 * k) 0)
  rw [utf16Loop_zeros] at hloop
  rw [List.append_assoc]
  cases be with
  | true => exact hloop
  | false => exact hloop

theorem byte_lt_of_mem_ofString {s : String} {b : UInt8} (h : b ∈ ofString s) : b < 0xF8 := by
  obtain ⟨c, -, hc⟩ := List.mem_flatMap.mp h
  have hmax := toNat_lt c
  have hval : c.val.toNat = c.toNat := rfl
  have hF8 : (0xF8 : UInt8).toNat = 0xF8 := rfl
  rw [UInt8.lt_iff_toNat_lt, hF8]
  simp only [String.utf8EncodeChar, hval] at hc
  split_ifs at hc <;> simp only [List.mem_cons, List.not_mem_nil, or_false] at hc
  · rw [hc, UInt8.toNat_ofNat']
    omega
  · rcases hc with rfl | rfl <;> rw [UInt8.toNat_ofNat'] <;> omega
  · rcases hc with rfl | rfl | rfl <;> rw [UInt8.toNat_ofNat'] <;> omega
  · rcases hc with rfl | rfl | rfl | rfl <;> rw [UInt8.toNat_ofNat'] <;> omega

/-- No character of UTF-8 starts with a byte of a byte order mark. -/
theorem str2utf8_ofString (s : String) (k : Nat) :
    str2utf8 (ofString s ++ List.replicate k 0) = ofString s ++ List.replicate k 0 := by
  have hhead : ∀ b rest, ofString s ++ List.replicate k 0 = b :: rest → b < 0xF8 := by
    intro b rest h
    have hmem : b ∈ ofString s ++ List.replicate k 0 := by rw [h]; exact List.mem_cons_self
    rcases List.mem_append.mp hmem with hb | hb
    · exact byte_lt_of_mem_ofString hb
    · rw [(List.mem_replicate.mp hb).2]
      decide
  unfold str2utf8
  split
  · rename_i heq
    exact absurd (hhead _ _ heq) (by decide)
  · rename_i heq
    exact absurd (hhead _ _ heq) (by decide)
  · rfl

/-- A document in UTF-16, of either byte order, is parsed as the document in UTF-8. -/
theorem ezxmlParseStr_utf16 (be : Bool) (s : String) (k : Nat) :
    ezxmlParseStr (byteOrderMark be ++ s.toList.flatMap (utf16Char be) ++
      List.replicate (2 * (k + 1)) 0) = ezxmlParseStr (ofString s ++ List.replicate (k + 1) 0) := by
  have hmark : byteOrderMark be ++ s.toList.flatMap (utf16Char be) ++
      List.replicate (2 * (k + 1)) 0 ≠ [] := by cases be <;> simp [byteOrderMark]
  have htext : ofString s ++ List.replicate (k + 1) 0 ≠ [] := by simp
  rw [ezxmlParseStr, ezxmlParseStr, if_neg hmark, if_neg htext, str2utf8_utf16, str2utf8_ofString]

end ArpgServer.Ezxml
