import Mathlib.Algebra.Ring.Int.Defs
import Mathlib.Algebra.Ring.Nat
import Mathlib.Data.List.Basic
import Mathlib.Data.List.TakeWhile
import Mathlib.Tactic.Ring

/-!
# C texts and character arrays

A C text is the list of the bytes before its terminator. A character array of a fixed
size need not hold a terminator at all; reading such an array as a text runs on into
whatever lies behind it, which `CharArray.read` takes as an argument (`none` when that
read faults). Writes that would leave the array are `none`.
-/

abbrev Bytes := List UInt8

namespace CText

/-- The bytes of a literal of the source, which is encoded in UTF-8. -/
def ofString (s : String) : Bytes := s.toList.flatMap String.utf8EncodeChar

/-! ## Numbers -/

def isSpace (b : UInt8) : Bool := b = 32 || (9 ≤ b && b ≤ 13)

def isQuote (b : UInt8) : Bool := b = 34 || b = 39

def isDigit (b : UInt8) : Bool := 48 ≤ b && b ≤ 57

def digitsValue (ds : Bytes) : Nat := ds.foldl (fun n d => 10 * n + (d.toNat - 48)) 0

/-- `atol`: leading blanks, a sign, digits; the value is clamped to the range of `long`. -/
def atol (s : Bytes) : Int :=
  match s.dropWhile isSpace with
  | 45 :: ds => max (-(2 ^ 63)) (-(digitsValue (ds.takeWhile isDigit) : Int))
  | 43 :: ds => min (2 ^ 63 - 1) (digitsValue (ds.takeWhile isDigit) : Int)
  | ds => min (2 ^ 63 - 1) (digitsValue (ds.takeWhile isDigit) : Int)

/-- The value an `int` holds after a wider value is stored in it. -/
def toInt32 (n : Int) : Int := Int.bmod n (2 ^ 32)

def atoi (s : Bytes) : Int := toInt32 (atol s)

def natText (n : Nat) : Bytes := (Nat.toDigits 10 n).map fun c => c.toNat.toUInt8

/-- `%d` and `%ld`. -/
def intText : Int → Bytes
  | .ofNat n => natText n
  | .negSucc n => 45 :: natText (n + 1)

def hexDigit (n : Nat) : UInt8 := if n < 10 then (48 + n).toUInt8 else (87 + n).toUInt8

/-- `%2.2x` of one byte. -/
def hexText (b : UInt8) : Bytes := [hexDigit (b.toNat / 16), hexDigit (b.toNat % 16)]

/-! ### The characters of a number -/

theorem byte_of_mem_natText {n : Nat} {b : UInt8} (h : b ∈ natText n) : 48 ≤ b ∧ b ≤ 57 := by
  obtain ⟨c, hc, rfl⟩ := List.mem_map.mp h
  have hdigit := Nat.isDigit_of_mem_toDigits (by decide) (by decide) hc
  simp only [Char.isDigit, Bool.and_eq_true, decide_eq_true_eq] at hdigit
  have hlow : 48 ≤ c.toNat := hdigit.1
  have hhigh : c.toNat ≤ 57 := hdigit.2
  have hnat : c.toNat.toUInt8.toNat = c.toNat := by
    simp only [Nat.toUInt8_eq, UInt8.toNat_ofNat']
    omega
  constructor <;>
  · rw [UInt8.le_iff_toNat_le, hnat]
    assumption

/-- A number holds digits and a sign. -/
theorem not_mem_intText {b : UInt8} (hb : b < 45) (n : Int) : b ∉ intText n := by
  have hnat : ∀ m, b ∉ natText m := by
    intro m hm
    have hlow := (byte_of_mem_natText hm).1
    rw [UInt8.le_iff_toNat_le] at hlow
    rw [UInt8.lt_iff_toNat_lt] at hb
    have h48 : (48 : UInt8).toNat = 48 := rfl
    have h45 : (45 : UInt8).toNat = 45 := rfl
    omega
  cases n with
  | ofNat m => exact hnat m
  | negSucc m =>
    rw [intText, List.mem_cons]
    rintro (h | h)
    · rw [h] at hb
      exact absurd hb (by decide)
    · exact hnat _ h

theorem length_intText_le {n : Int} (h0 : 0 ≤ n) (h : n < 100) : (intText n).length ≤ 2 := by
  cases n with
  | ofNat m =>
    rw [intText, natText, List.length_map, Nat.length_toDigits_le_iff (by decide) (by decide)]
    have hm : (m : Int) < 100 := h
    omega
  | negSucc m => omega

/-! ### Reading a number back -/

theorem toNat_of_isDigit {c : Char} (h : c.isDigit) : c.toNat.toUInt8.toNat = c.toNat := by
  simp only [Char.isDigit, Bool.and_eq_true, decide_eq_true_eq] at h
  have hhigh : c.toNat ≤ 57 := h.2
  simp only [Nat.toUInt8_eq, UInt8.toNat_ofNat']
  omega

theorem digitsValue_natText (n : Nat) : digitsValue (natText n) = n := by
  have hfold : ∀ l : List Char, (∀ c ∈ l, c.isDigit) → ∀ k,
      l.foldl (fun m c => 10 * m + (c.toNat.toUInt8.toNat - 48)) k = Nat.ofDigitChars 10 l k := by
    intro l
    induction l with
    | nil => intro _ k; rfl
    | cons c l ih =>
      intro hdigits k
      rw [List.foldl_cons, toNat_of_isDigit (hdigits c List.mem_cons_self), Nat.ofDigitChars_cons]
      exact ih (fun c hc => hdigits c (List.mem_cons_of_mem _ hc)) _
  rw [digitsValue, natText, List.foldl_map, hfold _ fun c hc =>
    Nat.isDigit_of_mem_toDigits (by decide) (by decide) hc]
  exact Nat.ofDigitChars_ten_toDigits

end CText

/-- An array of `n` characters. -/
structure CharArray (n : Nat) where
  bytes : Bytes
  size_eq : bytes.length = n

namespace CharArray

variable {n : Nat}

/-- The array after `memset` or `bzero`. -/
def zero (n : Nat) : CharArray n := ⟨List.replicate n 0, by simp⟩

/-- The bytes before the first terminator, or all of them when there is none. -/
def text (a : CharArray n) : Bytes := a.bytes.takeWhile (· ≠ 0)

def terminated (a : CharArray n) : Bool := a.bytes.contains 0

/-- `strlen (a)`. -/
def strlen (a : CharArray n) (past : Bytes) : Nat :=
  if a.terminated then a.text.length else n + past.length

/-- The array read as a text. -/
def read (a : CharArray n) (past : Option Bytes) : Option Bytes :=
  if a.terminated then some a.text else past.map (a.bytes ++ ·)

/-- `strcmp (a, s) == 0`. The comparison stops at the first difference, so it leaves the
array only when all of it agrees with `s`. -/
def strcmp (a : CharArray n) (past : Option Bytes) (s : Bytes) : Option Bool :=
  if a.terminated then some (a.text == s)
  else if a.bytes.isPrefixOf s then past.map fun rest => a.bytes ++ rest == s
  else some false

/-- `strncpy (a, src, k)`: pads with terminators up to `k`, and writes none when `src`
has `k` bytes or more. -/
def strncpy (a : CharArray n) (src : Bytes) (k : Nat) (hk : k ≤ n) : CharArray n where
  bytes := src.take k ++ List.replicate (k - src.length) 0 ++ a.bytes.drop k
  size_eq := by
    have := a.size_eq
    simp only [List.length_append, List.length_take, List.length_replicate, List.length_drop]
    omega

/-- `strcpy (a, src)`. -/
def strcpy (a : CharArray n) (src : Bytes) : Option (CharArray n) :=
  if h : src.length < n then
    some {
      bytes := src ++ 0 :: a.bytes.drop (src.length + 1)
      size_eq := by
        have := a.size_eq
        simp only [List.length_append, List.length_cons, List.length_drop]
        omega }
  else none

/-- `a[i] = b`. -/
def put (a : CharArray n) (i : Nat) (b : UInt8) : Option (CharArray n) :=
  if i < n then some ⟨a.bytes.set i b, by rw [List.length_set, a.size_eq]⟩ else none

/-- `snprintf (a, k, ...)` for a formatted text `src`. -/
def snprintf (a : CharArray n) (src : Bytes) (k : Nat) (h : 0 < k) (hk : k ≤ n) : CharArray n where
  bytes := (src.take (k - 1) ++ [0]) ++ a.bytes.drop ((src.take (k - 1)).length + 1)
  size_eq := by
    have := a.size_eq
    simp only [List.length_append, List.length_take, List.length_drop, List.length_singleton]
    omega

/-- `strncat (a, src, k)`. -/
def strncat (a : CharArray n) (src : Bytes) (k : Nat) : Option (CharArray n) :=
  if h : a.terminated ∧ a.text.length + (src.take k).length < n then
    some {
      bytes := a.text ++ src.take k ++ [0] ++ a.bytes.drop (a.text.length + (src.take k).length + 1)
      size_eq := by
        have h1 := a.size_eq
        have h2 := h.2
        simp only [List.length_append, List.length_drop, List.length_singleton]
        omega }
  else none

@[ext] theorem ext {a b : CharArray n} (h : a.bytes = b.bytes) : a = b := by
  cases a
  cases b
  simpa using h

/-! ## Reading back -/

theorem read_of_terminated {a : CharArray n} (h : a.terminated) (past : Option Bytes) :
    a.read past = some a.text := if_pos h

theorem strcmp_of_terminated {a : CharArray n} (h : a.terminated) (past : Option Bytes)
    (s : Bytes) : a.strcmp past s = some (a.text == s) := if_pos h

theorem text_zero (n : Nat) : (zero n).text = [] := by
  cases n <;> simp [zero, text, List.replicate_succ]

/-! ## Copies -/

theorem terminated_snprintf (a : CharArray n) (src : Bytes) {k : Nat} (h : 0 < k) (hk : k ≤ n) :
    (a.snprintf src k h hk).terminated = true := by
  simp [terminated, snprintf]

/-- A text without a terminator inside is all of what is read of it. -/
theorem takeWhile_of_text {src : Bytes} (h0 : 0 ∉ src) : src.takeWhile (· ≠ 0) = src :=
  List.takeWhile_eq_self_iff.mpr fun b hb => by simpa using fun h : b = 0 => h0 (h ▸ hb)

/-- A text that is shorter than the limit of the copy. -/
theorem text_strncpy_of_lt (a : CharArray n) {src : Bytes} {k : Nat} (hk : k ≤ n) (h0 : 0 ∉ src)
    (hlen : src.length < k) : (a.strncpy src k hk).text = src := by
  have htake : src.take k = src := List.take_of_length_le hlen.le
  have hpad : k - src.length = (k - src.length - 1) + 1 := by omega
  simp only [text, strncpy, htake]
  rw [hpad, List.replicate_succ, List.append_assoc, List.takeWhile_append, takeWhile_of_text h0,
    if_pos rfl]
  simp

theorem text_strncpy (a : CharArray n) {src : Bytes} (h0 : 0 ∉ src) (hlen : src.length < n) :
    (a.strncpy src n le_rfl).text = src := a.text_strncpy_of_lt le_rfl h0 hlen

theorem terminated_strncpy (a : CharArray n) {src : Bytes} (h0 : 0 ∉ src) :
    (a.strncpy src n le_rfl).terminated = true ↔ src.length < n := by
  have hdrop : a.bytes.drop n = [] := List.drop_eq_nil_of_le a.size_eq.le
  have htake : 0 ∉ src.take n := fun h => h0 (List.mem_of_mem_take h)
  simp only [terminated, strncpy, hdrop, List.append_nil, List.contains_iff_mem, List.mem_append,
    htake, false_or, List.mem_replicate, and_true]
  omega

/-- A comparison that ends in the array finds its terminator there. -/
theorem length_of_strcmp_strncpy {a : CharArray n} {src s : Bytes} (h0 : 0 ∉ src)
    (h : (a.strncpy src n le_rfl).strcmp none s = some true) : src.length < n := by
  by_contra hlen
  have hterm := mt (terminated_strncpy a h0).mp hlen
  unfold strcmp at h
  rw [if_neg hterm] at h
  split at h <;> cases h

/-- Comparing a copied text with another one in an array of its own. -/
theorem eq_of_strcmp_strncpy {a : CharArray n} {src s : Bytes} (h0 : 0 ∉ src)
    (h : (a.strncpy src n le_rfl).strcmp none s = some true) : src = s := by
  have hlen := length_of_strcmp_strncpy h0 h
  rw [strcmp_of_terminated ((terminated_strncpy a h0).mpr hlen), text_strncpy a h0 hlen] at h
  simpa using h

/-- A copy changes nothing in an array that starts with what it writes. -/
theorem strncpy_eq_self_iff (a : CharArray n) (src : Bytes) {k : Nat} (hk : k ≤ n) :
    a.strncpy src k hk = a ↔ src.take k ++ List.replicate (k - src.length) 0 <+: a.bytes := by
  have hlen : (src.take k ++ List.replicate (k - src.length) (0 : UInt8)).length = k := by
    simp only [List.length_append, List.length_take, List.length_replicate]
    omega
  rw [CharArray.ext_iff, List.prefix_iff_eq_append, hlen]
  rfl

theorem strncat_eq_some {a b : CharArray n} {src : Bytes} {k : Nat} (h : a.strncat src k = some b) :
    a.terminated ∧ a.text.length + (src.take k).length < n ∧
      b.bytes = a.text ++ src.take k ++ [0] ++
        a.bytes.drop (a.text.length + (src.take k).length + 1) := by
  unfold strncat at h
  split at h
  · rename_i hfit
    cases h
    exact ⟨hfit.1, hfit.2, rfl⟩
  · cases h

/-- A terminated array is its text, a terminator and what is left behind it. -/
theorem bytes_of_terminated {a : CharArray n} (h : a.terminated) :
    ∃ rest, a.bytes = a.text ++ 0 :: rest := by
  obtain ⟨front, rest, hbytes, hfront⟩ := List.eq_append_cons_of_mem (List.contains_iff_mem.mp h)
  refine ⟨rest, ?_⟩
  rw [text, hbytes, List.takeWhile_append, takeWhile_of_text hfront, if_pos rfl]
  simp

/-- The text of an array that a copy has filled up to its limit goes on in what was there. -/
theorem text_strncpy_of_le (a : CharArray n) {src : Bytes} {k : Nat} (hk : k ≤ n) (h0 : 0 ∉ src)
    (hlen : k ≤ src.length) :
    (a.strncpy src k hk).text = src.take k ++ (a.bytes.drop k).takeWhile (· ≠ 0) := by
  have htake : 0 ∉ src.take k := fun h => h0 (List.mem_of_mem_take h)
  have hpad : k - src.length = 0 := by omega
  simp only [text, strncpy, hpad, List.replicate_zero, List.append_nil]
  rw [List.takeWhile_append, takeWhile_of_text htake, if_pos rfl]

theorem text_strncat {a b : CharArray n} {src : Bytes} {k : Nat} (h0 : 0 ∉ src)
    (h : a.strncat src k = some b) : b.text = a.text ++ src.take k := by
  have htake : 0 ∉ src.take k := fun h => h0 (List.mem_of_mem_take h)
  have htext : 0 ∉ a.text := fun h => by simpa using List.mem_takeWhile_imp h
  have hboth : 0 ∉ a.text ++ src.take k := by simp [htake, htext]
  obtain ⟨-, -, hbytes⟩ := strncat_eq_some h
  rw [text, hbytes, List.append_assoc, List.takeWhile_append, takeWhile_of_text hboth, if_pos rfl]
  simp

/-- What was in the array before does not matter. -/
theorem text_snprintf_eq (a : CharArray n) (src : Bytes) {k : Nat} (h : 0 < k) (hk : k ≤ n) :
    (a.snprintf src k h hk).text = (src.take (k - 1)).takeWhile (· ≠ 0) := by
  simp only [text, snprintf]
  rw [List.append_assoc, List.takeWhile_append]
  split
  · rename_i hall
    rw [(List.takeWhile_prefix _).eq_of_length hall]
    simp
  · rfl

theorem text_snprintf (a : CharArray n) (src : Bytes) {k : Nat} (h : 0 < k) (hk : k ≤ n) :
    (a.snprintf src k h hk).text <+: src := by
  rw [text_snprintf_eq]
  exact (List.takeWhile_prefix _).trans (List.take_prefix ..)

theorem text_snprintf_of_lt (a : CharArray n) {src : Bytes} {k : Nat} (hk : k ≤ n) (h0 : 0 ∉ src)
    (hlen : src.length < k) : (a.snprintf src k (by omega) hk).text = src := by
  have htake : src.take (k - 1) = src := List.take_of_length_le (by omega)
  simp only [text, snprintf, htake]
  rw [List.append_assoc, List.takeWhile_append, takeWhile_of_text h0, if_pos rfl]
  simp

/-! ## Arrays that stay terminated -/

/-- The last character is a terminator. -/
def LastZero (a : CharArray n) : Prop := a.bytes.getLast? = some 0

theorem LastZero.terminated {a : CharArray n} (h : a.LastZero) : a.terminated = true := by
  rw [CharArray.terminated, List.contains_iff_mem]
  exact List.mem_of_getLast? h

theorem lastZero_zero (hn : 0 < n) : (zero n).LastZero := by
  have hne : n ≠ 0 := by omega
  simp [LastZero, zero, List.getLast?_replicate, hne]

/-- A shorter copy leaves the end of the array alone. -/
theorem LastZero.strncpy {a : CharArray n} (h : a.LastZero) (src : Bytes) {k : Nat} (hk : k < n) :
    (a.strncpy src k hk.le).LastZero := by
  have hdrop : ¬ a.bytes.length ≤ k := by
    rw [a.size_eq]
    omega
  show (src.take k ++ List.replicate (k - src.length) 0 ++ a.bytes.drop k).getLast? = some 0
  rw [List.getLast?_append, List.getLast?_drop, if_neg hdrop, h, Option.some_or]

/-- A copy over the whole array pads it when the text is shorter. -/
theorem lastZero_strncpy (a : CharArray n) {src : Bytes} (hlen : src.length < n) :
    (a.strncpy src n le_rfl).LastZero := by
  have hdrop : a.bytes.drop n = [] := List.drop_eq_nil_of_le a.size_eq.le
  have hpad : n - src.length ≠ 0 := by omega
  show (src.take n ++ List.replicate (n - src.length) 0 ++ a.bytes.drop n).getLast? = some 0
  rw [hdrop, List.append_nil, List.getLast?_append, List.getLast?_replicate, if_neg hpad,
    Option.some_or]

/-- What is written in front of the rest of an array ends in a terminator. -/
theorem getLast?_overwrite {a : CharArray n} (h : a.LastZero) (front : Bytes) (m : Nat) :
    (front ++ [0] ++ a.bytes.drop m).getLast? = some 0 := by
  rw [List.getLast?_append, List.getLast?_drop]
  split
  · simp
  · rw [h, Option.some_or]

theorem LastZero.snprintf {a : CharArray n} (h : a.LastZero) (src : Bytes) {k : Nat} (hpos : 0 < k)
    (hk : k ≤ n) : (a.snprintf src k hpos hk).LastZero :=
  getLast?_overwrite h _ _

theorem LastZero.strncat {a b : CharArray n} (h : a.LastZero) {src : Bytes} {k : Nat}
    (hcat : a.strncat src k = some b) : b.LastZero := by
  obtain ⟨-, -, hbytes⟩ := strncat_eq_some hcat
  rw [LastZero, hbytes]
  exact getLast?_overwrite h _ _

/-! ## Lengths -/

/-- An array without a terminator. -/
def full (n : Nat) : CharArray n := ⟨List.replicate n 1, List.length_replicate⟩

/-- `strlen` finds at most what the array holds with the memory behind it. -/
theorem strlen_le (a : CharArray n) (past : Bytes) : a.strlen past ≤ n + past.length := by
  unfold strlen
  split
  · have hle := (List.takeWhile_prefix (p := (· ≠ (0 : UInt8))) (l := a.bytes)).length_le
    have hsize := a.size_eq
    rw [text]
    omega
  · exact le_rfl

theorem strlen_full (n : Nat) (past : Bytes) : (full n).strlen past = n + past.length := by
  have hterm : ¬ (full n).terminated = true := by
    simp [terminated, full, List.mem_replicate]
  rw [strlen, if_neg hterm]

theorem strlen_zero (hn : 0 < n) (past : Bytes) : (zero n).strlen past = 0 := by
  have hterm := (lastZero_zero hn).terminated
  rw [strlen, if_pos hterm, text_zero, List.length_nil]

/-- The array holds a text and a terminator behind it. -/
def Holds (a : CharArray n) (src : Bytes) : Prop := a.terminated = true ∧ a.text = src

theorem Holds.read {a : CharArray n} {src : Bytes} (h : a.Holds src) (past : Option Bytes) :
    a.read past = some src := by
  rw [read_of_terminated h.1, h.2]

theorem holds_zero (hn : 0 < n) : (zero n).Holds [] :=
  ⟨(lastZero_zero hn).terminated, text_zero n⟩

theorem holds_strncpy (a : CharArray n) {src : Bytes} (h0 : 0 ∉ src) (hlen : src.length < n) :
    (a.strncpy src n le_rfl).Holds src :=
  ⟨(terminated_strncpy a h0).mpr hlen, text_strncpy a h0 hlen⟩

theorem holds_of_bytes {a : CharArray n} {src rest : Bytes} (h : a.bytes = src ++ 0 :: rest)
    (h0 : 0 ∉ src) : a.Holds src := by
  constructor
  · simp [terminated, h]
  · rw [text, h, List.takeWhile_append, takeWhile_of_text h0, if_pos rfl]
    simp

theorem strcpy_of_lt (a : CharArray n) {src : Bytes} (h0 : 0 ∉ src) (hlen : src.length < n) :
    ∃ b, a.strcpy src = some b ∧ b.Holds src :=
  ⟨_, dif_pos hlen, holds_of_bytes rfl h0⟩

theorem strcpy_of_le (a : CharArray n) {src : Bytes} (hlen : n ≤ src.length) :
    a.strcpy src = none := dif_neg (by omega)

theorem strcpy_eq_some {a b : CharArray n} {src : Bytes} (h : a.strcpy src = some b)
    (h0 : 0 ∉ src) : src.length < n ∧ b.Holds src := by
  have hlen : src.length < n := by
    unfold strcpy at h
    split at h
    · assumption
    · cases h
  obtain ⟨b', hcopy, hholds⟩ := a.strcpy_of_lt h0 hlen
  rw [hcopy] at h
  cases h
  exact ⟨hlen, hholds⟩

theorem put_of_le (a : CharArray n) {i : Nat} (h : n ≤ i) (b : UInt8) : a.put i b = none :=
  if_neg (by omega)

/-- A copied text that is ended by hand. -/
theorem put_strncpy (a : CharArray n) {src : Bytes} {k i : Nat} (hk : k ≤ n) (h0 : 0 ∉ src)
    (hi : i < n) (hik : i ≤ k) (hlen : i ≤ src.length) :
    ∃ b, (a.strncpy src k hk).put i 0 = some b ∧ b.Holds (src.take i) := by
  have htake : 0 ∉ src.take i := fun h => h0 (List.mem_of_mem_take h)
  have hbytes : ((a.strncpy src k hk).bytes.set i 0) =
      src.take i ++ 0 :: (a.strncpy src k hk).bytes.drop (i + 1) := by
    have hsize := (a.strncpy src k hk).size_eq
    have hfront : (a.strncpy src k hk).bytes.take i = src.take i := by
      have hparts : (a.strncpy src k hk).bytes =
          src.take k ++ (List.replicate (k - src.length) 0 ++ a.bytes.drop k) :=
        List.append_assoc ..
      rw [hparts, List.take_append_of_le_length, List.take_take]
      · rw [Nat.min_eq_left hik]
      · rw [List.length_take]
        omega
    rw [List.set_eq_take_append_cons_drop, if_pos (by omega), hfront]
  exact ⟨_, if_pos hi, holds_of_bytes hbytes htake⟩

/-- The array holds a terminator, and what is read of it is the start of a text. -/
def Shows (a : CharArray n) (src : Bytes) : Prop := a.terminated = true ∧ a.text <+: src

theorem Holds.shows {a : CharArray n} {src : Bytes} (h : a.Holds src) : a.Shows src := by
  obtain ⟨hterm, rfl⟩ := h
  exact ⟨hterm, List.prefix_refl _⟩

end CharArray
