import ArpgServer.Model.EzxmlText

/-!
# Escaped texts

What `ezxml_ampencode` writes, `ezxml_decode` reads back: every content, and every attribute
up to the two blanks the encoder does not know. A character reference stands for the UTF-8
bytes of its character.
-/

namespace ArpgServer.Ezxml

open CText Scan

/-! ## Numbers -/

theorem le_of_isDigitIn {base : Nat} (hbase : base ≤ 16) {b : UInt8}
    (h : isDigitIn base b = true) :
    (48 ≤ b.toNat ∧ b.toNat ≤ 57) ∨ (97 ≤ b.toNat ∧ b.toNat ≤ 102) ∨
      (65 ≤ b.toNat ∧ b.toNat ≤ 70) := by
  simp only [isDigitIn, digitIn, Bool.and_eq_true, decide_eq_true_eq, UInt8.le_iff_toNat_le,
    UInt8.reduceToNat, Option.isSome_ite] at h
  split at h
  · omega
  · split at h
    · omega
    · split at h
      · omega
      · omega

theorem not_isDigitIn_semicolon {base : Nat} : isDigitIn base 59 = false := by
  simp [isDigitIn, digitIn]

variable {base : Nat} {ds rest : Bytes}

theorem strtolDigits_append (hds : ds ≠ []) (hdigits : ∀ d ∈ ds, isDigitIn base d = true)
    (hmark : base = 16 → ds.head? ≠ some 48) :
    strtolDigits base (ds ++ 59 :: rest) = some (valueIn base ds, 59 :: rest) := by
  have hskip : (if base = 16 then skipHexMark (ds ++ 59 :: rest) else ds ++ 59 :: rest) =
      ds ++ 59 :: rest := by
    split
    · rename_i hbase
      obtain ⟨d, ds, rfl⟩ := List.exists_cons_of_ne_nil hds
      have hd : d ≠ 48 := fun h => hmark hbase (by rw [h]; rfl)
      unfold skipHexMark
      split
      · rename_i heq
        exact absurd (List.cons.inj heq).1 hd
      · rfl
    · rfl
  have htake : (ds ++ 59 :: rest).takeWhile (isDigitIn base) = ds := by
    rw [List.takeWhile_append_of_pos hdigits, List.takeWhile_cons, not_isDigitIn_semicolon]
    simp
  have hdrop : (ds ++ 59 :: rest).dropWhile (isDigitIn base) = 59 :: rest := by
    rw [List.dropWhile_append_of_pos hdigits, List.dropWhile_cons, not_isDigitIn_semicolon]
    simp
  simp only [strtolDigits, hskip, htake, hdrop, if_neg hds]

theorem strtol_append (hbase : base ≤ 16) (hds : ds ≠ [])
    (hdigits : ∀ d ∈ ds, isDigitIn base d = true) (hmark : base = 16 → ds.head? ≠ some 48) :
    strtol base (ds ++ 59 :: rest) = (min (2 ^ 63 - 1) (valueIn base ds : Int), 59 :: rest) := by
  have hread := @strtolDigits_append base ds rest hds hdigits hmark
  obtain ⟨d, ds, rfl⟩ := List.exists_cons_of_ne_nil hds
  have hd := le_of_isDigitIn hbase (hdigits d List.mem_cons_self)
  have hspace : isSpace d = false := by
    simp only [isSpace, Bool.or_eq_false_iff, Bool.and_eq_false_iff, decide_eq_false_iff_not,
      ← UInt8.toNat_inj, UInt8.le_iff_toNat_le, UInt8.reduceToNat]
    omega
  have hblank : (d :: ds ++ 59 :: rest).dropWhile isSpace = d :: ds ++ 59 :: rest := by
    rw [List.cons_append, List.dropWhile_cons, hspace]
    simp
  unfold strtol
  rw [hblank]
  split
  · rename_i heq
    rw [(List.cons.inj heq).1] at hd
    exact absurd hd (by decide)
  · rename_i heq
    rw [(List.cons.inj heq).1] at hd
    exact absurd hd (by decide)
  · rw [strtolSigned, hread]
    rfl

/-! ## Character references -/

theorem payload_le {c : Nat} (h : c < 2 ^ 41) : payload c ≤ 7 := by
  unfold payload
  by_cases hc : c = 0
  · rw [hc]
    decide
  · have hlog : c.log2 < 41 := (Nat.log2_lt hc).mpr h
    omega

theorem charRef_of_charNumber {s : Bytes} {c : Nat} (hc : 0 < c) (hlt : c < 2 ^ 41)
    (h : charNumber s = ((c : Int), 59 :: rest)) :
    charRef s = some (utf8Char c, 1 + (s.length - rest.length)) := by
  have hne : (c : Int) ≠ 0 := by omega
  simp only [charRef, h]
  rw [if_neg hne]
  unfold utf8Char
  by_cases hascii : c < 0x80
  · have hlow : (c : Int) < 0x80 := by omega
    have hmod : (c : Int) % 256 = (c : Int) := Int.emod_eq_of_lt (by omega) (by omega)
    rw [if_pos hlow, if_pos hascii, hmod, if_neg hne, Int.toNat_natCast]
  · have hhigh : ¬ (c : Int) < 0x80 := by omega
    have hpay : ¬ 7 < payload c := by
      have := payload_le hlt
      omega
    rw [if_neg hhigh, if_neg hascii, Int.toNat_natCast, if_neg hpay]

theorem charRef_decimal (hds : ds ≠ []) (hdigits : ∀ d ∈ ds, isDigitIn 10 d = true)
    (hc : 0 < valueIn 10 ds) (hlt : valueIn 10 ds < 2 ^ 41) :
    charRef (ds ++ 59 :: rest) = some (utf8Char (valueIn 10 ds), ds.length + 2) := by
  have hread := @strtol_append 10 ds rest (by decide) hds hdigits
    fun h => absurd h (by decide)
  have hmin : min (2 ^ 63 - 1) (valueIn 10 ds : Int) = (valueIn 10 ds : Int) := by omega
  have hnumber : charNumber (ds ++ 59 :: rest) = ((valueIn 10 ds : Int), 59 :: rest) := by
    rw [hmin] at hread
    rw [← hread]
    obtain ⟨d, ds, rfl⟩ := List.exists_cons_of_ne_nil hds
    have hd := hdigits d List.mem_cons_self
    unfold charNumber
    split
    · rename_i heq
      rw [(List.cons.inj heq).1] at hd
      exact absurd hd (by decide)
    · rfl
  rw [charRef_of_charNumber hc hlt hnumber, List.length_append, List.length_cons]
  congr 2
  omega

theorem charRef_hex (hds : ds ≠ []) (hdigits : ∀ d ∈ ds, isDigitIn 16 d = true)
    (hmark : ds.head? ≠ some 48) (hc : 0 < valueIn 16 ds) (hlt : valueIn 16 ds < 2 ^ 41) :
    charRef (120 :: (ds ++ 59 :: rest)) = some (utf8Char (valueIn 16 ds), ds.length + 3) := by
  have hread := @strtol_append 16 ds rest (by decide) hds hdigits fun _ => hmark
  have hmin : min (2 ^ 63 - 1) (valueIn 16 ds : Int) = (valueIn 16 ds : Int) := by omega
  rw [hmin] at hread
  have hnumber : charNumber (120 :: (ds ++ 59 :: rest)) =
      ((valueIn 16 ds : Int), 59 :: rest) := hread
  rw [charRef_of_charNumber hc hlt hnumber, List.length_cons, List.length_append, List.length_cons]
  congr 2
  omega

variable {t : Mode}

theorem decodeTurn_hash (ht : t ≠ .cdata) (s : Bytes) : decodeTurn t 38 (35 :: s) = charRef s := by
  simp [decodeTurn, ht]

theorem decodeTurn_entity (ht : t ≠ .cdata) {s : Bytes} (hs : s.head? ≠ some 35) :
    decodeTurn t 38 s = entityRef s := by
  cases s with
  | nil => simp [decodeTurn, ht]
  | cons b s =>
    have hb : b ≠ 35 := fun h => hs (by rw [h]; rfl)
    simp [decodeTurn, ht, hb]

theorem decodeTurn_other {b : UInt8} (hb : b ≠ 38 ∨ t = .cdata)
    (hspace : t = .attribute → isSpace b = false) (s : Bytes) :
    decodeTurn t b s = some ([b], 0) := by
  have hamp : (b = 38 && t ≠ .cdata) = false := by
    rcases hb with hb | rfl
    · simp [hb]
    · simp
  have hblank : (t = .attribute && isSpace b) = false := by
    by_cases ht : t = .attribute
    · simp [ht, hspace ht]
    · simp [ht]
  unfold decodeTurn
  rw [hamp, hblank]
  rfl

/-- A character reference is read as its character, in every text but CDATA. -/
theorem reads_decimal (ht : t ≠ .cdata) (hds : ds ≠ [])
    (hdigits : ∀ d ∈ ds, isDigitIn 10 d = true) (hc : 0 < valueIn 10 ds)
    (hlt : valueIn 10 ds < 2 ^ 41) :
    Yields (decodeTurn t) (38 :: 35 :: (ds ++ [59])) (utf8Char (valueIn 10 ds)) := by
  refine .of_turn fun rest => ?_
  rw [List.cons_append, decodeTurn_hash ht, List.append_assoc, List.singleton_append,
    charRef_decimal hds hdigits hc hlt]
  simp

theorem reads_hex (ht : t ≠ .cdata) (hds : ds ≠ [])
    (hdigits : ∀ d ∈ ds, isDigitIn 16 d = true) (hmark : ds.head? ≠ some 48)
    (hc : 0 < valueIn 16 ds) (hlt : valueIn 16 ds < 2 ^ 41) :
    Yields (decodeTurn t) (38 :: 35 :: 120 :: (ds ++ [59])) (utf8Char (valueIn 16 ds)) := by
  refine .of_turn fun rest => ?_
  rw [List.cons_append, List.cons_append, decodeTurn_hash ht, List.append_assoc,
    List.singleton_append, charRef_hex hds hdigits hmark hc hlt]
  simp

/-! ## Entities -/

theorem entities_eq : entities =
    [([108, 116, 59], [38, 35, 54, 48, 59]), ([103, 116, 59], [38, 35, 54, 50, 59]),
      ([113, 117, 111, 116, 59], [38, 35, 51, 52, 59]),
      ([97, 112, 111, 115, 59], [38, 35, 51, 57, 59]),
      ([97, 109, 112, 59], [38, 35, 51, 56, 59])] := by decide +kernel

/-- No name of an entity is the start of another one. -/
theorem find_entity {ent : Bytes × Bytes} (h : ent ∈ entities) (rest : Bytes) :
    entities.find? (fun ent' => ent'.1.isPrefixOf (ent.1 ++ rest)) = some ent := by
  rw [entities_eq] at h ⊢
  simp only [List.mem_cons, List.not_mem_nil, or_false] at h
  rcases h with rfl | rfl | rfl | rfl | rfl <;> rfl

theorem head_entity {ent : Bytes × Bytes} (h : ent ∈ entities) (rest : Bytes) :
    (ent.1 ++ rest).head? ≠ some 35 := by
  rw [entities_eq] at h
  simp only [List.mem_cons, List.not_mem_nil, or_false] at h
  rcases h with rfl | rfl | rfl | rfl | rfl <;> simp

/-- An entity is read as the character its replacement refers to. -/
theorem reads_entity {name : Bytes} (ht : t ≠ .cdata) (hds : ds ≠ [])
    (h : (name, 38 :: 35 :: (ds ++ [59])) ∈ entities)
    (hdigits : ∀ d ∈ ds, isDigitIn 10 d = true) (hc : 0 < valueIn 10 ds)
    (hlt : valueIn 10 ds < 2 ^ 41) :
    Yields (decodeTurn t) (38 :: name) (utf8Char (valueIn 10 ds)) := by
  refine .of_turn fun rest => ?_
  have hfind := find_entity h rest
  rw [decodeTurn_entity ht (head_entity h rest), entityRef]
  simp only [hfind, List.drop_succ_cons, List.drop_zero, List.drop_left, List.append_assoc,
    List.singleton_append, charRef_decimal hds hdigits hc hlt, Option.map_some]

/-! ## What the serializer writes -/

theorem ampCode_eq (a : Bool) (b : UInt8) : ampCode a b =
    if b = 38 then [38, 97, 109, 112, 59]
    else if b = 60 then [38, 108, 116, 59]
    else if b = 62 then [38, 103, 116, 59]
    else if b = 34 && a then [38, 113, 117, 111, 116, 59]
    else if b = 10 && a then [38, 35, 120, 65, 59]
    else if b = 9 && a then [38, 35, 120, 57, 59]
    else if b = 13 then [38, 35, 120, 68, 59]
    else [b] := by
  have hamp : ofString "&amp;" = [38, 97, 109, 112, 59] := rfl
  have hlt : ofString "&lt;" = [38, 108, 116, 59] := rfl
  have hgt : ofString "&gt;" = [38, 103, 116, 59] := rfl
  have hquot : ofString "&quot;" = [38, 113, 117, 111, 116, 59] := rfl
  have hline : ofString "&#xA;" = [38, 35, 120, 65, 59] := rfl
  have htab : ofString "&#x9;" = [38, 35, 120, 57, 59] := rfl
  have hreturn : ofString "&#xD;" = [38, 35, 120, 68, 59] := rfl
  rw [ampCode, hamp, hlt, hgt, hquot, hline, htab, hreturn]

/-- The blanks that the encoder does not know and the decoder does. -/
def blanked (b : UInt8) : UInt8 := if b = 11 ∨ b = 12 then 32 else b

/-- What is read of a character of a text. -/
def readAs (t : Mode) (b : UInt8) : UInt8 := if t = .attribute then blanked b else b

theorem eq_of_isSpace {b : UInt8} (h : isSpace b = true) (h9 : b ≠ 9) (h10 : b ≠ 10)
    (h13 : b ≠ 13) : b = 32 ∨ b = 11 ∨ b = 12 := by
  simp only [isSpace, Bool.or_eq_true, Bool.and_eq_true, decide_eq_true_eq, ne_eq,
    ← UInt8.toNat_inj, UInt8.le_iff_toNat_le, UInt8.reduceToNat] at h h9 h10 h13 ⊢
  omega

theorem reads_plain {b : UInt8} (hamp : b ≠ 38)
    (hline : t = .attribute → b ≠ 9 ∧ b ≠ 10 ∧ b ≠ 13) :
    Yields (decodeTurn t) [b] [readAs t b] := by
  refine .of_turn fun rest => ?_
  by_cases ht : t = .attribute
  · subst ht
    obtain ⟨h9, h10, h13⟩ := hline rfl
    by_cases hspace : isSpace b = true
    · have hread : readAs .attribute b = 32 := by
        rcases eq_of_isSpace hspace h9 h10 h13 with rfl | rfl | rfl <;> rfl
      simp [decodeTurn, hamp, hspace, hread]
    · have hb : ¬ (b = 11 ∨ b = 12) := by
        rintro (rfl | rfl) <;> exact hspace rfl
      have hread : readAs .attribute b = b := by simp [readAs, blanked, hb]
      rw [hread]
      exact decodeTurn_other (Or.inl hamp) (fun _ => by simpa using hspace) rest
  · have hread : readAs t b = b := if_neg ht
    rw [hread]
    exact decodeTurn_other (Or.inl hamp) (fun h => absurd h ht) rest

/-- The sequence for a character is read as that character. -/
theorem reads_ampCode {a : Bool} (ht : t ≠ .cdata) (hta : t = .attribute → a = true) (b : UInt8) :
    Yields (decodeTurn t) (ampCode a b) [readAs t b] := by
  have hentity : ∀ (name ds : Bytes) (c : UInt8), (name, 38 :: 35 :: (ds ++ [59])) ∈ entities →
      ds ≠ [] → ds.all (isDigitIn 10) = true → 0 < valueIn 10 ds →
      valueIn 10 ds < 2 ^ 41 → utf8Char (valueIn 10 ds) = [readAs t c] →
      Yields (decodeTurn t) (38 :: name) [readAs t c] := by
    intro name ds c hmem hds hdigits hc hlt hchar
    rw [← hchar]
    exact reads_entity ht hds hmem (List.all_eq_true.mp hdigits) hc hlt
  have hhex : ∀ (d c : UInt8), isDigitIn 16 d = true → d ≠ 48 → 0 < valueIn 16 [d] →
      valueIn 16 [d] < 2 ^ 41 → utf8Char (valueIn 16 [d]) = [readAs t c] →
      Yields (decodeTurn t) [38, 35, 120, d, 59] [readAs t c] := by
    intro d c hdigit hmark hc hlt hchar
    rw [← hchar]
    refine reads_hex ht (List.cons_ne_nil d []) ?_ ?_ hc hlt
    · simpa using hdigit
    · simpa using hmark
  have hsame : ∀ c : UInt8, c ≠ 11 → c ≠ 12 → readAs t c = c := by
    intro c h11 h12
    simp [readAs, blanked, h11, h12]
  have hsmall : ∀ {n : Nat}, n < 256 → n < 2 ^ 41 := by
    intro n hn
    omega
  rw [ampCode_eq]
  split_ifs with h38 h60 h62 h34 h10 h9 h13
  · subst h38
    refine hentity _ [51, 56] 38 ?_ (by decide) (by decide) (by decide) (hsmall (by decide)) ?_
    · rw [entities_eq]
      decide
    · rw [hsame 38 (by decide) (by decide)]
      decide
  · subst h60
    refine hentity _ [54, 48] 60 ?_ (by decide) (by decide) (by decide) (hsmall (by decide)) ?_
    · rw [entities_eq]
      decide
    · rw [hsame 60 (by decide) (by decide)]
      decide
  · subst h62
    refine hentity _ [54, 50] 62 ?_ (by decide) (by decide) (by decide) (hsmall (by decide)) ?_
    · rw [entities_eq]
      decide
    · rw [hsame 62 (by decide) (by decide)]
      decide
  · simp only [Bool.and_eq_true, decide_eq_true_eq] at h34
    obtain ⟨rfl, -⟩ := h34
    refine hentity _ [51, 52] 34 ?_ (by decide) (by decide) (by decide) (hsmall (by decide)) ?_
    · rw [entities_eq]
      decide
    · rw [hsame 34 (by decide) (by decide)]
      decide
  · simp only [Bool.and_eq_true, decide_eq_true_eq] at h10
    obtain ⟨rfl, -⟩ := h10
    refine hhex 65 10 (by decide) (by decide) (by decide) (hsmall (by decide)) ?_
    rw [hsame 10 (by decide) (by decide)]
    decide
  · simp only [Bool.and_eq_true, decide_eq_true_eq] at h9
    obtain ⟨rfl, -⟩ := h9
    refine hhex 57 9 (by decide) (by decide) (by decide) (hsmall (by decide)) ?_
    rw [hsame 9 (by decide) (by decide)]
    decide
  · subst h13
    refine hhex 68 13 (by decide) (by decide) (by decide) (hsmall (by decide)) ?_
    rw [hsame 13 (by decide) (by decide)]
    decide
  · refine reads_plain h38 fun ht => ⟨?_, ?_, h13⟩
    · rintro rfl
      exact h9 (by simp [hta ht])
    · rintro rfl
      exact h10 (by simp [hta ht])

/-! ## Whole texts -/

theorem normalize_of_not_mem {s : Bytes} (h : 13 ∉ s) : normalize s = s := by
  induction s with
  | nil => rfl
  | cons b s ih =>
    have hb : b ≠ 13 := fun he => h (by rw [he]; exact List.mem_cons_self)
    have hs := ih fun hmem => h (List.mem_cons_of_mem b hmem)
    unfold normalize
    split
    · rename_i heq
      cases heq
    · rename_i heq
      exact absurd (List.cons.inj heq).1 hb
    · rename_i heq
      exact absurd (List.cons.inj heq).1 hb
    · rename_i heq
      obtain ⟨rfl, rfl⟩ := List.cons.inj heq
      rw [hs]

theorem behind_of_not_mem {s : Bytes} (h : 13 ∉ s) (rest : Bytes) : behind s rest = some rest := by
  have hlast : s.getLast? ≠ some 13 := fun he => h (List.mem_of_getLast? he)
  simp [behind, passesEnd, hlast]

theorem decode_of_reads {s v : Bytes} (hcr : 13 ∉ s) (h : Yields (decodeTurn t) s v)
    (rest : Bytes) : decode t s rest = some (v, rest) := by
  rw [decode, behind_of_not_mem hcr, normalize_of_not_mem hcr, decodeText, h.scan]
  rfl

/-- The encoder writes no character of markup. -/
theorem not_mem_ampencode {a : Bool} {s : Bytes} {b : UInt8}
    (hb : b = 13 ∨ b = 60 ∨ b = 62 ∨ (a = true ∧ (b = 34 ∨ b = 9 ∨ b = 10))) :
    b ∉ ampencode a s := by
  have hcode : ∀ c, b ∉ ampCode a c := by
    intro c
    rw [ampCode_eq]
    split_ifs with h38 h60 h62 h34 h10 h9 h13
    iterate 7
      rcases hb with rfl | rfl | rfl | ⟨-, rfl | rfl | rfl⟩ <;> decide
    rw [List.mem_singleton]
    rintro rfl
    rcases hb with rfl | rfl | rfl | ⟨rfl, rfl | rfl | rfl⟩ <;> simp at *
  intro hmem
  obtain ⟨c, -, hc⟩ := List.mem_flatMap.mp hmem
  exact hcode c hc

theorem zero_not_mem_ampencode {a : Bool} {s : Bytes} (h : 0 ∉ s) : 0 ∉ ampencode a s := by
  intro hmem
  obtain ⟨c, hc, hzero⟩ := List.mem_flatMap.mp hmem
  rw [ampCode_eq] at hzero
  split_ifs at hzero <;> try exact absurd hzero (by decide)
  rw [List.mem_singleton] at hzero
  exact h (hzero ▸ hc)

theorem reads_ampencode {a : Bool} (ht : t ≠ .cdata) (hta : t = .attribute → a = true) (s : Bytes) :
    Yields (decodeTurn t) (ampencode a s) (s.map (readAs t)) := by
  have hmap : s.map (readAs t) = s.flatMap fun b => [readAs t b] := List.map_eq_flatMap
  rw [hmap]
  exact .flatMap fun b _ => reads_ampCode ht hta b

theorem decode_ampencode {a : Bool} (ht : t ≠ .cdata) (hta : t = .attribute → a = true)
    (s rest : Bytes) : decode t (ampencode a s) rest = some (s.map (readAs t), rest) :=
  decode_of_reads (not_mem_ampencode (Or.inl rfl)) (reads_ampencode ht hta s) rest

theorem readAs_content : readAs .content = id := rfl

theorem map_readAs_attribute_iff (s : Bytes) : s.map (readAs .attribute) = s ↔ 11 ∉ s ∧ 12 ∉ s := by
  have hread : ∀ b, readAs .attribute b = b ↔ b ≠ 11 ∧ b ≠ 12 := by
    intro b
    simp only [readAs, blanked, if_true]
    split
    · rename_i hb
      rcases hb with rfl | rfl <;> decide
    · rename_i hb
      exact iff_of_true rfl (not_or.mp hb)
  induction s with
  | nil => simp
  | cons b s ih =>
    have hcons : (b :: s).map (readAs .attribute) = b :: s ↔
        (b ≠ 11 ∧ b ≠ 12) ∧ 11 ∉ s ∧ 12 ∉ s := by
      rw [List.map_cons, List.cons.injEq, hread]
      exact and_congr_right fun _ => ih
    rw [hcons, List.mem_cons, List.mem_cons, not_or, not_or, ← ne_eq 11 b, ← ne_eq 12 b,
      ne_comm (a := b), ne_comm (a := b)]
    exact and_and_and_comm

/-- What the encoder writes for a text holds no markup, and the decoder gives the text back:
as content always, as an attribute exactly when it has no vertical tab and no form feed. -/
theorem escaped_text (s rest : Bytes) :
    (60 ∉ ampencode false s ∧ decode .content (ampencode false s) rest = some (s, rest)) ∧
      60 ∉ ampencode true s ∧ 34 ∉ ampencode true s ∧
      (decode .attribute (ampencode true s) rest = some (s, rest) ↔ 11 ∉ s ∧ 12 ∉ s) := by
  have hcontent := @decode_ampencode .content false (by decide) (by decide) s rest
  have hattr := @decode_ampencode .attribute true (by decide) (fun _ => rfl) s rest
  rw [readAs_content, List.map_id] at hcontent
  refine ⟨⟨not_mem_ampencode (by simp), hcontent⟩, not_mem_ampencode (by simp),
    not_mem_ampencode (by simp), ?_⟩
  rw [hattr, ← map_readAs_attribute_iff, Option.some.injEq, Prod.mk.injEq]
  exact and_iff_left rfl

end ArpgServer.Ezxml
