import ArpgServer.Xml.Parsing

/-!
# Tags that were spelled out

A tag whose attributes are written with a blank, a name, an equals sign and a quoted text is
read as the tag with these names, and with what the texts decode to as the values.
-/

namespace ArpgServer.Ezxml

open CText Scan

/-! ## Attributes -/

/-- An attribute as it is written: its name, its quotes, the text between them and what the
text stands for. -/
structure Spelling where
  name : Bytes
  quote : UInt8
  raw : Bytes
  value : Bytes

namespace Spelling

def code (a : Spelling) : Bytes := 32 :: (a.name ++ 61 :: a.quote :: (a.raw ++ [a.quote]))

def attr (a : Spelling) : Attribute := (a.name, some a.value)

structure Ok (a : Spelling) : Prop where
  name : AttrName [] a.name
  quote : isQuote a.quote = true
  closed : a.quote ∉ a.raw
  value : ∀ rest, decode .attribute a.raw rest = some (a.value, rest)

end Spelling

theorem dropWhile_begins {s : Bytes} (h : Begins s) : s.dropWhile isSpace = s := by
  cases s with
  | nil => rfl
  | cons b s => exact List.dropWhile_cons_of_neg (by rw [h b rfl]; decide)

variable {a : Spelling} {as : List Spelling} {rest : Bytes}

theorem attrValue_spelled (h : a.Ok) :
    attrValue a.quote (a.raw ++ a.quote :: rest) = some (.ok (some a.value, rest)) := by
  have hraw : ∀ c ∈ a.raw, decide (c ≠ a.quote) = true := by
    intro c hc
    rw [decide_eq_true_eq]
    rintro rfl
    exact h.closed hc
  have htake : (a.raw ++ a.quote :: rest).takeWhile (· ≠ a.quote) = a.raw :=
    takeWhile_stop hraw (by simp)
  have hdrop : (a.raw ++ a.quote :: rest).dropWhile (· ≠ a.quote) = a.quote :: rest :=
    dropWhile_stop hraw (by simp)
  rw [attrValue, htake, hdrop]
  simp only [h.value rest, Option.map_some]

theorem isWs_of_isQuote {q : UInt8} (h : isQuote q = true) : (isWs q || q = 61) = false := by
  simp only [isQuote, Bool.or_eq_true, decide_eq_true_eq] at h
  rcases h with rfl | rfl <;> rfl

theorem oneAttribute_spelled (h : a.Ok) :
    oneAttribute (a.name ++ 61 :: a.quote :: (a.raw ++ a.quote :: rest)) =
      some (.ok (a.attr, rest.dropWhile isSpace)) := by
  have hname : ∀ c ∈ a.name, (!endsAttrName c) = true := fun c hc => by
    rw [h.name.chars c hc]
    rfl
  have htake : (a.name ++ 61 :: a.quote :: (a.raw ++ a.quote :: rest)).takeWhile
      (!endsAttrName ·) = a.name := takeWhile_stop hname rfl
  have hdrop : (a.name ++ 61 :: a.quote :: (a.raw ++ a.quote :: rest)).dropWhile
      (!endsAttrName ·) = 61 :: a.quote :: (a.raw ++ a.quote :: rest) := dropWhile_stop hname rfl
  have hquote : (a.quote :: (a.raw ++ a.quote :: rest)).dropWhile (fun b => isWs b || b = 61) =
      a.quote :: (a.raw ++ a.quote :: rest) :=
    List.dropWhile_cons_of_neg (by rw [isWs_of_isQuote h.quote]; decide)
  rw [oneAttribute, htake, hdrop]
  simp only [hquote, h.quote, if_true, attrValue_spelled h, Option.map_some]
  rfl

/-- The attributes as they are written, without the blank before them. -/
theorem dropWhile_spelled (h : a.Ok) :
    (a.code ++ rest).dropWhile isSpace =
      a.name ++ 61 :: a.quote :: (a.raw ++ a.quote :: rest) := by
  have hbegins : Begins (a.name ++ 61 :: a.quote :: (a.raw ++ a.quote :: rest)) := by
    cases hname : a.name with
    | nil => exact begins_cons rfl _
    | cons b name => exact begins_cons (h.name.begins b (by rw [hname]; rfl)) _
  rw [Spelling.code, List.cons_append, List.dropWhile_cons_of_pos rfl, ← dropWhile_begins hbegins]
  simp

theorem attributes_cons {n : Nat} {b : UInt8} {s : Bytes} (hslash : b ≠ 47) (hclose : b ≠ 62) :
    attributes (n + 1) (b :: s) = (oneAttribute (b :: s)).bind fun
      | .error err => some (.error err)
      | .ok (a, rest) => (attributes n rest).map fun r => r.map fun r => (a :: r.1, r.2) := by
  rw [attributes]
  exact if_neg (by simp [hslash, hclose])

theorem attributes_end {n : Nat} {b : UInt8} {s : Bytes} (h : b = 47 ∨ b = 62) :
    attributes (n + 1) (b :: s) = some (.ok ([], b :: s)) := by
  rw [attributes, if_pos (by simpa using h)]

/-- A written attribute does not start with the end of a tag. -/
theorem exists_spelled_cons (h : a.Ok) (s : Bytes) :
    ∃ b t, a.name ++ 61 :: s = b :: t ∧ b ≠ 47 ∧ b ≠ 62 := by
  cases hname : a.name with
  | nil => exact ⟨61, s, rfl, by decide, by decide⟩
  | cons b name =>
    have hb := h.name.chars b (by rw [hname]; exact List.mem_cons_self)
    refine ⟨b, name ++ 61 :: s, rfl, ?_, ?_⟩ <;>
    · rintro rfl
      exact absurd hb (by decide)

variable {b : UInt8} {s t : Bytes}

theorem attributes_spelled {n : Nat} (hn : as.length < n) (h : ∀ a ∈ as, a.Ok)
    (ht : t.dropWhile isSpace = b :: s) (hb : b = 47 ∨ b = 62) :
    attributes n ((as.flatMap Spelling.code ++ t).dropWhile isSpace) =
      some (.ok (as.map Spelling.attr, b :: s)) := by
  induction as generalizing n with
  | nil =>
    obtain ⟨n, rfl⟩ : ∃ k, n = k + 1 := ⟨n - 1, by simp at hn; omega⟩
    rw [List.flatMap_nil, List.nil_append, ht, attributes_end hb]
    rfl
  | cons a as ih =>
    rw [List.length_cons] at hn
    obtain ⟨n, rfl⟩ : ∃ k, n = k + 1 := ⟨n - 1, by omega⟩
    have ha := h a List.mem_cons_self
    have hrest := @ih n (by omega) fun x hx => h x (List.mem_cons_of_mem a hx)
    have hone := @oneAttribute_spelled a (as.flatMap Spelling.code ++ t) ha
    rw [List.flatMap_cons, List.append_assoc, dropWhile_spelled ha]
    obtain ⟨c, u, hu, hslash, hclose⟩ := exists_spelled_cons ha
      (a.quote :: (a.raw ++ a.quote :: (as.flatMap Spelling.code ++ t)))
    rw [hu] at hone ⊢
    rw [attributes_cons hslash hclose, hone, Option.bind_some]
    simp only [hrest, Option.map_some]
    rfl

/-! ## Tags -/

theorem length_code (a : Spelling) : 4 ≤ a.code.length := by
  simp [Spelling.code]
  omega

theorem length_lt_spelled (h : ∀ a ∈ as, a.Ok) (ht : t.dropWhile isSpace ≠ []) :
    as.length < ((as.flatMap Spelling.code ++ t).dropWhile isSpace).length := by
  have hlen : ∀ l : List Spelling, l.length ≤ (l.flatMap Spelling.code).length := by
    intro l
    induction l with
    | nil => exact Nat.le_refl 0
    | cons a l ih =>
      have ha := length_code a
      rw [List.flatMap_cons, List.length_append, List.length_cons]
      omega
  cases as with
  | nil => exact List.length_pos_iff.mpr ht
  | cons a as =>
    have ha := length_code a
    have has := hlen as
    have hdrop := @dropWhile_spelled a (as.flatMap Spelling.code ++ t) (h a List.mem_cons_self)
    rw [List.flatMap_cons, List.append_assoc, hdrop]
    simp only [List.length_append, List.length_cons]
    omega

variable {e : UInt8} {p p' : Parse} {name : Bytes}

/-- A tag, up to its end. -/
theorem newTag_spelled (hopen : p.closed = false) (hname : TagName [] name)
    (h : ∀ a ∈ as, a.Ok) (hhead : ∀ c, t.head? = some c → endsTagName c = true)
    (ht : t.dropWhile isSpace = b :: s) (hb : b = 47 ∨ b = 62) :
    newTag e p (name ++ (as.flatMap Spelling.code ++ t)) =
      some (tagEnd e p name (as.map Spelling.attr) (b :: s)) := by
  have hchars : ∀ c ∈ name, (!endsTagName c) = true := fun c hc => by
    rw [hname.chars c hc]
    rfl
  have hne : t.dropWhile isSpace ≠ [] := by rw [ht]; exact List.cons_ne_nil b s
  obtain ⟨c, u, hu, hc⟩ : ∃ c u, as.flatMap Spelling.code ++ t = c :: u ∧
      (!endsTagName c) = false := by
    cases as with
    | nil =>
      cases t with
      | nil => exact absurd rfl hne
      | cons c t => exact ⟨c, t, rfl, by rw [hhead c rfl]; rfl⟩
    | cons a as => exact ⟨32, _, by rw [List.flatMap_cons]; rfl, rfl⟩
  have htake : (name ++ (as.flatMap Spelling.code ++ t)).takeWhile (!endsTagName ·) = name := by
    rw [hu]
    exact takeWhile_stop hchars hc
  have hdrop : (name ++ (as.flatMap Spelling.code ++ t)).dropWhile (!endsTagName ·) =
      as.flatMap Spelling.code ++ t := by
    rw [hu]
    exact dropWhile_stop hchars hc
  rw [newTag, if_neg (by rw [hopen]; decide)]
  simp only [htake, hdrop, attributes_spelled (length_lt_spelled h hne) h ht hb, Option.map_some]

theorem markup_newTag (hname : TagName [] name) (rest : Bytes) :
    markup e p (name ++ rest) = newTag e p (name ++ rest) := by
  have hstart : ((name ++ rest).head?.map isNameStart).getD false = true := by
    have hhead := hname.start
    cases name with
    | nil => cases hhead
    | cons b name => exact hhead
  rw [markup, if_pos hstart]

theorem markup_closingTag (hname : TagName [] name) (hclose : closeTag p name = some p') :
    markup e p (47 :: (name ++ 62 :: rest)) = some (.next p' (62 :: rest)) := by
  have hslash : ofString "/" <+: 47 :: (name ++ 62 :: rest) := by
    have heq : ofString "/" = [47] := rfl
    rw [heq]
    exact List.prefix_append [47] _
  have hchars : ∀ c ∈ name, (!(isWs c || decide (c = 62))) = true := by
    intro c hc
    have hends := hname.chars c hc
    simp only [endsTagName, Bool.or_eq_false_iff] at hends
    simp [hends.1.1, hends.2]
  have htake : (name ++ 62 :: rest).takeWhile (fun b => !(isWs b || b = 62)) = name :=
    takeWhile_stop hchars rfl
  have hdrop : (name ++ 62 :: rest).dropWhile (fun b => !(isWs b || b = 62)) = 62 :: rest :=
    dropWhile_stop hchars rfl
  have hstart : ¬ ((47 :: (name ++ 62 :: rest)).head?.map isNameStart).getD false = true := by
    have hfalse : isNameStart 47 = false := rfl
    simp [hfalse]
  rw [markup, if_neg hstart, if_pos hslash, List.drop_one, List.tail_cons, closingTag]
  simp only [htake, hdrop, hclose]
  rfl

end ArpgServer.Ezxml
