import ArpgServer.Model.Xml

/-!
# The text of a tag

`get_tag` finds the first place where `<` and the name stand, whatever follows the name there, and
takes what is between the next `>` and the next `<`. Neither of the two need be there, and a text
that is as long as the buffer is let through, with its terminator behind the buffer.
-/

namespace ArpgServer

open CText Search

variable {n : Nat} {xml tag as head text post : Bytes} {buffer : CharArray n}

def isBlank (b : UInt8) : Bool := b = 32 || b = 9 || b = 10 || b = 13

/-- `<tag`. -/
def openText (tag : Bytes) : Bytes := 60 :: tag

/-- `<tag/>`. -/
def emptyText (tag : Bytes) : Bytes := 60 :: tag ++ [47, 62]

/-- There is an opening tag of this name with this text behind it, up to the next `<`. -/
def OpensWith (xml tag text : Bytes) : Prop :=
  ∃ pre attrs post, xml = pre ++ (openText tag ++ (attrs ++ 62 :: (text ++ 60 :: post))) ∧
    (∀ b ∈ attrs.head?, isBlank b = true) ∧ 60 ∉ attrs ∧ 62 ∉ attrs ∧ attrs.getLast? ≠ some 47 ∧
    60 ∉ text

/-- A text that fits a buffer of `n` bytes with its terminator. -/
def Fitting (xml tag : Bytes) (n : Nat) (text : Bytes) : Prop :=
  OpensWith xml tag text ∧ text.length < n

theorem OpensWith.infix (h : OpensWith xml tag text) : openText tag <:+: xml := by
  obtain ⟨pre, attrs, post, rfl, -⟩ := h
  exact ⟨pre, _, by rw [List.append_assoc]⟩

theorem openText_infix_emptyText (tag : Bytes) : openText tag <:+: emptyText tag :=
  ⟨[], [47, 62], rfl⟩

theorem tagopen_eq (htag : tag.length ≤ 28) : tagopen tag = openText tag := by
  have hopen : ofString "<" ++ tag = openText tag := rfl
  rw [tagopen, patternText, hopen]
  apply List.take_of_length_le
  rw [openText, List.length_cons]
  omega

theorem inone_eq (htag : tag.length ≤ 28) : inone tag = emptyText tag := by
  have hempty : ofString "<" ++ tag ++ ofString "/>" = emptyText tag := rfl
  rw [inone, patternText, hempty]
  apply List.take_of_length_le
  rw [emptyText, List.length_append, List.length_cons, List.length_cons, List.length_cons,
    List.length_nil]
  omega

/-! ## The loop -/

theorem countText_found (h : 60 ∉ text) (post : Bytes) (i : Nat) :
    countText (text ++ 60 :: post) i = some (i + text.length) := by
  induction text generalizing i with
  | nil => rfl
  | cons b text ih =>
    have hb : ¬ b = 60 := fun heq => h (heq ▸ List.mem_cons_self)
    rw [List.cons_append, countText, if_neg hb, ih (fun hmem => h (List.mem_cons_of_mem _ hmem)),
      List.length_cons, Nat.add_assoc, Nat.add_comm 1]

theorem countText_endless (h : 60 ∉ text) (i : Nat) : countText text i = none := by
  induction text generalizing i with
  | nil => rfl
  | cons b text ih =>
    have hb : ¬ b = 60 := fun heq => h (heq ▸ List.mem_cons_self)
    rw [countText, if_neg hb, ih fun hmem => h (List.mem_cons_of_mem _ hmem)]

/-! ## The first tag -/

/-- What is behind the first tag of which the name is a beginning. -/
def FirstTag (xml tag text : Bytes) : Prop :=
  ∃ head post, FirstAt (openText tag) xml (head ++ 62 :: (text ++ 60 :: post)) ∧ 62 ∉ head ∧
    60 ∉ text

/-- The three ways in which a text goes on behind the name. -/
inductive Behind (as : Bytes) : Prop where
  | unclosed (h : 62 ∉ as)
  | endless (head text : Bytes) (h : as = head ++ 62 :: text) (hhead : 62 ∉ head)
      (htext : 60 ∉ text)
  | text (head text post : Bytes) (h : as = head ++ 62 :: (text ++ 60 :: post))
      (hhead : 62 ∉ head) (htext : 60 ∉ text)

theorem behind (as : Bytes) : Behind as := by
  rcases exists_first (· = 62) as with hnone | ⟨head, b, rest, rfl, hhead, rfl⟩
  · exact .unclosed fun hmem => hnone 62 hmem rfl
  · have hhead' : 62 ∉ head := fun hmem => hhead 62 hmem rfl
    rcases exists_first (· = 60) rest with hnone | ⟨text, b, post, rfl, htext, rfl⟩
    · exact .endless head rest rfl hhead' fun hmem => hnone 60 hmem rfl
    · exact .text head text post rfl hhead' fun hmem => htext 60 hmem rfl

theorem strstr_close (h : 62 ∉ head) (rest : Bytes) :
    strstr (head ++ 62 :: rest) (ofString ">") = some (62 :: rest) :=
  search_eq_some_iff.mpr (firstAt_singleton.mpr ⟨head, rest, rfl, rfl, h⟩)

theorem strstr_close_none (h : 62 ∉ as) : strstr as (ofString ">") = none := by
  refine search_eq_none_iff.mpr fun hin => h ?_
  obtain ⟨front, rest, rfl⟩ := hin
  exact List.mem_append_left _ (List.mem_append_right _ List.mem_cons_self)

theorem getTag_empty (htag : tag.length ≤ 28) (h : emptyText tag <:+: xml)
    (buffer : CharArray n) : getTag xml tag buffer = some (returnSuccess, buffer) := by
  have hsome : (strstr xml (inone tag)).isSome = true := by
    rw [inone_eq htag, Option.isSome_iff_ne_none]
    exact fun hnone => search_eq_none_iff.mp hnone h
  rw [getTag, if_pos hsome]

theorem inone_absent (htag : tag.length ≤ 28) (h : ¬ emptyText tag <:+: xml) :
    ¬ (strstr xml (inone tag)).isSome = true := by
  rw [inone_eq htag, strstr, search_eq_none_iff.mpr h]
  exact Bool.false_ne_true

theorem getTag_absent (htag : tag.length ≤ 28) (h : ¬ openText tag <:+: xml)
    (buffer : CharArray n) : getTag xml tag buffer = some (returnFailure, buffer) := by
  have hempty : ¬ emptyText tag <:+: xml := fun hin =>
    h ((openText_infix_emptyText tag).trans hin)
  rw [getTag, if_neg (inone_absent htag hempty), tagopen_eq htag, strstr,
    search_eq_none_iff.mpr h]

theorem getTag_at (htag : tag.length ≤ 28) (hempty : ¬ emptyText tag <:+: xml)
    (has : FirstAt (openText tag) xml as) (buffer : CharArray n) :
    getTag xml tag buffer = (strstr as (ofString ">")).bind fun close =>
      (countText (close.drop 1) 0).bind fun i =>
        if h : i ≤ n then
          ((buffer.strncpy (close.drop 1) i h).put i 0).map (returnSuccess, ·)
        else some (returnFailure, buffer) := by
  rw [getTag, if_neg (inone_absent htag hempty), tagopen_eq htag, strstr,
    search_eq_some_iff.mpr has]

theorem getTag_unclosed (htag : tag.length ≤ 28) (hempty : ¬ emptyText tag <:+: xml)
    (has : FirstAt (openText tag) xml as) (h : 62 ∉ as) (buffer : CharArray n) :
    getTag xml tag buffer = none := by
  rw [getTag_at htag hempty has, strstr_close_none h, Option.bind_none]

theorem getTag_endless (htag : tag.length ≤ 28) (hempty : ¬ emptyText tag <:+: xml)
    (has : FirstAt (openText tag) xml (head ++ 62 :: text)) (hhead : 62 ∉ head)
    (htext : 60 ∉ text) (buffer : CharArray n) : getTag xml tag buffer = none := by
  rw [getTag_at htag hempty has, strstr_close hhead, Option.bind_some, List.drop_one,
    List.tail_cons, countText_endless htext, Option.bind_none]

/-- The text of the first tag against the size of the buffer. -/
theorem getTag_first (htag : tag.length ≤ 28) (h0 : 0 ∉ xml) (hempty : ¬ emptyText tag <:+: xml)
    (h : FirstTag xml tag text) (buffer : CharArray n) :
    (n < text.length ∧ getTag xml tag buffer = some (returnFailure, buffer)) ∨
      (text.length = n ∧ getTag xml tag buffer = none) ∨
      (text.length < n ∧
        ∃ out, getTag xml tag buffer = some (returnSuccess, out) ∧ out.Holds text) := by
  obtain ⟨head, post, has, hhead, htext⟩ := h
  rw [getTag_at htag hempty has, strstr_close hhead, Option.bind_some, List.drop_one,
    List.tail_cons, countText_found htext, Option.bind_some, Nat.zero_add]
  rcases Nat.lt_trichotomy text.length n with hfit | heq | hlong
  · have hclean : 0 ∉ text ++ 60 :: post := fun hmem =>
      h0 (has.mem (List.mem_append_right _ (List.mem_cons_of_mem _ hmem)))
    have hlen : text.length ≤ (text ++ 60 :: post).length := by
      rw [List.length_append]
      omega
    obtain ⟨out, hput, hholds⟩ := buffer.put_strncpy hfit.le hclean hfit le_rfl hlen
    rw [List.take_left] at hholds
    refine Or.inr (Or.inr ⟨hfit, out, ?_, hholds⟩)
    rw [dif_pos hfit.le, hput, Option.map_some]
  · refine Or.inr (Or.inl ⟨heq, ?_⟩)
    rw [dif_pos heq.le, CharArray.put_of_le _ heq.ge, Option.map_none]
  · exact Or.inl ⟨hlong, dif_neg (by omega)⟩

/-! ## The text -/

/-- The text of an opening tag goes to the buffer if one fits; else the call fails, or finds the
empty form and leaves the buffer alone. -/
def ReadsTag (xml tag : Bytes) (buffer : CharArray n) : Prop :=
  ∃ ret out, getTag xml tag buffer = some (ret, out) ∧
    ((ret = returnSuccess ∧ ∃ text, Fitting xml tag n text ∧ out.Holds text) ∨
      ((¬ ∃ text, Fitting xml tag n text) ∧ (ret = returnFailure ∨
        (ret = returnSuccess ∧ out = buffer ∧ emptyText tag <:+: xml))))

/-- The name is absent; or the empty form is there and no text that fits, unless the buffer holds
one; or the first text is that of an opening tag and fits, or it is too long and none fits. -/
inductive Tagged (xml tag : Bytes) (buffer : CharArray n) : Prop where
  | absent (h : ¬ openText tag <:+: xml)
  | empty (h : emptyText tag <:+: xml)
      (hold : (∃ text, Fitting xml tag n text) → ∃ text, Fitting xml tag n text ∧ buffer.Holds text)
  | found (hempty : ¬ emptyText tag <:+: xml) (text : Bytes) (hfirst : FirstTag xml tag text)
      (hfits : Fitting xml tag n text)
  | long (hempty : ¬ emptyText tag <:+: xml) (text : Bytes) (hfirst : FirstTag xml tag text)
      (hlong : n < text.length) (hnone : ¬ ∃ text, Fitting xml tag n text)

theorem Tagged.reads (h : Tagged xml tag buffer) (h0 : 0 ∉ xml) (htag : tag.length ≤ 28) :
    ReadsTag xml tag buffer := by
  cases h with
  | absent h =>
    refine ⟨_, _, getTag_absent htag h buffer, Or.inr ⟨?_, Or.inl rfl⟩⟩
    rintro ⟨text, hopens, -⟩
    exact h hopens.infix
  | empty h hold =>
    refine ⟨_, _, getTag_empty htag h buffer, ?_⟩
    by_cases hfits : ∃ text, Fitting xml tag n text
    · exact Or.inl ⟨rfl, hold hfits⟩
    · exact Or.inr ⟨hfits, Or.inr ⟨rfl, rfl, h⟩⟩
  | found hempty text hfirst hfits =>
    have hlen := hfits.2
    rcases getTag_first htag h0 hempty hfirst buffer with ⟨hlong, -⟩ | ⟨heq, -⟩ | ⟨-, out, hrun,
      hholds⟩
    · omega
    · omega
    · exact ⟨_, _, hrun, Or.inl ⟨rfl, text, hfits, hholds⟩⟩
  | long hempty text hfirst hlong hnone =>
    rcases getTag_first htag h0 hempty hfirst buffer with ⟨-, hrun⟩ | ⟨heq, -⟩ | ⟨hfit, -⟩
    · exact ⟨_, _, hrun, Or.inr ⟨hnone, Or.inl rfl⟩⟩
    · omega
    · omega

theorem ReadsTag.tagged (h : ReadsTag xml tag buffer) (h0 : 0 ∉ xml) (htag : tag.length ≤ 28) :
    Tagged xml tag buffer := by
  obtain ⟨ret, out, hrun, hmeets⟩ := h
  by_cases hempty : emptyText tag <:+: xml
  · rw [getTag_empty htag hempty] at hrun
    cases hrun
    refine .empty hempty fun hfits => ?_
    rcases hmeets with ⟨-, hholds⟩ | ⟨hnone, -⟩
    · exact hholds
    · exact absurd hfits hnone
  · by_cases hopen : openText tag <:+: xml
    · obtain ⟨as, has⟩ := exists_firstAt hopen
      cases behind as with
      | unclosed h =>
        rw [getTag_unclosed htag hempty has h] at hrun
        cases hrun
      | endless head text heq hhead htext =>
        subst heq
        rw [getTag_endless htag hempty has hhead htext] at hrun
        cases hrun
      | text head text post heq hhead htext =>
        subst heq
        have hfirst : FirstTag xml tag text := ⟨head, post, has, hhead, htext⟩
        rcases getTag_first htag h0 hempty hfirst buffer with ⟨hlong, hfail⟩ | ⟨-, hfault⟩ |
          ⟨hfit, out', hsome, hholds⟩
        · rw [hfail] at hrun
          cases hrun
          rcases hmeets with ⟨hret, -⟩ | ⟨hnone, -⟩
          · cases hret
          · exact .long hempty text hfirst hlong hnone
        · rw [hfault] at hrun
          cases hrun
        · rw [hsome] at hrun
          cases hrun
          rcases hmeets with ⟨-, text', hfits, hread⟩ | ⟨-, hret | ⟨-, -, hin⟩⟩
          · cases hholds.2.symm.trans hread.2
            exact .found hempty _ hfirst hfits
          · cases hret
          · exact absurd hin hempty
    · exact .absent hopen

/-- **Tags.** The text of a tag is read as it stands, or refused, exactly when the name is absent,
or the empty form is there and no text to be read, or the first text is one to be read, or it is
too long and there is none. -/
theorem readsTag_iff (xml tag : Bytes) (buffer : CharArray n) (h0 : 0 ∉ xml)
    (htag : tag.length ≤ 28) : ReadsTag xml tag buffer ↔ Tagged xml tag buffer :=
  ⟨fun h => h.tagged h0 htag, fun h => h.reads h0 htag⟩

/-- A tag with a text. -/
theorem readsTag_iff_message :
    ReadsTag (ofString "<message>hi</message>") (ofString "message") (.zero 8) := by
  have hclean : 0 ∉ ofString "<message>hi</message>" := by decide +kernel
  have hsize : (ofString "message").length ≤ 28 := by decide +kernel
  have hempty : ¬ emptyText (ofString "message") <:+: ofString "<message>hi</message>" :=
    search_eq_none_iff.mp (by decide +kernel)
  have has : FirstAt (openText (ofString "message")) (ofString "<message>hi</message>")
      (openText (ofString "message") ++ 62 :: (ofString "hi" ++ 60 :: ofString "/message>")) :=
    firstAt_of_search (by decide +kernel)
  have hname : 62 ∉ openText (ofString "message") := by decide +kernel
  have htext : 60 ∉ ofString "hi" := by decide +kernel
  have hopens : OpensWith (ofString "<message>hi</message>") (ofString "message")
      (ofString "hi") := by
    refine ⟨[], [], ofString "/message>", by decide +kernel, ?_, ?_, ?_, ?_, htext⟩
    · intro b hb
      cases hb
    · exact List.not_mem_nil
    · exact List.not_mem_nil
    · exact fun h => by cases h
  have hfits : Fitting (ofString "<message>hi</message>") (ofString "message") 8
      (ofString "hi") := ⟨hopens, by decide +kernel⟩
  exact (readsTag_iff _ _ (.zero 8) hclean hsize).mpr
    (.found hempty _ ⟨_, _, has, hname, htext⟩ hfits)

/-- The search for the end of a text that nothing ends leaves the text. -/
theorem not_readsTag : ¬ ∀ (n : Nat) (xml tag : Bytes) (buffer : CharArray n), 0 ∉ xml →
    tag.length ≤ 28 → ReadsTag xml tag buffer := by
  intro hall
  have hclean : 0 ∉ ofString "<message>hi" := by decide +kernel
  have hsize : (ofString "message").length ≤ 28 := by decide +kernel
  obtain ⟨ret, out, hrun, -⟩ := hall 8 _ (ofString "message") (.zero 8) hclean hsize
  have hempty : ¬ emptyText (ofString "message") <:+: ofString "<message>hi" :=
    search_eq_none_iff.mp (by decide +kernel)
  have has : FirstAt (openText (ofString "message")) (ofString "<message>hi")
      (openText (ofString "message") ++ 62 :: ofString "hi") :=
    firstAt_of_search (by decide +kernel)
  have hname : 62 ∉ openText (ofString "message") := by decide +kernel
  have htext : 60 ∉ ofString "hi" := by decide +kernel
  rw [getTag_endless hsize hempty has hname htext] at hrun
  cases hrun

end ArpgServer
