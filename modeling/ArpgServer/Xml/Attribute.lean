import ArpgServer.Model.Xml

/-!
# The value of an attribute

The loop of `get_attribute` takes any quote for the end of the value, and the end of the text as
well; and it counts the quote at the end of the value, which the terminator then replaces. A value
that nothing closes loses its last character so, and without a quote or behind the last one the
terminator goes in front of the buffer.
-/

namespace ArpgServer

open CText Search

variable {n : Nat} {xml attr as gap s v post : Bytes} {q q' : UInt8} {buffer : CharArray n}

def QuoteFree (s : Bytes) : Prop := ∀ b ∈ s, ¬ isQuote b = true

/-- The first quote from the first occurrence of the name on opens a value, and the next quote of
its kind closes it. -/
def ValueOf (xml attr v : Bytes) : Prop :=
  ∃ as gap q post, FirstAt attr xml as ∧ as = gap ++ q :: (v ++ q :: post) ∧ QuoteFree gap ∧
    isQuote q = true ∧ q ∉ v

/-! ## The loop -/

theorem countQuoted_gap (h : QuoteFree gap) (s : Bytes) (numchars : Nat) :
    countQuoted (gap ++ s) none numchars = countQuoted s none numchars := by
  induction gap with
  | nil => rfl
  | cons b gap ih =>
    have hb : ¬ isQuote b = true := h b List.mem_cons_self
    rw [List.cons_append, countQuoted, if_neg hb]
    exact ih fun x hx => h x (List.mem_cons_of_mem _ hx)

theorem countQuoted_value (h : QuoteFree v) (start s : Bytes) (numchars : Nat) :
    countQuoted (v ++ s) (some start) numchars =
      countQuoted s (some start) (numchars + v.length) := by
  induction v generalizing numchars with
  | nil => rfl
  | cons b v ih =>
    have hb : ¬ isQuote b = true := h b List.mem_cons_self
    rw [List.cons_append, countQuoted, if_neg hb,
      ih (fun x hx => h x (List.mem_cons_of_mem _ hx)), List.length_cons]
    congr 1
    omega

theorem countQuoted_none (h : QuoteFree as) : countQuoted as none 0 = (none, 0) := by
  have hrun := countQuoted_gap h [] 0
  rwa [List.append_nil] at hrun

theorem countQuoted_open (hgap : QuoteFree gap) (hq : isQuote q = true) (s : Bytes) :
    countQuoted (gap ++ q :: s) none 0 = countQuoted s (some s) 0 := by
  rw [countQuoted_gap hgap, countQuoted, if_pos hq]

theorem countQuoted_closed (hgap : QuoteFree gap) (hq : isQuote q = true) (hv : QuoteFree v)
    (hq' : isQuote q' = true) (post : Bytes) :
    countQuoted (gap ++ q :: (v ++ q' :: post)) none 0 =
      (some (v ++ q' :: post), v.length + 1) := by
  rw [countQuoted_open hgap hq, countQuoted_value hv, countQuoted, if_pos hq', Nat.zero_add]

theorem countQuoted_unclosed (hgap : QuoteFree gap) (hq : isQuote q = true) (hs : QuoteFree s) :
    countQuoted (gap ++ q :: s) none 0 = (some s, s.length) := by
  have hrun := countQuoted_value hs s [] 0
  rw [List.append_nil, Nat.zero_add] at hrun
  rw [countQuoted_open hgap hq, hrun]
  rfl

/-! ## What is stored -/

theorem storeQuoted_long {numchars : Nat} (h : n < numchars + 1) :
    storeQuoted buffer (some s, numchars + 1) = some (returnFailure, buffer) :=
  dif_neg (by omega)

theorem storeQuoted_fits {numchars : Nat} (h : numchars + 1 ≤ n) (h0 : 0 ∉ s)
    (hlen : numchars ≤ s.length) (buffer : CharArray n) :
    ∃ out, storeQuoted buffer (some s, numchars + 1) = some (returnSuccess, out) ∧
      out.Holds (s.take numchars) := by
  obtain ⟨out, hput, hholds⟩ :=
    buffer.put_strncpy (k := numchars + 1) (i := numchars) h h0 (by omega) (by omega) hlen
  refine ⟨out, ?_, hholds⟩
  rw [storeQuoted, dif_pos h, hput]
  rfl

/-- The four ways in which a text goes on behind the name. -/
inductive Quoted (as : Bytes) : Prop where
  | unquoted (h : QuoteFree as)
  | unclosed (gap : Bytes) (q : UInt8) (s : Bytes) (h : as = gap ++ q :: s)
      (hgap : QuoteFree gap) (hq : isQuote q = true) (hs : QuoteFree s)
  | closed (gap : Bytes) (q : UInt8) (v : Bytes) (q' : UInt8) (post : Bytes)
      (h : as = gap ++ q :: (v ++ q' :: post)) (hgap : QuoteFree gap) (hq : isQuote q = true)
      (hv : QuoteFree v) (hq' : isQuote q' = true)

theorem quoted (as : Bytes) : Quoted as := by
  rcases exists_first (isQuote · = true) as with hnone | ⟨gap, q, s, rfl, hgap, hq⟩
  · exact .unquoted hnone
  · rcases exists_first (isQuote · = true) s with hs | ⟨v, q', post, rfl, hv, hq'⟩
    · exact .unclosed gap q s rfl hgap hq hs
    · exact .closed gap q v q' post rfl hgap hq hv hq'

/-! ## The value -/

theorem valueOf_of_closed (has : FirstAt attr xml (gap ++ q :: (v ++ q :: post)))
    (hgap : QuoteFree gap) (hq : isQuote q = true) (hv : QuoteFree v) : ValueOf xml attr v :=
  ⟨_, gap, q, post, has, rfl, hgap, hq, fun hmem => hv q hmem hq⟩

/-- The value of an attribute whose first quote is `q`. -/
theorem ValueOf.open (h : ValueOf xml attr v) (has : FirstAt attr xml (gap ++ q :: s))
    (hgap : QuoteFree gap) (hq : isQuote q = true) : ∃ post, s = v ++ q :: post ∧ q ∉ v := by
  obtain ⟨as', gap', q', post, has', rfl, hgap', hq', hv⟩ := h
  obtain ⟨-, rfl, rfl⟩ := first_unique (has.unique has') hgap hq hgap' hq'
  exact ⟨post, rfl, hv⟩

theorem not_valueOf_unclosed (has : FirstAt attr xml (gap ++ q :: s)) (hgap : QuoteFree gap)
    (hq : isQuote q = true) (hs : QuoteFree s) : ¬ ValueOf xml attr v := by
  intro h
  obtain ⟨post, rfl, -⟩ := h.open has hgap hq
  exact hs q (List.mem_append_right _ List.mem_cons_self) hq

/-- A value that another quote is part of is longer than what is before that quote. -/
theorem ValueOf.length_gt (h : ValueOf xml attr v)
    (has : FirstAt attr xml (gap ++ q :: (s ++ q' :: post))) (hgap : QuoteFree gap)
    (hq : isQuote q = true) (hs : QuoteFree s) (hne : q ≠ q') : s.length < v.length := by
  obtain ⟨post', heq, hv⟩ := h.open has hgap hq
  have hle := length_le_of_first heq hs hq
  rcases Nat.lt_or_eq_of_le hle with hlt | hlen
  · exact hlt
  · have hquote := (List.append_inj heq hlen).2
    exact absurd (List.cons.inj hquote).1.symm hne

theorem ValueOf.eq_of_closed (h : ValueOf xml attr v)
    (has : FirstAt attr xml (gap ++ q :: (s ++ q :: post))) (hgap : QuoteFree gap)
    (hq : isQuote q = true) (hs : QuoteFree s) : v = s := by
  obtain ⟨post', heq, hv⟩ := h.open has hgap hq
  have hfree : ∀ x ∈ v, ¬ x = q := fun x hx hxq => hv (hxq ▸ hx)
  have hfree' : ∀ x ∈ s, ¬ x = q := fun x hx hxq => hs x hx (hxq ▸ hq)
  exact (first_unique heq hfree' rfl hfree rfl).1.symm

/-- The value goes to the buffer if it fits; else nothing does. -/
def ReadsValue (xml attr : Bytes) (buffer : CharArray n) : Prop :=
  ∃ ret out, getAttribute xml attr buffer = some (ret, out) ∧
    ((ret = returnSuccess ∧ ∃ v, ValueOf xml attr v ∧ v.length < n ∧ out.Holds v) ∨
      (ret = returnFailure ∧ out = buffer ∧ ¬ ∃ v, ValueOf xml attr v ∧ v.length < n))

/-- The name is absent, the value is closed by the quote that comes next, or what the loop counts
is longer than the buffer. -/
inductive Attributed (xml attr : Bytes) (n : Nat) : Prop where
  | absent (h : ¬ attr <:+: xml)
  | closed (gap : Bytes) (q : UInt8) (v post : Bytes)
      (has : FirstAt attr xml (gap ++ q :: (v ++ q :: post))) (hgap : QuoteFree gap)
      (hq : isQuote q = true) (hv : QuoteFree v)
  | mixed (gap : Bytes) (q : UInt8) (v : Bytes) (q' : UInt8) (post : Bytes)
      (has : FirstAt attr xml (gap ++ q :: (v ++ q' :: post))) (hgap : QuoteFree gap)
      (hq : isQuote q = true) (hv : QuoteFree v) (hq' : isQuote q' = true) (hlong : n ≤ v.length)
  | unclosed (gap : Bytes) (q : UInt8) (s : Bytes) (has : FirstAt attr xml (gap ++ q :: s))
      (hgap : QuoteFree gap) (hq : isQuote q = true) (hs : QuoteFree s) (hlong : n < s.length)

theorem getAttribute_absent (h : ¬ attr <:+: xml) :
    getAttribute xml attr buffer = some (returnFailure, buffer) := by
  rw [getAttribute, strstr, search_eq_none_iff.mpr h]

theorem getAttribute_at (has : FirstAt attr xml as) (buffer : CharArray n) :
    getAttribute xml attr buffer = storeQuoted buffer (countQuoted as none 0) := by
  rw [getAttribute, strstr, search_eq_some_iff.mpr has]

/-- A quoted text, with the part before the next quote. -/
theorem getAttribute_closed (has : FirstAt attr xml (gap ++ q :: (v ++ q' :: post)))
    (hgap : QuoteFree gap) (hq : isQuote q = true) (hv : QuoteFree v) (hq' : isQuote q' = true)
    (h0 : 0 ∉ xml) (buffer : CharArray n) :
    (n ≤ v.length ∧ getAttribute xml attr buffer = some (returnFailure, buffer)) ∨
      (v.length < n ∧
        ∃ out, getAttribute xml attr buffer = some (returnSuccess, out) ∧ out.Holds v) := by
  rw [getAttribute_at has, countQuoted_closed hgap hq hv hq']
  rcases Nat.lt_or_ge v.length n with hfit | hlong
  · right
    have hclean : 0 ∉ v ++ q' :: post := fun hmem =>
      h0 (has.mem (List.mem_append_right _ (List.mem_cons_of_mem _ hmem)))
    have hlen : v.length ≤ (v ++ q' :: post).length := by
      rw [List.length_append]
      omega
    obtain ⟨out, hstore, hholds⟩ := storeQuoted_fits hfit hclean hlen buffer
    rw [List.take_left] at hholds
    exact ⟨hfit, out, hstore, hholds⟩
  · exact Or.inl ⟨hlong, storeQuoted_long (by omega)⟩

/-- A quoted text that nothing closes. -/
theorem getAttribute_unclosed (has : FirstAt attr xml (gap ++ q :: s)) (hgap : QuoteFree gap)
    (hq : isQuote q = true) (hs : QuoteFree s) (h0 : 0 ∉ xml) (buffer : CharArray n) :
    (n < s.length ∧ getAttribute xml attr buffer = some (returnFailure, buffer)) ∨
      (s.length ≤ n ∧ ∀ ret out, getAttribute xml attr buffer = some (ret, out) →
        ret = returnSuccess) := by
  rw [getAttribute_at has, countQuoted_unclosed hgap hq hs]
  cases hlen : s.length with
  | zero =>
    refine Or.inr ⟨Nat.zero_le _, fun ret out hrun => ?_⟩
    cases hrun
  | succ numchars =>
    rcases Nat.lt_or_ge n (numchars + 1) with hlong | hfit
    · exact Or.inl ⟨hlong, storeQuoted_long hlong⟩
    · have hclean : 0 ∉ s := fun hmem =>
        h0 (has.mem (List.mem_append_right _ (List.mem_cons_of_mem _ hmem)))
      obtain ⟨out, hstore, -⟩ := storeQuoted_fits hfit hclean (by omega) buffer
      refine Or.inr ⟨hfit, fun ret out' hrun => ?_⟩
      rw [hstore] at hrun
      cases hrun
      rfl

theorem getAttribute_unquoted (has : FirstAt attr xml as) (h : QuoteFree as)
    (buffer : CharArray n) : getAttribute xml attr buffer = none := by
  rw [getAttribute_at has, countQuoted_none h]
  rfl

theorem Attributed.reads (h : Attributed xml attr n) (h0 : 0 ∉ xml) (buffer : CharArray n) :
    ReadsValue xml attr buffer := by
  cases h with
  | absent h =>
    refine ⟨_, _, getAttribute_absent h, Or.inr ⟨rfl, rfl, ?_⟩⟩
    rintro ⟨v, ⟨as, gap, q, post, has, -⟩, -⟩
    exact h has.infix
  | closed gap q v post has hgap hq hv =>
    rcases getAttribute_closed has hgap hq hv hq h0 buffer with ⟨hlong, hrun⟩ | ⟨hfit, out, hrun,
      hholds⟩
    · refine ⟨_, _, hrun, Or.inr ⟨rfl, rfl, ?_⟩⟩
      rintro ⟨v', hv', hfit⟩
      rw [hv'.eq_of_closed has hgap hq hv] at hfit
      omega
    · exact ⟨_, _, hrun, Or.inl ⟨rfl, v, valueOf_of_closed has hgap hq hv, hfit, hholds⟩⟩
  | mixed gap q v q' post has hgap hq hv hq' hlong =>
    rcases getAttribute_closed has hgap hq hv hq' h0 buffer with ⟨-, hrun⟩ | ⟨hfit, -⟩
    · refine ⟨_, _, hrun, Or.inr ⟨rfl, rfl, ?_⟩⟩
      rintro ⟨v', hv', hfit⟩
      by_cases hkind : q = q'
      · subst hkind
        rw [hv'.eq_of_closed has hgap hq hv] at hfit
        omega
      · have hgt := hv'.length_gt has hgap hq hv hkind
        omega
    · omega
  | unclosed gap q s has hgap hq hs hlong =>
    rcases getAttribute_unclosed has hgap hq hs h0 buffer with ⟨-, hrun⟩ | ⟨hfit, -⟩
    · refine ⟨_, _, hrun, Or.inr ⟨rfl, rfl, ?_⟩⟩
      rintro ⟨v, hv, -⟩
      exact not_valueOf_unclosed has hgap hq hs hv
    · omega

theorem ReadsValue.attributed (h : ReadsValue xml attr buffer) (h0 : 0 ∉ xml) :
    Attributed xml attr n := by
  obtain ⟨ret, out, hrun, hmeets⟩ := h
  by_cases hin : attr <:+: xml
  · obtain ⟨as, has⟩ := exists_firstAt hin
    cases quoted as with
    | unquoted hfree =>
      rw [getAttribute_unquoted has hfree] at hrun
      cases hrun
    | unclosed gap q s heq hgap hq hs =>
      subst heq
      rcases getAttribute_unclosed has hgap hq hs h0 buffer with ⟨hlong, -⟩ | ⟨-, hsuccess⟩
      · exact .unclosed gap q s has hgap hq hs hlong
      · rcases hmeets with ⟨-, v, hv, -⟩ | ⟨hret, -⟩
        · exact absurd hv (not_valueOf_unclosed has hgap hq hs)
        · cases (hsuccess ret out hrun).symm.trans hret
    | closed gap q v q' post heq hgap hq hv hq' =>
      subst heq
      rcases getAttribute_closed has hgap hq hv hq' h0 buffer with ⟨hlong, -⟩ | ⟨-, out', hsome,
        hholds⟩
      · exact .mixed gap q v q' post has hgap hq hv hq' hlong
      · rw [hsome] at hrun
        cases hrun
        by_cases hkind : q = q'
        · subst hkind
          exact .closed gap q v post has hgap hq hv
        · rcases hmeets with ⟨-, v', hv', -, hread⟩ | ⟨hret, -⟩
          · have hgt := hv'.length_gt has hgap hq hv hkind
            rw [← hholds.2, hread.2] at hgt
            exact absurd hgt (Nat.lt_irrefl _)
          · cases hret
  · exact .absent hin

/-- **Attributes.** The value of an attribute is read as it stands, or refused, exactly when the
name is absent, the next quote closes the value, or the loop counts more than the buffer holds. -/
theorem readsValue_iff (xml attr : Bytes) (buffer : CharArray n) (h0 : 0 ∉ xml) :
    ReadsValue xml attr buffer ↔ Attributed xml attr n :=
  ⟨fun h => h.attributed h0, fun h => h.reads h0 buffer⟩

/-- An event with a quoted value. -/
theorem readsValue_iff_quoted :
    ReadsValue (ofString "<event type='1'/>") (ofString "type") (.zero 8) := by
  have hclean : 0 ∉ ofString "<event type='1'/>" := by decide +kernel
  have has : FirstAt (ofString "type") (ofString "<event type='1'/>")
      (ofString "type=" ++ 39 :: (ofString "1" ++ 39 :: ofString "/>")) :=
    firstAt_of_search (by decide +kernel)
  have hgap : QuoteFree (ofString "type=") := by unfold QuoteFree; decide +kernel
  have hvalue : QuoteFree (ofString "1") := by unfold QuoteFree; decide +kernel
  exact (readsValue_iff _ _ (.zero 8) hclean).mpr (.closed _ _ _ _ has hgap rfl hvalue)

/-- A value that nothing closes is stored without its last character. -/
theorem not_readsValue : ¬ ∀ (n : Nat) (xml attr : Bytes) (buffer : CharArray n), 0 < n →
    0 ∉ xml → ReadsValue xml attr buffer := by
  intro hall
  have hclean : 0 ∉ ofString "<event type='12" := by decide +kernel
  obtain ⟨ret, out, hrun, hmeets⟩ := hall 8 _ (ofString "type") (.zero 8) (by decide) hclean
  have has : FirstAt (ofString "type") (ofString "<event type='12")
      (ofString "type=" ++ 39 :: ofString "12") := firstAt_of_search (by decide +kernel)
  have hgap : QuoteFree (ofString "type=") := by unfold QuoteFree; decide +kernel
  have hrest : QuoteFree (ofString "12") := by unfold QuoteFree; decide +kernel
  rcases hmeets with ⟨-, v, hv, -⟩ | ⟨hret, -⟩
  · exact not_valueOf_unclosed has hgap rfl hrest hv
  · rcases getAttribute_unclosed has hgap rfl hrest hclean (.zero 8) with ⟨hlong, -⟩ | ⟨-, hsuccess⟩
    · exact absurd hlong (by decide +kernel)
    · cases (hsuccess ret out hrun).symm.trans hret

end ArpgServer
