import ArpgServer.Model.Ezxml

/-!
# One piece of markup

What a piece of markup does to the state of the parser, and what it leaves of the text. Every
piece takes its `<` from the text, so the main loop comes to an end, and its equations need no
bound on the number of turns.
-/

namespace ArpgServer.Ezxml

open CText Scan Search

/-! ## What is left of a text -/

/-- What is left of a text is no longer than it and holds no terminator of its own. -/
structure Left (s s' : Bytes) : Prop where
  le : s'.length ≤ s.length
  zero : 0 ∉ s → 0 ∉ s'

namespace Left

variable {s s' s'' : Bytes}

theorem refl (s : Bytes) : Left s s := ⟨Nat.le_refl _, id⟩

theorem trans (h : Left s s') (h' : Left s' s'') : Left s s'' :=
  ⟨Nat.le_trans h'.le h.le, fun hzero => h'.zero (h.zero hzero)⟩

theorem of_sublist (h : s'.Sublist s) : Left s s' := ⟨h.length_le, fun hzero hmem =>
  hzero (h.subset hmem)⟩

theorem drop (n : Nat) (s : Bytes) : Left s (s.drop n) := of_sublist (List.drop_sublist n s)

theorem dropWhile (p : UInt8 → Bool) (s : Bytes) : Left s (s.dropWhile p) :=
  of_sublist (List.dropWhile_sublist p)

theorem tail {b : UInt8} : Left (b :: s) s := of_sublist (List.sublist_cons_self b s)

theorem normalize (s : Bytes) : Left s (normalize s) := by
  fun_induction Ezxml.normalize s with
  | case1 => exact refl []
  | case2 s ih =>
    refine ⟨Nat.le_trans (Nat.succ_le_succ ih.le) (by simp), fun hzero hmem => ?_⟩
    have hs : 0 ∉ s := fun h => hzero (List.mem_cons_of_mem _ (List.mem_cons_of_mem _ h))
    exact ih.zero hs ((List.mem_cons.mp hmem).resolve_left (by decide))
  | case3 s _ ih =>
    refine ⟨Nat.succ_le_succ ih.le, fun hzero hmem => ?_⟩
    have hs : 0 ∉ s := fun h => hzero (List.mem_cons_of_mem _ h)
    exact ih.zero hs ((List.mem_cons.mp hmem).resolve_left (by decide))
  | case4 b s _ _ ih =>
    refine ⟨Nat.succ_le_succ ih.le, fun hzero hmem => ?_⟩
    have hs : 0 ∉ s := fun h => hzero (List.mem_cons_of_mem _ h)
    exact ih.zero hs ((List.mem_cons.mp hmem).resolve_left fun h => hzero (h ▸ List.mem_cons_self))

end Left

theorem left_of_behind {s rest rest' : Bytes} (h : behind s rest = some rest') :
    Left rest rest' := by
  unfold behind at h
  split at h
  · split at h
    · cases h
    · cases h
      exact .normalize rest
  · cases h
    exact .refl rest

variable {t : Mode} {p p' : Parse} {s s' v content rest rest' : Bytes}

theorem left_of_decode (h : decode t s rest = some (v, rest')) : Left rest rest' := by
  obtain ⟨r, hr, h⟩ := Option.bind_eq_some_iff.mp h
  obtain ⟨v', -, h⟩ := Option.map_eq_some_iff.mp h
  cases h
  exact left_of_behind hr

theorem left_of_charContent (h : charContent p t content rest = some (p', rest')) :
    Left rest rest' := by
  unfold charContent at h
  split at h
  · cases h
    exact .refl rest
  · split at h
    · cases h
      exact .refl rest
    · obtain ⟨⟨v, r⟩, hr, h⟩ := Option.map_eq_some_iff.mp h
      cases h
      exact left_of_decode hr

theorem takeWhile_zero {q : UInt8 → Bool} (h : 0 ∉ s) : 0 ∉ s.takeWhile q :=
  fun hmem => h ((List.takeWhile_sublist q).subset hmem)

theorem dropWhile_cases (q : UInt8 → Bool) (s : Bytes) :
    s.dropWhile q = [] ∨ ∃ b rest, s.dropWhile q = b :: rest ∧ q b = false := by
  cases hdrop : s.dropWhile q with
  | nil => exact Or.inl rfl
  | cons b rest =>
    have hne : s.dropWhile q ≠ [] := by rw [hdrop]; exact List.cons_ne_nil b rest
    have hb := List.head_dropWhile_not q hne
    simp only [hdrop, List.head_cons] at hb
    exact Or.inr ⟨b, rest, rfl, hb⟩

theorem takeWhile_stop {q : UInt8 → Bool} {s rest : Bytes} {b : UInt8}
    (hs : ∀ c ∈ s, q c = true) (hb : q b = false) : (s ++ b :: rest).takeWhile q = s := by
  rw [List.takeWhile_append_of_pos hs, List.takeWhile_cons_of_neg (by simpa using hb),
    List.append_nil]

theorem dropWhile_stop {q : UInt8 → Bool} {s rest : Bytes} {b : UInt8}
    (hs : ∀ c ∈ s, q c = true) (hb : q b = false) :
    (s ++ b :: rest).dropWhile q = b :: rest := by
  rw [List.dropWhile_append_of_pos hs, List.dropWhile_cons_of_neg (by simpa using hb)]

/-! ## Attributes -/

/-- No blank stands here. -/
def Begins (s : Bytes) : Prop := ∀ b, s.head? = some b → isSpace b = false

theorem begins_nil : Begins [] := fun _ h => by cases h

theorem begins_cons {b : UInt8} (h : isSpace b = false) (s : Bytes) : Begins (b :: s) := by
  intro c hc
  cases hc
  exact h

theorem begins_dropWhile (s : Bytes) : Begins (s.dropWhile isSpace) := by
  intro b hb
  rcases dropWhile_cases isSpace s with h | ⟨c, rest, h, hc⟩ <;> rw [h] at hb
  · cases hb
  · cases hb
    exact hc

/-- The name of an attribute, as it is cut from a text. -/
structure AttrName (s name : Bytes) : Prop where
  chars : ∀ b ∈ name, endsAttrName b = false
  begins : Begins name
  zero : 0 ∉ s → 0 ∉ name

/-- The value of an attribute is decoded from a part of the text. -/
def AttrValue (s : Bytes) (v : Option Bytes) : Prop :=
  ∀ v', v = some v' → ∃ w rest rest', decode .attribute w rest = some (v', rest') ∧
    (0 ∉ s → 0 ∉ w)

structure AttrFrom (s : Bytes) (a : Attribute) : Prop where
  name : AttrName s a.1
  value : AttrValue s a.2

theorem AttrFrom.mono {a : Attribute} (h : AttrFrom s' a) (hleft : Left s s') : AttrFrom s a where
  name := ⟨h.name.chars, h.name.begins, fun hzero => h.name.zero (hleft.zero hzero)⟩
  value := by
    intro v hv
    obtain ⟨w, rest, rest', hdecode, hw⟩ := h.value v hv
    exact ⟨w, rest, rest', hdecode, fun hzero => hw (hleft.zero hzero)⟩

theorem attrValue_spec {q : UInt8} {v : Option Bytes} (h : attrValue q s = some (.ok (v, s'))) :
    AttrValue s v ∧ Left s s' := by
  unfold attrValue at h
  split at h
  · cases h
  · rename_i b rest hdrop
    obtain ⟨⟨w, r⟩, hr, h⟩ := Option.map_eq_some_iff.mp h
    cases h
    have hrest : Left s rest := by
      have hleft := Left.dropWhile (· ≠ q) s
      rw [hdrop] at hleft
      exact hleft.trans .tail
    refine ⟨fun v' hv => ?_, hrest.trans (left_of_decode hr)⟩
    cases hv
    exact ⟨_, _, _, hr, takeWhile_zero⟩

theorem attrName_takeWhile (h : Begins s) : AttrName s (s.takeWhile (!endsAttrName ·)) where
  chars := by
    intro b hb
    simpa using List.mem_takeWhile_imp hb
  begins := by
    intro b hb
    refine h b ?_
    cases s with
    | nil => cases hb
    | cons c s =>
      rw [List.takeWhile_cons] at hb
      split at hb
      · exact hb
      · cases hb
  zero := takeWhile_zero

theorem isSpace_of_endsAttrName {b : UInt8} (h : endsAttrName b = true) (hslash : b ≠ 47)
    (hclose : b ≠ 62) : (b = 61 || isSpace b) = true := by
  simp only [endsAttrName, isWs, isSpace, Bool.or_eq_true, Bool.and_eq_true, decide_eq_true_eq]
    at h ⊢
  rcases h with (((((rfl | rfl) | rfl) | rfl) | rfl) | rfl) | rfl
  · decide
  · decide
  · decide
  · decide
  · decide
  · exact absurd rfl hslash
  · exact absurd rfl hclose

/-- An attribute takes at least one character. -/
theorem oneAttribute_spec {a : Attribute} {c : UInt8} {s : Bytes} (hs : Begins (c :: s))
    (hslash : c ≠ 47) (hclose : c ≠ 62) (h : oneAttribute (c :: s) = some (.ok (a, s'))) :
    AttrFrom (c :: s) a ∧ Begins s' ∧ Left s s' := by
  have hname := attrName_takeWhile hs
  have hnone : AttrValue (c :: s) none := fun v hv => by cases hv
  have hdrop := (List.dropWhile_suffix fun b => !endsAttrName b : _ <:+ c :: s)
  unfold oneAttribute at h
  split at h
  · cases h
    exact ⟨⟨hname, hnone⟩, begins_nil, .of_sublist (List.nil_sublist s)⟩
  · rename_i b rest hrest
    rw [hrest] at hdrop
    have hleft : Left s rest := .of_sublist hdrop.sublist.tail
    split at h
    · split at h
      · cases h
        exact ⟨⟨hname, hnone⟩, begins_nil, .of_sublist (List.nil_sublist s)⟩
      · rename_i q s'' hvalue
        have hvalueLeft := Left.dropWhile (fun b => isWs b || b = 61) rest
        rw [hvalue] at hvalueLeft
        split at h
        · obtain ⟨r, hr, h⟩ := Option.map_eq_some_iff.mp h
          cases r with
          | error err => cases h
          | ok r =>
            cases h
            obtain ⟨hv, hv'⟩ := attrValue_spec hr
            have htail : Left s s'' := hleft.trans (hvalueLeft.trans .tail)
            refine ⟨⟨hname, fun v' hv'' => ?_⟩, begins_dropWhile _, ?_⟩
            · obtain ⟨w, w', w'', hdecode, hw⟩ := hv v' hv''
              exact ⟨w, w', w'', hdecode, fun hzero => hw ((Left.tail.trans htail).zero hzero)⟩
            · exact (htail.trans hv').trans (.dropWhile _ _)
        · cases h
          exact ⟨⟨hname, hnone⟩, begins_dropWhile _,
            (hleft.trans hvalueLeft).trans (.dropWhile _ _)⟩
    · rename_i hb
      cases h
      have hends : endsAttrName b = true := by
        rcases dropWhile_cases (fun b => !endsAttrName b) (c :: s) with hnil | ⟨b', r, hb', hend⟩
        · rw [hrest] at hnil
          cases hnil
        · rw [hrest] at hb'
          cases hb'
          simpa using hend
      have hbclose : b = 47 ∨ b = 62 := by
        by_contra hnot
        rw [not_or] at hnot
        exact hb (isSpace_of_endsAttrName hends hnot.1 hnot.2)
      refine ⟨⟨hname, hnone⟩, begins_cons ?_ rest, ?_⟩
      · rcases hbclose with rfl | rfl <;> rfl
      · by_cases hc : endsAttrName c = true
        · rw [List.dropWhile_cons, hc] at hrest
          cases hrest
          exact absurd hbclose (not_or.mpr ⟨hslash, hclose⟩)
        · rw [List.dropWhile_cons_of_pos (by simpa using hc)] at hrest
          rw [← hrest]
          exact .dropWhile _ s

theorem attributes_spec {n : Nat} {attr : List Attribute} (hs : Begins s)
    (h : attributes n s = some (.ok (attr, s'))) :
    (∀ a ∈ attr, AttrFrom s a) ∧ Left s s' := by
  induction n generalizing s attr with
  | zero =>
    cases s with
    | nil =>
      cases h
      exact ⟨fun a ha => absurd ha List.not_mem_nil, .refl []⟩
    | cons b s => cases h
  | succ n ih =>
    cases s with
    | nil =>
      cases h
      exact ⟨fun a ha => absurd ha List.not_mem_nil, .refl []⟩
    | cons b s =>
      rw [attributes] at h
      split at h
      · cases h
        exact ⟨fun a ha => absurd ha List.not_mem_nil, .refl _⟩
      · rename_i hb
        simp only [Bool.or_eq_true, decide_eq_true_eq, not_or] at hb
        obtain ⟨r, hr, h⟩ := Option.bind_eq_some_iff.mp h
        cases r with
        | error err => cases h
        | ok r =>
          obtain ⟨a, rest⟩ := r
          obtain ⟨ha, hbegins, hleft⟩ := oneAttribute_spec hs hb.1 hb.2 hr
          have hleft : Left (b :: s) rest := Left.tail.trans hleft
          obtain ⟨r, hr, h⟩ := Option.map_eq_some_iff.mp h
          cases r with
          | error err => cases h
          | ok r =>
            cases h
            obtain ⟨hattr, hrest⟩ := ih hbegins hr
            refine ⟨fun x hx => ?_, hleft.trans hrest⟩
            rcases List.mem_cons.mp hx with rfl | hx
            · exact ha
            · exact (hattr x hx).mono hleft

/-! ## Markup -/

/-- The name of a tag, as it is cut from a text. -/
structure TagName (s name : Bytes) : Prop where
  start : (name.head?.map isNameStart).getD false = true
  chars : ∀ b ∈ name, endsTagName b = false
  zero : 0 ∉ s → 0 ∉ name

/-- What a piece of markup that stands in `s` can do to the parser. -/
inductive Effect (s : Bytes) (p : Parse) : Parse → Prop
  | same : Effect s p p
  | opened {name : Bytes} {attr : List Attribute} (hopen : p.closed = false)
      (hname : TagName s name) (hattr : ∀ a ∈ attr, AttrFrom s a) :
      Effect s p (openTag p name attr)
  | emptied {name : Bytes} {attr : List Attribute} {p' : Parse} (hopen : p.closed = false)
      (hname : TagName s name) (hattr : ∀ a ∈ attr, AttrFrom s a)
      (h : closeTag (openTag p name attr) name = some p') : Effect s p p'
  | closed {name : Bytes} {p' : Parse} (h : closeTag p name = some p') : Effect s p p'
  | cdata {content rest rest' : Bytes} {p' : Parse} (hcontent : 0 ∉ s → 0 ∉ content)
      (h : charContent p .cdata content rest = some (p', rest')) : Effect s p p'
  | instruction {b : UInt8} {t content rest : Bytes} (hb : b ≠ 62)
      (h : instructionEnd (b :: t) = some (content, rest)) (hcontent : 0 ∉ s → 0 ∉ content) :
      Effect s p (procInst p content)

variable {e : UInt8}

theorem tagEnd_spec {name : Bytes} {attr : List Attribute}
    (h : tagEnd e p name attr s = .next p' s') :
    Left s s' ∧ (p' = openTag p name attr ∨ closeTag (openTag p name attr) name = some p') := by
  unfold tagEnd at h
  split at h
  · split at h
    · cases h
      exact ⟨.refl [], Or.inl rfl⟩
    · cases h
  · split at h
    · split at h
      · split at h
        · cases h
        · rename_i hclose
          cases h
          exact ⟨.tail, Or.inr hclose⟩
      · cases h
    · cases h
      exact ⟨.refl _, Or.inl rfl⟩

theorem newTag_effect (hs : (s.head?.map isNameStart).getD false = true)
    (h : newTag e p s = some (.next p' s')) : Left s s' ∧ Effect s p p' := by
  unfold newTag at h
  split at h
  · cases h
  · rename_i hopen
    have hopen : p.closed = false := by simpa using hopen
    have hname : TagName s (s.takeWhile (!endsTagName ·)) := by
      refine ⟨?_, fun b hb => by simpa using List.mem_takeWhile_imp hb, takeWhile_zero⟩
      cases s with
      | nil => cases hs
      | cons b s =>
        have hb : endsTagName b = false := by
          have hstart : isNameStart b = true := hs
          simp only [isNameStart, endsTagName, isWs, Bool.or_eq_true, Bool.and_eq_true,
            decide_eq_true_eq, Bool.or_eq_false_iff, decide_eq_false_iff_not,
            ← UInt8.toNat_inj, UInt8.le_iff_toNat_le, UInt8.reduceToNat] at hstart ⊢
          omega
        rw [List.takeWhile_cons_of_pos (by simpa using hb)]
        exact hs
    obtain ⟨r, hr, h⟩ := Option.map_eq_some_iff.mp h
    cases r with
    | error err => cases h
    | ok r =>
      obtain ⟨attr, rest⟩ := r
      have hleft : Left s ((s.dropWhile (!endsTagName ·)).dropWhile isSpace) :=
        (Left.dropWhile _ s).trans (.dropWhile _ _)
      obtain ⟨hattr, hrest⟩ := attributes_spec (begins_dropWhile _) hr
      have hattr : ∀ a ∈ attr, AttrFrom s a := fun a ha => (hattr a ha).mono hleft
      have hrest : Left s rest := hleft.trans hrest
      obtain ⟨hend, h⟩ := tagEnd_spec h
      refine ⟨hrest.trans hend, ?_⟩
      rcases h with rfl | h
      · exact .opened hopen hname hattr
      · exact .emptied hopen hname hattr h

theorem closingTag_effect (h : closingTag e p s = .next p' s') : Left s s' ∧ Effect s p p' := by
  simp only [closingTag] at h
  split at h
  · cases h
  · split at h
    · cases h
    · rename_i hclose
      cases h
      exact ⟨(Left.dropWhile _ s).trans (.dropWhile _ _), .closed hclose⟩

theorem left_of_search {pat : Bytes} (h : search pat s = some rest) : Left s rest := by
  obtain ⟨front, rfl, -⟩ := firstAt_of_search h
  exact .of_sublist (List.sublist_append_right front rest)

theorem comment_effect (h : comment e p s = .next p' s') : Left s s' ∧ Effect s p p' := by
  unfold comment at h
  split at h
  · cases h
  · rename_i hsearch
    split at h
    · cases h
      exact ⟨(left_of_search hsearch).trans (.drop 2 _), .same⟩
    · cases h

theorem cdata_effect (h : cdata p s = some (.next p' s')) : Left s s' ∧ Effect s p p' := by
  unfold cdata at h
  split at h
  · cases h
  · rename_i rest hsearch
    obtain ⟨⟨q, r⟩, hr, h⟩ := Option.map_eq_some_iff.mp h
    cases h
    refine ⟨((left_of_search hsearch).trans (.drop 2 rest)).trans (left_of_charContent hr), ?_⟩
    exact .cdata (fun hzero hmem => hzero (List.mem_of_mem_take hmem)) hr

theorem doctype_effect (h : doctype e p s = some (.next p' s')) : Left s s' ∧ Effect s p p' := by
  have hleft := Left.dropWhile (fun b => b ≠ 91 && b ≠ 62) s
  unfold doctype at h
  split at h
  · split at h
    · cases h
      exact ⟨.of_sublist (List.nil_sublist s), .same⟩
    · cases h
  · rename_i hdrop
    rw [hdrop] at hleft
    split at h
    · cases h
    · cases h
      exact ⟨hleft, .same⟩

theorem instructionEnd_eq (h : instructionEnd s = some (content, rest)) :
    s = content ++ 63 :: rest := by
  induction s generalizing content with
  | nil => cases h
  | cons b s ih =>
    rw [instructionEnd] at h
    split at h
    · rename_i hb
      simp only [Bool.and_eq_true, decide_eq_true_eq] at hb
      cases h
      rw [hb.1]
      rfl
    · obtain ⟨r, hr, h⟩ := Option.map_eq_some_iff.mp h
      cases h
      rw [ih hr]
      rfl

theorem instruction_effect (h : instruction e p s = some (.next p' s')) :
    Left s s' ∧ Effect s p p' := by
  unfold instruction at h
  split at h
  · split at h <;> cases h
  · split at h
    · cases h
    · rename_i b s hb
      split at h
      · cases h
      · rename_i content rest hend
        split at h
        · cases h
        · cases h
          have hs := instructionEnd_eq hend
          have hzero : 0 ∉ b :: s → 0 ∉ content := by
            intro hzero hmem
            rw [hs] at hzero
            exact hzero (List.mem_append_left _ hmem)
          refine ⟨?_, .instruction hb hend hzero⟩
          rw [hs]
          exact (Left.of_sublist (List.sublist_append_right content _)).trans .tail

theorem Effect.mono (h : Effect s' p p') (hleft : Left s s') : Effect s p p' := by
  have htag : ∀ name, TagName s' name → TagName s name := fun name hname =>
    ⟨hname.start, hname.chars, fun hzero => hname.zero (hleft.zero hzero)⟩
  cases h with
  | same => exact .same
  | opened hopen hname hattr =>
    exact .opened hopen (htag _ hname) fun a ha => (hattr a ha).mono hleft
  | emptied hopen hname hattr h =>
    exact .emptied hopen (htag _ hname) (fun a ha => (hattr a ha).mono hleft) h
  | closed h => exact .closed h
  | cdata hcontent h => exact .cdata (fun hzero => hcontent (hleft.zero hzero)) h
  | instruction hb h hcontent =>
    exact .instruction hb h fun hzero => hcontent (hleft.zero hzero)

/-- What the markup behind a `<` can do. -/
theorem markup_effect (h : markup e p s = some (.next p' s')) : Left s s' ∧ Effect s p p' := by
  have hdrop : ∀ n, Left (s.drop n) s' ∧ Effect (s.drop n) p p' → Left s s' ∧ Effect s p p' :=
    fun n hn => ⟨(Left.drop n s).trans hn.1, hn.2.mono (.drop n s)⟩
  unfold markup at h
  split at h
  · rename_i hs
    exact newTag_effect hs h
  · split at h
    · exact hdrop 1 (closingTag_effect (Option.some.inj h))
    · split at h
      · exact hdrop 3 (comment_effect (Option.some.inj h))
      · split at h
        · exact hdrop 8 (cdata_effect h)
        · split at h
          · exact hdrop 8 (doctype_effect h)
          · split at h
            · exact hdrop 1 (instruction_effect h)
            · cases h

/-! ## The main loop -/

/-- The text between two pieces of markup, and what follows it. -/
def resume (next : Parse → Bytes → Option Parsed) (p : Parse) (s : Bytes) : Option Parsed :=
  match s.dropWhile (· ≠ 60) with
  | [] => some p.finish
  | _ :: rest =>
    (charContent p .content (s.takeWhile (· ≠ 60)) rest).bind fun r => next r.1 r.2

theorem resume_congr {next next' : Parse → Bytes → Option Parsed}
    (h : ∀ q t, t.length < s.length → next q t = next' q t) :
    resume next p s = resume next' p s := by
  unfold resume
  split
  · rfl
  · rename_i b rest hdrop
    have hle := (Left.dropWhile (fun b => b ≠ 60) s).le
    rw [hdrop, List.length_cons] at hle
    refine Option.bind_congr fun r hr => ?_
    have hleft := (left_of_charContent hr).le
    exact h r.1 r.2 (by omega)

theorem parseLoop_succ (n : Nat) : parseLoop e (n + 1) p s =
    (markup e p s).bind fun
      | .stop err => some (p.stop err)
      | .next q t => resume (parseLoop e n) q (t.drop 1) := rfl

/-- The number of turns does not matter as long as there are enough. -/
theorem parseLoop_eq {n m : Nat} (hn : s.length < n) (hm : s.length < m) :
    parseLoop e n p s = parseLoop e m p s := by
  induction n generalizing m p s with
  | zero => omega
  | succ n ih =>
    obtain ⟨m, rfl⟩ : ∃ k, m = k + 1 := ⟨m - 1, by omega⟩
    rw [parseLoop_succ, parseLoop_succ]
    refine Option.bind_congr fun r hr => ?_
    cases r with
    | stop err => rfl
    | next q t =>
      have hle := (markup_effect hr).1.le
      refine resume_congr fun q' t' ht' => ?_
      rw [List.length_drop] at ht'
      exact ih (by omega) (by omega)

/-- The main loop with as many turns as it needs. -/
def run (e : UInt8) (p : Parse) (s : Bytes) : Option Parsed := parseLoop e (s.length + 1) p s

theorem run_eq : run e p s =
    (markup e p s).bind fun
      | .stop err => some (p.stop err)
      | .next q t => resume (run e) q (t.drop 1) := by
  rw [run, parseLoop_succ]
  refine Option.bind_congr fun r hr => ?_
  cases r with
  | stop err => rfl
  | next q t =>
    have hle := (markup_effect hr).1.le
    refine resume_congr fun q' t' ht' => ?_
    rw [List.length_drop] at ht'
    exact parseLoop_eq (by omega) (by omega)

variable {next : Parse → Bytes → Option Parsed}

theorem resume_markup (s : Bytes) : resume next p (60 :: s) = next p s := by
  have hchar : charContent p .content [] s = some (p, s) := by
    unfold charContent
    split <;> rfl
  have hdrop : (60 :: s).dropWhile (fun b => decide (b ≠ 60)) = 60 :: s := rfl
  have htake : (60 :: s).takeWhile (fun b => decide (b ≠ 60)) = [] := rfl
  rw [resume, hdrop, htake]
  simp only [hchar, Option.bind_some]

/-! ## Whole buffers -/

theorem parseText_markup (e : UInt8) (s : Bytes) : parseText e (60 :: s) = run e Parse.new s := rfl

/-- A text with its terminator in a buffer. -/
theorem exists_parseText {text : Bytes} (hzero : 0 ∉ text) (junk : Bytes)
    (hutf : str2utf8 (text ++ 0 :: junk) = text ++ 0 :: junk) :
    ∃ e, ezxmlParseStr (text ++ 0 :: junk) = parseText e text := by
  have hbuffer : text ++ 0 :: junk ≠ [] := by simp
  have htext : (text ++ 0 :: junk).dropLast.takeWhile (· ≠ 0) = text := by
    have hnotZero : ∀ c ∈ text, decide (c ≠ 0) = true := by
      intro c hc
      rw [decide_eq_true_eq]
      rintro rfl
      exact hzero hc
    rw [List.dropLast_append_of_ne_nil (List.cons_ne_nil 0 junk)]
    cases junk with
    | nil => simpa using hnotZero
    | cons b junk => exact takeWhile_stop hnotZero rfl
  refine ⟨(text ++ 0 :: junk).getLast hbuffer, ?_⟩
  rw [ezxmlParseStr, if_neg hbuffer, hutf, List.getLast?_eq_some_getLast hbuffer, Option.bind_some,
    htext]

/-! ## Invariants -/

/-- What every piece of markup and every content keeps. -/
structure Invariant (I : Parse → Prop) : Prop where
  new : I Parse.new
  effect : ∀ {s p p'}, Effect s p p' → 0 ∉ s → I p → I p'
  content : ∀ {p p' content rest rest'}, charContent p .content content rest = some (p', rest') →
    0 ∉ content → I p → I p'

variable {I : Parse → Prop} {r : Parsed}

theorem Invariant.parseLoop (hI : Invariant I) {n : Nat} (hp : I p) (hs : 0 ∉ s)
    (hr : parseLoop e n p s = some r) : ∃ q, I q ∧ r.tree = q.root ∧ r.pi = q.pi := by
  induction n generalizing p s with
  | zero => cases hr
  | succ n ih =>
    rw [parseLoop_succ] at hr
    obtain ⟨o, ho, hr⟩ := Option.bind_eq_some_iff.mp hr
    cases o with
    | stop err =>
      cases hr
      exact ⟨p, hp, rfl, rfl⟩
    | next q t =>
      obtain ⟨hleft, heffect⟩ := markup_effect ho
      have hq := hI.effect heffect hs hp
      have ht := (Left.drop 1 t).zero (hleft.zero hs)
      change resume (Ezxml.parseLoop e n) q (t.drop 1) = some r at hr
      unfold resume at hr
      split at hr
      · cases hr
        exact ⟨q, hq, rfl, rfl⟩
      · rename_i b rest hdrop
        have hrest : 0 ∉ rest := by
          have hzero := (Left.dropWhile (fun b => b ≠ 60) (t.drop 1)).zero ht
          rw [hdrop] at hzero
          exact fun hmem => hzero (List.mem_cons_of_mem b hmem)
        obtain ⟨⟨q', t'⟩, hchar, hr⟩ := Option.bind_eq_some_iff.mp hr
        exact ih (hI.content hchar (takeWhile_zero ht) hq)
          ((left_of_charContent hchar).zero hrest) hr

/-- What the parser returns is the tree and the instructions of a state with the invariant. -/
theorem Invariant.ezxmlParseStr (hI : Invariant I) {buffer : Bytes}
    (h : ezxmlParseStr buffer = some r) : ∃ q, I q ∧ r.tree = q.root ∧ r.pi = q.pi := by
  unfold Ezxml.ezxmlParseStr at h
  split at h
  · cases h
    exact ⟨_, hI.new, rfl, rfl⟩
  · obtain ⟨e, -, h⟩ := Option.bind_eq_some_iff.mp h
    unfold parseText at h
    split at h
    · cases h
      exact ⟨_, hI.new, rfl, rfl⟩
    · rename_i b s hdrop
      refine hI.parseLoop hI.new ?_ h
      have hzero := (Left.dropWhile (fun b => b ≠ 60)
        ((str2utf8 buffer).dropLast.takeWhile (· ≠ 0))).zero fun hmem =>
          absurd (List.mem_takeWhile_imp hmem) (by decide)
      rw [hdrop] at hzero
      exact fun hmem => hzero (List.mem_cons_of_mem b hmem)

end ArpgServer.Ezxml
