import ArpgServer.Library.References
import ArpgServer.Model.EzxmlEntities
import ArpgServer.Xml.Escaping
import Mathlib.Data.List.Find

/-!
# Circular entities

`ezxml_ent_ok` keeps the references between replacements well-founded, so that its own recursion
always ends. Reading a text ends too, when names hold no `;` of their own and no reference
begins in a replacement and ends behind it. Without the latter it need not: two declarations
that pass the check make `ezxml_decode` run for ever.
-/

namespace ArpgServer.Ezxml

open CText Scan

variable {t : Mode} {ent ent' : Entities} {name n v w s rest : Bytes} {depth : Nat}

/-! ## References -/

/-- A `&` in the text `w` begins a reference to an entity with the replacement `v`. -/
def Refers (ent : Entities) (v w : Bytes) : Prop :=
  ∃ pre post nm, w = pre ++ 38 :: post ∧ findEntity ent post = some (nm, v)

/-- A `&` in the text is followed by the name. -/
def Names (name w : Bytes) : Prop := ∃ pre post, w = pre ++ 38 :: post ∧ name <+: post

theorem Refers.cons {a : UInt8} (h : Refers ent v s) : Refers ent v (a :: s) := by
  obtain ⟨pre, post, nm, rfl, hfind⟩ := h
  exact ⟨a :: pre, post, nm, rfl, hfind⟩

theorem Refers.suffix (h : Refers ent v s) (hs : s <:+ w) : Refers ent v w := by
  obtain ⟨pre, post, nm, rfl, hfind⟩ := h
  obtain ⟨front, rfl⟩ := hs
  exact ⟨front ++ pre, post, nm, by rw [List.append_assoc], hfind⟩

theorem Names.cases {a : UInt8} (h : Names name (a :: s)) :
    (a = 38 ∧ name <+: s) ∨ Names name s := by
  obtain ⟨pre, post, heq, hname⟩ := h
  cases pre with
  | nil =>
    cases heq
    exact Or.inl ⟨rfl, hname⟩
  | cons b pre =>
    cases heq
    exact Or.inr ⟨pre, post, rfl, hname⟩

theorem Refers.cases {a : UInt8} (h : Refers ent v (a :: s)) :
    (a = 38 ∧ ∃ nm, findEntity ent s = some (nm, v)) ∨ Refers ent v s := by
  obtain ⟨pre, post, nm, heq, hfind⟩ := h
  cases pre with
  | nil =>
    cases heq
    exact Or.inl ⟨rfl, nm, hfind⟩
  | cons b pre =>
    cases heq
    exact Or.inr ⟨pre, post, nm, rfl, hfind⟩

/-! ## The check -/

theorem entOkAt_true {deeper : Bytes → Option Bool}
    (h : entOkAt deeper name ent s = some true) :
    ¬ Names name s ∧ ∀ v, Refers ent v s → deeper v = some true := by
  induction s with
  | nil =>
    constructor
    · rintro ⟨pre, post, heq, -⟩
      simp at heq
    · rintro v ⟨pre, post, nm, heq, -⟩
      simp at heq
  | cons a s ih =>
    have hother : entOkAt deeper name ent s = some true →
        (a = 38 → ¬ name <+: s ∧ ∀ nm v, findEntity ent s = some (nm, v) → deeper v = some true) →
        ¬ Names name (a :: s) ∧ ∀ v, Refers ent v (a :: s) → deeper v = some true := by
      intro hrest hhere
      obtain ⟨hnames, hrefers⟩ := ih hrest
      refine ⟨fun hn => ?_, fun v hv => ?_⟩
      · rcases hn.cases with ⟨ha, hname⟩ | hn
        · exact (hhere ha).1 hname
        · exact hnames hn
      · rcases hv.cases with ⟨ha, nm, hfind⟩ | hv
        · exact (hhere ha).2 nm v hfind
        · exact hrefers v hv
    rw [entOkAt] at h
    split at h
    · split at h
      · cases h
      rename_i hname
      have hname : ¬ name <+: s := fun hprefix => hname (List.isPrefixOf_iff_prefix.mpr hprefix)
      split at h
      · rename_i hfind
        exact hother h fun _ => ⟨hname, fun nm v hv => by rw [hfind] at hv; cases hv⟩
      · rename_i nm value hfind
        obtain ⟨ok, hok, h⟩ := Option.bind_eq_some_iff.mp h
        split at h
        · rename_i htrue
          refine hother h fun _ => ⟨hname, fun nm' v hv => ?_⟩
          rw [hfind] at hv
          cases hv
          rw [hok, htrue]
        · cases h
    · rename_i ha
      exact hother h fun ha' => absurd ha' ha

/-- A value that passes the check leads to no text with a reference to the name. -/
theorem entOk_true (h : entOk name ent depth v = some true) :
    ∀ w, References.Reached (Refers ent) v w → ¬ Names name w := by
  induction depth generalizing v with
  | zero => cases h
  | succ depth ih =>
    obtain ⟨hnames, hrefers⟩ := entOkAt_true h
    intro w hw
    rcases hw.cases_head with rfl | ⟨x, hx, hw⟩
    · exact hnames
    · exact ih (hrefers x hx) w hw

/-- From some depth on the check of a text returns, if that of its replacements does. -/
theorem entOkAt_returns
    (h : ∀ v, Refers ent v s → ∃ d, ∀ d', d ≤ d' → (entOk name ent d' v).isSome) :
    ∃ d, ∀ d', d ≤ d' → (entOkAt (entOk name ent d') name ent s).isSome := by
  induction s with
  | nil => exact ⟨0, fun _ _ => rfl⟩
  | cons a s ih =>
    obtain ⟨d₁, hrest⟩ := ih fun v hv => h v hv.cons
    have hhere : ∃ d₂, ∀ d', d₂ ≤ d' → a = 38 → ∀ nm value, findEntity ent s = some (nm, value) →
        (entOk name ent d' value).isSome := by
      by_cases ha : a = 38
      · cases hfind : findEntity ent s with
        | none => exact ⟨0, fun _ _ _ nm value hv => by cases hv⟩
        | some x =>
          obtain ⟨d₂, hvalue⟩ := h x.2 ⟨[], s, x.1, by rw [ha, List.nil_append], hfind⟩
          refine ⟨d₂, fun d' hd _ nm value hv => ?_⟩
          cases hv
          exact hvalue d' hd
      · exact ⟨0, fun _ _ ha' => absurd ha' ha⟩
    obtain ⟨d₂, hhere⟩ := hhere
    refine ⟨max d₁ d₂, fun d' hd => ?_⟩
    have hrest := hrest d' (le_trans (le_max_left ..) hd)
    have hhere := hhere d' (le_trans (le_max_right ..) hd)
    rw [entOkAt]
    split
    · rename_i ha
      split
      · rfl
      split
      · exact hrest
      · rename_i nm value hfind
        obtain ⟨ok, hok⟩ := Option.isSome_iff_exists.mp (hhere ha nm value hfind)
        rw [hok, Option.bind_some]
        split
        · exact hrest
        · rfl
    · exact hrest

theorem entOk_returns_of_acc (hs : Acc (Refers ent) s) (name : Bytes) :
    ∃ d, ∀ d', d ≤ d' → (entOk name ent d' s).isSome := by
  induction hs with
  | intro s _ ih =>
    have hreturns : ∃ d, ∀ d', d ≤ d' → (entOkAt (entOk name ent d') name ent s).isSome :=
      entOkAt_returns fun v hv => ih v hv
    obtain ⟨d, hd⟩ := hreturns
    refine ⟨d + 1, fun d' hle => ?_⟩
    obtain ⟨d', rfl⟩ := Nat.exists_eq_add_of_le' (Nat.le_of_add_left_le hle)
    exact hd d' (by omega)

/-! ## Accepted tables -/

/-- The replacements of the predefined entities begin with their only `&`. -/
theorem entities_value (h : (name, v) ∈ entities) :
    ∃ tail, v = 38 :: tail ∧ 38 ∉ tail ∧ findEntity entities tail = none := by
  have hall : entities.all (fun x => x.2.head? = some 38 && !x.2.tail.contains 38 &&
      (findEntity entities x.2.tail).isNone) = true := rfl
  have hv := List.all_eq_true.mp hall _ h
  simp only [Bool.and_eq_true, decide_eq_true_eq, Bool.not_eq_true'] at hv
  obtain ⟨⟨hhead, htail⟩, hfind⟩ := hv
  cases v with
  | nil => cases hhead
  | cons a tail =>
    cases hhead
    exact ⟨tail, rfl, by simpa using htail, Option.isNone_iff_eq_none.mp hfind⟩

theorem not_refers_entities (h : (name, v) ∈ entities) : ¬ Refers entities w v := by
  intro hw
  obtain ⟨tail, rfl, hamp, hfind⟩ := entities_value h
  rcases hw.cases with ⟨-, nm, hw⟩ | ⟨pre, post, nm, rfl, -⟩
  · rw [hfind] at hw
    cases hw
  · exact hamp (by simp)

theorem refers_append {value : Bytes} (h : Refers (ent ++ [(name, value)]) v w) :
    Refers ent v w ∨ v = value ∧ Names name w := by
  obtain ⟨pre, post, nm, hw, hfind⟩ := h
  rw [findEntity, List.find?_append] at hfind
  rcases Option.or_eq_some_iff.mp hfind with hfind | ⟨-, hfind⟩
  · exact Or.inl ⟨pre, post, nm, hw, hfind⟩
  · obtain ⟨hname, hsame⟩ :=
      Option.ite_none_right_eq_some.mp (List.find?_singleton.symm.trans hfind)
    cases hsame
    exact Or.inr ⟨rfl, pre, post, hw, List.isPrefixOf_iff_prefix.mp hname⟩

theorem Accepted.wellFounded (h : Accepted ent) : WellFounded (Refers ent) := by
  induction h with
  | new =>
    refine ⟨fun w => ⟨w, fun v hv => ?_⟩⟩
    obtain ⟨nm, hmem⟩ : ∃ nm, (nm, v) ∈ entities := by
      obtain ⟨pre, post, nm, -, hfind⟩ := hv
      exact ⟨nm, List.mem_of_find?_eq_some hfind⟩
    exact ⟨v, fun x hx => absurd hx (not_refers_entities hmem)⟩
  | declare depth n value h hd ih =>
    obtain ⟨ok, hok, hd⟩ := Option.map_eq_some_iff.mp hd
    split at hd
    · rename_i htrue
      cases hd
      rw [htrue] at hok
      exact References.wellFounded_insert ih (fun v w hv => refers_append hv) (entOk_true hok)
    · cases hd

/-- **The check always returns**, for every text and whatever has been declared before. -/
theorem entOk_returns (h : Accepted ent) (name s : Bytes) :
    ∃ d, ∀ d', d ≤ d' → (entOk name ent d' s).isSome :=
  entOk_returns_of_acc (h.wellFounded.apply s) name

/-- `a` stands for `&lt;` and `b` for two of `a`. -/
def nested : Entities :=
  entities ++ [(ofString "a;", ofString "&lt;")] ++ [(ofString "b;", ofString "&a;&a;")]

theorem accepted_nested : Accepted nested := by
  have ha : declareEntity 3 entities (ofString "a") (ofString "&lt;") =
      some (some (entities ++ [(ofString "a;", ofString "&lt;")])) := rfl
  have hb : declareEntity 3 (entities ++ [(ofString "a;", ofString "&lt;")]) (ofString "b")
      (ofString "&a;&a;") = some (some nested) := rfl
  exact .declare 3 _ _ (.declare 3 _ _ .new ha) hb

/-- The check of an entity that refers to `b`. -/
theorem entOk_returns_nested : ∃ d, ∀ d', d ≤ d' →
    (entOk (ofString "c;") nested d' (ofString "&b;")).isSome :=
  entOk_returns accepted_nested _ _

/-! ## Reading in turns -/

/-- The loop of `ezxml_decode` ends. -/
def Halts (t : Mode) (ent : Entities) (s : Bytes) : Prop := ∃ n, (expand t ent n s).isSome

theorem halts_nil : Halts t ent [] := ⟨0, rfl⟩

theorem halts_cons {a : UInt8}
    (h : ∀ out rest, expandTurn t ent a s = some (out, rest) → Halts t ent rest) :
    Halts t ent (a :: s) := by
  cases hturn : expandTurn t ent a s with
  | none => exact ⟨1, by rw [expand, hturn]; rfl⟩
  | some r =>
    obtain ⟨out, rest⟩ := r
    obtain ⟨n, hn⟩ := h out rest hturn
    refine ⟨n + 1, ?_⟩
    rw [expand, hturn]
    simpa using hn

/-- A turn goes on with the text behind, or with a replacement in front of it. -/
theorem expandTurn_cases {a : UInt8} {out : Bytes} (h : expandTurn t ent a s = some (out, rest)) :
    (∃ k, rest = s.drop k) ∨
      a = 38 ∧ ∃ nm v, findEntity ent s = some (nm, v) ∧ rest = v ++ behindSemicolon s := by
  unfold expandTurn at h
  split at h
  · rename_i ha
    simp only [Bool.and_eq_true, decide_eq_true_eq] at ha
    split at h
    · obtain ⟨r, -, h⟩ := Option.map_eq_some_iff.mp h
      cases h
      exact Or.inl ⟨r.2, rfl⟩
    · split at h
      · cases h
        exact Or.inl ⟨0, rfl⟩
      · rename_i nm v hfind
        cases h
        exact Or.inr ⟨ha.1, nm, v, hfind, rfl⟩
  · split at h <;>
    · cases h
      exact Or.inl ⟨0, rfl⟩

/-! ## Closed texts -/

/-- Every `&` has a `;` behind it. -/
def Closed (w : Bytes) : Prop := ∀ pre post, w = pre ++ 38 :: post → 59 ∈ post

/-- The only `;` of the name is its last character. -/
def Plain (name : Bytes) : Prop := ∃ n, name = n ++ [59] ∧ 59 ∉ n

theorem Closed.suffix (h : Closed w) (hs : s <:+ w) : Closed s := by
  obtain ⟨front, rfl⟩ := hs
  rintro pre post rfl
  exact h (front ++ pre) post (List.append_assoc ..).symm

theorem takeWhile_semicolon (h : 59 ∈ s) :
    (s ++ rest).takeWhile (· ≠ 59) = s.takeWhile (· ≠ 59) := by
  induction s with
  | nil => cases h
  | cons a s ih =>
    by_cases ha : a = 59
    · subst ha
      rfl
    · have h : 59 ∈ s := (List.mem_cons.mp h).resolve_left (Ne.symm ha)
      simp only [List.cons_append, List.takeWhile_cons, ha, ne_eq, not_false_eq_true,
        decide_true, if_true, ih h]

theorem behindSemicolon_append (h : 59 ∈ s) :
    behindSemicolon (s ++ rest) = behindSemicolon s ++ rest := by
  induction s with
  | nil => cases h
  | cons a s ih =>
    by_cases ha : a = 59
    · subst ha
      rfl
    · have h : 59 ∈ s := (List.mem_cons.mp h).resolve_left (Ne.symm ha)
      simpa [behindSemicolon, ha] using ih h

/-- The text behind the next `;` is an end of the text. -/
theorem behindSemicolon_suffix (s : Bytes) : behindSemicolon s <:+ s :=
  (List.drop_suffix ..).trans (List.dropWhile_suffix ..)

theorem passes_semicolon (h : 59 ∉ n) : ∀ a ∈ n, decide (a ≠ 59) = true := by
  intro a ha
  refine decide_eq_true fun heq => ?_
  rw [heq] at ha
  exact h ha

/-- Whether a text begins with a name is seen up to its next `;`. -/
theorem prefix_iff (hname : Plain name) :
    name <+: s ↔ 59 ∈ s ∧ s.takeWhile (· ≠ 59) ++ [59] = name := by
  obtain ⟨n, rfl, hn⟩ := hname
  have htake : ∀ rest, (n ++ 59 :: rest).takeWhile (· ≠ 59) = n := fun rest => by
    rw [List.takeWhile_append_of_pos (passes_semicolon hn)]
    simp
  constructor
  · rintro ⟨rest, rfl⟩
    rw [List.append_assoc, List.singleton_append, htake]
    exact ⟨by simp, rfl⟩
  · rintro ⟨hmem, htake⟩
    have htake := List.append_cancel_right htake
    have hdrop : s.dropWhile (· ≠ 59) ≠ [] := by
      intro hnil
      rw [List.dropWhile_eq_nil_iff] at hnil
      exact absurd rfl (of_decide_eq_true (hnil 59 hmem))
    obtain ⟨a, rest, hrest⟩ := List.exists_cons_of_ne_nil hdrop
    have ha : a = 59 := by
      have hhead := List.head?_dropWhile_not (fun b : UInt8 => decide (b ≠ 59)) s
      rw [hrest] at hhead
      simpa using hhead
    rw [ha] at hrest
    refine ⟨rest, ?_⟩
    rw [List.append_assoc, List.singleton_append, ← htake, ← hrest]
    exact List.takeWhile_append_dropWhile

theorem findEntity_append (hplain : ∀ x ∈ ent, Plain x.1) (h : 59 ∈ s) :
    findEntity ent (s ++ rest) = findEntity ent s := by
  refine List.find?_congr fun x hx => ?_
  rw [Bool.eq_iff_iff, List.isPrefixOf_iff_prefix, List.isPrefixOf_iff_prefix,
    prefix_iff (hplain x hx), prefix_iff (hplain x hx), takeWhile_semicolon h]
  simp [h]

/-! ## The end of the loop -/

/-- A closed text is read to its end, whatever follows. -/
theorem halts_append (hwf : WellFounded (Refers ent)) (hplain : ∀ x ∈ ent, Plain x.1)
    (hclosed : ∀ x ∈ ent, Closed x.2) (w : Bytes) (hw : Closed w) (rest : Bytes)
    (hrest : ∀ k, Halts t ent (rest.drop k)) : Halts t ent (w ++ rest) := by
  induction w using hwf.induction generalizing rest with
  | _ w ihValue =>
    -- the texts that are still to be read of `w` itself
    suffices hsuffix : ∀ n u, u.length ≤ n → u <:+ w → Halts t ent (u ++ rest) from
      hsuffix w.length w le_rfl List.suffix_rfl
    intro n
    induction n with
    | zero =>
      intro u hu _
      rw [List.length_eq_zero_iff.mp (Nat.le_zero.mp hu)]
      exact hrest 0
    | succ n ih =>
      intro u hu hsuf
      cases u with
      | nil => exact hrest 0
      | cons a u =>
        rw [List.cons_append]
        have hlen : u.length ≤ n := Nat.le_of_succ_le_succ hu
        have hu : u <:+ w := (List.suffix_cons a u).trans hsuf
        have hdrop : ∀ v, v <:+ u → ∀ k, Halts t ent ((v ++ rest).drop k) := by
          intro v hv k
          rw [List.drop_append]
          by_cases hk : v.length ≤ k
          · rw [List.drop_of_length_le hk]
            exact hrest _
          · rw [Nat.sub_eq_zero_of_le (by omega), List.drop_zero]
            have hvlen := hv.length_le
            exact ih _ (by rw [List.length_drop]; omega)
              ((List.drop_suffix ..).trans (hv.trans hu))
        refine halts_cons fun out text hturn => ?_
        rcases expandTurn_cases hturn with ⟨k, rfl⟩ | ⟨rfl, nm, v, hfind, rfl⟩
        · exact hdrop u List.suffix_rfl k
        · have hmem : 59 ∈ u := hw.suffix hsuf [] u rfl
          rw [findEntity_append hplain hmem] at hfind
          rw [behindSemicolon_append hmem]
          have hrefers : Refers ent v w := by
            have hown : Refers ent v (38 :: u) := ⟨[], u, nm, rfl, hfind⟩
            exact hown.suffix hsuf
          have hv : Closed v := hclosed (nm, v) (List.mem_of_find?_eq_some hfind)
          exact ihValue v hrefers hv _ (hdrop _ (behindSemicolon_suffix u))

/-- **Reading ends**, with every table that passed the check, when names hold no `;` of their
own and references do not reach out of replacements. -/
theorem expand_halts (h : Accepted ent) (hplain : ∀ x ∈ ent, Plain x.1)
    (hclosed : ∀ x ∈ ent, Closed x.2) (t : Mode) (s : Bytes) :
    ∃ n, (expand t ent n s).isSome := by
  suffices hall : ∀ n s, s.length ≤ n → Halts t ent s from hall s.length s le_rfl
  intro n
  induction n with
  | zero =>
    intro s hs
    rw [List.length_eq_zero_iff.mp (Nat.le_zero.mp hs)]
    exact halts_nil
  | succ n ih =>
    intro s hs
    cases s with
    | nil => exact halts_nil
    | cons a s =>
      have hlen : s.length ≤ n := Nat.le_of_succ_le_succ hs
      refine halts_cons fun out rest hturn => ?_
      rcases expandTurn_cases hturn with ⟨k, rfl⟩ | ⟨-, nm, v, hfind, rfl⟩
      · exact ih _ (by rw [List.length_drop]; omega)
      · have hv : Closed v := hclosed (nm, v) (List.mem_of_find?_eq_some hfind)
        refine halts_append h.wellFounded hplain hclosed v hv _ fun k => ih _ ?_
        have := (behindSemicolon_suffix s).length_le
        rw [List.length_drop]
        omega

theorem plain_of_all (h : ent.all (fun x => x.1 = x.1.dropLast ++ [59] &&
    !x.1.dropLast.contains 59) = true) : ∀ x ∈ ent, Plain x.1 := by
  intro x hx
  have hname := List.all_eq_true.mp h x hx
  simp only [Bool.and_eq_true, decide_eq_true_eq, Bool.not_eq_true'] at hname
  exact ⟨x.1.dropLast, hname.1, by simpa using hname.2⟩

theorem closed_of_last (h : w.getLast? = some 59) : Closed w := by
  rintro pre post rfl
  rw [List.getLast?_append_cons] at h
  cases post with
  | nil => cases h
  | cons b post =>
    rw [List.getLast?_cons_cons] at h
    exact List.mem_of_getLast? h

/-- A text with both entities. -/
theorem expand_halts_nested : ∃ n, (expand .content nested n (ofString "x&b;y&a;")).isSome := by
  have hclosed : nested.all (fun x => x.2.getLast? = some 59) = true := rfl
  refine expand_halts accepted_nested (plain_of_all rfl) (fun x hx => ?_) _ _
  exact closed_of_last (of_decide_eq_true (List.all_eq_true.mp hclosed _ hx))

/-- `b` stands for `&c;;` and `c` for `&b`: the reference to `b` begins in the replacement of `c`
and ends behind it. -/
def straddling : Entities :=
  entities ++ [(ofString "b;", ofString "&c;;")] ++ [(ofString "c;", ofString "&b")]

theorem accepted_straddling : Accepted straddling := by
  have hb : declareEntity 3 entities (ofString "b") (ofString "&c;;") =
      some (some (entities ++ [(ofString "b;", ofString "&c;;")])) := rfl
  have hc : declareEntity 3 (entities ++ [(ofString "b;", ofString "&c;;")]) (ofString "c")
      (ofString "&b") = some (some straddling) := rfl
  exact .declare 3 _ _ (.declare 3 _ _ .new hb) hc

/-- The check alone does not make reading end. -/
theorem expand_not_halts : ¬ ∀ ent, Accepted ent → ∀ t s, ∃ n, (expand t ent n s).isSome := by
  intro hall
  obtain ⟨n, hn⟩ := hall _ accepted_straddling .content [38, 98, 59]
  have hb : expandTurn .content straddling 38 [98, 59] = some ([], [38, 99, 59, 59]) := by
    rfl
  have hc : expandTurn .content straddling 38 [99, 59, 59] = some ([], [38, 98, 59]) := by
    rfl
  have hloop : ∀ n, expand .content straddling n [38, 98, 59] = none ∧
      expand .content straddling n [38, 99, 59, 59] = none := by
    intro n
    induction n with
    | zero => exact ⟨rfl, rfl⟩
    | succ n ih => exact ⟨by rw [expand, hb]; simp [ih.2], by rw [expand, hc]; simp [ih.1]⟩
  rw [(hloop n).1] at hn
  cases hn

/-! ## The predefined entities -/

theorem decodeText_of_turn {a : UInt8} {out : Bytes} {k : Nat}
    (h : decodeTurn t a s = some (out, k)) :
    decodeText t (a :: s) = (decodeText t (s.drop k)).map (out ++ ·) := by
  have hscan : scan (decodeTurn t) 0 (a :: s) = (out ++ (scan (decodeTurn t) 0 (s.drop k)).1,
      (scan (decodeTurn t) 0 (s.drop k)).2) := by
    rw [scan, h]
    simp only [scan_drop _ k s]
  simp only [decodeText, hscan]
  split <;> rfl

theorem decodeText_of_stop {a : UInt8} (h : decodeTurn t a s = none) :
    decodeText t (a :: s) = none := by
  rw [decodeText, scan_of_stop h]
  rfl

theorem decodeText_of_yields {out : Bytes} (h : Yields (decodeTurn t) w out) (rest : Bytes) :
    decodeText t (w ++ rest) = (decodeText t rest).map (out ++ ·) := by
  simp only [decodeText, h rest]
  split <;> rfl

/-- Each predefined entity stands for the decimal reference of a character. -/
theorem entities_decimal (h : (name, v) ∈ entities) :
    ∃ ds, v = 38 :: 35 :: (ds ++ [59]) ∧ ds ≠ [] ∧ (∀ d ∈ ds, isDigitIn 10 d = true) ∧
      0 < valueIn 10 ds ∧ valueIn 10 ds < 2 ^ 41 := by
  have hall : entities.all (fun x =>
      let ds := (x.2.drop 2).dropLast
      x.2 = 38 :: 35 :: (ds ++ [59]) && !ds.isEmpty && ds.all (isDigitIn 10) &&
        0 < valueIn 10 ds && valueIn 10 ds < 2 ^ 41) = true := rfl
  have hv := List.all_eq_true.mp hall _ h
  simp only [Bool.and_eq_true, decide_eq_true_eq, Bool.not_eq_true', List.isEmpty_eq_false_iff,
    List.all_eq_true] at hv
  obtain ⟨⟨⟨⟨hv, hds⟩, hdigits⟩, hpos⟩, hlt⟩ := hv
  exact ⟨_, hv, hds, hdigits, hpos, hlt⟩

theorem entities_plain : ∀ x ∈ entities, Plain x.1 := plain_of_all rfl

theorem behindSemicolon_plain (h : Plain name) (rest : Bytes) :
    behindSemicolon (name ++ rest) = rest := by
  obtain ⟨n, rfl, hn⟩ := h
  rw [behindSemicolon, List.append_assoc, List.dropWhile_append_of_pos (passes_semicolon hn)]
  simp

theorem findEntity_prefix (h : findEntity ent s = some (name, v)) : name <+: s := by
  have hprefix := List.find?_some h
  exact List.isPrefixOf_iff_prefix.mp hprefix

theorem expandTurn_hash (ht : t ≠ .cdata) (s : Bytes) :
    expandTurn t ent 38 (35 :: s) = (charRef s).map fun r => (r.1, (35 :: s).drop r.2) := by
  simp [expandTurn, ht]

theorem expandTurn_entity (ht : t ≠ .cdata) (hs : s.head? ≠ some 35)
    (h : findEntity ent s = some (name, v)) :
    expandTurn t ent 38 s = some ([], v ++ behindSemicolon s) := by
  cases s with
  | nil => simp [expandTurn, ht, h]
  | cons b s =>
    have hb : b ≠ 35 := fun h => hs (by rw [h]; rfl)
    simp [expandTurn, ht, hb, h]

/-- Apart from entities, the two loops take the same turns. -/
theorem expandTurn_entities {a : UInt8} (h : a = 38 → t ≠ .cdata → s.head? ≠ some 35 →
    findEntity entities s = none) :
    expandTurn t entities a s = (decodeTurn t a s).map fun r => (r.1, s.drop r.2) := by
  unfold expandTurn decodeTurn
  by_cases hamp : (a = 38 && t ≠ .cdata) = true
  · rw [if_pos hamp, if_pos hamp]
    simp only [Bool.and_eq_true, decide_eq_true_eq] at hamp
    split
    · rfl
    · rename_i hhash
      have hhead : s.head? ≠ some 35 := by
        intro hhead
        obtain ⟨s', rfl⟩ := List.head?_eq_some_iff.mp hhead
        exact hhash s' rfl
      have hnone := h hamp.1 hamp.2 hhead
      have hfind : entities.find? (fun ent => ent.1.isPrefixOf s) = none := hnone
      simp only [hnone, entityRef, hfind, Option.map_some, List.drop_zero]
  · rw [if_neg hamp, if_neg hamp]
    split <;> rfl

/-- **With the predefined entities** the loop reads a text in finitely many turns, and as the
loop over single characters does. -/
theorem expand_entities (t : Mode) (s : Bytes) :
    ∃ n, expand t entities n s = some (decodeText t s) := by
  suffices hall : ∀ n s, s.length ≤ n → ∃ n, expand t entities n s = some (decodeText t s) from
    hall s.length s le_rfl
  intro n
  induction n with
  | zero =>
    intro s hs
    rw [List.length_eq_zero_iff.mp (Nat.le_zero.mp hs)]
    exact ⟨0, rfl⟩
  | succ n ih =>
    intro s hs
    cases s with
    | nil => exact ⟨0, rfl⟩
    | cons a s =>
      have hlen : s.length ≤ n := Nat.le_of_succ_le_succ hs
      by_cases hentity : a = 38 ∧ t ≠ .cdata ∧ s.head? ≠ some 35 ∧ findEntity entities s ≠ none
      · obtain ⟨rfl, ht, -, hfind⟩ := hentity
        obtain ⟨⟨name, v⟩, hfind⟩ := Option.ne_none_iff_exists'.mp hfind
        have hmem : (name, v) ∈ entities := List.mem_of_find?_eq_some hfind
        obtain ⟨rest, rfl⟩ := findEntity_prefix hfind
        obtain ⟨ds, rfl, hds, hdigits, hpos, hlt⟩ := entities_decimal hmem
        obtain ⟨m, hm⟩ := ih rest (by rw [List.length_append] at hlen; omega)
        have hturn : expandTurn t entities 38 (name ++ rest) =
            some ([], 38 :: 35 :: (ds ++ 59 :: rest)) := by
          rw [expandTurn_entity ht (head_entity hmem rest) hfind,
            behindSemicolon_plain (entities_plain _ hmem)]
          simp
        have hnext : expandTurn t entities 38 (35 :: (ds ++ 59 :: rest)) =
            some (utf8Char (valueIn 10 ds), rest) := by
          rw [expandTurn_hash ht, charRef_decimal hds hdigits hpos hlt, Option.map_some]
          simp [List.drop_append]
        refine ⟨m + 2, ?_⟩
        have hread := reads_entity ht hds hmem hdigits hpos hlt
        rw [← List.cons_append, decodeText_of_yields hread, List.cons_append, expand, hturn]
        simp only [expand, hnext, hm, Option.map_some, List.nil_append, Option.map_id']
      · have hturn := expandTurn_entities (t := t) (s := s) (a := a) fun ha ht hhead => by
          by_contra hne
          exact hentity ⟨ha, ht, hhead, hne⟩
        cases hown : decodeTurn t a s with
        | none =>
          refine ⟨1, ?_⟩
          rw [expand, hturn, hown, decodeText_of_stop hown]
          rfl
        | some r =>
          obtain ⟨out, k⟩ := r
          obtain ⟨m, hm⟩ := ih (s.drop k) (by rw [List.length_drop]; omega)
          refine ⟨m + 1, ?_⟩
          rw [expand, hturn, hown, decodeText_of_turn hown]
          simp only [Option.map_some, hm]

end ArpgServer.Ezxml
