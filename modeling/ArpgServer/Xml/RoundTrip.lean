import ArpgServer.Xml.Escaping
import ArpgServer.Xml.Tags
import ArpgServer.Xml.Tree

/-!
# Writing a tree and reading it again

`ezxml_toxml` writes a tree as a document that `ezxml_parse_str` reads as the same tree: the
tags, their texts and their places in the texts of their parents are the same, and every
attribute that can be read has its value, with the blanks the encoder does not know.
-/

namespace ArpgServer.Ezxml

open CText Scan

/-! ## The tree that is read -/

/-- An attribute that was written and read again. -/
def reread (a : Attribute) : Attribute := (a.1, some ((a.2.getD []).map (readAs .attribute)))

/-- A tree that was written and read again. -/
def Xml.reread : Xml → Xml
  | .null => .null
  | .tag name attr txt off child ordered =>
    .tag name ((written attr [] attr).map Ezxml.reread) txt off child.reread ordered.reread

theorem Xml.append_assoc (x y z : Xml) : (x.append y).append z = x.append (y.append z) := by
  induction x with
  | null => rfl
  | tag name attr txt off child ordered _ ih => simp only [Xml.append, ih]

theorem mem_of_mem_written {attr as : List Attribute} {seen : List Bytes} {a : Attribute}
    (h : a ∈ written attr seen as) : a ∈ as := by
  induction as generalizing seen with
  | nil => cases h
  | cons b as ih =>
    rw [written] at h
    split at h
    · rcases List.mem_cons.mp h with rfl | h
      · exact List.mem_cons_self
      · exact List.mem_cons_of_mem b (ih h)
    · exact List.mem_cons_of_mem b (ih h)

/-! ### Looking it through -/

theorem findAttr_written {name : Bytes} {attr as : List Attribute} {seen : List Bytes}
    (h : name ∉ seen) : findAttr name (written attr seen as) = findAttr name as := by
  induction as generalizing seen with
  | nil => rfl
  | cons a as ih =>
    rw [written]
    by_cases ha : a.1 = name
    · have hkept : (seen.all fun name => name ≠ a.1) = true := by
        refine List.all_eq_true.mpr fun name' hmem => decide_eq_true ?_
        rintro rfl
        exact h (ha ▸ hmem)
      rw [if_pos (Or.inl hkept)]
      simp [findAttr, ha]
    · have hseen : name ∉ a.1 :: seen := fun hmem => (List.mem_cons.mp hmem).elim (Ne.symm ha) h
      have hskip : ∀ l, findAttr name (a :: l) = findAttr name l := fun l => by
        simp [findAttr, ha]
      split
      · rw [hskip, hskip, ih hseen]
      · rw [hskip, ih hseen]

theorem findAttr_reread (name : Bytes) (as : List Attribute) :
    findAttr name (as.map reread) = (findAttr name as).map reread := by
  induction as with
  | nil => rfl
  | cons a as ih =>
    by_cases ha : a.1 = name
    · simp [findAttr, reread, ha]
    · simp only [findAttr, List.map_cons] at ih ⊢
      rw [List.find?_cons_of_neg (by simp [reread, ha]), ih,
        List.find?_cons_of_neg (by simp [ha])]

theorem ezxmlAttr_reread (x : Xml) (name : Bytes) :
    ezxmlAttr x.reread name = (ezxmlAttr x name).map fun v => v.map (readAs .attribute) := by
  cases x with
  | null => rfl
  | tag tagName attr txt off child ordered =>
    have hfind : findAttr name ((written attr [] attr).map reread) =
        (findAttr name attr).map reread := by
      rw [findAttr_reread, findAttr_written List.not_mem_nil]
    simp only [ezxmlAttr, Xml.reread, Xml.attrs, hfind, Option.map_map]
    rfl

theorem Xml.find_reread (x : Xml) (name : Bytes) :
    x.reread.find name = (x.find name).reread := by
  induction x with
  | null => rfl
  | tag name' attr txt off child ordered _ ih =>
    simp only [Xml.reread, Xml.find]
    split
    · rfl
    · exact ih

theorem ezxmlChild_reread (x : Xml) (name : Bytes) :
    ezxmlChild x.reread name = (ezxmlChild x name).reread := by
  have hchild : x.reread.child = x.child.reread := by cases x <;> rfl
  rw [ezxmlChild, hchild, Xml.find_reread]
  rfl

theorem foldl_ezxmlChild_reread (path : List Bytes) (x : Xml) :
    path.foldl ezxmlChild x.reread = (path.foldl ezxmlChild x).reread := by
  induction path generalizing x with
  | nil => rfl
  | cons name path ih => rw [List.foldl_cons, List.foldl_cons, ezxmlChild_reread, ih]

theorem txt?_reread (x : Xml) : x.reread.txt? = x.txt? := by cases x <;> rfl

/-! ## Tags -/

/-- An attribute as the serializer spells it. -/
def spelling (a : Attribute) : Spelling where
  name := a.1
  quote := 34
  raw := ampencode true (a.2.getD [])
  value := (a.2.getD []).map (readAs .attribute)

theorem AttrOk.spelling {a : Attribute} (h : AttrOk a) : (spelling a).Ok where
  name := h.name
  quote := rfl
  closed := not_mem_ampencode (by simp [Ezxml.spelling])
  value := fun rest => decode_ampencode (by decide) (fun _ => rfl) _ rest

theorem code_spelling (a : Attribute) : (spelling a).code = attrCode a := by
  have hblank : ofString " " = [32] := rfl
  have hopen : ofString "=\"" = [61, 34] := rfl
  have hclose : ofString "\"" = [34] := rfl
  rw [attrCode, hblank, hopen, hclose]
  simp [Spelling.code, spelling]

variable {as : List Attribute} {e : UInt8} {p p' : Parse} {name rest : Bytes}

theorem newTag_written (hopen : p.closed = false) (hname : TagName [] name)
    (h : ∀ a ∈ as, AttrOk a) :
    newTag e p (name ++ (as.flatMap attrCode ++ 62 :: rest)) =
      some (.next (openTag p name (as.map reread)) (62 :: rest)) := by
  have hcode : as.flatMap attrCode = (as.map spelling).flatMap Spelling.code := by
    rw [List.flatMap_map]
    exact List.flatMap_congr fun a _ => (code_spelling a).symm
  have hattr : (as.map spelling).map Spelling.attr = as.map reread := by
    rw [List.map_map]
    rfl
  have hok : ∀ a ∈ as.map spelling, a.Ok := by
    intro a ha
    obtain ⟨x, hx, rfl⟩ := List.mem_map.mp ha
    exact (h x hx).spelling
  have hend : ∀ c, (62 :: rest).head? = some c → endsTagName c = true := by
    intro c hc
    cases hc
    rfl
  rw [hcode, newTag_spelled hopen hname hok hend rfl (Or.inr rfl), hattr]
  rfl

/-! ## Texts -/

def Parse.addText (p : Parse) (v : Bytes) : Parse :=
  match p.stack with
  | [] => p
  | top :: below => { p with stack := { top with txt := top.txt ++ v } :: below }

theorem charContent_ampencode (v : Bytes) :
    charContent p .content (ampencode false v) rest = some (p.addText v, rest) := by
  have hdecode := @decode_ampencode .content false (by decide) (by decide) v rest
  rw [readAs_content, List.map_id] at hdecode
  unfold charContent Parse.addText
  cases hstack : p.stack with
  | nil => rfl
  | cons top below =>
    by_cases hempty : ampencode false v = []
    · have hv : v = [] := by
        rw [hempty] at hdecode
        cases hdecode
        rfl
      subst hv
      simp only [hempty, if_true, List.append_nil, ← hstack]
    · simp only [if_neg hempty, hdecode, Option.map_some]

variable {next : Parse → Bytes → Option Parsed}

theorem resume_ampencode (v : Bytes) :
    resume next p (ampencode false v ++ 60 :: rest) = next (p.addText v) rest := by
  have hmarkup : ∀ c ∈ ampencode false v, decide (c ≠ 60) = true := by
    intro c hc
    rw [decide_eq_true_eq]
    rintro rfl
    exact not_mem_ampencode (by simp) hc
  have htake : (ampencode false v ++ 60 :: rest).takeWhile (· ≠ 60) = ampencode false v :=
    takeWhile_stop hmarkup rfl
  have hdrop : (ampencode false v ++ 60 :: rest).dropWhile (· ≠ 60) = 60 :: rest :=
    dropWhile_stop hmarkup rfl
  rw [resume, htake, hdrop]
  simp only [charContent_ampencode, Option.bind_some]

/-! ## Trees -/

theorem toxmlR_tag (txt : Bytes) (start : Nat) (name : Bytes) (attr : List Attribute)
    (own : Bytes) (off : Nat) (child ordered : Xml) (rest : Bytes) :
    toxmlR txt start (.tag name attr own off child ordered) ++ rest =
      ampencode false
          (if start ≤ off then (txt.drop start).take (off - start) else txt.drop start) ++
        60 :: (name ++ ((written attr [] attr).flatMap attrCode ++ 62 :: (toxmlR own 0 child ++
          60 :: 47 :: (name ++ 62 :: (toxmlR txt (min off txt.length) ordered ++ rest))))) := by
  have hopen : ofString "<" = [60] := rfl
  have hend : ofString "</" = [60, 47] := rfl
  have hclose : ofString ">" = [62] := rfl
  rw [toxmlR, hopen, hend, hclose]
  simp only [List.append_assoc, List.cons_append, List.nil_append]

/-- The tags in a parent are read as its children, and its text as its text. -/
def ReadsAs (e : UInt8) (txt : Bytes) (start : Nat) (x : Xml) : Prop :=
  ∀ (o : Open) (below : List Open) (pi : Instructions) (rest : Bytes), o.txt = txt.take start →
    resume (run e) ⟨o :: below, .null, pi⟩ (toxmlR txt start x ++ 60 :: rest) =
      run e ⟨{ o with txt := txt, children := o.children.append x.reread } :: below, .null, pi⟩ rest

/-- A tag whose children are read, up to what follows its end. -/
theorem run_tag {attr : List Attribute} {own : Bytes} {child : Xml} {stack : List Open}
    {pi : Instructions} (hname : TagName [] name) (hattr : ∀ a ∈ attr, AttrOk a)
    (hchild : ReadsAs e own 0 child) (rest : Bytes) :
    run e ⟨stack, .null, pi⟩ (name ++ ((written attr [] attr).flatMap attrCode ++
        62 :: (toxmlR own 0 child ++ 60 :: 47 :: (name ++ 62 :: rest)))) =
      (closeTag ⟨⟨name, (written attr [] attr).map reread, own,
          (stack.head?.map fun top => top.txt.length).getD 0, child.reread⟩ :: stack, .null, pi⟩
        name).bind fun p => resume (run e) p rest := by
  have hwritten : ∀ a ∈ written attr [] attr, AttrOk a := fun a ha =>
    hattr a (mem_of_mem_written ha)
  have hopen : (Parse.mk stack .null pi).closed = false := by simp [Parse.closed]
  have htag : openTag ⟨stack, .null, pi⟩ name ((written attr [] attr).map reread) =
      ⟨⟨name, (written attr [] attr).map reread, [],
        (stack.head?.map fun top => top.txt.length).getD 0, .null⟩ :: stack, .null, pi⟩ := by
    cases stack <;> rfl
  rw [run_eq, markup_newTag hname, newTag_written hopen hname hwritten, Option.bind_some, htag]
  simp only [List.drop_one, List.tail_cons]
  rw [hchild _ _ _ _ rfl, run_eq]
  have hclose : (closeTag ⟨⟨name, (written attr [] attr).map reread, own,
      (stack.head?.map fun top => top.txt.length).getD 0, child.reread⟩ :: stack, .null, pi⟩
      name).isSome := by cases stack <;> simp [closeTag]
  obtain ⟨p, hp⟩ := Option.isSome_iff_exists.mp hclose
  simp only [Xml.append]
  rw [markup_closingTag hname hp, hp, Option.bind_some, Option.bind_some]
  rfl

theorem readsAs_of_ok {txt : Bytes} {start : Nat} {x : Xml} (h : x.Ok txt start) :
    ReadsAs e txt start x := by
  induction x generalizing txt start with
  | null =>
    intro o below pi rest ho
    have hnull : o.children.append .null = o.children := by
      induction o.children with
      | null => rfl
      | tag name attr own off child ordered _ ih => rw [Xml.append, ih]
    rw [toxmlR, resume_ampencode]
    simp only [Parse.addText, ho, List.take_append_drop, Xml.reread, hnull]
  | tag name attr own off child ordered ihchild ihordered =>
    intro o below pi rest ho
    obtain ⟨hstart, hname, hattr, hown, hchild, hordered⟩ := h
    have hoff : off ≤ txt.length := hordered.le
    have htext : o.txt ++ (txt.drop start).take (off - start) = txt.take off := by
      rw [ho, ← List.take_add, Nat.add_sub_cancel' hstart]
    rw [toxmlR_tag, if_pos hstart, resume_ampencode]
    simp only [Parse.addText, htext]
    rw [run_tag hname hattr (ihchild hchild)]
    simp only [List.head?_cons, Option.map_some, Option.getD_some, closeTag, if_true,
      Option.bind_some, List.length_take, Nat.min_eq_left hoff]
    rw [ihordered hordered _ _ _ _ rfl]
    simp only [Open.addChild, Open.toXml, Xml.append_assoc, Xml.append, Xml.reread]

end ArpgServer.Ezxml
