import ArpgServer.Xml.Parsing

/-!
# The trees of the parser

What the parser returns, for an erroneous text too, is a well-formed tree of C texts: every
tag has a name that can be written as one, and stands in the text of its parent behind the
tags before it.
-/

namespace ArpgServer.Ezxml

open CText Scan

/-! ## Decoded texts -/

theorem toUInt8_ne_zero {n : Nat} (h : n.testBit 7 = true) : n.toUInt8 ≠ 0 := by
  intro hzero
  have hmod : n % 2 ^ 8 = 0 := by
    rw [← UInt8.toNat_inj, Nat.toUInt8_eq, UInt8.toNat_ofNat'] at hzero
    exact hzero
  have hbit := Nat.testBit_mod_two_pow n 8 7
  rw [hmod, h] at hbit
  exact absurd hbit (by decide)

theorem zero_not_mem_multiByte (c : Nat) : 0 ∉ multiByte c := by
  rw [multiByte, List.mem_cons, List.mem_map, not_or]
  constructor
  · refine (toUInt8_ne_zero ?_).symm
    have hmask : ∀ k < 8, (0xFF : Nat).testBit k = true := by decide
    have hmask := hmask (7 - (7 - payload c)) (by omega)
    rw [Nat.testBit_or, Nat.testBit_shiftLeft, hmask]
    simp
  · rintro ⟨k, -, hk⟩
    refine toUInt8_ne_zero ?_ hk
    rw [Nat.testBit_or]
    rfl

variable {t : Mode} {s v rest rest' : Bytes}

theorem zero_not_mem_charRef {n : Nat} (h : charRef s = some (v, n)) : 0 ∉ v := by
  unfold charRef at h
  split at h
  · rename_i c rest hnumber
    split at h
    · cases h
      decide
    · split at h
      · split at h
        · cases h
        · rename_i hmod
          cases h
          rw [List.mem_singleton]
          intro hzero
          have hlt : (c % 256).toNat < 256 := by omega
          rw [← UInt8.toNat_inj, Nat.toUInt8_eq, UInt8.toNat_ofNat', Nat.mod_eq_of_lt hlt] at hzero
          have hpos : (0 : UInt8).toNat = 0 := rfl
          omega
      · split at h
        · cases h
        · cases h
          exact zero_not_mem_multiByte _
  · cases h
    decide

theorem zero_not_mem_decodeText (hs : 0 ∉ s) (h : decodeText t s = some v) : 0 ∉ v := by
  have hturn : ∀ a s' out k, a ∈ s → decodeTurn t a s' = some (out, k) → ∀ b ∈ out, b ≠ 0 := by
    intro a s' out k ha hturn b hb hzero
    subst hzero
    unfold decodeTurn at hturn
    split at hturn
    · split at hturn
      · exact zero_not_mem_charRef hturn hb
      · unfold entityRef at hturn
        split at hturn
        · cases hturn
          exact absurd hb (by decide)
        · obtain ⟨r, hr, hturn⟩ := Option.map_eq_some_iff.mp hturn
          cases hturn
          exact zero_not_mem_charRef hr hb
    · split at hturn
      · cases hturn
        exact absurd hb (by decide)
      · cases hturn
        exact hs (List.mem_singleton.mp hb ▸ ha)
  simp only [decodeText] at h
  split at h
  · cases h
    exact fun hzero => scan_forall hturn 0 0 hzero rfl
  · cases h

theorem zero_not_mem_decode (hs : 0 ∉ s) (h : decode t s rest = some (v, rest')) : 0 ∉ v := by
  obtain ⟨r, -, h⟩ := Option.bind_eq_some_iff.mp h
  obtain ⟨v', hv, h⟩ := Option.map_eq_some_iff.mp h
  cases h
  exact zero_not_mem_decodeText ((Left.normalize s).zero hs) hv

/-! ## Well-formed trees -/

/-- An attribute with a name that can be written and a C text as its value. -/
structure AttrOk (a : Attribute) : Prop where
  name : AttrName [] a.1
  value : ∀ v, a.2 = some v → 0 ∉ v

theorem AttrFrom.ok {a : Attribute} (h : AttrFrom s a) (hs : 0 ∉ s) : AttrOk a where
  name := ⟨h.name.chars, h.name.begins, fun _ => h.name.zero hs⟩
  value := by
    intro v hv
    obtain ⟨w, rest, rest', hdecode, hw⟩ := h.value v hv
    exact zero_not_mem_decode (hw hs) hdecode

theorem TagName.ok {name : Bytes} (h : TagName s name) (hs : 0 ∉ s) : TagName [] name :=
  ⟨h.start, h.chars, fun _ => h.zero hs⟩

/-- The tags that follow one another in a parent with the text `txt` stand in it from `start`
on, in their order. -/
def Xml.Ok (txt : Bytes) : Nat → Xml → Prop
  | start, .null => start ≤ txt.length
  | start, .tag name attr own off child ordered =>
    start ≤ off ∧ TagName [] name ∧ (∀ a ∈ attr, AttrOk a) ∧ 0 ∉ own ∧ child.Ok own 0 ∧
      ordered.Ok txt off

variable {txt own name : Bytes} {attr : List Attribute} {start off : Nat} {x child : Xml}

theorem Xml.Ok.le (h : x.Ok txt start) : start ≤ txt.length := by
  induction x generalizing start with
  | null => exact h
  | tag name attr own off child ordered _ ih => exact Nat.le_trans h.1 (ih h.2.2.2.2.2)

/-- The text of the parent grows. -/
theorem Xml.Ok.grow (h : x.Ok txt start) (more : Bytes) : x.Ok (txt ++ more) start := by
  induction x generalizing start with
  | null =>
    refine Nat.le_trans h ?_
    rw [List.length_append]
    exact Nat.le_add_right _ _
  | tag name attr own off child ordered _ ih =>
    obtain ⟨hstart, hname, hattr, hown, hchild, hordered⟩ := h
    exact ⟨hstart, hname, hattr, hown, hchild, ih hordered⟩

/-- A tag comes last. -/
theorem Xml.Ok.append (h : x.Ok txt start) (hname : TagName [] name)
    (hattr : ∀ a ∈ attr, AttrOk a) (hown : 0 ∉ own) (hchild : child.Ok own 0) :
    (x.append (.tag name attr own txt.length child .null)).Ok txt start := by
  induction x generalizing start with
  | null => exact ⟨h, hname, hattr, hown, hchild, Nat.le_refl _⟩
  | tag name' attr' own' off' child' ordered _ ih =>
    obtain ⟨hstart, hname', hattr', hown', hchild', hordered⟩ := h
    exact ⟨hstart, hname', hattr', hown', hchild', ih hordered⟩

/-- A tree of its own. -/
def Xml.Root (x : Xml) : Prop :=
  x = .null ∨ ∃ name attr txt child, x = .tag name attr txt 0 child .null ∧ x.Ok [] 0

/-! ## The state of the parser -/

structure Open.Ok (o : Open) : Prop where
  name : TagName [] o.name
  attr : ∀ a ∈ o.attr, AttrOk a
  txt : 0 ∉ o.txt
  children : o.children.Ok o.txt 0

/-- Every open tag stands at the end of what its parent holds so far. -/
def StackOk : List Open → Prop
  | [] => True
  | o :: rest =>
    o.Ok ∧ o.off = (rest.head?.map fun parent => parent.txt.length).getD 0 ∧ StackOk rest

structure Parse.Ok (p : Parse) : Prop where
  stack : StackOk p.stack
  tree : p.tree.Root
  alone : p.stack ≠ [] → p.tree = .null

theorem Parse.ok_new : Parse.new.Ok where
  stack := trivial
  tree := Or.inl rfl
  alone := fun _ => rfl

theorem Open.Ok.addChild {o parent : Open} (ho : o.Ok) (hparent : parent.Ok)
    (hoff : o.off = parent.txt.length) : (parent.addChild o.toXml).Ok where
  name := hparent.name
  attr := hparent.attr
  txt := hparent.txt
  children := by
    rw [Open.addChild, Open.toXml, hoff]
    exact hparent.children.append ho.name ho.attr ho.txt ho.children

theorem Open.Ok.root {o : Open} (ho : o.Ok) (hoff : o.off = 0) : o.toXml.Root := by
  refine Or.inr ⟨o.name, o.attr, o.txt, o.children, by rw [Open.toXml, hoff], ?_⟩
  exact ⟨Nat.zero_le _, ho.name, ho.attr, ho.txt, ho.children, by rw [hoff]; exact Nat.le_refl 0⟩

theorem stackOk_addChild {o parent : Open} {rest : List Open} (h : StackOk (o :: parent :: rest)) :
    StackOk (parent.addChild o.toXml :: rest) :=
  ⟨h.1.addChild h.2.2.1 h.2.1, h.2.2.2.1, h.2.2.2.2⟩

theorem root_collapse {o : Open} {rest : List Open} (h : StackOk (o :: rest)) :
    (collapse o rest).Root := by
  induction rest generalizing o with
  | nil => exact h.1.root h.2.1
  | cons parent rest ih => exact ih (stackOk_addChild h)

variable {p p' : Parse} {content : Bytes}

/-- Whatever the state, the tree as it is is well formed. -/
theorem Parse.Ok.root (h : p.Ok) : p.root.Root := by
  unfold Parse.root
  split
  · exact h.tree
  · rename_i hstack
    exact root_collapse (hstack ▸ h.stack)

theorem ok_openTag (h : p.Ok) (hopen : p.closed = false) (hname : TagName [] name)
    (hattr : ∀ a ∈ attr, AttrOk a) : (openTag p name attr).Ok where
  stack := by
    refine ⟨⟨hname, hattr, List.not_mem_nil, Nat.zero_le _⟩, ?_, h.stack⟩
    cases p.stack <;> rfl
  tree := h.tree
  alone := by
    intro _
    by_cases hstack : p.stack = []
    · have htree : p.tree = .null := by simpa [Parse.closed, hstack] using hopen
      exact htree
    · exact h.alone hstack

theorem ok_closeTag (h : p.Ok) (hclose : closeTag p name = some p') : p'.Ok := by
  unfold closeTag at hclose
  split at hclose
  · cases hclose
  · rename_i top rest hstack
    have hok : StackOk (top :: rest) := hstack ▸ h.stack
    have halone : p.tree = .null := h.alone (by rw [hstack]; exact List.cons_ne_nil _ _)
    split at hclose
    · split at hclose
      · cases hclose
        exact ⟨trivial, hok.1.root hok.2.1, fun hne => absurd rfl hne⟩
      · cases hclose
        exact ⟨stackOk_addChild hok, h.tree, fun _ => halone⟩
    · cases hclose

theorem ok_charContent (h : p.Ok) (hcontent : 0 ∉ content)
    (hchar : charContent p t content rest = some (p', rest')) : p'.Ok := by
  unfold charContent at hchar
  split at hchar
  · cases hchar
    exact h
  · rename_i top below hstack
    split at hchar
    · cases hchar
      exact h
    · obtain ⟨⟨v, r⟩, hr, hchar⟩ := Option.map_eq_some_iff.mp hchar
      cases hchar
      have hok : StackOk (top :: below) := hstack ▸ h.stack
      have hv := zero_not_mem_decode hcontent hr
      have halone : p.tree = .null := h.alone (by rw [hstack]; exact List.cons_ne_nil _ _)
      refine ⟨⟨?_, hok.2.1, hok.2.2⟩, h.tree, fun _ => halone⟩
      refine ⟨hok.1.name, hok.1.attr, ?_, hok.1.children.grow v⟩
      rw [List.mem_append, not_or]
      exact ⟨hok.1.txt, hv⟩

theorem ok_procInst (h : p.Ok) : (procInst p content).Ok := by
  simp only [procInst]
  split
  · exact h
  · exact ⟨h.stack, h.tree, h.alone⟩

/-- No piece of markup breaks the tree. -/
theorem Effect.ok (he : Effect s p p') (h : p.Ok) (hs : 0 ∉ s) : p'.Ok := by
  cases he with
  | same => exact h
  | opened hopen hname hattr =>
    exact ok_openTag h hopen (hname.ok hs) fun a ha => (hattr a ha).ok hs
  | emptied hopen hname hattr hclose =>
    exact ok_closeTag (ok_openTag h hopen (hname.ok hs) fun a ha => (hattr a ha).ok hs) hclose
  | closed hclose => exact ok_closeTag h hclose
  | cdata hcontent hchar => exact ok_charContent h (hcontent hs) hchar
  | instruction => exact ok_procInst h

theorem invariant_ok : Invariant Parse.Ok where
  new := Parse.ok_new
  effect := fun he hs h => he.ok h hs
  content := fun hchar hcontent h => ok_charContent h hcontent hchar

/-- Whatever the buffer holds, a tree that the parser returns is well formed. -/
theorem root_ezxmlParseStr {buffer : Bytes} {r : Parsed} (h : ezxmlParseStr buffer = some r) :
    r.tree.Root := by
  obtain ⟨q, hq, htree, -⟩ := invariant_ok.ezxmlParseStr h
  rw [htree]
  exact hq.root

end ArpgServer.Ezxml
