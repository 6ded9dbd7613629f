import ArpgServer.Model.EzxmlRoot
import ArpgServer.Xml.Links

/-!
# The tags the parser links

The parser over linked tags does what the parser over the tree does. It leaves the tree in
memory: its tags stand at addresses in the order of the document, and the links of each tag
thread its children. So `ezxml_get` finds the tag that stands in the tree at a path of names and
indices.
-/

namespace ArpgServer.Ezxml

open CText Linked Search

/-! ## Trees in memory -/

namespace Xml

/-- The number of tags. -/
def size : Xml → Nat
  | null => 0
  | tag _ _ _ _ child ordered => 1 + child.size + ordered.size

/-- The tags that follow one another. -/
def following : Xml → List Xml
  | null => []
  | tag name attr txt off child ordered =>
    tag name attr txt off child ordered :: ordered.following

def label : Xml → Label
  | null => ⟨[], 0⟩
  | tag name _ _ off _ _ => ⟨name, off⟩

/-- The tags that follow one another with their addresses, of which `k` is the first. The
children of a tag come right behind it. -/
def placed : Nat → Xml → List (Nat × Xml)
  | _, null => []
  | k, tag name attr txt off child ordered =>
    (k, tag name attr txt off child ordered) :: ordered.placed (k + 1 + child.size)

def entry (z : Nat × Xml) : Tag := (z.1, z.2.label)

def entries (k : Nat) (x : Xml) : List Tag := (x.placed k).map entry

variable {x y : Xml} {k : Nat}

theorem size_append : (x.append y).size = x.size + y.size := by
  induction x with
  | null => exact (Nat.zero_add _).symm
  | tag name attr txt off child ordered _ ih => simp only [append, size, ih]; omega

theorem entries_append : (x.append y).entries k = x.entries k ++ y.entries (k + x.size) := by
  induction x generalizing k with
  | null => rfl
  | tag name attr txt off child ordered _ ih =>
    have hlimit : k + 1 + child.size + ordered.size = k + (1 + child.size + ordered.size) := by
      omega
    have hrest := @ih (k + 1 + child.size)
    rw [hlimit] at hrest
    exact congrArg (List.cons _) hrest

theorem length_entries_le : (x.entries k).length ≤ x.size := by
  induction x generalizing k with
  | null => exact Nat.le_refl 0
  | tag name attr txt off child ordered _ ih =>
    have hrest := @ih (k + 1 + child.size)
    simp only [entries, placed, List.map_cons, List.length_cons, size] at hrest ⊢
    omega

theorem range_of_mem_entries {z : Tag} (h : z ∈ x.entries k) : k ≤ z.1 ∧ z.1 < k + x.size := by
  induction x generalizing k with
  | null => cases h
  | tag name attr txt off child ordered _ ih =>
    simp only [size]
    rcases List.mem_cons.mp h with rfl | h
    · simp only [entry]
      omega
    · have hrest := ih h
      omega

theorem map_snd_placed : (x.placed k).map Prod.snd = x.following := by
  induction x generalizing k with
  | null => rfl
  | tag name attr txt off child ordered _ ih => exact congrArg (List.cons _) ih

end Xml

/-- What a tag in memory holds, and the children its links lead to. -/
structure Node.Holds (node : Node) (name : Bytes) (attr : List Attribute) (txt : Bytes) (off : Nat)
    (kids : List Tag) : Prop where
  threads : Threads node.links kids
  inside : ∀ z ∈ kids, z.2.off ≤ txt.length
  name : node.name = some name
  attr : node.attr = attr
  txt : node.txt = txt
  off : node.off = off

/-- The tags that follow one another stand in memory, the first one at `k`. -/
def Laid (tags : Nat → Option Node) : Nat → Xml → Prop
  | _, .null => True
  | k, .tag name attr txt off child ordered =>
    (∃ node, tags k = some node ∧ node.Holds name attr txt off (child.entries (k + 1))) ∧
      Laid tags (k + 1) child ∧ Laid tags (k + 1 + child.size) ordered

variable {tags tags' : Nat → Option Node} {k : Nat} {x y : Xml}

theorem Laid.congr (h : Laid tags k x) (hsame : ∀ a, k ≤ a → a < k + x.size → tags' a = tags a) :
    Laid tags' k x := by
  induction x generalizing k with
  | null => trivial
  | tag name attr txt off child ordered ihchild ih =>
    obtain ⟨⟨node, hnode, hholds⟩, hchild, hordered⟩ := h
    simp only [Xml.size] at hsame
    refine ⟨⟨node, ?_, hholds⟩, ihchild hchild fun a hle hlt => ?_, ih hordered fun a hle hlt => ?_⟩
    · rw [hsame k (Nat.le_refl k) (by omega), hnode]
    · exact hsame a (by omega) (by omega)
    · exact hsame a (by omega) (by omega)

theorem laid_append : Laid tags k (x.append y) ↔ Laid tags k x ∧ Laid tags (k + x.size) y := by
  induction x generalizing k with
  | null => exact ⟨fun h => ⟨trivial, h⟩, And.right⟩
  | tag name attr txt off child ordered _ ih =>
    have hlimit : k + 1 + child.size + ordered.size = k + (1 + child.size + ordered.size) := by
      omega
    have hrest := @ih (k + 1 + child.size)
    rw [hlimit] at hrest
    exact (and_congr_right fun _ => and_congr_right fun _ => hrest).trans (by
      simp only [Laid, Xml.size, and_assoc])

/-- Each of the tags stands in memory with what is in it. -/
theorem Laid.placed (h : Laid tags k x) {a : Nat} (hmem : (a, y) ∈ x.placed k) :
    Laid tags a y ∧ y ≠ .null ∧ y.size ≤ x.size := by
  induction x generalizing k with
  | null => cases hmem
  | tag name attr txt off child ordered _ ih =>
    rcases List.mem_cons.mp hmem with heq | hmem
    · cases heq
      exact ⟨h, fun hnull => Xml.noConfusion hnull, Nat.le_refl _⟩
    · obtain ⟨hlaid, hne, hle⟩ := ih h.2.2 hmem
      refine ⟨hlaid, hne, Nat.le_trans hle ?_⟩
      simp only [Xml.size]
      omega

theorem Root.setNode_self (d : Root) (a : Nat) (node : Node) :
    (d.setNode a node).tags a = some node := Function.update_self ..

theorem Root.setNode_of_ne (d : Root) {a b : Nat} (node : Node) (hb : b ≠ a) :
    (d.setNode a node).tags b = d.tags b := Function.update_of_ne hb ..

/-! ## Open tags in memory -/

/-- The first address behind what has been read of a stack of open tags. -/
def limit : List Open → Nat
  | [] => 0
  | o :: rest => limit rest + 1 + o.children.size

/-- The address of the innermost open tag. -/
def home : List Open → Option Nat
  | [] => none
  | _ :: rest => some (limit rest)

/-- The open tags stand in memory, `inner` is what is open in the first one. -/
def Opened (tags : Nat → Option Node) : List Open → List Tag → Prop
  | [], _ => True
  | o :: rest, inner =>
    (∃ node, tags (limit rest) = some node ∧ node.parent = home rest ∧
      node.Holds o.name o.attr o.txt o.off (o.children.entries (limit rest + 1) ++ inner)) ∧
    Laid tags (limit rest + 1) o.children ∧ Opened tags rest [(limit rest, ⟨o.name, o.off⟩)]

variable {o parent : Open} {rest stack : List Open} {inner : List Tag}

theorem Opened.congr (h : Opened tags stack inner)
    (hsame : ∀ a, a < limit stack → tags' a = tags a) : Opened tags' stack inner := by
  induction stack generalizing inner with
  | nil => trivial
  | cons o rest ih =>
    obtain ⟨⟨node, hnode, hparent, hholds⟩, hchildren, hrest⟩ := h
    simp only [limit] at hsame
    refine ⟨⟨node, ?_, hparent, hholds⟩, hchildren.congr fun a _ hlt => hsame a (by omega),
      ih hrest fun a hlt => hsame a (by omega)⟩
    rw [hsame _ (by omega), hnode]

/-- The root tag is open, so it has its name. -/
theorem Opened.root (h : Opened tags (o :: rest) inner) :
    ∃ node, tags 0 = some node ∧ node.name.isSome := by
  induction rest generalizing o inner with
  | nil =>
    obtain ⟨⟨node, hnode, -, hholds⟩, -, -⟩ := h
    exact ⟨node, hnode, by rw [hholds.name]; rfl⟩
  | cons parent rest ih => exact ih h.2.2

theorem limit_addChild :
    limit (parent.addChild o.toXml :: rest) = limit (o :: parent :: rest) := by
  simp only [limit, Open.addChild, Open.toXml, Xml.size_append, Xml.size]
  omega

/-- A tag that is closed stands among the children of its parent. -/
theorem Opened.close (h : Opened tags (o :: parent :: rest) []) :
    Opened tags (parent.addChild o.toXml :: rest) [] := by
  obtain ⟨⟨node, hnode, -, hholds⟩, hchildren, ⟨outer, houter, hparent, hheld⟩, hlaid, hrest⟩ := h
  rw [List.append_nil] at hholds
  have hentries : (parent.addChild o.toXml).children.entries (limit rest + 1) =
      parent.children.entries (limit rest + 1) ++ [(limit (parent :: rest), ⟨o.name, o.off⟩)] :=
    Xml.entries_append
  refine ⟨⟨outer, houter, hparent, ?_⟩, laid_append.mpr ⟨hlaid, ?_⟩, hrest⟩
  · rw [List.append_nil, hentries]
    exact hheld
  · exact ⟨⟨node, hnode, hholds⟩, hchildren, trivial⟩

/-- All open tags stand in memory as the tree shows them. -/
theorem Opened.collapse (h : Opened tags (o :: rest) []) :
    Laid tags 0 (Ezxml.collapse o rest) ∧ Ezxml.collapse o rest ≠ .null ∧
      (Ezxml.collapse o rest).size = limit (o :: rest) := by
  induction rest generalizing o with
  | nil =>
    obtain ⟨⟨node, hnode, -, hholds⟩, hchildren, -⟩ := h
    rw [List.append_nil] at hholds
    refine ⟨⟨⟨node, hnode, hholds⟩, hchildren, trivial⟩, fun hnull => Xml.noConfusion hnull, ?_⟩
    simp only [Ezxml.collapse, Open.toXml, Xml.size, limit]
    omega
  | cons parent rest ih =>
    obtain ⟨hlaid, hne, hsize⟩ := ih h.close
    exact ⟨hlaid, hne, hsize.trans limit_addChild⟩

/-- The state of the parser over linked tags stands for one of the parser over the tree. -/
inductive Represents (d : Root) : Parse → Prop
  | blank (htag : d.tags 0 = some Root.blank) (hcur : d.cur = some 0) (hsize : d.size = 1) :
      Represents d ⟨[], .null, d.pi⟩
  | inside (o : Open) (rest : List Open) (hopen : Opened d.tags (o :: rest) [])
      (hcur : d.cur = home (o :: rest)) (hsize : d.size = limit (o :: rest)) :
      Represents d ⟨o :: rest, .null, d.pi⟩
  | closed (x : Xml) (hx : x ≠ .null) (hlaid : Laid d.tags 0 x) (hcur : d.cur = none)
      (hsize : d.size = x.size) : Represents d ⟨[], x, d.pi⟩

/-- What has been read stands in memory. -/
structure Standing (d : Root) (x : Xml) : Prop where
  blank : x = .null → d.tags 0 = some Root.blank ∧ d.size = 1
  laid : x ≠ .null → Laid d.tags 0 x ∧ d.size = x.size

variable {d : Root} {p : Parse} {name content : Bytes} {attr : List Attribute} {e : UInt8}
  {s : Bytes}

/-- A new tag in the one at `a`, whose links become `links`. -/
theorem Root.openTag_child (attr : List Attribute) {a : Nat} {node : Node} {outer : Bytes}
    {links : Links} (hcur : d.cur = some a) (hnode : d.tags a = some node)
    (hname : node.name = some outer)
    (hinsert : node.links.ezxmlInsert d.size d.size ⟨name, node.txt.length⟩ = some links)
    (ha : a < d.size) : ∃ d', d.openTag name attr = some d' ∧ d'.pi = d.pi ∧
      d'.size = d.size + 1 ∧ d'.cur = some d.size ∧
      d'.tags d.size = some ⟨some name, attr, [], node.txt.length, some a, .empty⟩ ∧
      d'.tags a = some { node with links := links } ∧
      ∀ b, b < d.size → b ≠ a → d'.tags b = d.tags b := by
  have hopen : d.openTag name attr = d.addChild a node name attr node.txt.length := by
    simp only [openTag, hcur, Option.bind_some, hnode, hname]
  rw [hopen, addChild, hinsert]
  refine ⟨_, rfl, rfl, rfl, rfl, setNode_self .., ?_, fun b hb hba => ?_⟩
  · exact (setNode_of_ne _ _ (Nat.ne_of_lt ha)).trans (setNode_self ..)
  · exact (setNode_of_ne _ _ (Nat.ne_of_lt hb)).trans (setNode_of_ne _ _ hba)

namespace Represents

theorem new : Represents Root.new Parse.new := .blank rfl rfl rfl

theorem pi (h : Represents d p) : d.pi = p.pi := by
  cases h <;> rfl

theorem standing (h : Represents d p) : Standing d p.root := by
  cases h with
  | blank htag hcur hsize => exact ⟨fun _ => ⟨htag, hsize⟩, fun hne => (hne rfl).elim⟩
  | inside o rest hopen hcur hsize =>
    obtain ⟨hlaid, hne, hlimit⟩ := hopen.collapse
    exact ⟨fun hnull => (hne hnull).elim, fun _ => ⟨hlaid, hsize.trans hlimit.symm⟩⟩
  | closed x hx hlaid hcur hsize => exact ⟨fun hnull => (hx hnull).elim, fun _ => ⟨hlaid, hsize⟩⟩

theorem closed_iff (h : Represents d p) : p.closed = true ↔ d.cur = none := by
  cases h with
  | blank htag hcur hsize => simp [Parse.closed, hcur]
  | inside o rest hopen hcur hsize => simp [Parse.closed, hcur, home]
  | closed x hx hlaid hcur hsize => simp [Parse.closed, hcur, hx]

/-! ### Tags -/

theorem openTag (h : Represents d p) (hcur : d.cur ≠ none) (name : Bytes) (attr : List Attribute) :
    ∃ d', d.openTag name attr = some d' ∧ Represents d' (Ezxml.openTag p name attr) := by
  cases h with
  | blank htag hzero hsize =>
    refine ⟨_, by simp only [Root.openTag, hzero, Option.bind_some, htag]; rfl, ?_⟩
    refine .inside _ [] ⟨⟨_, d.setNode_self 0 _, rfl, ?_⟩, trivial, trivial⟩ hzero hsize
    exact ⟨threads_empty, fun z hz => (List.not_mem_nil hz).elim, rfl, rfl, rfl, rfl⟩
  | inside o rest hopen hhome hsize =>
    obtain ⟨⟨node, hnode, hparent, hholds⟩, hchildren, hrest⟩ := hopen
    rw [List.append_nil] at hholds
    have hlimit : d.size = limit rest + 1 + o.children.size := hsize
    have hfresh : d.size ∉ (o.children.entries (limit rest + 1)).map Prod.fst := by
      intro hmem
      obtain ⟨z, hz, hzsize⟩ := List.mem_map.mp hmem
      have hrange := Xml.range_of_mem_entries hz
      omega
    have hfuel : (o.children.entries (limit rest + 1)).length < d.size := by
      have hle := @Xml.length_entries_le o.children (limit rest + 1)
      omega
    obtain ⟨links, hinsert, hthreads⟩ :=
      hholds.threads.insert (x := ⟨name, o.txt.length⟩) hfresh hfuel
    rw [place_eq_append hholds.inside] at hthreads
    obtain ⟨d', hopen, hpi, hsize', hcur', hnew, hold, hsame⟩ :=
      Root.openTag_child attr hhome hnode hholds.name (by rw [hholds.txt]; exact hinsert)
        (by omega)
    refine ⟨d', hopen, ?_⟩
    rw [hholds.txt] at hnew
    rw [Ezxml.openTag, ← hpi]
    have htags : Opened d'.tags (o :: rest) [(limit (o :: rest), ⟨name, o.txt.length⟩)] := by
      refine ⟨⟨_, hold, hparent, hsize ▸ ⟨hthreads, ?_, hholds.name, hholds.attr, hholds.txt,
        hholds.off⟩⟩, hchildren.congr fun a hle hlt => ?_, hrest.congr fun a hlt => ?_⟩
      · intro z hz
        rcases List.mem_append.mp hz with hz | hz
        · exact hholds.inside z hz
        · rw [List.mem_singleton.mp hz]
      · exact hsame a (by omega) (by omega)
      · exact hsame a (by omega) (by omega)
    refine .inside _ (o :: rest) ⟨⟨_, hsize ▸ hnew, rfl, ?_⟩, trivial, htags⟩ ?_ ?_
    · exact ⟨threads_empty, fun z hz => (List.not_mem_nil hz).elim, rfl, rfl, rfl, rfl⟩
    · rw [hcur', hsize]
      rfl
    · rw [hsize', hsize]
      rfl
  | closed x hx hlaid hnone hsize => exact (hcur hnone).elim

theorem closeTag (h : Represents d p) (name : Bytes) : ∃ r, d.closeTag name = some r ∧
    Option.Rel Represents r (Ezxml.closeTag p name) := by
  cases h with
  | blank htag hzero hsize =>
    exact ⟨none, by simp [Root.closeTag, hzero, htag, Root.blank], .none⟩
  | inside o rest hopen hhome hsize =>
    obtain ⟨⟨node, hnode, hparent, hholds⟩, -, -⟩ := id hopen
    by_cases hname : o.name = name
    · refine ⟨some { d with cur := home rest }, ?_, ?_⟩
      · simp [Root.closeTag, hhome, home, hnode, hholds.name, hname, hparent]
      · cases rest with
        | nil =>
          obtain ⟨hlaid, hne, hlimit⟩ := hopen.collapse
          rw [Ezxml.closeTag]
          simp only [if_pos hname]
          exact .some (.closed _ hne hlaid rfl (hsize.trans hlimit.symm))
        | cons parent rest =>
          rw [Ezxml.closeTag]
          simp only [if_pos hname]
          exact .some (.inside _ rest hopen.close rfl (hsize.trans limit_addChild.symm))
    · refine ⟨none, ?_, ?_⟩
      · simp [Root.closeTag, hhome, home, hnode, hholds.name, hname]
      · rw [Ezxml.closeTag]
        simp only [if_neg hname]
        exact .none
  | closed x hx hlaid hnone hsize => exact ⟨none, by simp only [Root.closeTag, hnone], .none⟩

/-! ### Texts and instructions -/

theorem charContent (h : Represents d p) (t : Mode) (content rest : Bytes) :
    Option.Rel (fun x y => Represents x.1 y.1 ∧ x.2 = y.2) (d.charContent t content rest)
      (Ezxml.charContent p t content rest) := by
  have hsame := h
  cases h with
  | blank htag hzero hsize =>
    have hname : Root.blank.name = none := rfl
    simp only [Root.charContent, hzero, htag, Option.bind_some, hname, true_or, if_true]
    exact .some ⟨hsame, rfl⟩
  | inside o below hopen hhome hsize =>
    obtain ⟨⟨node, hnode, hparent, hholds⟩, hchildren, hrest⟩ := hopen
    simp only [Root.charContent, hhome, home, hnode, Option.bind_some, hholds.name, reduceCtorEq,
      false_or, Ezxml.charContent]
    by_cases hcontent : content = []
    · rw [if_pos hcontent, if_pos hcontent]
      exact .some ⟨hsame, rfl⟩
    rw [if_neg hcontent, if_neg hcontent]
    cases decode t content rest with
    | none => exact .none
    | some r =>
      refine .some ⟨.inside _ below ⟨⟨_, d.setNode_self _ _, hparent, ?_⟩, ?_, ?_⟩ hhome hsize, rfl⟩
      · refine ⟨hholds.threads, fun z hz => ?_, rfl, hholds.attr, ?_, hholds.off⟩
        · have hle := hholds.inside z hz
          rw [List.length_append]
          omega
        · rw [← hholds.txt]
      · exact hchildren.congr fun a hle hlt => d.setNode_of_ne _ (by omega)
      · exact hrest.congr fun a hlt => d.setNode_of_ne _ (Nat.ne_of_lt hlt)
  | closed x hx hlaid hnone hsize =>
    simp only [Root.charContent, hnone]
    exact .some ⟨hsame, rfl⟩

/-- The instructions are no part of what stands in memory. -/
theorem withPi (h : Represents d p) (pi : Instructions) :
    Represents { d with pi := pi } { p with pi := pi } := by
  cases h with
  | blank htag hcur hsize => exact .blank htag hcur hsize
  | inside o rest hopen hcur hsize => exact .inside o rest hopen hcur hsize
  | closed x hx hlaid hcur hsize => exact .closed x hx hlaid hcur hsize

/-- The root tag has its name from when it is opened. -/
theorem root (h : Represents d p) : ∃ node, d.tags 0 = some node ∧
    node.name.isSome = (!p.stack.isEmpty || p.closed) := by
  cases h with
  | blank htag hcur hsize => exact ⟨_, htag, rfl⟩
  | inside o rest hopen hcur hsize => exact hopen.root
  | closed x hx hlaid hcur hsize =>
    cases x with
    | null => exact (hx rfl).elim
    | tag name attr txt off child ordered =>
      obtain ⟨⟨node, hnode, hholds⟩, -, -⟩ := hlaid
      exact ⟨node, hnode, by rw [hholds.name]; rfl⟩

theorem procInst (h : Represents d p) (s : Bytes) :
    ∃ d', d.procInst s = some d' ∧ Represents d' (Ezxml.procInst p s) := by
  obtain ⟨node, hnode, hname⟩ := h.root
  rw [Root.procInst, Ezxml.procInst]
  split
  · exact ⟨d, rfl, h⟩
  · rw [hnode, Option.map_some, hname, h.pi]
    exact ⟨_, rfl, h.withPi _⟩

end Represents

/-! ## The parser -/

/-- Both parsers stop with one error, or go on with one text. -/
inductive Outcome.Agrees : Outcome Root → Outcome Parse → Prop
  | stop (err : Error) : Agrees (.stop err) (.stop err)
  | next {d : Root} {p : Parse} (h : Represents d p) (s : Bytes) : Agrees (.next d s) (.next p s)

namespace Represents

theorem tagEnd (h : Represents d p) (hcur : d.cur ≠ none) (e : UInt8) (name : Bytes)
    (attr : List Attribute) (s : Bytes) : ∃ r, d.tagEnd e name attr s = some r ∧
      r.Agrees (Ezxml.tagEnd e p name attr s) := by
  obtain ⟨d', hopen, h'⟩ := h.openTag hcur name attr
  cases s with
  | nil =>
    rw [Root.tagEnd, Ezxml.tagEnd, hopen]
    split
    · exact ⟨_, rfl, .next h' []⟩
    · exact ⟨_, rfl, .stop _⟩
  | cons b s =>
    rw [Root.tagEnd, Ezxml.tagEnd, hopen]
    split
    · split
      · obtain ⟨r, hclose, hrel⟩ := h'.closeTag name
        rw [Option.bind_some, hclose]
        generalize Ezxml.closeTag (Ezxml.openTag p name attr) name = out at hrel ⊢
        cases hrel with
        | none => exact ⟨_, rfl, .stop _⟩
        | some h'' => exact ⟨_, rfl, .next h'' s⟩
      · exact ⟨_, rfl, .stop _⟩
    · exact ⟨_, rfl, .next h' (b :: s)⟩

theorem newTag (h : Represents d p) (e : UInt8) (s : Bytes) :
    Option.Rel Outcome.Agrees (d.newTag e s) (Ezxml.newTag e p s) := by
  rw [Root.newTag, Ezxml.newTag]
  by_cases hcur : d.cur = none
  · rw [if_pos hcur, if_pos (h.closed_iff.mpr hcur)]
    exact .some (.stop _)
  rw [if_neg hcur, if_neg fun hclosed => hcur (h.closed_iff.mp hclosed)]
  dsimp only
  generalize attributes _ _ = parsed
  cases parsed with
  | none => exact .none
  | some r =>
    cases r with
    | error err => exact .some (.stop err)
    | ok r =>
      obtain ⟨out, hout, hagrees⟩ := h.tagEnd hcur e (s.takeWhile fun b => !endsTagName b) r.1 r.2
      change Option.Rel _ (d.tagEnd e _ r.1 r.2) _
      rw [hout]
      exact .some hagrees

theorem closingTag (h : Represents d p) (e : UInt8) (s : Bytes) : ∃ r,
    d.closingTag e s = some r ∧ r.Agrees (Ezxml.closingTag e p s) := by
  rw [Root.closingTag, Ezxml.closingTag]
  split
  · exact ⟨_, rfl, .stop _⟩
  · obtain ⟨r, hclose, hrel⟩ := h.closeTag (s.takeWhile fun b => !(isWs b || b = 62))
    rw [hclose]
    generalize Ezxml.closeTag p _ = out at hrel ⊢
    cases hrel with
    | none => exact ⟨_, rfl, .stop _⟩
    | some h' => exact ⟨_, rfl, .next h' _⟩

theorem comment (h : Represents d p) (e : UInt8) (s : Bytes) :
    (Ezxml.comment e d s).Agrees (Ezxml.comment e p s) := by
  rw [Ezxml.comment, Ezxml.comment]
  cases search (ofString "--") s with
  | none => exact .stop _
  | some rest =>
    dsimp only
    split
    · exact .next h _
    · exact .stop _

theorem cdata (h : Represents d p) (s : Bytes) :
    Option.Rel Outcome.Agrees (d.cdata s) (Ezxml.cdata p s) := by
  rw [Root.cdata, Ezxml.cdata]
  cases search (ofString "]]>") s with
  | none => exact .some (.stop _)
  | some rest =>
    have hrel := h.charContent .cdata (s.take (s.length - rest.length)) (rest.drop 2)
    dsimp only
    generalize Root.charContent d _ _ _ = r, Ezxml.charContent p _ _ _ = r' at hrel ⊢
    cases hrel with
    | none => exact .none
    | some hrel =>
      obtain ⟨hd, hrest⟩ := hrel
      rw [Option.map_some, Option.map_some, hrest]
      exact .some (.next hd _)

theorem doctype (h : Represents d p) (e : UInt8) (s : Bytes) :
    Option.Rel Outcome.Agrees (Ezxml.doctype e d s) (Ezxml.doctype e p s) := by
  rw [Ezxml.doctype, Ezxml.doctype]
  cases s.dropWhile fun b => b ≠ 91 && b ≠ 62 with
  | nil =>
    dsimp only
    split
    · exact .some (.next h _)
    · exact .some (.stop _)
  | cons b rest =>
    dsimp only
    split
    · exact .none
    · exact .some (.next h _)

theorem instruction (h : Represents d p) (e : UInt8) (s : Bytes) :
    Option.Rel Outcome.Agrees (d.instruction e s) (Ezxml.instruction e p s) := by
  cases s with
  | nil =>
    rw [Root.instruction, Ezxml.instruction]
    split
    · exact .none
    · exact .some (.stop _)
  | cons b s =>
    rw [Root.instruction, Ezxml.instruction]
    split
    · exact .none
    cases instructionEnd (b :: s) with
    | none => exact .some (.stop _)
    | some r =>
      dsimp only
      split
      · exact .some (.stop _)
      · obtain ⟨d', hd', h'⟩ := h.procInst r.1
        rw [hd']
        exact .some (.next h' r.2)

theorem markup (h : Represents d p) (e : UInt8) (s : Bytes) :
    Option.Rel Outcome.Agrees (d.markup e s) (Ezxml.markup e p s) := by
  rw [Root.markup, Ezxml.markup]
  split
  · exact h.newTag e s
  split
  · obtain ⟨r, hr, hagrees⟩ := h.closingTag e (s.drop 1)
    rw [hr]
    exact .some hagrees
  split
  · exact .some (h.comment e _)
  split
  · exact h.cdata _
  split
  · exact h.doctype e _
  split
  · exact h.instruction e _
  · exact .some (.stop _)

end Represents

/-- Both parsers end with one error and the same instructions, and the tree stands in memory. -/
structure Ended (x : Root × Option Error) (r : Parsed) : Prop where
  err : x.2 = r.err
  pi : x.1.pi = r.pi
  standing : Standing x.1 r.tree

namespace Represents

theorem stop (h : Represents d p) (err : Error) : Ended (d, some err) (p.stop err) :=
  ⟨rfl, h.pi, h.standing⟩

theorem finish (h : Represents d p) : ∃ x, d.finish = some x ∧ Ended x p.finish := by
  have hpi := h.pi
  have hstanding := h.standing
  cases h with
  | blank htag hcur hsize =>
    exact ⟨(d, some .rootMissing), by simp only [Root.finish, hcur, htag]; rfl, rfl, hpi, hstanding⟩
  | inside o rest hopen hcur hsize =>
    obtain ⟨⟨node, hnode, -, hholds⟩, -, -⟩ := hopen
    refine ⟨(d, some (.unclosedTag o.name)), ?_, rfl, hpi, hstanding⟩
    simp only [Root.finish, hcur, home, hnode, Option.map_some, hholds.name]
  | closed x hx hlaid hcur hsize =>
    refine ⟨(d, none), by simp only [Root.finish, hcur], ?_, hpi, hstanding⟩
    simp [Parse.finish, Parse.closed, hx]

theorem parseLoop (h : Represents d p) (e : UInt8) (n : Nat) (s : Bytes) :
    Option.Rel Ended (d.parseLoop e n s) (Ezxml.parseLoop e n p s) := by
  induction n generalizing d p s with
  | zero => exact .none
  | succ n ih =>
    rw [Root.parseLoop, Ezxml.parseLoop]
    have hmarkup := h.markup e s
    generalize Root.markup e d s = out, Ezxml.markup e p s = out' at hmarkup ⊢
    cases hmarkup with
    | none => exact .none
    | some hagrees =>
      cases hagrees with
      | stop err => exact .some (h.stop err)
      | next h' s' =>
        simp only [Option.bind_some]
        cases (s'.drop 1).dropWhile (· ≠ 60) with
        | nil =>
          obtain ⟨x, hx, hended⟩ := h'.finish
          dsimp only
          rw [hx]
          exact .some hended
        | cons b rest =>
          have hrel := h'.charContent .content ((s'.drop 1).takeWhile (· ≠ 60)) rest
          dsimp only
          generalize Root.charContent _ _ _ _ = r, Ezxml.charContent _ _ _ _ = r' at hrel ⊢
          cases hrel with
          | none => exact .none
          | some hrel =>
            obtain ⟨hd, hrest⟩ := hrel
            rw [Option.bind_some, Option.bind_some, hrest]
            exact ih hd _

end Represents

theorem parseText_ended (e : UInt8) (text : Bytes) :
    Option.Rel Ended (Root.parseText e text) (parseText e text) := by
  rw [Root.parseText, parseText]
  cases text.dropWhile (· ≠ 60) with
  | nil => exact .some (Represents.new.stop _)
  | cons b s => exact Represents.new.parseLoop e _ _

theorem ezxmlParseStr_ended (buffer : Bytes) :
    Option.Rel Ended (Root.ezxmlParseStr buffer) (ezxmlParseStr buffer) := by
  rw [Root.ezxmlParseStr, ezxmlParseStr]
  split
  · exact .some (Represents.new.stop _)
  · cases (str2utf8 buffer).getLast? with
    | none => exact .none
    | some e => exact parseText_ended e _

/-! ## Reading -/

/-- The tag that stands in a tree at a path of names, each with an index among the children of
that name. -/
def Xml.get : Xml → List (Bytes × Nat) → Xml
  | x, [] => x
  | x, (name, idx) :: path =>
    ((x.child.following.filter fun y => y.label.name = name)[idx]?.getD .null).get path

/-- What is found in memory is a tag of the tree, and its children follow one another through
`child` and `ordered` as they do in the tree. The root tag has no name before it is opened. -/
def Root.Shows (d : Root) : Option Nat → Xml → Prop
  | none, x => x = .null
  | some a, .null => ∃ node, d.tags a = some node ∧ node.name = none
  | some a, .tag name attr txt off child _ => ∃ node kids, d.tags a = some node ∧
    node.name = some name ∧ node.attr = attr ∧ node.txt = txt ∧ node.off = off ∧
    Chain node.links.ordered node.links.child kids none ∧
    kids.map Prod.snd = child.following.map Xml.label

theorem Xml.null_get (path : List (Bytes × Nat)) : Xml.null.get path = .null := by
  induction path with
  | nil => rfl
  | cons z path ih => exact ih

theorem Root.ezxmlGet_none (d : Root) (path : List (Bytes × Nat)) :
    d.ezxmlGet none path = some none := by
  cases path <;> rfl

theorem Xml.map_label_entries : (x.entries k).map Prod.snd = x.following.map label := by
  rw [← @map_snd_placed x k, entries, List.map_map, List.map_map]
  rfl

/-- The tags of a name, by their addresses and in the tree. -/
theorem Xml.filter_entries (name : Bytes) (idx : Nat) :
    ((x.entries k).filter (named name))[idx]?.map Prod.fst =
        ((x.placed k).filter fun z => z.2.label.name = name)[idx]?.map Prod.fst ∧
      (x.following.filter fun y => y.label.name = name)[idx]? =
        ((x.placed k).filter fun z => z.2.label.name = name)[idx]?.map Prod.snd := by
  constructor
  · rw [entries, List.filter_map, List.getElem?_map, Option.map_map]
    rfl
  · rw [← @map_snd_placed x k, List.filter_map, List.getElem?_map]
    rfl

theorem Laid.get (h : Laid d.tags k x) (hx : x ≠ .null) (hsize : x.size ≤ d.size)
    {path : List (Bytes × Nat)} (hpath : ∀ step ∈ path, step.1 ≠ []) :
    ∃ found, d.ezxmlGet (some k) path = some found ∧ d.Shows found (x.get path) := by
  induction path generalizing k x with
  | nil =>
    refine ⟨some k, rfl, ?_⟩
    cases x with
    | null => exact (hx rfl).elim
    | tag name attr txt off child ordered =>
      obtain ⟨⟨node, hnode, hholds⟩, -, -⟩ := h
      exact ⟨node, _, hnode, hholds.name, hholds.attr, hholds.txt, hholds.off,
        hholds.threads.ordered, Xml.map_label_entries⟩
  | cons step path ih =>
    obtain ⟨name, idx⟩ := step
    have hname : name ≠ [] := hpath _ List.mem_cons_self
    cases x with
    | null => exact (hx rfl).elim
    | tag name' attr txt off child ordered =>
      obtain ⟨⟨node, hnode, hholds⟩, hchild, -⟩ := h
      have hle : child.size < d.size := by
        simp only [Xml.size] at hsize
        omega
      have hfuel := Nat.lt_of_le_of_lt (@Xml.length_entries_le child (k + 1)) hle
      obtain ⟨haddress, htree⟩ := @Xml.filter_entries (k + 1) child name idx
      have hget := hholds.threads.ezxmlGet hfuel name idx
      rw [haddress] at hget
      simp only [Root.ezxmlGet, if_neg hname, hnode, Option.bind_some, hget, Xml.get, Xml.child,
        htree]
      cases hfound : ((child.placed (k + 1)).filter fun z => z.2.label.name = name)[idx]? with
      | none =>
        refine ⟨none, d.ezxmlGet_none path, ?_⟩
        exact Xml.null_get path
      | some z =>
        have hmem := (List.mem_filter.mp (List.mem_of_getElem? hfound)).1
        obtain ⟨hlaid, hne, hzsize⟩ := hchild.placed hmem
        exact ih hlaid hne (Nat.le_trans hzsize (Nat.le_of_lt hle)) fun step hmem =>
          hpath step (List.mem_cons_of_mem _ hmem)

theorem Standing.get (h : Standing d x) {path : List (Bytes × Nat)}
    (hpath : ∀ step ∈ path, step.1 ≠ []) :
    ∃ found, d.ezxmlGet (some 0) path = some found ∧ d.Shows found (x.get path) := by
  by_cases hx : x = .null
  · subst hx
    obtain ⟨htag, hsize⟩ := h.blank rfl
    rw [Xml.null_get]
    cases path with
    | nil => exact ⟨some 0, rfl, Root.blank, htag, rfl⟩
    | cons step path =>
      refine ⟨none, ?_, rfl⟩
      have hfuel : ([] : List Tag).length < 1 := Nat.one_pos
      have hget := threads_empty.ezxmlGet hfuel step.1 step.2
      simp only [Root.ezxmlGet, if_neg (hpath _ List.mem_cons_self), htag, Option.bind_some, hsize,
        Root.blank, hget]
      exact d.ezxmlGet_none path
  · obtain ⟨hlaid, hsize⟩ := h.laid hx
    exact hlaid.get hx (Nat.le_of_eq hsize.symm) hpath

/-- **The tags in memory.** For every buffer the parser over linked tags ends as the parser over
the tree does, and from the root tag it leaves `ezxml_get` finds the tag that stands in the tree
at any path of names and indices, with its children in their order. -/
theorem document_links {buffer : Bytes} {r : Parsed} (h : ezxmlParseStr buffer = some r) :
    ∃ d, Root.ezxmlParseStr buffer = some (d, r.err) ∧ d.pi = r.pi ∧
      ∀ path : List (Bytes × Nat), (∀ step ∈ path, step.1 ≠ []) → ∃ found,
        d.ezxmlGet (some 0) path = some found ∧ d.Shows found (r.tree.get path) := by
  have hended := ezxmlParseStr_ended buffer
  rw [h] at hended
  generalize hout : Root.ezxmlParseStr buffer = out at hended
  cases hended with
  | some hended =>
    rename_i x
    obtain ⟨d, err⟩ := x
    obtain rfl := hended.err
    exact ⟨d, rfl, hended.pi, fun _ => hended.standing.get⟩

/-- The second `a` in `b`, which follows another `a`. -/
theorem document_links_nested : ∃ d a node,
    Root.ezxmlParseStr (ofString "<e><a/>x<b><a/><a>k</a></b><a>q</a></e>\x00") = some (d, none) ∧
      d.ezxmlGet (some 0) [(ofString "b", 0), (ofString "a", 1)] = some (some a) ∧
      d.tags a = some node ∧ node.txt = ofString "k" := by
  have hcheck : (ezxmlParseStr (ofString "<e><a/>x<b><a/><a>k</a></b><a>q</a></e>\x00")).any
      (fun r => r.err = none ∧
        (r.tree.get [(ofString "b", 0), (ofString "a", 1)]).txt? = some (ofString "k")) := by
    decide +kernel
  obtain ⟨r, hr, hcheck⟩ := (Option.any_eq_true _ _).mp hcheck
  obtain ⟨herr, htxt⟩ := of_decide_eq_true hcheck
  obtain ⟨d, hd, -, hget⟩ := document_links hr
  obtain ⟨found, hfound, hshows⟩ := hget [(ofString "b", 0), (ofString "a", 1)] (by decide)
  rw [herr] at hd
  generalize r.tree.get [(ofString "b", 0), (ofString "a", 1)] = x at htxt hshows
  cases x with
  | null => cases htxt
  | tag name attr txt off child ordered =>
    cases found with
    | none => cases hshows
    | some a =>
      obtain ⟨node, -, hnode, -, -, hnodeTxt, -⟩ := hshows
      exact ⟨d, a, node, hd, hfound, hnode, hnodeTxt.trans (Option.some.inj htxt)⟩

end ArpgServer.Ezxml
