import ArpgServer.Model.Ezxml
import ArpgServer.Model.EzxmlLinks

/-!
# The parser over linked tags (`ezxml.c`)

`ezxml_parse_str` as it works in memory: `root->cur` is the tag that is open, a new tag is
inserted among the tags of `root->cur`, and closing a tag leads back to its parent. The text is
read as in `ArpgServer.Model.Ezxml`. `none` is a pointer to a tag that is not there, or what is
left out of that model.
-/

namespace ArpgServer.Ezxml

open CText Search

/-- `struct ezxml`. The name of the root tag is `NULL` until it is opened. `links` holds `child`
and what `ordered`, `next` and `sibling` of the tags in this one lead to. -/
structure Node where
  name : Option Bytes
  attr : List Attribute
  txt : Bytes
  off : Nat
  parent : Option Nat
  links : Links

/-- `ezxml_root_t`: the tags at their addresses, of which the first `size` are allocated, and
`cur`. The root tag is at address 0. -/
structure Root where
  tags : Nat → Option Node
  size : Nat
  cur : Option Nat
  pi : Instructions

namespace Root

/-- The root tag before it is opened. -/
def blank : Node :=
  { name := none, attr := [], txt := [], off := 0, parent := none, links := .empty }

/-- `ezxml_new (NULL)`. -/
def new : Root where
  tags := Function.update (fun _ => none) 0 (some blank)
  size := 1
  cur := some 0
  pi := []

def setNode (d : Root) (a : Nat) (node : Node) : Root :=
  { d with tags := Function.update d.tags a (some node) }

/-- `ezxml_add_child`, with the attributes that `ezxml_open_tag` gives the new tag. -/
def addChild (d : Root) (a : Nat) (node : Node) (name : Bytes) (attr : List Attribute) (off : Nat) :
    Option Root :=
  (node.links.ezxmlInsert d.size d.size ⟨name, off⟩).map fun links =>
    { (d.setNode a { node with links := links }).setNode d.size
        { name := some name, attr := attr, txt := [], off := off, parent := some a,
          links := .empty } with
      size := d.size + 1
      cur := some d.size }

/-- `ezxml_open_tag`. -/
def openTag (d : Root) (name : Bytes) (attr : List Attribute) : Option Root :=
  d.cur.bind fun a =>
    (d.tags a).bind fun node =>
      match node.name with
      | some _ => d.addChild a node name attr node.txt.length
      | none => some (d.setNode a { node with name := some name, attr := attr })

/-- `ezxml_close_tag`; the inner `none` is its error. -/
def closeTag (d : Root) (name : Bytes) : Option (Option Root) :=
  match d.cur with
  | none => some none
  | some a => (d.tags a).map fun node =>
    if node.name = some name then some { d with cur := node.parent } else none

/-- `ezxml_char_content`. -/
def charContent (d : Root) (t : Mode) (content rest : Bytes) : Option (Root × Bytes) :=
  match d.cur with
  | none => some (d, rest)
  | some a => (d.tags a).bind fun node =>
    if node.name = none ∨ content = [] then some (d, rest)
    else (decode t content rest).map fun r =>
      (d.setNode a { node with txt := node.txt ++ r.1 }, r.2)

/-- `ezxml_proc_inst`. -/
def procInst (d : Root) (s : Bytes) : Option Root :=
  let target := s.takeWhile (!isWs ·)
  let instruction := ((s.dropWhile (!isWs ·)).drop 1).dropWhile isWs
  if target = ofString "xml" then some d
  else (d.tags 0).map fun node =>
    { d with pi := addInstruction target instruction node.name.isSome d.pi }

/-! ## The parser -/

/-- The end of a tag, behind its attributes. -/
def tagEnd (e : UInt8) (d : Root) (name : Bytes) (attr : List Attribute) :
    Bytes → Option (Outcome Root)
  | [] =>
    if e = 62 then (d.openTag name attr).map fun d => .next d [] else some (.stop .missingEnd)
  | b :: s =>
    if b = 47 then
      if s.head?.getD e = 62 then
        (d.openTag name attr).bind fun d => (d.closeTag name).map fun
          | none => .stop (.unexpectedClosing name)
          | some d => .next d s
      else some (.stop .missingEnd)
    else (d.openTag name attr).map fun d => .next d (b :: s)

/-- A new tag. -/
def newTag (e : UInt8) (d : Root) (s : Bytes) : Option (Outcome Root) :=
  if d.cur = none then some (.stop .outside)
  else
    let name := s.takeWhile (!endsTagName ·)
    let s := (s.dropWhile (!endsTagName ·)).dropWhile isSpace
    (attributes s.length s).bind fun
      | .error err => some (.stop err)
      | .ok (attr, s) => d.tagEnd e name attr s

/-- A closing tag, behind the `/`. -/
def closingTag (e : UInt8) (d : Root) (s : Bytes) : Option (Outcome Root) :=
  let name := s.takeWhile fun b => !(isWs b || b = 62)
  let s := s.dropWhile fun b => !(isWs b || b = 62)
  if s = [] && e ≠ 62 then some (.stop .missingEnd)
  else (d.closeTag name).map fun
    | none => .stop (.unexpectedClosing name)
    | some d => .next d (s.dropWhile isWs)

/-- A CDATA section, behind `![CDATA[`. -/
def cdata (d : Root) (s : Bytes) : Option (Outcome Root) :=
  match search (ofString "]]>") s with
  | none => some (.stop .unclosedCdata)
  | some rest =>
    (d.charContent .cdata (s.take (s.length - rest.length)) (rest.drop 2)).map fun r =>
      .next r.1 r.2

/-- A processing instruction, behind the `?`. -/
def instruction (e : UInt8) (d : Root) : Bytes → Option (Outcome Root)
  | [] => if e = 62 then none else some (.stop .unclosedInstruction)
  | b :: s =>
    if b = 62 then none
    else match instructionEnd (b :: s) with
      | none => some (.stop .unclosedInstruction)
      | some (content, rest) =>
        if rest = [] && e ≠ 62 then some (.stop .unclosedInstruction)
        else (d.procInst content).map fun d => .next d rest

/-- The markup behind a `<`. -/
def markup (e : UInt8) (d : Root) (s : Bytes) : Option (Outcome Root) :=
  if (s.head?.map isNameStart).getD false then d.newTag e s
  else if ofString "/" <+: s then d.closingTag e (s.drop 1)
  else if ofString "!--" <+: s then some (comment e d (s.drop 3))
  else if ofString "![CDATA[" <+: s then d.cdata (s.drop 8)
  else if ofString "!DOCTYPE" <+: s then doctype e d (s.drop 8)
  else if ofString "?" <+: s then d.instruction e (s.drop 1)
  else some (.stop .unexpected)

/-- The end of the text. -/
def finish (d : Root) : Option (Root × Option Error) :=
  match d.cur with
  | none => some (d, none)
  | some a => (d.tags a).map fun node =>
    match node.name with
    | none => (d, some .rootMissing)
    | some name => (d, some (.unclosedTag name))

/-- The main loop, behind a `<`. -/
def parseLoop (e : UInt8) : Nat → Root → Bytes → Option (Root × Option Error)
  | 0, _, _ => none
  | n + 1, d, s =>
    (d.markup e s).bind fun
      | .stop err => some (d, some err)
      | .next d s =>
        match (s.drop 1).dropWhile (· ≠ 60) with
        | [] => d.finish
        | _ :: rest =>
          (d.charContent .content ((s.drop 1).takeWhile (· ≠ 60)) rest).bind fun r =>
            parseLoop e n r.1 r.2

def parseText (e : UInt8) (text : Bytes) : Option (Root × Option Error) :=
  match text.dropWhile (· ≠ 60) with
  | [] => some (new, some .rootMissing)
  | _ :: s => parseLoop e (s.length + 1) new s

/-- `ezxml_parse_str`: what it leaves in memory, and its error. -/
def ezxmlParseStr (buffer : Bytes) : Option (Root × Option Error) :=
  if buffer = [] then some (new, some .rootMissing)
  else (str2utf8 buffer).getLast?.bind fun e =>
    parseText e ((str2utf8 buffer).dropLast.takeWhile (· ≠ 0))

/-! ## Reading -/

/-- `ezxml_get`: from a tag, one name and one index after another, up to an index of -1 or an
empty name. -/
def ezxmlGet (d : Root) : Option Nat → List (Bytes × Nat) → Option (Option Nat)
  | xml, [] => some xml
  | none, _ :: _ => some none
  | some a, (name, idx) :: path =>
    if name = [] then some (some a)
    else (d.tags a).bind fun node =>
      (node.links.ezxmlGet d.size name idx).bind fun xml => d.ezxmlGet xml path

end Root

end ArpgServer.Ezxml
