import ArpgServer.Library.Search
import ArpgServer.Model.EzxmlText

/-!
# `ezxml.c`

The tree, the parser and the serializer. The text is a list that is read from the front; the
tags that are open are a stack whose bottom is the root. `none` is a fault or a branch the
model leaves out: the internal subset of a document type, `<?>`, and what `Ezxml.decode`
leaves out.
-/

namespace ArpgServer.Ezxml

open CText Search

/-! ## The tree -/

/-- A name and its value. A name without a value points to a literal of the parser. -/
abbrev Attribute := Bytes × Option Bytes

/-- `ezxml_t`: a tag with its first child and the tag that follows it in its parent. -/
inductive Xml where
  | null
  | tag (name : Bytes) (attr : List Attribute) (txt : Bytes) (off : Nat) (child ordered : Xml)
  deriving DecidableEq

namespace Xml

def child : Xml → Xml
  | null => null
  | tag _ _ _ _ child _ => child

/-- The tags that follow one another, with another at the end: where `ezxml_insert` puts a
tag whose offset is not below theirs. -/
def append : Xml → Xml → Xml
  | null, y => y
  | tag name attr txt off child ordered, y => tag name attr txt off child (ordered.append y)

/-- The first tag with a name, in the order of the document. -/
def find (name : Bytes) : Xml → Xml
  | null => null
  | tag name' attr txt off child ordered =>
    if name' = name then tag name' attr txt off child ordered else ordered.find name

def txt? : Xml → Option Bytes
  | null => none
  | tag _ _ txt _ _ _ => some txt

def attrs : Xml → List Attribute
  | null => []
  | tag _ attr _ _ _ _ => attr

end Xml

/-- `ezxml_child`. -/
def ezxmlChild (xml : Xml) (name : Bytes) : Xml := xml.child.find name

/-- The first attribute with a name. -/
def findAttr (name : Bytes) (attr : List Attribute) : Option Attribute :=
  attr.find? fun a => a.1 = name

/-- `ezxml_attr`, where no default attributes are declared. -/
def ezxmlAttr (xml : Xml) (name : Bytes) : Option Bytes :=
  (findAttr name xml.attrs).map fun a => a.2.getD []

/-! ## The parser -/

/-- The errors of `ezxml_parse_str`. -/
inductive Error where
  | rootMissing | outside | missingEnd | missingQuote (q : UInt8)
  | unexpectedClosing (name : Bytes)
  | unclosedComment | unclosedCdata | unclosedDoctype | unclosedInstruction
  | unexpected
  | unclosedTag (name : Bytes)
  deriving DecidableEq

/-- An open tag and its children so far. -/
structure Open where
  name : Bytes
  attr : List Attribute
  txt : Bytes
  off : Nat
  children : Xml
  deriving DecidableEq

/-- `root->pi`: for each target its instructions, and whether each was met behind the start
of the root tag. -/
abbrev Instructions := List (Bytes × List (Bytes × Bool))

/-- The open tags, the innermost first, and the tree of a root that is closed. -/
structure Parse where
  stack : List Open
  tree : Xml
  pi : Instructions
  deriving DecidableEq

def Parse.new : Parse := { stack := [], tree := .null, pi := [] }

/-- The root tag is closed: `root->cur` is `NULL`. -/
def Parse.closed (p : Parse) : Bool := p.stack.isEmpty && p.tree ≠ .null

/-- An open tag as it is, behind which nothing follows yet. -/
def Open.toXml (o : Open) : Xml := .tag o.name o.attr o.txt o.off o.children .null

def Open.addChild (o : Open) (x : Xml) : Open := { o with children := o.children.append x }

/-- The tree of the open tags. -/
def collapse : Open → List Open → Xml
  | o, [] => o.toXml
  | o, parent :: rest => collapse (parent.addChild o.toXml) rest

/-- The tree as it is, whether its tags are closed or not. -/
def Parse.root (p : Parse) : Xml :=
  match p.stack with
  | [] => p.tree
  | o :: rest => collapse o rest

/-- `ezxml_open_tag`. -/
def openTag (p : Parse) (name : Bytes) (attr : List Attribute) : Parse :=
  let off := match p.stack with
    | [] => 0
    | top :: _ => top.txt.length
  { p with stack := { name, attr, txt := [], off, children := .null } :: p.stack }

/-- `ezxml_close_tag`; `none` is its error. -/
def closeTag (p : Parse) (name : Bytes) : Option Parse :=
  match p.stack with
  | [] => none
  | top :: rest =>
    if top.name = name then
      match rest with
      | [] => some { p with stack := [], tree := top.toXml }
      | parent :: rest => some { p with stack := parent.addChild top.toXml :: rest }
    else none

/-- `ezxml_char_content`: the new state, and what is left of the text behind the content. -/
def charContent (p : Parse) (t : Mode) (content rest : Bytes) : Option (Parse × Bytes) :=
  match p.stack with
  | [] => some (p, rest)
  | top :: below =>
    if content = [] then some (p, rest)
    else (decode t content rest).map fun r =>
      ({ p with stack := { top with txt := top.txt ++ r.1 } :: below }, r.2)

def addInstruction (target instruction : Bytes) (after : Bool) : Instructions → Instructions
  | [] => [(target, [(instruction, after)])]
  | (target', list) :: rest =>
    if target' = target then (target', list ++ [(instruction, after)]) :: rest
    else (target', list) :: addInstruction target instruction after rest

/-- `ezxml_proc_inst`. -/
def procInst (p : Parse) (s : Bytes) : Parse :=
  let target := s.takeWhile (!isWs ·)
  let instruction := ((s.dropWhile (!isWs ·)).drop 1).dropWhile isWs
  if target = ofString "xml" then p
  else
    let after := !p.stack.isEmpty || p.closed
    { p with pi := addInstruction target instruction after p.pi }

/-- `isalpha (*s) || *s == '_' || *s == ':' || *s < '\0'`. -/
def isNameStart (b : UInt8) : Bool :=
  (65 ≤ b && b ≤ 90) || (97 ≤ b && b ≤ 122) || b = 95 || b = 58 || 128 ≤ b

def endsTagName (b : UInt8) : Bool := isWs b || b = 47 || b = 62
def endsAttrName (b : UInt8) : Bool := isWs b || b = 61 || b = 47 || b = 62

/-- The value of an attribute behind its opening quote, and the text behind the closing one. -/
def attrValue (q : UInt8) (s : Bytes) : Option (Except Error (Option Bytes × Bytes)) :=
  match s.dropWhile (· ≠ q) with
  | [] => some (.error (.missingQuote q))
  | _ :: rest =>
    (decode .attribute (s.takeWhile (· ≠ q)) rest).map fun r => .ok (some r.1, r.2)

/-- One attribute, with the text behind it. -/
def oneAttribute (s : Bytes) : Option (Except Error (Attribute × Bytes)) :=
  let name := s.takeWhile (!endsAttrName ·)
  match s.dropWhile (!endsAttrName ·) with
  | [] => some (.ok ((name, none), []))
  | b :: rest =>
    if b = 61 || isSpace b then
      match rest.dropWhile fun b => isWs b || b = 61 with
      | [] => some (.ok ((name, none), []))
      | q :: s =>
        if isQuote q then
          (attrValue q s).map fun r => r.map fun r => ((name, r.1), r.2.dropWhile isSpace)
        else some (.ok ((name, none), (q :: s).dropWhile isSpace))
    else some (.ok ((name, none), b :: rest))

/-- The attributes of a tag, up to the end of the tag or of the text. -/
def attributes : Nat → Bytes → Option (Except Error (List Attribute × Bytes))
  | _, [] => some (.ok ([], []))
  | 0, _ => none
  | n + 1, b :: s =>
    if b = 47 || b = 62 then some (.ok ([], b :: s))
    else (oneAttribute (b :: s)).bind fun
      | .error err => some (.error err)
      | .ok (a, rest) => (attributes n rest).map fun r => r.map fun r => (a :: r.1, r.2)

/-- What the markup behind a `<` ends in: an error, or a state and the text from the end of
the markup on. -/
inductive Outcome (σ : Type) where
  | stop (err : Error)
  | next (p : σ) (s : Bytes)

/-- The end of a tag, behind its attributes. `e` is the last character of the buffer. -/
def tagEnd (e : UInt8) (p : Parse) (name : Bytes) (attr : List Attribute) : Bytes → Outcome Parse
  | [] => if e = 62 then .next (openTag p name attr) [] else .stop .missingEnd
  | b :: s =>
    if b = 47 then
      if s.head?.getD e = 62 then
        match closeTag (openTag p name attr) name with
        | none => .stop (.unexpectedClosing name)
        | some p => .next p s
      else .stop .missingEnd
    else .next (openTag p name attr) (b :: s)

/-- A new tag. -/
def newTag (e : UInt8) (p : Parse) (s : Bytes) : Option (Outcome Parse) :=
  if p.closed then some (.stop .outside)
  else
    let name := s.takeWhile (!endsTagName ·)
    let s := (s.dropWhile (!endsTagName ·)).dropWhile isSpace
    (attributes s.length s).map fun
      | .error err => .stop err
      | .ok (attr, s) => tagEnd e p name attr s

/-- A closing tag, behind the `/`. -/
def closingTag (e : UInt8) (p : Parse) (s : Bytes) : Outcome Parse :=
  let name := s.takeWhile fun b => !(isWs b || b = 62)
  let s := s.dropWhile fun b => !(isWs b || b = 62)
  if s = [] && e ≠ 62 then .stop .missingEnd
  else match closeTag p name with
    | none => .stop (.unexpectedClosing name)
    | some p => .next p (s.dropWhile isWs)

/-- A comment, behind `!--`. -/
def comment {σ : Type} (e : UInt8) (p : σ) (s : Bytes) : Outcome σ :=
  match search (ofString "--") s with
  | none => .stop .unclosedComment
  | some rest =>
    if (rest.drop 2).head?.getD e = 62 then .next p (rest.drop 2) else .stop .unclosedComment

/-- A CDATA section, behind `![CDATA[`. -/
def cdata (p : Parse) (s : Bytes) : Option (Outcome Parse) :=
  match search (ofString "]]>") s with
  | none => some (.stop .unclosedCdata)
  | some rest =>
    (charContent p .cdata (s.take (s.length - rest.length)) (rest.drop 2)).map fun r =>
      .next r.1 r.2

/-- A document type, behind `!DOCTYPE`. -/
def doctype {σ : Type} (e : UInt8) (p : σ) (s : Bytes) : Option (Outcome σ) :=
  match s.dropWhile fun b => b ≠ 91 && b ≠ 62 with
  | [] => if e = 62 then some (.next p []) else some (.stop .unclosedDoctype)
  | b :: rest => if b = 91 then none else some (.next p (b :: rest))

/-- What an instruction holds, up to a `?` that ends it, and the text behind that. -/
def instructionEnd : Bytes → Option (Bytes × Bytes)
  | [] => none
  | b :: s =>
    if b = 63 && (s = [] || s.head? = some 62) then some ([], s)
    else (instructionEnd s).map fun r => (b :: r.1, r.2)

/-- A processing instruction, behind the `?`. -/
def instruction (e : UInt8) (p : Parse) : Bytes → Option (Outcome Parse)
  | [] => if e = 62 then none else some (.stop .unclosedInstruction)
  | b :: s =>
    if b = 62 then none
    else match instructionEnd (b :: s) with
      | none => some (.stop .unclosedInstruction)
      | some (content, rest) =>
        if rest = [] && e ≠ 62 then some (.stop .unclosedInstruction)
        else some (.next (procInst p content) rest)

/-- The markup behind a `<`. -/
def markup (e : UInt8) (p : Parse) (s : Bytes) : Option (Outcome Parse) :=
  if (s.head?.map isNameStart).getD false then newTag e p s
  else if ofString "/" <+: s then some (closingTag e p (s.drop 1))
  else if ofString "!--" <+: s then some (comment e p (s.drop 3))
  else if ofString "![CDATA[" <+: s then cdata p (s.drop 8)
  else if ofString "!DOCTYPE" <+: s then doctype e p (s.drop 8)
  else if ofString "?" <+: s then instruction e p (s.drop 1)
  else some (.stop .unexpected)

/-- What the parser returns. -/
structure Parsed where
  tree : Xml
  pi : Instructions
  err : Option Error
  deriving DecidableEq

def Parse.stop (p : Parse) (err : Error) : Parsed := { tree := p.root, pi := p.pi, err := some err }

/-- The end of the text. -/
def Parse.finish (p : Parse) : Parsed :=
  { tree := p.root, pi := p.pi
    err := match p.stack with
      | top :: _ => some (.unclosedTag top.name)
      | [] => if p.closed then none else some .rootMissing }

/-- The main loop, behind a `<`. One character behind the markup is not looked at. -/
def parseLoop (e : UInt8) : Nat → Parse → Bytes → Option Parsed
  | 0, _, _ => none
  | n + 1, p, s =>
    (markup e p s).bind fun
      | .stop err => some (p.stop err)
      | .next p s =>
        match (s.drop 1).dropWhile (· ≠ 60) with
        | [] => some p.finish
        | _ :: rest =>
          (charContent p .content ((s.drop 1).takeWhile (· ≠ 60)) rest).bind fun r =>
            parseLoop e n r.1 r.2

/-- The text of a buffer up to its terminator. -/
def parseText (e : UInt8) (text : Bytes) : Option Parsed :=
  match text.dropWhile (· ≠ 60) with
  | [] => some (Parse.new.stop .rootMissing)
  | _ :: s => parseLoop e (s.length + 1) Parse.new s

/-- `ezxml_parse_str`. The last character of the buffer gives way to a terminator. -/
def ezxmlParseStr (buffer : Bytes) : Option Parsed :=
  if buffer = [] then some (Parse.new.stop .rootMissing)
  else (str2utf8 buffer).getLast?.bind fun e =>
    parseText e ((str2utf8 buffer).dropLast.takeWhile (· ≠ 0))

/-! ## The serializer -/

/-- `name="value"` with a blank before it. -/
def attrCode (a : Attribute) : Bytes :=
  ofString " " ++ a.1 ++ ofString "=\"" ++ ampencode true (a.2.getD []) ++ ofString "\""

/-- The attributes that are written, with the names met before: those whose value is the one
`ezxml_attr` finds, which the code compares by address. Names without a value share theirs. -/
def written (attr : List Attribute) (seen : List Bytes) : List Attribute → List Attribute
  | [] => []
  | a :: rest =>
    if (seen.all fun name => name ≠ a.1) ∨ (a.2 = none ∧ findAttr a.1 attr = some a) then
      a :: written attr (a.1 :: seen) rest
    else written attr (a.1 :: seen) rest

/-- `ezxml_toxml_r`: the tags that follow one another in a parent with the text `txt`, whose
text has been written up to `start`. A tag without children writes its own text. -/
def toxmlR (txt : Bytes) (start : Nat) : Xml → Bytes
  | .null => ampencode false (txt.drop start)
  | .tag name attr own off child ordered =>
    ampencode false (if start ≤ off then (txt.drop start).take (off - start) else txt.drop start) ++
      ofString "<" ++ name ++ (written attr [] attr).flatMap attrCode ++ ofString ">" ++
      toxmlR own 0 child ++ ofString "</" ++ name ++ ofString ">" ++
      toxmlR txt (min off txt.length) ordered

/-- `<?target instruction?>`. -/
def instructionCode (target instruction : Bytes) : Bytes :=
  ofString "<?" ++ target ++ (if instruction = [] then [] else ofString " ") ++ instruction ++
    ofString "?>"

/-- The instructions that were met before the root tag, or those that were met later. -/
def instructions (after : Bool) (pi : Instructions) : List (Bytes × Bytes) :=
  pi.flatMap fun (target, list) =>
    (list.filter fun i => i.2 = after).map fun i => (target, i.1)

/-- `ezxml_toxml` of the root tag. -/
def ezxmlToxml (p : Parsed) : Bytes :=
  match p.tree with
  | .null => []
  | .tag name attr txt off child _ =>
    ((instructions false p.pi).flatMap fun i => instructionCode i.1 i.2 ++ ofString "\n") ++
      toxmlR [] 0 (.tag name attr txt off child .null) ++
      (instructions true p.pi).flatMap fun i => ofString "\n" ++ instructionCode i.1 i.2

end ArpgServer.Ezxml
