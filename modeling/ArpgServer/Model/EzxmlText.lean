import ArpgServer.Library.CText
import ArpgServer.Library.Scan

/-!
# The texts of `ezxml.c`

Line endings, character and entity references, the conversion from UTF-16, and the
sequences the serializer writes for the characters of markup. `none` stands for what the
model leaves out: a reference the code shifts by a negative amount for or writes a
terminator for, and a carriage return that leads the code out of the text.
-/

namespace ArpgServer.Ezxml

open CText Scan

/-- `EZXML_WS`. -/
def isWs (b : UInt8) : Bool := b = 9 || b = 10 || b = 13 || b = 32

/-! ## Numbers and characters -/

def digitIn (base : Nat) (b : UInt8) : Option Nat :=
  let n :=
    if 48 ≤ b && b ≤ 57 then b.toNat - 48
    else if 97 ≤ b && b ≤ 122 then b.toNat - 87
    else if 65 ≤ b && b ≤ 90 then b.toNat - 55
    else base
  if n < base then some n else none

def isDigitIn (base : Nat) (b : UInt8) : Bool := (digitIn base b).isSome

def valueIn (base : Nat) (ds : Bytes) : Nat :=
  ds.foldl (fun n d => base * n + (digitIn base d).getD 0) 0

/-- The prefix `0x` that `strtol` passes over in base 16, when a digit follows. -/
def skipHexMark : Bytes → Bytes
  | 48 :: x :: d :: s =>
    if (x = 120 || x = 88) && isDigitIn 16 d then d :: s else 48 :: x :: d :: s
  | s => s

/-- `strtol` behind the sign. -/
def strtolDigits (base : Nat) (s : Bytes) : Option (Nat × Bytes) :=
  let s := if base = 16 then skipHexMark s else s
  let ds := s.takeWhile (isDigitIn base)
  if ds = [] then none else some (valueIn base ds, s.dropWhile (isDigitIn base))

/-- What `strtol` makes of the text behind the sign of `s`. -/
def strtolSigned (base : Nat) (s t : Bytes) (clamp : Nat → Int) : Int × Bytes :=
  ((strtolDigits base t).map fun r => (clamp r.1, r.2)).getD (0, s)

/-- `strtol`: the value, clamped to the range of `long`, and the text at the end pointer. -/
def strtol (base : Nat) (s : Bytes) : Int × Bytes :=
  match s.dropWhile isSpace with
  | 45 :: t => strtolSigned base s t fun n => max (-(2 ^ 63)) (-(n : Int))
  | 43 :: t => strtolSigned base s t fun n => min (2 ^ 63 - 1) n
  | t => strtolSigned base s t fun n => min (2 ^ 63 - 1) n

/-- How many bytes follow the head of a character: the code counts its bits. -/
def payload (c : Nat) : Nat := (c.log2 + 1 - 2) / 5

/-- The bytes of a character that is not in ASCII. -/
def multiByte (c : Nat) : Bytes :=
  ((0xFF <<< (7 - payload c)) ||| (c >>> (6 * payload c))).toUInt8 ::
    (List.range (payload c)).reverse.map fun k => (0x80 ||| ((c >>> (6 * k)) &&& 0x3F)).toUInt8

/-! ## `ezxml_decode` -/

/-- The kinds of text `ezxml_decode` is called for: `'&'`, `' '` and `'c'`. -/
inductive Mode where
  | content | attribute | cdata
  deriving DecidableEq

/-- The number and the end of a character reference, read behind `&#`. -/
def charNumber : Bytes → Int × Bytes
  | 120 :: s => strtol 16 s
  | s => strtol 10 s

/-- A character reference, behind `&#`: what is written, and how much of the text behind `&`
is taken. What is no reference leaves the `&`. -/
def charRef (s : Bytes) : Option (Bytes × Nat) :=
  match charNumber s with
  | (c, 59 :: rest) =>
    if c = 0 then some ([38], 0)
    else if c < 0x80 then
      if c % 256 = 0 then none
      else some ([(c % 256).toNat.toUInt8], 1 + (s.length - rest.length))
    else if 7 < payload c.toNat then none
    else some (multiByte c.toNat, 1 + (s.length - rest.length))
  | _ => some ([38], 0)

/-- The entities of `ezxml_new` and their replacements. -/
def entities : List (Bytes × Bytes) :=
  [(ofString "lt;", ofString "&#60;"), (ofString "gt;", ofString "&#62;"),
    (ofString "quot;", ofString "&#34;"), (ofString "apos;", ofString "&#39;"),
    (ofString "amp;", ofString "&#38;")]

/-- An entity reference, behind `&`. The replacement is read again, and each of them is a
character reference. -/
def entityRef (s : Bytes) : Option (Bytes × Nat) :=
  match entities.find? fun ent => ent.1.isPrefixOf s with
  | none => some ([38], 0)
  | some (name, value) =>
    (charRef (value.drop 2 ++ s.drop name.length)).map fun r => (r.1, name.length)

/-- A turn of the loop of `ezxml_decode`. -/
def decodeTurn (t : Mode) : Turn UInt8 UInt8 := fun a s =>
  if a = 38 && t ≠ .cdata then
    match s with
    | 35 :: s => charRef s
    | _ => entityRef s
  else if t = .attribute && isSpace a then some ([32], 0)
  else some ([a], 0)

/-- The normalization of line endings. -/
def normalize : Bytes → Bytes
  | [] => []
  | 13 :: 10 :: s => 10 :: normalize s
  | 13 :: s => 10 :: normalize s
  | a :: s => a :: normalize s

/-- The normalization steps over the terminator of a text that ends in a carriage return,
unless it has moved the text to the left by then. -/
def passesEnd (s : Bytes) : Bool := s.getLast? = some 13 && (normalize s).length = s.length

/-- What the normalization of a text makes of the text behind its terminator. -/
def behind (s rest : Bytes) : Option Bytes :=
  if passesEnd s then if passesEnd rest then none else some (normalize rest) else some rest

/-- The loop of `ezxml_decode` over a text. -/
def decodeText (t : Mode) (s : Bytes) : Option Bytes :=
  let r := scan (decodeTurn t) 0 s
  if r.2 = [] then some r.1 else none

/-- `ezxml_decode`: the text, and what it leaves of the text behind the terminator. -/
def decode (t : Mode) (s rest : Bytes) : Option (Bytes × Bytes) :=
  (behind s rest).bind fun rest => (decodeText t (normalize s)).map fun v => (v, rest)

/-! ## `ezxml_ampencode` -/

/-- The sequence for one character; `a` is set for attributes. -/
def ampCode (a : Bool) (b : UInt8) : Bytes :=
  if b = 38 then ofString "&amp;"
  else if b = 60 then ofString "&lt;"
  else if b = 62 then ofString "&gt;"
  else if b = 34 && a then ofString "&quot;"
  else if b = 10 && a then ofString "&#xA;"
  else if b = 9 && a then ofString "&#x9;"
  else if b = 13 then ofString "&#xD;"
  else [b]

/-- `ezxml_ampencode` of a C text. -/
def ampencode (a : Bool) (s : Bytes) : Bytes := s.flatMap (ampCode a)

/-! ## `ezxml_str2utf8` -/

def utf8Char (c : Nat) : Bytes := if c < 0x80 then [c.toUInt8] else multiByte c

def utf16Unit (be : Bool) (a b : UInt8) : Nat :=
  if be then a.toNat <<< 8 ||| b.toNat else b.toNat <<< 8 ||| a.toNat

/-- The loop over the units. Any unit behind a surrogate is taken as its other half. -/
def utf16Loop (be : Bool) : Bytes → Bytes
  | a :: b :: s =>
    let c := utf16Unit be a b
    if 0xD800 ≤ c ∧ c ≤ 0xDFFF then
      match s with
      | a' :: b' :: s =>
        utf8Char ((((c &&& 0x3FF) <<< 10) ||| (utf16Unit be a' b' &&& 0x3FF)) + 0x10000) ++
          utf16Loop be s
      | _ => utf8Char c
    else utf8Char c ++ utf16Loop be s
  | _ => []

/-- `ezxml_str2utf8`, with the text itself where no conversion is needed. -/
def str2utf8 : Bytes → Bytes
  | 0xFE :: s => utf16Loop true (s.drop 1)
  | 0xFF :: s => utf16Loop false (s.drop 1)
  | s => s

end ArpgServer.Ezxml
