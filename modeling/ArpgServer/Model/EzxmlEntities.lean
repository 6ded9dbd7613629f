import ArpgServer.Model.EzxmlText

/-!
# Entities that a document declares (`ezxml_ent_ok`, `ezxml_decode`)

A declaration of the internal subset is entered into the table unless it is circular, and
`ezxml_decode` puts the replacement into the text and reads on in front of it. Both are loops
of which nothing says that they end: a depth and a number of turns bound them here, and `none`
means that the bound was reached.
-/

namespace ArpgServer.Ezxml

open CText

/-- `root->ent`: the names, each with a `;` behind it, and the replacements. -/
abbrev Entities := List (Bytes × Bytes)

/-- The first entity whose name the text starts with. -/
def findEntity (ent : Entities) (s : Bytes) : Option (Bytes × Bytes) :=
  ent.find? fun x => x.1.isPrefixOf s

/-! ## `ezxml_ent_ok` -/

/-- The loop over the text `s`; `deeper` is the call for a replacement. -/
def entOkAt (deeper : Bytes → Option Bool) (name : Bytes) (ent : Entities) : Bytes → Option Bool
  | [] => some true
  | a :: s =>
    if a = 38 then
      if name.isPrefixOf s then some false
      else
        match findEntity ent s with
        | none => entOkAt deeper name ent s
        | some (_, value) =>
          (deeper value).bind fun ok => if ok then entOkAt deeper name ent s else some false
    else entOkAt deeper name ent s

/-- `ezxml_ent_ok`, with a bound for the depth of its recursion. -/
def entOk (name : Bytes) (ent : Entities) : Nat → Bytes → Option Bool
  | 0 => fun _ => none
  | depth + 1 => entOkAt (entOk name ent depth) name ent

/-- What `ezxml_internal_dtd` does with the name and the value of an entity: the table with it,
or `none` when it is circular. -/
def declareEntity (depth : Nat) (ent : Entities) (n value : Bytes) : Option (Option Entities) :=
  (entOk (n ++ [59]) ent depth value).map fun ok =>
    if ok then some (ent ++ [(n ++ [59], value)]) else none

/-- The tables that declarations lead to. -/
inductive Accepted : Entities → Prop where
  | new : Accepted entities
  | declare {ent ent' : Entities} (depth : Nat) (n value : Bytes) (h : Accepted ent)
      (hd : declareEntity depth ent n value = some (some ent')) : Accepted ent'

/-! ## `ezxml_decode` -/

/-- The text behind the next `;`. -/
def behindSemicolon (s : Bytes) : Bytes := (s.dropWhile (· ≠ 59)).drop 1

/-- A turn of the loop at `a` and the text behind it: what is written, and the text that is read
next. `none` is what the model of character references leaves out. -/
def expandTurn (t : Mode) (ent : Entities) (a : UInt8) (s : Bytes) : Option (Bytes × Bytes) :=
  if a = 38 && t ≠ .cdata then
    match s with
    | 35 :: s' => (charRef s').map fun r => (r.1, s.drop r.2)
    | _ =>
      match findEntity ent s with
      | none => some ([38], s)
      | some (_, value) => some ([], value ++ behindSemicolon s)
  else if t = .attribute && isSpace a then some ([32], s)
  else some ([a], s)

/-- The loop of `ezxml_decode`, for a number of turns. -/
def expand (t : Mode) (ent : Entities) : Nat → Bytes → Option (Option Bytes)
  | _, [] => some (some [])
  | 0, _ :: _ => none
  | n + 1, a :: s =>
    match expandTurn t ent a s with
    | none => some none
    | some (out, rest) => (expand t ent n rest).map fun r => r.map (out ++ ·)

end ArpgServer.Ezxml
