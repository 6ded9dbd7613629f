import ArpgServer.Library.Search
import ArpgServer.Model.Protocol

/-!
# Values in a text (`get_attribute` and `get_tag` of `function.c`)

Two functions that look for a value in the text of an event. A read behind the terminator of the
text, a read through `NULL` and a write outside the buffer are faults.
-/

namespace ArpgServer

open CText

variable {n : Nat}

/-- `strstr (s, pat)`. -/
def strstr (s pat : Bytes) : Option Bytes := Search.search pat s

/-! ## `get_attribute` -/

/-- The loop of `get_attribute`: `start` and `numchars`. -/
def countQuoted : Bytes → Option Bytes → Nat → Option Bytes × Nat
  | [], start, numchars => (start, numchars)
  | b :: rest, none, numchars =>
    if isQuote b then countQuoted rest (some rest) numchars else countQuoted rest none numchars
  | b :: rest, some start, numchars =>
    if isQuote b then (some start, numchars + 1) else countQuoted rest (some start) (numchars + 1)

/-- The end of `get_attribute`. Without any character the terminator goes in front of the
buffer. -/
def storeQuoted (buffer : CharArray n) : Option Bytes × Nat → Option (Int × CharArray n)
  | (some start, numchars + 1) =>
    if h : numchars + 1 ≤ n then
      ((buffer.strncpy start (numchars + 1) h).put numchars 0).map (returnSuccess, ·)
    else some (returnFailure, buffer)
  | (none, numchars + 1) => if n < numchars + 1 then some (returnFailure, buffer) else none
  | (_, 0) => none

def getAttribute (xml attr : Bytes) (buffer : CharArray n) : Option (Int × CharArray n) :=
  match strstr xml attr with
  | none => some (returnFailure, buffer)
  | some as => storeQuoted buffer (countQuoted as none 0)

/-! ## `get_tag` -/

/-- A pattern that is formatted into 32 bytes. -/
def patternText (src : Bytes) : Bytes := src.take (32 - 1)

def tagopen (tag : Bytes) : Bytes := patternText (ofString "<" ++ tag)

def inone (tag : Bytes) : Bytes := patternText (ofString "<" ++ tag ++ ofString "/>")

/-- The loop of `get_tag`, which looks for `<`. -/
def countText : Bytes → Nat → Option Nat
  | [], _ => none
  | b :: rest, i => if b = 60 then some i else countText rest (i + 1)

def getTag (xml tag : Bytes) (buffer : CharArray n) : Option (Int × CharArray n) :=
  if (strstr xml (inone tag)).isSome then some (returnSuccess, buffer)
  else
    match strstr xml (tagopen tag) with
    | none => some (returnFailure, buffer)
    | some as =>
      (strstr as (ofString ">")).bind fun close =>
        let ap := close.drop 1
        (countText ap 0).bind fun i =>
          if h : i ≤ n then ((buffer.strncpy ap i h).put i 0).map (returnSuccess, ·)
          else some (returnFailure, buffer)

end ArpgServer
