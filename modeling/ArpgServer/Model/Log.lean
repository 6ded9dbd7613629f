import ArpgServer.Library.CText

/-!
# The log (`log.c`)

`log_write` formats a line like `printf` and prints it. The line itself is no part of the state;
what matters is whether the call comes back. The behaviour of a format whose conversions the
arguments do not serve is undefined, which is a fault here as everywhere in this model.
-/

namespace ArpgServer

open CText

/-- A variable argument of `log_write`: a text, or a number that is not negative. -/
inductive LogArg where
  | text | int
  deriving DecidableEq

/-- The flags of a conversion. -/
def logFlags : Bytes := ofString "-+ #0"

/-- All that may stand between `%` and the letter of a conversion. -/
def specBytes : Bytes := ofString "-+ #0123456789.*hljztL"

/-- A width or a precision: `*` takes a number from the arguments, digits take none. -/
def fieldArgs : Bytes → List LogArg × Bytes
  | 42 :: rest => ([.int], rest)
  | spec => ([], spec.dropWhile fun b => 48 ≤ b ∧ b ≤ 57)

/-- What the conversion itself takes. The other types C knows are not among the arguments, and
`%n` would write through one. -/
def letterArgs (length : Bytes) (letter : UInt8) : Option (List LogArg) :=
  if letter ∈ ofString "diouxX" ∧ length ∈ [[], ofString "h", ofString "hh"] then some [.int]
  else if letter ∈ ofString "c" ∧ length = [] then some [.int]
  else if letter ∈ ofString "sp" ∧ length = [] then some [.text]
  else none

/-- The arguments a conversion takes, with the bytes between `%` and its letter. -/
def conversionArgs (spec : Bytes) (letter : UInt8) : Option (List LogArg) :=
  if letter = 37 then if spec = [] then some [] else none
  else
    let (width, rest) := fieldArgs (spec.dropWhile (· ∈ logFlags))
    let (precision, length) :=
      match rest with
      | 46 :: rest => fieldArgs rest
      | _ => ([], rest)
    (letterArgs length letter).map fun own => width ++ precision ++ own

/-- `vsnprintf` goes through a format. `spec` holds what was read of the current conversion.
Arguments that are left over do no harm. -/
def vsnprintf : Option Bytes → Bytes → List LogArg → Option Unit
  | none, [], _ => some ()
  | some _, [], _ => none
  | none, ch :: fmt, args =>
    if ch = 37 then vsnprintf (some []) fmt args else vsnprintf none fmt args
  | some spec, ch :: fmt, args =>
    if ch ∈ specBytes then vsnprintf (some (spec ++ [ch])) fmt args
    else
      (conversionArgs spec ch).bind fun taken =>
        if taken <+: args then vsnprintf none fmt (args.drop taken.length) else none

/-- `log_write`. -/
def logWrite (fmt : Bytes) (args : List LogArg) : Option Unit := vsnprintf none fmt args

/-- A text without `%` may be a format. -/
theorem logWrite_of_plain {fmt : Bytes} (h : 37 ∉ fmt) (args : List LogArg) :
    logWrite fmt args = some () := by
  unfold logWrite
  induction fmt with
  | nil => rfl
  | cons ch fmt ih =>
    rw [List.mem_cons, not_or] at h
    rw [vsnprintf, if_neg (Ne.symm h.1)]
    exact ih h.2

example : logWrite (ofString "%5.*d%%%s, %c") [.int, .int, .text, .int, .text] = some () := rfl

example : logWrite (ofString "100%") [.text, .int] = none := rfl

end ArpgServer
