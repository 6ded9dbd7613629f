import ArpgServer.Library.Framing
import ArpgServer.Model.Protocol

/-!
# Bytes on a connection (`send_message`)

A message is compressed and put behind its length, and one call of `send` takes as many bytes
of it as the socket has room for. The rest is not kept.
-/

namespace ArpgServer

/-- zlib: a result that is not `Z_OK` is `none`. The number is the size of the buffer. -/
structure Zlib where
  compress : Nat → Bytes → Option Bytes
  uncompress : Nat → Bytes → Option Bytes

/-- What the server relies on: a result fits its buffer, and `uncompress` undoes `compress`
when the buffer has room for the original. -/
structure Zlib.Documented (z : Zlib) : Prop where
  fits : ∀ size src dest, z.compress size src = some dest → dest.length ≤ size
  roundTrip : ∀ size room src dest, z.compress size src = some dest → src.length ≤ room →
    z.uncompress room dest = some src

/-- What `send` returns: so many bytes taken, or `-1`. -/
inductive SendResult where
  | taken (n : Nat)
  | failed

def SendResult.count : SendResult → Nat
  | .taken n => n
  | .failed => 0

/-- A call of `send_message`, with what its `send` will return. -/
structure SendCall where
  message : Option Bytes
  result : SendResult

/-- `buf` after `compress`; `none` when nothing is sent. -/
def SendCall.compressed (z : Zlib) (call : SendCall) : Option Bytes :=
  call.message.bind fun message => z.compress maxBufferLength (message.takeWhile (· ≠ 0))

/-- The bytes that a call of `send_message` puts on its connection. -/
def SendCall.bytes (z : Zlib) (call : SendCall) : Bytes :=
  match call.compressed z with
  | none => []
  | some buf => (Framing.frame 4 buf).take call.result.count

/-- All calls for one descriptor. -/
def outgoing (z : Zlib) (calls : List SendCall) : Bytes := calls.flatMap (SendCall.bytes z)

/-- A call whose `send` takes as many bytes as `sendbuf` has. -/
def SendCall.whole (message : Bytes) : SendCall := ⟨some message, .taken tempBufferLength⟩

/-- A library that knows one text and its compressed form. -/
def Zlib.single (src dest : Bytes) : Zlib where
  compress size text := if text = src ∧ dest.length ≤ size then some dest else none
  uncompress room data := if data = dest ∧ src.length ≤ room then some src else none

theorem Zlib.single_documented (src dest : Bytes) : (Zlib.single src dest).Documented := by
  constructor
  · intro size text data h
    obtain ⟨⟨-, hsize⟩, hdata⟩ := Option.ite_none_right_eq_some.mp h
    cases hdata
    exact hsize
  · intro size room text data h hroom
    obtain ⟨⟨rfl, -⟩, hdata⟩ := Option.ite_none_right_eq_some.mp h
    cases hdata
    exact if_pos ⟨rfl, hroom⟩

end ArpgServer
