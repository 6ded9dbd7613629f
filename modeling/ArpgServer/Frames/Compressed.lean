import ArpgServer.Frames.Outgoing
import ArpgServer.Rooms.Lists

/-!
# What fits its frame

`send_message` compresses into a buffer of `MAX_BUFFER_LENGTH` bytes, and sends nothing when
zlib has too little room there. zlib promises a result only for a buffer of `compressBound`
bytes. So the texts that always travel are those whose bound is in the buffer, and the callers
format longer ones.
-/

namespace ArpgServer

open Framing CText

variable {z : Zlib} {bound : Nat → Nat} {text buf : Bytes}

/-! ## What zlib promises -/

/-- A result fits, comes back, and is there whenever the buffer has the bound of its source. -/
structure Zlib.Promises (z : Zlib) (bound : Nat → Nat) : Prop extends z.Documented where
  guaranteed : ∀ size src, bound src.length ≤ size →
    ∃ dest, z.compress size src = some dest

/-- The same library, but with no result that it has not promised. -/
def Zlib.sparing (z : Zlib) (bound : Nat → Nat) : Zlib where
  compress size src := if bound src.length ≤ size then z.compress size src else none
  uncompress := z.uncompress

theorem Zlib.Promises.sparing (hz : z.Promises bound) :
    (z.sparing bound).Promises bound where
  fits size src dest h := by
    obtain ⟨-, h⟩ := Option.ite_none_right_eq_some.mp h
    exact hz.fits size src dest h
  roundTrip size room src dest h hroom := by
    obtain ⟨-, h⟩ := Option.ite_none_right_eq_some.mp h
    exact hz.roundTrip size room src dest h hroom
  guaranteed size src hsize := by
    obtain ⟨dest, hdest⟩ := hz.guaranteed size src hsize
    refine ⟨dest, ?_⟩
    exact (if_pos hsize).trans hdest

/-! ## Texts on the wire -/

/-- A frame is sent, and the text comes back out of it. -/
def OnWire (z : Zlib) (text : Bytes) : Prop :=
  ∃ buf, (SendCall.whole text).bytes z = frame 4 buf ∧
    z.uncompress text.length buf = some (text.takeWhile (· ≠ 0))

/-- A text travels exactly when zlib has a result. -/
theorem onWire_iff_compressed (hz : z.Documented) :
    OnWire z text ↔ ∃ buf, (SendCall.whole text).compressed z = some buf := by
  constructor
  · rintro ⟨buf, hbytes, -⟩
    cases h : (SendCall.whole text).compressed z with
    | some sent => exact ⟨sent, rfl⟩
    | none =>
      rw [SendCall.bytes, h] at hbytes
      have hlength := congrArg List.length hbytes
      rw [length_frame, List.length_nil] at hlength
      omega
  · rintro ⟨buf, h⟩
    refine ⟨buf, SendCall.whole_bytes h (hz.fits _ _ _ h), hz.roundTrip _ _ _ _ h ?_⟩
    exact (List.takeWhile_prefix _).length_le

/-- **Size of an event.** A text is delivered, whatever zlib does beyond its promises, exactly
when the bound of its length is in the buffer. -/
theorem onWire_iff (hz : z.Promises bound) (text : Bytes) :
    (∀ z' : Zlib, z'.Promises bound → OnWire z' text) ↔
      bound (text.takeWhile (· ≠ 0)).length ≤ maxBufferLength := by
  constructor
  · intro h
    have hsparing := hz.sparing
    obtain ⟨buf, hbuf⟩ := (onWire_iff_compressed hsparing.toDocumented).mp (h _ hsparing)
    exact (Option.ite_none_right_eq_some.mp hbuf).1
  · intro hbound z' hz'
    exact (onWire_iff_compressed hz'.toDocumented).mpr (hz'.guaranteed _ _ hbound)

/-! ## The bound of zlib -/

/-- `compressBound` of zlib. -/
def compressBound (n : Nat) : Nat := n + n / 4096 + n / 16384 + n / 33554432 + 13

theorem compressBound_le_iff (n : Nat) : compressBound n ≤ maxBufferLength ↔ n ≤ 1011 := by
  simp only [compressBound, maxBufferLength]
  omega

/-- An event that keeps twelve bytes off the end of its buffer is never dropped. -/
theorem Notice.onWire_of_short (hz : z.Promises compressBound) {n : Notice}
    (h : n.formatted.length ≤ 1011) : OnWire z n.formatted := by
  apply (onWire_iff hz n.formatted).mpr _ z hz
  apply (compressBound_le_iff _).mpr
  exact (List.takeWhile_prefix _).length_le.trans h

/-- A library that knows the compressed form of one text and marks all others. -/
def Zlib.marking (src dest : Bytes) : Zlib where
  compress size text :=
    let data := if text = src then dest else 0 :: text
    if data.length ≤ size then some data else none
  uncompress room data :=
    let text := if data = dest then src else data.tail
    if text.length ≤ room then some text else none

theorem Zlib.marking_promises {src dest : Bytes} (hmark : dest.head? ≠ some 0)
    (hbound : dest.length ≤ compressBound src.length) :
    (Zlib.marking src dest).Promises compressBound where
  fits size text data h := by
    obtain ⟨hsize, hdata⟩ := Option.ite_none_right_eq_some.mp h
    cases hdata
    exact hsize
  roundTrip size room text data h hroom := by
    obtain ⟨-, hdata⟩ := Option.ite_none_right_eq_some.mp h
    have htext : (if data = dest then src else data.tail) = text := by
      by_cases hsrc : text = src
      · rw [if_pos hsrc] at hdata
        rw [if_pos (Option.some.inj hdata).symm, hsrc]
      · rw [if_neg hsrc] at hdata
        cases hdata
        have hother : (0 :: text) ≠ dest := by
          intro heq
          exact hmark (heq ▸ rfl)
        rw [if_neg hother, List.tail_cons]
    simp only [marking, htext, if_pos hroom]
  guaranteed size text hsize := by
    refine ⟨if text = src then dest else 0 :: text, if_pos ?_⟩
    split
    · rename_i hsrc
      subst hsrc
      exact hbound.trans hsize
    · have hroom : text.length + 1 ≤ compressBound text.length := by
        rw [compressBound]
        omega
      exact hroom.trans hsize

/-- The answer to a ping is delivered by a library that knows its compressed form. -/
theorem onWire_iff_pong : (Zlib.marking Notice.pong.text pongData).Promises compressBound ∧
    OnWire (Zlib.marking Notice.pong.text pongData) Notice.pong.text := by
  have hmarking : (Zlib.marking Notice.pong.text pongData).Promises compressBound :=
    Zlib.marking_promises (by decide) (by decide +kernel)
  refine ⟨hmarking, (onWire_iff hmarking Notice.pong.text).mpr ?_ _ hmarking⟩
  decide +kernel

/-! ## An event that is dropped -/

/-- Bytes without a pattern, and without those below 14. -/
def noise : Nat → Nat → Bytes
  | 0, _ => []
  | n + 1, seed =>
    let seed := (seed * 1103515245 + 12345) % 2147483648
    UInt8.ofNat (14 + seed / 65536 % 242) :: noise n seed

/-- A message to the room of 985 bytes, which zlib stores as it is. -/
def noiseMessage : Packet where
  data := [120, 156, 1, 217, 3, 38, 252] ++ ofString "<event type='32'><body><![CDATA[" ++
    noise 935 1 ++ ofString "]]></body></event>" ++ [161, 100, 1, 81]
  text := ofString "<event type='32'><body><![CDATA[" ++ noise 935 1 ++
    ofString "]]></body></event>"
  event := { Event.ofList [(.type, ofString "32")] with body := some (noise 935 1) }

/-- What the room is told: 1016 bytes, and 1027 when zlib has stored them. -/
def noiseEvent : Notice := .publicMessage (ofString "游客000") 0 (noise 935 1)

def noiseData : Bytes :=
  [120, 156, 1, 248, 3, 7, 252] ++ noiseEvent.formatted ++ [31, 15, 13, 122]

theorem noiseZlib_promises :
    (Zlib.marking noiseEvent.formatted noiseData).Promises compressBound :=
  Zlib.marking_promises (by decide +kernel) (by decide +kernel)

theorem noiseEvent_sent : ∃ s, Reachable s ∧ ⟨5, [noiseEvent]⟩ ∈ s.sent := by
  have hcheck : (actAll (State.start fun _ => lobbyConf) [connect 5 100, deliver 0 5 guestLogin,
      deliver 0 5 noiseMessage]).any (fun s => ⟨5, [noiseEvent]⟩ ∈ s.sent) := by
    decide +kernel
  obtain ⟨s, hrun, hs⟩ := (Option.any_eq_true _ _).mp hcheck
  exact ⟨s, reachable_of_actAll hrun, of_decide_eq_true hs⟩

/-- A message of a regular size is sent to nobody. -/
theorem event_dropped : ¬ ∀ (z : Zlib) (s : State) (send : Send), z.Promises compressBound →
    Reachable s → send ∈ s.sent → OnWire z (messageText send.message) := by
  intro hall
  obtain ⟨s, hs, hsent⟩ := noiseEvent_sent
  have hwire := hall _ s _ noiseZlib_promises hs hsent
  rw [messageText_singleton] at hwire
  obtain ⟨buf, hbuf⟩ := (onWire_iff_compressed noiseZlib_promises.toDocumented).mp hwire
  have hstrlen : noiseEvent.formatted.takeWhile (· ≠ 0) = noiseEvent.formatted := by
    decide +kernel
  have hlong : ¬ noiseData.length ≤ maxBufferLength := by decide +kernel
  simp only [SendCall.compressed, SendCall.whole, Option.bind_some, hstrlen, Zlib.marking,
    if_true, if_neg hlong] at hbuf
  exact Option.some_ne_none _ hbuf.symm

end ArpgServer
