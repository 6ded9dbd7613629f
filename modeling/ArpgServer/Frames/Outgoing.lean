import ArpgServer.Effects.Events
import ArpgServer.Frames.Reassembly
import ArpgServer.Model.Wire

/-!
# What is sent

The peer can follow the lengths exactly as long as no call puts bytes behind a frame that
`send` took in part. Messages whose frames are taken whole are what the reading thread of a
server and `parse_message` get back.
-/

namespace ArpgServer

open Framing

variable {z : Zlib} {calls : List SendCall} {call : SendCall} {env : Env}

/-! ## Frames of the calls -/

/-- The frame that a call sends, and how many of its bytes are taken. -/
def SendCall.put (z : Zlib) (call : SendCall) : Option (Bytes × Nat) :=
  (call.compressed z).map fun buf => (buf, call.result.count)

def puts (z : Zlib) (calls : List SendCall) : List (Bytes × Nat) :=
  calls.filterMap (SendCall.put z)

theorem outgoing_cons : outgoing z (call :: calls) = call.bytes z ++ outgoing z calls := by
  rw [outgoing, List.flatMap_cons]
  rfl

theorem outgoing_eq_written (z : Zlib) (calls : List SendCall) :
    outgoing z calls = written 4 (puts z calls) := by
  induction calls with
  | nil => rfl
  | cons call calls ih =>
    rw [outgoing_cons, ih, SendCall.bytes]
    cases hbuf : call.compressed z with
    | none =>
      have hput : call.put z = none := by rw [SendCall.put, hbuf, Option.map_none]
      rw [List.nil_append, puts, puts, List.filterMap_cons_none hput]
    | some buf =>
      have hput : call.put z = some (buf, call.result.count) := by
        rw [SendCall.put, hbuf, Option.map_some]
      rw [puts, puts, List.filterMap_cons_some hput, written_cons, piece]

theorem length_put (hz : z.Documented) {x : Bytes × Nat} (hx : x ∈ puts z calls) :
    x.1.length < 256 ^ 4 := by
  obtain ⟨call, -, hput⟩ := List.mem_filterMap.mp hx
  obtain ⟨buf, hbuf, rfl⟩ := Option.map_eq_some_iff.mp hput
  obtain ⟨message, -, hcompress⟩ := Option.bind_eq_some_iff.mp hbuf
  have hfits := hz.fits _ _ _ hcompress
  have hlt : maxBufferLength < 256 ^ 4 := by decide
  exact Nat.lt_of_le_of_lt hfits hlt

/-! ## Following the lengths -/

/-- The bytes are the frames that were taken whole and the last frame as far as it was taken,
and these are what a peer that follows the lengths gets and is left with. -/
def Aligned (z : Zlib) (calls : List SendCall) : Prop :=
  outgoing z calls = frames 4 (wholes 4 (puts z calls)) ++ unfinished 4 (puts z calls) ∧
    receive 4 (outgoing z calls) = (wholes 4 (puts z calls), unfinished 4 (puts z calls))

theorem aligned_iff (hz : z.Documented) : Aligned z calls ↔ Orderly 4 (puts z calls) := by
  have hreceive := receive_written_iff (show 0 < 4 by omega)
    fun x (hx : x ∈ puts z calls) => length_put hz hx
  rw [Aligned, outgoing_eq_written, hreceive]
  exact ⟨And.right, fun h => ⟨h.written_eq (by omega), h⟩⟩

/-- **Outgoing stream.** After every call the peer is aligned, exactly when no call puts bytes
behind a frame that was taken in part. -/
theorem outgoing_aligned_iff (hz : z.Documented) (calls : List SendCall) :
    (∀ n, Aligned z (calls.take n)) ↔ Orderly 4 (puts z calls) := by
  constructor
  · intro h
    have hall := h calls.length
    rw [List.take_length] at hall
    exact (aligned_iff hz).mp hall
  · intro h n
    apply (aligned_iff hz).mpr
    have hstart : puts z (calls.take n) <+: puts z calls :=
      (List.take_prefix n calls).filterMap (SendCall.put z)
    rw [List.prefix_iff_eq_take.mp hstart]
    exact h.take _

/-- The answer to a ping, as zlib compresses it. -/
def pongData : Bytes :=
  [120, 156, 179, 73, 45, 75, 205, 43, 81, 40, 169, 44, 72, 181, 85, 55, 80, 215, 183, 3, 0, 54, 65,
    5, 105]

def pongZlib : Zlib := Zlib.single Notice.pong.text pongData

theorem pongZlib_documented : pongZlib.Documented :=
  Zlib.single_documented Notice.pong.text pongData

/-- One frame that is taken whole and one of which five bytes are taken. -/
theorem outgoing_aligned_iff_pong : Aligned pongZlib
    [SendCall.whole Notice.pong.text, ⟨some Notice.pong.text, .taken 5⟩] := by
  refine (outgoing_aligned_iff pongZlib_documented
    [SendCall.whole Notice.pong.text, ⟨some Notice.pong.text, .taken 5⟩]).mpr ?_ 2
  have hputs : puts pongZlib [SendCall.whole Notice.pong.text, ⟨some Notice.pong.text, .taken 5⟩] =
      [(pongData, tempBufferLength), (pongData, 5)] := by
    decide +kernel
  rw [hputs]
  exact ⟨Or.inr (Or.inr (by decide)), Or.inl rfl, trivial⟩

/-- Two bytes of a frame are taken, and then a whole frame is. -/
theorem outgoing_not_aligned : ¬ ∀ (z : Zlib) (calls : List SendCall),
    z.Documented → ∀ n, Aligned z (calls.take n) := by
  intro hall
  have haligned := hall pongZlib
    [⟨some Notice.pong.text, .taken 2⟩, SendCall.whole Notice.pong.text]
    pongZlib_documented 2
  have hputs : puts pongZlib [⟨some Notice.pong.text, .taken 2⟩, SendCall.whole Notice.pong.text] =
      [(pongData, 2), (pongData, tempBufferLength)] := by
    decide +kernel
  have horderly := (aligned_iff pongZlib_documented).mp haligned
  rw [List.take_of_length_le (by decide), hputs] at horderly
  rcases horderly.1 with hsilent | hsilent | hwhole
  · exact absurd hsilent (by decide)
  · exact absurd hsilent (by decide)
  · exact absurd hwhole (by decide)

/-! ## Back to the messages -/

/-- The decompression of `parse_message`. -/
def Task.uncompressed (env : Env) (task : Task) : Option Bytes :=
  if 0 < task.recvBits then env.uncompress task.data else none

/-- `sendbuf` has room for the length and a full buffer. -/
theorem SendCall.whole_bytes {message buf : Bytes}
    (h : (SendCall.whole message).compressed z = some buf) (hfits : buf.length ≤ maxBufferLength) :
    (SendCall.whole message).bytes z = frame 4 buf := by
  have hroom : 4 + maxBufferLength ≤ tempBufferLength := by decide
  rw [SendCall.bytes, h]
  apply List.take_of_length_le
  rw [length_frame]
  show 4 + buf.length ≤ tempBufferLength
  omega

/-- The compressed form of a message is what a call sends. -/
structure Travels (z : Zlib) (message payload : Bytes) : Prop where
  compressed : (SendCall.whole message).compressed z = some payload
  nonempty : payload ≠ []
  fits : payload.length ≤ maxBufferLength
  back : z.uncompress tempBufferLength payload = some message

theorem Travels.of_compress (hz : z.Documented) {message payload : Bytes} (hnul : 0 ∉ message)
    (hlen : message.length ≤ tempBufferLength) (hne : payload ≠ [])
    (h : z.compress maxBufferLength message = some payload) : Travels z message payload := by
  refine ⟨?_, hne, hz.fits _ _ _ h, hz.roundTrip _ _ _ _ h hlen⟩
  have hstrlen : message.takeWhile (· ≠ 0) = message := by
    rw [List.takeWhile_eq_self_iff]
    intro b hb
    have hb0 : b ≠ 0 := fun h0 => hnul (h0 ▸ hb)
    exact decide_eq_true hb0
  show z.compress maxBufferLength (message.takeWhile (· ≠ 0)) = some payload
  rw [hstrlen, h]

theorem Travels.bytes {message payload : Bytes} (h : Travels z message payload) :
    (SendCall.whole message).bytes z = frame 4 payload :=
  SendCall.whole_bytes h.compressed h.fits

theorem outgoing_travels {messages payloads : List Bytes}
    (h : List.Forall₂ (Travels z) messages payloads) :
    outgoing z (messages.map SendCall.whole) = frames 4 payloads := by
  induction h with
  | nil => rfl
  | cons hfirst _ ih =>
    rw [List.map_cons, outgoing_cons, ih, hfirst.bytes, frames, frames, List.flatMap_cons]

theorem travels_sizes {messages payloads : List Bytes}
    (h : List.Forall₂ (Travels z) messages payloads) :
    ∀ p ∈ payloads, 1 ≤ p.length ∧ p.length ≤ maxBufferLength := by
  induction h with
  | nil => exact fun p hp => absurd hp List.not_mem_nil
  | cons hfirst _ ih =>
    intro p hp
    rcases List.mem_cons.mp hp with rfl | hp
    · exact ⟨List.length_pos_iff.mpr hfirst.nonempty, hfirst.fits⟩
    · exact ih p hp

/-- Reads that give all they are asked for hand out all frames. -/
theorem handsOut_of_gives {payloads : List Bytes} {ready : List (Ready × Ready)}
    (hp : ∀ p ∈ payloads, p.length ≤ maxBufferLength) (hcount : payloads.length ≤ ready.length)
    (hready : ∀ answer ∈ ready, answer.1.gives 4 ∧ answer.2.gives maxBufferLength) :
    HandsOut [] payloads ready := by
  induction payloads generalizing ready with
  | nil =>
    cases ready with
    | nil => trivial
    | cons answer ready => exact Or.inl rfl
  | cons p payloads ih =>
    cases ready with
    | nil => exact absurd hcount (by simp)
    | cons answer ready =>
      obtain ⟨hheader, hbody⟩ := hready answer List.mem_cons_self
      simp only [List.length_cons, Nat.add_le_add_iff_right] at hcount
      exact ⟨hheader, hbody.mono (hp p List.mem_cons_self),
        ih (fun q hq => hp q (List.mem_cons_of_mem p hq)) hcount
          fun a ha => hready a (List.mem_cons_of_mem answer ha)⟩

theorem uncompressed_travels (henv : env.uncompress = z.uncompress tempBufferLength)
    {messages payloads : List Bytes} (h : List.Forall₂ (Travels z) messages payloads)
    (fd : Nat) (client : Addr) :
    (payloads.map (payloadTask fd client)).map (Task.uncompressed env) = messages.map some := by
  induction h with
  | nil => rfl
  | cons hfirst _ ih =>
    rw [List.map_cons, List.map_cons, ih, List.map_cons, Task.uncompressed, henv]
    exact congrArg (· :: _) hfirst.back

/-- **Round trip.** Messages whose frames are taken whole, and whose stream is there to be
read, come back in the same order, one task for each, and nothing is left. -/
theorem sent_received (hz : z.Documented) (henv : env.uncompress = z.uncompress tempBufferLength)
    {messages : List Bytes} (hne : messages ≠ [])
    (hnul : ∀ message ∈ messages, 0 ∉ message)
    (hlen : ∀ message ∈ messages, message.length ≤ tempBufferLength)
    (hcompress : ∀ message ∈ messages, ∃ payload, payload ≠ [] ∧
      z.compress maxBufferLength message = some payload)
    {ready : List (Ready × Ready)} (hcount : messages.length ≤ ready.length)
    (hready : ∀ answer ∈ ready, answer.1.gives 4 ∧ answer.2.gives maxBufferLength)
    (fd : Nat) (client : Addr) :
    ∃ tasks, readLoop fd client 0 ready (outgoing z (messages.map SendCall.whole)) = (tasks, []) ∧
      tasks.map (Task.uncompressed env) = messages.map some := by
  obtain ⟨payloads, htravels⟩ : ∃ payloads, List.Forall₂ (Travels z) messages payloads := by
    clear hne hcount
    induction messages with
    | nil => exact ⟨[], .nil⟩
    | cons message messages ih =>
      obtain ⟨payload, hpayload, hdone⟩ := hcompress message List.mem_cons_self
      obtain ⟨payloads, hrest⟩ := ih (fun m hm => hnul m (List.mem_cons_of_mem message hm))
        (fun m hm => hlen m (List.mem_cons_of_mem message hm))
        (fun m hm => hcompress m (List.mem_cons_of_mem message hm))
      exact ⟨payload :: payloads, .cons (.of_compress hz (hnul message List.mem_cons_self)
        (hlen message List.mem_cons_self) hpayload hdone) hrest⟩
  have hsizes := travels_sizes htravels
  have hlength := htravels.length_eq
  refine ⟨payloads.map (payloadTask fd client), ?_, uncompressed_travels henv htravels fd client⟩
  have hloop : readLoop fd client 0 ready (frames 4 (payloads ++ [])) = _ :=
    readLoop_handsOut hsizes ?_ (handsOut_of_gives (fun p hp => (hsizes p hp).2) (by omega) hready)
  · rw [outgoing_travels htravels, ← List.append_nil payloads, hloop, List.append_nil, frames_nil]
  · intro hnil
    rw [hnil, List.length_nil, List.length_eq_zero_iff] at hlength
    exact absurd hlength hne

/-- Two pongs, one behind the other. -/
theorem sent_received_pong : ∃ tasks,
    readLoop 5 100 0 [(.bytes 4, .bytes 1024), (.bytes 4, .bytes 1024), (.bytes 4, .bytes 1024)]
        (outgoing pongZlib ([Notice.pong.text, Notice.pong.text].map SendCall.whole)) =
      (tasks, []) ∧
      tasks.map (Task.uncompressed { Env.delivering 0 pingPacket with
        uncompress := pongZlib.uncompress tempBufferLength }) =
        [some Notice.pong.text, some Notice.pong.text] := by
  have hcompress : pongZlib.compress maxBufferLength Notice.pong.text = some pongData := by
    decide +kernel
  refine sent_received pongZlib_documented rfl (List.cons_ne_nil _ _)
    (by decide +kernel) (by decide +kernel) ?_ (by decide) ?_ 5 100
  · intro message hmessage
    obtain rfl : message = Notice.pong.text := by simpa using hmessage
    exact ⟨pongData, by decide, hcompress⟩
  · intro answer hanswer
    obtain rfl : answer = (.bytes 4, .bytes 1024) := by simpa using hanswer
    exact ⟨Nat.le_refl 4, Nat.le_refl 1024⟩

end ArpgServer
