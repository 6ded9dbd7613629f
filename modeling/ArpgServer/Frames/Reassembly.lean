import ArpgServer.Model.Epoll

/-!
# Frames out of a stream

The reading thread keeps nothing between two events, and nothing of a frame whose parts do
not arrive together: it gets the payloads back exactly when every event finds a whole number
of frames, and at least one.
-/

namespace ArpgServer

open Framing

variable {fd : Nat} {client : Addr} {readnum : Nat} {r header body : Ready}
  {ready : List (Ready × Ready)} {events : List (List (Ready × Ready))} {stream rest : Bytes}
  {size : Nat} {payloads group later : List Bytes} {p : Bytes} {tasks : List Task}

/-! ## What arrives together -/

/-- A call of `read` can get `n` bytes. -/
def Ready.gives : Ready → Nat → Prop
  | .bytes k, n => n ≤ k
  | .eof, _ => False
  | .failed, _ => False

/-- Each header and each payload of the group is there when it is asked for, and behind the
group nothing is, unless nothing was sent after it. -/
def HandsOut (later : List Bytes) : List Bytes → List (Ready × Ready) → Prop
  | [], [] => True
  | [], (header, _) :: _ => later = [] ∨ ¬ header.gives 1
  | p :: group, (header, body) :: ready =>
    header.gives 4 ∧ body.gives p.length ∧ HandsOut later group ready
  | _ :: _, [] => False

/-- Every event finds a whole number of frames and at least one, until all were found. -/
def Whole : List Bytes → List (List (Ready × Ready)) → Prop
  | payloads, [] => payloads = []
  | payloads, ready :: events => ∃ group later, payloads = group ++ later ∧ group ≠ [] ∧
      HandsOut later group ready ∧ Whole later events

/-- The payloads come back in order, and nobody is logged out. -/
def Reassembled (payloads : List Bytes) (tasks : List Task) : Prop :=
  tasks.map Task.data = payloads ∧ ∀ task ∈ tasks, 0 < task.recvBits

/-! ## One call of `read` -/

/-- A call gets a piece from the front of the stream, or nothing at all. -/
theorem readFd_spec (r : Ready) (stream : Bytes) (size : Nat) :
    (∃ z ≤ 0, readFd r stream size = ⟨z, [], stream⟩ ∧
        (0 < size → stream ≠ [] → ¬ r.gives 1)) ∨
      ∃ n : Nat, 0 < n ∧ n ≤ size ∧ n ≤ stream.length ∧ r.gives n ∧
        readFd r stream size = ⟨n, stream.take n, stream.drop n⟩ := by
  cases r with
  | eof => exact Or.inl ⟨0, by omega, rfl, fun _ _ h => h⟩
  | failed => exact Or.inl ⟨-1, by omega, rfl, fun _ _ h => h⟩
  | bytes k =>
    simp only [readFd, List.length_take]
    by_cases hsize : size = 0
    · rw [if_pos hsize]
      exact Or.inl ⟨0, by omega, rfl, fun h => by omega⟩
    · rw [if_neg hsize]
      by_cases hnone : min (min k size) stream.length = 0
      · rw [if_pos hnone]
        refine Or.inl ⟨-1, by omega, rfl, fun _ hne hk => ?_⟩
        have hlen : stream.length ≠ 0 := fun h => hne (List.length_eq_zero_iff.mp h)
        have hk : 1 ≤ k := hk
        omega
      · rw [if_neg hnone]
        refine Or.inr ⟨min (min k size) stream.length, by omega, by omega, by omega, ?_, ?_⟩
        · show min (min k size) stream.length ≤ k
          omega
        · have htake : stream.take (min k size) =
              stream.take (min (min k size) stream.length) := by
            rw [List.take_eq_take_iff]
            omega
          rw [← htake]

theorem Ready.gives.mono {n m : Nat} (h : r.gives n) (hm : m ≤ n) : r.gives m := by
  cases r with
  | eof => exact h
  | failed => exact h
  | bytes k => exact Nat.le_trans hm h

/-- A call that can get all it asks for gets it. -/
theorem readFd_of_gives (hr : r.gives size) (hsize : 0 < size) (hlen : size ≤ stream.length) :
    readFd r stream size = ⟨size, stream.take size, stream.drop size⟩ := by
  cases r with
  | eof => exact absurd hr id
  | failed => exact absurd hr id
  | bytes k =>
    have hmin : min k size = size := Nat.min_eq_right hr
    have hne : size ≠ 0 := by omega
    simp only [readFd, List.length_take, hmin, Nat.min_eq_left hlen, if_neg hne]

/-! ## One pass -/

theorem readPass_nothing {z : Int} (hz : z ≤ 0)
    (hhead : readFd header stream 4 = ⟨z, [], rest⟩) :
    readPass fd client readnum header body stream =
      if 0 < readnum then .done rest else .last ⟨fd, client, z, []⟩ rest := by
  have h4 : z ≠ 4 := by omega
  have hpos : ¬ 0 < z := by omega
  simp only [readPass, readBody, hhead, hz, true_and, if_neg h4, hpos, false_and, if_false]

theorem readPass_nil (fd : Nat) (client : Addr) (readnum : Nat) (header body : Ready) :
    ∃ z ≤ 0, readPass fd client readnum header body [] =
      if 0 < readnum then .done [] else .last ⟨fd, client, z, []⟩ [] := by
  rcases readFd_spec header [] 4 with ⟨z, hz, hhead, -⟩ | ⟨n, hn, -, hlen, -⟩
  · exact ⟨z, hz, readPass_nothing hz hhead⟩
  · rw [List.length_nil] at hlen
    omega

theorem readPass_short {n : Nat} {data : Bytes} (hn : 0 < n) (h4 : n < 4)
    (hhead : readFd header stream 4 = ⟨n, data, rest⟩) :
    readPass fd client readnum header body stream = .done rest := by
  have hz : ¬ (n : Int) ≤ 0 := by omega
  have hne : (n : Int) ≠ 4 := by omega
  have hpos : 0 < (n : Int) := by omega
  unfold readPass readBody
  simp only [hhead, if_neg hne]
  rw [if_neg (fun h => hz h.1), if_pos ⟨hpos, Int.le_refl 0⟩]

theorem readPass_tooLong {data : Bytes} (hdata : maxBufferLength < ntohl data)
    (hhead : readFd header stream 4 = ⟨4, data, rest⟩) :
    readPass fd client readnum header body stream = .last ⟨fd, client, 0, []⟩ rest := by
  have hlong : ¬ ntohl data ≤ maxBufferLength := by omega
  simp [readPass, readBody, hhead, hlong]

theorem readPass_body {data : Bytes} {buf : ReadResult} (hdata : ntohl data ≤ maxBufferLength)
    (hhead : readFd header stream 4 = ⟨4, data, rest⟩)
    (hbody : readFd body rest (ntohl data) = buf) :
    readPass fd client readnum header body stream =
      if buf.result ≤ 0 then .done buf.rest else .again ⟨fd, client, 4, buf.data⟩ buf.rest := by
  simp [readPass, readBody, hhead, hdata, hbody]

/-- A pass takes the header and the payload of its task from the stream, or logs out. -/
def Pass.Within (n : Nat) : Pass → Prop
  | .done rest => rest.length ≤ n
  | .last task _ => task.recvBits ≤ 0
  | .again task rest => 4 + task.data.length + rest.length ≤ n

theorem readPass_within (fd : Nat) (client : Addr) (readnum : Nat) (header body : Ready)
    (stream : Bytes) : (readPass fd client readnum header body stream).Within stream.length := by
  rcases readFd_spec header stream 4 with ⟨z, hz, hhead, -⟩ | ⟨n, hn, hn4, hlen, -, hhead⟩
  · rw [readPass_nothing hz hhead]
    split
    · exact Nat.le_refl _
    · exact hz
  by_cases hshort : n < 4
  · rw [readPass_short hn hshort hhead]
    show (stream.drop n).length ≤ stream.length
    rw [List.length_drop]
    omega
  obtain rfl : n = 4 := by omega
  by_cases hlong : maxBufferLength < ntohl (stream.take 4)
  · rw [readPass_tooLong hlong hhead]
    exact Int.le_refl 0
  rw [readPass_body (Nat.le_of_not_lt hlong) hhead rfl]
  rcases readFd_spec body (stream.drop 4) (ntohl (stream.take 4)) with
    ⟨z, hz, hbody, -⟩ | ⟨k, hk, -, hklen, -, hbody⟩
  · rw [hbody, if_pos hz]
    show (stream.drop 4).length ≤ stream.length
    rw [List.length_drop]
    omega
  · have hpos : ¬ (k : Int) ≤ 0 := by omega
    rw [hbody, if_neg hpos]
    show 4 + ((stream.drop 4).take k).length + ((stream.drop 4).drop k).length ≤ stream.length
    simp only [List.length_take, List.length_drop] at hklen ⊢
    omega

/-! ## A stream of frames -/

theorem ntohl_frames (hp : p.length ≤ maxBufferLength) (payloads : List Bytes) :
    ntohl ((frames 4 (p :: payloads)).take 4) = p.length := by
  have hlt : maxBufferLength < 256 ^ 4 := by decide
  rw [take_frames_cons, ntohl, value_bigEndian (by omega)]

/-- How a pass over a stream of frames ends: it queues the first payload, or nothing was
there, or some bytes are lost. -/
theorem readPass_frames (hp : 1 ≤ p.length ∧ p.length ≤ maxBufferLength) (fd : Nat)
    (client : Addr) (readnum : Nat) (header body : Ready) (payloads : List Bytes) :
    (header.gives 4 ∧ body.gives p.length ∧
        readPass fd client readnum header body (frames 4 (p :: payloads)) =
          .again ⟨fd, client, 4, p⟩ (frames 4 payloads)) ∨
      (¬ header.gives 1 ∧ 0 < readnum ∧
        readPass fd client readnum header body (frames 4 (p :: payloads)) =
          .done (frames 4 (p :: payloads))) ∨
      (∃ rest, rest.length < (frames 4 (p :: payloads)).length ∧
        readPass fd client readnum header body (frames 4 (p :: payloads)) = .done rest) ∨
      (∃ k < p.length, readPass fd client readnum header body (frames 4 (p :: payloads)) =
          .again ⟨fd, client, 4, p.take k⟩ ((p ++ frames 4 payloads).drop k)) ∨
      ∃ task rest, task.recvBits ≤ 0 ∧
        readPass fd client readnum header body (frames 4 (p :: payloads)) = .last task rest := by
  have hlength := length_frames_cons 4 p payloads
  have hne : frames 4 (p :: payloads) ≠ [] := by
    intro hnil
    rw [hnil, List.length_nil] at hlength
    omega
  rcases readFd_spec header (frames 4 (p :: payloads)) 4 with
    ⟨z, hz, hhead, hnone⟩ | ⟨n, hn, hn4, hlen, hgives, hhead⟩
  · rw [readPass_nothing hz hhead]
    by_cases hnum : 0 < readnum
    · rw [if_pos hnum]
      exact Or.inr (Or.inl ⟨hnone (by omega) hne, hnum, rfl⟩)
    · rw [if_neg hnum]
      exact Or.inr (Or.inr (Or.inr (Or.inr ⟨_, _, hz, rfl⟩)))
  by_cases hshort : n < 4
  · rw [readPass_short hn hshort hhead]
    refine Or.inr (Or.inr (Or.inl ⟨_, ?_, rfl⟩))
    rw [List.length_drop]
    omega
  obtain rfl : n = 4 := by omega
  have hnum := ntohl_frames hp.2 payloads
  rw [drop_frames_cons] at hhead
  rcases readFd_spec body (p ++ frames 4 payloads) p.length with
    ⟨z, hz, hbody, -⟩ | ⟨k, hk, hkp, -, hkgives, hbody⟩
  · rw [← hnum] at hbody
    rw [readPass_body (by omega) hhead hbody, if_pos hz]
    refine Or.inr (Or.inr (Or.inl ⟨_, ?_, rfl⟩))
    rw [List.length_append]
    omega
  · have hpos : ¬ (k : Int) ≤ 0 := by omega
    have hprefix : (p ++ frames 4 payloads).take k = p.take k :=
      List.take_append_of_le_length hkp
    rw [← hnum, hprefix] at hbody
    rw [readPass_body (by omega) hhead hbody, if_neg hpos]
    by_cases hfull : k = p.length
    · subst hfull
      refine Or.inl ⟨hgives, hkgives, ?_⟩
      rw [List.take_length, List.drop_left]
    · exact Or.inr (Or.inr (Or.inr (Or.inl ⟨k, by omega, rfl⟩)))

/-- The task that is queued for a payload. -/
def payloadTask (fd : Nat) (client : Addr) (p : Bytes) : Task := ⟨fd, client, 4, p⟩

theorem readPass_gives (hp : 1 ≤ p.length ∧ p.length ≤ maxBufferLength) (hheader : header.gives 4)
    (hbody : body.gives p.length) (fd : Nat) (client : Addr) (readnum : Nat)
    (payloads : List Bytes) :
    readPass fd client readnum header body (frames 4 (p :: payloads)) =
      .again (payloadTask fd client p) (frames 4 payloads) := by
  have hlength := length_frames_cons 4 p payloads
  have hnum := ntohl_frames hp.2 payloads
  have hhead : readFd header (frames 4 (p :: payloads)) 4 =
      ⟨4, (frames 4 (p :: payloads)).take 4, p ++ frames 4 payloads⟩ := by
    rw [← drop_frames_cons]
    exact readFd_of_gives hheader (by omega) (by omega)
  have hbuf : readFd body (p ++ frames 4 payloads)
      (ntohl ((frames 4 (p :: payloads)).take 4)) = ⟨p.length, p, frames 4 payloads⟩ := by
    rw [hnum, readFd_of_gives hbody (by omega) (by simp), List.take_left, List.drop_left]
  have hpos : ¬ (p.length : Int) ≤ 0 := by omega
  rw [readPass_body (by omega) hhead hbuf, if_neg hpos]
  rfl

/-! ## One event -/

/-- A group that is handed out whole is queued whole, and the rest stays in the stream. -/
theorem readLoop_handsOut (hp : ∀ p ∈ group, 1 ≤ p.length ∧ p.length ≤ maxBufferLength)
    (hnum : group = [] → 0 < readnum) (h : HandsOut later group ready) :
    readLoop fd client readnum ready (frames 4 (group ++ later)) =
      (group.map (payloadTask fd client), frames 4 later) := by
  induction group generalizing readnum ready with
  | nil =>
    have hpos := hnum rfl
    cases ready with
    | nil => rw [readLoop, if_pos hpos, List.nil_append, List.map_nil]
    | cons answer ready =>
      obtain ⟨header, body⟩ := answer
      have hlast : ∃ z ≤ 0, readFd header (frames 4 later) 4 = ⟨z, [], frames 4 later⟩ := by
        rcases readFd_spec header (frames 4 later) 4 with
          ⟨z, hz, hhead, -⟩ | ⟨n, hn, -, hlen, hgives, -⟩
        · exact ⟨z, hz, hhead⟩
        · rcases h with rfl | hnone
          · rw [frames_nil, List.length_nil] at hlen
            omega
          · exact absurd (hgives.mono hn) hnone
      obtain ⟨z, hz, hhead⟩ := hlast
      simp only [List.nil_append, readLoop, readPass_nothing hz hhead, if_pos hpos, List.map_nil]
  | cons p group ih =>
    cases ready with
    | nil => exact absurd h id
    | cons answer ready =>
      obtain ⟨header, body⟩ := answer
      obtain ⟨hheader, hbody, h⟩ := h
      have hpass := readPass_gives (hp p List.mem_cons_self) hheader hbody fd client readnum
        (group ++ later)
      have hrest : readLoop fd client (readnum + 1) ready (frames 4 (group ++ later)) = _ :=
        ih (fun q hq => hp q (List.mem_cons_of_mem p hq)) (fun _ => by omega) h
      simp only [List.cons_append, readLoop, hpass, hrest, List.map_cons]

/-- The bytes behind the payloads of tasks: their headers and themselves. -/
def taskBytes (tasks : List Task) : Nat := (tasks.map fun task => 4 + task.data.length).sum

theorem taskBytes_cons (task : Task) (tasks : List Task) :
    taskBytes (task :: tasks) = 4 + task.data.length + taskBytes tasks := by
  rw [taskBytes, List.map_cons, List.sum_cons, taskBytes]

theorem taskBytes_append (tasks tasks' : List Task) :
    taskBytes (tasks ++ tasks') = taskBytes tasks + taskBytes tasks' := by
  rw [taskBytes, List.map_append, List.sum_append, taskBytes, taskBytes]

/-- Every task was read from the stream, unless it logs out. -/
theorem readLoop_length (h : ∀ task ∈ (readLoop fd client readnum ready stream).1,
    0 < task.recvBits) :
    taskBytes (readLoop fd client readnum ready stream).1 +
      (readLoop fd client readnum ready stream).2.length ≤ stream.length := by
  induction ready generalizing readnum stream with
  | nil =>
    by_cases hnum : 0 < readnum
    · simp [readLoop, hnum, taskBytes]
    · simp [readLoop, hnum] at h
  | cons answer ready ih =>
    obtain ⟨header, body⟩ := answer
    have hwithin := readPass_within fd client readnum header body stream
    cases hpass : readPass fd client readnum header body stream with
    | done rest =>
      rw [hpass] at hwithin
      have hwithin : rest.length ≤ stream.length := hwithin
      simpa [readLoop, hpass, taskBytes] using hwithin
    | last task rest =>
      rw [hpass] at hwithin
      simp only [readLoop, hpass, List.mem_singleton, forall_eq] at h
      have hrecv : task.recvBits ≤ 0 := hwithin
      omega
    | again task rest =>
      rw [hpass] at hwithin
      have hwithin : 4 + task.data.length + rest.length ≤ stream.length := hwithin
      simp only [readLoop, hpass, taskBytes_cons] at h ⊢
      have hrest := ih (fun t ht => h t (List.mem_cons_of_mem task ht))
      omega

/-- When nothing is lost or logged out, what was queued is a group that was handed out
whole. -/
theorem readLoop_whole (hp : ∀ p ∈ payloads, 1 ≤ p.length ∧ p.length ≤ maxBufferLength)
    {more : List Bytes}
    (hdata : (readLoop fd client readnum ready (frames 4 payloads)).1.map Task.data ++ more =
      payloads)
    (hrecv : ∀ task ∈ (readLoop fd client readnum ready (frames 4 payloads)).1,
      0 < task.recvBits)
    (hmore : (frames 4 more).length ≤
      (readLoop fd client readnum ready (frames 4 payloads)).2.length) :
    ∃ group, payloads = group ++ more ∧ (group = [] → 0 < readnum) ∧
      HandsOut more group ready ∧
      (readLoop fd client readnum ready (frames 4 payloads)).2 = frames 4 more := by
  induction ready generalizing readnum payloads with
  | nil =>
    by_cases hnum : 0 < readnum
    · simp only [readLoop, if_pos hnum, List.map_nil, List.nil_append] at hdata ⊢
      exact ⟨[], hdata.symm, fun _ => hnum, trivial, by rw [hdata]⟩
    · simp [readLoop, hnum] at hrecv
  | cons answer ready ih =>
    obtain ⟨header, body⟩ := answer
    cases payloads with
    | nil =>
      obtain ⟨z, hz, hpass⟩ := readPass_nil fd client readnum header body
      by_cases hnum : 0 < readnum
      · rw [if_pos hnum] at hpass
        simp only [frames_nil, readLoop, hpass, List.map_nil, List.nil_append] at hdata ⊢
        exact ⟨[], hdata.symm, fun _ => hnum, Or.inl hdata, by rw [hdata, frames_nil]⟩
      · rw [if_neg hnum] at hpass
        simp only [frames_nil, readLoop, hpass, List.mem_singleton, forall_eq] at hrecv
        omega
    | cons p payloads =>
      rcases readPass_frames (hp p List.mem_cons_self) fd client readnum header body payloads with
        ⟨hheader, hbody, hpass⟩ | ⟨hnone, hnum, hpass⟩ | ⟨rest, hlost, hpass⟩ |
        ⟨k, hk, hpass⟩ | ⟨task, rest, hout, hpass⟩
      · simp only [readLoop, hpass, List.map_cons, List.cons_append, List.cons.injEq, true_and]
          at hdata hrecv hmore ⊢
        obtain ⟨group, rfl, -, hgroup, hrest⟩ := ih
          (fun q hq => hp q (List.mem_cons_of_mem p hq)) hdata
          (fun task ht => hrecv task (List.mem_cons_of_mem _ ht)) hmore
        exact ⟨p :: group, rfl, fun h => absurd h (List.cons_ne_nil p group),
          ⟨hheader, hbody, hgroup⟩, hrest⟩
      · simp only [readLoop, hpass, List.map_nil, List.nil_append] at hdata ⊢
        exact ⟨[], hdata.symm, fun _ => hnum, Or.inr hnone, by rw [hdata]⟩
      · simp only [readLoop, hpass, List.map_nil, List.nil_append] at hdata hmore
        rw [hdata] at hmore
        omega
      · simp only [readLoop, hpass, List.map_cons, List.cons_append, List.cons.injEq] at hdata
        have hlen := congrArg List.length hdata.1
        rw [List.length_take] at hlen
        omega
      · simp only [readLoop, hpass, List.mem_singleton, forall_eq] at hrecv
        omega

/-! ## All events -/

theorem wakeUps_length (h : ∀ task ∈ (wakeUps fd client events stream).1, 0 < task.recvBits) :
    taskBytes (wakeUps fd client events stream).1 ≤ stream.length := by
  induction events generalizing stream with
  | nil => simp [wakeUps, taskBytes]
  | cons ready events ih =>
    simp only [wakeUps, taskBytes_append] at h ⊢
    have hloop := readLoop_length fun task ht => h task (List.mem_append.mpr (Or.inl ht))
    have hrest := ih fun task ht => h task (List.mem_append.mpr (Or.inr ht))
    omega

theorem length_frames_data (tasks : List Task) :
    (frames 4 (tasks.map Task.data)).length = taskBytes tasks := by
  rw [length_frames, List.map_map, taskBytes]
  rfl

theorem wakeUps_whole (hp : ∀ p ∈ payloads, 1 ≤ p.length ∧ p.length ≤ maxBufferLength)
    (h : Whole payloads events) : (wakeUps fd client events (frames 4 payloads)).1 =
      payloads.map (payloadTask fd client) := by
  induction events generalizing payloads with
  | nil =>
    obtain rfl : payloads = [] := h
    rfl
  | cons ready events ih =>
    obtain ⟨group, later, rfl, hne, hgroup, h⟩ := h
    have hloop : readLoop fd client 0 ready (frames 4 (group ++ later)) = _ := readLoop_handsOut
      (fun p hq => hp p (List.mem_append.mpr (Or.inl hq))) (fun h => absurd h hne) hgroup
    have hrest := ih (fun p hq => hp p (List.mem_append.mpr (Or.inr hq))) h
    simp only [wakeUps, hloop, hrest, List.map_append]

theorem whole_of_reassembled
    (hp : ∀ p ∈ payloads, 1 ≤ p.length ∧ p.length ≤ maxBufferLength)
    (h : Reassembled payloads (wakeUps fd client events (frames 4 payloads)).1) :
    Whole payloads events := by
  induction events generalizing payloads with
  | nil => exact h.1.symm
  | cons ready events ih =>
    obtain ⟨hdata, hrecv⟩ := h
    simp only [wakeUps, List.map_append] at hdata hrecv
    have hmore := wakeUps_length fun task ht => hrecv task (List.mem_append.mpr (Or.inr ht))
    rw [← length_frames_data] at hmore
    obtain ⟨group, hgroup, hne, hout, hrest⟩ := readLoop_whole hp hdata
      (fun task ht => hrecv task (List.mem_append.mpr (Or.inl ht))) hmore
    refine ⟨group, _, hgroup, fun h => absurd (hne h) (by omega), hout, ih ?_ ?_⟩
    · intro p hq
      exact hp p (hgroup ▸ List.mem_append.mpr (Or.inr hq))
    · rw [← hrest]
      exact ⟨rfl, fun task ht => hrecv task (List.mem_append.mpr (Or.inr ht))⟩

/-- **Reassembly.** The payloads come back, and nobody is logged out, exactly when every event
finds a whole number of frames and at least one. -/
theorem reassembled_iff (fd : Nat) (client : Addr) (events : List (List (Ready × Ready)))
    (hp : ∀ p ∈ payloads, 1 ≤ p.length ∧ p.length ≤ maxBufferLength) :
    Reassembled payloads (wakeUps fd client events (frames 4 payloads)).1 ↔
      Whole payloads events := by
  refine ⟨whole_of_reassembled hp, fun h => ?_⟩
  rw [wakeUps_whole hp h]
  refine ⟨?_, fun task ht => ?_⟩
  · rw [List.map_map]
    exact List.map_id payloads
  · obtain ⟨p, -, rfl⟩ := List.mem_map.mp ht
    show (0 : Int) < 4
    omega

/-- Two frames that are there together. -/
theorem reassembled_iff_together :
    Reassembled [[1, 2], [3]] (wakeUps 5 100 [[(.bytes 4, .bytes 2), (.bytes 4, .bytes 1)]]
      (frames 4 [[1, 2], [3]])).1 := by
  have hsizes : ∀ p ∈ ([[1, 2], [3]] : List Bytes), 1 ≤ p.length ∧ p.length ≤ maxBufferLength := by
    decide
  refine (reassembled_iff 5 100 _ hsizes).mpr ⟨[[1, 2], [3]], [], rfl, by simp, ?_, rfl⟩
  exact ⟨Nat.le_refl 4, Nat.le_refl 2, Nat.le_refl 4, Nat.le_refl 1, trivial⟩

/-- A call finds the connection as it should be. -/
def Ready.connected : Ready → Bool
  | .bytes _ => true
  | _ => false

/-- The peer stays connected, and all of the stream arrives and is read. -/
def Delivered (events : List (List (Ready × Ready))) (rest : Bytes) : Prop :=
  (∀ ready ∈ events, ∀ answer ∈ ready, answer.1.connected ∧ answer.2.connected) ∧ rest = []

/-- A frame of five bytes that arrive as two and three is lost. -/
theorem reassembly_not_kept : ¬ ∀ (fd : Nat) (client : Addr) (payloads : List Bytes)
    (events : List (List (Ready × Ready))),
    (∀ p ∈ payloads, 1 ≤ p.length ∧ p.length ≤ maxBufferLength) →
    Delivered events (wakeUps fd client events (frames 4 payloads)).2 →
    Reassembled payloads (wakeUps fd client events (frames 4 payloads)).1 := by
  intro hall
  have hkept := hall 5 100 [[7]] [[(.bytes 2, .bytes 0)], [(.bytes 3, .bytes 0)]] (by decide)
    ⟨by decide, by decide⟩
  have hnone : (wakeUps 5 100 [[(.bytes 2, .bytes 0)], [(.bytes 3, .bytes 0)]]
      (frames 4 [[7]])).1.map Task.data = [] := by
    decide
  rw [hkept.1] at hnone
  cases hnone

end ArpgServer
