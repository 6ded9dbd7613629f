import ArpgServer.Frames.Reassembly
import ArpgServer.Tasks.Lifetime

/-!
# When the reading thread leaves a connection

An edge-triggered event is not repeated, so the thread should go on until a read would block,
or queue a logout. It also leaves without either: at the end of the stream or an error behind
a frame, after a piece of a header, at an empty payload, and at the end of the stream or an
error in front of a payload.
-/

namespace ArpgServer

variable {env : Env} {m m' : Machine} {fd : Nat} {client : Addr} {readnum size : Nat}
  {r header body : Ready} {ready : List (Ready × Ready)} {stream rest : Bytes}

/-- The call finds that nothing has arrived. -/
def Ready.blocks (ready : Ready) (stream : Bytes) (size : Nat) : Bool :=
  match ready with
  | .bytes _ => (readFd ready stream size).result = -1
  | _ => false

/-- The last read of a pass would block. -/
def passBlocks (header body : Ready) (stream : Bytes) : Bool :=
  let head := readFd header stream 4
  if head.result = 4 ∧ ntohl head.data ≤ maxBufferLength then
    body.blocks head.rest (ntohl head.data)
  else header.blocks stream 4

/-- The last read of an event would block. -/
def loopBlocks (fd : Nat) (client : Addr) : Nat → List (Ready × Ready) → Bytes → Bool
  | _, [], _ => true
  | readnum, (header, body) :: ready, stream =>
    match readPass fd client readnum header body stream with
    | .again _ rest => loopBlocks fd client (readnum + 1) ready rest
    | _ => passBlocks header body stream

/-- The tasks end with a logout, and it is the only one. -/
def LogsOut (fd : Nat) (client : Addr) (tasks : List Task) : Prop :=
  ∃ before last, tasks = before ++ [last] ∧ last.fd = fd ∧ last.client = client ∧
    last.recvBits ≤ 0 ∧ ∀ task ∈ before, 0 < task.recvBits

/-- The event was handled until a read would block, or a logout was queued. -/
def Drained (fd : Nat) (client : Addr) (ready : List (Ready × Ready)) (stream : Bytes)
    (m m' : Machine) : Prop :=
  loopBlocks fd client 0 ready stream ∨
    ∃ tasks, m'.queue = m.queue ++ tasks ∧ LogsOut fd client tasks

/-- How many bytes a call of `read` can take. -/
def Ready.takes (ready : Ready) (stream : Bytes) (size : Nat) : Nat :=
  match ready with
  | .bytes n => min (min n size) stream.length
  | _ => 0

/-- A header that finds nothing finds an idle connection, unless it is the first of the event;
otherwise it is there as a whole, and is too large, or is not zero and in front of something or
of an idle connection. -/
def KeepsReading : Nat → List (Ready × Ready) → Bytes → Prop
  | _, [], _ => True
  | readnum, (header, body) :: ready, stream =>
    let len := ntohl (stream.take 4)
    let n := body.takes (stream.drop 4) len
    if header.takes stream 4 = 0 then readnum = 0 ∨ header.connected
    else
      header.takes stream 4 = 4 ∧ (maxBufferLength < len ∨
        (0 < len ∧ body.connected ∧
          (0 < n → KeepsReading (readnum + 1) ready ((stream.drop 4).drop n))))

/-! ## One call of `read` -/

theorem readFd_takes (r : Ready) (stream : Bytes) (size : Nat) :
    (r.takes stream size = 0 ∧ ∃ z ≤ 0, readFd r stream size = ⟨z, [], stream⟩ ∧
        (0 < size → r.blocks stream size = r.connected) ∧
        (size = 0 → r.blocks stream size = false)) ∨
      ∃ n, r.takes stream size = n ∧ 0 < n ∧ n ≤ size ∧ r.connected ∧
        r.blocks stream size = false ∧
        readFd r stream size = ⟨n, stream.take n, stream.drop n⟩ := by
  cases r with
  | eof => exact Or.inl ⟨rfl, 0, by omega, rfl, fun _ => rfl, fun _ => rfl⟩
  | failed => exact Or.inl ⟨rfl, -1, by omega, rfl, fun _ => rfl, fun _ => rfl⟩
  | bytes k =>
    by_cases hsize : size = 0
    · refine Or.inl ⟨by simp [Ready.takes, hsize], 0, by omega, by simp [readFd, hsize], ?_, ?_⟩
      · intro h
        omega
      · intro _
        simp [Ready.blocks, readFd, hsize]
    · by_cases hnone : min (min k size) stream.length = 0
      · refine Or.inl ⟨hnone, -1, by omega, ?_, fun _ => ?_, fun h => absurd h hsize⟩
        · simp only [readFd, List.length_take, if_neg hsize, if_pos hnone]
        · simp only [Ready.blocks, readFd, List.length_take, if_neg hsize, if_pos hnone,
            Ready.connected, decide_true]
      · have htake : stream.take (min k size) = stream.take (min (min k size) stream.length) := by
          rw [List.take_eq_take_iff]
          omega
        refine Or.inr ⟨min (min k size) stream.length, rfl, by omega, by omega, rfl, ?_, ?_⟩
        · have hres : ¬ ((min (min k size) stream.length : Nat) : Int) = -1 := by omega
          simp only [Ready.blocks, readFd, List.length_take, if_neg hsize, if_neg hnone, hres,
            decide_false]
        · simp only [readFd, List.length_take, if_neg hsize, if_neg hnone]
          rw [← htake]

/-! ## One event -/

theorem logsOut_nil : ¬ LogsOut fd client [] := by
  rintro ⟨before, last, hnil, -⟩
  simp at hnil

theorem logsOut_singleton {z : Int} (hz : z ≤ 0) : LogsOut fd client [⟨fd, client, z, []⟩] :=
  ⟨[], _, rfl, rfl, rfl, hz, by simp⟩

/-- A task with a frame in front does not matter. -/
theorem logsOut_cons {task : Task} {tasks : List Task} (htask : 0 < task.recvBits) :
    LogsOut fd client (task :: tasks) ↔ LogsOut fd client tasks := by
  constructor
  · rintro ⟨before, last, htasks, hfd, hclient, hlast, hbefore⟩
    cases before with
    | nil =>
      rw [List.nil_append, List.cons.injEq] at htasks
      rw [htasks.1] at htask
      omega
    | cons first before =>
      rw [List.cons_append, List.cons.injEq] at htasks
      exact ⟨before, last, htasks.2, hfd, hclient, hlast,
        fun t ht => hbefore t (List.mem_cons_of_mem first ht)⟩
  · rintro ⟨before, last, rfl, hfd, hclient, hlast, hbefore⟩
    refine ⟨task :: before, last, rfl, hfd, hclient, hlast, fun t ht => ?_⟩
    rcases List.mem_cons.mp ht with rfl | ht
    · exact htask
    · exact hbefore t ht

theorem loop_iff (ready : List (Ready × Ready)) (readnum : Nat) (stream : Bytes) :
    (loopBlocks fd client readnum ready stream ∨
      LogsOut fd client (readLoop fd client readnum ready stream).1) ↔
      KeepsReading readnum ready stream := by
  induction ready generalizing readnum stream with
  | nil => exact ⟨fun _ => trivial, fun _ => Or.inl rfl⟩
  | cons answer ready ih =>
    obtain ⟨header, body⟩ := answer
    rcases readFd_takes header stream 4 with
      ⟨hnone, z, hz, hhead, hblocks, -⟩ | ⟨n, htakes, hn, hn4, -, hblocks, hhead⟩
    · have hpass : readPass fd client readnum header body stream = _ :=
        readPass_nothing hz hhead
      have hz4 : z ≠ 4 := by omega
      have hidle : passBlocks header body stream = header.connected := by
        simp only [passBlocks, hhead, hz4, false_and, if_false]
        exact hblocks (by omega)
      by_cases hnum : 0 < readnum
      · have hfirst : ¬ readnum = 0 := by omega
        rw [if_pos hnum] at hpass
        simp only [loopBlocks, readLoop, KeepsReading, hpass, if_pos hnone, hidle, logsOut_nil,
          or_false, hfirst, false_or]
      · obtain rfl : readnum = 0 := by omega
        rw [if_neg hnum] at hpass
        simp only [loopBlocks, readLoop, KeepsReading, hpass, if_pos hnone, logsOut_singleton hz,
          or_true, true_or]
    have hsome : ¬ header.takes stream 4 = 0 := by omega
    by_cases hshort : n < 4
    · have hpass : readPass fd client readnum header body stream = _ :=
        readPass_short hn hshort hhead
      have hn4 : ¬ (n : Int) = 4 := by omega
      have hpart : ¬ header.takes stream 4 = 4 := by omega
      have hidle : passBlocks header body stream = false := by
        simp only [passBlocks, hhead, hn4, false_and, if_false, hblocks]
      simp only [loopBlocks, readLoop, KeepsReading, hpass, hidle, if_neg hsome, hpart, logsOut_nil,
        Bool.false_eq_true, false_and, or_false]
    obtain rfl : n = 4 := by omega
    have hsome : ¬ (4 : Nat) = 0 := by omega
    by_cases hlong : maxBufferLength < ntohl (stream.take 4)
    · have hpass : readPass fd client readnum header body stream = _ :=
        readPass_tooLong hlong hhead
      simp only [loopBlocks, readLoop, KeepsReading, hpass, htakes, if_neg hsome, hlong, true_or,
        and_self, logsOut_singleton (Int.le_refl 0), or_true]
    have hfits : ntohl (stream.take 4) ≤ maxBufferLength := Nat.le_of_not_lt hlong
    rcases readFd_takes body (stream.drop 4) (ntohl (stream.take 4)) with
      ⟨hempty, z, hz, hbody, hblocks, hzero⟩ | ⟨k, hk, hpos, hlen, hconn, -, hbody⟩
    · have hpass : readPass fd client readnum header body stream = _ :=
        readPass_body hfits hhead hbody
      rw [if_pos hz] at hpass
      have hidle : passBlocks header body stream = true ↔
          0 < ntohl (stream.take 4) ∧ body.connected = true := by
        simp only [passBlocks, hhead, Nat.cast_ofNat, hfits, and_self, if_true]
        rcases Nat.eq_zero_or_pos (ntohl (stream.take 4)) with h0 | h0
        · rw [hzero h0, h0]
          simp
        · simp only [hblocks h0, h0, true_and]
      simp only [loopBlocks, readLoop, KeepsReading, hpass, hidle, if_neg hsome, htakes, hlong,
        hempty, logsOut_nil, or_false, false_or, true_and, Nat.lt_irrefl, false_imp_iff, and_true]
    · have hpass : readPass fd client readnum header body stream = _ :=
        readPass_body hfits hhead hbody
      have hk0 : ¬ (k : Int) ≤ 0 := by omega
      have hlen0 : 0 < ntohl (stream.take 4) := by omega
      rw [if_neg hk0] at hpass
      simp only [loopBlocks, readLoop, KeepsReading, hpass, if_neg hsome, htakes, hlong, hk, hconn,
        hlen0, hpos, false_or, true_and, true_imp_iff]
      rw [logsOut_cons (by show (0 : Int) < 4; omega)]
      exact ih (readnum + 1) ((stream.drop 4).drop k)

theorem drained_loop_iff (hclient : m.server.fdClients fd = some client)
    (hturn : m.turn env (.input fd ready stream) = some m') :
    Drained fd client ready stream m m' ↔ (loopBlocks fd client 0 ready stream ∨
      LogsOut fd client (readLoop fd client 0 ready stream).1) := by
  simp only [Machine.turn, hclient] at hturn
  obtain ⟨s, -, rfl⟩ := Option.map_eq_some_iff.mp hturn
  apply or_congr_right
  constructor
  · rintro ⟨tasks, htasks, hout⟩
    rwa [List.append_cancel_left htasks]
  · intro hout
    exact ⟨_, rfl, hout⟩

/-- **Edge-triggered reading.** An event ends with a read that would block or with one logout at
the end of its tasks exactly when no header behind a frame and no payload finds the end of the
stream or an error, no header is there in part only, and no length is zero. -/
theorem drained_iff (hclient : m.server.fdClients fd = some client)
    (hturn : m.turn env (.input fd ready stream) = some m') :
    Drained fd client ready stream m m' ↔ KeepsReading 0 ready stream := by
  rw [drained_loop_iff hclient hturn]
  exact loop_iff ready 0 stream

/-- The machine with one connection. -/
theorem machineRuns_connected : ∃ m : Machine, MachineRuns (fun _ _ _ => True) m ∧
    m.server.fdClients 5 = some 100 ∧ ∀ ready stream,
      ∃ m', m.turn (.delivering 0 pingPacket) (.input 5 ready stream) = some m' := by
  have hcheck : ((Machine.start fun _ => lobbyConf).turns
      [(.delivering 0 pingPacket, .accept 5 100)]).any (fun m =>
        m.server.fdClients 5 = some 100 ∧ (m.server.heap 100).isSome) := by
    decide +kernel
  obtain ⟨m, hm, hcheck⟩ := (Option.any_eq_true _ _).mp hcheck
  obtain ⟨hfd, hheap⟩ := of_decide_eq_true hcheck
  obtain ⟨c, hc⟩ := Option.isSome_iff_exists.mp hheap
  refine ⟨m, machineRuns_of_turns (by simp [Machine.Allows]) hm, hfd, fun ready stream => ?_⟩
  simp [Machine.turn, noteInput, hfd, hc]

/-- A frame behind which nothing has arrived yet. -/
theorem drained_iff_frame : ∃ m m' : Machine, m.server.fdClients 5 = some 100 ∧
    (Drained 5 100 [(.bytes 4, .bytes 1), (.bytes 0, .bytes 0)] [0, 0, 0, 1, 7] m m' ↔
      KeepsReading 0 [(.bytes 4, .bytes 1), (.bytes 0, .bytes 0)] [0, 0, 0, 1, 7]) := by
  obtain ⟨m, -, hfd, hturn⟩ := machineRuns_connected
  obtain ⟨m', hturn⟩ := hturn [(.bytes 4, .bytes 1), (.bytes 0, .bytes 0)] [0, 0, 0, 1, 7]
  exact ⟨m, m', hfd, drained_iff hfd hturn⟩

/-- Nobody notices that the peer has closed the connection behind a frame. -/
theorem close_not_drained : ¬ ∀ (env : Env) (m m' : Machine) (fd : Nat) (client : Addr)
    (ready : List (Ready × Ready)) (stream : Bytes), MachineRuns (fun _ _ _ => True) m →
    m.server.fdClients fd = some client → m.turn env (.input fd ready stream) = some m' →
    Drained fd client ready stream m m' := by
  intro hall
  obtain ⟨m, hm, hfd, hturn⟩ := machineRuns_connected
  obtain ⟨m', hturn⟩ := hturn [(.bytes 4, .bytes 1), (.eof, .eof)] [0, 0, 0, 1, 7]
  rcases (drained_loop_iff hfd hturn).mp (hall _ m m' 5 100 _ _ hm hfd hturn) with hblocks | hout
  · have hidle : loopBlocks 5 100 0 [(.bytes 4, .bytes 1), (.eof, .eof)] [0, 0, 0, 1, 7] =
        false := by
      decide
    rw [hidle] at hblocks
    cases hblocks
  · have htasks : (readLoop 5 100 0 [(.bytes 4, .bytes 1), (.eof, .eof)] [0, 0, 0, 1, 7]).1 =
        [⟨5, 100, 4, [7]⟩] := by
      rfl
    rw [htasks, logsOut_cons (by decide)] at hout
    exact logsOut_nil hout

end ArpgServer
