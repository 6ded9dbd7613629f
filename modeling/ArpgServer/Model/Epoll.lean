import ArpgServer.Library.Framing
import ArpgServer.Model.Server

/-!
# The reading thread (`serv_epoll`)

For an input event the thread reads frames until the connection has no more of them, and
queues a task for each. Nothing of an unfinished frame is kept for the next event.
-/

namespace ArpgServer

/-! ## One call of `read` -/

/-- What `read` can get when it is called: so many bytes at most, the end of the stream, or an
error that is not `EAGAIN`. -/
inductive Ready where
  | bytes (n : Nat)
  | eof
  | failed
  deriving DecidableEq

/-- What `read` returns, what it has read and what is left in the stream. -/
structure ReadResult where
  result : Int
  data : Bytes
  rest : Bytes

/-- `read (fd, buf, size)`; `EAGAIN` when nothing has arrived. -/
def readFd (ready : Ready) (stream : Bytes) (size : Nat) : ReadResult :=
  match ready with
  | .eof => ⟨0, [], stream⟩
  | .failed => ⟨-1, [], stream⟩
  | .bytes n =>
    let data := stream.take (min n size)
    if size = 0 then ⟨0, [], stream⟩
    else if data.length = 0 then ⟨-1, [], stream⟩
    else ⟨data.length, data, stream.drop data.length⟩

/-! ## The loop -/

/-- `ntohl (len)`. As an `int` it is negative from `2^31` on, but it is compared with a
`size_t`, so that the unsigned value decides. -/
def ntohl (len : Bytes) : Nat := Framing.value len

/-- How one pass from the label `read` ends. -/
inductive Pass where
  | done (rest : Bytes)
  | last (task : Task) (rest : Bytes)
  | again (task : Task) (rest : Bytes)

/-- The payload behind a header: `recv_bits` as it is then, and what was read. -/
def readBody (head : ReadResult) (body : Ready) : Int × ReadResult :=
  if head.result = 4 then
    if ntohl head.data ≤ maxBufferLength then
      (head.result, readFd body head.rest (ntohl head.data))
    else (0, ⟨0, [], head.rest⟩)
  else (head.result, ⟨0, [], head.rest⟩)

/-- One pass, with what has arrived for its two calls of `read`. -/
def readPass (fd : Nat) (client : Addr) (readnum : Nat) (header body : Ready) (stream : Bytes) :
    Pass :=
  let head := readFd header stream 4
  if head.result ≤ 0 ∧ 0 < readnum then .done head.rest
  else
    let (recvBits, buf) := readBody head body
    if 0 < recvBits ∧ buf.result ≤ 0 then .done buf.rest
    else if 0 < recvBits then .again ⟨fd, client, recvBits, buf.data⟩ buf.rest
    else .last ⟨fd, client, recvBits, buf.data⟩ buf.rest

/-- The passes for one event: the tasks that are queued and what is left in the stream. At
the end of the list nothing has arrived. -/
def readLoop (fd : Nat) (client : Addr) :
    Nat → List (Ready × Ready) → Bytes → List Task × Bytes
  | readnum, [], stream => (if 0 < readnum then [] else [⟨fd, client, -1, []⟩], stream)
  | readnum, (header, body) :: ready, stream =>
    match readPass fd client readnum header body stream with
    | .done rest => ([], rest)
    | .last task rest => ([task], rest)
    | .again task rest =>
      let (tasks, rest) := readLoop fd client (readnum + 1) ready rest
      (task :: tasks, rest)

/-- The input events of a connection. -/
def wakeUps (fd : Nat) (client : Addr) : List (List (Ready × Ready)) → Bytes → List Task × Bytes
  | [], stream => ([], stream)
  | ready :: events, stream =>
    let (tasks, rest) := readLoop fd client 0 ready stream
    let (later, rest) := wakeUps fd client events rest
    (tasks ++ later, rest)

end ArpgServer
