import ArpgServer.Model.Epoll

/-!
# The policy server (`serv_policy`, `lua_getcrossdomain`)

A thread of its own answers the requests for the cross-domain policy. It waits until it can
write to a client that has asked, and sends the text of the configuration, which it reads when
it needs it first and keeps from then on.
-/

namespace ArpgServer

open CText

/-- `POLICY`. -/
def policyText : Bytes := ofString "<policy-file-request/>"

/-- `strncmp (buf, POLICY, sizeof (POLICY)) == 0`. The buffer is cleared before `data` is read
into it, and the terminator of `POLICY` is compared as well. -/
def isPolicy (data : Bytes) : Bool :=
  (data ++ List.replicate (maxBufferLength - data.length) 0).take (policyText.length + 1) =
    policyText ++ [0]

/-- The event of a descriptor that `policy_epfd` waits for. -/
inductive Interest where
  | input | output
  deriving DecidableEq

structure PolicyServer where
  interest : Nat → Option Interest
  crossdomain : Bytes
  sent : List (Nat × Bytes)

/-- What `epoll_wait` reports: a connection, for which `accept` may fail, or a client that can
be read from or written to. -/
inductive PolicyEvent where
  | connect (fd : Option Nat)
  | readable (fd : Nat) (ready : Ready) (stream : Bytes)
  | writable (fd : Nat)

/-- `lua_getcrossdomain`; the globals of `conf/config.lua` are `none` when the script fails. -/
def luaGetcrossdomain (script : Option (Bytes → LuaValue)) : Option Bytes :=
  script.bind fun globals => luaGetstring globals (ofString "crossdomain")

namespace PolicyServer

def start : PolicyServer := { interest := fun _ => none, crossdomain := [], sent := [] }

/-- `epoll_ctl`. -/
def watch (m : PolicyServer) (fd : Nat) (interest : Option Interest) : PolicyServer :=
  { m with interest := Function.update m.interest fd interest }

/-- The text is read as long as it is empty. One that is missing or does not fit is a fault. -/
def load (script : Option (Bytes → LuaValue)) (m : PolicyServer) : Option PolicyServer :=
  if m.crossdomain.length ≤ 0 then
    (luaGetcrossdomain script).bind fun temp =>
      if temp.length + 1 ≤ maxBufferLength then some { m with crossdomain := temp } else none
  else some m

/-- `send (event_fd, crossdomain, strlen (crossdomain) + 1, MSG_NOSIGNAL)`. -/
def send (m : PolicyServer) (fd : Nat) : PolicyServer :=
  { m with sent := m.sent ++ [(fd, m.crossdomain ++ [0])] }

/-- The body of the loop over the events. -/
def handle (script : Option (Bytes → LuaValue)) (m : PolicyServer) :
    PolicyEvent → Option PolicyServer
  | .connect none => some m
  | .connect (some fd) => some (m.watch fd (some .input))
  | .readable fd ready stream =>
    let got := readFd ready stream maxBufferLength
    if got.result ≤ 0 then some (m.watch fd none)
    else if isPolicy got.data then some (m.watch fd (some .output))
    else some m
  | .writable fd => (m.load script).map fun m => (m.send fd).watch fd (some .input)

/-- `accept` returns a descriptor that is not open, and the kernel reports what has been asked
for. -/
def reports (m : PolicyServer) : PolicyEvent → Bool
  | .connect none => true
  | .connect (some fd) => m.interest fd = none
  | .readable fd _ _ => m.interest fd = some .input
  | .writable fd => m.interest fd = some .output

/-- Events one after another. The configuration may change at any time. -/
inductive Runs : PolicyServer → List PolicyEvent → PolicyServer → Prop where
  | refl (m : PolicyServer) : Runs m [] m
  | tail {m m' m'' : PolicyServer} {es : List PolicyEvent} {e : PolicyEvent}
      (script : Option (Bytes → LuaValue)) (h : Runs m es m') (he : m'.reports e)
      (hstep : m'.handle script e = some m'') : Runs m (es ++ [e]) m''

/-- A run of given events. -/
def serve (m : PolicyServer) : List (Option (Bytes → LuaValue) × PolicyEvent) →
    Option PolicyServer
  | [] => some m
  | (script, e) :: rest =>
    if m.reports e then (m.handle script e).bind fun m' => m'.serve rest else none

theorem runs_of_serve {m₀ m m' : PolicyServer} {es : List PolicyEvent}
    {l : List (Option (Bytes → LuaValue) × PolicyEvent)} (h₀ : Runs m₀ es m)
    (h : m.serve l = some m') : Runs m₀ (es ++ l.map Prod.snd) m' := by
  induction l generalizing m es with
  | nil =>
    cases h
    simpa using h₀
  | cons x rest ih =>
    obtain ⟨script, e⟩ := x
    obtain ⟨he, h⟩ := Option.ite_none_right_eq_some.mp h
    obtain ⟨m₁, hstep, h⟩ := Option.bind_eq_some_iff.mp h
    simpa using ih (h₀.tail script he hstep) h

end PolicyServer

end ArpgServer
