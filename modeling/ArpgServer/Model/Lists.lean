import ArpgServer.Model.Function

/-!
# The buffers of the list replies (`function.c`)

`send_userlist` and `send_roomlist` format one entry at a time into `itembuffer`, put it behind
the entries that wait in `msgbuffer` and hand `msgbuffer` to `send_message` when a test says that
it is full. `Model.Function` keeps the messages as lists of events; here the two buffers are
texts, and a write that leaves `msgbuffer` is a fault.
-/

namespace ArpgServer

/-- The text in `msgbuffer`, the length of the one in `itembuffer`, and the messages so far. -/
structure ListBuffers where
  msgbuffer : Bytes
  itembuffer : Nat
  messages : List Bytes

def ListBuffers.start (env : Env) : ListBuffers := ⟨[], env.itembuffer, []⟩

/-- `send_message` and `bzero` when `msgbuffer` and the entry before do not fit together. -/
def ListBuffers.flush (b : ListBuffers) : ListBuffers :=
  if tempBufferLength ≤ b.msgbuffer.length + b.itembuffer then
    { b with msgbuffer := [], messages := b.messages ++ [b.msgbuffer] }
  else b

/-- `strncat` of what `snprintf` has put into `itembuffer`. -/
def ListBuffers.append (b : ListBuffers) (entry : Notice) : Option ListBuffers :=
  let item := entry.text.take (maxBufferLength - 1)
  if b.msgbuffer.length + item.length < tempBufferLength then
    some { b with msgbuffer := b.msgbuffer ++ item, itembuffer := item.length }
  else none

/-- The body of both loops for an entry. -/
def ListBuffers.put (b : ListBuffers) (entry : Notice) : Option ListBuffers :=
  b.flush.append entry

/-- The messages when the loop has ended. -/
def ListBuffers.finish (b : ListBuffers) : List Bytes :=
  if 0 < b.msgbuffer.length then b.messages ++ [b.msgbuffer] else b.messages

/-- The loop of `send_userlist`. -/
def userlistTexts (env : Env) (s : State) (me : Client) :
    List Addr → ListBuffers → Option (List Bytes)
  | [], b => some b.finish
  | p :: rest, b =>
    (s.heap p).bind fun cur =>
      if cur.fd ≠ me.fd ∧ cur.state = .success then
        (profileAt env s p).bind fun profile =>
          (b.put (.userAdd profile)).bind (userlistTexts env s me rest)
      else userlistTexts env s me rest b

/-- The messages of `send_userlist`. -/
def sendUserlistTexts (env : Env) (p : Addr) (s : State) : Option (List Bytes) :=
  (s.heap p).bind fun node =>
    (s.room? node.roomid).bind fun room =>
      if room.enable ≠ 0 then userlistTexts env s node room.rClient (.start env) else some []

/-- The loop of `send_roomlist` from room `i` on. -/
def roomlistTexts (s : State) : List Nat → ListBuffers → Option (List Bytes)
  | [], b => some b.finish
  | i :: rest, b =>
    let room := s.rooms i
    if room.enable = 1 ∧ room.visable = 1 then
      (b.put (.roomAdd i room.name room.num)).bind (roomlistTexts s rest)
    else if room.name = none then some b.finish
    else roomlistTexts s rest b

/-- The messages of `send_roomlist`. -/
def sendRoomlistTexts (env : Env) (p : Addr) (s : State) : Option (List Bytes) :=
  (s.heap p).bind fun _ => roomlistTexts s (List.range maxRooms) (.start env)

end ArpgServer
