import ArpgServer.Model.Hash

/-!
# Rooms, registration and replies (`function.c`)

Each function is a procedure whose sections are the parts that run without giving up
control: a part under a room lock or the hash lock is one section, the unlocked code
between two locked parts is another. The pure functions named `...Section` are the bodies
of these sections.
-/

namespace ArpgServer

/-! ## Broadcasts and lists -/

/-- The loop of `send_message_all` over the members of a room. -/
def broadcast (s : State) (n : Notice) : List Addr → Option (List Send)
  | [] => some []
  | p :: rest =>
    (s.heap p).bind fun cur =>
      (broadcast s n rest).map fun out =>
        if cur.state = .success then ⟨cur.fd, [n]⟩ :: out else out

/-- `send_message_all`: to the room of the client at `fd`, itself included. -/
def sendMessageAll (s : State) (fd : Nat) (n : Notice) : Option State :=
  match s.fdClients fd with
  | none => some s
  | some p =>
    (s.heap p).bind fun client =>
      if client.roomid < maxRooms ∧ -1 < client.roomid then
        (broadcast s n (s.rooms client.roomid.toNat).rClient).map s.post
      else some s

def profileAt (env : Env) (s : State) (p : Addr) : Option Profile :=
  (s.heap p).bind fun c =>
    (c.username.read (env.overrun p .username)).bind fun username =>
      (c.character.read (env.overrun p .character)).bind fun character =>
        (c.doing.read (env.overrun p .doing)).map fun doing =>
          { username, character, direction := c.direction, doing, x := c.x, y := c.y }

/-- `strlen (msgbuffer)` when it holds the given entries. -/
def msgLength (msg : List Notice) : Nat := (msg.map Notice.bufferLength).sum

/-- The loop of `send_userlist`: the messages it hands to `send_message`. `msg` is the
content of `msgbuffer`, `item` the length of the text in `itembuffer`, which is that of the
entry before the current one. -/
def userlist (env : Env) (s : State) (me : Client) :
    List Addr → List Notice → Nat → Option (List (List Notice))
  | [], msg, _ => some (if 0 < msgLength msg then [msg] else [])
  | p :: rest, msg, item =>
    (s.heap p).bind fun cur =>
      if cur.fd ≠ me.fd ∧ cur.state = .success then
        (profileAt env s p).bind fun profile =>
          let entry := Notice.userAdd profile
          if tempBufferLength ≤ msgLength msg + item then
            (userlist env s me rest [entry] entry.bufferLength).map (msg :: ·)
          else userlist env s me rest (msg ++ [entry]) entry.bufferLength
      else userlist env s me rest msg item

def sendUserlist (env : Env) (p : Addr) (s : State) : Option State :=
  (s.heap p).bind fun node =>
    (s.room? node.roomid).bind fun room =>
      if room.enable ≠ 0 then
        (userlist env s node room.rClient [] env.itembuffer).map fun msgs =>
          s.post (msgs.map fun m => ⟨node.fd, m⟩)
      else some s

/-- The loop of `send_roomlist` from room `i` on. -/
def roomlist (s : State) : List Nat → List Notice → Nat → List (List Notice)
  | [], msg, _ => if 0 < msgLength msg then [msg] else []
  | i :: rest, msg, item =>
    let room := s.rooms i
    if room.enable = 1 ∧ room.visable = 1 then
      let entry := Notice.roomAdd i room.name room.num
      if tempBufferLength ≤ msgLength msg + item then
        msg :: roomlist s rest [entry] entry.bufferLength
      else roomlist s rest (msg ++ [entry]) entry.bufferLength
    else if room.name = none then (if 0 < msgLength msg then [msg] else [])
    else roomlist s rest msg item

def sendRoomlist (env : Env) (p : Addr) (s : State) : Option State :=
  (s.heap p).map fun node =>
    s.post ((roomlist s (List.range maxRooms) [] env.itembuffer).map fun m => ⟨node.fd, m⟩)

/-! ## Leaving a room -/

/-- The search of `leave_room` for the member with the descriptor: the list without it, or
`none` inside when there is no such member. -/
def unlinkFd (s : State) (fd : Nat) : List Addr → Option (Option (List Addr))
  | [] => some none
  | p :: rest =>
    (s.heap p).bind fun cur =>
      if cur.fd = fd then some (some rest)
      else (unlinkFd s fd rest).map fun found => found.map (p :: ·)

/-- The room after its member was unlinked. -/
def Room.unlinked (room : Room) (list : Option (List Addr)) : Room :=
  match list with
  | none => room
  | some l => { room with num := room.num - 1, rClient := l }

/-- The part of `leave_room` under the lock of `roomid`. It reads `p->roomid` again. -/
def leaveSection (env : Env) (p : Addr) (roomid : Int) (s : State) : Option State :=
  (s.room? roomid).bind fun room =>
    (s.heap p).bind fun c =>
      (s.room? c.roomid).bind fun current =>
        if current.rClient = [] then some s
        else
          (unlinkFd s c.fd room.rClient).bind fun list =>
            let s := s.setRoom roomid.toNat (room.unlinked list)
            if c.state = .success then
              (c.username.read (env.overrun p .username)).bind fun username =>
                (sendMessageAll s c.fd (.userLogout username)).map fun s =>
                  s.setClient p { c with roomid := -1 }
            else some s

/-- `leave_room`. -/
def leaveRoom (env : Env) : Option Addr → Proc State Int
  | none => .ret returnFailure
  | some p => do
    let roomid ← Proc.read fun s => (s.heap p).map Client.roomid
    if maxRooms < roomid ∨ roomid < 0 then
      return returnFailure
    else
      Proc.modify (leaveSection env p roomid)
      return returnSuccess

/-! ## Joining a room -/

/-- How `join_room` goes on after its first tests. -/
inductive JoinStart where
  | refused | leaveFirst | enter

/-- The tests of `join_room` before it takes a lock. -/
def joinCheck (p : Addr) (roomid : Int) (s : State) : Option (JoinStart × State) :=
  if maxRooms < roomid ∨ roomid < 0 then some (.refused, s)
  else
    (s.room? roomid).bind fun room =>
      (s.heap p).map fun c =>
        if room.enable = 0 ∨ c.roomid = roomid then (.refused, s)
        else if c.anonymous = 1 ∧ room.anonymous = 0 then
          (.refused, s.sendMessage c.fd (.systemMessage s.mytimestamp (.guestRefused room.name)))
        else if 0 ≤ c.roomid then (.leaveFirst, s)
        else (.enter, s)

/-- The part of `join_room` under the lock of `roomid`. -/
def joinSection (env : Env) (p : Addr) (roomid : Int) (s : State) : Option State :=
  (s.room? roomid).bind fun room =>
    if room.enable ≠ 0 then
      (s.heap p).bind fun c =>
        let s := (s.setClient p { c with roomid := roomid }).setRoom roomid.toNat
          { room with num := room.num + 1, rClient := room.rClient ++ [p] }
        let s := s.sendMessage c.fd (.changeRoom roomid room.name)
        (profileAt env s p).bind fun profile =>
          (sendMessageAll s c.fd (.userLogin profile)).bind (sendUserlist env p)
    else some s

/-- `join_room`. -/
def joinRoom (env : Env) : Option Addr → Int → Proc State Int
  | none, _ => .ret returnFailure
  | some p, roomid => do
    match ← Proc.step (joinCheck p roomid) with
    | .refused => return returnFailure
    | .leaveFirst =>
      let _ ← leaveRoom env (some p)
      Proc.modify (joinSection env p roomid)
      return returnSuccess
    | .enter =>
      Proc.modify (joinSection env p roomid)
      return returnSuccess

/-! ## Registration -/

/-- `node_add`: a new item that points to the record's name. -/
def nodeAdd (env : Env) (p : Addr) : Proc State Unit :=
  Proc.modify fun s => (s.heap p).bind fun c => hashAdd env s ⟨p, c.fd⟩

/-- The call of `hash_del` in `node_del`. -/
def unregisterSection (env : Env) (p : Addr) (s : State) : Option State :=
  (s.heap p).bind fun c =>
    (c.username.read (env.overrun p .username)).bind fun key => hashDel env s key c.fd

/-- The end of `node_del`: the descriptor is closed and the record freed. -/
def freeSection (p : Addr) (s : State) : Option State :=
  (s.heap p).map fun c =>
    { s with
      fdClients := Function.update s.fdClients c.fd none
      heap := Function.update s.heap p none }

/-- `node_del`. -/
def nodeDel (env : Env) : Option Addr → Proc State Int
  | none => .ret returnSuccess
  | some p => do
    let _ ← leaveRoom env (some p)
    Proc.modify (unregisterSection env p)
    Proc.modify (freeSection p)
    return returnSuccess

/-- The rest of `other_same_username` after `leave_room`. -/
def displaceSection (env : Env) (p : Addr) (s : State) : Option State :=
  (s.heap p).bind fun node =>
    if node.state = .success then
      let s := (s.setClient p { node with state := .wait }).sendMessage node.fd .otherLogin
      (node.username.read (env.overrun p .username)).bind fun username =>
        sendMessageAll s node.fd (.userLogout username)
    else some s

/-- `other_same_username`. -/
def otherSameUsername (env : Env) : Option Addr → Proc State Unit
  | none => .ret ()
  | some p => do
    let _ ← leaveRoom env (some p)
    Proc.modify (displaceSection env p)

end ArpgServer
