import ArpgServer.Model.Function

/-!
# Handling a message (`message.c`)

`parseMessage` decodes one task and handles it. The name lookup is a parameter: the server
uses `getFdnodeByname`, and some results hold whatever the lookup returns.
-/

namespace ArpgServer

open CText

/-- What `get_fdnode_byname (uname, ufd)` returns at a state: a fault, `NULL` or a client. -/
abbrev Lookup := State → Bytes → Int → Option (Option Addr)

/-- One task of the queue. -/
structure Task where
  fd : Nat
  client : Addr
  recvBits : Int
  data : Bytes

/-! ## Login -/

/-- How the credential checks of a login end, with the record as they leave it. -/
inductive AuthOutcome where
  | refused (c : Client) (why : AuthFailure)
  | passed (c : Client)

/-- The name of a guest, `"游客%d%d%d"`. -/
def guestName (t : Int) : Bytes :=
  ofString "游客" ++ intText (tmHour t) ++ intText (tmMin t) ++ intText (tmSec t)

/-- `anonymous && atoi (anonymous) == 1`. -/
def Event.isAnonymous (e : Event) : Bool :=
  match e.attr .anonymous with
  | none => false
  | some a => atoi a = 1

def authAnonymous (c : Client) (t : Int) : Client :=
  { c with
    anonymous := 1
    username := c.username.snprintf (guestName t) 64 (by decide) (by decide) }

/-- The password branch. The text of the first digest and the salt goes to a buffer of
`MAX_CHAR_LENGTH` bytes. -/
def authPassword (env : Env) (c : Client) (username password : Bytes) : Option AuthOutcome :=
  (getPassword env username).bind fun
    | none => some (.refused c .unknownUser)
    | some (dbPwValue, dbSaltValue) =>
      (md5 env password).bind fun buf =>
        let tempPassword := buf ++ dbSaltValue
        if tempPassword.length < maxCharLength then
          (md5 env tempPassword).map fun buf =>
            if buf = dbPwValue then
              .passed { c with username := c.username.strncpy username 64 (by decide) }
            else .refused c .wrongPassword
        else none

def localAccount : Bytes := ofString "myleft"

/-- The name the signature branch stores before it checks anything. -/
def signedName (c : Client) (account username : Bytes) : Option (CharArray 64) :=
  if account ≠ localAccount then
    (c.username.strncpy account 32 (by decide)).strncat username 32
  else some (c.username.strncpy username 64 (by decide))

/-- The buffer `crypt_str` the signature is compared with. It stays empty when the account
has no key. -/
def cryptStr (env : Env) (account username timestampChar sign : Bytes) :
    Option (CharArray 64) :=
  match luaGetaccountkey env account with
  | none => some (CharArray.zero 64)
  | some tempKey =>
    let tempStr := (tempKey.take maxCharLength).take 18 ++ username ++ timestampChar
    if tempStr.length < maxBufferLength then
      (env.crypt tempStr sign).map fun r => (CharArray.zero 64).strncpy r 64 (by decide)
    else none

/-- `log_write (LOG_DEBUG, username, __FILE__, __LINE__)`: the username is the format. -/
def logUsername (username : Bytes) : Option Unit := logWrite username [.text, .int]

/-- The signature branch, after its attributes were found present. -/
def authSignature (env : Env) (mytimestamp : Int) (c : Client)
    (username sign account timestampChar : Bytes) : Option AuthOutcome :=
  (signedName c account username).bind fun name =>
    let c := { c with anonymous := 0, username := name }
    (logUsername username).bind fun _ =>
      let sec := mytimestamp - atol timestampChar
      if 0 ≤ sec ∧ sec < 60 then
        (cryptStr env account username timestampChar sign).bind fun crypted =>
          (crypted.strcmp none sign).map fun same =>
            if same then .passed c else .refused c .badSignature
      else some (.refused c .expired)

/-- The three login branches and the refusal when none of them applies. -/
def authCredentials (env : Env) (mytimestamp : Int) (c : Client) (e : Event) :
    Option AuthOutcome :=
  if e.isAnonymous then some (.passed (authAnonymous c mytimestamp))
  else
    match e.attr .username, e.attr .password with
    | some username, some password => authPassword env c username password
    | _, _ =>
      match e.attr .username, e.attr .sign, e.attr .account, e.attr .timestamp with
      | some username, some sign, some account, some timestampChar =>
        if atol timestampChar ≠ 0 then
          authSignature env mytimestamp c username sign account timestampChar
        else some (.refused c .missing)
      | _, _, _, _ => some (.refused c .missing)

/-- The copy of the attribute `character` after the checks. -/
def setCharacter (c : Client) (e : Event) : Client :=
  match e.attr .character with
  | none => c
  | some character =>
    { c with character := (CharArray.zero 32).strncpy character 32 (by decide) }

/-- The credential checks of a login, with what they write; `true` when it goes on. -/
def authSection (env : Env) (p : Addr) (fd : Nat) (e : Event) (s : State) :
    Option (Bool × State) :=
  (s.heap p).bind fun c =>
    (authCredentials env s.mytimestamp c e).map fun
      | .refused c' why => (false, (s.setClient p c').sendMessage fd (.authFailure why))
      | .passed c' => (true, s.setClient p (setCharacter c' e))

/-- The search for another session of the name just taken. -/
def rivalOf (lookup : Lookup) (env : Env) (p : Addr) (s : State) : Option (Option Addr) :=
  (s.heap p).bind fun c =>
    (c.username.read (env.overrun p .username)).bind fun name => lookup s name c.fd

/-- The login takes effect. -/
def authSuccess (env : Env) (p : Addr) (fd : Nat) (s : State) : Option State :=
  (s.heap p).bind fun c =>
    (c.username.read (env.overrun p .username)).map fun name =>
      let type := luaGetuserrole env name
      (s.setClient p { c with type := type, state := .success }).sendMessage fd
        (.authSuccess name type)

/-- The attribute `roomid`, with every number too large for the table sent to the lobby. -/
def Event.roomid (e : Event) : Int :=
  match e.attr .roomid with
  | none => 0
  | some r => if (maxRooms : Int) ≤ atoi r then 0 else atoi r

/-- `EV_TYPE_AUTH`, with the state of the client as it was read. Other threads may run between
this test and the checks. -/
def authEvent (lookup : Lookup) (env : Env) (p : Addr) (fd : Nat) (e : Event) (state : FdState) :
    Proc State Unit :=
  if state = .success then Proc.modify fun s => some (s.sendMessage fd .alreadyLogin)
  else do
    let passed ← Proc.step (authSection env p fd e)
    if passed then
      let node ← Proc.read (rivalOf lookup env p)
      otherSameUsername env node
      nodeAdd env p
      Proc.modify (authSuccess env p fd)
      let _ ← joinRoom env (some p) e.roomid
      return ()
    else return ()

/-! ## Talking -/

/-- `atoi` is reached only when the attribute is absent. -/
def changeStateSection (env : Env) (p : Addr) (fd : Nat) (e : Event) (s : State) :
    Option State :=
  (e.attr .state).bind fun _ =>
    (nameAt env s p).bind fun name => sendMessageAll s fd (.changeState name 0)

def changeCharacterSection (env : Env) (p : Addr) (fd : Nat) (e : Event) (s : State) :
    Option State :=
  (e.attr .character).bind fun character =>
    (s.heap p).bind fun c =>
      let c := { c with character := c.character.strncpy character 32 (by decide) }
      (c.username.read (env.overrun p .username)).bind fun name =>
        (c.character.read (env.overrun p .character)).bind fun text =>
          sendMessageAll (s.setClient p c) fd (.changeCharacter name text)

/-- The local `body` of `parse_message`. -/
def Event.localBody (e : Event) (env : Env) : LocalPtr :=
  match e.body with
  | none => env.body
  | some b => .text b

/-- The text behind a pointer that a format reads. -/
def LocalPtr.deref : LocalPtr → Option Bytes
  | .text b => some b
  | _ => none

def LocalPtr.isNull : LocalPtr → Bool
  | .null => true
  | _ => false

def privateMessageSection (lookup : Lookup) (env : Env) (p : Addr) (fd : Nat) (e : Event)
    (body : LocalPtr) (s : State) : Option State :=
  (e.attr .target).bind fun to' =>
    (s.heap p).bind fun c =>
      if c.type = clientTypeShutup then
        some (s.sendMessage fd (.systemMessage s.mytimestamp .muted))
      else
        (c.username.strcmp (env.overrun p .username) to').bind fun self =>
          (c.username.read (env.overrun p .username)).bind fun name =>
            if self then
              body.deref.map fun text =>
                s.sendMessage fd (.privateMessage name to' s.mytimestamp text)
            else
              (lookup s to' (-1)).bind fun
                | none => some (s.sendMessage fd (.systemMessage s.mytimestamp .reselect))
                | some q =>
                  (s.heap q).bind fun tonode =>
                    body.deref.map fun text =>
                      (s.sendMessage tonode.fd
                        (.privateMessage name to' s.mytimestamp text)).sendMessage fd
                          (.privateMessage name to' s.mytimestamp text)

def publicMessageSection (env : Env) (p : Addr) (fd : Nat) (body : LocalPtr) (s : State) :
    Option State :=
  (s.heap p).bind fun c =>
    if c.type = clientTypeShutup then
      some (s.sendMessage fd (.systemMessage s.mytimestamp .muted))
    else
      (c.username.read (env.overrun p .username)).bind fun name =>
        body.deref.bind fun text =>
          sendMessageAll s fd (.publicMessage name s.mytimestamp text)

def setDirection (c : Client) (e : Event) : Client :=
  match e.attr .direction with
  | none => c
  | some direction => { c with direction := atoi direction }

def moveSection (env : Env) (p : Addr) (e : Event) (s : State) : Option State :=
  (s.heap p).bind fun c =>
    let c := setDirection c e
    match e.attr .x, e.attr .y with
    | some x, some y =>
      let c := { c with x := atoi x, y := atoi y }
      (c.username.read (env.overrun p .username)).bind fun name =>
        sendMessageAll (s.setClient p c) c.fd (.move name c.direction c.x c.y)
    | _, _ => some (s.setClient p c)

def doingSection (env : Env) (p : Addr) (e : Event) (s : State) : Option State :=
  match e.attr .doing with
  | none => some s
  | some doing =>
    (s.heap p).bind fun c =>
      let c := { c with doing := (CharArray.zero 24).strncpy doing 24 (by decide) }
      (c.username.read (env.overrun p .username)).bind fun name =>
        sendMessageAll (s.setClient p c) c.fd (.doing name doing)

/-- The shipped `conf/parsemessage.lua` answers with the message itself.
`lua_send_message` copies it into a buffer of `MAX_BUFFER_LENGTH` bytes. -/
def luaExec (env : Env) (fd : Nat) (str : Bytes) (s : State) : Option State :=
  (if str.length < maxBufferLength then some str
    else env.message.map (str.take maxBufferLength ++ ·)).map fun message =>
    if 0 < fd ∧ 0 < message.length then s.sendMessage fd (.script message) else s

/-! ## Administration -/

/-- The client an admin command names. -/
def targetOf (lookup : Lookup) (env : Env) (p : Addr) (c : Client) (username : Bytes)
    (s : State) : Option (Option Addr) :=
  (c.username.strcmp (env.overrun p .username) username).bind fun self =>
    if self then some (some p) else lookup s username (-1)

/-- `GOOUT` up to `node_del`: the client that is to be deleted. -/
def gooutSection (lookup : Lookup) (env : Env) (p : Addr) (fd : Nat) (e : Event) (s : State) :
    Option (Option Addr × State) :=
  (s.heap p).bind fun c =>
    if c.type ≠ clientTypeAdmin then
      some (none, s.sendMessage fd (.systemMessage s.mytimestamp .noRight))
    else
      match e.attr .username with
      | none => some (none, s)
      | some username =>
        (targetOf lookup env p c username s).bind fun
          | none => some (none, s)
          | some q =>
            (s.heap q).bind fun tonode =>
              (tonode.username.read (env.overrun q .username)).bind fun name =>
                (sendMessageAll s tonode.fd
                  (.systemMessage s.mytimestamp (.kicked name))).map fun s => (some q, s)

/-- `EV_TYPE_ADMIN_COMMAND_GOOUT`. -/
def gooutEvent (lookup : Lookup) (env : Env) (p : Addr) (fd : Nat) (e : Event) :
    Proc State Unit := do
  match ← Proc.step (gooutSection lookup env p fd e) with
  | none => return ()
  | some q =>
    let _ ← nodeDel env (some q)
    return ()

def shutupSection (lookup : Lookup) (env : Env) (p : Addr) (fd : Nat) (e : Event) (s : State) :
    Option State :=
  (s.heap p).bind fun c =>
    if c.type ≠ clientTypeAdmin then
      some (s.sendMessage fd (.systemMessage s.mytimestamp .noRight))
    else
      match e.attr .username with
      | none => some s
      | some username =>
        (targetOf lookup env p c username s).bind fun
          | none => some s
          | some q =>
            (s.heap q).bind fun tonode =>
              (tonode.username.read (env.overrun q .username)).bind fun name =>
                if tonode.type ≠ clientTypeShutup then
                  sendMessageAll (s.setClient q { tonode with type := clientTypeShutup }) tonode.fd
                    (.systemMessage s.mytimestamp (.silenced name))
                else
                  sendMessageAll (s.setClient q { tonode with type := clientTypeNone }) tonode.fd
                    (.systemMessage s.mytimestamp (.released name))

/-! ## The chain of handlers -/

/-- `time (&mytimestamp)`. -/
def State.tick (s : State) (now : Int) : State := { s with mytimestamp := now }

/-- `EV_TYPE_CHANGE_ROOM`. -/
def changeRoomEvent (env : Env) (p : Addr) (roomid : Int) : Proc State Unit := do
  let current ← Proc.read fun s => (s.heap p).map Client.roomid
  if current ≠ roomid then
    let _ ← joinRoom env (some p) roomid
    return ()
  else return ()

/-- `EV_TYPE_LEAVE_ROOM`. -/
def leaveRoomEvent (env : Env) (p : Addr) : Proc State Unit := do
  let _ ← leaveRoom env (some p)
  return ()

/-- The branches of `parse_message` over the event types. The state of the client is read
once for all their conditions. -/
def handleEvent (lookup : Lookup) (env : Env) (p : Addr) (fd : Nat) (e : Event) (evType : Int)
    (state : FdState) : Proc State Unit :=
  let body := e.localBody env
  if evType = evTypeAuth then authEvent lookup env p fd e state
  else if evType = evTypeUserChangeState ∧ state = .success then
    Proc.modify (changeStateSection env p fd e)
  else if evType = evTypeChangeCharacter ∧ state = .success then
    Proc.modify (changeCharacterSection env p fd e)
  else if evType = evTypePrivateMessage ∧ state = .success ∧ (e.attr .target).isSome ∧
      body.isNull = false then
    Proc.modify (privateMessageSection lookup env p fd e body)
  else if evType = evTypePublicMessage ∧ state = .success ∧ body.isNull = false then
    Proc.modify (publicMessageSection env p fd body)
  else if evType = evTypeChangeRoom ∧ state = .success then changeRoomEvent env p e.roomid
  else if evType = evTypeGetRoomList ∧ state = .success then Proc.modify (sendRoomlist env p)
  else if evType = evTypeLeaveRoom ∧ state = .success then leaveRoomEvent env p
  else if evType = evTypeAdminCommandGoout ∧ state = .success then gooutEvent lookup env p fd e
  else if state = .success then
    if evType = evTypeAdminCommandShutup then Proc.modify (shutupSection lookup env p fd e)
    else if evType = evTypeMove then Proc.modify (moveSection env p e)
    else if evType = evTypeDoing then Proc.modify (doingSection env p e)
    else return ()
  else Proc.modify (luaExec env fd (env.ezxmlToxml e))

/-- The event part of `parse_message`. -/
def parseEvent (lookup : Lookup) (env : Env) (p : Addr) (fd : Nat) (e : Event) :
    Proc State Unit :=
  match e.attr .type with
  | none => .ret ()
  | some type => do
    Proc.modify fun s => some (s.tick env.now)
    let state ← Proc.read fun s => (s.heap p).map Client.state
    handleEvent lookup env p fd e (atoi type) state

/-- `parse_message`. -/
def parseMessage (lookup : Lookup) (env : Env) (t : Task) : Proc State Unit :=
  if 0 < t.recvBits then
    match env.uncompress t.data with
    | none => .ret ()
    | some text =>
      let text' := text.takeWhile (· ≠ 0)
      if text' = quitText then do
        let _ ← nodeDel env (some t.client)
        return ()
      else if text' = pingText then Proc.modify fun s => some (s.sendMessage t.fd .pong)
      else parseEvent lookup env t.client t.fd (env.ezxmlParseStr text)
  else do
    let _ ← nodeDel env (some t.client)
    return ()

end ArpgServer
