import ArpgServer.Library.CText

/-!
# Constants, events and replies

The limits of `MyleftServer.h`, the event numbers of `global.h`, the decoded form of a
client's event and the events the server emits. An emitted event is kept as data;
`Notice.text` gives the text its template formats.
-/

namespace ArpgServer

open CText

/-! ## Limits and numbers -/

def maxRooms : Nat := 50
def maxFds : Nat := 20480
def maxUsers : Nat := 100
def maxCharLength : Nat := 64
def maxBufferLength : Nat := 1024
def tempBufferLength : Nat := 2048

def returnFailure : Int := -1
def returnSuccess : Int := 1

def clientTypeNone : Int := 0
def clientTypeShutup : Int := 1
def clientTypeAdmin : Int := 9

def evTypePing : Int := 0
def evTypeAuth : Int := 10
def evTypeAuthOtherLogin : Int := 11
def evTypeAuthSuccess : Int := 12
def evTypeAuthFailure : Int := 13
def evTypeChangeCharacter : Int := 14
def evTypeUserLogin : Int := 20
def evTypeUserLogout : Int := 21
def evTypeUserAdd : Int := 22
def evTypeUserChangeState : Int := 23
def evTypeSystemMessage : Int := 31
def evTypePublicMessage : Int := 32
def evTypePrivateMessage : Int := 33
def evTypeChangeRoom : Int := 40
def evTypeGetRoomList : Int := 41
def evTypeRoomAdd : Int := 42
def evTypeLeaveRoom : Int := 43
def evTypeAdminCommandGoout : Int := 90
def evTypeAdminCommandShutup : Int := 91
def evTypeMove : Int := 100
def evTypeDoing : Int := 101

/-- The texts that are not events: `QUIT` and `PING`. -/
def quitText : Bytes := ofString "<quit/>"
def pingText : Bytes := ofString "<ping/>"

/-! ## Events of a client -/

/-- The attributes of an event that the server reads; `target` is the attribute `to`. -/
inductive Attr where
  | type | username | character | password | anonymous | account | sign | timestamp
  | roomid | target | state | direction | x | y | doing
  deriving DecidableEq

/-- A decoded event: what `ezxml_attr` returns for each attribute and the text of the
`body` child. -/
structure Event where
  attr : Attr → Option Bytes
  body : Option Bytes

/-- What `ezxml` returns are C texts. -/
structure Event.IsText (e : Event) : Prop where
  attr : ∀ k v, e.attr k = some v → 0 ∉ v
  body : ∀ b, e.body = some b → 0 ∉ b

/-! ## Events of the server -/

/-- The five refusals of a login. -/
inductive AuthFailure where
  | unknownUser | wrongPassword | badSignature | expired | missing
  deriving DecidableEq

def AuthFailure.message : AuthFailure → String
  | .unknownUser => "用户不存在"
  | .wrongPassword => "密码错误"
  | .badSignature => "验证码错误"
  | .expired => "验证过期"
  | .missing => "请输入用户名和密码"

/-- The bodies of a system message. -/
inductive SystemText where
  | muted | reselect | noRight
  | kicked (username : Bytes)
  | silenced (username : Bytes)
  | released (username : Bytes)
  | guestRefused (room : Option Bytes)
  deriving DecidableEq

/-- `%s` of a pointer that may be `NULL`. -/
def formatString (s : Option Bytes) : Bytes := s.getD (ofString "(null)")

def SystemText.text : SystemText → Bytes
  | .muted => ofString "您目前处于禁言状态"
  | .reselect => ofString "请您重新选择发言对象"
  | .noRight => ofString "您没有权限进行此操作"
  | .kicked u => u ++ ofString "被管理员请出了聊天室"
  | .silenced u => u ++ ofString "被管理员禁言"
  | .released u => u ++ ofString "被管理员解除禁言"
  | .guestRefused r => ofString "游客无法进入 " ++ formatString r

/-- What others see of a client: the fields of `USER_LOGIN` and `USER_ADD`. -/
structure Profile where
  username : Bytes
  character : Bytes
  direction : Int
  doing : Bytes
  x : Int
  y : Int
  deriving DecidableEq

inductive Notice where
  | pong
  | alreadyLogin
  | authFailure (why : AuthFailure)
  | authSuccess (username : Bytes) (usertype : Int)
  | otherLogin
  | changeState (username : Bytes) (state : Int)
  | changeCharacter (username character : Bytes)
  | systemMessage (timestamp : Int) (body : SystemText)
  | privateMessage (sender target : Bytes) (timestamp : Int) (body : Bytes)
  | publicMessage (sender : Bytes) (timestamp : Int) (body : Bytes)
  | changeRoom (roomid : Int) (name : Option Bytes)
  | userLogin (profile : Profile)
  | userLogout (username : Bytes)
  | userAdd (profile : Profile)
  | roomAdd (roomid : Int) (name : Option Bytes) (num : Int)
  | move (sender : Bytes) (direction x y : Int)
  | doing (sender action : Bytes)
  | script (message : Bytes)
  deriving DecidableEq

/-- `<event type='%d'`. -/
def eventHead (type : Int) : Bytes := ofString "<event type='" ++ intText type ++ ofString "'"

/-- ` name='value'`. -/
def attrText (name : String) (value : Bytes) : Bytes :=
  ofString " " ++ ofString name ++ ofString "='" ++ value ++ ofString "'"

/-- ` timestamp='%ld'><body><![CDATA[%s]]></body></event>`. -/
def bodyTail (timestamp : Int) (body : Bytes) : Bytes :=
  attrText "timestamp" (intText timestamp) ++ ofString "><body><![CDATA[" ++ body ++
    ofString "]]></body></event>"

def Profile.text (p : Profile) : Bytes :=
  attrText "username" p.username ++ attrText "character" p.character ++
    attrText "direction" (intText p.direction) ++ attrText "doing" p.doing ++
    attrText "x" (intText p.x) ++ attrText "y" (intText p.y)

/-- The text the template of an event formats, before it is cut to its buffer. -/
def Notice.text : Notice → Bytes
  | .pong => eventHead evTypePing ++ ofString "/>"
  | .alreadyLogin =>
      eventHead evTypeAuth ++ attrText "result" (ofString "1") ++
        attrText "message" (ofString "已经登陆") ++ ofString "/>"
  | .authFailure why =>
      eventHead evTypeAuthFailure ++ attrText "message" (ofString why.message) ++ ofString "/>"
  | .authSuccess username usertype =>
      eventHead evTypeAuthSuccess ++ attrText "username" username ++
        attrText "usertype" (intText usertype) ++ attrText "message" (ofString "登陆成功") ++
        ofString "/>"
  | .otherLogin =>
      eventHead evTypeAuthOtherLogin ++
        attrText "message" (ofString "用户在其他地方登陆") ++ ofString "/>"
  | .changeState username state =>
      eventHead evTypeUserChangeState ++ attrText "username" username ++
        attrText "state" (intText state) ++ ofString "/>"
  | .changeCharacter username character =>
      eventHead evTypeChangeCharacter ++ attrText "username" username ++
        attrText "character" character ++ ofString "/>"
  | .systemMessage timestamp body =>
      eventHead evTypeSystemMessage ++ bodyTail timestamp body.text
  | .privateMessage sender target timestamp body =>
      eventHead evTypePrivateMessage ++ attrText "from" sender ++ attrText "to" target ++
        bodyTail timestamp body
  | .publicMessage sender timestamp body =>
      eventHead evTypePublicMessage ++ attrText "from" sender ++ bodyTail timestamp body
  | .changeRoom roomid name =>
      eventHead evTypeChangeRoom ++ attrText "roomid" (intText roomid) ++
        attrText "name" (formatString name) ++ attrText "message" (ofString "成功进入房间") ++
        ofString "/>"
  | .userLogin profile => eventHead evTypeUserLogin ++ profile.text ++ ofString "/>"
  | .userLogout username =>
      eventHead evTypeUserLogout ++ attrText "username" username ++ ofString "/>"
  | .userAdd profile => eventHead evTypeUserAdd ++ profile.text ++ ofString " />"
  | .roomAdd roomid name num =>
      eventHead evTypeRoomAdd ++ attrText "roomid" (intText roomid) ++
        attrText "name" (formatString name) ++ attrText "num" (intText num) ++ ofString "/>"
  | .move sender direction x y =>
      eventHead evTypeMove ++ attrText "from" sender ++
        attrText "direction" (intText direction) ++ attrText "x" (intText x) ++
        attrText "y" (intText y) ++ ofString "/>"
  | .doing sender action =>
      eventHead evTypeDoing ++ attrText "from" sender ++ attrText "doing" action ++ ofString "/>"
  | .script message => message

/-- `strlen` of an event formatted into a buffer of `MAX_BUFFER_LENGTH` bytes. -/
def Notice.bufferLength (n : Notice) : Nat := min n.text.length (maxBufferLength - 1)

/-- One call of `send_message`. The list replies put several events into one message. -/
structure Send where
  fd : Nat
  message : List Notice
  deriving DecidableEq

end ArpgServer
