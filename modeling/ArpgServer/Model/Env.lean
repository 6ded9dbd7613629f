import ArpgServer.Model.Log
import ArpgServer.Model.State

/-!
# What the server reads from outside

`Env` is everything one message can depend on besides the state: the clock, the libraries
(zlib, ezxml, md5, crypt, Lua, MySQL), the configuration scripts, which are executed again
for every lookup, and what is found in memory that the program never wrote or has already
freed. Each message may come with an environment of its own.
-/

namespace ArpgServer

open CText

/-- A value of a Lua global, as far as the server tells values apart. A number keeps its
integer part and the text `lua_tostring` makes of it. -/
inductive LuaValue where
  | nil
  | boolean (b : Bool)
  | number (n : Int) (text : Bytes)
  | string (s : Bytes)
  | table (fields : List (Bytes × LuaValue))
  | other

structure Env where
  /-- What `time` returns. -/
  now : Int
  /-- `uncompress` into `TEMP_BUFFER_LENGTH` bytes; `none` is any result but `Z_OK`. -/
  uncompress : Bytes → Option Bytes
  ezxmlParseStr : Bytes → Event
  ezxmlToxml : Event → Bytes
  md5Digest : Bytes → Vector UInt8 16
  crypt : Bytes → Bytes → Option Bytes
  /-- `_db_config.type`. -/
  dbType : Option Bytes
  /-- The row `db_get_password` finds: password and salt. -/
  dbGetPassword : Bytes → Option (Bytes × Bytes)
  /-- The globals `conf/account.lua` assigns; `none` when the script fails. -/
  accountLua : Option (Bytes → Option LuaValue)
  /-- All globals after `conf/user.lua`; `none` when the script fails. -/
  userLua : Option (Bytes → LuaValue)
  /-- The conversion of a numeral that `lua_isnumber` and `lua_tonumber` apply to texts. -/
  luaStringToNumber : Bytes → Option Int
  /-- The text read through a pointer to the `username` of a freed record. -/
  stale : Addr → Option Bytes
  /-- The text read behind an array of a record that holds no terminator. -/
  overrun : Addr → TextField → Option Bytes
  /-- The first value of the local `body` of `parse_message`. -/
  body : LocalPtr
  /-- `strlen` of the first contents of the local `itembuffer` of the list replies. -/
  itembuffer : Nat
  /-- The text read behind the local `message` of `lua_send_message`. -/
  message : Option Bytes

/-- `_db_config.type` of the shipped configuration. -/
def databaseTypeMysql : Bytes := ofString "mysql"

namespace LuaValue

/-- `lua_isstring` and `lua_tostring`: numbers count as texts. -/
def toText : LuaValue → Option Bytes
  | .string s => some s
  | .number _ t => some t
  | _ => none

/-- `lua_rawlen` of a text or a number. -/
def rawLen : LuaValue → Nat
  | .string s => s.length
  | _ => 0

/-- The copy `lua_getstring` and `lua_getfieldstring` make of a text: it is as long as
`lua_rawlen` says and ends at the first terminator. -/
def copy (v : LuaValue) : Option Bytes :=
  v.toText.map fun t => (t.take v.rawLen).takeWhile (· ≠ 0)

/-- What `strcpy` copies of a text into a zeroed buffer. -/
def cText (v : LuaValue) : Bytes := (v.toText.getD []).takeWhile (· ≠ 0)

/-- `lua_gettable` on a table. -/
def field (fields : List (Bytes × LuaValue)) (key : String) : LuaValue :=
  (fields.lookup (ofString key)).getD .nil

end LuaValue

/-- The texts among the globals that `luaL_openlibs` defines. -/
def luaLibGlobal (key : Bytes) : LuaValue :=
  if key = ofString "_VERSION" then .string (ofString "Lua 5.2") else .nil

/-- `lua_getstring`. -/
def luaGetstring (globals : Bytes → LuaValue) (key : Bytes) : Option Bytes := (globals key).copy

def luaGetaccountkey (env : Env) (account : Bytes) : Option Bytes :=
  env.accountLua.bind fun own =>
    luaGetstring (fun key => (own key).getD (luaLibGlobal key)) account

/-- `lua_isnumber` and the conversion to `int`. -/
def luaToInt (env : Env) : LuaValue → Option Int
  | .number n _ => some (toInt32 n)
  | .string s => (env.luaStringToNumber s).map toInt32
  | _ => none

def luaGetuserrole (env : Env) (username : Bytes) : Int :=
  match env.userLua with
  | none => clientTypeNone
  | some globals =>
    match globals username with
    | .table fields => (luaToInt env (LuaValue.field fields "role")).getD clientTypeNone
    | _ => clientTypeNone

/-- `lua_getuserpasswd` into two zeroed buffers. -/
def luaGetuserpasswd (env : Env) (username : Bytes) : Option (Bytes × Bytes) :=
  env.userLua.bind fun globals =>
    match globals username with
    | .table fields =>
      some ((LuaValue.field fields "passwd").cText, (LuaValue.field fields "salt").cText)
    | _ => none

/-- `get_password` into two zeroed buffers of `MAX_CHAR_LENGTH` bytes. The outer `none` is a
fault: no configured type, or a text that does not fit its buffer. -/
def getPassword (env : Env) (username : Bytes) : Option (Option (Bytes × Bytes)) :=
  env.dbType.bind fun dbType =>
    match if dbType = databaseTypeMysql then env.dbGetPassword username
      else luaGetuserpasswd env username with
    | none => some none
    | some (password, salt) =>
      if password.length < maxCharLength ∧ salt.length < maxCharLength then
        some (some (password, salt))
      else none

/-- The digest in hexadecimal. -/
def md5Hex (env : Env) (str : Bytes) : Bytes := (env.md5Digest str).toList.flatMap hexText

/-- `md5`. Its log line has two conversions and one argument. -/
def md5 (env : Env) (str : Bytes) : Option Bytes :=
  let dec := md5Hex env str
  (logWrite (ofString "str: %s, md5的值：%s\n") [.text]).map fun _ => dec

theorem md5_eq_some {env : Env} {str dec : Bytes} (h : md5 env str = some dec) :
    dec = md5Hex env str := by
  unfold md5 at h
  obtain ⟨_, -, rfl⟩ := Option.map_eq_some_iff.mp h
  rfl

/-- No call of `md5` comes back. -/
theorem md5_eq_none (env : Env) (str : Bytes) : md5 env str = none := rfl

/-- The fields of `gmtime` that the server uses. -/
def tmHour (t : Int) : Int := t % 86400 / 3600
def tmMin (t : Int) : Int := t % 3600 / 60
def tmSec (t : Int) : Int := t % 60

end ArpgServer
