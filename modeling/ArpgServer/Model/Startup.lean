import ArpgServer.Model.Server

/-!
# Start-up (`MyleftServer.c`, `luafunction.c`)

What `main` does before it waits for connections: the room table, the two configuration
scripts and the worker threads, and their end in `destory`. A write or a read outside a table is
a fault.
-/

namespace ArpgServer

open CText

/-! ## The room table -/

/-- A room as `main` clears it. -/
def blankConf : RoomConf := { enable := 0, anonymous := 0, visable := 0, name := none }

/-- The table before the scripts are run: room 0 is the lobby. -/
def clearedRooms (r : Nat) : RoomConf := if r = 0 then lobbyConf else blankConf

/-- The values that `conf/room.lua` leaves: the globals, and the values of the global table
`rooms` in the order of `lua_next`; `none` when that is no table. -/
structure RoomScript where
  globals : Bytes → LuaValue
  rooms : Option (List LuaValue)

/-- `lua_getnumber`. -/
def luaGetnumber (env : Env) (globals : Bytes → LuaValue) (key : String) : Int :=
  (luaToInt env (globals (ofString key))).getD 0

/-- `lua_getfieldint`. -/
def luaGetfieldint (env : Env) (fields : List (Bytes × LuaValue)) (key : String) : Int :=
  (luaToInt env (LuaValue.field fields key)).getD 0

/-- `lua_getfieldstring`. -/
def luaGetfieldstring (fields : List (Bytes × LuaValue)) (key : String) : Option Bytes :=
  (LuaValue.field fields key).copy

/-- The room of an entry that is a text: it takes the globals. -/
def globalConf (env : Env) (globals : Bytes → LuaValue) : RoomConf where
  enable := luaGetnumber env globals "enable"
  visable := luaGetnumber env globals "visable"
  anonymous := luaGetnumber env globals "anonymous"
  name := luaGetstring globals (ofString "name")

/-- The room of an entry that is a table. -/
def tableConf (env : Env) (fields : List (Bytes × LuaValue)) : RoomConf where
  enable := luaGetfieldint env fields "enable"
  visable := luaGetfieldint env fields "visable"
  anonymous := luaGetfieldint env fields "anonymous"
  name := luaGetfieldstring fields "name"

/-- The room that an entry asks for. Values of other kinds are no rooms. -/
def roomConf (env : Env) (globals : Bytes → LuaValue) : LuaValue → Option RoomConf
  | .string _ => some (globalConf env globals)
  | .table fields => some (tableConf env fields)
  | _ => none

/-- The loop of `lua_load_room`. The index is tested before it is advanced. -/
def loadRooms (env : Env) (globals : Bytes → LuaValue) :
    List LuaValue → Nat → (Nat → RoomConf) → Option (Nat → RoomConf)
  | [], _, rooms => some rooms
  | v :: rest, i, rooms =>
    if i < maxRooms then
      match roomConf env globals v with
      | none => loadRooms env globals rest i rooms
      | some conf =>
        if i + 1 < maxRooms then
          loadRooms env globals rest (i + 1) (Function.update rooms (i + 1) conf)
        else none
    else some rooms

/-- `lua_load_room`; the script is `none` when it fails. -/
def luaLoadRoom (env : Env) (script : Option RoomScript) (rooms : Nat → RoomConf) :
    Option (Nat → RoomConf) :=
  match script with
  | none => some rooms
  | some script =>
    match script.rooms with
    | none => some rooms
    | some entries => loadRooms env script.globals entries 0 rooms

/-! ## The configuration -/

/-- `port` and `t_min`. -/
structure Config where
  port : Int
  tMin : Int

/-- The values `main` starts with. -/
def defaultConfig : Config := { port := 5222, tMin := 5 }

/-- `lua_load_config`; the globals of `conf/config.lua` are `none` when the script fails. -/
def luaLoadConfig (env : Env) (script : Option (Bytes → LuaValue)) (config : Config) : Config :=
  match script with
  | none => config
  | some globals =>
    { port := luaGetnumber env globals "port", tMin := luaGetnumber env globals "pthread" }

/-! ## The workers -/

def tMax : Nat := 50

/-- The table `tid`, in which 0 stands for no thread, and the threads that were created. -/
structure Workers where
  tid : Nat → Option Nat
  created : List Nat

def noWorkers : Workers := { tid := fun _ => none, created := [] }

/-- `pthread_create (&tid[i], ...)`, which stores the number of the new thread. -/
def Workers.create (w : Workers) (i thread : Nat) : Option Workers :=
  if i < tMax then
    some { tid := Function.update w.tid i (some thread), created := w.created ++ [thread] }
  else none

/-- The loop of `main` that starts the workers, from `t_num` on. `thread` is the number that the
system gives to each new thread. -/
def startWorkers (thread : Nat → Nat) (tMin : Int) (tNum : Nat) (w : Workers) :
    Option (Nat × Workers) :=
  if tNum < tMin ∧ tNum < tMax then
    (w.create (tNum + 1) (thread (tNum + 1))).bind (startWorkers thread tMin (tNum + 1))
  else some (tNum, w)
termination_by tMax - tNum

/-- The loop of `destory` over the workers: the threads it cancels. -/
def cancelWorkers (tid : Nat → Option Nat) : Nat → Option (List Nat)
  | 0 => some []
  | tNum + 1 =>
    if tNum + 1 < tMax then
      (cancelWorkers tid tNum).map ((tid (tNum + 1)).toList ++ ·)
    else none

end ArpgServer
