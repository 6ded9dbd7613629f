import ArpgServer.Model.Env

/-!
# The user table (`db_mysql.c`)

The connection to the database, and the lookup of the password that is stored for a user. A read
through `NULL`, a read outside a row and a copy that does not fit its buffer are faults.
-/

namespace ArpgServer

open CText

def mysqlLu : Nat := 1024

def mysqlLr : Nat := 256

/-- The result of a query. A cell is `NULL` or the text that is read through its pointer. -/
structure MysqlRes where
  fields : List Bytes
  rows : List (List (Option Bytes))
  size_eq : ∀ row ∈ rows, row.length = fields.length
  text : ∀ row ∈ rows, ∀ v, some v ∈ row → 0 ∉ v

/-- What the client library replies in the course of one lookup. -/
structure MysqlClient where
  /-- The handle that `mysql_init` allocates, or `NULL`. -/
  init : Option Addr
  /-- `mysql_real_connect` succeeds. -/
  realConnect : Bool
  /-- `mysql_ping` returns 0. -/
  ping : Bool
  realEscapeString : Bytes → Bytes
  /-- `mysql_query` returns 0. -/
  query : Bytes → Bool
  storeResult : Bytes → Option MysqlRes

/-- The fields of `_db_config` that belong to MySQL. -/
structure DbConfig where
  conn : Option Addr
  host : Option Bytes
  user : Option Bytes
  pass : Option Bytes
  dbname : Option Bytes
  table : Option Bytes
  fieldusername : Option Bytes
  fieldpassword : Option Bytes
  fieldsalt : Option Bytes

/-- `_db_config`, and the calls of `mysql_real_connect` so far: on which handle, and whether it
succeeded. -/
structure Database where
  config : DbConfig
  attempts : List (Addr × Bool)

/-- The four texts without which no connection is tried. -/
def DbConfig.complete (config : DbConfig) : Bool :=
  config.host.isSome && config.dbname.isSome && config.user.isSome && config.pass.isSome

/-- `db_connect`. -/
def dbConnect (client : MysqlClient) (db : Database) : Int × Database :=
  if db.config.conn.isSome then (returnSuccess, db)
  else if !db.config.complete then (returnFailure, db)
  else
    match client.init with
    | none => (returnFailure, db)
    | some conn =>
      let db' : Database :=
        { config := { db.config with conn := some conn }
          attempts := db.attempts ++ [(conn, client.realConnect)] }
      if client.realConnect then (returnSuccess, db') else (returnFailure, db')

/-- The query for a user. -/
def userSql (client : MysqlClient) (config : DbConfig) (username : Bytes) : Bytes :=
  let euser := client.realEscapeString (username.take mysqlLu)
  (ofString "SELECT * FROM " ++ formatString config.table ++ ofString " WHERE " ++
    formatString config.fieldusername ++ ofString "='" ++ euser ++ ofString "' limit 1").take
      (1024 + mysqlLu * 2 + mysqlLr * 2)

/-- `get_user_tuple`. -/
def getUserTuple (client : MysqlClient) (config : DbConfig) (username : Bytes) :
    Option MysqlRes :=
  if config.conn.isNone then none
  else if !client.ping then none
  else if !client.query (userSql client config username) then none
  else
    match client.storeResult (userSql client config username) with
    | none => none
    | some res => if res.rows.length ≠ 1 then none else some res

/-- `strcmp (name, field) == 0`, for a text of the configuration that may be `NULL`. -/
def sameName (name : Bytes) (field : Option Bytes) : Option Bool := field.map (name == ·)

/-- The loop over the columns, from the last one on: the indices of password and salt. -/
def findColumns (config : DbConfig) (fields : List Bytes) : Nat → Nat × Nat → Option (Nat × Nat)
  | 0, found => some found
  | i + 1, found =>
    fields[i]?.bind fun name =>
      (sameName name config.fieldpassword).bind fun same =>
        if same then findColumns config fields i (i, found.2)
        else
          (sameName name config.fieldsalt).bind fun same =>
            if same then findColumns config fields i (found.1, i)
            else findColumns config fields i found

/-- What a lookup returns and leaves in its two buffers. -/
structure PasswordReply (n m : Nat) where
  ret : Int
  password : CharArray n
  salt : CharArray m

variable {n m : Nat}

/-- The end of `db_get_password`, with the indices of the columns. -/
def copyCells (found : Nat × Nat) (row : List (Option Bytes)) (password : CharArray n)
    (salt : CharArray m) : Option (PasswordReply n m) :=
  row[found.1]?.bind fun cell =>
    match cell with
    | none => some ⟨returnFailure, password, salt⟩
    | some a =>
      (password.strcpy a).bind fun password =>
        row[found.2]?.bind fun cell =>
          cell.bind fun b => (salt.strcpy b).map fun salt => ⟨returnSuccess, password, salt⟩

/-- `db_get_password`. -/
def dbGetPassword (client : MysqlClient) (db : Database) (username : Bytes)
    (password : CharArray n) (salt : CharArray m) : Option (PasswordReply n m × Database) :=
  let (ret, db') := dbConnect client db
  if ret = returnFailure then some (⟨returnFailure, password, salt⟩, db')
  else
    match getUserTuple client db'.config username with
    | none => some (⟨returnFailure, password, salt⟩, db')
    | some res =>
      (findColumns db'.config res.fields res.fields.length (0, 0)).bind fun found =>
        match res.rows.head? with
        | none => some (⟨returnFailure, password, salt⟩, db')
        | some row => (copyCells found row password salt).map (·, db')

end ArpgServer
