import ArpgServer.Model.Database

/-!
# Stored credentials

A lookup takes its password from the first column with the configured name, and its salt from the
first other column with the name of the salt. A name that no column has stands for the first
column, whatever that is. So the values come from the configured columns only if these exist; and
of the two cells only the one of the password is compared with `NULL` before it is copied.
-/

namespace ArpgServer

open CText

variable {client : MysqlClient} {db : Database} {config : DbConfig} {username : Bytes}
  {res : MysqlRes} {row : List (Option Bytes)} {n m : Nat} {password : CharArray n}
  {salt : CharArray m}

/-! ## The search for the columns -/

def DbConfig.isPassword (config : DbConfig) (name : Bytes) : Bool :=
  config.fieldpassword = some name

def DbConfig.isSalt (config : DbConfig) (name : Bytes) : Bool :=
  !config.isPassword name && config.fieldsalt = some name

/-- A name is compared with no text that is `NULL`. -/
def DbConfig.Tells (config : DbConfig) (name : Bytes) : Prop :=
  config.fieldpassword.isSome ∧ (config.isPassword name ∨ config.fieldsalt.isSome)

def passwordColumn (config : DbConfig) (fields : List Bytes) : Nat :=
  (fields.findIdx? config.isPassword).getD 0

def saltColumn (config : DbConfig) (fields : List Bytes) : Nat :=
  (fields.findIdx? config.isSalt).getD 0

/-- The indices after a column. -/
def DbConfig.note (config : DbConfig) (i : Nat) (name : Bytes) (found : Nat × Nat) : Nat × Nat :=
  if config.isPassword name then (i, found.2)
  else if config.isSalt name then (found.1, i)
  else found

theorem findColumns_succ_of_tells {fields : List Bytes} {i : Nat} {name : Bytes}
    {found : Nat × Nat} (hname : fields[i]? = some name) (h : config.Tells name) :
    findColumns config fields (i + 1) found =
      findColumns config fields i (config.note i name found) := by
  obtain ⟨hset, hsalt⟩ := h
  obtain ⟨field, hfield⟩ := Option.isSome_iff_exists.mp hset
  simp only [findColumns, hname, hfield, Option.bind_some, sameName, Option.map_some,
    DbConfig.note, DbConfig.isSalt, DbConfig.isPassword, Option.some.injEq] at hsalt ⊢
  by_cases heq : name = field
  · simp [heq]
  · have hne : ¬ field = name := fun h => heq h.symm
    simp only [hne, decide_false, Bool.false_eq_true, false_or] at hsalt
    obtain ⟨fsalt, hfsalt⟩ := Option.isSome_iff_exists.mp hsalt
    have hcomm : (fsalt = name) = (name = fsalt) := propext eq_comm
    simp only [hfsalt, heq, hne, hcomm, beq_iff_eq, if_false, Option.map_some, Option.bind_some,
      Option.some.injEq, decide_false, Bool.not_false, Bool.true_and, Bool.false_eq_true,
      decide_eq_true_eq]
    split <;> rfl

theorem findColumns_succ_of_not_tells {fields : List Bytes} {i : Nat} {name : Bytes}
    {found : Nat × Nat} (hname : fields[i]? = some name) (h : ¬ config.Tells name) :
    findColumns config fields (i + 1) found = none := by
  simp only [findColumns, hname, Option.bind_some, sameName]
  cases hfield : config.fieldpassword with
  | none => rfl
  | some field =>
    have hne : ¬ name = field := by
      intro heq
      refine h ⟨by rw [hfield]; rfl, Or.inl ?_⟩
      simp [DbConfig.isPassword, hfield, heq]
    have hsalt : config.fieldsalt = none := by
      cases hfsalt : config.fieldsalt with
      | none => rfl
      | some fsalt => exact absurd ⟨by rw [hfield]; rfl, Or.inr (by rw [hfsalt]; rfl)⟩ h
    simp [hne, hsalt]

/-- Going down from column `k`, the loop ends at the first columns of the two kinds. -/
theorem findColumns_of_tells {fields : List Bytes} {k : Nat} (hk : k ≤ fields.length)
    (h : ∀ name ∈ fields.take k, config.Tells name) (found : Nat × Nat) :
    findColumns config fields k found =
      some (((fields.take k).findIdx? config.isPassword).getD found.1,
        ((fields.take k).findIdx? config.isSalt).getD found.2) := by
  induction k generalizing found with
  | zero => rfl
  | succ k ih =>
    have hlt : k < fields.length := hk
    have hname : fields[k]? = some fields[k] := List.getElem?_eq_getElem hlt
    have htake : fields.take (k + 1) = fields.take k ++ [fields[k]] := by
      rw [List.take_add_one, hname, Option.toList_some]
    have hlen : (fields.take k).length = k := by
      rw [List.length_take]
      omega
    rw [htake] at h ⊢
    have hlast : config.Tells fields[k] := h _ (List.mem_append_right _ List.mem_cons_self)
    rw [findColumns_succ_of_tells hname hlast,
      ih hlt.le fun name hmem => h name (List.mem_append_left _ hmem)]
    simp only [List.findIdx?_append, List.findIdx?_singleton, hlen, DbConfig.note]
    cases hpass : config.isPassword fields[k] with
    | true =>
      have hsalt : config.isSalt fields[k] = false := by rw [DbConfig.isSalt, hpass]; rfl
      simp [hsalt]
    | false => cases hsalt : config.isSalt fields[k] <;> simp

theorem findColumns_of_not_tells {fields : List Bytes} {k : Nat} (hk : k ≤ fields.length)
    {name : Bytes} (hmem : name ∈ fields.take k) (h : ¬ config.Tells name) (found : Nat × Nat) :
    findColumns config fields k found = none := by
  induction k generalizing found with
  | zero => cases hmem
  | succ k ih =>
    have hlt : k < fields.length := hk
    have hname : fields[k]? = some fields[k] := List.getElem?_eq_getElem hlt
    by_cases hlast : config.Tells fields[k]
    · rw [findColumns_succ_of_tells hname hlast]
      refine ih hlt.le ?_ _
      rw [List.take_add_one, hname, Option.toList_some, List.mem_append,
        List.mem_singleton] at hmem
      rcases hmem with hmem | rfl
      · exact hmem
      · exact absurd hlast h
    · exact findColumns_succ_of_not_tells hname hlast

/-! ## The cells -/

/-- The two ways in which the copy of the cells ends. -/
theorem copyCells_eq_some {found : Nat × Nat} {reply : PasswordReply n m} :
    copyCells found row password salt = some reply ↔
      (row[found.1]? = some none ∧ reply = ⟨returnFailure, password, salt⟩) ∨
      ∃ a b password' salt', row[found.1]? = some (some a) ∧ row[found.2]? = some (some b) ∧
        password.strcpy a = some password' ∧ salt.strcpy b = some salt' ∧
        reply = ⟨returnSuccess, password', salt'⟩ := by
  unfold copyCells
  rw [Option.bind_eq_some_iff]
  constructor
  · rintro ⟨cell, hcell, h⟩
    cases cell with
    | none =>
      cases h
      exact Or.inl ⟨hcell, rfl⟩
    | some a =>
      obtain ⟨password', hpass, h⟩ := Option.bind_eq_some_iff.mp h
      obtain ⟨cell, hsalt, h⟩ := Option.bind_eq_some_iff.mp h
      obtain ⟨b, rfl, h⟩ := Option.bind_eq_some_iff.mp h
      obtain ⟨salt', hcopy, rfl⟩ := Option.map_eq_some_iff.mp h
      exact Or.inr ⟨a, b, password', salt', hcell, hsalt, hpass, hcopy, rfl⟩
  · rintro (⟨hcell, rfl⟩ | ⟨a, b, password', salt', hcell, hsalt, hpass, hcopy, rfl⟩)
    · exact ⟨none, hcell, rfl⟩
    · refine ⟨some a, hcell, ?_⟩
      dsimp only
      rw [hpass, Option.bind_some, hsalt, Option.bind_some, Option.bind_some, hcopy]
      rfl

/-- A column of the configured name has this value in the row. -/
def MysqlRes.HasValue (res : MysqlRes) (field : Option Bytes) (value : Bytes) : Prop :=
  ∃ (i : Nat) (name : Bytes) (row : List (Option Bytes)), field = some name ∧
    res.fields[i]? = some name ∧ res.rows.head? = some row ∧ row[i]? = some (some value)

/-- The result set that a lookup reads. -/
def lookedUp (client : MysqlClient) (db : Database) (username : Bytes) : Option MysqlRes :=
  if (dbConnect client db).1 = returnFailure then none
  else getUserTuple client (dbConnect client db).2.config username

theorem dbConnect_config (client : MysqlClient) (db : Database) :
    ∃ conn, (dbConnect client db).2.config = { db.config with conn := conn } := by
  unfold dbConnect
  split
  · exact ⟨db.config.conn, rfl⟩
  · split
    · exact ⟨db.config.conn, rfl⟩
    · cases client.init with
      | none => exact ⟨db.config.conn, rfl⟩
      | some conn =>
        refine ⟨some conn, ?_⟩
        dsimp only
        split <;> rfl

/-- The search does not depend on the connection. -/
theorem findColumns_conn (config : DbConfig) (conn : Option Addr) (fields : List Bytes) (k : Nat)
    (found : Nat × Nat) :
    findColumns { config with conn := conn } fields k found =
      findColumns config fields k found := by
  induction k generalizing found with
  | zero => rfl
  | succ k ih => simp only [findColumns, ih]

theorem getUserTuple_rows (h : getUserTuple client config username = some res) :
    ∃ row, res.rows.head? = some row := by
  have hone : res.rows.length = 1 := by
    unfold getUserTuple at h
    split at h
    · cases h
    · split at h
      · cases h
      · split at h
        · cases h
        · split at h
          · cases h
          · split at h
            · cases h
            · rename_i hone
              cases h
              omega
  obtain ⟨row, hrow⟩ := List.length_eq_one_iff.mp hone
  exact ⟨row, by rw [hrow]; rfl⟩

theorem dbGetPassword_of_none (h : lookedUp client db username = none) :
    dbGetPassword client db username password salt =
      some (⟨returnFailure, password, salt⟩, (dbConnect client db).2) := by
  unfold lookedUp at h
  unfold dbGetPassword
  dsimp only
  split
  · rfl
  · rename_i hret
    rw [if_neg hret] at h
    rw [h]

theorem dbGetPassword_of_some (h : lookedUp client db username = some res)
    (password : CharArray n) (salt : CharArray m) :
    ∃ row, res.rows.head? = some row ∧ dbGetPassword client db username password salt =
      (findColumns db.config res.fields res.fields.length (0, 0)).bind fun found =>
        (copyCells found row password salt).map (·, (dbConnect client db).2) := by
  unfold lookedUp at h
  split at h
  · cases h
  · rename_i hret
    obtain ⟨row, hrow⟩ := getUserTuple_rows h
    obtain ⟨conn, hconfig⟩ := dbConnect_config client db
    refine ⟨row, hrow, ?_⟩
    unfold dbGetPassword
    dsimp only
    rw [if_neg hret, h]
    dsimp only
    rw [hrow, hconfig, findColumns_conn]

/-! ## The values -/

/-- The values are those of the configured columns, or nothing is copied. -/
def FromColumns (config : DbConfig) (found : Option MysqlRes) (password : CharArray n)
    (salt : CharArray m) (reply : PasswordReply n m) : Prop :=
  (reply.ret = returnSuccess ∧ ∃ res a b, found = some res ∧
    res.HasValue config.fieldpassword a ∧ res.HasValue config.fieldsalt b ∧
    reply.password.Holds a ∧ reply.salt.Holds b) ∨
  (reply.ret = returnFailure ∧ reply.password = password ∧ reply.salt = salt)

/-- The cell that is taken for the password is `NULL`, or there is a column for it, the cell that
is taken for the salt holds a value of a column for the salt, and both fit their buffers. -/
def MysqlRes.Settled (res : MysqlRes) (config : DbConfig) (n m : Nat) : Prop :=
  (∀ name ∈ res.fields, config.Tells name) ∧ ∃ row, res.rows.head? = some row ∧
    (row[passwordColumn config res.fields]? = some none ∨
      ∃ a b, (∃ name ∈ res.fields, config.isPassword name) ∧
        row[passwordColumn config res.fields]? = some (some a) ∧
        row[saltColumn config res.fields]? = some (some b) ∧ res.HasValue config.fieldsalt b ∧
        a.length < n ∧ b.length < m)

theorem MysqlRes.nonzero (hrow : res.rows.head? = some row) {i : Nat} {v : Bytes}
    (h : row[i]? = some (some v)) : 0 ∉ v :=
  res.text row (List.mem_of_head? hrow) v (List.mem_of_getElem? h)

/-- The first column for the password is one. -/
theorem passwordColumn_named {fields : List Bytes} (h : ∃ name ∈ fields, config.isPassword name) :
    ∃ name, config.fieldpassword = some name ∧
      fields[passwordColumn config fields]? = some name := by
  obtain ⟨name, hmem, hname⟩ := h
  cases hfind : fields.findIdx? config.isPassword with
  | none =>
    have hnone := List.findIdx?_eq_none_iff.mp hfind name hmem
    rw [hname] at hnone
    cases hnone
  | some i =>
    obtain ⟨hi, hfirst, -⟩ := List.findIdx?_eq_some_iff_getElem.mp hfind
    refine ⟨fields[i], of_decide_eq_true hfirst, ?_⟩
    rw [passwordColumn, hfind, Option.getD_some]
    exact List.getElem?_eq_getElem hi

theorem findColumns_all {fields : List Bytes} (h : ∀ name ∈ fields, config.Tells name) :
    findColumns config fields fields.length (0, 0) =
      some (passwordColumn config fields, saltColumn config fields) := by
  have hall : fields.take fields.length = fields := List.take_length
  rw [findColumns_of_tells le_rfl (hall.symm ▸ h), hall]
  rfl

theorem tells_of_findColumns {fields : List Bytes} {found : Nat × Nat}
    (h : findColumns config fields fields.length (0, 0) = some found) :
    ∀ name ∈ fields, config.Tells name := by
  intro name hmem
  by_contra hnot
  have hall : fields.take fields.length = fields := List.take_length
  rw [findColumns_of_not_tells le_rfl (hall.symm ▸ hmem) hnot] at h
  cases h

theorem MysqlRes.Settled.fromColumns (h : res.Settled db.config n m)
    (hfound : lookedUp client db username = some res) :
    ∃ reply db', dbGetPassword client db username password salt = some (reply, db') ∧
      FromColumns db.config (some res) password salt reply := by
  obtain ⟨htells, row, hrow, hcells⟩ := h
  obtain ⟨row', hrow', hget⟩ := dbGetPassword_of_some hfound password salt
  cases hrow.symm.trans hrow'
  rw [findColumns_all htells, Option.bind_some] at hget
  rcases hcells with hnull | ⟨a, b, hnamed, ha, hb, hsalt, hfit, hfit'⟩
  · rw [copyCells_eq_some.mpr (Or.inl ⟨hnull, rfl⟩)] at hget
    exact ⟨_, _, hget, Or.inr ⟨rfl, rfl, rfl⟩⟩
  · obtain ⟨password', hpass, hholds⟩ := password.strcpy_of_lt (res.nonzero hrow ha) hfit
    obtain ⟨salt', hcopy, hholds'⟩ := salt.strcpy_of_lt (res.nonzero hrow hb) hfit'
    rw [copyCells_eq_some.mpr (Or.inr ⟨a, b, password', salt', ha, hb, hpass, hcopy, rfl⟩)] at hget
    obtain ⟨name, hfield, hname⟩ := passwordColumn_named hnamed
    exact ⟨_, _, hget, Or.inl ⟨rfl, res, a, b, rfl, ⟨_, name, row, hfield, hname, hrow, ha⟩, hsalt,
      hholds, hholds'⟩⟩

theorem FromColumns.settled {reply : PasswordReply n m} {db' : Database}
    (h : FromColumns db.config (some res) password salt reply)
    (hfound : lookedUp client db username = some res)
    (hget : dbGetPassword client db username password salt = some (reply, db')) :
    res.Settled db.config n m := by
  obtain ⟨row, hrow, hrun⟩ := dbGetPassword_of_some hfound password salt
  rw [hget] at hrun
  obtain ⟨found, hcolumns, hrun⟩ := Option.bind_eq_some_iff.mp hrun.symm
  obtain ⟨reply', hcopy, hreply⟩ := Option.map_eq_some_iff.mp hrun
  cases hreply
  have htells := tells_of_findColumns hcolumns
  rw [findColumns_all htells] at hcolumns
  cases hcolumns
  refine ⟨htells, row, hrow, ?_⟩
  rcases copyCells_eq_some.mp hcopy with ⟨hnull, -⟩ | ⟨a, b, password', salt', ha, hb, hpass, hsalt,
    rfl⟩
  · exact Or.inl hnull
  · obtain ⟨hfit, hholds⟩ := CharArray.strcpy_eq_some hpass (res.nonzero hrow ha)
    obtain ⟨hfit', hholds'⟩ := CharArray.strcpy_eq_some hsalt (res.nonzero hrow hb)
    rcases h with ⟨-, res', a', b', hres, hvalue, hvalue', hread, hread'⟩ | ⟨hret, -⟩
    · cases hres
      cases hholds.2.symm.trans hread.2
      cases hholds'.2.symm.trans hread'.2
      obtain ⟨i, name, -, hfield, hname, -, -⟩ := hvalue
      exact Or.inr ⟨a, b, ⟨name, List.mem_of_getElem? hname, decide_eq_true hfield⟩, ha, hb,
        hvalue', hfit, hfit'⟩
    · have hdiffer : returnSuccess ≠ returnFailure := by decide
      exact absurd hret hdiffer

/-- **Stored credentials.** What a lookup returns comes from the configured columns exactly when the
cells that its search takes are of these columns, where it takes any. -/
theorem fromColumns_iff_settled (client : MysqlClient) (db : Database) (username : Bytes)
    (password : CharArray n) (salt : CharArray m) :
    (∃ reply db', dbGetPassword client db username password salt = some (reply, db') ∧
      FromColumns db.config (lookedUp client db username) password salt reply) ↔
      ∀ res, lookedUp client db username = some res → res.Settled db.config n m := by
  constructor
  · rintro ⟨reply, db', hget, hfrom⟩ res hfound
    rw [hfound] at hfrom
    exact hfrom.settled hfound hget
  · intro h
    cases hfound : lookedUp client db username with
    | none => exact ⟨_, _, dbGetPassword_of_none hfound, Or.inr ⟨rfl, rfl, rfl⟩⟩
    | some res => exact (h res hfound).fromColumns hfound

/-! ## What a login reads -/

/-- The two cells that the search finds. -/
def MysqlRes.taken (res : MysqlRes) (config : DbConfig) : Option (Bytes × Bytes) :=
  res.rows.head?.bind fun row =>
    row[passwordColumn config res.fields]?.join.bind fun a =>
      row[saltColumn config res.fields]?.join.map fun b => (a, b)

/-- The search ends, and the cells that are read are there. -/
def MysqlRes.Readable (res : MysqlRes) (config : DbConfig) : Prop :=
  (∀ name ∈ res.fields, config.Tells name) ∧ ∃ row, res.rows.head? = some row ∧
    (row[passwordColumn config res.fields]? = some none ∨
      ∃ a b, row[passwordColumn config res.fields]? = some (some a) ∧
        row[saltColumn config res.fields]? = some (some b))

/-- The texts of a reply, when it is no failure. -/
def PasswordReply.texts (reply : PasswordReply n m) : Option (Bytes × Bytes) :=
  if reply.ret = returnSuccess then some (reply.password.text, reply.salt.text) else none

theorem texts_of_failure (password : CharArray n) (salt : CharArray m) :
    (PasswordReply.mk returnFailure password salt).texts = none := by
  have hdiffer : returnFailure ≠ returnSuccess := by decide
  exact if_neg hdiffer

theorem copyCells_texts {found : Nat × Nat} {a b : Bytes} (ha : row[found.1]? = some (some a))
    (hb : row[found.2]? = some (some b)) (h0 : 0 ∉ a) (h0' : 0 ∉ b) (password : CharArray n)
    (salt : CharArray m) :
    (copyCells found row password salt).map PasswordReply.texts =
      if a.length < n ∧ b.length < m then some (some (a, b)) else none := by
  simp only [copyCells, ha, hb, Option.bind_some]
  by_cases hfit : a.length < n
  · obtain ⟨password', hpass, hholds⟩ := password.strcpy_of_lt h0 hfit
    rw [hpass, Option.bind_some]
    by_cases hfit' : b.length < m
    · obtain ⟨salt', hsalt, hholds'⟩ := salt.strcpy_of_lt h0' hfit'
      rw [hsalt, if_pos ⟨hfit, hfit'⟩, ← hholds.2, ← hholds'.2]
      rfl
    · rw [salt.strcpy_of_le (by omega), if_neg fun h => hfit' h.2]
      rfl
  · rw [password.strcpy_of_le (by omega), if_neg fun h => hfit h.1]
    rfl

/-- `get_password` reads what the lookup copies into two buffers. -/
theorem getPassword_eq_dbGetPassword {env : Env} (htype : env.dbType = some databaseTypeMysql)
    (hcells : env.dbGetPassword username =
      (lookedUp client db username).bind fun res => res.taken db.config)
    (hread : ∀ res, lookedUp client db username = some res → res.Readable db.config) :
    getPassword env username =
      (dbGetPassword client db username (.zero maxCharLength) (.zero maxCharLength)).map
        fun r => r.1.texts := by
  simp only [getPassword, htype, Option.bind_some, if_true, hcells]
  cases hfound : lookedUp client db username with
  | none => rw [dbGetPassword_of_none hfound, Option.map_some, texts_of_failure, Option.bind_none]
  | some res =>
    obtain ⟨htells, row, hrow, hcase⟩ := hread res hfound
    obtain ⟨row', hrow', hget⟩ := dbGetPassword_of_some hfound (.zero maxCharLength)
      (.zero maxCharLength)
    cases hrow.symm.trans hrow'
    rw [hget, findColumns_all htells]
    simp only [Option.bind_some, Option.map_map, MysqlRes.taken, hrow]
    rcases hcase with hnull | ⟨a, b, ha, hb⟩
    · rw [hnull, copyCells_eq_some.mpr (Or.inl ⟨hnull, rfl⟩), Option.map_some]
      exact congrArg some (texts_of_failure _ _).symm
    · rw [ha, hb]
      exact (copyCells_texts ha hb (res.nonzero hrow ha) (res.nonzero hrow hb) _ _).symm

/-! ## A table without the columns -/

/-- The columns of the shipped configuration. -/
def shippedDatabase : Database where
  config :=
    { conn := none
      host := some (ofString "localhost")
      user := some (ofString "root")
      pass := some (ofString "123456")
      dbname := some (ofString "ultrax")
      table := some (ofString "pre_ucenter_members")
      fieldusername := some (ofString "username")
      fieldpassword := some (ofString "password")
      fieldsalt := some (ofString "salt") }
  attempts := []

/-- One user with one column of another name. -/
def numberedUser : MysqlRes where
  fields := [ofString "uid"]
  rows := [[some (ofString "1")]]
  size_eq := by
    intro row hrow
    cases List.mem_singleton.mp hrow
    rfl
  text := by
    intro row hrow v hv
    rw [List.mem_singleton.mp hrow, List.mem_singleton, Option.some.injEq] at hv
    rw [hv]
    decide

def numberedClient : MysqlClient where
  init := some 1
  realConnect := true
  ping := true
  realEscapeString := id
  query := fun _ => true
  storeResult := fun _ => some numberedUser

/-- The number of the user is taken for the password and for the salt. -/
theorem not_fromColumns : ¬ ∀ (client : MysqlClient) (db : Database) (username : Bytes)
    (password salt : CharArray maxCharLength),
    ∃ reply db', dbGetPassword client db username password salt = some (reply, db') ∧
      FromColumns db.config (lookedUp client db username) password salt reply := by
  intro hall
  obtain ⟨reply, db', hget, hfrom⟩ := hall numberedClient shippedDatabase (ofString "anna")
    (.zero _) (.zero _)
  have hfound : lookedUp numberedClient shippedDatabase (ofString "anna") = some numberedUser := rfl
  rw [hfound] at hfrom
  obtain ⟨-, row, hrow, hcells⟩ := hfrom.settled hfound hget
  cases hrow
  rcases hcells with hnull | ⟨-, -, ⟨name, hmem, hname⟩, -⟩
  · cases hnull
  · cases List.mem_singleton.mp hmem
    exact absurd hname (by decide)

end ArpgServer
