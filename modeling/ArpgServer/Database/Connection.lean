import Mathlib.Data.List.Induction
import ArpgServer.Database.Credentials

/-!
# Retried connections

`db_connect` takes a handle that is not `NULL` for a connection. It stores the handle before it
tries to connect, so that after a failed attempt no later lookup tries again, and all of them are
told that there is a connection. Attempts that fail for want of a handle are repeated.
-/

namespace ArpgServer

open CText

variable {client : MysqlClient} {db db' : Database} {config : DbConfig}

/-- `_db_config` as `authreg_init` leaves it. -/
def Database.start (config : DbConfig) : Database :=
  { config := { config with conn := none }, attempts := [] }

/-- A call of `mysql_real_connect` on the current handle has succeeded. -/
def Database.Connected (db : Database) : Prop :=
  ∃ conn, db.config.conn = some conn ∧ (conn, true) ∈ db.attempts

/-- The state after an attempt on a new handle. -/
def Database.tried (db : Database) (conn : Addr) (ok : Bool) : Database :=
  { config := { db.config with conn := some conn }, attempts := db.attempts ++ [(conn, ok)] }

/-- `db_connect` reports a connection only if there is one, and leaves no handle behind when it
fails. -/
def Retriable (client : MysqlClient) (db : Database) : Prop :=
  ((dbConnect client db).1 = returnSuccess → (dbConnect client db).2.Connected) ∧
    ((dbConnect client db).1 = returnFailure →
      db.config.conn = none ∧ (dbConnect client db).2.config.conn = none)

/-! ## One call -/

theorem dbConnect_held {conn : Addr} (h : db.config.conn = some conn) :
    dbConnect client db = (returnSuccess, db) := by
  have hsome : db.config.conn.isSome = true := by rw [h]; rfl
  rw [dbConnect, if_pos hsome]

theorem dbConnect_untried (h : db.config.conn = none)
    (hno : db.config.complete = true → client.init = none) :
    dbConnect client db = (returnFailure, db) := by
  have hnone : ¬ db.config.conn.isSome = true := by simp [h]
  rw [dbConnect, if_neg hnone]
  split
  · rfl
  · rename_i hcomplete
    rw [hno (by simpa using hcomplete)]

theorem dbConnect_tried (h : db.config.conn = none) (hcomplete : db.config.complete = true)
    {conn : Addr} (hinit : client.init = some conn) :
    dbConnect client db = (if client.realConnect then returnSuccess else returnFailure,
      db.tried conn client.realConnect) := by
  have hnone : ¬ db.config.conn.isSome = true := by simp [h]
  have hgo : ¬ (!db.config.complete) = true := by simp [hcomplete]
  rw [dbConnect, if_neg hnone, if_neg hgo, hinit]
  dsimp only [Database.tried]
  split <;> rfl

theorem success_ne_failure : returnSuccess ≠ returnFailure := by decide

theorem retriable_of_connected (h : db.Connected) : Retriable client db := by
  obtain ⟨conn, hconn, hmem⟩ := h
  rw [Retriable, dbConnect_held hconn]
  exact ⟨fun _ => ⟨conn, hconn, hmem⟩, fun hret => absurd hret success_ne_failure⟩

theorem retriable_of_untried (h : db.config.conn = none)
    (hno : db.config.complete = true → client.init = none) : Retriable client db := by
  rw [Retriable, dbConnect_untried h hno]
  exact ⟨fun hret => absurd hret.symm success_ne_failure, fun _ => ⟨h, h⟩⟩

theorem retriable_tried_iff (h : db.config.conn = none) (hcomplete : db.config.complete = true)
    {conn : Addr} (hinit : client.init = some conn) :
    Retriable client db ↔ client.realConnect = true := by
  rw [Retriable, dbConnect_tried h hcomplete hinit]
  cases client.realConnect with
  | true =>
    refine iff_of_true ⟨fun _ => ⟨conn, rfl, ?_⟩, fun hret => ?_⟩ rfl
    · exact List.mem_append_right _ List.mem_cons_self
    · exact absurd hret success_ne_failure
  | false =>
    refine iff_of_false (fun hall => ?_) Bool.false_ne_true
    cases (hall.2 rfl).2

/-! ## Lookups one after the other -/

/-- A lookup: what the client library replies, the user, and the two buffers. -/
structure PasswordQuery where
  client : MysqlClient
  username : Bytes
  password : CharArray maxCharLength
  salt : CharArray maxCharLength

def PasswordQuery.run (l : PasswordQuery) (db : Database) :
    Option (PasswordReply maxCharLength maxCharLength × Database) :=
  dbGetPassword l.client db l.username l.password l.salt

/-- The state after some lookups; a fault ends the server. -/
def queries : List PasswordQuery → Database → Option Database
  | [], db => some db
  | l :: ls, db => (l.run db).bind fun r => queries ls r.2

theorem queries_append (ls ls' : List PasswordQuery) (db : Database) :
    queries (ls ++ ls') db = (queries ls db).bind (queries ls') := by
  induction ls generalizing db with
  | nil => rfl
  | cons l ls ih =>
    simp only [List.cons_append, queries, Option.bind_assoc]
    exact congrArg _ (funext fun r => ih r.2)

/-- A lookup changes the state as its call of `db_connect` does. -/
theorem PasswordQuery.run_snd {l : PasswordQuery}
    {reply : PasswordReply maxCharLength maxCharLength} (h : l.run db = some (reply, db')) :
    db' = (dbConnect l.client db).2 := by
  rw [PasswordQuery.run] at h
  cases hfound : lookedUp l.client db l.username with
  | none =>
    rw [dbGetPassword_of_none hfound] at h
    cases h
    rfl
  | some res =>
    obtain ⟨row, -, hget⟩ := dbGetPassword_of_some hfound l.password l.salt
    rw [hget] at h
    obtain ⟨found, -, h⟩ := Option.bind_eq_some_iff.mp h
    obtain ⟨reply', -, h⟩ := Option.map_eq_some_iff.mp h
    cases h
    rfl

theorem queries_snoc {ls : List PasswordQuery} {l : PasswordQuery}
    (h : queries (ls ++ [l]) db = some db') :
    ∃ mid, queries ls db = some mid ∧ db' = (dbConnect l.client mid).2 := by
  rw [queries_append] at h
  obtain ⟨mid, hmid, h⟩ := Option.bind_eq_some_iff.mp h
  obtain ⟨⟨reply, last⟩, hrun, h⟩ := Option.bind_eq_some_iff.mp h
  cases h
  exact ⟨mid, hmid, PasswordQuery.run_snd hrun⟩

theorem dbConnect_complete (client : MysqlClient) (db : Database) :
    (dbConnect client db).2.config.complete = db.config.complete := by
  obtain ⟨conn, hconfig⟩ := dbConnect_config client db
  rw [hconfig]
  rfl

theorem queries_complete {ls : List PasswordQuery} (h : queries ls db = some db') :
    db'.config.complete = db.config.complete := by
  induction ls using List.reverseRecOn generalizing db' with
  | nil =>
    cases h
    rfl
  | append_singleton ls l ih =>
    obtain ⟨mid, hmid, rfl⟩ := queries_snoc h
    rw [dbConnect_complete, ih hmid]

/-- Lookups that get no handle change nothing. -/
theorem queries_untried {ls : List PasswordQuery} (h : db.config.conn = none)
    (hno : ∀ l ∈ ls, l.client.init = none) : queries ls db = some db := by
  induction ls with
  | nil => rfl
  | cons l ls ih =>
    have hconnect : dbConnect l.client db = (returnFailure, db) :=
      dbConnect_untried h fun _ => hno l List.mem_cons_self
    have hfound : lookedUp l.client db l.username = none := by rw [lookedUp, hconnect, if_pos rfl]
    rw [queries, PasswordQuery.run, dbGetPassword_of_none hfound, hconnect, Option.bind_some]
    exact ih fun l hl => hno l (List.mem_cons_of_mem _ hl)

/-! ## Every call -/

/-- The first lookup that gets a handle gets a connection. -/
def FirstConnects (ls : List PasswordQuery) : Prop :=
  ∀ l, ls.find? (·.client.init.isSome) = some l → l.client.realConnect = true

/-- No lookup has got a handle so far. -/
def Waiting (ls : List PasswordQuery) (db : Database) : Prop :=
  db.config.conn = none ∧ (db.config.complete = true → ∀ l ∈ ls, l.client.init = none)

theorem find_of_waiting {pre post : List PasswordQuery} {l : PasswordQuery}
    (hpre : ∀ l ∈ pre, l.client.init = none) (hl : l.client.init.isSome) :
    (pre ++ l :: post).find? (·.client.init.isSome) = some l := by
  refine List.find?_eq_some_iff_append.mpr ⟨hl, pre, post, rfl, fun l' hl' => ?_⟩
  rw [hpre l' hl']
  rfl

theorem Waiting.call {ls post : List PasswordQuery} {l : PasswordQuery} (h : Waiting ls db)
    (hfirst : db.config.complete = true → FirstConnects (ls ++ l :: post)) :
    Retriable l.client db ∧ (Waiting (ls ++ [l]) (dbConnect l.client db).2 ∨
      (dbConnect l.client db).2.Connected) := by
  obtain ⟨hconn, hpre⟩ := h
  by_cases hno : db.config.complete = true → l.client.init = none
  · refine ⟨retriable_of_untried hconn hno, Or.inl ?_⟩
    rw [dbConnect_untried hconn hno]
    refine ⟨hconn, fun hcomplete l' hl' => ?_⟩
    rcases List.mem_append.mp hl' with hl' | hl'
    · exact hpre hcomplete l' hl'
    · rw [List.mem_singleton.mp hl']
      exact hno hcomplete
  · push Not at hno
    obtain ⟨hcomplete, hinit⟩ := hno
    obtain ⟨conn, hinit⟩ := Option.ne_none_iff_exists'.mp hinit
    have hl : l.client.init.isSome := by rw [hinit]; rfl
    have hok := hfirst hcomplete l (find_of_waiting (hpre hcomplete) hl)
    have hcall := (retriable_tried_iff hconn hcomplete hinit).mpr hok
    refine ⟨hcall, Or.inr (hcall.1 ?_)⟩
    rw [dbConnect_tried hconn hcomplete hinit, hok]
    rfl

/-- What holds after each lookup, if the first one that gets a handle connects. -/
theorem queries_waiting {pre post : List PasswordQuery}
    (hfirst : config.complete = true → FirstConnects (pre ++ post))
    (h : queries pre (.start config) = some db) : Waiting pre db ∨ db.Connected := by
  induction pre using List.reverseRecOn generalizing db post with
  | nil =>
    cases h
    exact Or.inl ⟨rfl, fun _ l hl => by cases hl⟩
  | append_singleton pre l ih =>
    obtain ⟨mid, hmid, rfl⟩ := queries_snoc h
    rw [List.append_assoc, List.singleton_append] at hfirst
    rcases ih hfirst hmid with hwaiting | hconnected
    · have hcomplete : mid.config.complete = config.complete := queries_complete hmid
      exact (hwaiting.call (hcomplete ▸ hfirst)).2
    · obtain ⟨conn, hconn, hmem⟩ := hconnected
      rw [dbConnect_held hconn]
      exact Or.inr ⟨conn, hconn, hmem⟩

/-- **Connections.** Over every sequence of lookups, no call of `db_connect` reports a connection
that does not exist or leaves a handle that is not connected, exactly when the first lookup that
gets a handle also gets a connection, or none is tried. -/
theorem retriable_iff_firstConnects (config : DbConfig) (ls : List PasswordQuery) :
    (∀ pre l post, ls = pre ++ l :: post → ∀ db, queries pre (.start config) = some db →
      Retriable l.client db) ↔ (config.complete = true → FirstConnects ls) := by
  constructor
  · intro hall hcomplete l hfind
    obtain ⟨hl, pre, post, rfl, hpre⟩ := List.find?_eq_some_iff_append.mp hfind
    obtain ⟨conn, hinit⟩ := Option.isSome_iff_exists.mp hl
    have hno : ∀ l' ∈ pre, l'.client.init = none := fun l' hl' => by simpa using hpre l' hl'
    have hcall := hall pre l post rfl _ (queries_untried rfl hno)
    exact (retriable_tried_iff rfl hcomplete hinit).mp hcall
  · rintro hfirst pre l post rfl db h
    rcases queries_waiting hfirst h with hwaiting | hconnected
    · have hcomplete : db.config.complete = config.complete := queries_complete h
      exact (hwaiting.call (hcomplete ▸ hfirst)).1
    · exact retriable_of_connected hconnected

/-! ## A database that comes back -/

/-- A lookup while the database is down. -/
def refusedQuery : PasswordQuery where
  client := { numberedClient with realConnect := false, ping := false }
  username := ofString "anna"
  password := .zero _
  salt := .zero _

/-- The second lookup is told that there is a connection. -/
theorem not_retriable : ¬ ∀ (config : DbConfig) (ls : List PasswordQuery), ∀ pre l post,
    ls = pre ++ l :: post → ∀ db, queries pre (.start config) = some db →
      Retriable l.client db := by
  intro hall
  have hlater : queries [refusedQuery] (.start shippedDatabase.config) =
      some ((Database.start shippedDatabase.config).tried 1 false) := rfl
  have hcall := hall shippedDatabase.config [refusedQuery, { refusedQuery with
    client := numberedClient }] [refusedQuery] _ [] rfl _ hlater
  obtain ⟨conn, hconn, hmem⟩ := hcall.1 rfl
  cases List.mem_singleton.mp hmem

end ArpgServer
