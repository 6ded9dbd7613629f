import ArpgServer.Model.Startup

/-!
# Start-up inside its tables

`lua_load_room` fills the room table behind the lobby, and `main` and `destory` walk the table of
workers from 1 on. Both loops compare the index with the size of the table before they advance it,
so that the last round writes behind the table. Up to the round before the last all is in order.
-/

namespace ArpgServer

open CText

variable {env : Env} {globals : Bytes → LuaValue} {rooms : Nat → RoomConf} {thread : Nat → Nat}

/-! ## The rooms -/

/-- The rooms that a script asks for, in order. -/
def RoomScript.confs (script : RoomScript) (env : Env) : List RoomConf :=
  (script.rooms.getD []).filterMap (roomConf env script.globals)

def confsOf (env : Env) (script : Option RoomScript) : List RoomConf :=
  match script with
  | none => []
  | some script => script.confs env

/-- A table with given rooms behind index `i`. -/
def filled (rooms : Nat → RoomConf) (i : Nat) (confs : List RoomConf) (r : Nat) : RoomConf :=
  if i < r then confs[r - i - 1]?.getD (rooms r) else rooms r

theorem filled_nil (rooms : Nat → RoomConf) (i : Nat) : filled rooms i [] = rooms := by
  funext r
  simp [filled]

theorem filled_cons (rooms : Nat → RoomConf) (i : Nat) (conf : RoomConf)
    (confs : List RoomConf) :
    filled (Function.update rooms (i + 1) conf) (i + 1) confs = filled rooms i (conf :: confs) := by
  funext r
  unfold filled
  rcases Nat.lt_trichotomy r (i + 1) with hr | rfl | hr
  · have h1 : ¬ i + 1 < r := by omega
    have h2 : ¬ i < r := by omega
    rw [if_neg h1, if_neg h2, Function.update_of_ne (by omega)]
  · have h1 : ¬ i + 1 < i + 1 := by omega
    have h2 : i < i + 1 := by omega
    have h3 : i + 1 - i - 1 = 0 := by omega
    rw [if_neg h1, if_pos h2, Function.update_self, h3]
    rfl
  · have h1 : i < r := by omega
    have h2 : r - i - 1 = (r - (i + 1) - 1) + 1 := by omega
    rw [if_pos hr, if_pos h1, h2, List.getElem?_cons_succ, Function.update_of_ne (by omega)]

/-- As long as there is room, each entry that asks for a room gets the next one. -/
theorem loadRooms_of_lt {entries : List LuaValue} {i : Nat}
    (h : i + (entries.filterMap (roomConf env globals)).length < maxRooms) :
    loadRooms env globals entries i rooms =
      some (filled rooms i (entries.filterMap (roomConf env globals))) := by
  induction entries generalizing i rooms with
  | nil => rw [loadRooms, List.filterMap_nil, filled_nil]
  | cons v entries ih =>
    have hi : i < maxRooms := by omega
    rw [loadRooms, if_pos hi]
    cases hv : roomConf env globals v with
    | none =>
      rw [List.filterMap_cons_none hv] at h ⊢
      exact ih h
    | some conf =>
      rw [List.filterMap_cons_some hv] at h ⊢
      rw [List.length_cons] at h
      have hnext : i + 1 < maxRooms := by omega
      dsimp only
      rw [if_pos hnext, ih (by omega), filled_cons]

/-- One room too many is written behind the table. -/
theorem loadRooms_of_le {entries : List LuaValue} {i : Nat} (hi : i < maxRooms)
    (h : maxRooms ≤ i + (entries.filterMap (roomConf env globals)).length) :
    loadRooms env globals entries i rooms = none := by
  induction entries generalizing i rooms with
  | nil =>
    rw [List.filterMap_nil, List.length_nil] at h
    omega
  | cons v entries ih =>
    rw [loadRooms, if_pos hi]
    cases hv : roomConf env globals v with
    | none =>
      rw [List.filterMap_cons_none hv] at h
      exact ih hi h
    | some conf =>
      rw [List.filterMap_cons_some hv, List.length_cons] at h
      dsimp only
      split
      · rename_i hnext
        exact ih hnext (by omega)
      · rfl

theorem luaLoadRoom_of_lt (script : Option RoomScript)
    (h : (confsOf env script).length < maxRooms) :
    luaLoadRoom env script rooms = some (filled rooms 0 (confsOf env script)) := by
  unfold luaLoadRoom confsOf RoomScript.confs at *
  cases script with
  | none => exact congrArg some (filled_nil rooms 0).symm
  | some script =>
    dsimp only at h ⊢
    cases hrooms : script.rooms with
    | none => exact congrArg some (filled_nil rooms 0).symm
    | some entries =>
      rw [hrooms, Option.getD_some] at h
      exact loadRooms_of_lt (by omega)

theorem luaLoadRoom_of_le (script : Option RoomScript)
    (h : maxRooms ≤ (confsOf env script).length) : luaLoadRoom env script rooms = none := by
  have hsize : ¬ maxRooms ≤ 0 := by decide
  unfold luaLoadRoom confsOf RoomScript.confs at *
  cases script with
  | none => exact absurd h hsize
  | some script =>
    dsimp only at h ⊢
    cases hrooms : script.rooms with
    | none =>
      rw [hrooms] at h
      exact absurd h hsize
    | some entries =>
      rw [hrooms, Option.getD_some] at h
      exact loadRooms_of_le (by decide) (by omega)

/-- `lua_load_room` fills the rooms from 1 on, and entries for which there is none are left out. -/
def LoadsInside (env : Env) (script : Option RoomScript) : Prop :=
  ∃ rooms, luaLoadRoom env script clearedRooms = some rooms ∧ rooms 0 = lobbyConf ∧
    ∀ k, k + 1 < maxRooms → rooms (k + 1) = (confsOf env script)[k]?.getD blankConf

theorem loadsInside_iff (env : Env) (script : Option RoomScript) :
    LoadsInside env script ↔ (confsOf env script).length < maxRooms := by
  constructor
  · rintro ⟨rooms, hload, -⟩
    by_contra hmany
    rw [luaLoadRoom_of_le script (by omega)] at hload
    cases hload
  · intro h
    refine ⟨_, luaLoadRoom_of_lt script h, rfl, fun k hk => ?_⟩
    have hpos : 0 < k + 1 := by omega
    have hcleared : clearedRooms (k + 1) = blankConf := if_neg (by omega)
    rw [filled, if_pos hpos, hcleared]
    rfl

/-! ## The workers -/

/-- The table with the first `n` workers. -/
def started (thread : Nat → Nat) (n : Nat) : Workers where
  tid := fun i => if 0 < i ∧ i ≤ n then some (thread i) else none
  created := (List.range n).map fun i => thread (i + 1)

theorem started_zero (thread : Nat → Nat) : started thread 0 = noWorkers := by
  have htid : (started thread 0).tid = noWorkers.tid := by
    funext i
    exact if_neg (by omega)
  have hcreated : (started thread 0).created = noWorkers.created := rfl
  cases hs : started thread 0
  rw [hs] at htid hcreated
  cases htid
  cases hcreated
  rfl

theorem started_create {n : Nat} (h : n + 1 < tMax) :
    (started thread n).create (n + 1) (thread (n + 1)) = some (started thread (n + 1)) := by
  have htid : Function.update (started thread n).tid (n + 1) (some (thread (n + 1))) =
      (started thread (n + 1)).tid := by
    funext i
    rw [Function.update_apply]
    unfold started
    dsimp only
    split
    · rename_i hi
      rw [hi, if_pos (by omega)]
    · by_cases hin : 0 < i ∧ i ≤ n
      · rw [if_pos hin, if_pos (by omega)]
      · rw [if_neg hin, if_neg (by omega)]
  have hcreated : (started thread n).created ++ [thread (n + 1)] =
      (started thread (n + 1)).created := by
    simp only [started, List.range_succ, List.map_append, List.map_cons, List.map_nil]
  rw [Workers.create, if_pos h, htid, hcreated]

/-- Fewer workers than the table holds are all started. -/
theorem startWorkers_of_lt {tMin : Int} (h : tMin < tMax) (n : Nat) (hn : n ≤ tMin.toNat) :
    startWorkers thread tMin n (started thread n) =
      some (tMin.toNat, started thread tMin.toNat) := by
  obtain ⟨k, hk⟩ := Nat.exists_eq_add_of_le hn
  induction k generalizing n with
  | zero =>
    have hend : ¬ ((n : Int) < tMin ∧ n < tMax) := by omega
    rw [startWorkers, if_neg hend, hk, Nat.add_zero]
  | succ k ih =>
    have hgo : (n : Int) < tMin ∧ n < tMax := by omega
    have hnext : n + 1 < tMax := by omega
    rw [startWorkers, if_pos hgo, started_create hnext, Option.bind_some]
    exact ih (n + 1) (by omega) (by omega)

/-- The last one of as many workers as the table has entries is stored behind it. -/
theorem startWorkers_of_le {tMin : Int} (h : tMax ≤ tMin) (n : Nat) (hn : n < tMax) :
    startWorkers thread tMin n (started thread n) = none := by
  obtain ⟨k, hk⟩ := Nat.exists_eq_add_of_le hn
  induction k generalizing n with
  | zero =>
    have hgo : (n : Int) < tMin ∧ n < tMax := by omega
    have hlast : ¬ n + 1 < tMax := by omega
    rw [startWorkers, if_pos hgo, Workers.create, if_neg hlast, Option.bind_none]
  | succ k ih =>
    have hgo : (n : Int) < tMin ∧ n < tMax := by omega
    have hnext : n + 1 < tMax := by omega
    rw [startWorkers, if_pos hgo, started_create hnext, Option.bind_some]
    exact ih (n + 1) hnext (by omega)

theorem cancelWorkers_started {n m : Nat} (hm : m ≤ n) (hn : n < tMax) :
    cancelWorkers (started thread n).tid m =
      some ((List.range m).map fun i => thread (i + 1)).reverse := by
  induction m with
  | zero => rfl
  | succ m ih =>
    have hin : m + 1 < tMax := by omega
    have hread : (started thread n).tid (m + 1) = some (thread (m + 1)) := if_pos (by omega)
    rw [cancelWorkers, if_pos hin, ih (by omega), Option.map_some, hread, List.range_succ,
      List.map_append, List.reverse_append]
    rfl

/-- As many workers are started as are asked for and fit, and `destory` cancels these, the last
one first. -/
def WorkersInside (thread : Nat → Nat) (tMin : Int) : Prop :=
  ∃ n w, startWorkers thread tMin 0 noWorkers = some (n, w) ∧
    (n : Int) = min (max tMin 0) tMax ∧ w.created.length = n ∧
    cancelWorkers w.tid n = some w.created.reverse

theorem workersInside_iff (thread : Nat → Nat) (tMin : Int) :
    WorkersInside thread tMin ↔ tMin < tMax := by
  constructor
  · rintro ⟨n, w, hstart, -⟩
    by_contra hmany
    rw [← started_zero thread, startWorkers_of_le (by omega) 0 (by decide)] at hstart
    cases hstart
  · intro h
    have hpos : 0 < tMax := by decide
    have hstart : startWorkers thread tMin 0 (started thread 0) = _ :=
      startWorkers_of_lt h 0 (Nat.zero_le _)
    rw [started_zero thread] at hstart
    refine ⟨tMin.toNat, started thread tMin.toNat, hstart, by omega, ?_, ?_⟩
    · simp [started]
    · exact cancelWorkers_started le_rfl (by omega)

/-! ## Both -/

/-- Start-up reads and writes inside its tables. -/
def StartsInside (env : Env) (roomLua : Option RoomScript) (configLua : Option (Bytes → LuaValue))
    (thread : Nat → Nat) : Prop :=
  LoadsInside env roomLua ∧
    WorkersInside thread (luaLoadConfig env configLua defaultConfig).tMin

/-- **Start-up.** It stays inside its tables exactly when the room script asks for fewer rooms than
the table has with the lobby, and the configuration for fewer workers than the table has. -/
theorem startsInside_iff (env : Env) (roomLua : Option RoomScript)
    (configLua : Option (Bytes → LuaValue)) (thread : Nat → Nat) :
    StartsInside env roomLua configLua thread ↔
      (confsOf env roomLua).length < maxRooms ∧
        (luaLoadConfig env configLua defaultConfig).tMin < tMax :=
  and_congr (loadsInside_iff env roomLua) (workersInside_iff thread _)

/-- Fifty rooms, and fifty workers. -/
theorem not_startsInside : ¬ ∀ (env : Env) (roomLua : Option RoomScript)
    (configLua : Option (Bytes → LuaValue)) (thread : Nat → Nat),
    StartsInside env roomLua configLua thread := by
  intro hall
  let env : Env := .delivering 0 quitPacket
  let script : RoomScript :=
    { globals := fun _ => .nil, rooms := some (List.replicate 50 (.table [])) }
  have hinside := hall env (some script) (some fun _ => .number 50 (ofString "50")) id
  have hmany : ¬ (confsOf env (some script)).length < maxRooms := by decide +kernel
  exact hmany ((loadsInside_iff env (some script)).mp hinside.1)

end ArpgServer
