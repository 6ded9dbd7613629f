import ArpgServer.Effects.Steps
import ArpgServer.Rooms.Lists
import ArpgServer.Startup.Tables

/-!
# Rooms from the script to the room list

The room script says which rooms there are and what they are called, and no message changes that.
The room list stops at the first room that is not listed and has no name, which the script may put
in front of rooms that are listed.
-/

namespace ArpgServer

open CText

variable {lookup : Lookup} {env : Env} {s s' t : State} {p q : Addr} {c d : Client} {fd : Nat}
  {e : Event} {a : Action} {rooms : Nat → RoomConf}

/-! ## What no action changes -/

def Room.conf (room : Room) : RoomConf :=
  { enable := room.enable, anonymous := room.anonymous, visable := room.visable, name := room.name }

/-- Every room is what it was. -/
def SameConf (s t : State) : Prop := ∀ r, (t.rooms r).conf = (s.rooms r).conf

theorem SameConf.of_rooms (h : t.rooms = s.rooms) : SameConf s t := by
  intro r
  rw [h]

theorem SameConf.trans (h : SameConf s t) (h' : SameConf t s') : SameConf s s' :=
  fun r => (h' r).trans (h r)

theorem sameConf_vacate (s : State) (p : Addr) (c : Client) : SameConf s (s.vacate p c) := by
  intro r
  rw [State.vacate_rooms]
  split <;> rfl

theorem sameConf_enter (s : State) (p : Addr) (c : Client) (r : Nat) :
    SameConf s (s.enter p c r) := by
  intro k
  rw [State.enter_rooms]
  split
  · rename_i hk
    rw [hk]
    rfl
  · rfl

theorem QuietStep.sameConf (h : QuietStep env s s') : SameConf s s' := by
  cases h with
  | clock now => exact .of_rooms rfl
  | talk p c d l hp hd hl => exact .of_rooms rfl
  | script p c l hp hc hl => exact .of_rooms rfl
  | leave p c l hp hl => exact sameConf_vacate s p c
  | enter p c r l hp hroom hc hr hen hl => exact sameConf_enter s p c r

theorem Quiet.sameConf (h : Quiet env s s') : SameConf s s' := by
  induction h with
  | refl => exact .of_rooms rfl
  | tail _ hstep ih => exact ih.trans hstep.sameConf

theorem RivalEffect.sameConf {node : Option Addr} (h : RivalEffect env node s t) :
    SameConf s t := by
  rcases h with ⟨-, rfl⟩ | ⟨q, d, -, -, ⟨-, rfl⟩ | ⟨-, l, -, rfl⟩⟩
  · exact .of_rooms rfl
  · exact .of_rooms rfl
  · exact sameConf_vacate s q d

theorem AuthEffect.sameConf (hs : Sound s) (hp : s.heap p = some c)
    (h : AuthEffect lookup env fd e p c s s') : SameConf s s' := by
  cases h with
  | already hc h =>
    rw [h]
    exact .of_rooms rfl
  | refused d why hc hd h =>
    rw [h]
    exact .of_rooms rfl
  | passed c' d name node t hc hpass hd hname hnode hrival hjoin =>
    obtain ⟨hst, hpt⟩ := hrival.waiting hs hp hc (passed_sameSession hpass hd)
    obtain ⟨-, hquiet⟩ := hjoin.afterLogin hst hpt
    have hlogin : SameConf (s.setClient p d) s' := hrival.sameConf.trans hquiet.sameConf
    exact hlogin

theorem RemoveEffect.sameConf (h : RemoveEffect env p c s s') : SameConf s s' := by
  obtain ⟨l, key, chain, -, -, -, rfl⟩ := h
  exact sameConf_vacate s p c

theorem ActEffect.sameConf (hs : Sound s) (h : ActEffect lookup env s a s') : SameConf s s' := by
  cases h with
  | quiet h => exact h.sameConf
  | accept fd node hfd hnode h =>
    rw [h]
    exact .of_rooms rfl
  | remove t q d ht hq h hwhy => exact ht.sameConf.trans h.sameConf
  | auth fd recvBits data p c e ha hfd hp hdecode ht h =>
    have htick : SameConf s (s.tick env.now) := .of_rooms rfl
    exact htick.trans (h.sameConf (hs.tick env.now) hp)

/-- The states of the runs after start-up with the given rooms. -/
def ReachableFrom (rooms : Nat → RoomConf) : State → Prop :=
  Relation.ReflTransGen (Step (byTable fun _ _ _ => True)) (State.start rooms)

theorem ReachableFrom.reachable (h : ReachableFrom rooms s) : Reachable s := ⟨rooms, h⟩

/-- In every run the rooms are what start-up has made them. -/
theorem ReachableFrom.conf (hlobby : rooms 0 = lobbyConf) (h : ReachableFrom rooms s) (r : Nat) :
    (s.rooms r).conf = rooms r := by
  induction h with
  | refl =>
    by_cases hr : r = 0
    · subst hr
      exact hlobby.symm
    · have hroom : (State.start rooms).rooms r = (rooms r).toRoom :=
        congrArg RoomConf.toRoom (if_neg hr)
      rw [hroom]
      rfl
  | @tail t u ht hstep ih =>
    obtain ⟨lookup, env, a, ⟨rfl, -⟩, hact⟩ := hstep
    have hsound : Sound t := (ReachableFrom.reachable ht).toAnyLookup.sound
    have heffect := act_effect hsound (getFdnodeByname_registered env) hact
    exact (heffect.sameConf hsound r).trans ih

/-! ## What the list tells -/

def RoomConf.isListed (conf : RoomConf) : Bool := conf.enable = 1 ∧ conf.visable = 1

/-- The entries for the rooms that start-up has made open and visible. -/
def announcements (rooms : Nat → RoomConf) (s : State) : List Notice :=
  ((List.range maxRooms).filter fun r => (rooms r).isListed).map fun r : Nat =>
    .roomAdd r (rooms r).name (s.rooms r).num

/-- No entry of the script is listed behind one that is not and has no name. -/
def NoGap (confs : List RoomConf) : Prop :=
  confs.Pairwise fun before after =>
    before.isListed = false → before.name = none → after.isListed = false

theorem ReachableFrom.announcements_eq (hlobby : rooms 0 = lobbyConf) (h : ReachableFrom rooms s) :
    roomEntries s (List.range maxRooms) = announcements rooms s := by
  have hlisted : ∀ r, (s.rooms r).isListed = (rooms r).isListed := by
    intro r
    rw [← h.conf hlobby r]
    rfl
  have hname : ∀ r, (s.rooms r).name = (rooms r).name := by
    intro r
    rw [← h.conf hlobby r]
    rfl
  simp only [roomEntries, announcements, hlisted, hname]

theorem filled_succ (rooms : Nat → RoomConf) (confs : List RoomConf) (k : Nat) :
    filled rooms 0 confs (k + 1) = confs[k]?.getD (rooms (k + 1)) := if_pos (Nat.succ_pos k)

/-- A gap in the room table is one in the script. -/
theorem ReachableFrom.namedBefore_iff {confs : List RoomConf} (hfit : confs.length < maxRooms)
    (h : ReachableFrom (filled clearedRooms 0 confs) s) : NamedBefore s ↔ NoGap confs := by
  have hconf := fun r => h.conf rfl r
  have hlisted : ∀ r, (s.rooms r).isListed = (filled clearedRooms 0 confs r).isListed := by
    intro r
    rw [← hconf r]
    rfl
  have hname : ∀ r, (s.rooms r).name = (filled clearedRooms 0 confs r).name := by
    intro r
    rw [← hconf r]
    rfl
  have hentry : ∀ (k : Nat) (hk : k < confs.length),
      filled clearedRooms 0 confs (k + 1) = confs[k] := by
    intro k hk
    rw [filled_succ, List.getElem?_eq_getElem hk, Option.getD_some]
  unfold NamedBefore NoGap
  simp only [hlisted, hname]
  rw [List.pairwise_iff_getElem]
  constructor
  · intro hnamed i k hi hk hik hunlisted hnameless
    rw [← hentry i hi] at hunlisted hnameless
    rw [← hentry k hk]
    exact hnamed (i + 1) (k + 1) (by omega) (by omega) hunlisted hnameless
  · intro hgap i k hik hk hunlisted hnameless
    cases i with
    | zero => cases hnameless
    | succ i =>
      obtain ⟨k, rfl⟩ : ∃ m, k = m + 1 := ⟨k - 1, by omega⟩
      by_cases hlast : k < confs.length
      · have hi : i < confs.length := by omega
        rw [hentry i hi] at hunlisted hnameless
        rw [hentry k hlast]
        exact hgap i k hi hlast (by omega) hunlisted hnameless
      · rw [filled_succ, List.getElem?_eq_none (by omega), Option.getD_none]
        rfl

theorem confsOf_tables (env : Env) (globals : Bytes → LuaValue)
    (entries : List (List (Bytes × LuaValue))) :
    confsOf env (some ⟨globals, some (entries.map .table)⟩) = entries.map (tableConf env) := by
  have htable : roomConf env globals ∘ LuaValue.table = some ∘ tableConf env := rfl
  rw [confsOf, RoomScript.confs, Option.getD_some, List.filterMap_map, htable,
    List.filterMap_eq_map]

/-- What start-up makes of a list of tables. -/
def loadedRooms (env : Env) (entries : List (List (Bytes × LuaValue))) : Nat → RoomConf :=
  filled clearedRooms 0 (entries.map (tableConf env))

theorem luaLoadRoom_tables (env : Env) (globals : Bytes → LuaValue)
    (entries : List (List (Bytes × LuaValue))) (h : entries.length < maxRooms) :
    luaLoadRoom env (some ⟨globals, some (entries.map .table)⟩) clearedRooms =
      some (loadedRooms env entries) := by
  have hlength : (confsOf env (some ⟨globals, some (entries.map .table)⟩)).length < maxRooms := by
    rw [confsOf_tables, List.length_map]
    exact h
  rw [luaLoadRoom_of_lt _ hlength, confsOf_tables, loadedRooms]

/-- **Rooms.** The rooms of a list of tables are loaded one for one, and the room list tells of
exactly those that are open and visible, each once, if and only if their entries fit the buffers and
the script puts none of them behind an entry that is not listed and has no name. -/
theorem rooms_advertised_iff (env : Env) (globals : Bytes → LuaValue)
    (entries : List (List (Bytes × LuaValue))) (h : entries.length ≤ maxRooms - 1) :
    ∃ rooms, luaLoadRoom env (some ⟨globals, some (entries.map .table)⟩) clearedRooms =
        some rooms ∧ rooms 0 = lobbyConf ∧
      (∀ (k : Nat) (hk : k < entries.length), rooms (k + 1) = tableConf env entries[k]) ∧
      ∀ s, ReachableFrom rooms s → ∀ (env' : Env) (p : Addr) (node : Client),
        s.heap p = some node →
        ((∃ texts, sendRoomlistTexts env' p s = some texts ∧
            Complete texts (announcements rooms s)) ↔
          EntriesFit (announcements rooms s) ∧ NoGap (entries.map (tableConf env))) := by
  have hsize : 0 < maxRooms := by decide
  have hlt : entries.length < maxRooms := by omega
  refine ⟨_, luaLoadRoom_tables env globals entries hlt, rfl, ?_, ?_⟩
  · intro k hk
    have hmap : k < (entries.map (tableConf env)).length := by rwa [List.length_map]
    rw [loadedRooms, filled_succ, List.getElem?_eq_getElem hmap, Option.getD_some,
      List.getElem_map]
  · intro s hs env' p node hp
    have hfit : (entries.map (tableConf env)).length < maxRooms := by rwa [List.length_map]
    rw [← hs.announcements_eq rfl, ← ReachableFrom.namedBefore_iff hfit hs]
    exact sendRoomlist_complete_iff hp

/-! ## A room behind a gap -/

/-- After start-up a client connects. -/
def connected (rooms : Nat → RoomConf) : State :=
  { State.start rooms with
    fdClients := Function.update (State.start rooms).fdClients 5 (some 100)
    heap := Function.update (State.start rooms).heap 100 (some (newClient 5 0)) }

theorem connected_reachable (rooms : Nat → RoomConf) : ReachableFrom rooms (connected rooms) := by
  have hfree : 5 < maxFds ∧ (State.start rooms).fdClients 5 = none ∧
      (State.start rooms).heap 100 = none := ⟨by decide, rfl, rfl⟩
  refine .single ⟨_, .delivering 0 quitPacket, .accept 5 100, ⟨rfl, trivial⟩, ?_⟩
  rw [act, acceptClient, if_pos hfree]
  rfl

theorem connected_heap (rooms : Nat → RoomConf) :
    (connected rooms).heap 100 = some (newClient 5 0) := by
  simp [connected]

/-- An open and visible room. -/
def openEntry : List (Bytes × LuaValue) :=
  [(ofString "name", .string (ofString "a")), (ofString "enable", .number 1 (ofString "1")),
    (ofString "visable", .number 1 (ofString "1"))]

/-- One open room is loaded and listed with the lobby. -/
theorem rooms_advertised_iff_open : ∃ (rooms : Nat → RoomConf) (texts : List Bytes),
    luaLoadRoom (.delivering 0 quitPacket) (some ⟨fun _ => .nil, some ([openEntry].map .table)⟩)
      clearedRooms = some rooms ∧
    rooms 1 = tableConf (.delivering 0 quitPacket) openEntry ∧
    sendRoomlistTexts (.delivering 0 quitPacket) 100 (connected rooms) = some texts ∧
    Complete texts (announcements rooms (connected rooms)) ∧
    (announcements rooms (connected rooms)).length = 2 := by
  obtain ⟨rooms, hload, -, hrooms, hlist⟩ :=
    rooms_advertised_iff (.delivering 0 quitPacket) (fun _ => .nil) [openEntry] (by decide)
  have hloaded := luaLoadRoom_tables (.delivering 0 quitPacket) (fun _ => .nil) [openEntry]
    (by decide)
  obtain rfl := Option.some.inj (hload.symm.trans hloaded)
  let rooms := loadedRooms (.delivering 0 quitPacket) [openEntry]
  have hfit : (∀ entry ∈ announcements rooms (connected rooms),
      entry.text.length < maxBufferLength) ∧
      NoneOutgrows 0 0 ((announcements rooms (connected rooms)).map fun entry =>
        entry.text.length) := by
    decide +kernel
  have htwo : (announcements rooms (connected rooms)).length = 2 := by decide +kernel
  obtain ⟨texts, htexts, hcomplete⟩ := (hlist _ (connected_reachable _) (.delivering 0 quitPacket)
    100 _ (connected_heap _)).mpr ⟨hfit, List.pairwise_singleton ..⟩
  exact ⟨rooms, texts, hload, hrooms 0 (by decide), htexts, hcomplete, htwo⟩

/-- An open room behind an entry without a name is not listed. -/
theorem rooms_not_advertised : ¬ ∀ (env : Env) (globals : Bytes → LuaValue)
    (entries : List (List (Bytes × LuaValue))), entries.length ≤ maxRooms - 1 →
    ∃ rooms, luaLoadRoom env (some ⟨globals, some (entries.map .table)⟩) clearedRooms =
        some rooms ∧
      (∀ (k : Nat) (hk : k < entries.length), rooms (k + 1) = tableConf env entries[k]) ∧
      ∀ s, ReachableFrom rooms s → ∀ (env' : Env) (p : Addr) (node : Client),
        s.heap p = some node → ∃ texts, sendRoomlistTexts env' p s = some texts ∧
          Complete texts (announcements rooms s) := by
  intro hall
  let env : Env := .delivering 0 quitPacket
  obtain ⟨rooms, hload, -, hlist⟩ := hall env (fun _ => .nil) [[], openEntry] (by decide)
  have hloaded := luaLoadRoom_tables env (fun _ => .nil) [[], openEntry] (by decide)
  obtain rfl := Option.some.inj (hload.symm.trans hloaded)
  have hreach := connected_reachable (loadedRooms env [[], openEntry])
  have hheap := connected_heap (loadedRooms env [[], openEntry])
  have hcomplete := hlist _ hreach env 100 _ hheap
  rw [← hreach.announcements_eq rfl, sendRoomlist_complete_iff hheap,
    ReachableFrom.namedBefore_iff (by decide) hreach] at hcomplete
  have hgap := (List.pairwise_cons.mp hcomplete.2).1 (tableConf env openEntry) List.mem_cons_self
  have hunlisted := hgap (by decide +kernel) (by decide +kernel)
  have hlisted : (tableConf env openEntry).isListed = true := by decide +kernel
  rw [hlisted] at hunlisted
  cases hunlisted

end ArpgServer
