import Mathlib.Data.List.Nodup
import ArpgServer.Model.Server

/-!
# The room invariant

`Sound` ties the four places that say where a client is: the descriptor table, the client
records, the member lists and the member counts. It is kept by the four changes the server
makes to them: a record changes in other fields, a client leaves its room (`State.vacate`),
enters a room (`State.enter`), and a record is removed (`State.freed`).
-/

namespace ArpgServer

structure Sound (s : State) : Prop where
  registered : ∀ fd p, s.fdClients fd = some p → ∃ c, s.heap p = some c ∧ c.fd = fd
  current : ∀ p c, s.heap p = some c → s.fdClients c.fd = some p
  counted : ∀ r, (s.rooms r).num = (s.rooms r).rClient.length
  nodup : ∀ r, (s.rooms r).rClient.Nodup
  member : ∀ (r : Nat) p, p ∈ (s.rooms r).rClient ↔ ∃ c, s.heap p = some c ∧ c.roomid = r
  enabled : ∀ p c (r : Nat), s.heap p = some c → c.roomid = r → (s.rooms r).enable ≠ 0
  waiting : ∀ p c, s.heap p = some c → c.state ≠ .success → c.roomid = -1
  range : ∀ p c, s.heap p = some c → -1 ≤ c.roomid ∧ c.roomid < maxRooms

/-! ## The changes -/

/-- A record in an updated table of records is the new one or an old one. -/
theorem update_eq_some {h : Addr → Option Client} {p q : Addr} {d e : Client}
    (he : Function.update h p (some d) q = some e) : (q = p ∧ e = d) ∨ (q ≠ p ∧ h q = some e) := by
  by_cases hqp : q = p
  · subst hqp
    rw [Function.update_self] at he
    exact Or.inl ⟨rfl, (Option.some.inj he).symm⟩
  · rw [Function.update_of_ne hqp] at he
    exact Or.inr ⟨hqp, he⟩

def Room.without (room : Room) (p : Addr) : Room :=
  { room with num := room.num - 1, rClient := room.rClient.erase p }

def Room.append (room : Room) (p : Addr) : Room :=
  { room with num := room.num + 1, rClient := room.rClient ++ [p] }

/-- The client is out of its room. -/
def State.vacate (s : State) (p : Addr) (c : Client) : State :=
  if 0 ≤ c.roomid then
    (s.setRoom c.roomid.toNat ((s.rooms c.roomid.toNat).without p)).setClient p
      { c with roomid := -1 }
  else s

/-- The client is the last member of room `r`. -/
def State.enter (s : State) (p : Addr) (c : Client) (r : Nat) : State :=
  (s.setClient p { c with roomid := r }).setRoom r ((s.rooms r).append p)

/-- The record is gone and its descriptor closed. -/
def State.freed (s : State) (p : Addr) (c : Client) : State :=
  { s with
    fdClients := Function.update s.fdClients c.fd none
    heap := Function.update s.heap p none }

section
variable (s : State) (p : Addr) (c : Client)

@[simp] theorem State.vacate_fdClients : (s.vacate p c).fdClients = s.fdClients := by
  unfold State.vacate
  split <;> rfl

@[simp] theorem State.vacate_hashTable : (s.vacate p c).hashTable = s.hashTable := by
  unfold State.vacate
  split <;> rfl

@[simp] theorem State.vacate_hashSize : (s.vacate p c).hashSize = s.hashSize := by
  unfold State.vacate
  split <;> rfl

@[simp] theorem State.vacate_sent : (s.vacate p c).sent = s.sent := by
  unfold State.vacate
  split <;> rfl

@[simp] theorem State.vacate_mytimestamp : (s.vacate p c).mytimestamp = s.mytimestamp := by
  unfold State.vacate
  split <;> rfl

theorem State.vacate_rooms (r : Nat) :
    (s.vacate p c).rooms r = if c.roomid = r then (s.rooms r).without p else s.rooms r := by
  unfold State.vacate
  by_cases h : 0 ≤ c.roomid
  · by_cases hr : c.roomid = r
    · have : c.roomid.toNat = r := by omega
      simp [hr]
    · have : r ≠ c.roomid.toNat := by omega
      simp [h, hr, this]
  · have : c.roomid ≠ r := by omega
    simp [h, this]

/-- Nobody leaves a room that is in none. -/
theorem State.vacate_eq_self (h : c.roomid = -1) : s.vacate p c = s := by
  unfold State.vacate
  rw [if_neg (by omega)]

theorem State.enter_rooms (r k : Nat) :
    (s.enter p c r).rooms k = if k = r then (s.rooms r).append p else s.rooms k := by
  simp [State.enter, Function.update_apply]

@[simp] theorem State.enter_heap (r : Nat) :
    (s.enter p c r).heap = Function.update s.heap p (some { c with roomid := r }) := rfl

@[simp] theorem State.enter_fdClients (r : Nat) : (s.enter p c r).fdClients = s.fdClients := rfl

end

namespace Sound

variable {s : State} {p q : Addr} {c d : Client}

theorem eq_of_fd (hs : Sound s) (hp : s.heap p = some c) (hq : s.heap q = some d)
    (h : c.fd = d.fd) : p = q := by
  have h1 := hs.current p c hp
  have h2 := hs.current q d hq
  rw [h] at h1
  exact Option.some.inj (h1.symm.trans h2)

/-- A member of a room is in `FD_STATE_SUCCESS`. -/
theorem member_success (hs : Sound s) {r : Nat} (h : p ∈ (s.rooms r).rClient) :
    ∃ c, s.heap p = some c ∧ c.roomid = r ∧ c.state = .success := by
  obtain ⟨c, hc, hr⟩ := (hs.member r p).mp h
  refine ⟨c, hc, hr, ?_⟩
  by_contra hne
  have := hs.waiting p c hc hne
  omega

/-- A client outside the rooms is in no member list. -/
theorem not_member (hs : Sound s) (hp : s.heap p = some c) (hroom : c.roomid = -1) (r : Nat) :
    p ∉ (s.rooms r).rClient := by
  rw [hs.member r p]
  rintro ⟨e, he, her⟩
  rw [hp] at he
  cases he
  omega

theorem start (conf : Nat → RoomConf) : Sound (State.start conf) where
  registered := by
    intro fd p h
    cases h
  current := by
    intro p c h
    cases h
  counted := by
    intro r
    rfl
  nodup := by
    intro r
    exact List.nodup_nil
  member := by
    intro r p
    constructor
    · intro h
      cases h
    · rintro ⟨c, h, -⟩
      cases h
  enabled := by
    intro p c r h
    cases h
  waiting := by
    intro p c h
    cases h
  range := by
    intro p c h
    cases h

/-- Messages, the clock and the name table do not matter. -/
theorem congr {t : State} (hs : Sound s) (hfd : t.fdClients = s.fdClients) (hh : t.heap = s.heap)
    (hr : t.rooms = s.rooms) : Sound t where
  registered := by rw [hfd, hh]; exact hs.registered
  current := by rw [hfd, hh]; exact hs.current
  counted := by rw [hr]; exact hs.counted
  nodup := by rw [hr]; exact hs.nodup
  member := by rw [hr, hh]; exact hs.member
  enabled := by rw [hr, hh]; exact hs.enabled
  waiting := by rw [hh]; exact hs.waiting
  range := by rw [hh]; exact hs.range

theorem post (hs : Sound s) (l : List Send) : Sound (s.post l) := hs.congr rfl rfl rfl

theorem tick (hs : Sound s) (now : Int) : Sound (s.tick now) := hs.congr rfl rfl rfl

theorem setBucket (hs : Sound s) (i : Nat) (l : List HashItem) : Sound (s.setBucket i l) :=
  hs.congr rfl rfl rfl

/-- A registered descriptor stays registered when a record keeps its descriptor. -/
theorem registered_update (hs : Sound s) (hp : s.heap p = some c) (d : Client)
    (hfd : d.fd = c.fd) {fd : Nat} (hq : s.fdClients fd = some q) :
    ∃ e, Function.update s.heap p (some d) q = some e ∧ e.fd = fd := by
  obtain ⟨e, he, hefd⟩ := hs.registered fd q hq
  by_cases hqp : q = p
  · subst hqp
    rw [hp] at he
    cases he
    exact ⟨d, Function.update_self .., hfd.trans hefd⟩
  · exact ⟨e, by rwa [Function.update_of_ne hqp], hefd⟩

theorem current_update (hs : Sound s) (hp : s.heap p = some c) (d : Client)
    (hfd : d.fd = c.fd) {e : Client}
    (he : Function.update s.heap p (some d) q = some e) : s.fdClients e.fd = some q := by
  rcases update_eq_some he with ⟨rfl, rfl⟩ | ⟨-, he⟩
  · rw [hfd]
    exact hs.current q c hp
  · exact hs.current q e he

/-- A record may change in every field but its descriptor and room, and may leave
`FD_STATE_SUCCESS` outside the rooms only. -/
theorem setClient (hs : Sound s) (hp : s.heap p = some c) (hfd : d.fd = c.fd)
    (hroom : d.roomid = c.roomid) (hstate : d.state ≠ .success → c.roomid = -1) :
    Sound (s.setClient p d) where
  registered := fun fd q hq => hs.registered_update hp d hfd hq
  current := fun q e he => hs.current_update hp d hfd he
  counted := hs.counted
  nodup := hs.nodup
  member := by
    intro r q
    rw [State.setClient_rooms, hs.member r q]
    by_cases hqp : q = p
    · subst hqp
      simp [hp, hroom]
    · simp [hqp]
  enabled := by
    intro q e r he her
    rcases update_eq_some he with ⟨rfl, rfl⟩ | ⟨-, he⟩
    · exact hs.enabled q c r hp (by omega)
    · exact hs.enabled q e r he her
  waiting := by
    intro q e he hne
    rcases update_eq_some he with ⟨rfl, rfl⟩ | ⟨-, he⟩
    · rw [hroom]
      exact hstate hne
    · exact hs.waiting q e he hne
  range := by
    intro q e he
    rcases update_eq_some he with ⟨rfl, rfl⟩ | ⟨-, he⟩
    · rw [hroom]
      exact hs.range q c hp
    · exact hs.range q e he

/-- The records after a client has left its room. -/
theorem vacate_heap (hs : Sound s) (hp : s.heap p = some c) :
    (s.vacate p c).heap = Function.update s.heap p (some { c with roomid := -1 }) := by
  unfold State.vacate
  split
  · rfl
  · rename_i h
    have hr : c.roomid = -1 := by
      have := hs.range p c hp
      omega
    have hc : ({ c with roomid := -1 } : Client) = c := by
      cases c
      simp_all
    rw [hc, ← hp, Function.update_eq_self]

theorem vacate_heap_self (hs : Sound s) (hp : s.heap p = some c) :
    (s.vacate p c).heap p = some { c with roomid := -1 } := by
  rw [hs.vacate_heap hp, Function.update_self]

theorem vacate (hs : Sound s) (hp : s.heap p = some c) : Sound (s.vacate p c) := by
  have hheap := hs.vacate_heap hp
  refine ⟨?_, ?_, ?_, ?_, ?_, ?_, ?_, ?_⟩
  · intro fd q hq
    rw [State.vacate_fdClients] at hq
    rw [hheap]
    exact hs.registered_update hp { c with roomid := -1 } rfl hq
  · intro q e he
    rw [hheap] at he
    rw [State.vacate_fdClients]
    exact hs.current_update hp { c with roomid := -1 } rfl he
  · intro r
    rw [State.vacate_rooms]
    split
    · rename_i hr
      have hmem : p ∈ (s.rooms r).rClient := (hs.member r p).mpr ⟨c, hp, hr⟩
      have hpos := List.length_pos_of_mem hmem
      have := hs.counted r
      simp only [Room.without, List.length_erase_of_mem hmem]
      omega
    · exact hs.counted r
  · intro r
    rw [State.vacate_rooms]
    split
    · exact (hs.nodup r).erase p
    · exact hs.nodup r
  · intro r q
    have hne : (-1 : Int) ≠ r := by omega
    rw [State.vacate_rooms, hheap]
    by_cases hqp : q = p
    · subst hqp
      split
      · simp [Room.without, (hs.nodup r).mem_erase_iff, hne]
      · rename_i hr
        simp [hs.member r q, hp, hr, hne]
    · split
      · simp [Room.without, (hs.nodup r).mem_erase_iff, hqp, hs.member r q]
      · simp [hqp, hs.member r q]
  · intro q e r he her
    have hen : (s.rooms r).enable ≠ 0 := by
      rw [hheap] at he
      rcases update_eq_some he with ⟨rfl, rfl⟩ | ⟨-, he⟩
      · simp only at her
        omega
      · exact hs.enabled q e r he her
    rw [State.vacate_rooms]
    split <;> exact hen
  · intro q e he hne
    rw [hheap] at he
    rcases update_eq_some he with ⟨rfl, rfl⟩ | ⟨-, he⟩
    · rfl
    · exact hs.waiting q e he hne
  · intro q e he
    rw [hheap] at he
    rcases update_eq_some he with ⟨rfl, rfl⟩ | ⟨-, he⟩
    · simp [maxRooms]
    · exact hs.range q e he

/-- A client in `FD_STATE_SUCCESS` that is in no room may enter an enabled one. -/
theorem enter (hs : Sound s) (hp : s.heap p = some c) (hroom : c.roomid = -1)
    (hstate : c.state = .success) {r : Nat} (hr : r < maxRooms) (hen : (s.rooms r).enable ≠ 0) :
    Sound (s.enter p c r) := by
  refine ⟨?_, ?_, ?_, ?_, ?_, ?_, ?_, ?_⟩
  · intro fd q hq
    exact hs.registered_update hp { c with roomid := (r : Int) } rfl hq
  · intro q e he
    exact hs.current_update hp { c with roomid := (r : Int) } rfl he
  · intro k
    rw [State.enter_rooms]
    split
    · have := hs.counted r
      simp only [Room.append, List.length_append, List.length_singleton]
      push_cast
      omega
    · exact hs.counted k
  · intro k
    rw [State.enter_rooms]
    split
    · exact (hs.nodup r).append (List.nodup_singleton p)
        (by simpa using hs.not_member hp hroom r)
    · exact hs.nodup k
  · intro k q
    rw [State.enter_rooms, State.enter_heap]
    by_cases hqp : q = p
    · subst hqp
      by_cases hkr : k = r
      · simp [hkr, Room.append]
      · have : ¬ ((r : Int) = k) := by omega
        simp [hkr, this, hs.not_member hp hroom k]
    · split
      · rename_i hkr
        subst hkr
        simp [Room.append, hqp, hs.member k q]
      · simp [hqp, hs.member k q]
  · intro q e k he hek
    have hk : (s.rooms k).enable ≠ 0 := by
      rcases update_eq_some he with ⟨rfl, rfl⟩ | ⟨-, he⟩
      · have : k = r := by
          simp only at hek
          omega
        subst this
        exact hen
      · exact hs.enabled q e k he hek
    rw [State.enter_rooms]
    split
    · exact hen
    · exact hk
  · intro q e he hne
    rcases update_eq_some he with ⟨rfl, rfl⟩ | ⟨-, he⟩
    · exact absurd hstate hne
    · exact hs.waiting q e he hne
  · intro q e he
    rcases update_eq_some he with ⟨rfl, rfl⟩ | ⟨-, he⟩
    · simp only
      omega
    · exact hs.range q e he

/-- A record outside the rooms may be removed. -/
theorem freed (hs : Sound s) (hp : s.heap p = some c) (hroom : c.roomid = -1) :
    Sound (s.freed p c) := by
  have hheap : ∀ q e, (s.freed p c).heap q = some e → q ≠ p ∧ s.heap q = some e := by
    intro q e he
    by_cases hqp : q = p
    · subst hqp
      simp [State.freed] at he
    · exact ⟨hqp, by simpa [State.freed, hqp] using he⟩
  refine ⟨?_, ?_, hs.counted, hs.nodup, ?_, ?_, ?_, ?_⟩
  · intro fd q hq
    by_cases hfd : fd = c.fd
    · subst hfd
      simp [State.freed] at hq
    · have hq' : s.fdClients fd = some q := by simpa [State.freed, hfd] using hq
      obtain ⟨e, he, hefd⟩ := hs.registered fd q hq'
      have hqp : q ≠ p := by
        rintro rfl
        rw [hp] at he
        cases he
        exact hfd hefd.symm
      exact ⟨e, by simpa [State.freed, hqp] using he, hefd⟩
  · intro q e he
    obtain ⟨hqp, he⟩ := hheap q e he
    have hne : e.fd ≠ c.fd := fun h => hqp (hs.eq_of_fd he hp h)
    simpa [State.freed, hne] using hs.current q e he
  · intro r q
    change q ∈ (s.rooms r).rClient ↔ _
    by_cases hqp : q = p
    · subst hqp
      simp [State.freed, hs.not_member hp hroom r]
    · simp [State.freed, hqp, hs.member r q]
  · intro q e r he her
    exact hs.enabled q e r (hheap q e he).2 her
  · intro q e he hne
    exact hs.waiting q e (hheap q e he).2 hne
  · intro q e he
    exact hs.range q e (hheap q e he).2

/-- A new record at a closed descriptor. -/
theorem accept (hs : Sound s) {fd : Nat} (hfd : s.fdClients fd = none) (hp : s.heap p = none)
    (t : Int) :
    Sound { s with
      fdClients := Function.update s.fdClients fd (some p)
      heap := Function.update s.heap p (some (newClient fd t)) } := by
  refine ⟨?_, ?_, hs.counted, hs.nodup, ?_, ?_, ?_, ?_⟩
  · intro fd' q hq
    by_cases hf : fd' = fd
    · subst hf
      have hqp : p = q := by simpa using hq
      subst hqp
      exact ⟨_, Function.update_self .., rfl⟩
    · have hq' : s.fdClients fd' = some q := by simpa [hf] using hq
      obtain ⟨e, he, hefd⟩ := hs.registered fd' q hq'
      have hqp : q ≠ p := by
        rintro rfl
        rw [hp] at he
        cases he
      exact ⟨e, by simpa [hqp] using he, hefd⟩
  · intro q e he
    rcases update_eq_some he with ⟨rfl, rfl⟩ | ⟨-, he⟩
    · exact Function.update_self ..
    · have hcur := hs.current q e he
      have hne : e.fd ≠ fd := by
        rintro rfl
        rw [hfd] at hcur
        cases hcur
      simpa [hne] using hcur
  · intro r q
    change q ∈ (s.rooms r).rClient ↔ _
    rw [hs.member r q]
    by_cases hqp : q = p
    · subst hqp
      have : ¬ ((-1 : Int) = r) := by omega
      simp [hp, newClient, this]
    · simp [hqp]
  · intro q e r he her
    rcases update_eq_some he with ⟨rfl, rfl⟩ | ⟨-, he⟩
    · simp only [newClient] at her
      omega
    · exact hs.enabled q e r he her
  · intro q e he hne
    rcases update_eq_some he with ⟨rfl, rfl⟩ | ⟨-, he⟩
    · rfl
    · exact hs.waiting q e he hne
  · intro q e he
    rcases update_eq_some he with ⟨rfl, rfl⟩ | ⟨-, he⟩
    · simp [newClient, maxRooms]
    · exact hs.range q e he

end Sound

end ArpgServer
