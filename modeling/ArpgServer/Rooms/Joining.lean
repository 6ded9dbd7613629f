import ArpgServer.Effects.Steps
import ArpgServer.Effects.Total

/-!
# All or nothing

`join_room` tests the number of the room before it leaves the old room, and again under the
lock of the new one. The first test lets `MAX_ROOMS` itself through, which is not a room. For
all other numbers the client either stays where it is or is moved as a whole.
-/

namespace ArpgServer

variable {env : Env} {s s' : State} {p : Addr} {c : Client} {roomid : Int}

/-- The client is the last member of room `r` and a member of no other one. All other records
and members are as before. -/
structure Moved (s s' : State) (p : Addr) (c : Client) (r : Nat) : Prop where
  record : s'.heap = Function.update s.heap p (some { c with roomid := r })
  joined : s'.rooms r = (s.rooms r).append p
  left : ∀ k, k ≠ r → s'.rooms k = if c.roomid = k then (s.rooms k).without p else s.rooms k
  only : ∀ k, p ∈ (s'.rooms k).rClient ↔ k = r

/-- A call of `join_room` uses no room and no lock outside the tables, so that it faults on
texts only, and it changes nothing or moves the client. -/
structure AllOrNothing (s : State) (p : Option Addr) (roomid : Int) : Prop where
  inside : ∀ env, env.Legible → (joinRoom env p roomid).Ends s
  returns : ∀ env x s', (joinRoom env p roomid).run s = some (x, s') →
    x = returnFailure ∨ x = returnSuccess
  failure : ∀ env s', (joinRoom env p roomid).run s = some (returnFailure, s') →
    s'.heap = s.heap ∧ s'.rooms = s.rooms
  success : ∀ env s', (joinRoom env p roomid).run s = some (returnSuccess, s') →
    ∃ (q : Addr) (c : Client) (r : Nat), p = some q ∧ s.heap q = some c ∧ roomid = r ∧
      Moved s s' q c r

/-! ## A client in any state -/

theorem sendUserlist_post (h : sendUserlist env p s = some s') : ∃ l, s' = s.post l := by
  obtain ⟨node, -, h⟩ := Option.bind_eq_some_iff.mp h
  obtain ⟨room, -, h⟩ := Option.bind_eq_some_iff.mp h
  split at h
  · obtain ⟨msgs, -, rfl⟩ := Option.map_eq_some_iff.mp h
    exact ⟨_, rfl⟩
  · cases h
    exact ⟨[], by rw [State.post_nil]⟩

/-- Whatever is sent, the tables are those of the entry. -/
theorem joinSection_places (hp : s.heap p = some c) {r : Nat} (hr : r < maxRooms)
    (hen : (s.rooms r).enable ≠ 0) (h : joinSection env p r s = some s') :
    ∃ l, s' = (s.enter p c r).post l := by
  simp only [joinSection, State.room?_natCast hr, Option.bind_some, if_pos hen, hp,
    Int.toNat_natCast] at h
  obtain ⟨profile, -, h⟩ := Option.bind_eq_some_iff.mp h
  obtain ⟨t, hall, h⟩ := Option.bind_eq_some_iff.mp h
  obtain ⟨l, rfl, -⟩ := sendMessageAll_post hall
  obtain ⟨l', rfl⟩ := sendUserlist_post h
  refine ⟨[⟨c.fd, [.changeRoom r (s.rooms r).name]⟩] ++ l ++ l', ?_⟩
  rw [State.sendMessage, State.post_post, State.post_post]
  rfl

theorem joinRoom_places (hs : Sound s) (hp : s.heap p = some c) {x : Int}
    (h : (joinRoom env (some p) roomid).run s = some (x, s')) :
    (x = returnFailure ∧ ∃ l, s' = s.post l) ∨
      x = returnSuccess ∧ ∃ (r : Nat) (l : List Send), roomid = r ∧ c.roomid ≠ r ∧
        s' = ((s.vacate p c).enter p { c with roomid := -1 } r).post l := by
  obtain ⟨start, t, hcheck, h⟩ := Proc.run_bind_eq_some.mp h
  rcases joinCheck_cases hs hp (Proc.run_step_eq_some.mp hcheck) with
    ⟨rfl, l, -, rfl⟩ | ⟨r, rfl, hr, hen, hne, rfl, hstart⟩
  · cases h
    exact Or.inl ⟨rfl, l, rfl⟩
  suffices hjoin : ∃ l, x = returnSuccess ∧
      joinSection env p r ((t.vacate p c).post l) = some s' by
    obtain ⟨l, rfl, hjoin⟩ := hjoin
    have hvacen : (((t.vacate p c).post l).rooms r).enable ≠ 0 := by
      rw [State.post_rooms, State.vacate_rooms, if_neg hne]
      exact hen
    have hvacp : ((t.vacate p c).post l).heap p = some { c with roomid := -1 } :=
      hs.vacate_heap_self hp
    obtain ⟨l', rfl⟩ := joinSection_places hvacp hr hvacen hjoin
    refine Or.inr ⟨rfl, r, l ++ l', rfl, hne, ?_⟩
    rw [← State.post_post]
    rfl
  rcases hstart with rfl | ⟨rfl, hout⟩
  · obtain ⟨y, u, hleave, h⟩ := Proc.run_bind_eq_some.mp h
    obtain ⟨_, v, hjoin, h⟩ := Proc.run_bind_eq_some.mp h
    cases h
    obtain ⟨l, -, rfl⟩ := leaveRoom_effect hs hp hleave
    exact ⟨l, rfl, Proc.run_modify_eq_some.mp hjoin⟩
  · obtain ⟨_, v, hjoin, h⟩ := Proc.run_bind_eq_some.mp h
    cases h
    refine ⟨[], rfl, ?_⟩
    rw [State.vacate_eq_self t p c hout, State.post_nil]
    exact Proc.run_modify_eq_some.mp hjoin

theorem moved_enter (hs : Sound s) (hp : s.heap p = some c) {r : Nat} (hne : c.roomid ≠ r)
    (l : List Send) :
    Moved s (((s.vacate p c).enter p { c with roomid := -1 } r).post l) p c r := by
  have hrooms : ∀ k, ((s.vacate p c).enter p { c with roomid := -1 } r).rooms k =
      if k = r then (s.rooms r).append p
      else if c.roomid = k then (s.rooms k).without p else s.rooms k := by
    intro k
    rw [State.enter_rooms, State.vacate_rooms, if_neg hne, State.vacate_rooms]
  constructor
  · rw [State.post_heap, State.enter_heap, hs.vacate_heap hp, Function.update_idem]
  · rw [State.post_rooms, hrooms, if_pos rfl]
  · intro k hk
    rw [State.post_rooms, hrooms, if_neg hk]
  · intro k
    rw [State.post_rooms, hrooms]
    by_cases hk : k = r
    · rw [if_pos hk]
      exact iff_of_true (List.mem_append_right _ (List.mem_singleton_self p)) hk
    rw [if_neg hk]
    apply iff_of_false _ hk
    split
    · exact (hs.nodup k).not_mem_erase
    · rename_i hother
      intro hmem
      obtain ⟨d, hd, hdk⟩ := (hs.member k p).mp hmem
      obtain rfl : c = d := Option.some.inj (hp.symm.trans hd)
      exact hother hdk

/-! ## The number that is no room -/

theorem joinRoom_fault (env : Env) (s : State) (p : Addr) :
    ¬ (joinRoom env (some p) maxRooms).Ends s := by
  intro ⟨r, hrun⟩
  obtain ⟨start, t, hcheck, -⟩ := Proc.run_bind_eq_some.mp hrun
  have hcheck := Proc.run_step_eq_some.mp hcheck
  have hfirst : ¬ ((maxRooms : Int) < maxRooms ∨ (maxRooms : Int) < 0) := by decide
  have hroom : s.room? maxRooms = none := if_neg (by decide)
  rw [joinCheck, if_neg hfirst, hroom] at hcheck
  cases hcheck

theorem allOrNothing_null (s : State) (roomid : Int) : AllOrNothing s none roomid := by
  constructor
  · exact fun env _ => .ret returnFailure s
  · intro env x s' h
    cases h
    exact Or.inl rfl
  · intro env s' h
    cases h
    exact ⟨rfl, rfl⟩
  · intro env s' h
    cases h

theorem allOrNothing_of_ne (hs : Sound s) (hp : s.heap p = some c) (hroom : roomid ≠ maxRooms) :
    AllOrNothing s (some p) roomid := by
  have hdiffer : returnFailure ≠ returnSuccess := by decide
  constructor
  · exact fun env henv => joinRoom_ends hs henv hp hroom
  · intro env x s' h
    exact (joinRoom_places hs hp h).imp And.left And.left
  · intro env s' h
    rcases joinRoom_places hs hp h with ⟨-, l, rfl⟩ | ⟨hx, -⟩
    · exact ⟨rfl, rfl⟩
    · exact absurd hx hdiffer
  · intro env s' h
    rcases joinRoom_places hs hp h with ⟨hx, -⟩ | ⟨-, r, l, hr, hne, rfl⟩
    · exact absurd hx.symm hdiffer
    · exact ⟨p, c, r, rfl, hp, hr, moved_enter hs hp hne l⟩

/-- **Joining.** A call of `join_room` is all or nothing exactly when there is no client or the
number is not the one behind the last room. -/
theorem allOrNothing_iff (hs : Sound s) {p : Option Addr}
    (hp : ∀ q, p = some q → ∃ c, s.heap q = some c) (roomid : Int) :
    AllOrNothing s p roomid ↔ p = none ∨ roomid ≠ maxRooms := by
  cases p with
  | none => exact iff_of_true (allOrNothing_null s roomid) (Or.inl rfl)
  | some q =>
    obtain ⟨c, hc⟩ := hp q rfl
    constructor
    · intro h
      apply Or.inr
      rintro rfl
      exact joinRoom_fault _ s q (h.inside _ (Env.delivering 0 guestLogin).cleared_legible)
    · intro h
      exact allOrNothing_of_ne hs hc (h.resolve_left (Option.some_ne_none q))

/-- A guest is moved to the last room as a whole. -/
theorem allOrNothing_iff_guest : ∃ (s : State) (c : Client), Reachable s ∧
    s.heap 100 = some c ∧ AllOrNothing s (some 100) 49 := by
  obtain ⟨s, c, hs, -, hc, -⟩ := exists_guest
  refine ⟨s, c, hs, hc, (allOrNothing_iff hs.toAnyLookup.sound ?_ 49).mpr (Or.inr (by decide))⟩
  intro q hq
  cases hq
  exact ⟨c, hc⟩

/-- A guest asks for the room behind the last one. -/
theorem join_not_allOrNothing : ¬ ∀ (s : State) (p : Option Addr) (roomid : Int), Reachable s →
    (∀ q, p = some q → ∃ c, s.heap q = some c) → AllOrNothing s p roomid := by
  intro hall
  obtain ⟨s, c, hs, -, hc, -⟩ := exists_guest
  have hjoin := hall s (some 100) maxRooms hs fun q hq => by
    cases hq
    exact ⟨c, hc⟩
  exact joinRoom_fault _ s 100 (hjoin.inside _ (Env.delivering 0 guestLogin).cleared_legible)

end ArpgServer
