import ArpgServer.Effects.Steps

/-!
# Who is in a room

The room invariant, said of the tables alone: the member lists, the counts and the field
`roomid` of the clients agree in every state the server reaches, whatever client the name
lookup returns.
-/

namespace ArpgServer

variable {s : State}

/-- What the rooms and the registered clients say about each other. -/
structure RoomMembership (s : State) : Prop where
  counted : ∀ r, r < maxRooms → (s.rooms r).num = (s.rooms r).rClient.length
  once : ∀ r, r < maxRooms → ∀ fd p c, s.fdClients fd = some p → s.heap p = some c →
    (s.rooms r).rClient.count p = if c.roomid = r then 1 else 0
  member : ∀ r, r < maxRooms → ∀ p, p ∈ (s.rooms r).rClient →
    (s.rooms r).enable ≠ 0 ∧ ∃ fd c, s.fdClients fd = some p ∧ s.heap p = some c ∧
      c.state = .success
  waiting : ∀ fd p c, s.fdClients fd = some p → s.heap p = some c → c.state ≠ .success →
    c.roomid = -1
  range : ∀ fd p c, s.fdClients fd = some p → s.heap p = some c →
    -1 ≤ c.roomid ∧ c.roomid < maxRooms

theorem Sound.count_member (hs : Sound s) {p : Addr} {c : Client} (hp : s.heap p = some c)
    (r : Nat) : (s.rooms r).rClient.count p = if c.roomid = r then 1 else 0 := by
  split
  · rename_i hr
    exact List.count_eq_one_of_mem (hs.nodup r) ((hs.member r p).mpr ⟨c, hp, hr⟩)
  · rename_i hr
    refine List.count_eq_zero_of_not_mem ?_
    rw [hs.member r p]
    rintro ⟨d, hd, hdr⟩
    rw [hp] at hd
    cases hd
    exact hr hdr

theorem Sound.roomMembership (hs : Sound s) : RoomMembership s where
  counted := fun r _ => hs.counted r
  once := fun r _ fd p c _ hp => hs.count_member hp r
  member := by
    intro r _ p hmem
    obtain ⟨c, hp, hroom, hc⟩ := hs.member_success hmem
    exact ⟨hs.enabled p c r hp hroom, c.fd, c, hs.current p c hp, hp, hc⟩
  waiting := fun _ p c _ hp hc => hs.waiting p c hp hc
  range := fun _ p c _ hp => hs.range p c hp

/-- **Room membership.** -/
theorem roomMembership_of_runs (h : Runs anyLookup s) : RoomMembership s :=
  h.sound.roomMembership

/-- A guest in the lobby. -/
theorem roomMembership_of_runs_guest :
    ∃ s, actAll (State.start fun _ => lobbyConf) [connect 5 100, deliver 0 5 guestLogin] = some s ∧
      (s.rooms 0).rClient = [100] ∧ RoomMembership s := by
  have hcheck : (actAll (State.start fun _ => lobbyConf) [connect 5 100,
      deliver 0 5 guestLogin]).any (fun s => (s.rooms 0).rClient = [100]) := by
    decide +kernel
  obtain ⟨s, hrun, hlist⟩ := (Option.any_eq_true _ _).mp hcheck
  exact ⟨s, hrun, of_decide_eq_true hlist,
    roomMembership_of_runs (reachable_of_actAll hrun).toAnyLookup⟩

end ArpgServer
