import ArpgServer.Effects.Rooms

/-!
# What never faults

Under the room invariant every pointer that a function follows leads to a record, and every
room number is in the table. So a function ends if the texts it reads end: those that run over
the end of their array, and those of freed records.
-/

namespace ArpgServer

variable {env : Env} {s s' : State} {p q : Addr} {c d : Client}

/-! ## Texts -/

/-- What lies behind an array and what was freed can be read. -/
structure Env.Readable (env : Env) : Prop where
  stale : ∀ p, (env.stale p).isSome
  overrun : ∀ p, (env.overrun p .username).isSome

theorem read_total {n : Nat} (a : CharArray n) {past : Option Bytes} (h : past.isSome) :
    ∃ text, a.read past = some text := by
  obtain ⟨rest, rfl⟩ := Option.isSome_iff_exists.mp h
  unfold CharArray.read
  split
  · exact ⟨_, rfl⟩
  · exact ⟨_, rfl⟩

theorem strcmp_total {n : Nat} (a : CharArray n) {past : Option Bytes} (h : past.isSome)
    (key : Bytes) : ∃ b, a.strcmp past key = some b := by
  obtain ⟨rest, rfl⟩ := Option.isSome_iff_exists.mp h
  unfold CharArray.strcmp
  split
  · exact ⟨_, rfl⟩
  split
  · exact ⟨_, rfl⟩
  · exact ⟨_, rfl⟩

theorem keyIs_total (henv : env.Readable) (s : State) (item : HashItem) (key : Bytes) :
    ∃ b, keyIs env s item key = some b := by
  unfold keyIs
  split
  · obtain ⟨text, htext⟩ := Option.isSome_iff_exists.mp (henv.stale item.key)
    exact ⟨_, by rw [htext]; rfl⟩
  · exact strcmp_total _ (henv.overrun item.key) key

theorem chainDel_total (henv : env.Readable) (s : State) (key : Bytes) (fd : Nat)
    (l : List HashItem) : ∃ chain, chainDel env s key fd l = some chain := by
  induction l with
  | nil => exact ⟨[], rfl⟩
  | cons item rest ih =>
    obtain ⟨b, hb⟩ := keyIs_total henv s item key
    obtain ⟨chain, hchain⟩ := ih
    simp only [chainDel, hb, hchain, Option.bind_some, Option.map_some]
    split
    · exact ⟨_, rfl⟩
    · exact ⟨_, rfl⟩

/-- What lies behind any array of a record can be read. -/
structure Env.Legible (env : Env) : Prop where
  stale : ∀ p, (env.stale p).isSome
  overrun : ∀ p field, (env.overrun p field).isSome

theorem Env.Legible.readable (henv : env.Legible) : env.Readable where
  stale := henv.stale
  overrun p := henv.overrun p .username

theorem profileAt_total (henv : env.Legible) (hp : s.heap p = some c) :
    ∃ profile, profileAt env s p = some profile := by
  obtain ⟨username, husername⟩ := read_total c.username (henv.overrun p .username)
  obtain ⟨character, hcharacter⟩ := read_total c.character (henv.overrun p .character)
  obtain ⟨doing, hdoing⟩ := read_total c.doing (henv.overrun p .doing)
  simp only [profileAt, hp, husername, hcharacter, hdoing, Option.bind_some, Option.map_some]
  exact ⟨_, rfl⟩

/-! ## Broadcasts and lists -/

/-- Registered clients and members of rooms have records. -/
structure State.Populated (s : State) : Prop where
  registered : ∀ fd p, s.fdClients fd = some p → ∃ c, s.heap p = some c
  member : ∀ r, ∀ p ∈ (s.rooms r).rClient, ∃ c, s.heap p = some c

theorem Sound.populated (hs : Sound s) : s.Populated where
  registered fd p hp := by
    obtain ⟨c, hc, -⟩ := hs.registered fd p hp
    exact ⟨c, hc⟩
  member r p hp := by
    obtain ⟨c, hc, -⟩ := hs.member_success hp
    exact ⟨c, hc⟩

theorem State.Populated.setClient (hs : s.Populated) (c : Client) :
    (s.setClient p c).Populated := by
  have hrecord : ∀ q, (∃ d, s.heap q = some d) → ∃ d, (s.setClient p c).heap q = some d := by
    intro q hq
    by_cases hqp : q = p
    · subst hqp
      exact ⟨c, Function.update_self ..⟩
    · rw [State.setClient_heap, Function.update_of_ne hqp]
      exact hq
  exact ⟨fun fd q hq => hrecord q (hs.registered fd q hq),
    fun r q hq => hrecord q (hs.member r q hq)⟩

theorem State.Populated.enter (hs : s.Populated) (c : Client) (r : Nat) :
    (s.enter p c r).Populated := by
  have hst := hs.setClient (p := p) { c with roomid := r }
  refine ⟨hst.registered, ?_⟩
  intro k q hq
  rw [State.enter_rooms] at hq
  split at hq
  · rcases List.mem_append.mp hq with hq | hq
    · exact hst.member r q hq
    · rw [List.mem_singleton.mp hq]
      exact ⟨_, Function.update_self ..⟩
  · exact hst.member k q hq

theorem State.Populated.post (hs : s.Populated) (l : List Send) : (s.post l).Populated :=
  ⟨hs.registered, hs.member⟩

theorem broadcast_total (n : Notice) {l : List Addr} (h : ∀ q ∈ l, ∃ d, s.heap q = some d) :
    ∃ out, broadcast s n l = some out := by
  induction l with
  | nil => exact ⟨[], rfl⟩
  | cons q l ih =>
    obtain ⟨d, hd⟩ := h q List.mem_cons_self
    obtain ⟨out, hout⟩ := ih fun q hq => h q (List.mem_cons_of_mem _ hq)
    simp only [broadcast, hd, hout, Option.bind_some, Option.map_some]
    exact ⟨_, rfl⟩

theorem sendMessageAll_total (hs : s.Populated) (fd : Nat) (n : Notice) :
    ∃ l, sendMessageAll s fd n = some (s.post l) := by
  unfold sendMessageAll
  cases hfd : s.fdClients fd with
  | none => exact ⟨[], by rw [State.post_nil]⟩
  | some p =>
    obtain ⟨c, hc⟩ := hs.registered fd p hfd
    obtain ⟨out, hout⟩ := broadcast_total n (hs.member c.roomid.toNat)
    simp only [hc, hout, Option.bind_some, Option.map_some]
    split
    · exact ⟨out, rfl⟩
    · exact ⟨[], by rw [State.post_nil]⟩

theorem userlist_total (henv : env.Legible) (me : Client) {l : List Addr}
    (h : ∀ q ∈ l, ∃ d, s.heap q = some d) (msg : List Notice) (item : Nat) :
    ∃ msgs, userlist env s me l msg item = some msgs := by
  induction l generalizing msg item with
  | nil => exact ⟨_, rfl⟩
  | cons q l ih =>
    obtain ⟨d, hd⟩ := h q List.mem_cons_self
    have hrest := ih fun q hq => h q (List.mem_cons_of_mem _ hq)
    obtain ⟨profile, hprofile⟩ := profileAt_total henv hd
    simp only [userlist, hd, hprofile, Option.bind_some]
    split
    · split
      · obtain ⟨msgs, hmsgs⟩ := hrest [.userAdd profile] (Notice.userAdd profile).bufferLength
        rw [hmsgs]
        exact ⟨_, rfl⟩
      · exact hrest _ _
    · exact hrest _ _

theorem sendUserlist_total (hs : s.Populated) (henv : env.Legible) (hp : s.heap p = some c)
    {r : Nat} (hroom : c.roomid = r) (hr : r < maxRooms) :
    ∃ l, sendUserlist env p s = some (s.post l) := by
  obtain ⟨msgs, hmsgs⟩ := userlist_total henv c (hs.member r) [] env.itembuffer
  simp only [sendUserlist, hp, hroom, State.room?_natCast hr, hmsgs, Option.bind_some,
    Option.map_some]
  split
  · exact ⟨_, rfl⟩
  · exact ⟨[], by rw [State.post_nil]⟩

/-! ## Rooms -/

theorem leaveRoom_ends (hs : Sound s) (hp : s.heap p = some c) (henv : env.Readable) :
    (leaveRoom env (some p)).Ends s := by
  have hrange := hs.range p c hp
  refine .bind_read (congrArg (Option.map Client.roomid) hp) ?_
  split
  · exact .ret returnFailure s
  · obtain ⟨r, hr⟩ : ∃ r : Nat, c.roomid = r := ⟨c.roomid.toNat, by omega⟩
    obtain ⟨name, hname⟩ := read_total c.username (henv.overrun p)
    refine .bind (.modify ?_) fun _ t _ => .ret returnSuccess t
    rw [leaveSection_eq hs hp hr, hname, Option.map_some]
    exact ⟨_, rfl⟩

theorem joinSection_total (hs : s.Populated) (henv : env.Legible) (hp : s.heap p = some c)
    {r : Nat} (hr : r < maxRooms) : ∃ s', joinSection env p r s = some s' := by
  simp only [joinSection, State.room?_natCast hr, hp, Option.bind_some, Int.toNat_natCast]
  split
  · let t := (s.enter p c r).sendMessage c.fd (.changeRoom r (s.rooms r).name)
    change ∃ s', (profileAt env t p).bind (fun profile =>
      (sendMessageAll t c.fd (.userLogin profile)).bind (sendUserlist env p)) = some s'
    have ht : t.Populated := (hs.enter c r).post _
    have htp : t.heap p = some { c with roomid := (r : Int) } := Function.update_self ..
    obtain ⟨profile, hprofile⟩ := profileAt_total henv htp
    obtain ⟨l, hl⟩ := sendMessageAll_total ht c.fd (.userLogin profile)
    obtain ⟨l', hl'⟩ := sendUserlist_total (ht.post l) henv htp rfl hr
    simp only [hprofile, hl, hl', Option.bind_some]
    exact ⟨_, rfl⟩
  · exact ⟨s, rfl⟩

theorem joinCheck_total (hp : s.heap p = some c) {roomid : Int} (hroom : roomid ≠ maxRooms) :
    ∃ start s', joinCheck p roomid s = some (start, s') := by
  unfold joinCheck
  split
  · exact ⟨_, _, rfl⟩
  · have hroom : s.room? roomid = some (s.rooms roomid.toNat) :=
      State.room?_eq_some.mpr ⟨by omega, by omega, rfl⟩
    simp only [hroom, hp, Option.bind_some, Option.map_some]
    split
    · exact ⟨_, _, rfl⟩
    split
    · exact ⟨_, _, rfl⟩
    split
    · exact ⟨_, _, rfl⟩
    · exact ⟨_, _, rfl⟩

/-- The first test of `join_room` lets one number through that is not in the table. -/
theorem joinRoom_ends (hs : Sound s) (henv : env.Legible) (hp : s.heap p = some c)
    {roomid : Int} (hroom : roomid ≠ maxRooms) : (joinRoom env (some p) roomid).Ends s := by
  refine .bind (.step (joinCheck_total hp hroom)) ?_
  intro start t hcheck
  rcases joinCheck_cases hs hp (Proc.run_step_eq_some.mp hcheck) with
    ⟨rfl, l, -, rfl⟩ | ⟨r, rfl, hr, -, -, rfl, rfl | ⟨rfl, -⟩⟩
  · exact .ret returnFailure _
  · refine .bind (leaveRoom_ends hs hp henv.readable) ?_
    intro x u hleave
    obtain ⟨l, -, rfl⟩ := leaveRoom_effect hs hp hleave
    have hvac : ((t.vacate p c).post l).Populated := ((hs.vacate hp).post l).populated
    refine .bind (.modify ?_) fun _ u _ => .ret returnSuccess u
    exact joinSection_total hvac henv (hs.vacate_heap_self hp) hr
  · refine .bind (.modify ?_) fun _ u _ => .ret returnSuccess u
    exact joinSection_total hs.populated henv hp hr

/-! ## Removal -/

theorem nodeDel_ends (hs : Sound s) (hp : s.heap p = some c) (hsize : 0 < s.hashSize)
    (henv : env.Readable) : (nodeDel env (some p)).Ends s := by
  refine .bind (leaveRoom_ends hs hp henv) ?_
  intro x t hleave
  obtain ⟨l, -, rfl⟩ := leaveRoom_effect hs hp hleave
  have hvac : ((s.vacate p c).post l).heap p = some { c with roomid := -1 } :=
    hs.vacate_heap_self hp
  obtain ⟨name, hname⟩ := read_total c.username (henv.overrun p)
  have hbucket : ((s.vacate p c).post l).hashSize ≠ 0 := by
    rw [State.post_hashSize, State.vacate_hashSize]
    omega
  obtain ⟨chain, hchain⟩ := chainDel_total henv ((s.vacate p c).post l) name c.fd
    (((s.vacate p c).post l).hashTable (((s.vacate p c).post l).bucketOf name))
  have hdel : unregisterSection env p ((s.vacate p c).post l) =
      some (((s.vacate p c).post l).setBucket (((s.vacate p c).post l).bucketOf name) chain) := by
    simp only [unregisterSection, hvac, Option.bind_some, hname, hashDel, if_neg hbucket, hchain,
      Option.map_some]
  refine .bind_modify hdel ?_
  refine .bind (.modify ?_) fun _ u _ => .ret returnSuccess u
  rw [freeSection, State.setBucket_heap, hvac]
  exact ⟨_, rfl⟩

/-! ## A guest -/

/-- Every text of the memory ends at once. -/
def Env.cleared (env : Env) : Env :=
  { env with stale := fun _ => some [], overrun := fun _ _ => some [] }

theorem Env.cleared_legible (env : Env) : env.cleared.Legible := ⟨fun _ => rfl, fun _ _ => rfl⟩

/-- A run with one guest. -/
theorem exists_guest : ∃ (s : State) (c : Client), Reachable s ∧ s.fdClients 5 = some 100 ∧
    s.heap 100 = some c ∧ c.state = .success := by
  have hcheck : (actAll (State.start fun _ => lobbyConf) [connect 5 100,
      deliver 0 5 guestLogin]).any (fun s => s.fdClients 5 = some 100 ∧
        (s.heap 100).any fun c => c.state = .success) := by
    decide +kernel
  obtain ⟨s, hrun, hs⟩ := (Option.any_eq_true _ _).mp hcheck
  obtain ⟨h5, h100⟩ := of_decide_eq_true hs
  obtain ⟨c, hc, hstate⟩ := (Option.any_eq_true _ _).mp h100
  exact ⟨s, c, reachable_of_actAll hrun, h5, hc, of_decide_eq_true hstate⟩

end ArpgServer
