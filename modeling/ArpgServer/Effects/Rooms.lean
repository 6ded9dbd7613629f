import ArpgServer.Effects.Invariant

/-!
# What the room functions do

Under the room invariant each function of `function.c` has one effect, written with the
changes of `Effects.Invariant` and the messages it sends. Every later result about a message
is derived from these effects.
-/

namespace ArpgServer

variable {env : Env} {s s' : State} {p q : Addr} {c d : Client}

/-! ## Broadcasts -/

/-- The descriptor of a record. -/
def State.fdOf (s : State) (q : Addr) : Nat :=
  match s.heap q with
  | none => 0
  | some d => d.fd

theorem State.fdOf_eq (h : s.heap q = some d) : s.fdOf q = d.fd := by
  unfold State.fdOf
  rw [h]

/-- One event to each client of a list. -/
def State.toEach (s : State) (l : List Addr) (n : Notice) : List Send :=
  l.map fun q => ⟨s.fdOf q, [n]⟩

theorem broadcast_message {n : Notice} {l : List Addr} {out : List Send}
    (h : broadcast s n l = some out) : ∀ m ∈ out, m.message = [n] := by
  induction l generalizing out with
  | nil =>
    cases h
    simp
  | cons q l ih =>
    obtain ⟨cur, -, h⟩ := Option.bind_eq_some_iff.mp h
    obtain ⟨out', hout, rfl⟩ := Option.map_eq_some_iff.mp h
    intro m hm
    split at hm
    · rcases List.mem_cons.mp hm with rfl | hm
      · rfl
      · exact ih hout m hm
    · exact ih hout m hm

theorem broadcast_eq {n : Notice} {l : List Addr}
    (h : ∀ q ∈ l, ∃ d, s.heap q = some d ∧ d.state = .success) :
    broadcast s n l = some (s.toEach l n) := by
  induction l with
  | nil => rfl
  | cons q l ih =>
    obtain ⟨d, hd, hst⟩ := h q List.mem_cons_self
    have hl := ih fun q hq => h q (List.mem_cons_of_mem _ hq)
    simp only [broadcast, hd, Option.bind_some, hl, Option.map_some, hst, if_true]
    simp only [State.toEach, List.map_cons, State.fdOf_eq hd]

theorem sendMessageAll_post {fd : Nat} {n : Notice} (h : sendMessageAll s fd n = some s') :
    ∃ l, s' = s.post l ∧ ∀ m ∈ l, m.message = [n] := by
  unfold sendMessageAll at h
  split at h
  · cases h
    exact ⟨[], by simp⟩
  · obtain ⟨client, -, h⟩ := Option.bind_eq_some_iff.mp h
    split at h
    · obtain ⟨out, hout, rfl⟩ := Option.map_eq_some_iff.mp h
      exact ⟨out, rfl, broadcast_message hout⟩
    · cases h
      exact ⟨[], by simp⟩

theorem sendMessageAll_eq {n : Notice} {r : Nat} (hfd : s.fdClients c.fd = some p)
    (hp : s.heap p = some c) (hroom : c.roomid = r) (hr : r < maxRooms)
    (hmem : ∀ q ∈ (s.rooms r).rClient, ∃ d, s.heap q = some d ∧ d.state = .success) :
    sendMessageAll s c.fd n = some (s.post (s.toEach (s.rooms r).rClient n)) := by
  have hlt : c.roomid < maxRooms ∧ -1 < c.roomid := by omega
  have hnat : c.roomid.toNat = r := by omega
  simp only [sendMessageAll, hfd, hp, Option.bind_some, hlt, and_self, if_true, hnat,
    broadcast_eq hmem, Option.map_some]

theorem Sound.sendMessageAll_member (hs : Sound s) (hp : s.heap p = some c) {r : Nat}
    (hroom : c.roomid = r) (n : Notice) :
    sendMessageAll s c.fd n = some (s.post (s.toEach (s.rooms r).rClient n)) := by
  have hr := (hs.range p c hp).2
  refine sendMessageAll_eq (hs.current p c hp) hp hroom (by omega) ?_
  intro q hq
  obtain ⟨d, hd, -, hst⟩ := hs.member_success hq
  exact ⟨d, hd, hst⟩

/-- Nothing is sent on behalf of a client that is in no room. -/
theorem Sound.sendMessageAll_outside (hs : Sound s) (hp : s.heap p = some c)
    (hroom : c.roomid = -1) (n : Notice) : sendMessageAll s c.fd n = some s := by
  simp [sendMessageAll, hs.current p c hp, hp, hroom]

/-! ## Leaving -/

theorem unlinkFd_eq {fd : Nat} {l : List Addr}
    (h : ∀ q ∈ l, ∃ d, s.heap q = some d ∧ (d.fd = fd ↔ q = p)) (hp : p ∈ l) :
    unlinkFd s fd l = some (some (l.erase p)) := by
  induction l with
  | nil => simp at hp
  | cons q l ih =>
    obtain ⟨d, hd, hfd⟩ := h q List.mem_cons_self
    simp only [unlinkFd, hd, Option.bind_some]
    by_cases hq : q = p
    · subst hq
      rw [if_pos (hfd.mpr rfl), List.erase_cons_head]
    · have hl := ih (fun q hq => h q (List.mem_cons_of_mem _ hq))
        ((List.mem_cons.mp hp).resolve_left (Ne.symm hq))
      rw [if_neg (fun h' => hq (hfd.mp h')), hl, Option.map_some, Option.map_some,
        List.erase_cons_tail (by simpa using hq)]

/-- The messages of `leave_room`: a logout to everyone who stays in the room. -/
def LogoutSends (env : Env) (s : State) (p : Addr) (c : Client) (l : List Send) : Prop :=
  (c.roomid = -1 ∧ l = []) ∨
    ∃ (r : Nat) (name : Bytes), c.roomid = r ∧
      c.username.read (env.overrun p .username) = some name ∧
      l = s.toEach ((s.rooms r).rClient.erase p) (.userLogout name)

theorem leaveSection_eq (hs : Sound s) (hp : s.heap p = some c) {r : Nat} (hroom : c.roomid = r) :
    leaveSection env p c.roomid s =
      (c.username.read (env.overrun p .username)).map fun name =>
        (s.vacate p c).post (s.toEach ((s.rooms r).rClient.erase p) (.userLogout name)) := by
  have hr : r < maxRooms := by
    have := (hs.range p c hp).2
    omega
  have hmem : p ∈ (s.rooms r).rClient := (hs.member r p).mpr ⟨c, hp, hroom⟩
  have hstate : c.state = .success := by
    obtain ⟨d, hd, -, hst⟩ := hs.member_success hmem
    rw [hp] at hd
    cases hd
    exact hst
  have hne : (s.rooms r).rClient ≠ [] := List.ne_nil_of_mem hmem
  have hunlink : unlinkFd s c.fd (s.rooms r).rClient =
      some (some ((s.rooms r).rClient.erase p)) := by
    refine unlinkFd_eq ?_ hmem
    intro q hq
    obtain ⟨d, hd, -, -⟩ := hs.member_success hq
    refine ⟨d, hd, ⟨fun hfd => hs.eq_of_fd hd hp hfd, ?_⟩⟩
    rintro rfl
    rw [hp] at hd
    cases hd
    rfl
  simp only [leaveSection, hroom, State.room?_natCast hr, hp, Option.bind_some, hne, if_false,
    hunlink, hstate, if_true, Int.toNat_natCast]
  let t := s.setRoom r ((s.rooms r).without p)
  have hsend : ∀ name, sendMessageAll t c.fd (.userLogout name) =
      some (t.post (t.toEach (t.rooms r).rClient (.userLogout name))) := by
    intro name
    refine sendMessageAll_eq (hs.current p c hp) hp hroom hr ?_
    intro q hq
    have hq' : q ∈ (s.rooms r).rClient := by
      have : q ∈ (s.rooms r).rClient.erase p := by simpa [t, Room.without] using hq
      exact List.mem_of_mem_erase this
    obtain ⟨d, hd, -, hst⟩ := hs.member_success hq'
    exact ⟨d, hd, hst⟩
  have ht : s.setRoom r ((s.rooms r).unlinked (some ((s.rooms r).rClient.erase p))) = t := rfl
  have hvac : s.vacate p c = t.setClient p { c with roomid := -1 } := by
    simp only [State.vacate, hroom, Int.natCast_nonneg, if_true, Int.toNat_natCast, t]
  have hlist : (t.rooms r).rClient = (s.rooms r).rClient.erase p := by simp [t, Room.without]
  cases hname : c.username.read (env.overrun p .username) with
  | none => rfl
  | some name =>
    rw [ht, Option.bind_some, hsend, Option.map_some, Option.map_some, hvac, hlist, hstate]
    rfl

theorem leaveSection_effect (hs : Sound s) (hp : s.heap p = some c) {r : Nat}
    (hroom : c.roomid = r) (h : leaveSection env p c.roomid s = some s') :
    ∃ name, c.username.read (env.overrun p .username) = some name ∧
      s' = (s.vacate p c).post (s.toEach ((s.rooms r).rClient.erase p) (.userLogout name)) := by
  rw [leaveSection_eq hs hp hroom] at h
  obtain ⟨name, hname, rfl⟩ := Option.map_eq_some_iff.mp h
  exact ⟨name, hname, rfl⟩

theorem leaveRoom_effect (hs : Sound s) (hp : s.heap p = some c) {x : Int}
    (h : (leaveRoom env (some p)).run s = some (x, s')) :
    ∃ l, LogoutSends env s p c l ∧ s' = (s.vacate p c).post l := by
  obtain ⟨roomid, t, hread, h⟩ := Proc.run_bind_eq_some.mp h
  obtain ⟨hroomid, rfl⟩ := Proc.run_read_eq_some.mp hread
  rw [hp] at hroomid
  cases hroomid
  have hrange := hs.range p c hp
  split at h
  · cases h
    have hroom : c.roomid = -1 := by omega
    exact ⟨[], Or.inl ⟨hroom, rfl⟩, by rw [State.vacate_eq_self s p c hroom, State.post_nil]⟩
  · rename_i hin
    obtain ⟨u, t', hmod, h⟩ := Proc.run_bind_eq_some.mp h
    cases h
    obtain ⟨r, hroom⟩ : ∃ r : Nat, c.roomid = r := ⟨c.roomid.toNat, by omega⟩
    obtain ⟨name, hname, hs'⟩ := leaveSection_effect hs hp hroom (Proc.run_modify_eq_some.mp hmod)
    exact ⟨_, Or.inr ⟨r, name, hroom, hname, rfl⟩, hs'⟩

/-! ## Joining -/

theorem profileAt_congr {t : State} (h : t.heap = s.heap) :
    profileAt env t p = profileAt env s p := by
  unfold profileAt
  rw [h]

theorem userlist_congr {t : State} (h : t.heap = s.heap) (me : Client) (l : List Addr)
    (msg : List Notice) (item : Nat) :
    userlist env t me l msg item = userlist env s me l msg item := by
  induction l generalizing msg item with
  | nil => rfl
  | cons q l ih => simp only [userlist, h, profileAt_congr h, ih]

/-- The messages of `join_room` once it enters: the new room, the newcomer to everyone in
it, and the list of the others. -/
def JoinSends (env : Env) (s : State) (p : Addr) (c : Client) (r : Nat) (l : List Send) : Prop :=
  ∃ profile msgs, profileAt env s p = some profile ∧
    userlist env s c ((s.rooms r).rClient ++ [p]) [] env.itembuffer = some msgs ∧
    l = ⟨c.fd, [.changeRoom r (s.rooms r).name]⟩ ::
      (s.toEach ((s.rooms r).rClient ++ [p]) (.userLogin profile) ++
        msgs.map fun m => ⟨c.fd, m⟩)

/-- A record that differs in its room only is shown in the same way. -/
theorem profileAt_setRoomid (hp : s.heap p = some c) {r : Int} {t : State}
    (ht : t.heap = Function.update s.heap p (some { c with roomid := r })) :
    profileAt env t p = profileAt env s p := by
  simp [profileAt, ht, hp]

theorem userlist_setRoomid (hp : s.heap p = some c) {r : Int} {t : State}
    (ht : t.heap = Function.update s.heap p (some { c with roomid := r })) (me : Client)
    (l : List Addr) (msg : List Notice) (item : Nat) :
    userlist env t { me with roomid := r } l msg item = userlist env s me l msg item := by
  induction l generalizing msg item with
  | nil => rfl
  | cons q l ih =>
    by_cases hq : q = p
    · subst hq
      simp only [userlist, ht, Function.update_self, hp, Option.bind_some, ih,
        profileAt_setRoomid hp ht]
    · have hprof : profileAt env t q = profileAt env s q := by
        simp [profileAt, ht, hq]
      simp only [userlist, ht, Function.update_of_ne hq, ih, hprof]

theorem fdOf_update {t : State} (hp : s.heap p = some c)
    (ht : t.heap = Function.update s.heap p (some d)) (hfd : d.fd = c.fd) :
    t.fdOf q = s.fdOf q := by
  unfold State.fdOf
  rw [ht]
  by_cases hq : q = p
  · subst hq
    rw [Function.update_self, hp]
    exact hfd
  · rw [Function.update_of_ne hq]

theorem toEach_update {t : State} (hp : s.heap p = some c)
    (ht : t.heap = Function.update s.heap p (some d)) (hfd : d.fd = c.fd) (l : List Addr)
    (n : Notice) : t.toEach l n = s.toEach l n := by
  simp only [State.toEach, fdOf_update hp ht hfd]

theorem joinSection_effect (hs : Sound s) (hp : s.heap p = some c) (hroom : c.roomid = -1)
    (hstate : c.state = .success) {r : Nat} (hr : r < maxRooms) (hen : (s.rooms r).enable ≠ 0)
    (h : joinSection env p r s = some s') :
    ∃ l, JoinSends env s p c r l ∧ s' = (s.enter p c r).post l := by
  simp only [joinSection, State.room?_natCast hr, Option.bind_some, hen, ne_eq,
    not_false_eq_true, if_true, hp, Int.toNat_natCast] at h
  let t := s.enter p c r
  have ht : t.heap = Function.update s.heap p (some { c with roomid := (r : Int) }) := rfl
  have hst : Sound t := hs.enter hp hroom hstate hr hen
  have htp : t.heap p = some { c with roomid := (r : Int) } := by simp [ht]
  let t1 := t.sendMessage c.fd (.changeRoom r (s.rooms r).name)
  change (profileAt env t1 p).bind _ = some s' at h
  obtain ⟨profile, hprof, h⟩ := Option.bind_eq_some_iff.mp h
  have hprof' : profileAt env s p = some profile := (profileAt_setRoomid hp ht).symm.trans hprof
  have hst1 : Sound t1 := hst.post _
  have hsend : sendMessageAll t1 c.fd (.userLogin profile) =
      some (t1.post (t1.toEach (t1.rooms r).rClient (.userLogin profile))) :=
    hst1.sendMessageAll_member htp rfl _
  let t2 := t1.post (t1.toEach (t1.rooms r).rClient (.userLogin profile))
  change (sendMessageAll t1 c.fd (.userLogin profile)).bind (sendUserlist env p) = some s' at h
  rw [hsend, Option.bind_some] at h
  change sendUserlist env p t2 = some s' at h
  have hlist : (t.rooms r).rClient = (s.rooms r).rClient ++ [p] := by
    simp [t, State.enter_rooms, Room.append]
  have hen2 : (t2.rooms r).enable ≠ 0 := by
    simpa [t2, t1, t, State.sendMessage, State.enter_rooms, Room.append] using hen
  have htp2 : t2.heap p = some { c with roomid := (r : Int) } := htp
  simp only [sendUserlist, htp2, Option.bind_some, State.room?_natCast hr, hen2, ne_eq,
    not_false_eq_true, if_true] at h
  obtain ⟨msgs, hmsgs, rfl⟩ := Option.map_eq_some_iff.mp h
  have ht2 : t2.heap = Function.update s.heap p (some { c with roomid := (r : Int) }) := rfl
  rw [userlist_setRoomid hp ht2] at hmsgs
  refine ⟨_, ⟨profile, msgs, hprof', ?_, rfl⟩, ?_⟩
  · rw [← hlist]
    exact hmsgs
  · have heach : t1.toEach (t1.rooms r).rClient (.userLogin profile) =
        s.toEach ((s.rooms r).rClient ++ [p]) (.userLogin profile) := by
      rw [← hlist]
      exact toEach_update hp ht rfl _ _
    simp only [t2, heach]
    simp [t1, t, State.sendMessage]

/-- The answer to a guest in front of a closed room. -/
def RefusalSends (s : State) (c : Client) (l : List Send) : Prop :=
  l = [] ∨ ∃ name, l = [⟨c.fd, [.systemMessage s.mytimestamp (.guestRefused name)]⟩]

/-- `join_room` either answers the client only, or moves it to the room. -/
def JoinEffect (env : Env) (p : Addr) (c : Client) (roomid : Int) (s s' : State) : Prop :=
  (∃ l, RefusalSends s c l ∧ s' = s.post l) ∨
    ∃ (r : Nat) (l₁ l₂ : List Send), roomid = r ∧ r < maxRooms ∧ (s.rooms r).enable ≠ 0 ∧
      c.roomid ≠ r ∧ LogoutSends env s p c l₁ ∧
      JoinSends env (s.vacate p c) p { c with roomid := -1 } r l₂ ∧
      s' = ((s.vacate p c).enter p { c with roomid := -1 } r).post (l₁ ++ l₂)

/-- What the tests of `join_room` have found when they let the client go on. -/
theorem joinCheck_cases {roomid : Int} {start : JoinStart} (hs : Sound s) (hp : s.heap p = some c)
    (h : joinCheck p roomid s = some (start, s')) :
    (start = .refused ∧ ∃ l, RefusalSends s c l ∧ s' = s.post l) ∨
      ∃ r : Nat, roomid = r ∧ r < maxRooms ∧ (s.rooms r).enable ≠ 0 ∧ c.roomid ≠ r ∧ s' = s ∧
        (start = .leaveFirst ∨ (start = .enter ∧ c.roomid = -1)) := by
  have hrange := hs.range p c hp
  unfold joinCheck at h
  split at h
  · cases h
    exact Or.inl ⟨rfl, [], Or.inl rfl, by simp⟩
  obtain ⟨room, hroom, h⟩ := Option.bind_eq_some_iff.mp h
  obtain ⟨h0, hlt, rfl⟩ := State.room?_eq_some.mp hroom
  obtain ⟨r, rfl⟩ : ∃ r : Nat, roomid = r := ⟨roomid.toNat, by omega⟩
  have hr : r < maxRooms := by omega
  simp only [hp, Option.map_some, Option.some.injEq, Int.toNat_natCast] at h
  split at h
  · cases h
    exact Or.inl ⟨rfl, [], Or.inl rfl, by simp⟩
  rename_i hen
  simp only [not_or] at hen
  split at h
  · cases h
    exact Or.inl ⟨rfl, _, Or.inr ⟨(s.rooms r).name, rfl⟩, rfl⟩
  refine Or.inr ⟨r, rfl, hr, hen.1, hen.2, ?_⟩
  split at h
  · cases h
    exact ⟨rfl, Or.inl rfl⟩
  · cases h
    exact ⟨rfl, Or.inr ⟨rfl, by omega⟩⟩

/-- A client enters a room after it has left the one it was in. -/
theorem joinSection_vacated (hs : Sound s) (hp : s.heap p = some c) (hstate : c.state = .success)
    {r : Nat} (hr : r < maxRooms) (hen : (s.rooms r).enable ≠ 0) {l₁ : List Send}
    (h : joinSection env p r ((s.vacate p c).post l₁) = some s') :
    ∃ l₂, JoinSends env (s.vacate p c) p { c with roomid := -1 } r l₂ ∧
      s' = ((s.vacate p c).enter p { c with roomid := -1 } r).post (l₁ ++ l₂) := by
  have hvacp : ((s.vacate p c).post l₁).heap p = some { c with roomid := -1 } :=
    hs.vacate_heap_self hp
  have hvacen : (((s.vacate p c).post l₁).rooms r).enable ≠ 0 := by
    rw [State.post_rooms, State.vacate_rooms]
    split <;> exact hen
  obtain ⟨l₂, ⟨profile, msgs, hprof, hmsgs, hl₂⟩, rfl⟩ :=
    joinSection_effect ((hs.vacate hp).post l₁) hvacp rfl hstate hr hvacen h
  refine ⟨l₂, ⟨profile, msgs, hprof, ?_, hl₂⟩, ?_⟩
  · rw [← hmsgs]
    exact (userlist_congr (s := s.vacate p c) (t := (s.vacate p c).post l₁) rfl _ _ _ _).symm
  · rw [← State.post_post]
    rfl

theorem joinRoom_effect (hs : Sound s) (hp : s.heap p = some c) (hstate : c.state = .success)
    {roomid x : Int} (h : (joinRoom env (some p) roomid).run s = some (x, s')) :
    JoinEffect env p c roomid s s' := by
  obtain ⟨start, t, hcheck, h⟩ := Proc.run_bind_eq_some.mp h
  rw [Proc.run_step_eq_some] at hcheck
  rcases joinCheck_cases hs hp hcheck with
    ⟨rfl, l, hl, rfl⟩ | ⟨r, rfl, hr, hen, hne, rfl, rfl | ⟨rfl, hout⟩⟩
  · cases h
    exact Or.inl ⟨l, hl, rfl⟩
  · obtain ⟨y, t', hleave, h⟩ := Proc.run_bind_eq_some.mp h
    obtain ⟨u, t'', hjoin, h⟩ := Proc.run_bind_eq_some.mp h
    cases h
    obtain ⟨l₁, hl₁, rfl⟩ := leaveRoom_effect hs hp hleave
    obtain ⟨l₂, hl₂, rfl⟩ :=
      joinSection_vacated hs hp hstate hr hen (Proc.run_modify_eq_some.mp hjoin)
    exact Or.inr ⟨r, l₁, l₂, rfl, hr, hen, hne, hl₁, hl₂, rfl⟩
  · obtain ⟨u, t', hjoin, h⟩ := Proc.run_bind_eq_some.mp h
    cases h
    have hjoin : joinSection env p r ((t.vacate p c).post []) = some s' := by
      rw [State.vacate_eq_self t p c hout, State.post_nil]
      exact Proc.run_modify_eq_some.mp hjoin
    obtain ⟨l₂, hl₂, rfl⟩ := joinSection_vacated hs hp hstate hr hen hjoin
    exact Or.inr ⟨r, [], l₂, rfl, hr, hen, hne, Or.inl ⟨hout, rfl⟩, hl₂, rfl⟩

/-! ## Displacement and removal -/

/-- `other_same_username` does nothing to a client that waits; one in `FD_STATE_SUCCESS`
leaves its room, is told and waits. -/
def DisplaceEffect (env : Env) (q : Addr) (d : Client) (s s' : State) : Prop :=
  (d.state ≠ .success ∧ s' = s) ∨
    (d.state = .success ∧ ∃ l, LogoutSends env s q d l ∧
      s' = ((s.vacate q d).setClient q { d with roomid := -1, state := .wait }).post
        (l ++ [⟨d.fd, [.otherLogin]⟩]))

theorem otherSameUsername_effect (hs : Sound s) (hq : s.heap q = some d)
    (h : (otherSameUsername env (some q)).run s = some ((), s')) :
    DisplaceEffect env q d s s' := by
  obtain ⟨x, t, hleave, h⟩ := Proc.run_bind_eq_some.mp h
  obtain ⟨l, hl, rfl⟩ := leaveRoom_effect hs hq hleave
  have hvac := hs.vacate hq
  have hvacq := hs.vacate_heap_self hq
  have h := Proc.run_modify_eq_some.mp h
  simp only [displaceSection, State.post_heap, hvacq, Option.bind_some] at h
  by_cases hstate : d.state = .success
  · rw [if_pos hstate] at h
    obtain ⟨name, -, h⟩ := Option.bind_eq_some_iff.mp h
    refine Or.inr ⟨hstate, l, hl, ?_⟩
    have ht : Sound ((s.vacate q d).setClient q { d with roomid := -1, state := .wait }) :=
      hvac.setClient hvacq rfl rfl (fun _ => rfl)
    have hnone := (ht.post (l ++ [⟨d.fd, [.otherLogin]⟩])).sendMessageAll_outside (p := q)
      (c := { d with roomid := -1, state := .wait })
      (by rw [State.post_heap, State.setClient_heap, Function.update_self]) rfl (.userLogout name)
    have hsame : (((s.vacate q d).post l).setClient q
        { d with roomid := -1, state := .wait }).sendMessage d.fd .otherLogin =
        ((s.vacate q d).setClient q { d with roomid := -1, state := .wait }).post
          (l ++ [⟨d.fd, [.otherLogin]⟩]) := by
      rw [← State.post_post]
      rfl
    rw [hsame, hnone] at h
    exact (Option.some.inj h).symm
  · rw [if_neg hstate] at h
    cases h
    have hroom := hs.waiting q d hq hstate
    have hvs := State.vacate_eq_self s q d hroom
    rcases hl with ⟨-, rfl⟩ | ⟨r, name, hr, -⟩
    · exact Or.inl ⟨hstate, by rw [hvs, State.post_nil]⟩
    · omega

/-- `node_del` leaves the room, rewrites one chain of the name table and frees the record. -/
def RemoveEffect (env : Env) (p : Addr) (c : Client) (s s' : State) : Prop :=
  ∃ l key chain, LogoutSends env s p c l ∧
    c.username.read (env.overrun p .username) = some key ∧
    chainDel env (s.vacate p c) key c.fd (s.hashTable (s.bucketOf key)) = some chain ∧
    s' = (((s.vacate p c).post l).setBucket (s.bucketOf key) chain).freed p c

theorem nodeDel_effect (hs : Sound s) (hp : s.heap p = some c) {x : Int}
    (h : (nodeDel env (some p)).run s = some (x, s')) : RemoveEffect env p c s s' := by
  obtain ⟨y, t, hleave, h⟩ := Proc.run_bind_eq_some.mp h
  obtain ⟨l, hl, rfl⟩ := leaveRoom_effect hs hp hleave
  obtain ⟨u, t', hdel, h⟩ := Proc.run_bind_eq_some.mp h
  obtain ⟨u', t'', hfree, h⟩ := Proc.run_bind_eq_some.mp h
  cases h
  have hvacp := hs.vacate_heap_self hp
  have hdel := Proc.run_modify_eq_some.mp hdel
  have hfree := Proc.run_modify_eq_some.mp hfree
  simp only [unregisterSection, State.post_heap, hvacp, Option.bind_some] at hdel
  obtain ⟨key, hkey, hdel⟩ := Option.bind_eq_some_iff.mp hdel
  obtain ⟨chain, hchain, rfl⟩ := hashDel_eq_some hdel
  rw [chainDel_congr (State.post_heap _ l)] at hchain
  have hbucket : ((s.vacate p c).post l).bucketOf key = s.bucketOf key := by
    simp [State.bucketOf]
  rw [hbucket] at hchain hfree
  simp only [State.post_hashTable, State.vacate_hashTable] at hchain
  simp only [freeSection, State.setBucket_heap, State.post_heap, hvacp, Option.map_some,
    Option.some.injEq] at hfree
  exact ⟨l, key, chain, hl, hkey, hchain, hfree.symm⟩

theorem RemoveEffect.heap_eq (hs : Sound s) (hp : s.heap p = some c)
    (h : RemoveEffect env p c s s') : s'.heap = Function.update s.heap p none := by
  obtain ⟨l, key, chain, -, -, -, rfl⟩ := h
  simp [State.freed, hs.vacate_heap hp]

end ArpgServer
