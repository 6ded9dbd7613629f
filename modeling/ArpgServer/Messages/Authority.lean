import ArpgServer.Effects.Steps

/-!
# What a message may change

A message other than a login touches its sender, and one further client when it is a
command of an administrator. A message of a client that is not authenticated changes nothing,
unless it is a logout. Places in a member list move up when a member before them leaves, so
what is kept of a list is the order of the members that were not touched.
-/

namespace ArpgServer

variable {lookup : Lookup} {env : Env} {s s' t : State} {p q : Addr} {c d : Client} {fd : Nat}
  {e : Event} {touched : List Addr}

/-- Nothing changes for the clients outside `touched`: not what their records say, not their
registration and not their order in the rooms. -/
structure Preserves (touched : List Addr) (s s' : State) : Prop where
  record : ∀ q c, q ∉ touched → s.heap q = some c → ∃ d, s'.heap q = some d ∧ c.SameCore d
  registered : ∀ fd q, q ∉ touched → s.fdClients fd = some q → s'.fdClients fd = some q
  items : ∀ i fd q, q ∉ touched → s.fdClients fd = some q →
    (s'.hashTable i).filter (·.data = fd) = (s.hashTable i).filter (·.data = fd)
  order : ∀ r, (s'.rooms r).rClient.filter (· ∉ touched) = (s.rooms r).rClient.filter (· ∉ touched)

namespace Preserves

theorem of_eq (hheap : s'.heap = s.heap) (hfd : s'.fdClients = s.fdClients)
    (hrooms : s'.rooms = s.rooms) (htable : s'.hashTable = s.hashTable) :
    Preserves touched s s' where
  record := fun q c _ hq => ⟨c, by rwa [hheap], .refl c⟩
  registered := fun fd q _ hq => by rwa [hfd]
  items := fun i fd q _ _ => by rw [htable]
  order := fun r => by rw [hrooms]

theorem trans (h : Preserves touched s t) (h' : Preserves touched t s') :
    Preserves touched s s' where
  record := by
    intro q c hq hc
    obtain ⟨d, hd, hcd⟩ := h.record q c hq hc
    obtain ⟨d', hd', hdd⟩ := h'.record q d hq hd
    exact ⟨d', hd', hdd.fd.trans hcd.fd, hdd.roomid.trans hcd.roomid, hdd.state.trans hcd.state,
      hdd.type.trans hcd.type, hdd.anonymous.trans hcd.anonymous, hdd.username.trans hcd.username⟩
  registered := fun fd q hq hfd => h'.registered fd q hq (h.registered fd q hq hfd)
  items := fun i fd q hq hfd =>
    (h'.items i fd q hq (h.registered fd q hq hfd)).trans (h.items i fd q hq hfd)
  order := fun r => (h'.order r).trans (h.order r)

theorem post (l : List Send) : Preserves touched s (s.post l) := of_eq rfl rfl rfl rfl

theorem tick (now : Int) : Preserves touched s (s.tick now) := of_eq rfl rfl rfl rfl

theorem setClient (hp : p ∈ touched) (d : Client) : Preserves touched s (s.setClient p d) where
  record := by
    intro q c hq hc
    have hqp : q ≠ p := fun h => hq (h ▸ hp)
    exact ⟨c, by simpa [hqp] using hc, .refl c⟩
  registered := fun _ _ _ hfd => hfd
  items := fun _ _ _ _ _ => rfl
  order := fun _ => rfl

theorem vacate (hs : Sound s) (hc : s.heap p = some c) (hp : p ∈ touched) :
    Preserves touched s (s.vacate p c) where
  record := by
    intro q d hq hd
    have hqp : q ≠ p := fun h => hq (h ▸ hp)
    exact ⟨d, by simpa [hs.vacate_heap hc, hqp] using hd, .refl d⟩
  registered := fun fd q _ hfd => by rwa [State.vacate_fdClients]
  items := fun i fd q _ _ => by rw [State.vacate_hashTable]
  order := by
    intro r
    rw [State.vacate_rooms]
    split
    · change ((s.rooms r).rClient.erase p).filter _ = _
      rw [List.Nodup.erase_eq_filter (hs.nodup r), List.filter_filter]
      refine List.filter_congr fun q _ => ?_
      by_cases hqp : q = p
      · simp [hqp, hp]
      · simp [hqp]
    · rfl

theorem enter (hp : p ∈ touched) (c : Client) (r : Nat) : Preserves touched s (s.enter p c r) where
  record := by
    intro q d hq hd
    have hqp : q ≠ p := fun h => hq (h ▸ hp)
    exact ⟨d, by simpa [hqp] using hd, .refl d⟩
  registered := fun _ _ _ hfd => hfd
  items := fun _ _ _ _ _ => rfl
  order := by
    intro k
    rw [State.enter_rooms]
    split
    · rename_i hk
      subst hk
      simp [Room.append, hp]
    · rfl

theorem join (hs : Sound s) (hc : s.heap p = some c) (hp : p ∈ touched) {roomid : Int}
    (h : JoinEffect env p c roomid s s') : Preserves touched s s' := by
  rcases h with ⟨l, -, rfl⟩ | ⟨r, l₁, l₂, -, -, -, -, -, -, rfl⟩
  · exact post l
  · exact ((vacate hs hc hp).trans (enter hp _ r)).trans (post _)

end Preserves

/-- A deletion from a chain leaves the items of other descriptors alone. -/
theorem chainDel_filter {key : Bytes} {k : Nat} {chain rest : List HashItem}
    (h : chainDel env s key fd chain = some rest) (hk : k ≠ fd) :
    rest.filter (·.data = k) = chain.filter (·.data = k) := by
  induction chain generalizing rest with
  | nil =>
    cases h
    rfl
  | cons item chain ih =>
    obtain ⟨same, -, h⟩ := Option.bind_eq_some_iff.mp h
    split at h
    · rename_i hdel
      cases h
      have hne : item.data ≠ k := fun h' => hk (h'.symm.trans hdel.2)
      rw [List.filter_cons_of_neg (by simpa using hne)]
    · obtain ⟨rest', hrest, rfl⟩ := Option.map_eq_some_iff.mp h
      simp only [List.filter_cons, ih hrest]

theorem chainDel_sublist {key : Bytes} {chain rest : List HashItem}
    (h : chainDel env s key fd chain = some rest) : rest.Sublist chain := by
  induction chain generalizing rest with
  | nil =>
    cases h
    exact .slnil
  | cons item chain ih =>
    obtain ⟨same, -, h⟩ := Option.bind_eq_some_iff.mp h
    split at h
    · cases h
      exact List.sublist_cons_self item chain
    · obtain ⟨rest', hrest, rfl⟩ := Option.map_eq_some_iff.mp h
      exact (ih hrest).cons_cons item

/-- The descriptors of other clients. -/
theorem ne_fd_of_not_mem (hs : Sound s) (hc : s.heap p = some c) (hp : p ∈ touched) {k : Nat}
    (hq : q ∉ touched) (hk : s.fdClients k = some q) : k ≠ c.fd := by
  rintro rfl
  rw [hs.current p c hc] at hk
  cases hk
  exact hq hp

namespace Preserves

theorem setBucket (hs : Sound s) (hc : s.heap p = some c) (hp : p ∈ touched) {key : Bytes} {i : Nat}
    {chain : List HashItem} (h : chainDel env s key c.fd (s.hashTable i) = some chain) :
    Preserves touched s (s.setBucket i chain) where
  record := fun q d _ hd => ⟨d, hd, .refl d⟩
  registered := fun _ _ _ hfd => hfd
  items := by
    intro j k q hq hk
    simp only [State.setBucket_hashTable, Function.update_apply]
    split
    · rename_i hj
      rw [hj]
      exact chainDel_filter h (ne_fd_of_not_mem hs hc hp hq hk)
    · rfl
  order := fun _ => rfl

theorem freed (hs : Sound s) (hc : s.heap p = some c) (hp : p ∈ touched) :
    Preserves touched s (s.freed p c) where
  record := by
    intro q d hq hd
    have hqp : q ≠ p := fun h => hq (h ▸ hp)
    exact ⟨d, by simpa [State.freed, hqp] using hd, .refl d⟩
  registered := by
    intro k q hq hk
    simpa [State.freed, ne_fd_of_not_mem hs hc hp hq hk] using hk
  items := fun _ _ _ _ _ => rfl
  order := fun _ => rfl

end Preserves

theorem RemoveEffect.preserves (hs : Sound s) (hc : s.heap p = some c) (hp : p ∈ touched)
    (h : RemoveEffect env p c s s') : Preserves touched s s' := by
  obtain ⟨l, key, chain, -, -, hchain, rfl⟩ := h
  have hvac := (hs.vacate hc).post l
  have hvacp := hs.vacate_heap_self hc
  have hout : Preserves touched s ((s.vacate p c).post l) :=
    (Preserves.vacate hs hc hp).trans (.post l)
  have hdel : Preserves touched ((s.vacate p c).post l)
      (((s.vacate p c).post l).setBucket (s.bucketOf key) chain) := by
    have hpost : chainDel env ((s.vacate p c).post l) key c.fd
        (((s.vacate p c).post l).hashTable (s.bucketOf key)) = some chain := by
      rw [chainDel_congr (State.post_heap _ l), State.post_hashTable, State.vacate_hashTable]
      exact hchain
    exact .setBucket hvac hvacp hp hpost
  have hfree : Preserves touched _ (State.freed _ p { c with roomid := -1 }) :=
    .freed (hvac.setBucket (s.bucketOf key) chain) hvacp hp
  exact (hout.trans hdel).trans hfree

theorem RemoveEffect.hashTable_sublist (h : RemoveEffect env p c s s') (i : Nat) :
    (s'.hashTable i).Sublist (s.hashTable i) := by
  obtain ⟨l, key, chain, -, -, hchain, rfl⟩ := h
  simp only [State.freed, State.setBucket_hashTable, State.post_hashTable,
    State.vacate_hashTable, Function.update_apply]
  split
  · rename_i hi
    rw [hi]
    exact chainDel_sublist hchain
  · exact .refl _

/-- What a message other than a login changes: its sender, and for a command of an
administrator one client more. -/
def AuthorityKept (c : Client) (p : Addr) (x : Decoded) (s s' : State) : Prop :=
  Preserves [p] s s' ∨
    (c.state = .success ∧ c.type = clientTypeAdmin ∧
      (∃ e, x = .event e ∧ (e.evType = some evTypeAdminCommandGoout ∨
        e.evType = some evTypeAdminCommandShutup)) ∧
      ∃ q, Preserves [p, q] s s')

/-- What a message of a client that is not authenticated does: it is answered to its sender
only, and a logout removes the sender with at most its own items. -/
def OutsiderKept (p : Addr) (fd : Nat) (x : Decoded) (s s' : State) : Prop :=
  (∃ l, s'.sent = s.sent ++ l ∧ ∀ m ∈ l, m.fd = fd) ∧ s'.rooms = s.rooms ∧
    match x with
    | .logout =>
      s'.fdClients = Function.update s.fdClients fd none ∧
        s'.heap = Function.update s.heap p none ∧
        ∀ i, (s'.hashTable i).Sublist (s.hashTable i) ∧
          ∀ k, k ≠ fd → (s'.hashTable i).filter (·.data = k) = (s.hashTable i).filter (·.data = k)
    | _ => s'.fdClients = s.fdClients ∧ s'.heap = s.heap ∧ s'.hashTable = s.hashTable

theorem RemoveEffect.outsider (hs : Sound s) (hc : s.heap p = some c) (hstate : c.state ≠ .success)
    (h : RemoveEffect env p c s s') : OutsiderKept p c.fd .logout s s' := by
  obtain ⟨l, key, chain, hl, -, hchain, rfl⟩ := h
  have hroom := hs.waiting p c hc hstate
  have hvac := State.vacate_eq_self s p c hroom
  have hnil : l = [] := by
    rcases hl with ⟨-, rfl⟩ | ⟨r, name, hr, -⟩
    · rfl
    · omega
  subst hnil
  rw [hvac, State.post_nil]
  refine ⟨⟨[], by simp [State.freed], by simp⟩, rfl, rfl, rfl, ?_⟩
  intro i
  simp only [State.freed, State.setBucket_hashTable, Function.update_apply]
  split
  · rename_i hi
    rw [hi]
    exact ⟨chainDel_sublist hchain, fun k hk => chainDel_filter hchain hk⟩
  · exact ⟨.refl _, fun _ _ => rfl⟩

/-- An event that is not a login. -/
theorem EventEffect.authority (hs : Sound s) (hp : s.heap p = some c)
    (hauth : e.evType ≠ some evTypeAuth) (h : EventEffect lookup env fd e p c s s') :
    AuthorityKept c p (.event e) s s' := by
  cases h with
  | nothing h => exact Or.inl (.of_eq (by rw [h]) (by rw [h]) (by rw [h]) (by rw [h]))
  | auth ht h => exact absurd ht hauth
  | talk hc h =>
    obtain ⟨d, l, -, -, rfl⟩ := h
    exact Or.inl ((Preserves.setClient (List.mem_singleton_self p) d).trans (.post l))
  | changeRoom hc h => exact Or.inl (.join hs hp (List.mem_singleton_self p) h)
  | leaveRoom hc h =>
    obtain ⟨l, -, rfl⟩ := h
    exact Or.inl ((Preserves.vacate hs hp (List.mem_singleton_self p)).trans (.post l))
  | goout hc ht h =>
    cases h with
    | answered l hl h => exact Or.inl (h ▸ .post l)
    | obeyed username q d hadmin hu htarget hq h =>
      obtain ⟨l, -, hrem⟩ := h
      refine Or.inr ⟨hc, hadmin, ⟨e, rfl, Or.inl ht⟩, q, ?_⟩
      exact (Preserves.post l).trans (hrem.preserves (hs.post l) hq (by simp))
  | shutup hc ht h =>
    cases h with
    | answered l hl h => exact Or.inl (h ▸ .post l)
    | obeyed username q d hadmin hu htarget hq h =>
      obtain ⟨type, l, -, -, rfl⟩ := h
      refine Or.inr ⟨hc, hadmin, ⟨e, rfl, Or.inr ht⟩, q, ?_⟩
      exact (Preserves.setClient (by simp) _).trans (.post l)
  | script hc h =>
    obtain ⟨l, rfl, -⟩ := h
    exact Or.inl (.post l)

theorem EventEffect.outsider (hauth : e.evType ≠ some evTypeAuth) (hstate : c.state ≠ .success)
    (h : EventEffect lookup env fd e p c s s') : OutsiderKept p fd (.event e) s s' := by
  cases h with
  | nothing h =>
    rw [h]
    exact ⟨⟨[], by simp, by simp⟩, rfl, rfl, rfl, rfl⟩
  | auth ht h => exact absurd ht hauth
  | script hc h =>
    obtain ⟨l, rfl, hl⟩ := h
    exact ⟨⟨l, rfl, fun m hm => (hl m hm).1⟩, rfl, rfl, rfl, rfl⟩
  | talk hc | changeRoom hc | leaveRoom hc | goout hc | shutup hc => exact absurd hc hstate

theorem parseMessage_authority (hs : Sound s) (hl : lookup.Registered)
    (hfd : s.fdClients fd = some p) (hp : s.heap p = some c) {recvBits : Int} {data : Bytes}
    (hauth : ∀ e, Task.decode env ⟨fd, p, recvBits, data⟩ = .event e →
      e.evType ≠ some evTypeAuth)
    (h : (parseMessage lookup env ⟨fd, p, recvBits, data⟩).run s = some ((), s')) :
    AuthorityKept c p (Task.decode env ⟨fd, p, recvBits, data⟩) s s' ∧
      (c.state ≠ .success →
        OutsiderKept p fd (Task.decode env ⟨fd, p, recvBits, data⟩) s s') := by
  have hcfd : c.fd = fd := by
    obtain ⟨d, hd, hdfd⟩ := hs.registered fd p hfd
    rw [hp] at hd
    cases hd
    exact hdfd
  generalize hdecode : Task.decode env ⟨fd, p, recvBits, data⟩ = x at hauth
  cases x with
  | logout =>
    obtain ⟨y, hdel⟩ := parseMessage_logout hdecode h
    have hrem := nodeDel_effect hs hp hdel
    exact ⟨Or.inl (hrem.preserves hs hp (List.mem_singleton_self p)),
      fun hstate => hcfd ▸ hrem.outsider hs hp hstate⟩
  | undecodable =>
    rw [parseMessage_decode, hdecode] at h
    cases h
    exact ⟨Or.inl (.of_eq rfl rfl rfl rfl), fun _ => ⟨⟨[], by simp, by simp⟩, rfl, rfl, rfl, rfl⟩⟩
  | ping =>
    rw [parseMessage_decode, hdecode] at h
    cases Proc.run_modify_eq_some.mp h
    exact ⟨Or.inl (.post _), fun _ => ⟨⟨_, rfl, by simp⟩, rfl, rfl, rfl, rfl⟩⟩
  | event e =>
    have hauth := hauth e rfl
    rcases parseEvent_effect hs hl hp (parseMessage_event hdecode h) with rfl | heff
    · exact ⟨Or.inl (.of_eq rfl rfl rfl rfl),
        fun _ => ⟨⟨[], by simp, by simp⟩, rfl, rfl, rfl, rfl⟩⟩
    · refine ⟨?_, fun hstate => EventEffect.outsider (s := s.tick env.now) hauth hstate heff⟩
      rcases heff.authority (hs.tick env.now) hp hauth with hkept | ⟨hc, hadmin, hev, q, hkept⟩
      · exact Or.inl ((Preserves.tick env.now).trans hkept)
      · exact Or.inr ⟨hc, hadmin, hev, q, (Preserves.tick env.now).trans hkept⟩

/-- **The authority of a message.** -/
theorem message_authority (h : Reachable s) {recvBits : Int} {data : Bytes}
    (hfd : s.fdClients fd = some p) (hp : s.heap p = some c)
    (hauth : ∀ e, Task.decode env ⟨fd, p, recvBits, data⟩ = .event e →
      e.evType ≠ some evTypeAuth)
    (hrun : (parseMessage (getFdnodeByname env) env ⟨fd, p, recvBits, data⟩).run s =
      some ((), s')) :
    AuthorityKept c p (Task.decode env ⟨fd, p, recvBits, data⟩) s s' ∧
      (c.state ≠ .success →
        OutsiderKept p fd (Task.decode env ⟨fd, p, recvBits, data⟩) s s') :=
  parseMessage_authority h.toAnyLookup.sound (getFdnodeByname_registered env) hfd hp hauth hrun

/-- A client asks to leave its room. -/
def leaveMessage : Packet where
  data := [120, 156, 179, 73, 45, 75, 205, 43, 81, 40, 169, 44, 72, 181, 85, 55, 49, 86, 215, 183,
    3, 0, 59, 246, 5, 160]
  text := CText.ofString "<event type='43'/>"
  event := .ofList [(.type, CText.ofString "43")]

theorem leaveMessage_decode : Task.decode (.delivering 2 leaveMessage)
    ⟨5, 100, 4, leaveMessage.data⟩ = .event leaveMessage.event :=
  decode_packet (by decide +kernel) (by decide +kernel) 2 5 100

/-- Of two guests in the lobby the first leaves. -/
theorem message_authority_leave : ∃ s s' c, Reachable s ∧ s.heap 100 = some c ∧
    (s.rooms 0).rClient = [100, 200] ∧ (s'.rooms 0).rClient = [200] ∧
    AuthorityKept c 100 (.event leaveMessage.event) s s' := by
  have hcheck : (actAll (State.start fun _ => lobbyConf) [connect 5 100, connect 6 200,
      deliver 0 5 guestLogin, deliver 1 6 guestLogin]).any (fun s =>
        s.fdClients 5 = some 100 ∧ (s.heap 100).isSome ∧ (s.rooms 0).rClient = [100, 200] ∧
          ((parseMessage (getFdnodeByname (.delivering 2 leaveMessage))
            (.delivering 2 leaveMessage) ⟨5, 100, 4, leaveMessage.data⟩).run s).any (fun r =>
              (r.2.rooms 0).rClient = [200])) := by
    decide +kernel
  obtain ⟨s, hrun, hs⟩ := (Option.any_eq_true _ _).mp hcheck
  obtain ⟨hfd, hheap, hlist, hleave⟩ := of_decide_eq_true hs
  obtain ⟨c, hc⟩ := Option.isSome_iff_exists.mp hheap
  obtain ⟨⟨u, s'⟩, hrun', hlist'⟩ := (Option.any_eq_true _ _).mp hleave
  have hreach := reachable_of_actAll hrun
  have hkept := message_authority hreach hfd hc (by
    intro e he
    rw [leaveMessage_decode] at he
    cases he
    decide +kernel) hrun'
  rw [leaveMessage_decode] at hkept
  exact ⟨s, s', c, hreach, hc, hlist, of_decide_eq_true hlist', hkept.1⟩

/-- The places in a member list are not kept: the member behind one who leaves moves up. -/
theorem position_not_kept : ¬ ∀ (s s' : State) (env : Env) (fd : Nat) (p : Addr) (recvBits : Int)
    (data : Bytes), Reachable s → s.fdClients fd = some p →
    (∀ e, Task.decode env ⟨fd, p, recvBits, data⟩ = .event e →
      e.evType ≠ some evTypeAuth ∧ e.evType ≠ some evTypeAdminCommandGoout ∧
        e.evType ≠ some evTypeAdminCommandShutup) →
    (parseMessage (getFdnodeByname env) env ⟨fd, p, recvBits, data⟩).run s = some ((), s') →
    ∀ (r : Nat) (q : Addr), q ≠ p → (s'.rooms r).rClient.idxOf q = (s.rooms r).rClient.idxOf q := by
  intro hkept
  have hcheck : (actAll (State.start fun _ => lobbyConf) [connect 5 100, connect 6 200,
      deliver 0 5 guestLogin, deliver 1 6 guestLogin]).any (fun s =>
        s.fdClients 5 = some 100 ∧ (s.rooms 0).rClient.idxOf 200 = 1 ∧
          ((parseMessage (getFdnodeByname (.delivering 2 leaveMessage))
            (.delivering 2 leaveMessage) ⟨5, 100, 4, leaveMessage.data⟩).run s).any (fun r =>
              (r.2.rooms 0).rClient.idxOf 200 = 0)) := by
    decide +kernel
  obtain ⟨s, hrun, hs⟩ := (Option.any_eq_true _ _).mp hcheck
  obtain ⟨hfd, hplace, hleave⟩ := of_decide_eq_true hs
  obtain ⟨⟨u, s'⟩, hrun', hplace'⟩ := (Option.any_eq_true _ _).mp hleave
  have hsame := hkept s s' _ 5 100 4 leaveMessage.data (reachable_of_actAll hrun) hfd (by
    intro e he
    rw [leaveMessage_decode] at he
    cases he
    decide +kernel) hrun' 0 200 (by decide)
  have hzero : (s'.rooms 0).rClient.idxOf 200 = 0 := of_decide_eq_true hplace'
  omega

end ArpgServer
