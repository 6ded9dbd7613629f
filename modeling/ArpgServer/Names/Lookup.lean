import ArpgServer.Effects.Sections
import ArpgServer.Effects.Steps

/-!
# Names and the name table

What the name table depends on: the descriptor, the state and the name of each record, its
face. Quiet steps keep all faces. A lookup walks one chain for the first item of the name, so
it is described by that item.
-/

namespace ArpgServer

open CText

variable {lookup : Lookup} {env : Env} {s s' t : State} {p q : Addr} {c d : Client} {fd : Nat}
  {e : Event} {a : Action} {name : Bytes} {item : HashItem}

/-! ## Faces -/

def Client.face (c : Client) : Nat × FdState × CharArray 64 := (c.fd, c.state, c.username)

/-- Nothing the name table depends on has changed. -/
structure SameFaces (s t : State) : Prop where
  fdClients : t.fdClients = s.fdClients
  hashSize : t.hashSize = s.hashSize
  hashTable : t.hashTable = s.hashTable
  face : ∀ q, (t.heap q).map Client.face = (s.heap q).map Client.face

namespace SameFaces

theorem refl (s : State) : SameFaces s s := ⟨rfl, rfl, rfl, fun _ => rfl⟩

theorem post (s : State) (l : List Send) : SameFaces s (s.post l) := ⟨rfl, rfl, rfl, fun _ => rfl⟩

theorem tick (s : State) (now : Int) : SameFaces s (s.tick now) := ⟨rfl, rfl, rfl, fun _ => rfl⟩

theorem symm (h : SameFaces s t) : SameFaces t s :=
  ⟨h.fdClients.symm, h.hashSize.symm, h.hashTable.symm, fun q => (h.face q).symm⟩

theorem trans (h : SameFaces s t) (h' : SameFaces t s') : SameFaces s s' :=
  ⟨h'.fdClients.trans h.fdClients, h'.hashSize.trans h.hashSize, h'.hashTable.trans h.hashTable,
    fun q => (h'.face q).trans (h.face q)⟩

theorem exists_old (h : SameFaces s t) (hq : t.heap q = some d) :
    ∃ c, s.heap q = some c ∧ c.fd = d.fd ∧ c.state = d.state ∧ c.username = d.username := by
  have hface := h.face q
  rw [hq, Option.map_some] at hface
  obtain ⟨c, hc, heq⟩ := Option.map_eq_some_iff.mp hface.symm
  simp only [Client.face, Prod.mk.injEq] at heq
  exact ⟨c, hc, heq.1, heq.2.1, heq.2.2⟩

theorem bucketOf (h : SameFaces s t) (name : Bytes) : t.bucketOf name = s.bucketOf name := by
  unfold State.bucketOf
  rw [h.hashSize]

theorem of_update (hp : s.heap p = some c) (hface : d.face = c.face)
    (hfd : t.fdClients = s.fdClients) (hsize : t.hashSize = s.hashSize)
    (htable : t.hashTable = s.hashTable) (hheap : t.heap = Function.update s.heap p (some d)) :
    SameFaces s t where
  fdClients := hfd
  hashSize := hsize
  hashTable := htable
  face := by
    intro q
    rw [hheap]
    by_cases hq : q = p
    · subst hq
      rw [Function.update_self, hp, Option.map_some, Option.map_some, hface]
    · rw [Function.update_of_ne hq]

theorem vacate (hs : Sound s) (hp : s.heap p = some c) : SameFaces s (s.vacate p c) :=
  of_update hp (d := { c with roomid := -1 }) rfl (by simp) (by simp) (by simp)
    (hs.vacate_heap hp)

end SameFaces

theorem QuietStep.sameFaces (hs : Sound s) (h : QuietStep env s s') : SameFaces s s' := by
  cases h with
  | clock now => exact .tick s now
  | talk p c d l hp hd hl =>
    refine .of_update hp (d := d) ?_ rfl rfl rfl rfl
    simp only [Client.face, hd.fd, hd.state, hd.username]
  | script p c l hp hc hl => exact .post s l
  | leave p c l hp hl => exact (SameFaces.vacate hs hp).trans (.post _ l)
  | enter p c r l hp hroom hc hr hen hl =>
    exact .of_update hp (d := { c with roomid := (r : Int) }) rfl rfl rfl rfl rfl

theorem Quiet.sameFaces (hs : Sound s) (h : Quiet env s s') : SameFaces s s' := by
  induction h with
  | refl => exact .refl s
  | tail hq hstep ih => exact ih.trans (hstep.sameFaces (Quiet.sound hs hq))

/-- A removal takes one record away and keeps the other faces. -/
theorem RemoveEffect.exists_old (hs : Sound s) (hp : s.heap p = some c)
    (h : RemoveEffect env p c s s') (hq : s'.heap q = some d) :
    q ≠ p ∧ ∃ d₀, s.heap q = some d₀ ∧ d₀.fd = d.fd ∧ d₀.state = d.state ∧
      d₀.username = d.username := by
  obtain ⟨l, key, chain, -, -, -, rfl⟩ := h
  by_cases hqp : q = p
  · subst hqp
    simp [State.freed] at hq
  · refine ⟨hqp, (SameFaces.vacate hs hp).exists_old ?_⟩
    simpa [State.freed, hqp] using hq

/-- A session that is authenticated after the search for a rival was so before, and is not the
one that was displaced. -/
theorem RivalEffect.exists_old (hs : Sound s) {node : Option Addr}
    (h : RivalEffect env node s s') (hq : s'.heap q = some d) (hd : d.state = .success) :
    node ≠ some q ∧ ∃ c, s.heap q = some c ∧ c.state = .success ∧ c.username = d.username := by
  rcases h with ⟨rfl, rfl⟩ | ⟨q', d', rfl, hq', ⟨hne, rfl⟩ | ⟨hd', l, -, rfl⟩⟩
  · exact ⟨by simp, d, hq, hd, rfl⟩
  · refine ⟨?_, d, hq, hd, rfl⟩
    intro heq
    cases heq
    rw [hq] at hq'
    cases hq'
    exact hne hd
  · have hqq : q ≠ q' := by
      rintro rfl
      have hwait : d = { d' with roomid := -1, state := .wait } := by simpa using hq.symm
      rw [hwait] at hd
      cases hd
    refine ⟨by simpa using fun h => hqq h.symm, ?_⟩
    have hold : s.heap q = some d := by simpa [hs.vacate_heap hq', hqq] using hq
    exact ⟨d, hold, hd, rfl⟩

/-! ## Lookups -/

theorem keyIs_of_username (h : (t.heap item.key).map Client.username =
    (s.heap item.key).map Client.username) : keyIs env t item name = keyIs env s item name := by
  unfold keyIs
  cases hs : s.heap item.key with
  | none =>
    rw [hs] at h
    rw [Option.map_eq_none_iff.mp h]
  | some c =>
    rw [hs] at h
    obtain ⟨d, hd, heq⟩ := Option.map_eq_some_iff.mp h
    simp only [hd, heq]

theorem SameFaces.keyIs (h : SameFaces s t) (item : HashItem) (name : Bytes) :
    keyIs env t item name = keyIs env s item name := by
  apply keyIs_of_username
  have hface := congrArg (Option.map fun face => face.2.2) (h.face item.key)
  rwa [Option.map_map, Option.map_map] at hface

theorem chainFrom_bind_fdByName (name : Bytes) (ufd : Int) (chain : List HashItem) :
    (chainFrom env s name chain).bind (fdByName env s name ufd) =
      fdByName env s name ufd chain := by
  induction chain with
  | nil => rfl
  | cons item rest ih =>
    simp only [chainFrom, fdByName]
    cases hkey : keyIs env s item name with
    | none => rfl
    | some same =>
      cases same with
      | false => simpa using ih
      | true => simp [fdByName, hkey]

/-- The lookup finds the descriptor of the first item of the name in its chain. -/
theorem getFdnodeByname_eq (hsize : 0 < s.hashSize) (name : Bytes) (ufd : Int) :
    getFdnodeByname env s name ufd =
      (fdByName env s name ufd (s.hashTable (s.bucketOf name))).map
        fun fd => fd.bind s.fdClients := by
  unfold getFdnodeByname hashSearch
  rw [if_pos hsize, ← chainFrom_bind_fdByName]
  cases chainFrom env s name (s.hashTable (s.bucketOf name)) <;> rfl

theorem targetOf_tick (target : Bytes) (now : Int) :
    targetOf (getFdnodeByname env) env p c target (s.tick now) =
      targetOf (getFdnodeByname env) env p c target s := by
  rw [targetOf, targetOf, getFdnodeByname_congr (s := s) (t := s.tick now) rfl rfl rfl rfl]

theorem fdByName_item {ufd : Int} {chain : List HashItem}
    (h : fdByName env s name ufd chain = some (some fd)) :
    ∃ item ∈ chain, item.data = fd ∧ keyIs env s item name = some true := by
  induction chain with
  | nil => cases h
  | cons item rest ih =>
    obtain ⟨same, hsame, h⟩ := Option.bind_eq_some_iff.mp h
    split at h
    · rename_i hfound
      cases h
      exact ⟨item, List.mem_cons_self, rfl, by rw [hsame, hfound.1]⟩
    · obtain ⟨item', hmem, hitem⟩ := ih h
      exact ⟨item', List.mem_cons_of_mem _ hmem, hitem⟩

theorem getFdnodeByname_item (hsize : 0 < s.hashSize) {ufd : Int}
    (h : getFdnodeByname env s name ufd = some (some q)) :
    ∃ item ∈ s.hashTable (s.bucketOf name),
      keyIs env s item name = some true ∧ s.fdClients item.data = some q := by
  rw [getFdnodeByname_eq hsize] at h
  obtain ⟨found, hfound, h⟩ := Option.map_eq_some_iff.mp h
  obtain ⟨fd, rfl, hfd⟩ := Option.bind_eq_some_iff.mp h
  obtain ⟨item, hmem, rfl, hkey⟩ := fdByName_item hfound
  exact ⟨item, hmem, hkey, hfd⟩

/-- The first item of the name that is not at the descriptor `fd` leads to the client `q`. -/
def LeadsTo (env : Env) (s : State) (name : Bytes) (fd : Nat) (q : Addr) : Prop :=
  ∃ before item after, s.hashTable (s.bucketOf name) = before ++ item :: after ∧
    (∀ x ∈ before, keyIs env s x name = some false ∨
      (keyIs env s x name = some true ∧ x.data = fd)) ∧
    keyIs env s item name = some true ∧ item.data ≠ fd ∧ s.fdClients item.data = some q

theorem LeadsTo.found (hsize : 0 < s.hashSize) (h : LeadsTo env s name fd q) :
    getFdnodeByname env s name fd = some (some q) := by
  obtain ⟨before, item, after, hchain, hbefore, hkey, hne, hq⟩ := h
  rw [getFdnodeByname_eq hsize, hchain]
  have hwalk : fdByName env s name fd (before ++ item :: after) = some (some item.data) := by
    clear hchain
    induction before with
    | nil =>
      have : (item.data : Int) ≠ fd := by omega
      simp [fdByName, hkey, this]
    | cons x before ih =>
      have ih := ih fun y hy => hbefore y (List.mem_cons_of_mem x hy)
      have hfd : ¬ (fd : Int) < 0 := by omega
      rcases hbefore x List.mem_cons_self with hx | ⟨hx, hxfd⟩
      · simpa [fdByName, hx] using ih
      · simp only [List.cons_append, fdByName, hx, Option.bind_some, hxfd, ne_eq,
          not_true_eq_false, or_false, hfd, and_false, if_false]
        exact ih
  rw [hwalk, Option.map_some, Option.bind_some, hq]

theorem LeadsTo.of_sameFaces (hst : SameFaces s t) (h : LeadsTo env s name fd q) :
    LeadsTo env t name fd q := by
  obtain ⟨before, item, after, hchain, hbefore, hkey, hne, hq⟩ := h
  refine ⟨before, item, after, ?_, ?_, ?_, hne, ?_⟩
  · rw [hst.hashTable, hst.bucketOf, hchain]
  · intro x hx
    rw [hst.keyIs]
    exact hbefore x hx
  · rw [hst.keyIs, hkey]
  · rw [hst.fdClients, hq]

/-- The action is a login of the client at `p`, not authenticated and with the record `c`,
whose checks end with `out`. -/
def ChecksEnd (env : Env) (s : State) (a : Action) (p : Addr) (c : Client) (out : AuthOutcome) :
    Prop :=
  ∃ fd recvBits data e, a = .task fd recvBits data ∧ s.fdClients fd = some p ∧
    s.heap p = some c ∧ Task.decode env ⟨fd, p, recvBits, data⟩ = .event e ∧
    e.evType = some evTypeAuth ∧ c.state ≠ .success ∧ authCredentials env env.now c e = some out

/-- The search for a rival leaves the descriptors and the size of the name table alone. -/
theorem RivalEffect.frame {node : Option Addr} (h : RivalEffect env node s t) :
    t.fdClients = s.fdClients ∧ t.hashSize = s.hashSize := by
  rcases h with ⟨-, rfl⟩ | ⟨q, d, -, -, ⟨-, rfl⟩ | ⟨-, l, -, rfl⟩⟩ <;> simp

/-- So does a login. -/
theorem AuthEffect.frame (hs : Sound s) (hp : s.heap p = some c)
    (h : AuthEffect lookup env fd e p c s s') :
    s'.fdClients = s.fdClients ∧ s'.hashSize = s.hashSize := by
  cases h with
  | already hc h =>
    rw [h]
    exact ⟨rfl, rfl⟩
  | refused d why hc hd h =>
    rw [h]
    exact ⟨rfl, rfl⟩
  | passed c' d name node t hc hpass hd hname hnode hrival hjoin =>
    obtain ⟨hst, hpt⟩ := hrival.waiting hs hp hc (passed_sameSession hpass hd)
    have ht := hrival.frame
    obtain ⟨hlogin, hquiet⟩ := hjoin.afterLogin hst hpt
    have hsame := hquiet.sameFaces hlogin
    exact ⟨hsame.fdClients.trans ht.1, hsame.hashSize.trans ht.2⟩

theorem ActEffect.hashSize_eq (hs : Sound s) (h : ActEffect lookup env s a s') :
    s'.hashSize = s.hashSize := by
  cases h with
  | quiet h => exact (h.sameFaces hs).hashSize
  | accept fd node hfd hnode h =>
    rw [h]
  | remove t q d ht hq h =>
    obtain ⟨l, key, chain, -, -, -, rfl⟩ := h
    simpa [State.freed] using (ht.sameFaces hs).hashSize
  | auth fd recvBits data p c e ha hfd hp hdecode ht h =>
    exact (AuthEffect.frame (s := s.tick env.now) (hs.tick env.now) hp h).2

/-- The name table keeps its size. -/
theorem Runs.hashSize_pos (h : Runs anyLookup s) : 0 < s.hashSize := by
  have hrun := h.invariant (I := fun s => Sound s ∧ 0 < s.hashSize) ?_ ?_
  · exact hrun.2
  · intro conf
    have hpos : 0 < maxUsers := by decide
    exact ⟨Sound.start conf, hpos⟩
  · intro lookup env s a s' ⟨hs, hsize⟩ hl hact
    have heff := act_effect hs hl hact
    exact ⟨heff.sound hs, by rwa [heff.hashSize_eq hs]⟩

theorem guestLogin_passed {out : AuthOutcome} {t : Int}
    (h : authCredentials env t c guestLogin.event = some out) :
    out = .passed (authAnonymous c t) := by
  have hguest : guestLogin.event.isAnonymous = true := by decide +kernel
  rw [authCredentials, if_pos hguest] at h
  exact (Option.some.inj h).symm

theorem authAnonymous_terminated (c : Client) (t : Int) :
    (authAnonymous c t).username.terminated = true :=
  CharArray.terminated_snprintf _ _ (by decide) le_rfl

/-- The checks of a guest's login end well. -/
theorem guestLogin_checks {now : Int} {k : Nat} {out : AuthOutcome}
    (h : ChecksEnd (.delivering now guestLogin) s (deliver now k guestLogin).2 p c out) :
    s.fdClients k = some p ∧ s.heap p = some c ∧ out = .passed (authAnonymous c now) := by
  obtain ⟨fd, recvBits, data, e, ha, hfd, hp, hdecode, -, -, hout⟩ := h
  cases ha
  rw [guestLogin_decode] at hdecode
  cases hdecode
  exact ⟨hfd, hp, guestLogin_passed hout⟩

/-- No checks are made when a client connects. -/
theorem connect_checks {k : Nat} {node : Addr} {out : AuthOutcome} :
    ¬ ChecksEnd env s (connect k node).2 p c out := by
  rintro ⟨_, _, _, _, ha, -⟩
  cases ha

/-- Every client of a given run has connected in it. -/
theorem actAll_take_heap {conf : Nat → RoomConf} {acts : List (Env × Action)} {i : Nat}
    (h : actAll (State.start conf) (acts.take i) = some s) (hq : s.heap q = some d) :
    ∃ env fd, (env, .accept fd q) ∈ acts := by
  rcases actAll_heap_old h hq with ⟨c, hc⟩ | ⟨env, fd, hmem⟩
  · cases hc
  · exact ⟨env, fd, List.mem_of_mem_take hmem⟩

/-- Two guests of one name. -/
def twoGuests : List (Env × Action) :=
  [connect 5 100, connect 6 200, deliver 0 5 guestLogin, deliver 0 6 guestLogin]

theorem twoGuests_heap {conf : Nat → RoomConf} {i : Nat}
    (h : actAll (State.start conf) (twoGuests.take i) = some s) (hq : s.heap q = some d) :
    q = 100 ∨ q = 200 := by
  obtain ⟨env, fd, hmem⟩ := actAll_take_heap h hq
  simp only [twoGuests, connect, deliver, List.mem_cons, Prod.mk.injEq, Action.accept.injEq,
    reduceCtorEq, and_false, List.not_mem_nil, or_false] at hmem
  exact hmem.imp (fun h => h.2.2) fun h => h.2.2

end ArpgServer
