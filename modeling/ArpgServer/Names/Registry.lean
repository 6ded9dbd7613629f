import ArpgServer.Names.Lookup

/-!
# The items of the name table

An item points to the name in a client's record, which a later login may rewrite, and a
client that logs in again is given another item. As long as only clients without an item log
in, every item belongs to a registered client, lies in the bucket of its name and is its only
one.
-/

namespace ArpgServer

open CText

variable {lookup : Lookup} {env : Env} {s s' t : State} {p q : Addr} {c d : Client}
  {a : Action} {item item' : HashItem} {i j : Nat} {name : Bytes}

/-- What the name table and the registered clients say about each other. -/
structure RegistryConsistent (s : State) : Prop where
  owner : ∀ i item, item ∈ s.hashTable i →
    ∃ c, s.fdClients item.data = some item.key ∧ s.heap item.key = some c ∧ c.fd = item.data
  bucket : ∀ i item c, item ∈ s.hashTable i → s.heap item.key = some c →
    i = bkdrHash c.username.text % s.hashSize
  unique : ∀ i j item item', item ∈ s.hashTable i → item' ∈ s.hashTable j → item.key = item'.key →
    i = j ∧ item = item' ∧ (s.hashTable i).count item = 1

/-- Every item belongs to a client whose name ends inside its array and hashes to the bucket,
and is listed once. -/
structure Registry (s : State) : Prop where
  owner : ∀ i item, item ∈ s.hashTable i → ∃ c, s.heap item.key = some c ∧ c.fd = item.data ∧
    c.username.terminated = true ∧ i = s.bucketOf c.username.text
  nodup : ∀ i, (s.hashTable i).Nodup

/-- The client has no item. -/
def Unlisted (s : State) (p : Addr) : Prop := ∀ i item, item ∈ s.hashTable i → item.key ≠ p

/-- Only a client without an item passes the checks of a login, under a name that ends inside
its array; a client with an item keeps its bucket when its login is refused. -/
def ListedOnce (env : Env) (s : State) (a : Action) : Prop :=
  ∀ p c out, ChecksEnd env s a p c out →
    match out with
    | .passed c' => Unlisted s p ∧ c'.username.terminated = true
    | .refused c' _ => Unlisted s p ∨ (c'.username.terminated = true ∧
        s.bucketOf c'.username.text = s.bucketOf c.username.text)

namespace Registry

theorem start (conf : Nat → RoomConf) : Registry (State.start conf) where
  owner := by
    intro i item hmem
    cases hmem
  nodup := fun _ => List.nodup_nil

/-- An item is determined by its client. -/
theorem eq_of_key (h : Registry s) (hi : item ∈ s.hashTable i) (hj : item' ∈ s.hashTable j)
    (hkey : item.key = item'.key) : i = j ∧ item = item' := by
  obtain ⟨c, hc, hfd, -, hbucket⟩ := h.owner i item hi
  obtain ⟨c', hc', hfd', -, hbucket'⟩ := h.owner j item' hj
  rw [hkey, hc'] at hc
  cases hc
  refine ⟨hbucket.trans hbucket'.symm, ?_⟩
  cases item
  cases item'
  simp only [HashItem.mk.injEq]
  exact ⟨hkey, hfd.symm.trans hfd'⟩

theorem consistent (hs : Sound s) (h : Registry s) : RegistryConsistent s where
  owner := by
    intro i item hmem
    obtain ⟨c, hc, hfd, -, -⟩ := h.owner i item hmem
    exact ⟨c, hfd ▸ hs.current item.key c hc, hc, hfd⟩
  bucket := by
    intro i item c hmem hc
    obtain ⟨d, hd, -, -, hbucket⟩ := h.owner i item hmem
    rw [hc] at hd
    cases hd
    exact hbucket
  unique := by
    intro i j item item' hi hj hkey
    obtain ⟨hij, heq⟩ := h.eq_of_key hi hj hkey
    exact ⟨hij, heq, List.count_eq_one_of_mem (h.nodup i) hi⟩

/-- The clients with an item keep their descriptors and the buckets of their names. -/
theorem of_names (h : Registry s) (htable : t.hashTable = s.hashTable)
    (hheap : ∀ q c, ¬ Unlisted s q → s.heap q = some c → c.username.terminated = true →
      ∃ d, t.heap q = some d ∧ d.fd = c.fd ∧ d.username.terminated = true ∧
        t.bucketOf d.username.text = s.bucketOf c.username.text) : Registry t where
  owner := by
    intro i item hmem
    rw [htable] at hmem
    obtain ⟨c, hc, hfd, hterm, hbucket⟩ := h.owner i item hmem
    have hlisted : ¬ Unlisted s item.key := fun hno => hno i item hmem rfl
    obtain ⟨d, hd, hdfd, hdterm, hdbucket⟩ := hheap item.key c hlisted hc hterm
    exact ⟨d, hd, hdfd.trans hfd, hdterm, hbucket.trans hdbucket.symm⟩
  nodup := by
    rw [htable]
    exact h.nodup

theorem of_sameFaces (h : Registry s) (hst : SameFaces s t) : Registry t := by
  refine h.of_names hst.hashTable fun q c _ hq hterm => ?_
  obtain ⟨d, hd, hfd, -, hname⟩ := hst.symm.exists_old hq
  exact ⟨d, hd, hfd, by rwa [hname], by rw [hname, hst.bucketOf]⟩

theorem rename (h : Registry s) (hp : s.heap p = some c) (hfd : d.fd = c.fd)
    (hname : Unlisted s p ∨ (d.username.terminated = true ∧
      s.bucketOf d.username.text = s.bucketOf c.username.text)) : Registry (s.setClient p d) := by
  refine h.of_names rfl fun q e hlisted hq hterm => ?_
  by_cases hqp : q = p
  · subst hqp
    rw [hp] at hq
    cases hq
    obtain ⟨hdterm, hbucket⟩ := hname.resolve_left hlisted
    exact ⟨d, by simp, hfd, hdterm, hbucket⟩
  · exact ⟨e, by simpa [hqp] using hq, rfl, hterm, rfl⟩

theorem rival {node : Option Addr} (hs : Sound s) (h : Registry s)
    (hrival : RivalEffect env node s s') : Registry s' := by
  rcases hrival with ⟨-, rfl⟩ | ⟨q, d, -, hq, ⟨-, rfl⟩ | ⟨-, l, -, rfl⟩⟩
  · exact h
  · exact h
  · refine h.of_names (by simp) fun q' c _ hq' hterm => ?_
    by_cases hqq : q' = q
    · subst hqq
      rw [hq] at hq'
      cases hq'
      exact ⟨{ d with roomid := -1, state := .wait }, by simp, rfl, hterm, by simp [State.bucketOf]⟩
    · exact ⟨c, by simpa [hs.vacate_heap hq, hqq] using hq', rfl, hterm, by simp [State.bucketOf]⟩

/-- A client without an item is listed. -/
theorem add (h : Registry s) (hp : s.heap p = some c) (hterm : c.username.terminated = true)
    (hno : Unlisted s p) :
    Registry (s.setBucket (s.bucketOf c.username.text)
      (s.hashTable (s.bucketOf c.username.text) ++ [⟨p, c.fd⟩])) where
  owner := by
    intro i item hmem
    rw [State.setBucket_hashTable, Function.update_apply] at hmem
    split at hmem
    · rename_i hi
      rcases List.mem_append.mp hmem with hmem | hmem
      · rw [hi]
        exact h.owner _ item hmem
      · rw [List.mem_singleton.mp hmem]
        exact ⟨c, hp, rfl, hterm, hi⟩
    · exact h.owner i item hmem
  nodup := by
    intro i
    rw [State.setBucket_hashTable, Function.update_apply]
    split
    · refine (h.nodup _).append (List.nodup_singleton _) ?_
      rw [List.disjoint_singleton]
      exact fun hmem => hno _ _ hmem rfl
    · exact h.nodup i

/-- A deletion takes the client's own item out of the chain of its name. -/
theorem chainDel_eq_erase (hs : Sound s) (h : Registry s) (hp : s.heap p = some c)
    {chain rest : List HashItem} (hchain : ∀ item ∈ chain, item ∈ s.hashTable i)
    (hread : c.username.read (env.overrun p .username) = some name)
    (hdel : chainDel env s name c.fd chain = some rest) : rest = chain.erase ⟨p, c.fd⟩ := by
  induction chain generalizing rest with
  | nil =>
    cases hdel
    rfl
  | cons item chain ih =>
    obtain ⟨e, he, hefd, hterm, -⟩ := h.owner i item (hchain item List.mem_cons_self)
    obtain ⟨same, hsame, hdel⟩ := Option.bind_eq_some_iff.mp hdel
    split at hdel
    · rename_i hfound
      cases hdel
      have hkey : item.key = p := hs.eq_of_fd he hp (hefd.trans hfound.2)
      have hitem : item = ⟨p, c.fd⟩ := by
        cases item
        simp only [HashItem.mk.injEq]
        exact ⟨hkey, hfound.2⟩
      rw [hitem, List.erase_cons_head]
    · rename_i hkept
      obtain ⟨rest', hrest, rfl⟩ := Option.map_eq_some_iff.mp hdel
      have hne : item ≠ ⟨p, c.fd⟩ := by
        rintro rfl
        rw [hp] at he
        cases he
        rw [CharArray.read_of_terminated hterm] at hread
        cases hread
        simp only [keyIs, hp, CharArray.strcmp_of_terminated hterm, beq_self_eq_true,
          Option.some.injEq] at hsame
        exact hkept ⟨hsame.symm, rfl⟩
      rw [List.erase_cons_tail (by simpa using hne),
        ih (fun x hx => hchain x (List.mem_cons_of_mem item hx)) hrest]

theorem remove (hs : Sound s) (h : Registry s) (hp : s.heap p = some c)
    (hrem : RemoveEffect env p c s s') : Registry s' := by
  obtain ⟨l, key, chain, -, hkey, hchain, rfl⟩ := hrem
  have hvac := SameFaces.vacate hs hp
  have hv := h.of_sameFaces hvac
  have hvacp := hs.vacate_heap_self hp
  have herase : chain = (s.hashTable (s.bucketOf key)).erase ⟨p, c.fd⟩ :=
    hv.chainDel_eq_erase (hs.vacate hp) (c := { c with roomid := -1 }) hvacp
      (fun item hmem => by simpa using hmem) hkey hchain
  have htable : ∀ i,
      ((((s.vacate p c).post l).setBucket (s.bucketOf key) chain).freed p c).hashTable i =
      if i = s.bucketOf key then (s.hashTable i).erase ⟨p, c.fd⟩ else s.hashTable i := by
    intro i
    simp only [State.freed, State.setBucket_hashTable, State.post_hashTable,
      State.vacate_hashTable, Function.update_apply]
    split
    · rename_i hi
      rw [herase, hi]
    · rfl
  refine ⟨?_, ?_⟩
  · intro i item hmem
    rw [htable] at hmem
    have hold : item ∈ s.hashTable i := by
      split at hmem
      · exact List.mem_of_mem_erase hmem
      · exact hmem
    obtain ⟨e, he, hefd, hterm, hbucket⟩ := h.owner i item hold
    have hne : item.key ≠ p := by
      intro heq
      rw [heq, hp] at he
      cases he
      rw [CharArray.read_of_terminated hterm] at hkey
      cases hkey
      rw [if_pos hbucket] at hmem
      have hitem : item ≠ ⟨p, c.fd⟩ := ((h.nodup i).mem_erase_iff.mp hmem).1
      apply hitem
      cases item
      simp only [HashItem.mk.injEq]
      exact ⟨heq, hefd.symm⟩
    refine ⟨e, ?_, hefd, hterm, ?_⟩
    · simpa [State.freed, hne, hs.vacate_heap hp] using he
    · simpa [State.bucketOf, State.freed] using hbucket
  · intro i
    rw [htable]
    split
    · exact (h.nodup i).erase _
    · exact h.nodup i

theorem accept (h : Registry s) (hp : s.heap p = none) (fd : Nat) :
    Registry { s with
      fdClients := Function.update s.fdClients fd (some p)
      heap := Function.update s.heap p (some (newClient fd s.mytimestamp)) } := by
  refine h.of_names rfl fun q c _ hq hterm => ?_
  have hqp : q ≠ p := by
    rintro rfl
    rw [hp] at hq
    cases hq
  exact ⟨c, by simpa [hqp] using hq, rfl, hterm, rfl⟩

end Registry

theorem AuthEffect.registry {fd : Nat} {e : Event} (hs : Sound s) (hp : s.heap p = some c)
    (h : Registry s)
    (honce : c.state ≠ .success → ∀ out, authCredentials env s.mytimestamp c e = some out →
      match out with
      | .passed c' => Unlisted s p ∧ c'.username.terminated = true
      | .refused c' _ => Unlisted s p ∨ (c'.username.terminated = true ∧
          s.bucketOf c'.username.text = s.bucketOf c.username.text))
    (hauth : AuthEffect lookup env fd e p c s s') : Registry s' := by
  cases hauth with
  | already hc hs' =>
    rw [hs']
    exact h.of_sameFaces (.post s _)
  | refused d why hc hd hs' =>
    rw [hs']
    exact (h.rename hp (authCredentials_client hd).fd (honce hc _ hd)).of_sameFaces (.post _ _)
  | passed c' d name node t hc hpass hd hname hnode hrival hjoin =>
    have hsame : c.SameSession d := passed_sameSession hpass hd
    obtain ⟨hno, hterm⟩ := honce hc _ hpass
    have hterm : d.username.terminated = true := by rwa [hd, setCharacter_username]
    obtain ⟨hst, hpt⟩ := hrival.waiting hs hp hc hsame
    have ht : Registry t :=
      (h.rename hp hsame.fd (Or.inl hno)).rival (hs.setWaiting hp hc hsame) hrival
    have hnot : Unlisted t p := by
      have htable : t.hashTable = s.hashTable := by
        rcases hrival with ⟨-, rfl⟩ | ⟨q, d', -, -, ⟨-, rfl⟩ | ⟨-, l, -, rfl⟩⟩ <;> simp
      unfold Unlisted
      rw [htable]
      exact hno
    rw [CharArray.read_of_terminated hterm] at hname
    cases hname
    have hadd := ht.add hpt hterm hnot
    have hlogin : Registry (t.login p d d.username.text (luaGetuserrole env d.username.text)) :=
      hadd.rename hpt rfl (Or.inr ⟨hterm, rfl⟩)
    obtain ⟨hpost, hquiet⟩ := hjoin.afterLogin hst hpt
    exact (hlogin.of_sameFaces (.post _ _)).of_sameFaces (hquiet.sameFaces hpost)

theorem ActEffect.registry (hs : Sound s) (h : Registry s) (honce : ListedOnce env s a)
    (hact : ActEffect lookup env s a s') : Registry s' := by
  cases hact with
  | quiet hq => exact h.of_sameFaces (hq.sameFaces hs)
  | accept fd node hfd hnode hs' =>
    rw [hs']
    exact h.accept hnode fd
  | remove t q d ht hq hrem => exact (h.of_sameFaces (ht.sameFaces hs)).remove (ht.sound hs) hq hrem
  | auth fd recvBits data p c e ha hfd hp hdecode ht hauth =>
    refine hauth.registry (hs.tick env.now) hp (h.of_sameFaces (.tick s env.now)) ?_
    intro hc out hout
    exact honce p c out ⟨fd, recvBits, data, e, ha, hfd, hp, hdecode, ht, hc, hout⟩

theorem Runs.registry {cond : Env → State → Action → Prop} (h : Runs (byTable cond) s)
    (hcond : ∀ env s a, cond env s a → ListedOnce env s a) : Sound s ∧ Registry s := by
  refine h.invariant (I := fun s => Sound s ∧ Registry s)
    (fun conf => ⟨Sound.start conf, Registry.start conf⟩) ?_
  rintro lookup env s a s' ⟨hs, hreg⟩ ⟨rfl, hc⟩ hact
  have heff := act_effect hs (getFdnodeByname_registered env) hact
  exact ⟨heff.sound hs, heff.registry hs hreg (hcond env s a hc)⟩

/-- **Registry consistency**, in the runs in which only clients without an item log in. -/
theorem registryConsistent_of_runs (h : Runs (byTable ListedOnce) s) : RegistryConsistent s := by
  obtain ⟨hs, hreg⟩ := h.registry fun _ _ _ h => h
  exact hreg.consistent hs

/-- The items of a client are in the bucket of its name. -/
theorem Registry.unlisted (h : Registry s) (hp : s.heap p = some c)
    (hno : (s.hashTable (s.bucketOf c.username.text)).all fun item => item.key ≠ p) :
    Unlisted s p := by
  rintro i item hmem rfl
  obtain ⟨d, hd, -, -, rfl⟩ := h.owner i item hmem
  rw [hp] at hd
  cases hd
  exact of_decide_eq_true (List.all_eq_true.mp hno item hmem) rfl

/-- Both logins are of clients without an item. -/
theorem twoGuests_listedOnce {t : State} {i : Nat} (hi : i < twoGuests.length)
    (ht : actAll (State.start fun _ => lobbyConf) (twoGuests.take i) = some t)
    (hreg : Registry t) : ListedOnce twoGuests[i].1 t twoGuests[i].2 := by
  intro p c out hends
  have hlen : i < 4 := hi
  rcases i with _ | _ | _ | _ | i
  · exact (connect_checks hends).elim
  · exact (connect_checks hends).elim
  · have hcheck : (actAll (State.start fun _ => lobbyConf) (twoGuests.take 2)).all (fun t =>
        t.fdClients 5 = some 100 ∧ (t.heap 100).all fun c =>
          (t.hashTable (t.bucketOf c.username.text)).all fun item => item.key ≠ 100) := by
      decide +kernel
    rw [ht, Option.all_some] at hcheck
    obtain ⟨h5, hno⟩ := of_decide_eq_true hcheck
    obtain ⟨hfd, hp, rfl⟩ := guestLogin_checks hends
    rw [h5] at hfd
    cases hfd
    rw [hp, Option.all_some] at hno
    exact ⟨hreg.unlisted hp hno, authAnonymous_terminated c _⟩
  · have hcheck : (actAll (State.start fun _ => lobbyConf) (twoGuests.take 3)).all (fun t =>
        t.fdClients 6 = some 200 ∧ (t.heap 200).all fun c =>
          (t.hashTable (t.bucketOf c.username.text)).all fun item => item.key ≠ 200) := by
      decide +kernel
    rw [ht, Option.all_some] at hcheck
    obtain ⟨h6, hno⟩ := of_decide_eq_true hcheck
    obtain ⟨hfd, hp, rfl⟩ := guestLogin_checks hends
    rw [h6] at hfd
    cases hfd
    rw [hp, Option.all_some] at hno
    exact ⟨hreg.unlisted hp hno, authAnonymous_terminated c _⟩
  · omega

/-- The second guest's item stands behind that of the first one. -/
theorem registryConsistent_of_runs_guests : ∃ s,
    actAll (State.start fun _ => lobbyConf) twoGuests = some s ∧
      s.hashTable (s.bucketOf (guestName 0)) = [⟨100, 5⟩, ⟨200, 6⟩] ∧ RegistryConsistent s := by
  have hcheck : (actAll (State.start fun _ => lobbyConf) twoGuests).any (fun s =>
      s.hashTable (s.bucketOf (guestName 0)) = [⟨100, 5⟩, ⟨200, 6⟩]) := by
    decide +kernel
  obtain ⟨s, hrun, hs⟩ := (Option.any_eq_true _ _).mp hcheck
  refine ⟨s, hrun, of_decide_eq_true hs, registryConsistent_of_runs (runs_of_takes ?_ hrun)⟩
  intro i hi t ht hruns
  exact ⟨rfl, twoGuests_listedOnce hi ht (hruns.registry fun _ _ _ h => h).2⟩

/-- A guest who is displaced, logs in again and leaves: the second item stays behind. -/
theorem registryConsistent_not_kept : ¬ ∀ s, Reachable s → RegistryConsistent s := by
  intro hcons
  have hcheck : (actAll (State.start fun _ => lobbyConf) [connect 5 100, connect 6 200,
      deliver 0 5 guestLogin, deliver 0 6 guestLogin, deliver 0 5 guestLogin, hangUp 5]).any
        (fun s => s.fdClients 5 = none ∧
          (⟨100, 5⟩ : HashItem) ∈ s.hashTable (s.bucketOf (guestName 0))) := by
    decide +kernel
  obtain ⟨s, hrun, hs⟩ := (Option.any_eq_true _ _).mp hcheck
  obtain ⟨hfd, hmem⟩ := of_decide_eq_true hs
  obtain ⟨c, hc, -⟩ := (hcons s (reachable_of_actAll hrun)).owner _ _ hmem
  rw [hfd] at hc
  cases hc

end ArpgServer
