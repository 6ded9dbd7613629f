import ArpgServer.Messages.Authority
import ArpgServer.Names.Registry
import ArpgServer.Names.Session

/-!
# Who is reached under a name

A displaced session keeps its item in front of the one that displaced it, so the name leads
to the wrong client from then on. In the runs in which no login takes a name that is in use,
the items are those of the authenticated clients, and a private message or a command reaches
the client that is authenticated under the name it gives.
-/

namespace ArpgServer

open CText

variable {lookup : Lookup} {env : Env} {s s' t : State} {p q : Addr} {c d : Client} {fd : Nat}
  {e : Event} {a : Action} {item : HashItem} {name : Bytes}

/-- The registered client `q` is authenticated under the name. -/
def AuthenticatedAs (s : State) (name : Bytes) (q : Addr) : Prop :=
  ∃ k d, s.fdClients k = some q ∧ s.heap q = some d ∧ d.state = .success ∧ d.username.text = name

/-- No login takes a name that another client is authenticated under, nor one that has no end
inside its array. -/
def FreshName (env : Env) (s : State) (a : Action) : Prop :=
  ∀ p c c', ChecksEnd env s a p c (.passed c') → c'.username.terminated = true ∧
    ∀ q d, q ≠ p → s.heap q = some d → d.state = .success →
      d.username.text ≠ c'.username.text

/-- The items are those of the authenticated clients. -/
structure Addressable (s : State) : Prop where
  registry : Registry s
  authenticated : ∀ i item c, item ∈ s.hashTable i → s.heap item.key = some c →
    c.state = .success
  listed : ∀ p c, s.heap p = some c → c.state = .success → ¬ Unlisted s p

/-! ## Lookups -/

namespace Addressable

theorem unlisted (h : Addressable s) (hp : s.heap p = some c) (hc : c.state ≠ .success) :
    Unlisted s p := by
  rintro i item hmem rfl
  exact hc (h.authenticated i item c hmem hp)

theorem owner_named (h : Addressable s) {i : Nat} (hmem : item ∈ s.hashTable i) :
    ∃ c, s.heap item.key = some c ∧ c.fd = item.data ∧ c.state = .success ∧
      i = s.bucketOf c.username.text ∧
      ∀ env name, keyIs env s item name = some (c.username.text == name) := by
  obtain ⟨c, hc, hfd, hterm, hbucket⟩ := h.registry.owner i item hmem
  refine ⟨c, hc, hfd, h.authenticated i item c hmem hc, hbucket, fun env name => ?_⟩
  simp only [keyIs, hc]
  exact CharArray.strcmp_of_terminated hterm _ name

/-- The walk along a chain ends, and finds an item of the name when there is one. -/
theorem fdByName_total (h : Addressable s) {i : Nat} {chain : List HashItem}
    (hchain : ∀ item ∈ chain, item ∈ s.hashTable i) (env : Env) (name : Bytes) :
    ∃ r, fdByName env s name (-1) chain = some r ∧
      (r = none → ∀ item ∈ chain, keyIs env s item name = some false) := by
  induction chain with
  | nil => exact ⟨none, rfl, by simp⟩
  | cons item chain ih =>
    obtain ⟨r, hr, hnone⟩ := ih fun x hx => hchain x (List.mem_cons_of_mem _ hx)
    obtain ⟨c, -, -, -, -, hkey⟩ := h.owner_named (hchain item List.mem_cons_self)
    by_cases hname : c.username.text = name
    · exact ⟨some item.data, by simp [fdByName, hkey, hname], by simp⟩
    · refine ⟨r, by simp [fdByName, hkey, hname, hr], fun hr0 x hx => ?_⟩
      rcases List.mem_cons.mp hx with rfl | hx
      · simp [hkey, hname]
      · exact hnone hr0 x hx

theorem lookup_item (hs : Sound s) (h : Addressable s) {i : Nat} (hmem : item ∈ s.hashTable i)
    (hkey : keyIs env s item name = some true) :
    s.fdClients item.data = some item.key ∧ AuthenticatedAs s name item.key := by
  obtain ⟨c, hc, hfd, hstate, -, hnamed⟩ := h.owner_named hmem
  have hcur := hs.current item.key c hc
  rw [hnamed env name, Option.some.injEq, beq_iff_eq] at hkey
  exact ⟨hfd ▸ hcur, c.fd, c, hcur, hc, hstate, hkey⟩

theorem found (hs : Sound s) (hsize : 0 < s.hashSize) (hsingle : SingleSession s)
    (h : Addressable s) (env : Env) (hq : AuthenticatedAs s name q) :
    getFdnodeByname env s name (-1) = some (some q) := by
  obtain ⟨k, d, hk, hd, hstate, hname⟩ := hq
  obtain ⟨r, hr, hnone⟩ := h.fdByName_total (i := s.bucketOf name) (fun _ hmem => hmem) env name
  rw [getFdnodeByname_eq hsize, hr]
  cases r with
  | none =>
    have hitem := h.listed q d hd hstate
    simp only [Unlisted, not_forall, not_not] at hitem
    obtain ⟨i, item, hmem, rfl⟩ := hitem
    obtain ⟨c, hc, -, -, hbucket, hkey⟩ := h.owner_named hmem
    rw [hd] at hc
    cases hc
    rw [hname] at hbucket
    have hfalse := hnone rfl item (hbucket ▸ hmem)
    rw [hkey, hname, beq_self_eq_true] at hfalse
    cases hfalse
  | some fd =>
    obtain ⟨item, hmem, rfl, hkey⟩ := fdByName_item hr
    obtain ⟨hfd, k', c, hk', hc, hcs, hcn⟩ := h.lookup_item hs hmem hkey
    have heq := hsingle k k' q item.key d c hk hk' hd hc hstate hcs (hname.trans hcn.symm)
    rw [Option.map_some, Option.bind_some, hfd, heq]

theorem missing (hs : Sound s) (hsize : 0 < s.hashSize) (h : Addressable s) (env : Env)
    (hno : ∀ q, ¬ AuthenticatedAs s name q) : getFdnodeByname env s name (-1) = some none := by
  obtain ⟨r, hr, -⟩ := h.fdByName_total (i := s.bucketOf name) (fun _ hmem => hmem) env name
  rw [getFdnodeByname_eq hsize, hr]
  cases r with
  | none => rfl
  | some fd =>
    obtain ⟨item, hmem, -, hkey⟩ := fdByName_item hr
    exact absurd (h.lookup_item hs hmem hkey).2 (hno item.key)

theorem of_lookup (hs : Sound s) (hsize : 0 < s.hashSize) (hsingle : SingleSession s)
    (h : Addressable s) (hq : getFdnodeByname env s name (-1) = some (some q)) :
    AuthenticatedAs s name q := by
  by_cases hex : ∃ q', AuthenticatedAs s name q'
  · obtain ⟨q', hq'⟩ := hex
    rw [h.found hs hsize hsingle env hq'] at hq
    cases hq
    exact hq'
  · rw [h.missing hs hsize env fun q' hq' => hex ⟨q', hq'⟩] at hq
    cases hq

theorem terminated (h : Addressable s) (hp : s.heap p = some c) (hc : c.state = .success) :
    c.username.terminated = true := by
  have hitem := h.listed p c hp hc
  simp only [Unlisted, not_forall, not_not] at hitem
  obtain ⟨i, item, hmem, rfl⟩ := hitem
  obtain ⟨d, hd, -, hterm, -⟩ := h.registry.owner i item hmem
  rw [hp] at hd
  cases hd
  exact hterm

/-- An administrator's command names the client it concerns. -/
theorem of_target (hs : Sound s) (hsize : 0 < s.hashSize) (hsingle : SingleSession s)
    (h : Addressable s) (hp : s.heap p = some c) (hc : c.state = .success)
    (ht : targetOf (getFdnodeByname env) env p c name s = some (some q)) :
    AuthenticatedAs s name q := by
  obtain ⟨self, hself, ht⟩ := Option.bind_eq_some_iff.mp ht
  rw [CharArray.strcmp_of_terminated (h.terminated hp hc), Option.some.injEq] at hself
  split at ht
  · rename_i heq
    cases ht
    rw [heq, beq_iff_eq] at hself
    exact ⟨c.fd, c, hs.current p c hp, hp, hc, hself⟩
  · exact h.of_lookup hs hsize hsingle ht

end Addressable

/-! ## Every step -/

namespace Addressable

theorem start (conf : Nat → RoomConf) : Addressable (State.start conf) where
  registry := Registry.start conf
  authenticated := by
    intro i item c hmem
    cases hmem
  listed := by
    intro p c hp
    cases hp

/-- The records keep their states, or are new and wait. -/
theorem of_states (h : Addressable s) (hreg : Registry t)
    (hitems : ∀ i item, item ∈ t.hashTable i → item ∈ s.hashTable i)
    (hold : ∀ q d, t.heap q = some d → (d.state = .success ∨ ¬ Unlisted t q) →
      ∃ c, s.heap q = some c ∧ c.state = d.state)
    (hkept : ∀ q d, t.heap q = some d → ¬ Unlisted s q → ¬ Unlisted t q) : Addressable t where
  registry := hreg
  authenticated := by
    intro i item d hmem hd
    obtain ⟨c, hc, hstate⟩ := hold item.key d hd (Or.inr fun hno => hno i item hmem rfl)
    rw [← hstate]
    exact h.authenticated i item c (hitems i item hmem) hc
  listed := by
    intro q d hq hd
    obtain ⟨c, hc, hstate⟩ := hold q d hq (Or.inl hd)
    exact hkept q d hq (h.listed q c hc (hstate.trans hd))

theorem of_sameFaces (h : Addressable s) (hst : SameFaces s t) : Addressable t := by
  refine h.of_states (h.registry.of_sameFaces hst) ?_ ?_ ?_
  · intro i item hmem
    rwa [hst.hashTable] at hmem
  · intro q d hq _
    obtain ⟨c, hc, -, hstate, -⟩ := hst.exists_old hq
    exact ⟨c, hc, hstate⟩
  · intro q d _ hlisted
    unfold Unlisted
    rwa [hst.hashTable]

/-- A client that waits may change in any way that leaves it waiting. -/
theorem setWaiting (h : Addressable s) (hp : s.heap p = some c) (hc : c.state ≠ .success)
    (hfd : d.fd = c.fd) (hd : d.state ≠ .success) : Addressable (s.setClient p d) := by
  have hno := h.unlisted hp hc
  refine h.of_states (h.registry.rename hp hfd (Or.inl hno)) (fun _ _ hmem => hmem) ?_
    (fun _ _ _ hlisted => hlisted)
  intro q e hq hstate
  rcases update_eq_some hq with ⟨rfl, rfl⟩ | ⟨-, hq⟩
  · exact absurd hno (hstate.resolve_left hd)
  · exact ⟨e, hq, rfl⟩

theorem accept (h : Addressable s) (hp : s.heap p = none) (fd : Nat) :
    Addressable { s with
      fdClients := Function.update s.fdClients fd (some p)
      heap := Function.update s.heap p (some (newClient fd s.mytimestamp)) } := by
  refine h.of_states (h.registry.accept hp fd) (fun _ _ hmem => hmem) ?_
    (fun _ _ _ hlisted => hlisted)
  intro q e hq hstate
  rcases update_eq_some hq with ⟨rfl, rfl⟩ | ⟨-, hq⟩
  · refine absurd (fun i item hmem heq => ?_) (hstate.resolve_left (by simp [newClient]))
    obtain ⟨d, hd, -⟩ := h.registry.owner i item hmem
    rw [heq, hp] at hd
    cases hd
  · exact ⟨e, hq, rfl⟩

theorem remove (hs : Sound s) (h : Addressable s) (hp : s.heap p = some c)
    (hrem : RemoveEffect env p c s s') : Addressable s' := by
  refine h.of_states (h.registry.remove hs hp hrem) ?_ ?_ ?_
  · intro i item hmem
    exact (hrem.hashTable_sublist i).subset hmem
  · intro q d hq _
    obtain ⟨-, d₀, hd₀, -, hstate, -⟩ := hrem.exists_old hs hp hq
    exact ⟨d₀, hd₀, hstate⟩
  · intro q d hq hlisted
    obtain ⟨hqp, d₀, hd₀, -⟩ := hrem.exists_old hs hp hq
    simp only [Unlisted, not_forall, not_not] at hlisted ⊢
    obtain ⟨i, item, hmem, rfl⟩ := hlisted
    refine ⟨i, item, ?_, rfl⟩
    have hpres := (hrem.preserves hs hp (List.mem_singleton_self p)).items i item.data item.key
      (by simpa using hqp) (by
        obtain ⟨e, he, hefd, -⟩ := h.registry.owner i item hmem
        exact hefd ▸ hs.current item.key e he)
    have hin : item ∈ (s.hashTable i).filter (·.data = item.data) := by simpa using hmem
    rw [← hpres] at hin
    exact (List.mem_filter.mp hin).1

/-- Nobody is displaced by a login under a fresh name. -/
theorem rival_none (hs : Sound s) (hsize : 0 < s.hashSize) (h : Addressable s)
    (hfresh : ∀ q d, s.heap q = some d → d.state = .success → d.username.text ≠ name) {ufd : Int}
    {node : Option Addr} (hnode : getFdnodeByname env s name ufd = some node)
    (hrival : RivalEffect env node s t) : t = s := by
  rcases hrival with ⟨-, rfl⟩ | ⟨q, d, rfl, hq, ⟨-, rfl⟩ | ⟨hd, -, -, -⟩⟩
  · rfl
  · rfl
  · obtain ⟨item, hmem, hkey, hfd⟩ := getFdnodeByname_item hsize hnode
    obtain ⟨-, k, e, hk, he, hes, hname⟩ := h.lookup_item hs hmem hkey
    exact absurd hname (hfresh item.key e he hes)

/-- A client without an item is authenticated and listed. -/
theorem login (h : Addressable s) (hp : s.heap p = some c) (hno : Unlisted s p)
    (hterm : c.username.terminated = true) (role : Int) :
    Addressable (s.login p c c.username.text role) where
  registry := (h.registry.add hp hterm hno).rename hp rfl (Or.inr ⟨hterm, rfl⟩)
  authenticated := by
    intro i item d hmem hd
    rcases update_eq_some hd with ⟨-, rfl⟩ | ⟨hne, hd⟩
    · rfl
    · have hmem : item ∈ Function.update s.hashTable (s.bucketOf c.username.text)
          (s.hashTable (s.bucketOf c.username.text) ++ [⟨p, c.fd⟩]) i := hmem
      rw [Function.update_apply] at hmem
      split at hmem
      · rcases List.mem_append.mp hmem with hmem | hmem
        · exact h.authenticated _ item d hmem hd
        · rw [List.mem_singleton.mp hmem] at hne
          exact absurd rfl hne
      · exact h.authenticated i item d hmem hd
  listed := by
    intro q d hq hd hno'
    have hold : ∀ i item, item ∈ s.hashTable i →
        item ∈ Function.update s.hashTable (s.bucketOf c.username.text)
          (s.hashTable (s.bucketOf c.username.text) ++ [⟨p, c.fd⟩]) i := by
      intro i item hmem
      rw [Function.update_apply]
      split
      · rename_i hi
        exact List.mem_append.mpr (Or.inl (hi ▸ hmem))
      · exact hmem
    rcases update_eq_some hq with ⟨rfl, -⟩ | ⟨hne, hq⟩
    · refine hno' (s.bucketOf c.username.text) ⟨q, c.fd⟩ ?_ rfl
      change _ ∈ Function.update s.hashTable _ _ _
      rw [Function.update_self]
      simp
    · refine h.listed q d hq hd fun i item hmem => ?_
      exact hno' i item (hold i item hmem)

end Addressable

theorem AuthEffect.addressable (hs : Sound s) (hsize : 0 < s.hashSize) (hp : s.heap p = some c)
    (h : Addressable s)
    (hfresh : c.state ≠ .success → ∀ c', authCredentials env s.mytimestamp c e =
      some (.passed c') → c'.username.terminated = true ∧ ∀ q d, q ≠ p → s.heap q = some d →
        d.state = .success → d.username.text ≠ c'.username.text)
    (hauth : AuthEffect (getFdnodeByname env) env fd e p c s s') : Addressable s' := by
  cases hauth with
  | already hc hs' =>
    rw [hs']
    exact h.of_sameFaces (.post s _)
  | refused d why hc hd hs' =>
    have hsame : c.SameSession d := authCredentials_client hd
    rw [hs']
    exact (h.setWaiting hp hc hsame.fd (by rwa [hsame.state])).of_sameFaces (.post _ _)
  | passed c' d name node t hc hpass hd hname hnode hrival hjoin =>
    have hsame : c.SameSession d := passed_sameSession hpass hd
    have hdc : d.state ≠ .success := by rwa [hsame.state]
    obtain ⟨hterm, hother⟩ := hfresh hc c' hpass
    have husername : d.username = c'.username := by rw [hd, setCharacter_username]
    rw [← husername] at hterm hother
    rw [CharArray.read_of_terminated hterm] at hname
    cases hname
    have hs₁ : Sound (s.setClient p d) := hs.setWaiting hp hc hsame
    have hp₁ : (s.setClient p d).heap p = some d := by simp
    have h₁ := h.setWaiting hp hc hsame.fd hdc
    have hnone : t = s.setClient p d := by
      refine h₁.rival_none hs₁ hsize ?_ hnode hrival
      intro q x hq hx
      rcases update_eq_some hq with ⟨rfl, rfl⟩ | ⟨hqp, hq⟩
      · exact absurd hx hdc
      · exact hother q x hqp hq hx
    subst hnone
    have hlogin := h₁.login hp₁ (h₁.unlisted hp₁ hdc) hterm (luaGetuserrole env d.username.text)
    obtain ⟨hpost, hquiet⟩ := hjoin.afterLogin hs₁ hp₁
    exact (hlogin.of_sameFaces (.post _ _)).of_sameFaces (hquiet.sameFaces hpost)

theorem ActEffect.addressable (hs : Sound s) (hsize : 0 < s.hashSize) (h : Addressable s)
    (hfresh : FreshName env s a) (hact : ActEffect (getFdnodeByname env) env s a s') :
    Addressable s' := by
  cases hact with
  | quiet hq => exact h.of_sameFaces (hq.sameFaces hs)
  | accept fd node hfd hnode hs' =>
    rw [hs']
    exact h.accept hnode fd
  | remove t q d ht hq hrem => exact (h.of_sameFaces (ht.sameFaces hs)).remove (ht.sound hs) hq hrem
  | auth fd recvBits data p c e ha hfd hp hdecode ht hauth =>
    refine hauth.addressable (hs.tick env.now) hsize hp (h.of_sameFaces (.tick s env.now)) ?_
    intro hc c' hpass
    exact hfresh p c c' ⟨fd, recvBits, data, e, ha, hfd, hp, hdecode, ht, hc, hpass⟩

theorem FreshName.rivalFirst (h : FreshName env s a) : RivalFirst env s a := by
  intro p c c' hends name _ q d hqp hq hd hsame
  exact absurd hsame ((h p c c' hends).2 q d hqp hq hd)

theorem Runs.addressable (h : Runs (byTable FreshName) s) :
    Sound s ∧ 0 < s.hashSize ∧ SingleSession s ∧ Addressable s := by
  obtain ⟨hs, hsize, hsingle⟩ := h.singleSession fun env s a => FreshName.rivalFirst
  refine ⟨hs, hsize, hsingle, ?_⟩
  have hrun := h.invariant (I := fun s => Sound s ∧ 0 < s.hashSize ∧ Addressable s) ?_ ?_
  · exact hrun.2.2
  · intro conf
    have hpos : 0 < maxUsers := by decide
    exact ⟨Sound.start conf, hpos, Addressable.start conf⟩
  · rintro lookup env s a s' ⟨hs, hsize, haddr⟩ ⟨rfl, hfresh⟩ hact
    have heff := act_effect hs (getFdnodeByname_registered env) hact
    exact ⟨heff.sound hs, by rwa [heff.hashSize_eq hs], heff.addressable hs hsize haddr hfresh⟩

end ArpgServer
