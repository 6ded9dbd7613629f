import ArpgServer.Names.Lookup

/-!
# One session for each name

A login looks for another session of its name and displaces the one it finds. A displaced
session keeps its item in the name table, in front of those that come later, so a third
login of the name finds the session that was displaced already. Where the first item of the
name leads to the session that is authenticated, the login leaves one session of it.
-/

namespace ArpgServer

open CText

variable {env : Env} {s s' t : State} {p q : Addr} {c d : Client} {a : Action}

/-- No two registered clients are authenticated under one name. -/
def SingleSession (s : State) : Prop :=
  ∀ k k' p q c d, s.fdClients k = some p → s.fdClients k' = some q → s.heap p = some c →
    s.heap q = some d → c.state = .success → d.state = .success →
    c.username.text = d.username.text → p = q

/-- When a login passes its checks and another session is authenticated under its name, the
first item of the name leads to that session. -/
def RivalFirst (env : Env) (s : State) (a : Action) : Prop :=
  ∀ p c c', ChecksEnd env s a p c (.passed c') →
    ∀ name, c'.username.read (env.overrun p .username) = some name →
      ∀ q d, q ≠ p → s.heap q = some d → d.state = .success →
        d.username.text = c'.username.text → LeadsTo env (s.setClient p c') name c.fd q

theorem SingleSession.of_faces (hs : Sound s) (h : SingleSession s)
    (hold : ∀ q d, t.heap q = some d → d.state = .success →
      ∃ c, s.heap q = some c ∧ c.state = .success ∧ c.username = d.username) :
    SingleSession t := by
  intro k k' p q c d _ _ hp hq hc hd hname
  obtain ⟨c₀, hp₀, hc₀, hcn⟩ := hold p c hp hc
  obtain ⟨d₀, hq₀, hd₀, hdn⟩ := hold q d hq hd
  exact h c₀.fd d₀.fd p q c₀ d₀ (hs.current p c₀ hp₀) (hs.current q d₀ hq₀) hp₀ hq₀ hc₀ hd₀
    (by rw [hcn, hdn, hname])

theorem SingleSession.of_sameFaces (hs : Sound s) (h : SingleSession s) (hst : SameFaces s t) :
    SingleSession t := by
  refine h.of_faces hs fun q d hq hd => ?_
  obtain ⟨c, hc, -, hstate, hname⟩ := hst.exists_old hq
  exact ⟨c, hc, hstate.trans hd, hname⟩

theorem SingleSession.setWaiting (hs : Sound s) (h : SingleSession s) (hd : d.state ≠ .success) :
    SingleSession (s.setClient p d) := by
  refine h.of_faces hs fun q x hq hx => ?_
  rcases update_eq_some hq with ⟨rfl, rfl⟩ | ⟨-, hq⟩
  · exact absurd hx hd
  · exact ⟨x, hq, hx, rfl⟩

theorem SingleSession.rival {node : Option Addr} (hs : Sound s) (h : SingleSession s)
    (hrival : RivalEffect env node s t) : SingleSession t := by
  refine h.of_faces hs fun q x hq hx => ?_
  obtain ⟨-, x₀, hx₀, hstate, hname⟩ := hrival.exists_old hs hq hx
  exact ⟨x₀, hx₀, hstate, hname⟩

/-- A login under a name that nobody else is authenticated under. -/
theorem SingleSession.login (hs : Sound s) (h : SingleSession s)
    (hfresh : ∀ q x, q ≠ p → s.heap q = some x → x.state = .success →
      x.username.text ≠ d.username.text) (name : Bytes) (role : Int) :
    SingleSession (s.login p d name role) := by
  intro k k' x y cx cy _ _ hx hy hcx hcy hname
  rcases update_eq_some hx with ⟨rfl, rfl⟩ | ⟨hxp, hx⟩ <;>
    rcases update_eq_some hy with ⟨rfl, rfl⟩ | ⟨hyp, hy⟩
  · rfl
  · exact absurd hname.symm (hfresh y cy hyp hy hcy)
  · exact absurd hname (hfresh x cx hxp hx hcx)
  · exact h cx.fd cy.fd x y cx cy (hs.current x cx hx) (hs.current y cy hy) hx hy hcx hcy hname

/-- Neither the clock nor the character is seen by a lookup. -/
theorem setCharacter_sameFaces (s : State) (p : Addr) (c : Client) (e : Event) (now : Int) :
    SameFaces (s.setClient p c) ((s.tick now).setClient p (setCharacter c e)) := by
  have hsame := setCharacter_sameSession c e
  refine ⟨rfl, rfl, rfl, ?_⟩
  intro q
  by_cases hq : q = p
  · subst hq
    simp [Client.face, hsame.fd, hsame.state]
  · simp only [State.setClient_heap, Function.update_of_ne hq]
    rfl

/-- A login keeps the sessions apart when its rival comes first. -/
theorem AuthEffect.singleSession {fd : Nat} {e : Event} (hs : Sound s) (hsize : 0 < s.hashSize)
    (hp : s.heap p = some c) (h : SingleSession s)
    (hrival : c.state ≠ .success → ∀ c' name,
      authCredentials env s.mytimestamp c e = some (.passed c') →
      c'.username.read (env.overrun p .username) = some name →
      ∀ q d, q ≠ p → s.heap q = some d → d.state = .success →
        d.username.text = c'.username.text →
        LeadsTo env (s.setClient p (setCharacter c' e)) name c.fd q)
    (hauth : AuthEffect (getFdnodeByname env) env fd e p c s s') : SingleSession s' := by
  cases hauth with
  | already hc hs' =>
    rw [hs']
    exact h.of_sameFaces hs (.post s _)
  | refused d why hc hd hs' =>
    have hsame : c.SameSession d := authCredentials_client hd
    have hdc : d.state ≠ .success := by rwa [hsame.state]
    rw [hs']
    exact (h.setWaiting hs hdc).of_sameFaces (hs.setWaiting hp hc hsame) (.post _ _)
  | passed c' d name node t hc hpass hd hname hnode hriv hjoin =>
    have hsame : c.SameSession d := passed_sameSession hpass hd
    have hdc : d.state ≠ .success := by rwa [hsame.state]
    have husername : d.username = c'.username := by rw [hd, setCharacter_username]
    have hs₁ : Sound (s.setClient p d) := hs.setWaiting hp hc hsame
    obtain ⟨hst, hpt⟩ := hriv.waiting hs hp hc hsame
    -- whoever else has the name is the session the lookup found, and that one was displaced
    have hfresh : ∀ q x, q ≠ p → t.heap q = some x → x.state = .success →
        x.username.text ≠ d.username.text := by
      intro q x hqp hq hx hsameName
      obtain ⟨hnot, x₀, hx₀, hstate, hname₀⟩ := hriv.exists_old hs₁ hq hx
      have hx₀ : s.heap q = some x₀ := by simpa [hqp] using hx₀
      have hleads := hrival hc c' name hpass (by rwa [husername] at hname) q x₀ hqp hx₀ hstate
        (by rw [hname₀, hsameName, husername])
      rw [hsame.fd] at hnode
      rw [← hd] at hleads
      have hfound := hleads.found (s := s.setClient p d) hsize
      rw [hnode] at hfound
      exact hnot (Option.some.inj hfound)
    have ht : SingleSession t := (h.setWaiting hs hdc).rival hs₁ hriv
    obtain ⟨hlogin, hquiet⟩ := hjoin.afterLogin hst hpt
    have hlogged : SingleSession (t.login p d name (luaGetuserrole env name)) :=
      ht.login hst hfresh name _
    exact (hlogged.of_sameFaces (hst.login hpt name _) (.post _ _)).of_sameFaces hlogin
      (hquiet.sameFaces hlogin)

theorem ActEffect.singleSession (hs : Sound s) (hsize : 0 < s.hashSize) (h : SingleSession s)
    (hrival : RivalFirst env s a) (hact : ActEffect (getFdnodeByname env) env s a s') :
    SingleSession s' := by
  cases hact with
  | quiet hq => exact h.of_sameFaces hs (hq.sameFaces hs)
  | accept fd node hfd hnode hs' =>
    rw [hs']
    refine h.of_faces hs fun q x hq hx => ?_
    rcases update_eq_some hq with ⟨rfl, rfl⟩ | ⟨-, hq⟩
    · cases hx
    · exact ⟨x, hq, hx, rfl⟩
  | remove t q d ht hq hrem =>
    refine (h.of_sameFaces hs (ht.sameFaces hs)).of_faces (ht.sound hs) fun q' x hq' hx => ?_
    obtain ⟨-, x₀, hx₀, -, hstate, hname⟩ := hrem.exists_old (ht.sound hs) hq hq'
    exact ⟨x₀, hx₀, hstate.trans hx, hname⟩
  | auth fd recvBits data p c e ha hfd hp hdecode ht hauth =>
    refine hauth.singleSession (hs.tick env.now) hsize hp (h.of_sameFaces hs (.tick s env.now)) ?_
    intro hc c' name hpass hname q d hqp hq hd hsame
    have hleads := hrival p c c' ⟨fd, recvBits, data, e, ha, hfd, hp, hdecode, ht, hc, hpass⟩
      name hname q d hqp hq hd hsame
    exact LeadsTo.of_sameFaces (setCharacter_sameFaces s p c' e env.now) hleads

theorem Runs.singleSession {cond : Env → State → Action → Prop} (h : Runs (byTable cond) s)
    (hcond : ∀ env s a, cond env s a → RivalFirst env s a) :
    Sound s ∧ 0 < s.hashSize ∧ SingleSession s := by
  refine h.invariant (I := fun s => Sound s ∧ 0 < s.hashSize ∧ SingleSession s) ?_ ?_
  · intro conf
    have hpos : 0 < maxUsers := by decide
    refine ⟨Sound.start conf, hpos, ?_⟩
    intro k k' p q c d hk
    cases hk
  · rintro lookup env s a s' ⟨hs, hsize, hsingle⟩ ⟨rfl, hc⟩ hact
    have heff := act_effect hs (getFdnodeByname_registered env) hact
    exact ⟨heff.sound hs, by rwa [heff.hashSize_eq hs],
      heff.singleSession hs hsize hsingle (hcond env s a hc)⟩

/-- **Single session**, in the runs in which every login finds its rival first. -/
theorem singleSession_of_runs (h : Runs (byTable RivalFirst) s) : SingleSession s :=
  (h.singleSession fun _ _ _ h => h).2.2

/-- The first login finds nobody, the second one the first guest. -/
theorem twoGuests_rivalFirst {i : Nat} (hi : i < twoGuests.length)
    (ht : actAll (State.start fun _ => lobbyConf) (twoGuests.take i) = some t) :
    RivalFirst twoGuests[i].1 t twoGuests[i].2 := by
  intro p c c' hends name hname q d hqp hq hd _
  have hlen : i < 4 := hi
  rcases i with _ | _ | _ | _ | i
  · exact (connect_checks hends).elim
  · exact (connect_checks hends).elim
  · have hcheck : (actAll (State.start fun _ => lobbyConf) (twoGuests.take 2)).all (fun t =>
        (t.heap 100).all (fun d => d.state = .wait) ∧
          (t.heap 200).all (fun d => d.state = .wait)) := by
      decide +kernel
    rw [ht, Option.all_some] at hcheck
    obtain ⟨hwait, hwait'⟩ := of_decide_eq_true hcheck
    have hidle : d.state = .wait := by
      rcases twoGuests_heap ht hq with rfl | rfl
      · rw [hq, Option.all_some] at hwait
        exact of_decide_eq_true hwait
      · rw [hq, Option.all_some] at hwait'
        exact of_decide_eq_true hwait'
    rw [hd] at hidle
    cases hidle
  · have hcheck : (actAll (State.start fun _ => lobbyConf) (twoGuests.take 3)).all (fun t =>
        t.fdClients 5 = some 100 ∧ t.fdClients 6 = some 200 ∧
        t.hashTable (t.bucketOf (guestName 0)) = [⟨100, 5⟩] ∧ (t.heap 200).all fun c =>
          c.fd = 6 ∧ (authAnonymous c 0).username.read
            ((Env.delivering 0 guestLogin).overrun 200 .username) = some (guestName 0) ∧
          keyIs (.delivering 0 guestLogin) (t.setClient 200 (authAnonymous c 0)) ⟨100, 5⟩
            (guestName 0) = some true) := by
      decide +kernel
    rw [ht, Option.all_some] at hcheck
    obtain ⟨h5, h6, htable, hsecond⟩ := of_decide_eq_true hcheck
    obtain ⟨hfd, hp, hout⟩ := guestLogin_checks hends
    cases hout
    rw [h6] at hfd
    cases hfd
    rw [hp, Option.all_some] at hsecond
    obtain ⟨hcfd, hread, hkey⟩ := of_decide_eq_true hsecond
    cases hread.symm.trans hname
    have hq100 : q = 100 := (twoGuests_heap ht hq).resolve_right hqp
    subst hq100
    refine ⟨[], ⟨100, 5⟩, [], htable, nofun, hkey, ?_, h5⟩
    rw [hcfd]
    decide
  · omega

/-- The second login displaces the first guest. -/
theorem singleSession_of_runs_guests : ∃ s,
    actAll (State.start fun _ => lobbyConf) twoGuests = some s ∧
      (s.heap 100).map (fun c => (c.state, c.username.text)) = some (.wait, guestName 0) ∧
      (s.heap 200).map (fun c => (c.state, c.username.text)) = some (.success, guestName 0) ∧
      SingleSession s := by
  have hcheck : (actAll (State.start fun _ => lobbyConf) twoGuests).any (fun s =>
      (s.heap 100).map (fun c => (c.state, c.username.text)) = some (.wait, guestName 0) ∧
        (s.heap 200).map (fun c => (c.state, c.username.text)) =
          some (.success, guestName 0)) := by
    decide +kernel
  obtain ⟨s, hrun, hs⟩ := (Option.any_eq_true _ _).mp hcheck
  obtain ⟨h100, h200⟩ := of_decide_eq_true hs
  refine ⟨s, hrun, h100, h200, singleSession_of_runs (runs_of_takes (fun i hi t ht _ => ?_) hrun)⟩
  exact ⟨rfl, twoGuests_rivalFirst hi ht⟩

/-- Three guests of one name: the third login finds the first guest, who waits already. -/
theorem singleSession_not_kept : ¬ ∀ s, Reachable s → SingleSession s := by
  intro hsingle
  have hcheck : (actAll (State.start fun _ => lobbyConf) [connect 5 100, connect 6 200,
      connect 7 300, deliver 0 5 guestLogin, deliver 0 6 guestLogin, deliver 0 7 guestLogin]).any
        (fun s => s.fdClients 6 = some 200 ∧ s.fdClients 7 = some 300 ∧
          (s.heap 200).map (fun c => (c.state, c.username.text)) = some (.success, guestName 0) ∧
          (s.heap 300).map (fun c => (c.state, c.username.text)) =
            some (.success, guestName 0)) := by
    decide +kernel
  obtain ⟨s, hrun, hs⟩ := (Option.any_eq_true _ _).mp hcheck
  obtain ⟨h6, h7, h200, h300⟩ := of_decide_eq_true hs
  obtain ⟨c, hc, hcs⟩ := Option.map_eq_some_iff.mp h200
  obtain ⟨d, hd, hds⟩ := Option.map_eq_some_iff.mp h300
  simp only [Prod.mk.injEq] at hcs hds
  have heq := hsingle s (reachable_of_actAll hrun) 6 7 200 300 c d h6 h7 hc hd hcs.1 hds.1
    (hcs.2.trans hds.2.symm)
  cases heq

end ArpgServer
