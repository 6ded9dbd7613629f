import ArpgServer.Effects.Steps

/-!
# Refused logins

A refused login is meant to leave no trace. The guest and password branches write to the
record after their checks; the signature branch writes the flag and the name before them, so
its refusals leave the record alone only when it already holds what they write.
-/

namespace ArpgServer

open CText

variable {lookup : Lookup} {env : Env} {s s' t : State} {p q : Addr} {c d : Client} {fd : Nat}
  {e : Event} {why : AuthFailure} {account username : Bytes}

/-- A login that reaches the signature branch. -/
structure BySignature (e : Event) (account username : Bytes) : Prop where
  guest : e.isAnonymous = false
  username : e.attr .username = some username
  password : e.attr .password = none
  sign : ∃ sign, e.attr .sign = some sign
  account : e.attr .account = some account
  timestamp : ∃ timestampChar, e.attr .timestamp = some timestampChar ∧ atol timestampChar ≠ 0

/-- The array starts with all that the signature branch writes: the username and its padding,
the account, the username and the zeros behind them, or an account that fills its 32 bytes and
an empty username. -/
def HoldsName (a : CharArray 64) (account username : Bytes) : Prop :=
  if account = localAccount then
    username.take 64 ++ List.replicate (64 - username.length) 0 <+: a.bytes
  else if account.length < 32 then
    account ++ username.take 32 ++
      List.replicate (max 1 (32 - (account ++ username.take 32).length)) 0 <+: a.bytes
  else account.take 32 <+: a.bytes ∧ username = []

/-- Nothing a client or a lookup can notice has changed. -/
structure Unaffected (p : Addr) (s s' : State) : Prop where
  record : s'.heap p = s.heap p
  lists : ∀ r, (s'.rooms r).rClient = (s.rooms r).rClient
  lookups : ∀ env name ufd, getFdnodeByname env s' name ufd = getFdnodeByname env s name ufd

/-! ## The name that is written early -/

/-- A short account: the username follows it. -/
theorem strncat_short {a mid name : CharArray 64} (h0 : 0 ∉ account) (hlen : account.length < 32)
    (hmid : mid = a.strncpy account 32 (by decide)) (h : mid.strncat username 32 = some name) :
    name = a ↔ account ++ username.take 32 ++
      List.replicate (max 1 (32 - (account ++ username.take 32).length)) 0 <+: a.bytes := by
  obtain ⟨-, -, hname⟩ := CharArray.strncat_eq_some h
  have htext : mid.text = account := by
    rw [hmid]
    exact a.text_strncpy_of_lt _ h0 hlen
  have hmidBytes : mid.bytes =
      account ++ List.replicate (32 - account.length) 0 ++ a.bytes.drop 32 := by
    rw [hmid]
    show account.take 32 ++ _ ++ _ = _
    rw [List.take_of_length_le hlen.le]
  generalize hu : username.take 32 = u at hname ⊢
  -- The zeros of the copy that lie behind the terminator stay.
  have htail : [0] ++ mid.bytes.drop (account.length + u.length + 1) =
      List.replicate (max 1 (32 - (account ++ u).length)) 0 ++
        a.bytes.drop (account ++ u ++
          List.replicate (max 1 (32 - (account ++ u).length)) (0 : UInt8)).length := by
    rw [hmidBytes, List.append_assoc, List.drop_append, List.drop_append]
    have hfront : account.drop (account.length + u.length + 1) = [] :=
      List.drop_eq_nil_of_le (by omega)
    simp only [hfront, List.nil_append, List.drop_replicate, List.length_replicate, List.drop_drop,
      List.length_append]
    rw [show max 1 (32 - (account.length + u.length)) =
      1 + (32 - account.length - (account.length + u.length + 1 - account.length)) by omega,
      List.replicate_add, List.replicate_one, List.append_assoc]
    congr 3
    omega
  rw [CharArray.ext_iff, hname, htext, List.append_assoc (account ++ u), htail, ← List.append_assoc,
    List.prefix_iff_eq_append]

/-- A long account: the username follows what the array held behind 32 bytes. -/
theorem strncat_long {a mid name : CharArray 64} (h0 : 0 ∉ account) (hlen : 32 ≤ account.length)
    (hmid : mid = a.strncpy account 32 (by decide)) (h0u : 0 ∉ username)
    (h : mid.strncat username 32 = some name) :
    name = a ↔ account.take 32 <+: a.bytes ∧ username = [] := by
  obtain ⟨hterm, -, hname⟩ := CharArray.strncat_eq_some h
  have hpad : 32 - account.length = 0 := by omega
  have hmidBytes : mid.bytes = account.take 32 ++ a.bytes.drop 32 := by
    rw [hmid]
    show account.take 32 ++ List.replicate (32 - account.length) 0 ++ a.bytes.drop 32 = _
    rw [hpad, List.replicate_zero, List.append_nil]
  have hlen32 : (account.take 32).length = 32 := by
    rw [List.length_take]
    omega
  obtain ⟨rest, hrest⟩ := CharArray.bytes_of_terminated hterm
  have hdrop : mid.bytes.drop (mid.text.length + (username.take 32).length + 1) =
      rest.drop (username.take 32).length := by
    rw [hrest, List.drop_append, List.drop_eq_nil_of_le (by omega), List.nil_append,
      show mid.text.length + (username.take 32).length + 1 - mid.text.length =
        (username.take 32).length + 1 by omega, List.drop_succ_cons]
  rw [hdrop] at hname
  constructor
  · intro heq
    have h0take : 0 ∉ account.take 32 := fun h => h0 (List.mem_of_mem_take h)
    generalize hT : (a.bytes.drop 32).takeWhile (· ≠ 0) = T
    have htext : mid.text = account.take 32 ++ T := by
      rw [CharArray.text, hmidBytes, List.takeWhile_append, CharArray.takeWhile_of_text h0take,
        if_pos rfl, hT]
    rw [heq, htext, List.append_assoc, List.append_assoc, List.append_assoc] at hname
    have hdrop32 : a.bytes.drop 32 =
        T ++ username.take 32 ++ ([0] ++ rest.drop (username.take 32).length) := by
      rw [hname, List.drop_append, hlen32, List.drop_eq_nil_of_le hlen32.le, List.append_assoc]
      rfl
    -- What was read behind the account before is what is read there now.
    have h0T : 0 ∉ T ++ username.take 32 := by
      rw [List.mem_append, ← hT]
      rintro (h | h)
      · simpa using List.mem_takeWhile_imp h
      · exact h0u (List.mem_of_mem_take h)
    have hread : T = T ++ username.take 32 := by
      conv_lhs => rw [← hT, hdrop32, List.takeWhile_append, CharArray.takeWhile_of_text h0T,
        if_pos rfl]
      simp
    refine ⟨⟨_, hname.symm⟩, ?_⟩
    have hlenT := congrArg List.length hread
    rw [List.length_append, List.length_take] at hlenT
    exact List.length_eq_zero_iff.mp (by omega)
  · rintro ⟨hstart, rfl⟩
    apply CharArray.ext
    rw [List.prefix_iff_eq_append, hlen32, ← hmidBytes] at hstart
    rw [hname, ← hstart, hrest]
    simp

theorem signedName_eq_iff {name : CharArray 64} (h0 : 0 ∉ account) (h0u : 0 ∉ username)
    (h : signedName c account username = some name) :
    name = c.username ↔ HoldsName c.username account username := by
  unfold signedName at h
  unfold HoldsName
  by_cases hlocal : account = localAccount
  · rw [if_neg (by simpa using hlocal)] at h
    rw [if_pos hlocal]
    cases h
    exact CharArray.strncpy_eq_self_iff ..
  · rw [if_pos hlocal] at h
    rw [if_neg hlocal]
    split
    · rename_i hlen
      exact strncat_short h0 hlen rfl h
    · rename_i hlen
      exact strncat_long h0 (by omega) rfl h0u h

/-! ## Refusals -/

theorem authPassword_refused {password : Bytes}
    (h : authPassword env c username password = some (.refused d why)) : d = c := by
  rcases authPassword_cases h with ⟨-, hout⟩ | ⟨stored, salt, -, -, hout⟩
  · cases hout
    rfl
  · split at hout
    · cases hout
    · cases hout
      rfl

theorem authSignature_refused {t : Int} {sign timestampChar : Bytes}
    (h : authSignature env t c username sign account timestampChar = some (.refused d why)) :
    ∃ name, signedName c account username = some name ∧
      d = { c with anonymous := 0, username := name } := by
  obtain ⟨name, hname, -, ⟨-, hout⟩ | ⟨-, crypted, same, -, -, hout⟩⟩ := authSignature_cases h
  · cases hout
    exact ⟨name, hname, rfl⟩
  · split at hout
    · cases hout
    · cases hout
      exact ⟨name, hname, rfl⟩

/-- A refused login has left the record alone or has written what the signature branch writes. -/
theorem authCredentials_refused {t : Int}
    (h : authCredentials env t c e = some (.refused d why)) :
    (d = c ∧ ∀ account username, ¬ BySignature e account username) ∨
      ∃ account username name, BySignature e account username ∧
        signedName c account username = some name ∧
        d = { c with anonymous := 0, username := name } := by
  unfold authCredentials at h
  split at h
  · cases h
  rename_i hguest
  split at h
  · rename_i username password hu hpw
    refine Or.inl ⟨authPassword_refused h, fun account username hsig => ?_⟩
    rw [hsig.password] at hpw
    cases hpw
  rename_i hnopw
  split at h
  · rename_i username sign account timestampChar hu hsign haccount htime
    split at h
    · rename_i hnonzero
      obtain ⟨name, hname, hd⟩ := authSignature_refused h
      have hpassword : e.attr .password = none := by
        cases hpw : e.attr .password with
        | none => rfl
        | some password => exact (hnopw username password hu hpw).elim
      refine Or.inr ⟨account, username, name, ?_, hname, hd⟩
      exact ⟨by simpa using hguest, hu, hpassword, ⟨sign, hsign⟩, haccount,
        ⟨timestampChar, htime, hnonzero⟩⟩
    · rename_i hzero
      cases h
      refine Or.inl ⟨rfl, fun account username hsig => ?_⟩
      obtain ⟨timestampChar', htime', hnonzero⟩ := hsig.timestamp
      rw [htime] at htime'
      cases htime'
      exact hzero hnonzero
  · rename_i hmissing
    cases h
    refine Or.inl ⟨rfl, fun account username hsig => ?_⟩
    obtain ⟨sign, hsign⟩ := hsig.sign
    obtain ⟨timestampChar, htime, -⟩ := hsig.timestamp
    exact hmissing username sign account timestampChar hsig.username hsign hsig.account htime

theorem BySignature.unique {account' username' : Bytes} (h : BySignature e account username)
    (h' : BySignature e account' username') : account' = account ∧ username' = username := by
  have haccount := h'.account
  have husername := h'.username
  rw [h.account] at haccount
  rw [h.username] at husername
  exact ⟨(Option.some.inj haccount).symm, (Option.some.inj husername).symm⟩

/-- Only the sender's record can tell a refused login. -/
theorem unaffected_iff (hp : s.heap p = some c) {n : Notice} {now : Int}
    (hs' : s' = (((s.tick now).setClient p d).sendMessage fd n)) : Unaffected p s s' ↔ d = c := by
  constructor
  · intro h
    have hrecord := h.record
    rw [hs', hp] at hrecord
    simpa [State.sendMessage] using hrecord
  · rintro rfl
    rw [State.setClient_self (s := s.tick now) hp] at hs'
    subst hs'
    exact ⟨rfl, fun r => rfl, fun _ => getFdnodeByname_congr rfl rfl rfl rfl⟩

/-- **Refused logins.** A login that is answered with a refusal leaves the sender's record, the
room lists and all lookups as they were exactly when it does not reach the signature branch, or
when the record already holds what that branch writes. -/
theorem refused_unaffected_iff (h : Reachable s) (hp : s.heap p = some c)
    {recvBits : Int} {data : Bytes} (hdecode : Task.decode env ⟨fd, p, recvBits, data⟩ = .event e)
    (ht : e.evType = some evTypeAuth) (htext : e.IsText)
    (hrun : (parseMessage (getFdnodeByname env) env ⟨fd, p, recvBits, data⟩).run s =
      some ((), s'))
    (hrefused : s'.sent = s.sent ++ [⟨fd, [.authFailure why]⟩]) :
    Unaffected p s s' ↔ ∀ account username, BySignature e account username →
      c.anonymous = 0 ∧ HoldsName c.username account username := by
  have hs := h.toAnyLookup.sound
  have hauth := parseMessage_auth hs (getFdnodeByname_registered env) hp hdecode ht hrun
  obtain ⟨d, hd, hs'⟩ := hauth.refused_of_sent (hs.tick env.now) hp hrefused
  rw [unaffected_iff hp hs']
  rcases authCredentials_refused hd with ⟨hdc, hno⟩ | ⟨account, username, name, hsig, hname, hdc⟩
  · exact ⟨fun _ account username hsig => (hno account username hsig).elim, fun _ => hdc⟩
  · have hname := signedName_eq_iff (htext.attr _ _ hsig.account) (htext.attr _ _ hsig.username)
      hname
    rw [hdc]
    constructor
    · intro heq account' username' hsig'
      obtain ⟨rfl, rfl⟩ := hsig.unique hsig'
      refine ⟨(congrArg Client.anonymous heq).symm, ?_⟩
      exact hname.mp (congrArg Client.username heq)
    · intro hall
      obtain ⟨hanon, hholds⟩ := hall account username hsig
      rw [hname.mpr hholds, ← hanon]

/-- A login that is signed too late. -/
def lateSignature : Packet where
  data := [120, 156, 13, 203, 49, 14, 128, 48, 8, 5, 208, 171, 176, 253, 81, 221, 173, 119, 33,
    149, 24, 6, 104, 35, 212, 232, 237, 237, 248, 134, 183, 203, 35, 158, 148, 95, 151, 130, 109,
    5, 141, 144, 219, 217, 166, 76, 29, 196, 181, 182, 225, 89, 192, 39, 40, 244, 242, 130, 23,
    148, 106, 18, 201, 214, 231, 193, 114, 252, 49, 125, 22, 202]
  text := ofString "<event type='10' username='min' account='ad' sign='x' timestamp='1'/>"
  event := .ofList [(.type, ofString "10"), (.username, ofString "min"),
    (.account, ofString "ad"), (.sign, ofString "x"), (.timestamp, ofString "1")]

/-- A login that is signed too late is refused, and it leaves a trace. -/
theorem refused_unaffected_iff_late : ∃ s s' : State, Reachable s ∧ s.fdClients 5 = some 100 ∧
    BySignature lateSignature.event (ofString "ad") (ofString "min") ∧
    (Unaffected 100 s s' ↔ ∀ account username, BySignature lateSignature.event account username →
      (newClient 5 0).anonymous = 0 ∧ HoldsName (newClient 5 0).username account username) := by
  have hcheck : (actAll (State.start fun _ => lobbyConf) [connect 5 100]).any (fun s =>
      s.fdClients 5 = some 100 ∧
        ((parseMessage (getFdnodeByname (.delivering 100 lateSignature))
          (.delivering 100 lateSignature) ⟨5, 100, 4, lateSignature.data⟩).run s).any (fun r =>
            r.2.sent = s.sent ++ [⟨5, [.authFailure .expired]⟩])) := by
    decide +kernel
  have hsigned : BySignature lateSignature.event (ofString "ad") (ofString "min") :=
    ⟨by decide +kernel, by decide +kernel, by decide +kernel, ⟨_, rfl⟩, by decide +kernel,
      ⟨ofString "1", by decide +kernel, by decide +kernel⟩⟩
  obtain ⟨s, hrun, hs⟩ := (Option.any_eq_true _ _).mp hcheck
  obtain ⟨hfd, hlogin⟩ := of_decide_eq_true hs
  obtain ⟨⟨u, s'⟩, hlogin, hsent⟩ := (Option.any_eq_true _ _).mp hlogin
  have hp : s.heap 100 = some (newClient 5 0) := by
    obtain ⟨t, ht, hnil⟩ := Option.bind_eq_some_iff.mp hrun
    cases hnil
    exact acceptClient_heap ht
  refine ⟨s, s', reachable_of_actAll hrun, hfd, hsigned, ?_⟩
  exact refused_unaffected_iff (reachable_of_actAll hrun) hp
    (decode_packet (m := lateSignature) (by decide +kernel) (by decide +kernel) 100 5 100)
    (by decide +kernel) (Event.ofList_isText (by decide +kernel)) hlogin (of_decide_eq_true hsent)

/-- A signature that comes too late makes a guest a named user. -/
theorem refused_not_unaffected : ¬ ∀ (s s' : State) (env : Env) (fd : Nat) (p : Addr) (c : Client)
    (e : Event) (recvBits : Int) (data : Bytes) (why : AuthFailure), Reachable s →
    s.fdClients fd = some p → s.heap p = some c → e.evType = some evTypeAuth → e.IsText →
    Task.decode env ⟨fd, p, recvBits, data⟩ = .event e →
    (parseMessage (getFdnodeByname env) env ⟨fd, p, recvBits, data⟩).run s = some ((), s') →
    s'.sent = s.sent ++ [⟨fd, [.authFailure why]⟩] → Unaffected p s s' := by
  intro hall
  have hcheck : (actAll (State.start fun _ => lobbyConf) [connect 5 100]).any (fun s =>
      s.fdClients 5 = some 100 ∧ (s.heap 100).any (fun c : Client => c.anonymous = 1) ∧
        ((parseMessage (getFdnodeByname (.delivering 100 lateSignature))
          (.delivering 100 lateSignature) ⟨5, 100, 4, lateSignature.data⟩).run s).any (fun r =>
            r.2.sent = s.sent ++ [⟨5, [.authFailure .expired]⟩] ∧
              (r.2.heap 100).any fun d : Client => d.anonymous = 0)) := by
    decide +kernel
  obtain ⟨s, hrun, hs⟩ := (Option.any_eq_true _ _).mp hcheck
  obtain ⟨hfd, hheap, hlogin⟩ := of_decide_eq_true hs
  obtain ⟨c, hc, hguest⟩ := (Option.any_eq_true _ _).mp hheap
  obtain ⟨⟨u, s'⟩, hlogin, hr⟩ := (Option.any_eq_true _ _).mp hlogin
  obtain ⟨hsent, hheap'⟩ := of_decide_eq_true hr
  obtain ⟨d, hd, hnamed⟩ := (Option.any_eq_true _ _).mp hheap'
  have hsame := hall s s' (.delivering 100 lateSignature) 5 100 c lateSignature.event 4
    lateSignature.data .expired (reachable_of_actAll hrun) hfd hc (by decide +kernel)
    (Event.ofList_isText (by decide +kernel))
    (decode_packet (m := lateSignature) (by decide +kernel) (by decide +kernel) 100 5 100)
    hlogin hsent
  have hcd : c = d := by
    have hrecord := hsame.record
    rw [hc] at hrecord
    exact Option.some.inj (hrecord.symm.trans hd)
  have hone : c.anonymous = 1 := of_decide_eq_true hguest
  have hzero : d.anonymous = 0 := of_decide_eq_true hnamed
  rw [hcd] at hone
  omega

end ArpgServer
