import ArpgServer.Effects.Frame
import ArpgServer.Effects.Total
import ArpgServer.Messages.Authority
import ArpgServer.Model.Clock
import ArpgServer.Model.Threads
import ArpgServer.Names.Lookup

/-!
# The removal of idle clients

The loop of `serv_heartbeat` removes a client when more than 120 seconds lie between
`mytimestamp` and the activity time in its record. That time is as late as the connection and
its last input event if `mytimestamp` is the time of day whenever a client is accepted, and if
a client stays silent and registered while it is being removed.
-/

namespace ArpgServer

open CText

variable {env : Env} {s s' : State} {p q : Addr} {c d : Client} {i : Nat} {w w' : Timed}
  {h : History} {a : Moment} {heart heart' : Heart}

/-! ## The steps of a sweep -/

/-- The sweep from an index on. -/
def sweepFrom (env : Env) (i : Nat) : Proc State Unit :=
  sweepOver env (List.range' i (maxFds - i))

/-- The end of `sweepAt`. -/
def removeAt (env : Env) (node : Option Addr) : Proc State Unit := do
  let _ ← nodeDel env node
  return ()

/-- The same from the third time on that it reads `fd_clients[i]`. -/
def fetchAt (env : Env) (i : Nat) : Proc State Unit := do
  let node ← Proc.read fun s => some (s.fdClients i)
  removeAt env node

/-- The end of `sweepAt`, from the second time on. -/
def testAt (env : Env) (i : Nat) : Proc State Unit := do
  let idle ← Proc.read fun s =>
    (s.fdClients i).bind fun p => (s.heap p).map (isIdle s.mytimestamp)
  if idle then fetchAt env i else return ()

theorem sweepFrom_of_lt (hi : i < maxFds) :
    sweepFrom env i = sweepAt env i >>= fun _ => sweepFrom env (i + 1) := by
  have hlen : maxFds - i = maxFds - (i + 1) + 1 := by omega
  rw [sweepFrom, hlen, List.range'_succ]
  rfl

theorem sweepFrom_of_le (hi : ¬ i < maxFds) : sweepFrom env i = .ret () := by
  have hlen : maxFds - i = 0 := by omega
  rw [sweepFrom, hlen]
  rfl

/-- What `serv_heartbeat` has left of its sweep. -/
def Heart.rest (env : Env) : Heart → Proc State Unit
  | asleep => .ret ()
  | look i => sweepFrom env i
  | test i => do
    testAt env i
    sweepFrom env (i + 1)
  | fetch i => do
    fetchAt env i
    sweepFrom env (i + 1)
  | leave i node => do
    removeAt env (some node)
    sweepFrom env (i + 1)
  | quit i node roomid => do
    Proc.modify (leaveSection env node roomid)
    Proc.modify (unregisterSection env node)
    Proc.modify (freeSection node)
    sweepFrom env (i + 1)
  | unregister i node => do
    Proc.modify (unregisterSection env node)
    Proc.modify (freeSection node)
    sweepFrom env (i + 1)
  | free i node => do
    Proc.modify (freeSection node)
    sweepFrom env (i + 1)

theorem advance_modify (F : State → Option State) (job : Proc State Unit) (s : State) :
    Threads.advance (Proc.modify F >>= fun _ => job) s = (F s).map fun t => (t, job) := by
  change Option.map _ (Option.map _ _) = _
  rw [Option.map_map]
  rfl

/-- The steps of the heartbeat are the sections of the sweep. -/
theorem Heart.beat_rest (env : Env) (s : State) (heart : Heart) :
    (heart.beat env s).map (fun r => (r.1, r.2.rest env)) =
      Threads.advance (heart.rest env) s := by
  cases heart with
  | asleep => rfl
  | look i =>
    by_cases hi : i < maxFds
    · have hlook : Threads.advance (Heart.rest env (.look i)) s =
          some (s, (if s.fdClients i = none then .ret () else testAt env i) >>= fun _ =>
            sweepFrom env (i + 1)) := by
        rw [Heart.rest, sweepFrom_of_lt hi]
        rfl
      rw [hlook, Heart.beat, if_pos hi]
      split <;> rfl
    · rw [Heart.beat, if_neg hi, Heart.rest, sweepFrom_of_le hi]
      rfl
  | test i =>
    have htest : Threads.advance (Heart.rest env (.test i)) s =
        ((s.fdClients i).bind fun p => (s.heap p).map (isIdle s.mytimestamp)).map fun idle =>
          (s, (if idle then fetchAt env i else .ret ()) >>= fun _ => sweepFrom env (i + 1)) := by
      change Option.map _ (Option.map _ _) = _
      rw [Option.map_map]
      rfl
    rw [htest, Heart.beat, Option.map_bind, Option.map_bind]
    congr 1
    funext p
    simp only [Function.comp_apply, Option.map_map]
    congr 1
    funext c
    simp only [Function.comp_apply]
    split <;> rfl
  | fetch i =>
    rw [Heart.beat]
    have hfetch : Threads.advance (Heart.rest env (.fetch i)) s =
      some (s, removeAt env (s.fdClients i) >>= fun _ => sweepFrom env (i + 1)) := rfl
    rw [hfetch]
    cases s.fdClients i <;> rfl
  | leave i node =>
    have hleave : Threads.advance (Heart.rest env (.leave i node)) s =
        ((s.heap node).map Client.roomid).map fun roomid =>
          (s, if (maxRooms : Int) < roomid ∨ roomid < 0 then Heart.rest env (.unregister i node)
            else Heart.rest env (.quit i node roomid)) := by
      change Option.map _ (Option.map _ _) = _
      rw [Option.map_map]
      congr 1
      funext roomid
      simp only [Function.comp_apply]
      by_cases hout : (maxRooms : Int) < roomid ∨ roomid < 0
      · simp only [Proc.bind, if_pos hout]
        rfl
      · simp only [Proc.bind, if_neg hout]
        rfl
    rw [hleave, Heart.beat, Option.map_map, Option.map_map]
    congr 1
    funext c
    simp only [Function.comp_apply]
    split <;> rfl
  | quit i node roomid =>
    rw [Heart.rest, advance_modify, Heart.beat, Option.map_map]
    rfl
  | unregister i node =>
    rw [Heart.rest, advance_modify, Heart.beat, Option.map_map]
    rfl
  | free i node =>
    rw [Heart.rest, advance_modify, Heart.beat, Option.map_map]
    rfl

/-- Its first section reads the time. -/
theorem advance_sweep (env : Env) (s : State) : Threads.advance (sweep env) s =
    some (s.tick env.now, Heart.rest env (.look 0)) := by
  rw [sweep, List.range_eq_range']
  rfl

/-! ## One step -/

/-- The client that `node_del` has been given. -/
def Heart.held (heart : Heart) : List Addr := (heart.removing.map Prod.snd).toList

/-- The record says that the client has been silent for more than 120 seconds. -/
def State.Overdue (s : State) (p : Addr) : Prop :=
  ∃ c, s.heap p = some c ∧ 120 < s.mytimestamp - c.keepalivetime

/-- A step of a removal leaves all other clients alone, and after the last one the client is
gone. -/
structure BeatEffect (heart : Heart) (s s' : State) : Prop where
  record : ∀ q, q ∉ heart.held → s'.heap q = s.heap q
  others : Preserves heart.held s s'
  gone : ∀ i p, heart = .free i p → s'.heap p = none ∧ s'.fdClients i = none ∧
    ∀ r, p ∉ (s'.rooms r).rClient

/-- The steps on a client in the place `node_del` takes it to be in. -/
structure Heart.Holds (heart : Heart) (s : State) (i : Nat) (p : Addr) (c : Client) : Prop where
  client : s.heap p = some c
  fd : c.fd = i
  room : heart.Expects c.roomid

theorem beatEffect_refl (hfree : ∀ i p, heart ≠ .free i p) : BeatEffect heart s s where
  record := fun _ _ => rfl
  others := .of_eq rfl rfl rfl rfl
  gone := fun i p h => absurd h (hfree i p)

/-- What a step does when the client is where `node_del` takes it to be. -/
structure BeatKeeps (heart : Heart) (s s' : State) : Prop where
  effect : BeatEffect heart s s'
  sound : Sound s'
  size : s'.hashSize = s.hashSize
  stamps : KeepsStamps s s'
  clock : s'.mytimestamp = s.mytimestamp

theorem beatKeeps_refl (hs : Sound s) (hfree : ∀ i p, heart ≠ .free i p) : BeatKeeps heart s s :=
  ⟨beatEffect_refl hfree, hs, rfl, .of_heap rfl, rfl⟩

theorem leaveSection_beat {roomid : Int} (hs : Sound s) (hroom : 0 ≤ roomid)
    (hheld : (Heart.quit i p roomid).Holds s i p c) (h : leaveSection env p roomid s = some s') :
    BeatKeeps (.quit i p roomid) s s' := by
  obtain ⟨hp, -, hcur⟩ := hheld
  have hcur : c.roomid = roomid := hcur
  obtain ⟨r, rfl⟩ : ∃ r : Nat, roomid = r := ⟨roomid.toNat, by omega⟩
  have hkept : Kept env none s s' := leaveSection_kept h
  rw [← hcur] at h
  obtain ⟨name, -, rfl⟩ := leaveSection_effect hs hp hcur h
  have hmem : p ∈ (Heart.quit i p r).held := List.mem_singleton.mpr rfl
  refine ⟨⟨fun q hq => ?_, (Preserves.vacate hs hp hmem).trans (.post _), nofun⟩,
    (hs.vacate hp).post _, State.vacate_hashSize s p c, hkept.stamps, hkept.clock⟩
  have hqp : q ≠ p := fun heq => hq (heq ▸ hmem)
  rw [State.post_heap, hs.vacate_heap hp, Function.update_of_ne hqp]

theorem unregisterSection_beat (hs : Sound s) (hheld : (Heart.unregister i p).Holds s i p c)
    (h : unregisterSection env p s = some s') : BeatKeeps (.unregister i p) s s' := by
  have hp := hheld.client
  have hkept : Kept env none s s' := unregisterSection_kept h
  simp only [unregisterSection, hp, Option.bind_some] at h
  obtain ⟨key, -, h⟩ := Option.bind_eq_some_iff.mp h
  obtain ⟨chain, hchain, rfl⟩ := hashDel_eq_some h
  have hmem : p ∈ (Heart.unregister i p).held := List.mem_singleton.mpr rfl
  exact ⟨⟨fun _ _ => rfl, .setBucket hs hp hmem hchain, fun _ _ h => by cases h⟩,
    hs.setBucket _ _, rfl, hkept.stamps, hkept.clock⟩

theorem freeSection_beat (env : Env) (hs : Sound s) (hheld : (Heart.free i p).Holds s i p c)
    (h : freeSection p s = some s') : BeatKeeps (.free i p) s s' := by
  obtain ⟨hp, hfd, hroom⟩ := hheld
  have hkept : Kept env none s s' := freeSection_kept h
  simp only [freeSection, hp, Option.map_some, Option.some.injEq] at h
  subst h
  have hmem : p ∈ (Heart.free i p).held := List.mem_singleton.mpr rfl
  have hs' : Sound (s.freed p c) := hs.freed hp hroom
  have hgone : (s.freed p c).heap p = none := Function.update_self ..
  refine ⟨⟨fun q hq => ?_, .freed hs hp hmem, ?_⟩, hs', rfl, hkept.stamps, hkept.clock⟩
  · have hqp : q ≠ p := fun heq => hq (heq ▸ hmem)
    exact Function.update_of_ne hqp ..
  · rintro j q hq
    cases hq
    refine ⟨hgone, ?_, fun r hr => ?_⟩
    · rw [← hfd]
      exact Function.update_self ..
    · obtain ⟨d, hd, -⟩ := hs'.member_success hr
      have hd : (s.freed p c).heap p = some d := hd
      rw [hgone] at hd
      cases hd

theorem Heart.beat_keeps (hs : Sound s)
    (hquit : ∀ i p roomid, heart = .quit i p roomid → 0 ≤ roomid)
    (hheld : ∀ i p, heart.removing = some (i, p) → ∃ c, heart.Holds s i p c)
    (h : heart.beat env s = some (s', heart')) : BeatKeeps heart s s' := by
  cases heart with
  | asleep => cases h
  | look i =>
    simp only [Heart.beat] at h
    split at h
    · cases h
      exact beatKeeps_refl hs nofun
    · cases h
  | test i =>
    obtain ⟨p, -, h⟩ := Option.bind_eq_some_iff.mp h
    obtain ⟨c, -, h⟩ := Option.map_eq_some_iff.mp h
    cases h
    exact beatKeeps_refl hs nofun
  | fetch i =>
    simp only [Heart.beat] at h
    split at h <;>
    · cases h
      exact beatKeeps_refl hs nofun
  | leave i p =>
    obtain ⟨c, -, h⟩ := Option.map_eq_some_iff.mp h
    split at h <;>
    · cases h
      exact beatKeeps_refl hs nofun
  | quit i p roomid =>
    obtain ⟨t, ht, h⟩ := Option.map_eq_some_iff.mp h
    cases h
    obtain ⟨c, hc⟩ := hheld i p rfl
    exact leaveSection_beat hs (hquit i p roomid rfl) hc ht
  | unregister i p =>
    obtain ⟨t, ht, h⟩ := Option.map_eq_some_iff.mp h
    cases h
    obtain ⟨c, hc⟩ := hheld i p rfl
    exact unregisterSection_beat hs hc ht
  | free i p =>
    obtain ⟨t, ht, h⟩ := Option.map_eq_some_iff.mp h
    cases h
    obtain ⟨c, hc⟩ := hheld i p rfl
    exact freeSection_beat env hs hc ht

/-- The heartbeat goes on to the next index when the client at this one is not overdue or gone. -/
theorem Heart.beat_index (hs : Sound s) (hkeeps : BeatKeeps heart s s')
    (h : heart.beat env s = some (s', heart')) : ∃ i, heart.index = some i ∧
      (heart'.index = some i ∨ heart'.index = some (i + 1) ∧ ∀ p c, s'.heap p = some c →
        c.fd = i → s.mytimestamp - c.keepalivetime ≤ 120) := by
  have hfree : ∀ {i : Nat}, s'.fdClients i = none → ∀ p c, s'.heap p = some c → c.fd = i →
      s.mytimestamp - c.keepalivetime ≤ 120 := by
    rintro i hfd p c hp rfl
    rw [hkeeps.sound.current p c hp] at hfd
    cases hfd
  cases heart with
  | asleep => cases h
  | look i =>
    refine ⟨i, rfl, ?_⟩
    simp only [Heart.beat] at h
    split at h
    · cases h
      split
      · rename_i hfd
        exact Or.inr ⟨rfl, hfree hfd⟩
      · exact Or.inl rfl
    · cases h
  | test i =>
    refine ⟨i, rfl, ?_⟩
    obtain ⟨q, hfd, h⟩ := Option.bind_eq_some_iff.mp h
    obtain ⟨d, hq, h⟩ := Option.map_eq_some_iff.mp h
    cases h
    split
    · exact Or.inl rfl
    · rename_i hidle
      refine Or.inr ⟨rfl, fun p c hp hc => ?_⟩
      have hcur := hs.current p c hp
      rw [hc, hfd] at hcur
      cases hcur
      rw [hq] at hp
      cases hp
      simpa [isIdle] using hidle
  | fetch i =>
    refine ⟨i, rfl, ?_⟩
    simp only [Heart.beat] at h
    split at h
    · rename_i hfd
      cases h
      exact Or.inr ⟨rfl, hfree hfd⟩
    · cases h
      exact Or.inl rfl
  | leave i p =>
    refine ⟨i, rfl, Or.inl ?_⟩
    obtain ⟨c, -, h⟩ := Option.map_eq_some_iff.mp h
    split at h <;>
    · cases h
      rfl
  | quit i p roomid =>
    refine ⟨i, rfl, Or.inl ?_⟩
    obtain ⟨t, -, h⟩ := Option.map_eq_some_iff.mp h
    cases h
    rfl
  | unregister i p =>
    refine ⟨i, rfl, Or.inl ?_⟩
    obtain ⟨t, -, h⟩ := Option.map_eq_some_iff.mp h
    cases h
    rfl
  | free i p =>
    obtain ⟨t, -, h⟩ := Option.map_eq_some_iff.mp h
    cases h
    exact ⟨i, rfl, Or.inr ⟨rfl, hfree (hkeeps.effect.gone i p rfl).2.1⟩⟩

/-- `leave_room` goes on only with a room. -/
theorem Heart.beat_quit {roomid : Int}
    (h : heart.beat env s = some (s', .quit i p roomid)) : 0 ≤ roomid := by
  cases heart with
  | asleep => cases h
  | look j =>
    simp only [Heart.beat] at h
    split at h
    · split at h <;> cases h
    · cases h
  | test j =>
    obtain ⟨q, -, h⟩ := Option.bind_eq_some_iff.mp h
    obtain ⟨d, -, h⟩ := Option.map_eq_some_iff.mp h
    split at h <;> cases h
  | fetch j =>
    simp only [Heart.beat] at h
    split at h <;> cases h
  | leave j q =>
    obtain ⟨c, -, h⟩ := Option.map_eq_some_iff.mp h
    split at h
    · cases h
    · cases h
      omega
  | quit j q r =>
    obtain ⟨t, -, h⟩ := Option.map_eq_some_iff.mp h
    cases h
  | unregister j q =>
    obtain ⟨t, -, h⟩ := Option.map_eq_some_iff.mp h
    cases h
  | free j q =>
    obtain ⟨t, -, h⟩ := Option.map_eq_some_iff.mp h
    cases h

/-! ## Every step ends -/

theorem Heart.beat_total (hs : Sound s) (hsize : 0 < s.hashSize) (henv : env.Readable)
    (hin : ∀ i, heart.index = some i → i < maxFds) (hawake : heart ≠ .asleep)
    (hquit : ∀ i p roomid, heart = .quit i p roomid → 0 ≤ roomid)
    (htest : ∀ i, heart = .test i → s.fdClients i ≠ none)
    (hheld : ∀ i p, heart.removing = some (i, p) → ∃ c, heart.Holds s i p c) :
    ∃ r, heart.beat env s = some r := by
  cases heart with
  | asleep => exact absurd rfl hawake
  | look i =>
    rw [Heart.beat, if_pos (hin i rfl)]
    exact ⟨_, rfl⟩
  | test i =>
    obtain ⟨p, hfd⟩ := Option.ne_none_iff_exists'.mp (htest i rfl)
    obtain ⟨c, hp, -⟩ := hs.registered i p hfd
    simp only [Heart.beat, hfd, Option.bind_some, hp, Option.map_some]
    exact ⟨_, rfl⟩
  | fetch i =>
    cases hfd : s.fdClients i with
    | none => exact ⟨(s, .look (i + 1)), by simp only [Heart.beat, hfd]⟩
    | some p => exact ⟨(s, .leave i p), by simp only [Heart.beat, hfd]⟩
  | leave i p =>
    obtain ⟨c, hc⟩ := hheld i p rfl
    rw [Heart.beat, hc.client]
    exact ⟨_, rfl⟩
  | quit i p roomid =>
    obtain ⟨c, hp, -, hroom⟩ := hheld i p rfl
    have hroom : c.roomid = roomid := hroom
    have hpos := hquit i p roomid rfl
    obtain ⟨r, rfl⟩ : ∃ r : Nat, roomid = r := ⟨roomid.toNat, by omega⟩
    obtain ⟨name, hname⟩ := read_total c.username (henv.overrun p)
    rw [Heart.beat, ← hroom, leaveSection_eq hs hp hroom, hname]
    exact ⟨_, rfl⟩
  | unregister i p =>
    obtain ⟨c, hc⟩ := hheld i p rfl
    obtain ⟨name, hname⟩ := read_total c.username (henv.overrun p)
    obtain ⟨chain, hchain⟩ :=
      chainDel_total henv s name c.fd (s.hashTable (s.bucketOf name))
    have hsize : s.hashSize ≠ 0 := by omega
    simp only [Heart.beat, unregisterSection, hc.client, Option.bind_some, hname, hashDel,
      if_neg hsize, hchain, Option.map_some]
    exact ⟨_, rfl⟩
  | free i p =>
    obtain ⟨c, hc⟩ := hheld i p rfl
    rw [Heart.beat, freeSection, hc.client]
    exact ⟨_, rfl⟩

/-! ## Real and recorded activity -/

/-- More than 120 seconds have passed since the connection and since its last input event. -/
def Activity.IdleAt (activity : Activity) (now : Int) : Prop :=
  120 < now - activity.accepted ∧ ∀ t, activity.input = some t → 120 < now - t

/-- The client that is being removed is still the one at its index, in the place `node_del` takes
it to be in and overdue, and no input event of it has begun that is not noted yet. -/
structure Steady (w : Timed) (i : Nat) (p : Addr) : Prop where
  holds : ∃ c, w.heart.Holds w.server i p c
  overdue : w.server.Overdue p
  begun : w.noting ≠ .begun i
  found : w.noting ≠ .found p

/-- The times fit `keepalivetime`, a client is accepted when `mytimestamp` is the time of day, and
the heartbeat still finds the client it has looked at and removes it undisturbed. -/
structure Punctual (w : Timed) (a : Moment) : Prop where
  fits : w.clock < 2 ^ 31
  accept : ∀ fd node, a = .accept fd node → w.server.mytimestamp = w.clock
  test : a = .beat → ∀ i, w.heart = .test i → w.server.fdClients i ≠ none
  remove : a = .beat → ∀ i p, w.heart.removing = some (i, p) → Steady w i p

/-- All removals so far were of idle clients, a step of the heartbeat touches the client that is
being removed and nobody else and does come to its end, and after a whole loop nobody is left who
was overdue when it began. -/
structure IdleExact (w : Timed) (h : History) : Prop where
  removals : ∀ r ∈ h.removals, r.activity.IdleAt r.time
  beat : ∀ env w', Punctual w .beat → w.turn env .beat = some w' →
    BeatEffect w.heart w.server w'.server
  total : ∀ env i, Punctual w .beat → env.Readable → w.heart.index = some i → i < maxFds →
    ∃ w', w.turn env .beat = some w'
  swept : w.heart = .look maxFds → ∀ p c, w.server.heap p = some c →
    h.woken - c.keepalivetime ≤ 120

/-- A record is as recent as the activity of its client. An event may not be noted yet. -/
structure Recent (w : Timed) (p : Addr) (c : Client) (activity : Activity) : Prop where
  past : c.keepalivetime ≤ w.server.mytimestamp
  accepted : activity.accepted ≤ c.keepalivetime
  input : ∀ t, activity.input = some t → t ≤ c.keepalivetime ∨
    (w.noting = .begun c.fd ∨ w.noting = .found p) ∧ t ≤ w.server.mytimestamp

/-- What every moment keeps. -/
structure Timely (w : Timed) (h : History) : Prop where
  sound : Sound w.server
  size : 0 < w.server.hashSize
  woken : h.woken ≤ w.server.mytimestamp
  past : 0 ≤ w.server.mytimestamp ∧ w.server.mytimestamp ≤ w.clock
  range : ∀ p c, w.server.heap p = some c → c.fd < maxFds
  recent : ∀ p c, w.server.heap p = some c → Recent w p c (h.activity p)
  swept : ∀ i p c, w.heart.index = some i → w.server.heap p = some c → c.fd < i →
    h.woken - c.keepalivetime ≤ 120
  quit : ∀ i p roomid, w.heart = .quit i p roomid → 0 ≤ roomid
  removals : ∀ r ∈ h.removals, r.activity.IdleAt r.time

theorem toInt32_of_past {n : Int} (h0 : 0 ≤ n) (h : n < 2 ^ 31) : toInt32 n = n := by
  unfold toInt32
  apply Int.bmod_eq_of_le
  · omega
  · omega

theorem Recent.later (hr : Recent w p c (h.activity p)) (hstamp : c.SameStamp d)
    (hnoting : w'.noting = w.noting) (hclock : w.server.mytimestamp ≤ w'.server.mytimestamp) :
    Recent w' p d (h.activity p) where
  past := by
    have hpast := hr.past
    rw [hstamp.keepalivetime]
    omega
  accepted := by
    rw [hstamp.keepalivetime]
    exact hr.accepted
  input t ht := by
    rw [hstamp.keepalivetime, hstamp.fd, hnoting]
    rcases hr.input t ht with hin | ⟨hev, hin⟩
    · exact Or.inl hin
    · exact Or.inr ⟨hev, by omega⟩

theorem Recent.congr {activity : Activity} (hr : Recent w p c activity)
    (hserver : w'.server = w.server) (hnoting : w'.noting = w.noting) : Recent w' p c activity :=
  ⟨hserver ▸ hr.past, hr.accepted, by rw [hserver, hnoting]; exact hr.input⟩

/-- No event of the client waits to be noted. -/
theorem Recent.noted {activity : Activity} (hr : Recent w p c activity)
    (hbegun : w.noting ≠ .begun c.fd) (hfound : w.noting ≠ .found p) {t : Int}
    (ht : activity.input = some t) : t ≤ c.keepalivetime :=
  (hr.input t ht).resolve_right fun h => h.1.elim hbegun hfound

namespace Timely

/-- Records keep their activity times while time goes on. -/
theorem carry (ht : Timely w h) (hs : Sound s) (hsize : s.hashSize = w.server.hashSize)
    (hstamps : KeepsStamps w.server s) (hclock : w.server.mytimestamp ≤ s.mytimestamp)
    (hpast : s.mytimestamp ≤ w.clock) : Timely { w with server := s } h where
  sound := hs
  size := hsize ▸ ht.size
  woken := by
    have hwoken := ht.woken
    show h.woken ≤ s.mytimestamp
    omega
  past := by
    have hpast₀ := ht.past.1
    exact ⟨by show 0 ≤ s.mytimestamp; omega, hpast⟩
  range p d hd := by
    obtain ⟨c, hc, hstamp⟩ := hstamps p d hd
    rw [hstamp.fd]
    exact ht.range p c hc
  recent p d hd := by
    obtain ⟨c, hc, hstamp⟩ := hstamps p d hd
    exact (ht.recent p c hc).later hstamp rfl hclock
  swept i p d hi hd hlt := by
    obtain ⟨c, hc, hstamp⟩ := hstamps p d hd
    rw [hstamp.keepalivetime]
    exact ht.swept i p c hi hc (hstamp.fd ▸ hlt)
  quit := ht.quit
  removals := ht.removals

theorem tick (ht : Timely w h) : Timely { w with server := w.server.tick w.clock } h :=
  ht.carry (ht.sound.tick w.clock) rfl (.of_heap rfl) ht.past.2 (Int.le_refl w.clock)

theorem wait (ht : Timely w h) (seconds : Nat) :
    Timely { w with clock := w.clock + seconds } h :=
  { ht with
    past := by
      obtain ⟨hpos, hpast⟩ := ht.past
      exact ⟨hpos, by show w.server.mytimestamp ≤ w.clock + seconds; omega⟩
    recent := fun p c hp => (ht.recent p c hp).congr rfl rfl }

/-- The heartbeat goes on, when all before its index were tested. -/
theorem move (ht : Timely w h)
    (hswept : ∀ i p c, heart.index = some i → w.server.heap p = some c → c.fd < i →
      h.woken - c.keepalivetime ≤ 120)
    (hquit : ∀ i p roomid, heart = .quit i p roomid → 0 ≤ roomid) :
    Timely { w with heart := heart } h :=
  { ht with
    recent := fun p c hp => (ht.recent p c hp).congr rfl rfl
    swept := hswept
    quit := hquit }

theorem sleep (ht : Timely w h) : Timely { w with heart := .asleep } h :=
  ht.move (fun i p c hi => by cases hi) nofun

theorem wake (ht : Timely w h) :
    Timely { w with server := w.server.tick w.clock, heart := .look 0 }
      { h with woken := w.clock } :=
  { ht.tick with
    woken := Int.le_refl w.clock
    recent := fun p c hp => (ht.tick.recent p c hp).congr rfl rfl
    swept := fun i p c hi hc hlt => by
      cases hi
      omega
    quit := nofun }

theorem task (ht : Timely w h) {fd : Nat} {recvBits : Int} {data : Bytes}
    (hact : act (getFdnodeByname (env.atTime w.clock)) (env.atTime w.clock) w.server
      (.task fd recvBits data) = some s) : Timely { w with server := s } h := by
  have heff := act_effect ht.sound (getFdnodeByname_registered _) hact
  obtain ⟨hstamps, hclock⟩ := (act_frame hact).stamps
  obtain ⟨hpos, hpast⟩ := ht.past
  have hnow : s.mytimestamp = w.server.mytimestamp ∨ s.mytimestamp = w.clock := hclock
  refine ht.carry (heff.sound ht.sound) (heff.hashSize_eq ht.sound) hstamps ?_ ?_
  · omega
  · omega

/-- An accepted client is as recent as `mytimestamp`. -/
theorem accept (ht : Timely w h) {fd : Nat} {node : Addr} (hfits : w.clock < 2 ^ 31)
    (hnow : w.server.mytimestamp = w.clock) (hacc : acceptClient fd node w.server = some s) :
    Timely { w with server := s } (h.set node ⟨w.clock, none⟩) := by
  obtain ⟨⟨hfd, hfree, hnode⟩, rfl⟩ := acceptClient_eq_some hacc
  have hstamp : toInt32 w.server.mytimestamp = w.server.mytimestamp :=
    toInt32_of_past ht.past.1 (by omega)
  have hwoken := ht.woken
  refine ⟨ht.sound.accept hfree hnode w.server.mytimestamp, ht.size, ht.woken, ht.past,
    ?_, ?_, ?_, ht.quit, ht.removals⟩
  · intro p c hp
    rcases update_eq_some hp with ⟨rfl, rfl⟩ | ⟨-, hp⟩
    · exact hfd
    · exact ht.range p c hp
  · intro p c hp
    rcases update_eq_some hp with ⟨rfl, rfl⟩ | ⟨hne, hp⟩
    · rw [History.set_self]
      refine ⟨?_, ?_, fun t ht => by cases ht⟩
      · exact Int.le_of_eq hstamp
      · show w.clock ≤ toInt32 w.server.mytimestamp
        omega
    · rw [History.set_of_ne h _ hne]
      exact (ht.recent p c hp).later (.refl c) rfl (Int.le_refl _)
  · intro i p c hi hp hlt
    rcases update_eq_some hp with ⟨rfl, rfl⟩ | ⟨-, hp⟩
    · show h.woken - toInt32 w.server.mytimestamp ≤ 120
      omega
    · exact ht.swept i p c hi hp hlt

/-- `serv_epoll` reads the time for an event. -/
theorem event_free (ht : Timely w h) (hwaiting : w.noting = .waiting) (fd : Nat) :
    Timely { w with server := w.server.tick w.clock, noting := .begun fd } h := by
  refine { ht.tick with recent := fun p c hp => ?_ }
  have hrec := ht.tick.recent p c hp
  exact ⟨hrec.past, hrec.accepted, fun t hin =>
    Or.inl (hrec.noted (by simp [hwaiting]) (by simp [hwaiting]) hin)⟩

theorem event (ht : Timely w h) (hwaiting : w.noting = .waiting) {fd : Nat}
    (hfd : w.server.fdClients fd = some q) :
    Timely { w with server := w.server.tick w.clock, noting := .begun fd }
      (h.set q ⟨(h.activity q).accepted, some w.clock⟩) := by
  have hfree := ht.event_free hwaiting fd
  refine { hfree with recent := fun p c hp => ?_ }
  have hrec := hfree.recent p c hp
  by_cases hpq : p = q
  · subst hpq
    have hci : c.fd = fd := by
      obtain ⟨d, hd, hdfd⟩ := hfree.sound.registered fd p hfd
      have hp' : (w.server.tick w.clock).heap p = some c := hp
      rw [hp'] at hd
      cases hd
      exact hdfd
    rw [History.set_self]
    refine ⟨hrec.past, hrec.accepted, fun t hin => Or.inr ⟨Or.inl (by rw [hci]), ?_⟩⟩
    cases hin
    exact Int.le_refl w.clock
  · rw [History.set_of_ne h _ hpq]
    exact hrec

/-- The descriptor of an event has no client. -/
theorem dropped (ht : Timely w h) {fd : Nat} (hev : w.noting = .begun fd)
    (hfd : w.server.fdClients fd = none) : Timely { w with noting := .waiting } h := by
  refine { ht with recent := fun p c hp => ?_ }
  have hrec := ht.recent p c hp
  refine ⟨hrec.past, hrec.accepted, fun t hin => Or.inl (hrec.noted ?_ (by simp [hev]) hin)⟩
  rintro hc
  rw [hev] at hc
  cases hc
  rw [ht.sound.current p c hp] at hfd
  cases hfd

/-- The descriptor of an event has a client. -/
theorem find (ht : Timely w h) {fd : Nat} (hev : w.noting = .begun fd)
    (hfd : w.server.fdClients fd = some q) : Timely { w with noting := .found q } h := by
  refine { ht with recent := fun p c hp => ?_ }
  have hrec := ht.recent p c hp
  refine ⟨hrec.past, hrec.accepted, fun t hin => ?_⟩
  rcases hrec.input t hin with hin | ⟨hpending, hin⟩
  · exact Or.inl hin
  · refine Or.inr ⟨Or.inr ?_, hin⟩
    rcases hpending with hbegun | hfound
    · rw [hev] at hbegun
      cases hbegun
      rw [ht.sound.current p c hp] at hfd
      cases hfd
      rfl
    · rw [hev] at hfound
      cases hfound

theorem note (ht : Timely w h) (hfits : w.clock < 2 ^ 31) (hev : w.noting = .found p)
    (hp : w.server.heap p = some c) :
    Timely { w with
      server := w.server.setClient p { c with keepalivetime := toInt32 w.server.mytimestamp }
      noting := .waiting } h := by
  obtain ⟨hpos, hpast⟩ := ht.past
  have hstamp : toInt32 w.server.mytimestamp = w.server.mytimestamp :=
    toInt32_of_past hpos (by omega)
  have hwoken := ht.woken
  have hrec := ht.recent p c hp
  refine ⟨ht.sound.setClient hp rfl rfl (ht.sound.waiting p c hp), ht.size, ht.woken, ht.past,
    ?_, ?_, ?_, ht.quit, ht.removals⟩
  · intro q d hd
    rcases update_eq_some hd with ⟨rfl, rfl⟩ | ⟨-, hd⟩
    · exact ht.range q c hp
    · exact ht.range q d hd
  · intro q d hd
    rcases update_eq_some hd with ⟨rfl, rfl⟩ | ⟨hne, hd⟩
    · have holdest := hrec.past
      have haccepted := hrec.accepted
      refine ⟨Int.le_of_eq hstamp, ?_, fun t hin => Or.inl ?_⟩
      · show (h.activity q).accepted ≤ toInt32 w.server.mytimestamp
        omega
      · show t ≤ toInt32 w.server.mytimestamp
        rcases hrec.input t hin with hin | ⟨-, hin⟩ <;> omega
    · have hother := ht.recent q d hd
      refine ⟨hother.past, hother.accepted, fun t hin => Or.inl (hother.noted ?_ ?_ hin)⟩
      · simp [hev]
      · simpa [hev] using Ne.symm hne
  · intro i q d hi hd hlt
    rcases update_eq_some hd with ⟨rfl, rfl⟩ | ⟨-, hd⟩
    · show h.woken - toInt32 w.server.mytimestamp ≤ 120
      omega
    · exact ht.swept i q d hi hd hlt

/-- A client that is removed undisturbed is idle. -/
theorem idle (ht : Timely w h) (hsteady : Steady w i p) : (h.activity p).IdleAt w.clock := by
  obtain ⟨c, hp, hlate⟩ := hsteady.overdue
  have hrec := ht.recent p c hp
  have haccepted := hrec.accepted
  obtain ⟨-, hpast⟩ := ht.past
  have hci : c.fd = i := by
    obtain ⟨d, hd⟩ := hsteady.holds
    have heq := hd.client
    rw [hp] at heq
    cases heq
    exact hd.fd
  refine ⟨by omega, fun t hin => ?_⟩
  have hinput := hrec.noted (hci ▸ hsteady.begun) hsteady.found hin
  omega

theorem beatKeeps (ht : Timely w h) (hok : Punctual w .beat)
    (hbeat : w.heart.beat env w.server = some (s, heart)) : BeatKeeps w.heart w.server s :=
  Heart.beat_keeps ht.sound ht.quit (fun i p hr => (hok.remove rfl i p hr).holds) hbeat

theorem beat (ht : Timely w h) (hok : Punctual w .beat)
    (hbeat : w.heart.beat env w.server = some (s, heart)) :
    Timely { w with server := s, heart := heart } (w.record h .beat) := by
  have hkeeps := ht.beatKeeps hok hbeat
  have hclock := hkeeps.clock
  have hsame : Timely { w with server := s } h :=
    ht.carry hkeeps.sound hkeeps.size hkeeps.stamps hclock.ge (hclock ▸ ht.past.2)
  obtain ⟨i, hi, hindex⟩ := Heart.beat_index ht.sound hkeeps hbeat
  have hnext : Timely { w with server := s, heart := heart } h := by
    refine hsame.move (fun j p c hj hp hlt => ?_) ?_
    · rcases hindex with hstay | ⟨hgo, hlast⟩
      · rw [hstay] at hj
        cases hj
        exact hsame.swept i p c hi hp hlt
      · rw [hgo] at hj
        cases hj
        by_cases hci : c.fd = i
        · have hrecent := hlast p c hp hci
          have hwoken := ht.woken
          omega
        · exact hsame.swept i p c hi hp (by omega)
    · rintro j p roomid rfl
      exact Heart.beat_quit hbeat
  simp only [Timed.record]
  split
  · rename_i j p hfree
    have hheart : w.heart.removing = some (j, p) := by rw [hfree, Heart.removing]
    refine { hnext with removals := fun r hr => ?_ }
    rcases List.mem_append.mp hr with hr | hr
    · exact ht.removals r hr
    · rw [List.mem_singleton.mp hr]
      exact ht.idle (hok.remove rfl j p hheart)
  · exact hnext

theorem turn (ht : Timely w h) (hok : Punctual w a) (hturn : w.turn env a = some w') :
    Timely w' (w.record h a) := by
  cases a with
  | wait seconds =>
    cases hturn
    exact ht.wait seconds
  | accept fd node =>
    obtain ⟨s, hacc, rfl⟩ := Option.map_eq_some_iff.mp hturn
    exact ht.accept hok.fits (hok.accept fd node rfl) hacc
  | event fd =>
    simp only [Timed.turn] at hturn
    split at hturn
    · rename_i hwaiting
      cases hturn
      cases hfd : w.server.fdClients fd with
      | none =>
        simp only [Timed.record, hfd]
        exact ht.event_free hwaiting fd
      | some q =>
        simp only [Timed.record, hfd]
        exact ht.event hwaiting hfd
    · cases hturn
  | find =>
    simp only [Timed.turn] at hturn
    split at hturn
    · rename_i fd hev
      split at hturn
      · rename_i hfd
        cases hturn
        exact ht.dropped hev hfd
      · rename_i q hfd
        cases hturn
        exact ht.find hev hfd
    · cases hturn
  | note =>
    simp only [Timed.turn] at hturn
    split at hturn
    · rename_i q hev
      obtain ⟨c, hq, rfl⟩ := Option.map_eq_some_iff.mp hturn
      exact ht.note hok.fits hev hq
    · cases hturn
  | task fd recvBits data =>
    obtain ⟨s, hact, rfl⟩ := Option.map_eq_some_iff.mp hturn
    exact ht.task hact
  | sleep =>
    simp only [Timed.turn] at hturn
    split at hturn
    · split at hturn
      · cases hturn
      · cases hturn
        exact ht.tick.sleep
    · cases hturn
  | wake =>
    simp only [Timed.turn] at hturn
    split at hturn
    · cases hturn
      exact ht.wake
    · cases hturn
  | beat =>
    obtain ⟨⟨s, heart⟩, hbeat, rfl⟩ := Option.map_eq_some_iff.mp hturn
    exact ht.beat hok hbeat

theorem start (conf : Nat → RoomConf) {clock : Int} (hclock : 0 ≤ clock) :
    Timely (Timed.start conf clock) History.start where
  sound := Sound.start conf
  size := by
    show 0 < maxUsers
    decide
  woken := Int.le_refl 0
  past := ⟨Int.le_refl 0, hclock⟩
  range p c hp := by cases hp
  recent p c hp := by cases hp
  swept i p c _ hp := by cases hp
  quit := nofun
  removals r hr := by cases hr

theorem idleExact (ht : Timely w h) : IdleExact w h where
  removals := ht.removals
  beat env w' hok hturn := by
    obtain ⟨⟨s, heart⟩, hbeat, rfl⟩ := Option.map_eq_some_iff.mp hturn
    exact (ht.beatKeeps hok hbeat).effect
  total env i hok henv hi hlt := by
    have hawake : w.heart ≠ .asleep := by
      rintro hasleep
      rw [hasleep] at hi
      cases hi
    obtain ⟨r, hr⟩ := Heart.beat_total ht.sound ht.size henv
      (fun j hj => Option.some.inj (hi.symm.trans hj) ▸ hlt) hawake ht.quit
      (hok.test rfl) (fun j p hr => (hok.remove rfl j p hr).holds)
    exact ⟨{ w with server := r.1, heart := r.2 }, by rw [Timed.turn, hr, Option.map_some]⟩
  swept hi p c hp := ht.swept maxFds p c (by rw [hi, Heart.index]) hp (ht.range p c hp)

end Timely

/-! ## All runs -/

/-- **Idle clients.** In the runs whose moments are punctual only idle clients are removed, and
each loop of the heartbeat removes all that were overdue when it began, and nobody else. -/
theorem idleExact_of_runs (hrun : TimedRuns Punctual w h) : IdleExact w h := by
  refine (hrun.invariant (I := Timely) ?_ ?_).idleExact
  · intro conf clock hclock
    exact .start conf hclock
  · intro env w h a w' ht hok hturn
    exact ht.turn hok hturn

/-! ## Given runs -/

/-- What can be checked of a moment. -/
def Timed.onTime (w : Timed) (a : Moment) : Bool :=
  decide (w.clock < 2 ^ 31) &&
    match a with
    | .accept _ _ => decide (w.server.mytimestamp = w.clock)
    | .beat =>
      match w.heart.removing with
      | some (i, p) => decide (w.noting ≠ .begun i ∧ w.noting ≠ .found p) &&
          (w.server.heap p).any fun c => decide (c.fd = i ∧ w.heart.Expects c.roomid ∧
            120 < w.server.mytimestamp - c.keepalivetime)
      | none => w.heart.index.all fun i =>
          decide (w.heart = .test i → w.server.fdClients i ≠ none)
    | _ => true

theorem Timed.onTime_punctual (h : w.onTime a = true) : Punctual w a := by
  obtain ⟨hfits, hrest⟩ := Bool.and_eq_true_iff.mp h
  refine ⟨of_decide_eq_true hfits, fun fd node ha => ?_, fun ha i htest => ?_,
    fun ha i p hremoving => ?_⟩
  · subst ha
    exact of_decide_eq_true hrest
  · subst ha
    simp only [htest, Heart.removing, Heart.index, Option.all_some] at hrest
    exact of_decide_eq_true hrest trivial
  · subst ha
    simp only [hremoving, Bool.and_eq_true, Option.any_eq_true] at hrest
    obtain ⟨hnoting, c, hp, hc⟩ := hrest
    obtain ⟨hbegun, hfound⟩ := of_decide_eq_true hnoting
    obtain ⟨hfd, hroom, hlate⟩ := of_decide_eq_true hc
    exact ⟨⟨c, hp, hfd, hroom⟩, ⟨c, hp, hlate⟩, hbegun, hfound⟩

/-- `serv_epoll` notes an input event of the descriptor. -/
def inputEvent (fd : Nat) : List Moment := [.event fd, .find, .note]

/-- A guest is silent for 121 seconds; while it is removed another client connects and sends. -/
def silentGuest : List Moment :=
  [.sleep, .accept 5 100] ++ inputEvent 5 ++ [.task 5 4 guestLogin.data, .wait 121, .wake] ++
    List.replicate 9 .beat ++ [.accept 6 200] ++ inputEvent 6 ++ List.replicate 4 .beat

theorem idleExact_of_runs_silent : ∃ w h,
    Timed.turns Timed.onTime (.delivering 0 guestLogin) silentGuest
      (Timed.start (fun _ => lobbyConf) 1000, History.start) = some (w, h) ∧
    h.removals.map Removal.time = [1121] ∧ (w.server.heap 200).isSome ∧ IdleExact w h := by
  have hcheck : (Timed.turns Timed.onTime (.delivering 0 guestLogin) silentGuest
      (Timed.start (fun _ => lobbyConf) 1000, History.start)).any
        (fun x => x.2.removals.map Removal.time = [1121] ∧ (x.1.server.heap 200).isSome) := by
    decide +kernel
  obtain ⟨x, hrun, hx⟩ := (Option.any_eq_true _ _).mp hcheck
  obtain ⟨hremovals, hother⟩ := of_decide_eq_true hx
  refine ⟨x.1, x.2, hrun, hremovals, hother, idleExact_of_runs ?_⟩
  exact timedRuns_of_turns (by decide) (fun w a => Timed.onTime_punctual) hrun

/-- A client that is accepted while the heartbeat sleeps. -/
def lateClient : List Moment :=
  [.sleep, .wait 121, .accept 5 100, .wake] ++ List.replicate 11 .beat

/-- It is removed at once. -/
theorem idle_not_exact : ¬ ∀ w h, TimedRuns (fun w _ => w.clock < 2 ^ 31) w h → IdleExact w h := by
  intro hall
  have hcheck : (Timed.turns (fun w _ => decide (w.clock < 2 ^ 31)) (.delivering 0 quitPacket)
      lateClient (Timed.start (fun _ => lobbyConf) 1000, History.start)).any
        (fun x => x.2.removals.any fun r => r.activity.accepted = r.time) := by
    decide +kernel
  obtain ⟨x, hrun, hx⟩ := (Option.any_eq_true _ _).mp hcheck
  obtain ⟨r, hr, hlate⟩ := List.any_eq_true.mp hx
  have hruns : TimedRuns (fun w _ => w.clock < 2 ^ 31) x.1 x.2 :=
    timedRuns_of_turns (by decide) (fun w a h => of_decide_eq_true h) hrun
  have hexact := hall x.1 x.2 hruns
  have hidle := (hexact.removals r hr).1
  rw [of_decide_eq_true hlate] at hidle
  omega

end ArpgServer
