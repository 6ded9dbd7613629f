import ArpgServer.Effects.Frame
import ArpgServer.Effects.Sections
import ArpgServer.Model.Threads

/-!
# All interleavings

When several workers handle messages at a time, some invariants of the runs that handle one
message after another are lost. What is left whatever the threads do: open descriptors and
records match one to one, and every room counts its members and keeps its configuration. The
runs in which messages are handled one at a time are among the interleavings.
-/

namespace ArpgServer

open Threads

variable {outside : Env → Prop} {conf : Nat → RoomConf} {env : Env} {s t : State} {p : Addr}
  {c d : Client} {m m' : Threads}

/-! ## Moves -/

/-- What a section does in an environment of some kind. -/
abbrev Altered (outside : Env → Prop) : State → State → Prop :=
  Relation.ReflTransGen fun s t => ∃ env, outside env ∧ Change True env s t

theorem Changes.altered (ho : outside env) (h : Changes True env s t) : Altered outside s t :=
  Relation.ReflTransGen.mono (fun _ _ hchange => ⟨env, ho, hchange⟩) _ _ h

theorem sections_altered {α : Type} {job : Proc State α} (ho : outside env)
    (h : job.Sections (Changes True env)) : job.Sections (Altered outside) :=
  h.mono fun _ _ hchange => Changes.altered ho hchange

theorem sweepAt_sections (env : Env) (i : Nat) : (sweepAt env i).Sections (Changes True env) := by
  refine .bind (.read _) fun first => .ite (.ret _) (.bind (.read _) fun idle => .ite ?_ (.ret _))
  exact .bind (.read _) fun node => .bind (nodeDel_sections env node) fun _ => .ret _

theorem sweepOver_sections (env : Env) (l : List Nat) :
    (sweepOver env l).Sections (Changes True env) := by
  induction l with
  | nil => exact .ret _
  | cons i rest ih => exact .bind (sweepAt_sections env i) fun _ => ih

theorem sweep_sections (env : Env) : (sweep env).Sections (Changes True env) := by
  unfold sweep
  generalize List.range maxFds = l
  refine .bind (.modify fun s t h => ?_) fun _ => sweepOver_sections env l
  cases h
  exact .single (.clock s env.now)

/-- The procedures the threads have begun. -/
structure Begun (outside : Env → Prop) (m : Threads) : Prop where
  workers : ∀ job ∈ m.workers, job.Sections (Altered outside)
  heart : m.heart.Sections (Altered outside)

theorem begun_resting (outside : Env → Prop) (m : Machine) (workers : Nat) :
    Begun outside (resting m workers) where
  workers job hjob := by
    rw [List.eq_of_mem_replicate hjob]
    exact .ret _
  heart := .ret _

theorem Begun.set (h : Begun outside m) {i : Nat} {job : Proc State Unit}
    (hjob : job.Sections (Altered outside)) :
    ∀ job' ∈ m.workers.set i job, job'.Sections (Altered outside) := by
  intro job' hmem
  rcases List.mem_or_eq_of_mem_set hmem with hmem | rfl
  · exact h.workers job' hmem
  · exact hjob

theorem advance_sections {job rest : Proc State Unit} (hjob : job.Sections (Altered outside))
    (h : advance job s = some (t, rest)) :
    Altered outside s t ∧ rest.Sections (Altered outside) := by
  cases job with
  | ret a => cases h
  | atomic f k =>
    obtain ⟨⟨b, u⟩, hf, heq⟩ := Option.map_eq_some_iff.mp h
    cases heq
    exact ⟨hjob.1 s b _ hf, hjob.2 b⟩

/-- A move accepts a connection or alters the tables. -/
theorem next_cases (hm : Begun outside m) (ho : outside env) {a : Move}
    (h : m.next env a = some m') :
    Begun outside m' ∧ (Altered outside m.server m'.server ∨
      ∃ fd node, acceptClient fd node m.server = some m'.server) := by
  cases a with
  | accept fd node =>
    obtain ⟨s, hs, rfl⟩ := Option.map_eq_some_iff.mp h
    exact ⟨⟨hm.workers, hm.heart⟩, Or.inr ⟨fd, node, hs⟩⟩
  | event fd ready stream =>
    simp only [next] at h
    split at h
    · cases h
      exact ⟨⟨hm.workers, hm.heart⟩, Or.inl (.single ⟨env, ho, .clock m.server env.now⟩)⟩
    · cases h
  | stamp =>
    simp only [next] at h
    split at h
    · obtain ⟨c, hc, rfl⟩ := Option.map_eq_some_iff.mp h
      refine ⟨⟨hm.workers, hm.heart⟩, Or.inl (.single ⟨env, ho, .write _ _ c _ hc ?_⟩)⟩
      exact .of_same rfl rfl rfl rfl rfl
    · cases h
  | enqueue =>
    simp only [next] at h
    split at h <;> cases h
    · exact ⟨⟨hm.workers, hm.heart⟩, Or.inl .refl⟩
    · exact ⟨⟨hm.workers, hm.heart⟩, Or.inl .refl⟩
  | take i =>
    simp only [next] at h
    split at h
    · split at h
      · cases h
        exact ⟨⟨hm.set (sections_altered ho (parseMessage_sections _ env _)), hm.heart⟩,
          Or.inl .refl⟩
      · cases h
    · cases h
  | work i =>
    obtain ⟨job, hi, h⟩ := Option.bind_eq_some_iff.mp h
    obtain ⟨⟨t, rest⟩, hadv, rfl⟩ := Option.map_eq_some_iff.mp h
    obtain ⟨halt, hrest⟩ := advance_sections (hm.workers job (List.mem_of_getElem? hi)) hadv
    exact ⟨⟨hm.set hrest, hm.heart⟩, Or.inl halt⟩
  | wake =>
    simp only [next] at h
    split at h
    · cases h
      exact ⟨⟨hm.workers, sections_altered ho (sweep_sections env)⟩, Or.inl .refl⟩
    · cases h
  | beat =>
    obtain ⟨⟨t, rest⟩, hadv, rfl⟩ := Option.map_eq_some_iff.mp h
    obtain ⟨halt, hrest⟩ := advance_sections hm.heart hadv
    exact ⟨⟨hm.workers, hrest⟩, Or.inl halt⟩

theorem Altered.invariant {I : State → Prop}
    (hChange : ∀ env s t, outside env → I s → Change True env s t → I t) (h : Altered outside s t)
    (hs : I s) : I t := by
  induction h with
  | refl => exact hs
  | tail _ hchange ih =>
    obtain ⟨env, ho, hchange⟩ := hchange
    exact hChange env _ _ ho ih hchange

/-- What the elementary changes and new connections keep holds in all interleavings. -/
theorem Threads.Interleaved.invariant {I : State → Prop} (hStart : I (State.start conf))
    (hChange : ∀ env s t, outside env → I s → Change True env s t → I t)
    (hAccept : ∀ fd node s t, I s → acceptClient fd node s = some t → I t) {workers : Nat}
    (h : Interleaved outside conf workers m) : I m.server := by
  suffices hboth : Begun outside m ∧ I m.server from hboth.2
  induction h with
  | refl => exact ⟨begun_resting outside _ workers, hStart⟩
  | tail _ hmove ih =>
    obtain ⟨env, a, ho, hnext⟩ := hmove
    obtain ⟨hbegun, halt | ⟨fd, node, hacc⟩⟩ := next_cases ih.1 ho hnext
    · exact ⟨hbegun, Altered.invariant hChange halt ih.2⟩
    · exact ⟨hbegun, hAccept fd node _ _ ih.2 hacc⟩

/-! ## Descriptors and records -/

/-- Open descriptors and records match, and a record's room is one of the table or none. -/
structure Wired (s : State) : Prop where
  registered : ∀ fd p, s.fdClients fd = some p → ∃ c, s.heap p = some c ∧ c.fd = fd
  current : ∀ p c, s.heap p = some c → s.fdClients c.fd = some p
  range : ∀ p c, s.heap p = some c →
    c.fd < maxFds ∧ -1 ≤ c.roomid ∧ c.roomid < maxRooms

namespace Wired

theorem of_eq (hs : Wired s) (hheap : t.heap = s.heap) (hfd : t.fdClients = s.fdClients) :
    Wired t where
  registered fd p h := by
    rw [hheap]
    exact hs.registered fd p (hfd ▸ h)
  current p c h := by
    rw [hfd]
    exact hs.current p c (hheap ▸ h)
  range p c h := hs.range p c (hheap ▸ h)

theorem setClient (hs : Wired s) (hp : s.heap p = some c) (hfd : d.fd = c.fd)
    (hroom : -1 ≤ d.roomid ∧ d.roomid < maxRooms) : Wired (s.setClient p d) where
  registered fd q h := by
    obtain ⟨e, he, hefd⟩ := hs.registered fd q h
    by_cases hq : q = p
    · subst hq
      rw [hp] at he
      cases he
      exact ⟨d, by simp, hfd.trans hefd⟩
    · exact ⟨e, by simpa [hq] using he, hefd⟩
  current q e h := by
    rcases update_eq_some h with ⟨rfl, rfl⟩ | ⟨-, hq⟩
    · rw [hfd]
      exact hs.current q c hp
    · exact hs.current q e hq
  range q e h := by
    rcases update_eq_some h with ⟨rfl, rfl⟩ | ⟨-, hq⟩
    · exact ⟨by rw [hfd]; exact (hs.range q c hp).1, hroom⟩
    · exact hs.range q e hq

theorem freed (hs : Wired s) (hp : s.heap p = some c) : Wired (s.freed p c) := by
  have hfree : ∀ q e, (s.freed p c).heap q = some e → q ≠ p ∧ s.heap q = some e := by
    intro q e h
    by_cases hq : q = p
    · rw [hq] at h
      simp [State.freed] at h
    · exact ⟨hq, by simpa [State.freed, hq] using h⟩
  refine ⟨fun fd q h => ?_, fun q e h => ?_, fun q e h => hs.range q e (hfree q e h).2⟩
  · by_cases hfd : fd = c.fd
    · subst hfd
      simp [State.freed] at h
    · have hq : s.fdClients fd = some q := by simpa [State.freed, hfd] using h
      obtain ⟨e, he, hefd⟩ := hs.registered fd q hq
      have hne : q ≠ p := by
        rintro rfl
        rw [hp] at he
        cases he
        exact hfd hefd.symm
      exact ⟨e, by simpa [State.freed, hne] using he, hefd⟩
  · obtain ⟨hne, hq⟩ := hfree q e h
    have hfd : e.fd ≠ c.fd := by
      intro hfd
      have h₁ := hs.current q e hq
      rw [hfd, hs.current p c hp] at h₁
      exact hne (Option.some.inj h₁).symm
    simpa [State.freed, hfd] using hs.current q e hq

theorem change (hs : Wired s) (h : Change True env s t) : Wired t := by
  cases h with
  | post l => exact hs.of_eq rfl rfl
  | clock now => exact hs.of_eq rfl rfl
  | chain i chain => exact hs.of_eq rfl rfl
  | unlink r fd l hl => exact hs.of_eq rfl rfl
  | rename p c d hp hd hrace =>
    exact hs.setClient hp hd.fd (hd.roomid ▸ (hs.range p c hp).2)
  | write p c d hp hd =>
    have hrange := (hs.range p c hp).2
    refine hs.setClient hp hd.fd ?_
    rcases hd.roomid with hroom | hroom
    · rwa [hroom]
    · rw [hroom]
      decide
  | login p c name hp hname => exact hs.setClient hp rfl (hs.range p c hp).2
  | enter p c r hp hr hen =>
    have hset : Wired (s.setClient p { c with roomid := r }) :=
      hs.setClient hp rfl ⟨by change (-1 : Int) ≤ (r : Int); omega, by
        change (r : Int) < (maxRooms : Int); omega⟩
    exact hset.of_eq rfl rfl
  | free p c hp => exact hs.freed hp

theorem accept (hs : Wired s) {fd : Nat} (h : acceptClient fd p s = some t) : Wired t := by
  obtain ⟨⟨hfd, hclosed, hnone⟩, rfl⟩ := acceptClient_eq_some h
  refine ⟨fun k q hk => ?_, fun q e hq => ?_, fun q e hq => ?_⟩
  · by_cases hkfd : k = fd
    · subst hkfd
      obtain rfl : p = q := by simpa using hk
      exact ⟨newClient k s.mytimestamp, by simp, rfl⟩
    · have hk : s.fdClients k = some q := by simpa [hkfd] using hk
      obtain ⟨e, he, hefd⟩ := hs.registered k q hk
      have hne : q ≠ p := by
        rintro rfl
        rw [hnone] at he
        cases he
      exact ⟨e, by simpa [hne] using he, hefd⟩
  · rcases update_eq_some hq with ⟨rfl, rfl⟩ | ⟨-, hq⟩
    · simp [newClient]
    · have hcur := hs.current q e hq
      have hne : e.fd ≠ fd := by
        intro hefd
        rw [hefd, hclosed] at hcur
        cases hcur
      simpa [hne] using hcur
  · rcases update_eq_some hq with ⟨rfl, rfl⟩ | ⟨-, hq⟩
    · exact ⟨hfd, show -1 ≤ (-1 : Int) ∧ (-1 : Int) < maxRooms by decide⟩
    · exact hs.range q e hq

theorem start (conf : Nat → RoomConf) : Wired (State.start conf) :=
  ⟨nofun, nofun, nofun⟩

end Wired

/-! ## Rooms -/

/-- What the configuration says about the room. -/
def Room.settings (room : Room) : RoomConf :=
  { enable := room.enable, anonymous := room.anonymous, visable := room.visable
    name := room.name }

/-- Every room is as it was configured and counts its members; nobody is in a closed one. -/
structure Counted (conf : Nat → RoomConf) (s : State) : Prop where
  settings : ∀ r, (s.rooms r).settings = ((State.start conf).rooms r).settings
  num : ∀ r, (s.rooms r).num = (s.rooms r).rClient.length
  closed : ∀ r, (s.rooms r).enable = 0 → (s.rooms r).rClient = []

namespace Counted

theorem of_eq (hs : Counted conf s) (h : t.rooms = s.rooms) : Counted conf t := by
  refine ⟨fun r => ?_, fun r => ?_, fun r => ?_⟩ <;> rw [h]
  · exact hs.settings r
  · exact hs.num r
  · exact hs.closed r

theorem setRoom (hs : Counted conf s) {r : Nat} {room : Room}
    (hset : room.settings = (s.rooms r).settings) (hnum : room.num = room.rClient.length)
    (hclosed : room.enable = 0 → room.rClient = []) : Counted conf (s.setRoom r room) := by
  have hrooms : ∀ k, (s.setRoom r room).rooms k = if k = r then room else s.rooms k := by
    intro k
    rw [State.setRoom_rooms, Function.update_apply]
  refine ⟨fun k => ?_, fun k => ?_, fun k => ?_⟩ <;> rw [hrooms] <;> split
  · rename_i hk
    rw [hset, hk]
    exact hs.settings r
  · exact hs.settings k
  · exact hnum
  · exact hs.num k
  · exact hclosed
  · exact hs.closed k

theorem change (hs : Counted conf s) (h : Change True env s t) : Counted conf t := by
  cases h with
  | post l => exact hs.of_eq rfl
  | clock now => exact hs.of_eq rfl
  | chain i chain => exact hs.of_eq rfl
  | write p c d hp hd => exact hs.of_eq rfl
  | rename p c d hp hd hrace => exact hs.of_eq rfl
  | login p c name hp hname => exact hs.of_eq rfl
  | free p c hp => exact hs.of_eq rfl
  | unlink r fd l hl =>
    have hlen := unlinkFd_length hl
    refine hs.setRoom rfl ?_ fun hen => ?_
    · change (s.rooms r).num - 1 = (l.length : Int)
      have hnum := hs.num r
      omega
    · rw [hs.closed r hen] at hlen
      cases hlen
  | enter p c r hp hr hen =>
    have hset : Counted conf (s.setClient p { c with roomid := r }) := hs.of_eq rfl
    refine hset.setRoom rfl ?_ fun hen' => absurd hen' hen
    have hnum := hs.num r
    simp only [Room.append, List.length_append, List.length_singleton]
    omega

theorem start (conf : Nat → RoomConf) : Counted conf (State.start conf) :=
  ⟨fun _ => rfl, fun _ => rfl, fun _ _ => rfl⟩

end Counted

/-! ## One thread at a time -/

/-- A worker that is left alone runs its procedure to the end. -/
theorem work_run (ho : outside env) {i : Nat} {job : Proc State Unit}
    (hi : m.workers[i]? = some job) (h : job.run m.server = some ((), t)) :
    Relation.ReflTransGen (Moves outside) m
      { m with server := t, workers := m.workers.set i (.ret ()) } := by
  induction job generalizing m with
  | ret a =>
    cases h
    obtain ⟨hlt, hjob⟩ := List.getElem?_eq_some_iff.mp hi
    have hset : m.workers.set i (.ret ()) = m.workers := by
      have hself := List.set_getElem_self hlt
      rwa [hjob] at hself
    rw [hset]
  | atomic f k ih =>
    obtain ⟨⟨b, u⟩, hf, hrest⟩ := Option.bind_eq_some_iff.mp h
    let m₁ : Threads := { m with server := u, workers := m.workers.set i (k b) }
    have hmove : Moves outside m m₁ := by
      refine ⟨env, .work i, ho, ?_⟩
      simp only [next, hi, Option.bind_some, advance, hf, Option.map_some, m₁]
    have hi₁ : m₁.workers[i]? = some (k b) :=
      List.getElem?_set_self (List.getElem?_eq_some_iff.mp hi).1
    have htail := ih b hi₁ hrest
    simp only [m₁, List.set_set] at htail
    exact .head hmove htail

theorem beat_run (ho : outside env) (h : m.heart.run m.server = some ((), t)) :
    Relation.ReflTransGen (Moves outside) m { m with server := t, heart := .ret () } := by
  obtain ⟨machine, reader, workers, heart⟩ := m
  induction heart generalizing machine with
  | ret a =>
    cases h
    exact .refl
  | atomic f k ih =>
    obtain ⟨⟨b, u⟩, hf, hrest⟩ := Option.bind_eq_some_iff.mp h
    have hmove : Moves outside ⟨machine, reader, workers, .atomic f k⟩
        ⟨{ machine with server := u }, reader, workers, k b⟩ := by
      refine ⟨env, .beat, ho, ?_⟩
      simp only [next, advance, hf, Option.map_some]
    exact .head hmove (ih b { machine with server := u } hrest)

theorem heartbeatAt_clock {i : Nat} (h : heartbeatAt env i s = some t) :
    t.tick env.now = t := by
  have hclock : t.mytimestamp = env.now := by
    simp only [heartbeatAt] at h
    split at h
    · cases h
      rfl
    · rename_i p hfd
      obtain ⟨c, -, h⟩ := Option.bind_eq_some_iff.mp h
      split at h
      · obtain ⟨⟨x, u⟩, hdel, rfl⟩ := Option.map_eq_some_iff.mp h
        have hkept : Kept env none (s.tick env.now) u := nodeDel_keeps env (some p) _ _ _ hdel
        exact hkept.clock
      · cases h
        rfl
  rw [State.tick, ← hclock]

theorem sweepAt_run (env : Env) (i : Nat) (s : State) :
    (sweepAt env i).run (s.tick env.now) =
      (heartbeatAt env i s).map fun t => ((), t.tick env.now) := by
  have hsame : (heartbeatAt env i s).map (fun t => ((), t.tick env.now)) =
      (heartbeatAt env i s).map fun t => ((), t) := by
    refine Option.map_congr fun t ht => ?_
    rw [heartbeatAt_clock ht]
  have hfd : (s.tick env.now).fdClients = s.fdClients := rfl
  rw [hsame]
  simp only [sweepAt, heartbeatAt, hfd, Proc.run_bind, Proc.run_read, Option.map_some,
    Option.bind_some]
  cases hp : s.fdClients i with
  | none => rfl
  | some p =>
    simp only [reduceCtorEq, if_false, Proc.run_bind, Proc.run_read, hfd, hp, Option.bind_some]
    cases (s.tick env.now).heap p with
    | none => rfl
    | some c =>
      simp only [Option.map_some, Option.bind_some]
      have hclock : (s.tick env.now).mytimestamp = env.now := rfl
      rw [hclock]
      split
      · simp only [Proc.run_bind, Proc.run_read, hfd, hp, Option.map_some, Option.bind_some]
        cases (nodeDel env (some p)).run (s.tick env.now) <;> rfl
      · rfl

/-- A sweep that is left alone does what the loop does that takes the time again for every
index. -/
theorem sweepOver_run (env : Env) (l : List Nat) (s : State) :
    (sweepOver env l).run (s.tick env.now) =
      (heartbeatOver env l s).map fun t => ((), t.tick env.now) := by
  induction l generalizing s with
  | nil => rfl
  | cons i rest ih =>
    simp only [sweepOver, heartbeatOver, Proc.run_bind, sweepAt_run]
    cases heartbeatAt env i s with
    | none => rfl
    | some t => exact ih t

theorem heartbeatOver_clock {i : Nat} {l : List Nat} (h : heartbeatOver env (i :: l) s = some t) :
    t.tick env.now = t := by
  induction l generalizing i s with
  | nil =>
    obtain ⟨u, hu, h⟩ := Option.bind_eq_some_iff.mp h
    cases h
    exact heartbeatAt_clock hu
  | cons j l ih =>
    obtain ⟨u, -, h⟩ := Option.bind_eq_some_iff.mp h
    exact ih h

theorem sweep_run (h : heartbeatOver env (List.range maxFds) s = some t) :
    (sweep env).run s = some ((), t) := by
  obtain ⟨l, hl⟩ : ∃ l, List.range maxFds = 0 :: l := ⟨_, List.range_succ_eq_map⟩
  rw [hl] at h
  rw [sweep, hl, Proc.run_bind, Proc.run_modify, Option.map_some, Option.bind_some,
    sweepOver_run, h, Option.map_some, heartbeatOver_clock h]

theorem enqueue_run (ho : outside env) {tasks : List Task} (hm : m.reader = .queuing tasks) :
    Relation.ReflTransGen (Moves outside) m
      { m with queue := m.queue ++ tasks, reader := .waiting } := by
  induction tasks generalizing m with
  | nil =>
    rw [List.append_nil]
    exact .single ⟨env, .enqueue, ho, by simp only [next, hm]⟩
  | cons task rest ih =>
    let m₁ : Threads := { m with queue := m.queue ++ [task], reader := .queuing rest }
    have hmove : Moves outside m m₁ := ⟨env, .enqueue, ho, by simp only [next, hm, m₁]⟩
    have htail := ih (m := m₁) rfl
    simp only [m₁, List.append_assoc, List.singleton_append] at htail
    exact .head hmove htail

/-- The turns of the machine are moves of the threads, each taken as a whole. -/
theorem turn_moves (ho : outside env) {workers : Nat} (hw : 0 < workers) {m m' : Machine}
    {turn : Turn} (h : m.turn env turn = some m') :
    Relation.ReflTransGen (Moves outside) (resting m workers) (resting m' workers) := by
  cases turn with
  | accept fd node =>
    obtain ⟨s, hs, rfl⟩ := Option.map_eq_some_iff.mp h
    refine .single ⟨env, .accept fd node, ho, ?_⟩
    have hs : acceptClient fd node (resting m workers).server = some s := hs
    simp only [next, hs, Option.map_some]
    rfl
  | input fd ready stream =>
    simp only [Machine.turn] at h
    split at h
    · rename_i hfd
      cases h
      have hfd : (resting m workers).server.fdClients fd = none := hfd
      refine .single ⟨env, .event fd ready stream, ho, ?_⟩
      simp only [next, resting] at hfd ⊢
      rw [hfd]
    · rename_i client hfd
      obtain ⟨s, hnote, rfl⟩ := Option.map_eq_some_iff.mp h
      obtain ⟨q, hq, hnote⟩ := Option.bind_eq_some_iff.mp hnote
      cases hfd.symm.trans hq
      obtain ⟨c, hc, rfl⟩ := Option.map_eq_some_iff.mp hnote
      let tasks := (readLoop fd client 0 ready stream).1
      let m₁ : Threads := { resting m workers with
        server := m.server.tick env.now
        reader := .stamping client tasks }
      let m₂ : Threads := { m₁ with
        server := (m.server.tick env.now).setClient client
          { c with keepalivetime := CText.toInt32 env.now }
        reader := .queuing tasks }
      have h₁ : Moves outside (resting m workers) m₁ := by
        refine ⟨env, .event fd ready stream, ho, ?_⟩
        simp only [next, resting, hfd, m₁, tasks]
      have h₂ : Moves outside m₁ m₂ := by
        refine ⟨env, .stamp, ho, ?_⟩
        have hc' : m₁.server.heap client = some c := hc
        simp only [next, m₁] at hc' ⊢
        rw [hc']
        rfl
      have h₃ := enqueue_run ho (m := m₂) rfl
      exact .head h₁ (.head h₂ h₃)
  | work =>
    simp only [Machine.turn] at h
    split at h
    · cases h
    · rename_i task rest hqueue
      obtain ⟨⟨u, s⟩, hrun, rfl⟩ := Option.map_eq_some_iff.mp h
      have hidle : (resting m workers).workers[0]? = some (.ret ()) :=
        List.getElem?_replicate_of_lt hw
      let m₁ : Threads := { resting m workers with
        queue := rest
        workers := (List.replicate workers (.ret ())).set 0
          (parseMessage (getFdnodeByname env) env task) }
      have h₁ : Moves outside (resting m workers) m₁ := by
        refine ⟨env, .take 0, ho, ?_⟩
        have hqueue : (resting m workers).queue = task :: rest := hqueue
        simp only [next, hidle, hqueue, isOver, if_true]
        rfl
      have hjob : m₁.workers[0]? = some (parseMessage (getFdnodeByname env) env task) :=
        List.getElem?_set_self (by rwa [List.length_replicate])
      have h₂ := work_run ho hjob (m := m₁) hrun
      simp only [m₁, List.set_set, List.set_replicate_self] at h₂
      exact .head h₁ h₂
  | heartbeat =>
    simp only [Machine.turn] at h
    obtain ⟨s, hs, rfl⟩ := Option.map_eq_some_iff.mp h
    let m₁ : Threads := { resting m workers with heart := sweep env }
    have h₁ : Moves outside (resting m workers) m₁ := ⟨env, .wake, ho, rfl⟩
    have h₂ := beat_run ho (m := m₁) (sweep_run hs)
    exact .head h₁ h₂

/-- The runs of the machine, whose turns are taken as a whole, are interleavings. -/
theorem machineRuns_interleaved {m : Machine} (h : MachineRuns (fun env _ _ => outside env) m)
    {workers : Nat} (hw : 0 < workers) :
    ∃ conf, Interleaved outside conf workers (resting m workers) := by
  obtain ⟨conf, h⟩ := h
  refine ⟨conf, ?_⟩
  induction h with
  | refl => exact .refl
  | tail _ hturn ih =>
    obtain ⟨env, turn, ho, hturn⟩ := hturn
    exact ih.trans (turn_moves ho hw hturn)

/-- A guest connects to a server of three workers and logs in. -/
def guestTurns : List (Env × Turn) :=
  [Turn.accept 5 100, .input 5 [(.bytes 4, .bytes 38)] (Framing.frames 4 [guestLogin.data]),
    .work].map fun turn => (.delivering 0 guestLogin, turn)

theorem machineRuns_interleaved_guest : ∃ m : Machine, (m.server.rooms 0).rClient = [100] ∧
    ∃ conf, Interleaved (fun _ => True) conf 3 (resting m 3) := by
  have hcheck : ((Machine.start fun _ => lobbyConf).turns guestTurns).any (fun m =>
      (m.server.rooms 0).rClient = [100]) := by
    decide +kernel
  obtain ⟨m, hrun, hm⟩ := (Option.any_eq_true _ _).mp hcheck
  have hruns : MachineRuns (fun _ _ _ => True) m := by
    refine machineRuns_of_turns ?_ hrun
    exact ⟨trivial, fun _ _ => ⟨trivial, fun _ _ => ⟨trivial, fun _ _ => trivial⟩⟩⟩
  exact ⟨m, of_decide_eq_true hm, @machineRuns_interleaved (fun _ => True) m hruns 3 (by decide)⟩

/-- **The tables under every interleaving** of the thread that accepts, the one that reads,
any number of workers and the heartbeat. -/
theorem interleaved_tables {workers : Nat} (h : Interleaved outside conf workers m) :
    Wired m.server ∧ Counted conf m.server := by
  refine h.invariant (I := fun s => Wired s ∧ Counted conf s)
    ⟨Wired.start conf, Counted.start conf⟩ ?_ ?_
  · rintro env s t - ⟨hwired, hcounted⟩ hchange
    exact ⟨hwired.change hchange, hcounted.change hchange⟩
  · rintro fd node s t ⟨hwired, hcounted⟩ hacc
    refine ⟨hwired.accept hacc, ?_⟩
    obtain ⟨-, rfl⟩ := acceptClient_eq_some hacc
    exact hcounted.of_eq rfl

/-- The moves that bring the login of a new guest into the queue. -/
def guestArrives (now : Int) (fd : Nat) (node : Addr) : List (Env × Move) :=
  [Move.accept fd node, .event fd [(.bytes 4, .bytes 38)] (Framing.frames 4 [guestLogin.data]),
    .stamp, .enqueue, .enqueue].map fun a => (.delivering now guestLogin, a)

/-- Two workers log two guests in, section by section in turn. -/
theorem interleaved_tables_guests : ∃ m : Threads, (m.server.rooms 0).rClient = [101, 100] ∧
    Wired m.server ∧ Counted (fun _ => lobbyConf) m.server := by
  let run := guestArrives 0 5 100 ++ guestArrives 1 6 101 ++
    [(.delivering 0 guestLogin, .take 0), (.delivering 1 guestLogin, .take 1)] ++
    (List.replicate 8 [Move.work 1, Move.work 0]).flatten.map fun a =>
      (.delivering 0 guestLogin, a)
  have hcheck : ((resting (Machine.start fun _ => lobbyConf) 2).moves run).any (fun m =>
      (m.server.rooms 0).rClient = [101, 100]) := by
    decide +kernel
  obtain ⟨m, hrun, hm⟩ := (Option.any_eq_true _ _).mp hcheck
  have hinter : Interleaved (fun _ => True) (fun _ => lobbyConf) 2 m :=
    interleaved_of_moves (fun _ _ => trivial) hrun
  exact ⟨m, of_decide_eq_true hm, interleaved_tables hinter⟩

end ArpgServer
