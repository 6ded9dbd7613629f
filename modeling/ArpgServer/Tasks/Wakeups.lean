import ArpgServer.Library.Monitor
import ArpgServer.Model.Sleepers

/-!
# No wake-up is lost

The reading thread sends one signal for each task, and a signal reaches nobody when no worker
sleeps. Still a task never waits while a worker sleeps that could take it: as long as somebody
sleeps, at least as many workers are on their way to the queue as tasks are in it.
-/

namespace ArpgServer

open CText Threads

variable {outside : Env → Prop} {conf : Nat → RoomConf} {env : Env} {m m' : Sleepers} {t : Threads}
  {i : Nat}

namespace Sleepers

/-! ## The pool of workers -/

/-- What a worker does, told by its procedure. -/
def status (asleep : Bool) (job : Proc State Unit) : Monitor.Status :=
  if asleep then .asleep else if isOver job then .looking else .busy

theorem status_looking {job : Proc State Unit} (h : isOver job = true) :
    status false job = .looking := by
  simp [status, h]

theorem status_busy {job : Proc State Unit} (h : isOver job = false) :
    status false job = .busy := by
  simp [status, h]

theorem of_status {b : Bool} {job : Proc State Unit} (h : status b job ≠ .asleep) :
    b = false ∧ (isOver job = true ↔ status b job = .looking) := by
  cases b with
  | true => exact absurd rfl h
  | false => cases hover : isOver job <;> simp [status, hover]

/-- The workers of the server as workers that sleep on a condition. -/
def pool (m : Sleepers) : Monitor.Pool where
  jobs := m.threads.queue.length
  workers := m.threads.workers.mapIdx fun i job => status (m.asleep i) job

theorem pool_worker {job : Proc State Unit} (hi : m.threads.workers[i]? = some job) :
    m.pool.workers[i]? = some (status (m.asleep i) job) := by
  rw [pool, List.getElem?_mapIdx, hi, Option.map_some]

theorem pool_asleep (hi : m.isAsleep i = true) : m.pool.workers[i]? = some .asleep := by
  obtain ⟨hlt, hasleep⟩ := Bool.and_eq_true_iff.mp hi
  rw [pool_worker (List.getElem?_eq_getElem (of_decide_eq_true hlt)), hasleep]
  rfl

theorem asleep_of_isAsleep {job : Proc State Unit} (hi : m.threads.workers[i]? = some job)
    (h : m.isAsleep i = false) : m.asleep i = false := by
  obtain ⟨hlt, -⟩ := List.getElem?_eq_some_iff.mp hi
  simpa [isAsleep, hlt] using h

/-- A worker that is woken or falls asleep changes its own entry. -/
theorem pool_update (m : Sleepers) (i : Nat) (b : Bool) {job : Proc State Unit}
    (hi : m.threads.workers[i]? = some job) :
    ({ m with asleep := Function.update m.asleep i b } : Sleepers).pool =
      m.pool.set i (status b job) := by
  obtain ⟨hlt, hjob⟩ := List.getElem?_eq_some_iff.mp hi
  simp only [pool, Monitor.Pool.set, Monitor.Pool.mk.injEq, true_and]
  apply List.ext_getElem?
  intro k
  rw [List.getElem?_mapIdx, List.getElem?_set, List.getElem?_mapIdx, List.length_mapIdx]
  by_cases hk : i = k
  · subst hk
    simp [hlt, hjob]
  · rw [if_neg hk, Function.update_of_ne (Ne.symm hk)]

theorem pool_eq (m m' : Sleepers) (hqueue : m'.threads.queue = m.threads.queue)
    (hworkers : m'.threads.workers = m.threads.workers) (hasleep : m'.asleep = m.asleep) :
    m'.pool = m.pool := by
  simp only [pool, hqueue, hworkers, hasleep]

/-! ## One move -/

/-- What has nothing to do with the condition is nothing to the pool, or a worker that is awake
takes a task or goes on with it. -/
inductive Worked (m : Sleepers) (t : Threads) : Prop where
  | nothing (hqueue : t.queue = m.threads.queue) (hworkers : t.workers = m.threads.workers)
  | took (i : Nat) (job next : Proc State Unit) (task : Task)
      (hi : m.threads.workers[i]? = some job) (hover : isOver job = true)
      (hawake : m.asleep i = false) (hqueue : m.threads.queue = task :: t.queue)
      (hworkers : t.workers = m.threads.workers.set i next)
  | worked (i : Nat) (job next : Proc State Unit)
      (hi : m.threads.workers[i]? = some job) (hbusy : isOver job = false)
      (hawake : m.asleep i = false) (hqueue : t.queue = m.threads.queue)
      (hworkers : t.workers = m.threads.workers.set i next)

theorem other_cases {a : Threads.Move} (hallow : m.allows a = true)
    (h : m.threads.next env a = some t) : Worked m t := by
  cases a with
  | accept fd node =>
    obtain ⟨s, -, rfl⟩ := Option.map_eq_some_iff.mp h
    exact .nothing rfl rfl
  | event fd ready stream =>
    simp only [Threads.next] at h
    split at h <;> cases h
    exact .nothing rfl rfl
  | stamp =>
    simp only [Threads.next] at h
    split at h
    · obtain ⟨c, -, rfl⟩ := Option.map_eq_some_iff.mp h
      exact .nothing rfl rfl
    · cases h
  | enqueue =>
    simp only [Threads.next] at h
    split at h
    · cases h
      exact .nothing rfl rfl
    · rename_i hreader
      simp [allows, hreader] at hallow
    · cases h
  | take i =>
    simp only [Threads.next] at h
    split at h
    · rename_i job task rest hi hqueue
      split at h
      · rename_i hover
        cases h
        have hawake := asleep_of_isAsleep hi (by simpa [allows] using hallow)
        exact .took i job _ task hi hover hawake hqueue rfl
      · cases h
    · cases h
  | work i =>
    obtain ⟨job, hi, h⟩ := Option.bind_eq_some_iff.mp h
    obtain ⟨⟨s, rest⟩, hadv, rfl⟩ := Option.map_eq_some_iff.mp h
    have hawake := asleep_of_isAsleep hi (by simpa [allows] using hallow)
    cases job with
    | ret x => cases hadv
    | atomic f k => exact .worked i _ rest hi rfl hawake rfl rfl
  | wake =>
    simp only [Threads.next] at h
    split at h
    · cases h
      exact .nothing rfl rfl
    · cases h
  | beat =>
    obtain ⟨⟨s, rest⟩, -, rfl⟩ := Option.map_eq_some_iff.mp h
    exact .nothing rfl rfl

/-- A task is queued, and one sleeper is woken, if there are any. -/
theorem put_cases {woken : Option Nat} (h : m.next env (.put woken) = some m') :
    ∃ task rest, m.threads.reader = .queuing (task :: rest) ∧
      m'.threads = { m.threads with
        queue := m.threads.queue ++ [task], reader := .queuing rest } ∧
      ((m.nobody = true ∧ m'.asleep = m.asleep) ∨ ∃ i, m.isAsleep i = true ∧
        m'.asleep = Function.update m.asleep i false) := by
  simp only [next] at h
  split at h
  · rename_i task rest hreader
    refine ⟨task, rest, hreader, ?_⟩
    split at h
    · obtain ⟨hnobody, h⟩ := Option.ite_none_right_eq_some.mp h
      cases h
      exact ⟨rfl, Or.inl ⟨hnobody, rfl⟩⟩
    · rename_i i
      obtain ⟨hasleep, h⟩ := Option.ite_none_right_eq_some.mp h
      cases h
      exact ⟨rfl, Or.inr ⟨i, hasleep, rfl⟩⟩
  · cases h

theorem sleep_cases (h : m.next env (.sleep i) = some m') :
    ∃ job, m.threads.workers[i]? = some job ∧ isOver job = true ∧ m.asleep i = false ∧
      m.threads.queue = [] ∧ m' = { m with asleep := Function.update m.asleep i true } := by
  simp only [next] at h
  split at h
  · rename_i job hi hqueue
    obtain ⟨⟨hover, hawake⟩, h⟩ := Option.ite_none_right_eq_some.mp h
    cases h
    exact ⟨job, hi, hover, asleep_of_isAsleep hi hawake, hqueue, rfl⟩
  · cases h

/-! ## Sleepers have no task -/

/-- The procedure of a worker that sleeps is over. -/
def Rested (m : Sleepers) : Prop :=
  ∀ i job, m.threads.workers[i]? = some job → m.asleep i = true → isOver job = true

theorem Rested.set (hm : Rested m) {next : Proc State Unit} (hawake : m.asleep i = false)
    (hworkers : t.workers = m.threads.workers.set i next) : Rested { m with threads := t } := by
  intro k job hk hasleep
  have hne : i ≠ k := by
    rintro rfl
    exact absurd (hawake.symm.trans hasleep) (by decide)
  simp only [hworkers, List.getElem?_set_ne hne] at hk
  exact hm k job hk hasleep

theorem Rested.awaken (hm : Rested m) (i : Nat) : Rested (m.awaken i) := by
  intro k job hk hasleep
  by_cases hik : k = i
  · rw [hik] at hasleep
    exact absurd ((Function.update_self ..).symm.trans hasleep) (by decide)
  · exact hm k job hk ((Function.update_of_ne hik ..).symm.trans hasleep)

theorem Rested.next {a : Move} (hm : Rested m) (h : m.next env a = some m') : Rested m' := by
  cases a with
  | other a =>
    obtain ⟨hallow, h⟩ := Option.ite_none_right_eq_some.mp h
    obtain ⟨t, ht, rfl⟩ := Option.map_eq_some_iff.mp h
    cases other_cases hallow ht with
    | nothing hqueue hworkers =>
      intro k job hk
      simp only [hworkers] at hk
      exact hm k job hk
    | took i job next task hi hover hawake hqueue hworkers => exact hm.set hawake hworkers
    | worked i job next hi hbusy hawake hqueue hworkers => exact hm.set hawake hworkers
  | put woken =>
    obtain ⟨task, rest, -, ht, hwoken⟩ := put_cases h
    obtain ⟨threads, asleep⟩ := m'
    obtain rfl := ht
    rcases hwoken with ⟨-, rfl⟩ | ⟨i, -, rfl⟩
    · exact hm
    · exact hm.awaken i
  | sleep i =>
    obtain ⟨job, hi, hover, -, -, rfl⟩ := sleep_cases h
    intro k job' hk hasleep
    by_cases hik : k = i
    · subst hik
      obtain rfl : job = job' := Option.some.inj (hi.symm.trans hk)
      exact hover
    · exact hm k job' hk ((Function.update_of_ne hik ..).symm.trans hasleep)
  | wake i =>
    obtain ⟨-, h⟩ := Option.ite_none_right_eq_some.mp h
    cases h
    exact hm.awaken i

/-! ## Moves are steps of the pool -/

/-- A worker that takes a task may be done with it at once. -/
theorem pool_took {job next : Proc State Unit} {task : Task}
    (hi : m.threads.workers[i]? = some job) (hover : isOver job = true)
    (hawake : m.asleep i = false) (hqueue : m.threads.queue = task :: t.queue)
    (hworkers : t.workers = m.threads.workers.set i next) :
    Relation.ReflTransGen Monitor.Step m.pool ({ m with threads := t } : Sleepers).pool := by
  have hlooking : m.pool.workers[i]? = some .looking := by
    rw [pool_worker hi, hawake, status_looking hover]
  have hjobs : 0 < m.pool.jobs := by simp [pool, hqueue]
  have htake := Relation.ReflTransGen.single (Monitor.Step.take m.pool i hlooking hjobs)
  have hpool : ({ m with threads := t } : Sleepers).pool =
      { m.pool.set i (status false next) with jobs := m.pool.jobs - 1 } := by
    simp [pool, Monitor.Pool.set, List.mapIdx_set, hawake, hqueue, hworkers]
  rw [hpool]
  obtain ⟨hlt, -⟩ := List.getElem?_eq_some_iff.mp hlooking
  cases hnext : isOver next with
  | false =>
    rw [status_busy hnext]
    exact htake
  | true =>
    rw [status_looking hnext]
    refine htake.tail ?_
    have hfinish := Monitor.Step.finish { m.pool.set i .busy with jobs := m.pool.jobs - 1 } i
      (by simp [Monitor.Pool.set, hlt])
    simpa [Monitor.Pool.set] using hfinish

/-- A worker that executes a section is busy, and may be done after it. -/
theorem pool_worked {job next : Proc State Unit}
    (hi : m.threads.workers[i]? = some job) (hbusy : isOver job = false)
    (hawake : m.asleep i = false) (hqueue : t.queue = m.threads.queue)
    (hworkers : t.workers = m.threads.workers.set i next) :
    Relation.ReflTransGen Monitor.Step m.pool ({ m with threads := t } : Sleepers).pool := by
  have hentry : m.pool.workers[i]? = some .busy := by
    rw [pool_worker hi, hawake, status_busy hbusy]
  have hpool : ({ m with threads := t } : Sleepers).pool = m.pool.set i (status false next) := by
    simp [pool, Monitor.Pool.set, List.mapIdx_set, hawake, hqueue, hworkers]
  rw [hpool]
  cases hnext : isOver next with
  | false =>
    have hsame : m.pool.set i .busy = m.pool := by
      obtain ⟨hlt, hget⟩ := List.getElem?_eq_some_iff.mp hentry
      simp only [Monitor.Pool.set, ← hget, List.set_getElem_self]
    rw [status_busy hnext, hsame]
  | true =>
    rw [status_looking hnext]
    exact .single (Monitor.Step.finish m.pool i hentry)

theorem nobody_pool (h : m.nobody = true) : Monitor.Status.asleep ∉ m.pool.workers := by
  intro hmem
  obtain ⟨i, hlt, hget⟩ := List.getElem_of_mem hmem
  have hlt : i < m.threads.workers.length := by simpa [pool] using hlt
  have hawake : m.asleep i = false := by
    simpa using List.all_eq_true.mp h i (List.mem_range.mpr hlt)
  simp only [pool, List.getElem_mapIdx, hawake, status, Bool.false_eq_true, if_false] at hget
  split at hget <;> cases hget

theorem Rested.awaken_pool (hm : Rested m) (h : m.isAsleep i = true) :
    (m.awaken i).pool = m.pool.set i .looking := by
  obtain ⟨hlt, hasleep⟩ := Bool.and_eq_true_iff.mp h
  have hi := List.getElem?_eq_getElem (of_decide_eq_true hlt)
  rw [Sleepers.awaken, pool_update m i false hi, status_looking (hm i _ hi hasleep)]

/-- Every move is none, one or two steps of the pool. -/
theorem Rested.next_pool {a : Move} (hm : Rested m) (h : m.next env a = some m') :
    Relation.ReflTransGen Monitor.Step m.pool m'.pool := by
  cases a with
  | other a =>
    obtain ⟨hallow, h⟩ := Option.ite_none_right_eq_some.mp h
    obtain ⟨t, ht, rfl⟩ := Option.map_eq_some_iff.mp h
    cases other_cases hallow ht with
    | nothing hqueue hworkers =>
      rw [pool_eq m { m with threads := t } hqueue hworkers rfl]
    | took i job next task hi hover hawake hqueue hworkers =>
      exact pool_took hi hover hawake hqueue hworkers
    | worked i job next hi hbusy hawake hqueue hworkers =>
      exact pool_worked hi hbusy hawake hqueue hworkers
  | put woken =>
    obtain ⟨task, rest, -, ht, hwoken⟩ := put_cases h
    obtain ⟨threads, asleep⟩ := m'
    obtain rfl := ht
    rcases hwoken with ⟨hnobody, rfl⟩ | ⟨i, hasleep, rfl⟩
    · have hput := Monitor.Step.put m.pool (nobody_pool hnobody)
      simpa [pool] using Relation.ReflTransGen.single hput
    · have hsignal := Monitor.Step.signal m.pool i (pool_asleep hasleep)
      rw [← hm.awaken_pool hasleep] at hsignal
      simpa [pool, Sleepers.awaken] using Relation.ReflTransGen.single hsignal
  | sleep i =>
    obtain ⟨job, hi, hover, hawake, hqueue, rfl⟩ := sleep_cases h
    have hlooking : m.pool.workers[i]? = some .looking := by
      rw [pool_worker hi, hawake, status_looking hover]
    rw [pool_update m i true hi]
    exact .single (Monitor.Step.sleep m.pool i hlooking (by simp [pool, hqueue]))
  | wake i =>
    obtain ⟨hasleep, h⟩ := Option.ite_none_right_eq_some.mp h
    cases h
    rw [hm.awaken_pool hasleep]
    exact .single (Monitor.Step.wake m.pool i (pool_asleep hasleep))

/-! ## Runs -/

theorem rested_start (conf : Nat → RoomConf) (workers : Nat) : Rested (start conf workers) :=
  fun _ _ _ h => by cases h

theorem watched_start (conf : Nat → RoomConf) (workers : Nat) :
    Monitor.Watched (start conf workers).pool := fun _ => Nat.zero_le _

/-- While a worker sleeps, as many workers look for tasks as there are in the queue. -/
theorem Reached.watched {workers : Nat} (h : Reached outside conf workers m) :
    Monitor.Watched m.pool := by
  suffices hboth : Rested m ∧ Monitor.Watched m.pool from hboth.2
  induction h with
  | refl => exact ⟨rested_start conf workers, watched_start conf workers⟩
  | tail _ hmove ih =>
    obtain ⟨env, a, -, hnext⟩ := hmove
    exact ⟨ih.1.next hnext, ih.2.run (ih.1.next_pool hnext)⟩

end Sleepers

open Sleepers

theorem take_isSome {job : Proc State Unit} (hi : m.threads.workers[i]? = some job)
    (hover : isOver job = true) (hawake : m.isAsleep i = false) (hq : m.threads.queue ≠ [])
    (env : Env) : (m.next env (.other (.take i))).isSome := by
  obtain ⟨task, rest, hq⟩ := List.exists_cons_of_ne_nil hq
  simp [Sleepers.next, allows, hawake, Threads.next, hi, hq, hover]

/-- **No wake-up is lost.** Whenever a task waits, a worker is awake that can take it now, or
all workers are busy with other tasks. -/
theorem no_lost_wakeup {workers : Nat} (h : Reached outside conf workers m)
    (hq : m.threads.queue ≠ []) :
    (∃ i, ∀ env, (m.next env (.other (.take i))).isSome) ∨
      ∀ (i : Nat) (job : Proc State Unit), m.threads.workers[i]? = some job →
        m.isAsleep i = false ∧ isOver job = false := by
  have hjobs : 0 < m.pool.jobs := List.length_pos_iff.mpr hq
  have hawake : ∀ i, m.asleep i = false → m.isAsleep i = false := fun i hi => by
    rw [isAsleep, hi, Bool.and_false]
  rcases h.watched.served hjobs with hlooking | hbusy
  · obtain ⟨i, hlt, hget⟩ := List.getElem_of_mem hlooking
    have hlt : i < m.threads.workers.length := by simpa [pool] using hlt
    have hget : status (m.asleep i) m.threads.workers[i] = .looking := by
      simpa only [pool, List.getElem_mapIdx] using hget
    obtain ⟨hi, hover⟩ := of_status (by rw [hget]; decide)
    exact Or.inl ⟨i, take_isSome (List.getElem?_eq_getElem hlt) (hover.mpr hget) (hawake i hi) hq⟩
  · refine Or.inr fun i job hi => ?_
    have hget := hbusy _ (List.mem_of_getElem? (pool_worker hi))
    obtain ⟨hi, hover⟩ := of_status (by rw [hget]; decide)
    refine ⟨hawake i hi, Bool.eq_false_iff.mpr fun h => ?_⟩
    exact absurd (hget.symm.trans (hover.mp h)) (by decide)

/-- Both workers sleep when the login of a guest is queued, and one of them is woken. -/
theorem no_lost_wakeup_guest : ∃ m : Sleepers, m.threads.queue ≠ [] ∧ m.isAsleep 1 = true ∧
    ((∃ i, ∀ env, (m.next env (.other (.take i))).isSome) ∨
      ∀ (i : Nat) (job : Proc State Unit), m.threads.workers[i]? = some job →
        m.isAsleep i = false ∧ isOver job = false) := by
  let run : List (Env × Sleepers.Move) := [.sleep 0, .sleep 1, .other (.accept 5 100),
    .other (.event 5 [(.bytes 4, .bytes 38)] (Framing.frames 4 [guestLogin.data])),
    .other .stamp, .put (some 0)].map fun a => (.delivering 0 guestLogin, a)
  have hcheck : ((start (fun _ => lobbyConf) 2).moves run).any (fun m =>
      !m.threads.queue.isEmpty && m.isAsleep 1) := by
    decide +kernel
  obtain ⟨m, hrun, hm⟩ := (Option.any_eq_true _ _).mp hcheck
  obtain ⟨hqueue, hasleep⟩ := Bool.and_eq_true_iff.mp hm
  have hqueue : m.threads.queue ≠ [] := by simpa using hqueue
  have hreached : Reached (fun _ => True) (fun _ => lobbyConf) 2 m :=
    reached_of_moves (fun _ _ => trivial) hrun
  exact ⟨m, hqueue, hasleep, no_lost_wakeup hreached hqueue⟩

/-! ## Sleeping and interleaving -/

theorem Sleepers.Moves.threads (h : Sleepers.Moves outside m m') :
    Relation.ReflTransGen (Threads.Moves outside) m.threads m'.threads := by
  obtain ⟨env, a, ho, h⟩ := h
  cases a with
  | other a =>
    obtain ⟨-, h⟩ := Option.ite_none_right_eq_some.mp h
    obtain ⟨t, ht, rfl⟩ := Option.map_eq_some_iff.mp h
    exact .single ⟨env, a, ho, ht⟩
  | put woken =>
    obtain ⟨task, rest, hreader, ht, -⟩ := put_cases h
    refine .single ⟨env, .enqueue, ho, ?_⟩
    simp only [Threads.next, hreader, ht]
  | sleep i =>
    obtain ⟨job, -, -, -, -, rfl⟩ := sleep_cases h
    exact .refl
  | wake i =>
    obtain ⟨-, h⟩ := Option.ite_none_right_eq_some.mp h
    cases h
    exact .refl

/-- While nobody sleeps, the threads may take any of their steps. -/
theorem Threads.Moves.nobody {t t' : Threads} (h : Threads.Moves outside t t') :
    Sleepers.Moves outside ⟨t, fun _ => false⟩ ⟨t', fun _ => false⟩ := by
  obtain ⟨env, a, ho, h⟩ := h
  have hawake : ∀ i, (⟨t, fun _ => false⟩ : Sleepers).isAsleep i = false := fun i =>
    Bool.and_false _
  by_cases hallow : (⟨t, fun _ => false⟩ : Sleepers).allows a = true
  · exact ⟨env, .other a, ho, by simp only [Sleepers.next, hallow, if_true, h, Option.map_some]⟩
  cases a with
  | enqueue =>
    cases hreader : t.reader with
    | queuing tasks =>
      cases tasks with
      | nil => simp [allows, hreader] at hallow
      | cons task rest =>
        simp only [Threads.next, hreader, Option.some.injEq] at h
        refine ⟨env, .put none, ho, ?_⟩
        simp [Sleepers.next, hreader, Sleepers.nobody, h]
    | waiting => simp [allows, hreader] at hallow
    | stamping client tasks => simp [allows, hreader] at hallow
  | take i => simp [allows, hawake] at hallow
  | work i => simp [allows, hawake] at hallow
  | accept fd node => exact absurd rfl hallow
  | event fd ready stream => exact absurd rfl hallow
  | stamp => exact absurd rfl hallow
  | wake => exact absurd rfl hallow
  | beat => exact absurd rfl hallow

/-- **Sleeping changes nothing that can happen**: with the condition, the threads reach exactly
the states of their interleavings. -/
theorem reached_iff_interleaved (workers : Nat) :
    (∃ asleep, Reached outside conf workers ⟨t, asleep⟩) ↔ Interleaved outside conf workers t := by
  constructor
  · intro ⟨asleep, h⟩
    suffices hall : ∀ m, Reached outside conf workers m → Interleaved outside conf workers m.threads
      from hall _ h
    intro m h
    induction h with
    | refl => exact .refl
    | tail _ hmove ih => exact ih.trans hmove.threads
  · intro h
    refine ⟨fun _ => false, ?_⟩
    induction h with
    | refl => exact .refl
    | tail _ hmove ih => exact ih.tail hmove.nobody

end ArpgServer
