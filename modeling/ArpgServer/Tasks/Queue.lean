import ArpgServer.Model.TaskQueue

/-!
# The list of tasks is a queue

After the last task is taken `task_last` leads to a task that a worker handles or has freed.
The next task is then linked through `task_head`, so `task_last` is followed only while it is
the last node of the list: all interleavings of the threads see a first-in first-out queue.
-/

namespace ArpgServer

open Linked

variable {s s' : QueueHistory} {q q' : TaskQueue} {nodes : List (Addr × Task)} {a b : Addr}
  {t : Task} {w w' : Nat}

/-- The task that a worker was handed last. -/
def lastHanded (got : List (Nat × Task)) (w : Nat) : Option Task :=
  ((got.filter fun g => g.1 = w).getLast?).map Prod.snd

/-- The list consists of `nodes`, and the threads hold nodes of their own. -/
structure Queued (s : QueueHistory) (nodes : List (Addr × Task)) : Prop where
  chain : Chain s.queue.heap s.queue.taskHead nodes none
  order : s.put = s.got.map Prod.snd ++ nodes.map Prod.snd
  tail : nodes ≠ [] → s.queue.taskLast = last nodes
  fresh : ∀ a, s.queue.newTask = some a →
    a ∉ nodes.map Prod.fst ∧ ∃ t, s.queue.heap a = some ⟨t, none⟩
  taken : ∀ w a, s.queue.temp w = some a → a ∉ nodes.map Prod.fst ∧ s.queue.newTask ≠ some a ∧
    ∃ t next, s.queue.heap a = some ⟨t, next⟩ ∧ lastHanded s.got w = some t
  apart : ∀ w w' a, s.queue.temp w = some a → s.queue.temp w' = some a → w = w'

theorem queued_start : Queued .start [] where
  chain := rfl
  order := rfl
  tail := by
    intro h
    exact absurd rfl h
  fresh := by
    intro a h
    cases h
  taken := by
    intro w a h
    cases h
  apart := by
    intro w w' a h
    cases h

theorem Queued.allocate (h : Queued s nodes) (hq : s.queue.allocate a t = some q) :
    Queued { s with queue := q } nodes := by
  unfold TaskQueue.allocate at hq
  split at hq
  · rename_i hfree
    cases hq
    obtain ⟨hnone, hfree⟩ := hfree
    have hout := h.chain.not_mem_of_none hfree
    refine ⟨h.chain.update hout _, h.order, h.tail, ?_, ?_, h.apart⟩
    · intro b hb
      cases hb
      exact ⟨hout, t, Function.update_self ..⟩
    · intro w b hb
      obtain ⟨hmem, -, t', next, hheap, hlast⟩ := h.taken w b hb
      have hne : b ≠ a := by
        rintro rfl
        rw [hfree] at hheap
        cases hheap
      refine ⟨hmem, fun heq => hne (Option.some.inj heq).symm, t', next, ?_, hlast⟩
      show Function.update s.queue.heap a _ b = _
      rw [Function.update_of_ne hne]
      exact hheap
  · cases hq

/-! ## Putting a task in -/

theorem last_eq_some {nodes : List (Addr × Task)} (h : nodes ≠ []) :
    ∃ front l x, nodes = front ++ [(l, x)] ∧ last nodes = some l := by
  obtain ⟨front, ⟨l, x⟩, rfl⟩ := List.eq_nil_or_concat' nodes |>.resolve_left h
  exact ⟨front, l, x, rfl, last_append_singleton⟩

/-- The new node is linked behind the last one, whatever `task_last` is when there is none. -/
theorem Queued.link (h : Queued s nodes) (hnew : s.queue.newTask = some a)
    (ha : s.queue.heap a = some ⟨t, none⟩) :
    ∃ q, s.queue.link a = some q ∧ Chain q.heap q.taskHead (nodes ++ [(a, t)]) none ∧
      q.temp = s.queue.temp ∧ ∀ b, b ∉ nodes.map Prod.fst → q.heap b = s.queue.heap b := by
  have hstart := h.chain.start_eq
  unfold TaskQueue.link
  cases hhead : s.queue.taskHead with
  | none =>
    have hnil : nodes = [] := by
      rw [hhead] at hstart
      cases nodes with
      | nil => rfl
      | cons node nodes => cases hstart
    subst hnil
    exact ⟨_, rfl, ⟨rfl, none, ha, rfl⟩, rfl, fun b _ => rfl⟩
  | some b =>
    have hne : nodes ≠ [] := by
      rintro rfl
      rw [hhead] at hstart
      cases hstart
    obtain ⟨front, l, x, rfl, hlast⟩ := last_eq_some hne
    obtain ⟨next, hl⟩ := h.chain.mem (a := l) (x := x) (by simp)
    obtain ⟨heap, hset⟩ : ∃ heap, setNext s.queue.heap l (some a) = some heap :=
      ⟨_, by rw [setNext, hl, Option.map_some]⟩
    obtain ⟨node, -, hheap⟩ := setNext_eq_some hset
    have hchain := h.chain.redirect h.chain.nodup hset
    have hal : a ≠ l := by
      rintro rfl
      exact (h.fresh a hnew).1 (by simp)
    rw [h.tail hne, hlast]
    simp only [Option.bind_some, hset, Option.map_some]
    refine ⟨_, rfl, ?_, rfl, ?_⟩
    · rw [hhead] at hchain
      apply hchain.snoc
      rw [hheap, Function.update_of_ne hal]
      exact ha
    · intro c hc
      show heap c = _
      rw [hheap]
      apply Function.update_of_ne
      rintro rfl
      exact hc (by simp)

theorem Queued.enqueue (h : Queued s nodes) (hnew : s.queue.newTask = some a) :
    ∃ q t, s.queue.enqueue = some q ∧ s.taskAt s.queue.newTask = [t] ∧
      Queued { s with queue := q, put := s.put ++ s.taskAt s.queue.newTask }
        (nodes ++ [(a, t)]) := by
  obtain ⟨hout, t, ha⟩ := h.fresh a hnew
  obtain ⟨q, hlink, hchain, htemp, hheap⟩ := h.link hnew ha
  have htask : s.taskAt s.queue.newTask = [t] := by
    simp [QueueHistory.taskAt, hnew, ha]
  refine ⟨{ q with taskLast := some a, newTask := none }, t, ?_, htask, ?_⟩
  · rw [TaskQueue.enqueue, hnew, Option.bind_some, hlink, Option.map_some]
  refine ⟨hchain, ?_, fun _ => last_append_singleton.symm, ?_, ?_, ?_⟩
  · show s.put ++ s.taskAt s.queue.newTask = _
    rw [htask, h.order]
    simp
  · intro b hb
    cases hb
  · intro w b hb
    rw [htemp] at hb
    obtain ⟨hmem, hbnew, t', next, hb', hlast⟩ := h.taken w b hb
    refine ⟨?_, by simp, t', next, (hheap b hmem).trans hb', hlast⟩
    rw [List.map_append, List.mem_append]
    rintro (hb₁ | hb₁)
    · exact hmem hb₁
    · obtain rfl : b = a := by simpa using hb₁
      exact hbnew hnew
  · rw [htemp]
    exact h.apart

/-! ## Taking a task out -/

theorem lastHanded_self (got : List (Nat × Task)) (w : Nat) (t : Task) :
    lastHanded (got ++ [(w, t)]) w = some t := by
  simp [lastHanded]

theorem lastHanded_of_ne (got : List (Nat × Task)) (t : Task) (h : w' ≠ w) :
    lastHanded (got ++ [(w, t)]) w' = lastHanded got w' := by
  simp [lastHanded, h.symm]

/-- The worker gets the first task, and the list goes on behind it. -/
theorem Queued.dequeue (h : Queued s nodes) (hhead : s.queue.taskHead ≠ none) (w : Nat) :
    ∃ q t rest, s.queue.dequeue w = some q ∧ s.taskAt s.queue.taskHead = [t] ∧
      nodes.map Prod.snd = t :: rest.map Prod.snd ∧
      Queued { s with queue := q, got := s.got ++ (s.taskAt s.queue.taskHead).map (w, ·) }
        rest := by
  cases nodes with
  | nil => exact absurd h.chain hhead
  | cons node rest =>
    obtain ⟨a, t⟩ := node
    have hnodup := h.chain.nodup
    obtain ⟨hfirst, next, ha, hchain⟩ := h.chain
    have htask : s.taskAt s.queue.taskHead = [t] := by
      simp [QueueHistory.taskAt, hfirst, ha]
    have hout : a ∉ rest.map Prod.fst := by
      rw [List.map_cons, List.nodup_cons] at hnodup
      exact hnodup.1
    refine ⟨{ s.queue with
        taskHead := next
        temp := Function.update s.queue.temp w (some a) }, t, rest, ?_, htask, rfl, ?_⟩
    · rw [TaskQueue.dequeue, hfirst, Option.bind_some, ha, Option.map_some]
    refine ⟨hchain, ?_, ?_, ?_, ?_, ?_⟩
    · show s.put = (s.got ++ (s.taskAt s.queue.taskHead).map (w, ·)).map Prod.snd ++ _
      rw [htask, h.order]
      simp
    · intro hne
      show s.queue.taskLast = last rest
      rw [h.tail (List.cons_ne_nil _ _)]
      cases rest with
      | nil => exact absurd rfl hne
      | cons node rest => simp [last]
    · intro b hb
      obtain ⟨hb₁, hb₂⟩ := h.fresh b hb
      exact ⟨fun hmem => hb₁ (List.mem_cons_of_mem _ hmem), hb₂⟩
    · intro w' b hb
      rw [htask, List.map_singleton]
      by_cases hw : w' = w
      · subst hw
        obtain rfl : a = b := by simpa using hb
        refine ⟨hout, fun hnew => ?_, t, next, ha, lastHanded_self s.got w' t⟩
        exact (h.fresh a hnew).1 List.mem_cons_self
      · have hold : s.queue.temp w' = some b := by simpa [hw] using hb
        obtain ⟨hmem, hnew, t', next', hb', hlast⟩ := h.taken w' b hold
        refine ⟨fun hb₁ => hmem (List.mem_cons_of_mem _ hb₁), hnew, t', next', hb', ?_⟩
        rw [lastHanded_of_ne s.got t hw]
        exact hlast
    · -- Nobody else has the node that was in the list until now.
      have hnobody : ∀ w', s.queue.temp w' ≠ some a := fun w' hw' =>
        (h.taken w' a hw').1 List.mem_cons_self
      intro w₁ w₂ b hb₁ hb₂
      by_cases hw₁ : w₁ = w <;> by_cases hw₂ : w₂ = w
      · rw [hw₁, hw₂]
      · simp only [hw₁, Function.update_self, Option.some.injEq, Function.update_of_ne hw₂]
          at hb₁ hb₂
        exact absurd (hb₁ ▸ hb₂) (hnobody w₂)
      · simp only [hw₂, Function.update_self, Option.some.injEq, Function.update_of_ne hw₁]
          at hb₁ hb₂
        exact absurd (hb₂ ▸ hb₁) (hnobody w₁)
      · simp only [Function.update_of_ne hw₁, Function.update_of_ne hw₂] at hb₁ hb₂
        exact h.apart w₁ w₂ b hb₁ hb₂

/-- A node that is freed is not in the list, and no other thread has it. -/
theorem Queued.release (h : Queued s nodes) (htemp : s.queue.temp w = some a) :
    ∃ q, s.queue.release w = some q ∧ Queued { s with queue := q } nodes := by
  obtain ⟨hout, hnew, t, next, ha, -⟩ := h.taken w a htemp
  refine ⟨{ s.queue with
      heap := Function.update s.queue.heap a none
      temp := Function.update s.queue.temp w none }, ?_, ?_⟩
  · rw [TaskQueue.release, htemp, Option.bind_some, ha, Option.map_some]
  refine ⟨h.chain.update hout none, h.order, h.tail, ?_, ?_, ?_⟩
  · intro b hb
    obtain ⟨hb₁, t', hb₂⟩ := h.fresh b hb
    have hne : b ≠ a := by
      rintro rfl
      exact hnew hb
    exact ⟨hb₁, t', (Function.update_of_ne hne _ _).trans hb₂⟩
  · intro w' b hb
    by_cases hw : w' = w
    · simp [hw] at hb
    · have hold : s.queue.temp w' = some b := by simpa [hw] using hb
      obtain ⟨hmem, hbnew, t', next', hb', hlast⟩ := h.taken w' b hold
      have hne : b ≠ a := by
        rintro rfl
        exact hw (h.apart w' w b hold htemp)
      exact ⟨hmem, hbnew, t', next', (Function.update_of_ne hne _ _).trans hb', hlast⟩
  · intro w₁ w₂ b hb₁ hb₂
    by_cases hw₁ : w₁ = w
    · simp [hw₁] at hb₁
    · by_cases hw₂ : w₂ = w
      · simp [hw₂] at hb₂
      · simp only [Function.update_of_ne hw₁, Function.update_of_ne hw₂] at hb₁ hb₂
        exact h.apart w₁ w₂ b hb₁ hb₂

/-! ## All interleavings -/

theorem Queued.step (h : Queued s nodes) {action : QueueAction} (hs : s.step action = some s') :
    ∃ nodes, Queued s' nodes := by
  cases action with
  | allocate a t =>
    obtain ⟨q, hq, rfl⟩ := Option.map_eq_some_iff.mp hs
    exact ⟨nodes, h.allocate hq⟩
  | enqueue =>
    obtain ⟨q, hq, rfl⟩ := Option.map_eq_some_iff.mp hs
    obtain ⟨a, hnew, -⟩ := Option.bind_eq_some_iff.mp hq
    obtain ⟨q', t, hq', -, h'⟩ := h.enqueue hnew
    rw [hq] at hq'
    cases hq'
    exact ⟨_, h'⟩
  | dequeue w =>
    simp only [QueueHistory.step] at hs
    split at hs
    · obtain ⟨q, hq, rfl⟩ := Option.map_eq_some_iff.mp hs
      obtain ⟨a, hhead, -⟩ := Option.bind_eq_some_iff.mp hq
      obtain ⟨q', t, rest, hq', -, -, h'⟩ := h.dequeue (by simp [hhead]) w
      rw [hq] at hq'
      cases hq'
      exact ⟨rest, h'⟩
    · cases hs
  | release w =>
    obtain ⟨q, hq, rfl⟩ := Option.map_eq_some_iff.mp hs
    obtain ⟨a, htemp, -⟩ := Option.bind_eq_some_iff.mp hq
    obtain ⟨q', hq', h'⟩ := h.release htemp
    rw [hq] at hq'
    cases hq'
    exact ⟨nodes, h'⟩

theorem QueueHistory.Runs.queued (h : s.Runs) : ∃ nodes, Queued s nodes := by
  induction h with
  | refl => exact ⟨[], queued_start⟩
  | tail _ hs ih =>
    obtain ⟨nodes, ih⟩ := ih
    obtain ⟨action, hs⟩ := hs
    exact ih.step hs

/-- The list is a queue: it holds the tasks that were put in and not handed out, in order;
`task_last` is its last node, which no worker has, while there is one; no section follows a
pointer to freed memory; and a worker has the task it was handed until it frees it. -/
structure Fifo (s : QueueHistory) (nodes : List (Addr × Task)) : Prop where
  list : Chain s.queue.heap s.queue.taskHead nodes none
  order : s.put = s.got.map Prod.snd ++ nodes.map Prod.snd
  tail : s.queue.taskHead ≠ none →
    ∃ front l t, nodes = front ++ [(l, t)] ∧ s.queue.taskLast = some l
  waiting : ∀ a ∈ nodes.map Prod.fst, ∀ w, s.queue.temp w ≠ some a
  enqueue : s.queue.newTask ≠ none → s.queue.enqueue.isSome
  dequeue : s.queue.taskHead ≠ none → ∀ w, (s.queue.dequeue w).isSome
  release : ∀ w, s.queue.temp w ≠ none → (s.queue.release w).isSome
  handed : ∀ w a, s.queue.temp w = some a →
    ∃ t next, s.queue.heap a = some ⟨t, next⟩ ∧ lastHanded s.got w = some t

theorem Queued.fifo (h : Queued s nodes) : Fifo s nodes where
  list := h.chain
  order := h.order
  tail := by
    intro hhead
    have hne : nodes ≠ [] := by
      rintro rfl
      exact hhead h.chain
    obtain ⟨front, l, t, hnodes, hlast⟩ := last_eq_some hne
    exact ⟨front, l, t, hnodes, (h.tail hne).trans hlast⟩
  waiting := by
    intro a ha w hw
    exact (h.taken w a hw).1 ha
  enqueue := by
    intro hnew
    obtain ⟨a, ha⟩ := Option.ne_none_iff_exists'.mp hnew
    obtain ⟨q, t, hq, -⟩ := h.enqueue ha
    rw [hq, Option.isSome_some]
  dequeue := by
    intro hhead w
    obtain ⟨q, t, rest, hq, -⟩ := h.dequeue hhead w
    rw [hq, Option.isSome_some]
  release := by
    intro w hw
    obtain ⟨a, ha⟩ := Option.ne_none_iff_exists'.mp hw
    obtain ⟨q, hq, -⟩ := h.release ha
    rw [hq, Option.isSome_some]
  handed := by
    intro w a hw
    exact (h.taken w a hw).2.2

/-- **Task queue.** In every interleaving the list is a first-in first-out queue. -/
theorem taskQueue_fifo (h : s.Runs) : ∃ nodes, Fifo s nodes := by
  obtain ⟨nodes, hq⟩ := h.queued
  exact ⟨nodes, hq.fifo⟩

/-- The list runs empty, and the next task gets the memory that `task_last` still leads to. -/
theorem taskQueue_fifo_reuse : ∃ s : QueueHistory, s.Runs ∧ s.queue.taskLast = some 100 ∧
    s.queue.taskHead = some 100 ∧ ∃ nodes, Fifo s nodes := by
  let first : Task := ⟨5, 200, 4, [1]⟩
  let second : Task := ⟨6, 300, 4, [2]⟩
  have hcheck : (QueueHistory.start.steps [.allocate 100 first, .enqueue, .dequeue 1, .release 1,
      .allocate 100 second, .enqueue]).any (fun s =>
        s.queue.taskLast = some 100 ∧ s.queue.taskHead = some 100) := by
    decide +kernel
  obtain ⟨s, hs, hcheck⟩ := (Option.any_eq_true _ _).mp hcheck
  obtain ⟨hlast, hhead⟩ := of_decide_eq_true hcheck
  have hrun := QueueHistory.runs_of_steps hs
  exact ⟨s, hrun, hlast, hhead, taskQueue_fifo hrun⟩

end ArpgServer
