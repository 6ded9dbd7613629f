import ArpgServer.Model.Policy

/-!
# Requests for the policy

Every request that is read as a whole is answered once, with the text that was first read from
the configuration. A request that arrives in parts gets no answer.
-/

namespace ArpgServer

open CText

variable {m m' : PolicyServer} {e : PolicyEvent} {es : List PolicyEvent} {fd : Nat}
  {script : Option (Bytes → LuaValue)}

/-! ## Requests -/

theorem policyText_length : policyText.length = 22 := by decide +kernel

/-- A request is complete with its terminator, or at the end of what has been read. -/
theorem isPolicy_iff {data : Bytes} (h : data.length ≤ maxBufferLength) :
    isPolicy data = true ↔ data = policyText ∨ policyText ++ [0] <+: data := by
  have hlength := policyText_length
  rw [isPolicy, decide_eq_true_eq]
  constructor
  · intro htake
    by_cases hdata : data.length ≤ policyText.length
    · refine Or.inl ?_
      rw [List.take_append, List.take_of_length_le (by omega), List.take_replicate,
        min_eq_left (by rw [maxBufferLength] at h ⊢; omega),
        Nat.sub_add_comm hdata, List.replicate_succ', ← List.append_assoc] at htake
      have htext : data ++ List.replicate (policyText.length - data.length) 0 = policyText :=
        List.append_cancel_right htake
      have hzero : (0 : UInt8) ∉ policyText := by decide +kernel
      have hfull : policyText.length - data.length = 0 := by
        by_contra hshort
        refine hzero (htext ▸ List.mem_append_right data ?_)
        exact List.mem_replicate.mpr ⟨hshort, rfl⟩
      rwa [hfull, List.replicate_zero, List.append_nil] at htext
    · refine Or.inr ?_
      rw [List.take_append_of_le_length (by omega)] at htake
      exact htake ▸ List.take_prefix ..
  · rintro (rfl | ⟨rest, rfl⟩)
    · decide +kernel
    · rw [List.append_assoc]
      exact List.take_left' (by simp)

/-- The event brings a complete request of the client at `fd`. -/
def PolicyEvent.isRequest (fd : Nat) : PolicyEvent → Bool
  | .readable k ready stream =>
    k = fd ∧ 0 < (readFd ready stream maxBufferLength).result ∧
      isPolicy (readFd ready stream maxBufferLength).data
  | _ => false

/-! ## Answers -/

namespace PolicyServer

/-- The number of texts sent to `fd`. -/
def answers (m : PolicyServer) (fd : Nat) : Nat := m.sent.countP fun x => x.1 = fd

/-- A request of the client at `fd` has not been answered yet. -/
def pending (m : PolicyServer) (fd : Nat) : Nat := if m.interest fd = some .output then 1 else 0

theorem load_eq_some (h : m.load script = some m') :
    m'.interest = m.interest ∧ m'.sent = m.sent ∧
      (m' = m ∨ m.crossdomain = [] ∧ ∃ globals, luaGetstring globals (ofString "crossdomain") =
        some m'.crossdomain ∧ m'.crossdomain.length < maxBufferLength) := by
  unfold load at h
  split at h
  · rename_i hempty
    obtain ⟨temp, htemp, h⟩ := Option.bind_eq_some_iff.mp h
    obtain ⟨globals, -, hglobal⟩ := Option.bind_eq_some_iff.mp htemp
    obtain ⟨hfits, h⟩ := Option.ite_none_right_eq_some.mp h
    cases h
    exact ⟨rfl, rfl, Or.inr ⟨List.length_eq_zero_iff.mp (Nat.le_zero.mp hempty), globals, hglobal,
      hfits⟩⟩
  · cases h
    exact ⟨rfl, rfl, Or.inl rfl⟩

theorem pending_watch (m : PolicyServer) (k : Nat) (interest : Option Interest) (fd : Nat) :
    (m.watch k interest).pending fd =
      if fd = k then (if interest = some .output then 1 else 0) else m.pending fd := by
  by_cases hk : fd = k
  · subst hk
    simp [pending, watch]
  · simp [pending, watch, hk]

@[simp] theorem answers_watch (m : PolicyServer) (k : Nat) (interest : Option Interest) (fd : Nat) :
    (m.watch k interest).answers fd = m.answers fd := rfl

theorem answers_send (m : PolicyServer) (k fd : Nat) :
    (m.send k).answers fd = m.answers fd + (if fd = k then 1 else 0) := by
  simp [answers, send, List.countP_append, List.countP_singleton, eq_comm]

theorem pending_of_ne (h : m.interest fd ≠ some .output) : m.pending fd = 0 := if_neg h

/-- What is watched at `k` counts when it is `k` that is asked about. -/
theorem counts_watch (m : PolicyServer) (k : Nat) (interest : Option Interest)
    (hidle : m.interest k ≠ some .output) (fd : Nat) :
    (m.watch k interest).answers fd + (m.watch k interest).pending fd =
      m.answers fd + m.pending fd + (if fd = k ∧ interest = some .output then 1 else 0) := by
  rw [answers_watch, pending_watch]
  by_cases hk : fd = k
  · subst hk
    simp [pending_of_ne hidle]
  · simp [hk]

/-- Each event is a request, an answer or neither. -/
theorem handle_counts (he : m.reports e) (h : m.handle script e = some m') (fd : Nat) :
    m'.answers fd + m'.pending fd =
      m.answers fd + m.pending fd + (if e.isRequest fd then 1 else 0) := by
  cases e with
  | connect k =>
    cases k with
    | none =>
      cases h
      rfl
    | some k =>
      cases h
      have hidle : m.interest k ≠ some .output := by
        rw [of_decide_eq_true he]
        decide
      rw [counts_watch m k (some .input) hidle]
      simp [PolicyEvent.isRequest]
  | readable k ready stream =>
    have hidle : m.interest k ≠ some .output := by
      rw [of_decide_eq_true he]
      decide
    simp only [handle] at h
    simp only [PolicyEvent.isRequest, decide_eq_true_eq]
    split at h
    · rename_i hclosed
      cases h
      rw [counts_watch m k none hidle]
      simp [not_lt.mpr hclosed]
    · rename_i hread
      split at h
      · rename_i hpolicy
        cases h
        rw [counts_watch m k (some .output) hidle]
        simp [not_le.mp hread, hpolicy, eq_comm]
      · rename_i hpolicy
        cases h
        simp [hpolicy]
  | writable k =>
    have he : m.interest k = some .output := of_decide_eq_true he
    obtain ⟨t, hload, rfl⟩ := Option.map_eq_some_iff.mp h
    obtain ⟨hinterest, hsent, -⟩ := load_eq_some hload
    have hanswers : t.answers fd = m.answers fd := by rw [answers, answers, hsent]
    have hpending : t.pending fd = m.pending fd := by rw [pending, pending, hinterest]
    have hasked : m.pending k = 1 := if_pos he
    rw [answers_watch, answers_send, pending_watch, hanswers]
    by_cases hk : fd = k
    · subst hk
      simp [hasked, PolicyEvent.isRequest]
    · simp only [hk, if_false, PolicyEvent.isRequest, Bool.false_eq_true, Nat.add_zero]
      exact congrArg _ hpending

theorem Runs.counts (h : Runs m es m') (fd : Nat) :
    m'.answers fd + m'.pending fd =
      m.answers fd + m.pending fd + es.countP (PolicyEvent.isRequest fd) := by
  induction h with
  | refl => rfl
  | tail script h he hstep ih =>
    rw [handle_counts he hstep, ih, List.countP_append, List.countP_singleton]
    omega

end PolicyServer

open PolicyServer

/-- **Each request has one answer.** At any time, as many texts have been sent to a descriptor
as complete requests have been read from it, but for one that waits until it can be answered. -/
theorem policy_answers (h : PolicyServer.Runs PolicyServer.start es m) (fd : Nat) :
    m.answers fd + m.pending fd = es.countP (PolicyEvent.isRequest fd) := by
  rw [h.counts]
  simp [PolicyServer.start, answers, pending]

/-- A configuration with a short policy. -/
def shortPolicy (key : Bytes) : LuaValue :=
  if key = ofString "crossdomain" then .string (ofString "<cross-domain-policy/>") else .nil

/-- The client at 7 asks and is answered, and asks again; the one at 8 asks in two parts. -/
def policyRun : List (Option (Bytes → LuaValue) × PolicyEvent) :=
  [.connect (some 7), .connect (some 8), .readable 7 (.bytes 23) (policyText ++ [0]),
    .readable 8 (.bytes 10) policyText, .writable 7, .readable 8 (.bytes 12) (policyText.drop 10),
    .readable 7 (.bytes 22) policyText].map fun e => (some shortPolicy, e)

theorem policy_answers_twice : ∃ (es : List PolicyEvent) (m : PolicyServer),
    PolicyServer.Runs PolicyServer.start es m ∧ m.answers 7 = 1 ∧ m.pending 7 = 1 ∧
      m.answers 7 + m.pending 7 = es.countP (PolicyEvent.isRequest 7) := by
  have hcheck : (PolicyServer.start.serve policyRun).any (fun m =>
      m.answers 7 = 1 ∧ m.pending 7 = 1) := by
    decide +kernel
  obtain ⟨m, hrun, hm⟩ := (Option.any_eq_true _ _).mp hcheck
  obtain ⟨hanswers, hpending⟩ := of_decide_eq_true hm
  have hruns := runs_of_serve (.refl PolicyServer.start) hrun
  exact ⟨_, m, hruns, hanswers, hpending, policy_answers hruns 7⟩

/-! ## Texts -/

namespace PolicyServer

theorem handle_cases (h : m.handle script e = some m') :
    (m'.crossdomain = m.crossdomain ∨ m.crossdomain = [] ∧ 0 ∉ m'.crossdomain ∧
      m'.crossdomain.length < maxBufferLength) ∧
    (m'.sent = m.sent ∨ ∃ fd, m'.sent = m.sent ++ [(fd, m'.crossdomain ++ [0])]) := by
  cases e with
  | connect k =>
    cases k <;> cases h
    · exact ⟨Or.inl rfl, Or.inl rfl⟩
    · exact ⟨Or.inl rfl, Or.inl rfl⟩
  | readable k ready stream =>
    simp only [handle] at h
    split at h
    · cases h
      exact ⟨Or.inl rfl, Or.inl rfl⟩
    · split at h <;> cases h
      · exact ⟨Or.inl rfl, Or.inl rfl⟩
      · exact ⟨Or.inl rfl, Or.inl rfl⟩
  | writable k =>
    obtain ⟨t, hload, rfl⟩ := Option.map_eq_some_iff.mp h
    obtain ⟨-, hsent, hread⟩ := load_eq_some hload
    refine ⟨?_, Or.inr ⟨k, by simp only [watch, send, hsent]⟩⟩
    rcases hread with rfl | ⟨hempty, globals, htext, hfits⟩
    · exact Or.inl rfl
    · refine Or.inr ⟨hempty, ?_, hfits⟩
      obtain ⟨text, -, htext⟩ := Option.map_eq_some_iff.mp htext
      intro hzero
      have hzero : (0 : UInt8) ∈ (text.take ((globals (ofString "crossdomain")).rawLen)).takeWhile
          (· ≠ 0) := htext ▸ hzero
      simpa using List.mem_takeWhile_imp hzero

/-- The text in the buffer is a C text, and it is what has been sent since it was read. -/
structure Settled (m : PolicyServer) : Prop where
  text : 0 ∉ m.crossdomain
  fits : m.crossdomain.length < maxBufferLength
  sent : ∀ x ∈ m.sent, x.2 = [0] ∨ x.2 = m.crossdomain ++ [0]

theorem Settled.handle (hm : Settled m) (h : m.handle script e = some m') : Settled m' := by
  obtain ⟨hcross, hsent⟩ := handle_cases h
  have hold : ∀ x ∈ m.sent, x.2 = [0] ∨ x.2 = m'.crossdomain ++ [0] := by
    intro x hx
    rcases hcross with hsame | ⟨hempty, -, -⟩
    · rw [hsame]
      exact hm.sent x hx
    · have hx := hm.sent x hx
      rw [hempty] at hx
      exact Or.inl (hx.elim id id)
  refine ⟨?_, ?_, ?_⟩
  · rcases hcross with hsame | ⟨-, htext, -⟩
    · exact hsame ▸ hm.text
    · exact htext
  · rcases hcross with hsame | ⟨-, -, hfits⟩
    · exact hsame ▸ hm.fits
    · exact hfits
  · intro x hx
    rcases hsent with hsame | ⟨fd, hmore⟩
    · exact hold x (hsame ▸ hx)
    · rw [hmore] at hx
      rcases List.mem_append.mp hx with hx | hx
      · exact hold x hx
      · exact Or.inr (congrArg Prod.snd (List.mem_singleton.mp hx))

theorem Runs.settled (h : Runs m es m') (hm : Settled m) : Settled m' := by
  induction h with
  | refl => exact hm
  | tail script h he hstep ih => exact ih.handle hstep

theorem Runs.crossdomain (h : Runs m es m') (hread : m.crossdomain ≠ []) :
    m'.crossdomain = m.crossdomain := by
  induction h with
  | refl => rfl
  | tail script h he hstep ih =>
    rcases (handle_cases hstep).1 with hsame | ⟨hempty, -, -⟩
    · rw [hsame, ih]
    · exact absurd (ih ▸ hempty) hread

end PolicyServer

/-- **One text for all.** However the configuration changes, all clients are sent the same text,
or an empty one before there is another, as a C text that fits the buffer; and from when there
is a text it stays. -/
theorem policy_texts (h : PolicyServer.Runs PolicyServer.start es m) :
    (∀ x ∈ m.sent, x.2 = [0] ∨ x.2 = m.crossdomain ++ [0]) ∧ 0 ∉ m.crossdomain ∧
      m.crossdomain.length < maxBufferLength ∧
      ∀ es' m', PolicyServer.Runs m es' m' → m.crossdomain ≠ [] →
        m'.crossdomain = m.crossdomain := by
  have hstart : Settled PolicyServer.start := ⟨by simp [PolicyServer.start], by decide, by
    simp [PolicyServer.start]⟩
  obtain ⟨htext, hfits, hsent⟩ := h.settled hstart
  exact ⟨hsent, htext, hfits, fun es' m' h' hread => h'.crossdomain hread⟩

/-- One answer has been sent. -/
theorem policy_texts_short : ∃ (es : List PolicyEvent) (m : PolicyServer),
    PolicyServer.Runs PolicyServer.start es m ∧
      m.sent = [(7, ofString "<cross-domain-policy/>" ++ [0])] ∧
      ∀ x ∈ m.sent, x.2 = [0] ∨ x.2 = m.crossdomain ++ [0] := by
  have hcheck : (PolicyServer.start.serve policyRun).any (fun m =>
      m.sent = [(7, ofString "<cross-domain-policy/>" ++ [0])]) := by
    decide +kernel
  obtain ⟨m, hrun, hm⟩ := (Option.any_eq_true _ _).mp hcheck
  have hruns := runs_of_serve (.refl PolicyServer.start) hrun
  exact ⟨_, m, hruns, of_decide_eq_true hm, (policy_texts hruns).1⟩

end ArpgServer
