import ArpgServer.Tasks.Commute

/-!
# The order of the frames of a connection

The workers take the frames of a connection from the queue in order, but nothing keeps two
of them from handling two frames of one client at a time. The tables end up as if the frames
were handled one after another when a worker runs ahead of an older frame only with sections
whose kinds are apart from all it may still execute. Frames whose kinds are apart may be
handled in any way.
-/

namespace ArpgServer

open CText

variable {s s' : State} {fd : Nat} {client : Addr} {workers : Nat} {frames : List Frame}

/-- A frame as a task carries it, and what the server reads from outside while it is
handled. -/
structure Frame where
  env : Env
  recvBits : Int
  data : Bytes

def Frame.job (fd : Nat) (client : Addr) (frame : Frame) : Proc State Unit :=
  parseMessage (getFdnodeByname frame.env) frame.env ⟨fd, client, frame.recvBits, frame.data⟩

/-- The workers, before the first frame is taken. -/
def workersAt (s : State) (fd : Nat) (client : Addr) (frames : List Frame) : Pool State :=
  ⟨s, frames.map (Frame.job fd client), []⟩

/-- The workers have handled all frames, and the tables are as if they had done so one after
another. -/
def InOrder (s : State) (fd : Nat) (client : Addr) (frames : List Frame) (s' : State) : Prop :=
  ∃ t, Proc.runAll (frames.map (Frame.job fd client)) s = some t ∧ t.tables = s'.tables

/-- The next section of the job is apart from all that the older one may still execute. -/
def Apart (fd : Nat) (client : Addr) (older : Proc State Unit) : Proc State Unit → Prop
  | .ret _ => True
  | .atomic f _ => ∃ κ, Section fd client κ _ f ∧
      older.All (OfKind fd client fun κ' => κ.apart κ')

theorem Apart.independent {older job : Proc State Unit} (h : Apart fd client older job) :
    Pool.Independent State.tables older job := by
  cases job with
  | ret a => trivial
  | atomic f k =>
    obtain ⟨κ, hf, holder⟩ := h
    refine Proc.All.mono ?_ holder
    rintro β g ⟨κ', hapart, hg⟩
    exact hf.commute hg hapart

theorem job_local (fd : Nat) (client : Addr) (frames : List Frame) :
    ∀ job ∈ frames.map (Frame.job fd client), job.IsLocal State.tables := by
  intro job hjob
  obtain ⟨frame, -, rfl⟩ := List.mem_map.mp hjob
  exact parseMessage_local frame.env _

/-- **The order of frames**, in the runs in which a section is executed ahead of an older
frame only if it is apart from all that this frame may still execute. -/
theorem inOrder_of_run (h : Pool.Run workers (Pool.Ahead (Apart fd client))
    (workersAt s fd client frames) ⟨s', [], []⟩) : InOrder s fd client frames s' :=
  Pool.Run.complete (job_local fd client frames) (h.mono fun _ _ => Apart.independent)

/-! ## Frames that are apart -/

/-- The kinds of the sections a frame may execute. -/
def Frame.kinds (fd : Nat) (client : Addr) (frame : Frame) : List Kind :=
  match Task.decode frame.env ⟨fd, client, frame.recvBits, frame.data⟩ with
  | .logout => [.other]
  | .undecodable => []
  | .ping => [.answer]
  | .event e => e.kinds frame.env.now

theorem Frame.job_all (fd : Nat) (client : Addr) (frame : Frame) :
    (frame.job fd client).All (OfKind fd client (· ∈ frame.kinds fd client)) := by
  unfold Frame.job Frame.kinds
  rw [parseMessage_decode]
  cases Task.decode frame.env ⟨fd, client, frame.recvBits, frame.data⟩ with
  | logout =>
    exact all_other (.bind (nodeDel_local frame.env (some client)) fun _ => trivial)
      List.mem_cons_self
  | undecodable => exact .ret _
  | ping => exact .step ((Section.reply .pong).ofKind List.mem_cons_self)
  | event e =>
    simp only [parseEvent, Event.kinds, Event.evType]
    cases e.attr .type with
    | none => exact .ret _
    | some type =>
      refine .bind (.step ((Section.time frame.env.now).ofKind ?_)) fun _ => ?_
      · exact List.mem_cons_self
      refine .bind (.step (Section.state.ofKind ?_)) fun state => ?_
      · simp
      · exact handleEvent_all frame.env client fd e (atoi type) state (by simp) (by simp)

/-- All kinds of the older job are apart from all of the younger one. -/
def Parted (fd : Nat) (client : Addr) (older job : Proc State Unit) : Prop :=
  ∃ K K' : Kind → Prop, older.All (OfKind fd client K) ∧ job.All (OfKind fd client K') ∧
    ∀ κ κ', K κ → K' κ' → κ'.apart κ

theorem parted_lasting (fd : Nat) (client : Addr) : Pool.Lasting (Parted fd client) where
  older := by
    rintro β f k b job ⟨K, K', holder, hjob, hapart⟩
    exact ⟨K, K', holder.2 b, hjob, hapart⟩
  younger := by
    rintro β f k b older ⟨K, K', holder, hjob, hapart⟩
    exact ⟨K, K', holder, hjob.2 b, hapart⟩

theorem Parted.apart {older job : Proc State Unit} (h : Parted fd client older job) :
    Apart fd client older job := by
  obtain ⟨K, K', holder, hjob, hapart⟩ := h
  cases job with
  | ret a => trivial
  | atomic f k =>
    obtain ⟨κ', hκ', hf⟩ := hjob.1
    refine ⟨κ', hf, Proc.All.mono ?_ holder⟩
    rintro β g ⟨κ, hκ, hg⟩
    exact ⟨κ, hapart κ κ' hκ hκ', hg⟩

/-- Frames of kinds that are apart are handled as if in order, whatever turns the workers take. -/
theorem inOrder_of_kinds
    (hkinds : frames.Pairwise fun older frame => ∀ κ κ', κ ∈ older.kinds fd client →
      κ' ∈ frame.kinds fd client → κ'.apart κ)
    (h : Pool.Run workers (fun _ _ => True) (workersAt s fd client frames) ⟨s', [], []⟩) :
    InOrder s fd client frames s' := by
  have hjobs : (workersAt s fd client frames).jobs.Pairwise (Parted fd client) := by
    refine hkinds.map _ fun older frame hapart => ?_
    exact ⟨_, _, older.job_all fd client, frame.job_all fd client, hapart⟩
  exact inOrder_of_run ((Pool.Run.ahead (parted_lasting fd client) hjobs h).2.mono
    fun _ _ => Parted.apart)

/-! ## Given runs -/

/-- A client asks for room 1. -/
def roomOne : Packet where
  data := [120, 156, 179, 73, 45, 75, 205, 43, 81, 40, 169, 44, 72, 181, 85, 55, 49, 80, 87, 40,
    202, 207, 207, 205, 76, 177, 85, 55, 84, 215, 183, 3, 0, 146, 80, 9, 3]
  text := ofString "<event type='40' roomid='1'/>"
  event := .ofList [(.type, ofString "40"), (.roomid, ofString "1")]

/-- A client asks for room 2. -/
def roomTwo : Packet where
  data := [120, 156, 179, 73, 45, 75, 205, 43, 81, 40, 169, 44, 72, 181, 85, 55, 49, 80, 87, 40,
    202, 207, 207, 205, 76, 177, 85, 55, 82, 215, 183, 3, 0, 146, 84, 9, 4]
  text := ofString "<event type='40' roomid='2'/>"
  event := .ofList [(.type, ofString "40"), (.roomid, ofString "2")]

def Packet.frame (now : Int) (m : Packet) : Frame := ⟨.delivering now m, 4, m.data⟩

/-- A client steps aside. -/
def stepAside : Packet where
  data := [120, 156, 179, 73, 45, 75, 205, 43, 81, 40, 169, 44, 72, 181, 85, 55, 52, 48, 80, 87,
    168, 176, 85, 55, 86, 87, 168, 180, 85, 55, 81, 87, 72, 201, 44, 74, 77, 46, 201, 204, 207, 179,
    85, 55, 82, 215, 183, 3, 0, 56, 171, 13, 22]
  text := ofString "<event type='100' x='3' y='4' direction='2'/>"
  event := .ofList [(.type, ofString "100"), (.x, ofString "3"), (.y, ofString "4"),
    (.direction, ofString "2")]

/-- A client steps on. -/
def stepOn : Packet where
  data := [120, 156, 179, 73, 45, 75, 205, 43, 81, 40, 169, 44, 72, 181, 85, 55, 52, 48, 80, 87,
    168, 176, 85, 55, 85, 87, 168, 180, 85, 55, 83, 215, 183, 3, 0, 153, 156, 8, 124]
  text := ofString "<event type='100' x='5' y='6'/>"
  event := .ofList [(.type, ofString "100"), (.x, ofString "5"), (.y, ofString "6")]

theorem event_job {frame : Frame} {e : Event} {t : Bytes}
    (hdecode : Task.decode frame.env ⟨fd, client, frame.recvBits, frame.data⟩ = .event e)
    (ht : e.attr .type = some t) : frame.job fd client =
      .atomic (unit fun s => some (s.tick frame.env.now)) fun _ =>
        .atomic (reading fun s => (s.heap client).map Client.state) fun state =>
          handleEvent (getFdnodeByname frame.env) frame.env client fd e (atoi t) state := by
  unfold Frame.job
  rw [parseMessage_decode, hdecode]
  simp only [parseEvent, ht]
  rfl

/-- The second worker reads the time and the state before the first one has moved the client. -/
def overlapping : List Pool.Move :=
  [.take, .take, .advance 0, .advance 1, .advance 0, .advance 1, .advance 0, .finish 0, .advance 0,
    .finish 0]

/-- The second job is ahead of the first one with its first two sections only. -/
theorem overlapping_allowed {f f' : State → Option (Unit × State)}
    {g g' : State → Option (FdState × State)} {older younger : FdState → Proc State Unit}
    (hfirst : Apart fd client (.atomic g older) (.atomic f' fun _ => .atomic g' younger))
    (hsecond : ∀ state, Apart fd client (older state) (.atomic g' younger)) :
    Pool.Allows 2 (Pool.Ahead (Apart fd client))
      ⟨s, [.atomic f fun _ => .atomic g older, .atomic f' fun _ => .atomic g' younger], []⟩
      overlapping := by
  refine ⟨trivial, fun c₁ h₁ => ⟨trivial, fun c₂ h₂ => ⟨Pool.ahead_advance_zero _ _, ?_⟩⟩⟩
  cases h₁
  cases h₂
  intro c₃ h₃
  obtain ⟨-, s₃, rfl⟩ := Pool.next_advance rfl h₃
  refine ⟨?_, fun c₄ h₄ => ⟨Pool.ahead_advance_zero _ _, fun c₅ h₅ => ?_⟩⟩
  · rintro p hp q hq
    cases hp
    cases List.mem_singleton.mp hq
    exact hfirst
  obtain ⟨-, s₄, rfl⟩ := Pool.next_advance rfl h₄
  obtain ⟨state, s₅, rfl⟩ := Pool.next_advance rfl h₅
  refine ⟨?_, fun c₆ _ => .of_forall ?_ c₆⟩
  · rintro p hp q hq
    cases hp
    cases List.mem_singleton.mp hq
    exact hsecond state
  · intro m hm c
    have hzero : m = .advance 0 ∨ m = .finish 0 := by
      simp only [List.mem_cons, List.not_mem_nil, or_false] at hm
      tauto
    rcases hzero with rfl | rfl
    · exact Pool.ahead_advance_zero _ c
    · trivial

/-- A client steps aside and on, and two workers overlap. -/
theorem inOrder_of_run_steps : ∃ s s', Reachable s ∧
    ((s'.heap 100).any fun c => c.direction = 2 ∧ c.x = 5 ∧ c.y = 6) ∧
      InOrder s 5 100 [stepAside.frame 1, stepOn.frame 1] s' := by
  have hcheck : (actAll (State.start fun _ => lobbyConf) [connect 5 100,
      deliver 0 5 guestLogin]).any (fun s =>
        ((workersAt s 5 100 [stepAside.frame 1, stepOn.frame 1]).moves 2 overlapping).any fun c =>
          c.waiting.isEmpty ∧ c.running.isEmpty ∧
            (c.state.heap 100).any fun c => c.direction = 2 ∧ c.x = 5 ∧ c.y = 6) := by
    decide +kernel
  obtain ⟨s, hs, hmoves⟩ := (Option.any_eq_true _ _).mp hcheck
  obtain ⟨⟨s', waiting, running⟩, hmoves, hc⟩ := (Option.any_eq_true _ _).mp hmoves
  obtain ⟨hwaiting, hrunning, hplace⟩ := of_decide_eq_true hc
  rw [List.isEmpty_iff] at hwaiting hrunning
  simp only at hwaiting hrunning hplace
  subst hwaiting
  subst hrunning
  refine ⟨s, s', reachable_of_actAll hs, hplace, inOrder_of_run (Pool.run_of_moves ?_ hmoves)⟩
  have haside : Task.decode (stepAside.frame 1).env
      ⟨5, 100, (stepAside.frame 1).recvBits, (stepAside.frame 1).data⟩ = .event stepAside.event :=
    decode_packet (by decide +kernel) (by decide +kernel) 1 5 100
  have hon : Task.decode (stepOn.frame 1).env
      ⟨5, 100, (stepOn.frame 1).recvBits, (stepOn.frame 1).data⟩ = .event stepOn.event :=
    decode_packet (by decide +kernel) (by decide +kernel) 1 5 100
  have hkinds : (stepAside.frame 1).kinds 5 100 = [.clock 1, .look, .answer, .place] := by
    unfold Frame.kinds
    rw [haside]
    decide +kernel
  have hall := (stepAside.frame 1).job_all 5 100
  have htype : stepAside.event.attr .type = some (ofString "100") := by decide +kernel
  have htype' : stepOn.event.attr .type = some (ofString "100") := by decide +kernel
  rw [event_job haside htype, hkinds] at hall
  have hjobs : workersAt s 5 100 [stepAside.frame 1, stepOn.frame 1] =
      ⟨s, [(stepAside.frame 1).job 5 100, (stepOn.frame 1).job 5 100], []⟩ := rfl
  rw [hjobs, event_job haside htype, event_job hon htype']
  have hclock : ∀ κ ∈ [Kind.clock 1, .look, .answer, .place], (Kind.clock 1).apart κ := by decide
  have hlook : ∀ κ ∈ [Kind.clock 1, .look, .answer, .place], Kind.look.apart κ := by decide
  have hall := hall.2 ()
  refine overlapping_allowed ⟨.clock 1, .time 1, hall.mono ?_⟩ fun state =>
    ⟨.look, .state, (hall.2 state).mono ?_⟩
  · rintro β f ⟨κ, hκ, hf⟩
    exact ⟨κ, hclock κ hκ, hf⟩
  · rintro β f ⟨κ, hκ, hf⟩
    exact ⟨κ, hlook κ hκ, hf⟩

/-- Both workers look at the client in the lobby before either moves it. -/
def crossing : List Pool.Move :=
  [.take, .take] ++ List.replicate 4 (.advance 0) ++ List.replicate 4 (.advance 1) ++
    List.replicate 2 (.advance 0) ++ [.advance 1, .advance 0, .advance 1, .finish 1, .finish 0]

/-- A client that asks for two rooms ends up in both. -/
theorem order_not_kept : ¬ ∀ (s s' : State) (fd : Nat) (client : Addr) (workers : Nat)
    (frames : List Frame), Reachable s → s.fdClients fd = some client →
    Pool.Run workers (fun _ _ => True) (workersAt s fd client frames) ⟨s', [], []⟩ →
    InOrder s fd client frames s' := by
  intro hall
  have hcheck : (actAll (State.start fun _ => lobbyConf) [connect 5 100,
      deliver 0 5 guestLogin]).any (fun s => s.fdClients 5 = some 100 ∧
        ((workersAt s 5 100 [roomOne.frame 1, roomTwo.frame 1]).moves 2 crossing).any (fun c =>
          c.waiting.isEmpty ∧ c.running.isEmpty ∧ (c.state.rooms 1).rClient = [100]) ∧
        (Proc.runAll ([roomOne.frame 1, roomTwo.frame 1].map (Frame.job 5 100)) s).all (fun t =>
          (t.rooms 1).rClient = [])) := by
    decide +kernel
  obtain ⟨s, hs, hboth⟩ := (Option.any_eq_true _ _).mp hcheck
  obtain ⟨hfd, hmoves, hseq⟩ := of_decide_eq_true hboth
  obtain ⟨⟨s', waiting, running⟩, hmoves, hc⟩ := (Option.any_eq_true _ _).mp hmoves
  obtain ⟨hwaiting, hrunning, hroom⟩ := of_decide_eq_true hc
  rw [List.isEmpty_iff] at hwaiting hrunning
  simp only at hwaiting hrunning hroom
  subst hwaiting
  subst hrunning
  obtain ⟨t, ht, hsame⟩ := hall s s' 5 100 2 _ (reachable_of_actAll hs) hfd
    (Pool.run_of_moves (.of_forall (fun _ _ _ => trivial) _) hmoves)
  rw [ht, Option.all_some] at hseq
  have hempty : (t.rooms 1).rClient = [] := of_decide_eq_true hseq
  have hrooms : t.tables.rooms = s'.tables.rooms := congrArg State.rooms hsame
  have hrooms : t.rooms = s'.rooms := hrooms
  rw [hrooms, hroom] at hempty
  cases hempty

end ArpgServer
