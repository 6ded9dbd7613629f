import ArpgServer.Library.Pool
import ArpgServer.Names.Lookup

/-!
# Nothing depends on what was sent

No section reads the messages that were sent, so that all sections of `parse_message` are
local for the tables of the server. The lemmas on `Mute` follow the form in which the
sections are written: reads, tests, changes of the state and calls.
-/

namespace ArpgServer

variable {env : Env} {s t : State} {α β : Type} {obs : β → α}

/-- All of the state but the messages sent. -/
def State.tables (s : State) : State := { s with sent := [] }

def State.withSent (s : State) (l : List Send) : State := { s with sent := l }

theorem State.withSent_heap (s : State) (l : List Send) : (s.withSent l).heap = s.heap := rfl

theorem State.eq_withSent (h : s.tables = t.tables) : t = s.withSent t.sent := by
  have hall := congrArg (fun u : State => u.withSent t.sent) h
  exact hall.symm

/-- What is observed of the result does not depend on what was sent. -/
def Mute {γ : Type} (obs : β → γ) (f : State → Option β) : Prop :=
  ∀ s l, (f (s.withSent l)).map obs = (f s).map obs

/-- The value and the tables. -/
def withTables (r : β × State) : β × State := (r.1, r.2.tables)

/-! ## Forms of sections -/

namespace Mute

theorem pure {g : State → β} (hg : ∀ s l, obs (g (s.withSent l)) = obs (g s)) :
    Mute obs fun s => some (g s) := by
  intro s l
  rw [Option.map_some, Option.map_some, hg]

theorem bind {γ : Type} {x : State → Option γ} (hx : ∀ s l, x (s.withSent l) = x s)
    {F : γ → State → Option β} (hF : ∀ a, Mute obs (F a)) :
    Mute obs fun s => (x s).bind fun a => F a s := by
  intro s l
  show ((x (s.withSent l)).bind fun a => F a (s.withSent l)).map obs =
    ((x s).bind fun a => F a s).map obs
  rw [hx, Option.map_bind, Option.map_bind]
  congr 1
  funext a
  exact hF a s l

theorem map {γ : Type} {x : State → Option γ} (hx : ∀ s l, x (s.withSent l) = x s)
    {F : γ → State → β} (hF : ∀ a s l, obs (F a (s.withSent l)) = obs (F a s)) :
    Mute obs fun s => (x s).map fun a => F a s := by
  intro s l
  show ((x (s.withSent l)).map fun a => F a (s.withSent l)).map obs =
    ((x s).map fun a => F a s).map obs
  rw [hx, Option.map_map, Option.map_map]
  congr 1
  funext a
  exact hF a s l

theorem ite {P : Prop} [Decidable P] {F G : State → Option β} (hF : Mute obs F)
    (hG : Mute obs G) : Mute obs fun s => if P then F s else G s := by
  intro s l
  show (if P then F (s.withSent l) else G (s.withSent l)).map obs = (if P then F s else G s).map obs
  split
  · exact hF s l
  · exact hG s l

/-- A section that goes on with a changed state. -/
theorem comp {g : State → State} (hg : ∀ s l, ∃ l', g (s.withSent l) = (g s).withSent l')
    {F : State → Option β} (hF : Mute obs F) : Mute obs fun s => F (g s) := by
  intro s l
  obtain ⟨l', hl⟩ := hg s l
  show (F (g (s.withSent l))).map obs = (F (g s)).map obs
  rw [hl]
  exact hF (g s) l'

/-- A section that goes on with the result of another one. -/
theorem next {F : State → Option State} (hF : Mute State.tables F) {G : State → Option β}
    (hG : Mute obs G) : Mute obs fun s => (F s).bind G := by
  intro s l
  have hres := hF s l
  show ((F (s.withSent l)).bind G).map obs = ((F s).bind G).map obs
  cases hs : F s with
  | none =>
    rw [hs, Option.map_none, Option.map_eq_none_iff] at hres
    rw [hres]
  | some u =>
    rw [hs, Option.map_some] at hres
    obtain ⟨v, hv, huv⟩ := Option.map_eq_some_iff.mp hres
    rw [hv, Option.bind_some, Option.bind_some, State.eq_withSent huv.symm]
    exact hG u v.sent

theorem mapNext {F : State → Option State} (hF : Mute State.tables F) {g : State → β}
    (hg : ∀ s l, obs (g (s.withSent l)) = obs (g s)) : Mute obs fun s => (F s).map g := by
  have hnext := hF.next (G := fun s => some (g s)) (pure hg)
  intro s l
  simpa only [Option.map_eq_bind, Function.comp_def] using hnext s l

theorem isLocal {f : State → Option (β × State)} (hf : Mute withTables f) :
    (Proc.step f).IsLocal State.tables := by
  refine .step fun s t h => ?_
  rw [State.eq_withSent h]
  exact (hf s t.sent).symm

theorem modify {f : State → Option State} (hf : Mute State.tables f) :
    (Proc.modify f).IsLocal State.tables :=
  isLocal (hf.mapNext fun _ _ => rfl)

theorem read {f : State → Option β} (hf : ∀ s l, f (s.withSent l) = f s) :
    (Proc.read f).IsLocal State.tables :=
  isLocal (map hf fun _ _ _ => rfl)

end Mute

/-! ## Reads -/

theorem broadcast_congr (h : t.heap = s.heap) (n : Notice) (l : List Addr) :
    broadcast t n l = broadcast s n l := by
  induction l with
  | nil => rfl
  | cons p rest ih => simp only [broadcast, h, ih]

theorem unlinkFd_congr (h : t.heap = s.heap) (fd : Nat) (l : List Addr) :
    unlinkFd t fd l = unlinkFd s fd l := by
  induction l with
  | nil => rfl
  | cons p rest ih => simp only [unlinkFd, h, ih]

theorem roomlist_congr (h : t.rooms = s.rooms) (l : List Nat) (msg : List Notice) (item : Nat) :
    roomlist t l msg item = roomlist s l msg item := by
  induction l generalizing msg item with
  | nil => rfl
  | cons i rest ih => simp only [roomlist, h, ih]

theorem getFdnodeByname_withSent (env : Env) (s : State) (l : List Send) (uname : Bytes)
    (ufd : Int) :
    getFdnodeByname env (s.withSent l) uname ufd = getFdnodeByname env s uname ufd :=
  getFdnodeByname_congr (s.withSent_heap l) rfl rfl rfl uname ufd

/-! ## Rooms -/

theorem sendMessageAll_mute (fd : Nat) (n : Notice) :
    Mute State.tables fun s => sendMessageAll s fd n := by
  intro s l
  have hheap := s.withSent_heap l
  have hfd : (s.withSent l).fdClients = s.fdClients := rfl
  have hrooms : (s.withSent l).rooms = s.rooms := rfl
  simp only [sendMessageAll, hfd, hheap, hrooms, broadcast_congr hheap]
  cases s.fdClients fd with
  | none => rfl
  | some p =>
    dsimp only
    cases s.heap p with
    | none => rfl
    | some client =>
      simp only [Option.bind_some]
      split
      · rw [Option.map_map, Option.map_map]
        rfl
      · rfl

theorem sendUserlist_mute (env : Env) (p : Addr) : Mute State.tables (sendUserlist env p) := by
  refine .bind (fun _ _ => rfl) fun node => .bind (fun s l => rfl) fun room => .ite ?_ ?_
  · refine .map (fun s l => ?_) fun msgs s l => ?_
    · exact userlist_congr (s.withSent_heap l) node room.rClient [] env.itembuffer
    · rfl
  · exact .pure fun _ _ => rfl

theorem leaveSection_mute (env : Env) (p : Addr) (roomid : Int) :
    Mute State.tables (leaveSection env p roomid) := by
  refine .bind (fun _ _ => rfl) fun room => .bind (fun _ _ => rfl) fun c =>
    .bind (fun _ _ => rfl) fun current => .ite (.pure fun _ _ => rfl) ?_
  refine .bind (fun s l => unlinkFd_congr (s.withSent_heap l) c.fd room.rClient) fun list => ?_
  refine .comp (g := fun s => s.setRoom roomid.toNat (room.unlinked list)) (fun s l => ⟨l, rfl⟩)
    (F := fun s => if c.state = .success then
      (c.username.read (env.overrun p .username)).bind fun username =>
        (sendMessageAll s c.fd (.userLogout username)).map fun s =>
          s.setClient p { c with roomid := -1 }
      else some s) ?_
  refine .ite (.bind (fun _ _ => rfl) fun username => ?_) (.pure fun _ _ => rfl)
  exact (sendMessageAll_mute c.fd (.userLogout username)).mapNext fun _ _ => rfl

theorem joinCheck_mute (p : Addr) (roomid : Int) : Mute withTables (joinCheck p roomid) := by
  refine .ite (.pure fun _ _ => rfl) (.bind (fun _ _ => rfl) fun room => ?_)
  refine .map (fun _ _ => rfl) fun c s l => ?_
  split
  · rfl
  · split
    · rfl
    · split <;> rfl

theorem joinSection_mute (env : Env) (p : Addr) (roomid : Int) :
    Mute State.tables (joinSection env p roomid) := by
  refine .bind (fun _ _ => rfl) fun room =>
    .ite (.bind (fun _ _ => rfl) fun c => ?_) (.pure fun _ _ => rfl)
  refine .comp (g := fun s => ((s.setClient p { c with roomid := roomid }).setRoom roomid.toNat
      { room with num := room.num + 1, rClient := room.rClient ++ [p] }).sendMessage c.fd
        (.changeRoom roomid room.name)) (fun s l => ⟨_, rfl⟩)
    (F := fun s => (profileAt env s p).bind fun profile =>
      (sendMessageAll s c.fd (.userLogin profile)).bind (sendUserlist env p)) ?_
  refine .bind (fun s l => profileAt_congr (s.withSent_heap l)) fun profile => ?_
  exact (sendMessageAll_mute c.fd (.userLogin profile)).next (sendUserlist_mute env p)

theorem displaceSection_mute (env : Env) (p : Addr) :
    Mute State.tables (displaceSection env p) := by
  refine .bind (fun _ _ => rfl) fun node => .ite ?_ (.pure fun _ _ => rfl)
  refine .comp (g := fun s => (s.setClient p { node with state := .wait }).sendMessage node.fd
      .otherLogin) (fun s l => ⟨_, rfl⟩)
    (F := fun s => (node.username.read (env.overrun p .username)).bind fun username =>
      sendMessageAll s node.fd (.userLogout username)) ?_
  exact .bind (fun _ _ => rfl) fun username => sendMessageAll_mute node.fd (.userLogout username)

theorem sendRoomlist_mute (env : Env) (p : Addr) : Mute State.tables (sendRoomlist env p) := by
  refine .map (fun _ _ => rfl) fun node s l => ?_
  have hrooms : (s.withSent l).rooms = s.rooms := rfl
  rw [roomlist_congr hrooms]
  rfl

/-! ## The name table -/

theorem hashAdd_mute (env : Env) (item : HashItem) :
    Mute State.tables fun s => hashAdd env s item := by
  intro s l
  have hname : nameAt env (s.withSent l) item.key = nameAt env s item.key := rfl
  have hsize : (s.withSent l).hashSize = s.hashSize := rfl
  simp only [hashAdd, hname, hsize]
  split
  · rfl
  · rw [Option.map_map, Option.map_map]
    rfl

theorem hashDel_mute (env : Env) (key : Bytes) (fd : Nat) :
    Mute State.tables fun s => hashDel env s key fd := by
  intro s l
  have hsize : (s.withSent l).hashSize = s.hashSize := rfl
  have htable : (s.withSent l).hashTable = s.hashTable := rfl
  have hbucket : (s.withSent l).bucketOf key = s.bucketOf key := rfl
  simp only [hashDel, hsize, htable, hbucket, chainDel_congr (s.withSent_heap l)]
  split
  · rfl
  · rw [Option.map_map, Option.map_map]
    rfl

theorem unregisterSection_mute (env : Env) (p : Addr) :
    Mute State.tables (unregisterSection env p) :=
  .bind (fun _ _ => rfl) fun c => .bind (fun _ _ => rfl) fun key => hashDel_mute env key c.fd

theorem freeSection_mute (p : Addr) : Mute State.tables (freeSection p) :=
  .map (fun _ _ => rfl) fun _ _ _ => rfl

/-! ## Procedures of `function.c` -/

theorem leaveRoom_local (env : Env) (p : Option Addr) :
    (leaveRoom env p).IsLocal State.tables := by
  cases p with
  | none => trivial
  | some p =>
    refine .bind (Mute.read fun _ _ => rfl) fun roomid => ?_
    split
    · trivial
    · exact .bind (leaveSection_mute env p roomid).modify fun _ => trivial

theorem joinRoom_local (env : Env) (p : Addr) (roomid : Int) :
    (joinRoom env (some p) roomid).IsLocal State.tables := by
  have hjoin := (joinSection_mute env p roomid).modify
  refine .bind (joinCheck_mute p roomid).isLocal fun start => ?_
  cases start with
  | refused => trivial
  | leaveFirst =>
    exact .bind (leaveRoom_local env (some p)) fun _ => .bind hjoin fun _ => trivial
  | enter => exact .bind hjoin fun _ => trivial

theorem nodeAdd_local (env : Env) (p : Addr) : (nodeAdd env p).IsLocal State.tables :=
  Mute.modify (.bind (fun _ _ => rfl) fun c => hashAdd_mute env ⟨p, c.fd⟩)

theorem nodeDel_local (env : Env) (p : Option Addr) : (nodeDel env p).IsLocal State.tables := by
  cases p with
  | none => trivial
  | some p =>
    refine .bind (leaveRoom_local env (some p)) fun _ => ?_
    refine .bind (unregisterSection_mute env p).modify fun _ => ?_
    exact .bind (freeSection_mute p).modify fun _ => trivial

theorem otherSameUsername_local (env : Env) (p : Option Addr) :
    (otherSameUsername env p).IsLocal State.tables := by
  cases p with
  | none => trivial
  | some p =>
    exact .bind (leaveRoom_local env (some p)) fun _ => (displaceSection_mute env p).modify

/-! ## Handlers -/

theorem authSection_mute (env : Env) (p : Addr) (fd : Nat) (e : Event) :
    Mute withTables (authSection env p fd e) := by
  refine .bind (fun _ _ => rfl) fun c => .map (fun _ _ => rfl) fun out s l => ?_
  cases out with
  | refused c' why => rfl
  | passed c' => rfl

theorem authSuccess_mute (env : Env) (p : Addr) (fd : Nat) :
    Mute State.tables (authSuccess env p fd) :=
  .bind (fun _ _ => rfl) fun _ => .map (fun _ _ => rfl) fun _ _ _ => rfl

theorem authEvent_local (env : Env) (p : Addr) (fd : Nat) (e : Event) (state : FdState) :
    (authEvent (getFdnodeByname env) env p fd e state).IsLocal State.tables := by
  refine .ite (Mute.modify (.pure fun _ _ => rfl)) ?_
  refine .bind (authSection_mute env p fd e).isLocal fun passed => ?_
  cases passed with
  | false => trivial
  | true =>
    refine .bind (Mute.read fun s l => ?_) fun node => ?_
    · simp only [rivalOf, s.withSent_heap l, getFdnodeByname_withSent]
    · refine .bind (otherSameUsername_local env node) fun _ => ?_
      refine .bind (nodeAdd_local env p) fun _ => ?_
      refine .bind (authSuccess_mute env p fd).modify fun _ => ?_
      exact .bind (joinRoom_local env p e.roomid) fun _ => trivial

theorem changeStateSection_mute (env : Env) (p : Addr) (fd : Nat) (e : Event) :
    Mute State.tables (changeStateSection env p fd e) :=
  .bind (fun _ _ => rfl) fun _ => .bind (fun _ _ => rfl) fun _ => sendMessageAll_mute fd _

theorem changeCharacterSection_mute (env : Env) (p : Addr) (fd : Nat) (e : Event) :
    Mute State.tables (changeCharacterSection env p fd e) := by
  refine .bind (fun _ _ => rfl) fun character => .bind (fun _ _ => rfl) fun c => ?_
  refine .bind (fun _ _ => rfl) fun name => .bind (fun _ _ => rfl) fun text => ?_
  exact .comp (fun s l => ⟨l, rfl⟩) (sendMessageAll_mute fd (.changeCharacter name text))

theorem privateMessageSection_mute (env : Env) (p : Addr) (fd : Nat) (e : Event)
    (body : LocalPtr) :
    Mute State.tables (privateMessageSection (getFdnodeByname env) env p fd e body) := by
  refine .bind (fun _ _ => rfl) fun target => .bind (fun _ _ => rfl) fun c =>
    .ite (.pure fun _ _ => rfl) (.bind (fun _ _ => rfl) fun self =>
      .bind (fun _ _ => rfl) fun name => .ite (.map (fun _ _ => rfl) fun _ _ _ => rfl) ?_)
  refine .bind (fun s l => getFdnodeByname_withSent env s l target (-1)) fun node => ?_
  cases node with
  | none => exact .pure fun _ _ => rfl
  | some q => exact .bind (fun _ _ => rfl) fun tonode => .map (fun _ _ => rfl) fun _ _ _ => rfl

theorem publicMessageSection_mute (env : Env) (p : Addr) (fd : Nat) (body : LocalPtr) :
    Mute State.tables (publicMessageSection env p fd body) := by
  refine .bind (fun _ _ => rfl) fun c => .ite (.pure fun _ _ => rfl) ?_
  refine .bind (fun _ _ => rfl) fun name => .bind (fun _ _ => rfl) fun text s l => ?_
  exact sendMessageAll_mute fd (.publicMessage name s.mytimestamp text) s l

theorem moveSection_mute (env : Env) (p : Addr) (e : Event) :
    Mute State.tables (moveSection env p e) := by
  refine .bind (fun _ _ => rfl) fun c => ?_
  dsimp only
  split
  · refine .bind (fun _ _ => rfl) fun name => ?_
    exact .comp (fun s l => ⟨l, rfl⟩) (sendMessageAll_mute _ _)
  · exact .pure fun _ _ => rfl

theorem doingSection_mute (env : Env) (p : Addr) (e : Event) :
    Mute State.tables (doingSection env p e) := by
  unfold doingSection
  cases e.attr .doing with
  | none => exact .pure fun _ _ => rfl
  | some doing =>
    refine .bind (fun _ _ => rfl) fun c => .bind (fun _ _ => rfl) fun name => ?_
    exact .comp (fun s l => ⟨l, rfl⟩) (sendMessageAll_mute c.fd (.doing name doing))

theorem luaExec_mute (env : Env) (fd : Nat) (str : Bytes) :
    Mute State.tables (luaExec env fd str) := by
  refine .map (fun _ _ => rfl) fun message s l => ?_
  split <;> rfl

theorem targetOf_withSent (env : Env) (p : Addr) (c : Client) (username : Bytes) (s : State)
    (l : List Send) : targetOf (getFdnodeByname env) env p c username (s.withSent l) =
      targetOf (getFdnodeByname env) env p c username s := by
  simp only [targetOf, getFdnodeByname_withSent]

theorem gooutSection_mute (env : Env) (p : Addr) (fd : Nat) (e : Event) :
    Mute withTables (gooutSection (getFdnodeByname env) env p fd e) := by
  refine .bind (fun _ _ => rfl) fun c => .ite (.pure fun _ _ => rfl) ?_
  cases e.attr .username with
  | none => exact .pure fun _ _ => rfl
  | some username =>
    refine .bind (fun s l => targetOf_withSent env p c username s l) fun target => ?_
    cases target with
    | none => exact .pure fun _ _ => rfl
    | some q =>
      refine .bind (fun _ _ => rfl) fun d => .bind (fun _ _ => rfl) fun name s l => ?_
      have hkick : Mute withTables fun u =>
          (sendMessageAll u d.fd (.systemMessage s.mytimestamp (.kicked name))).map
            fun u => (some q, u) :=
        (sendMessageAll_mute d.fd _).mapNext fun _ _ => rfl
      exact hkick s l

theorem gooutEvent_local (env : Env) (p : Addr) (fd : Nat) (e : Event) :
    (gooutEvent (getFdnodeByname env) env p fd e).IsLocal State.tables := by
  refine .bind (gooutSection_mute env p fd e).isLocal fun node => ?_
  cases node with
  | none => trivial
  | some q => exact .bind (nodeDel_local env (some q)) fun _ => trivial

theorem shutupSection_mute (env : Env) (p : Addr) (fd : Nat) (e : Event) :
    Mute State.tables (shutupSection (getFdnodeByname env) env p fd e) := by
  refine .bind (fun _ _ => rfl) fun c => .ite (.pure fun _ _ => rfl) ?_
  cases e.attr .username with
  | none => exact .pure fun _ _ => rfl
  | some username =>
    refine .bind (fun s l => targetOf_withSent env p c username s l) fun target => ?_
    cases target with
    | none => exact .pure fun _ _ => rfl
    | some q =>
      refine .bind (fun _ _ => rfl) fun d => .bind (fun _ _ => rfl) fun name => .ite ?_ ?_
      · intro s l
        exact Mute.comp (g := fun s => s.setClient q { d with type := clientTypeShutup })
          (fun s l => ⟨l, rfl⟩) (sendMessageAll_mute d.fd _) s l
      · intro s l
        exact Mute.comp (g := fun s => s.setClient q { d with type := clientTypeNone })
          (fun s l => ⟨l, rfl⟩) (sendMessageAll_mute d.fd _) s l

theorem changeRoomEvent_local (env : Env) (p : Addr) (roomid : Int) :
    (changeRoomEvent env p roomid).IsLocal State.tables := by
  refine .bind (Mute.read fun _ _ => rfl) fun current => ?_
  split
  · exact .bind (joinRoom_local env p roomid) fun _ => trivial
  · trivial

theorem leaveRoomEvent_local (env : Env) (p : Addr) :
    (leaveRoomEvent env p).IsLocal State.tables :=
  .bind (leaveRoom_local env (some p)) fun _ => trivial

theorem handleEvent_local (env : Env) (p : Addr) (fd : Nat) (e : Event) (evType : Int)
    (state : FdState) :
    (handleEvent (getFdnodeByname env) env p fd e evType state).IsLocal State.tables := by
  unfold handleEvent
  refine .ite (authEvent_local env p fd e state) ?_
  refine .ite (changeStateSection_mute env p fd e).modify ?_
  refine .ite (changeCharacterSection_mute env p fd e).modify ?_
  refine .ite (privateMessageSection_mute env p fd e _).modify ?_
  refine .ite (publicMessageSection_mute env p fd _).modify ?_
  refine .ite (changeRoomEvent_local env p e.roomid) ?_
  refine .ite (sendRoomlist_mute env p).modify ?_
  refine .ite (leaveRoomEvent_local env p) ?_
  refine .ite (gooutEvent_local env p fd e) ?_
  refine .ite ?_ (luaExec_mute env fd _).modify
  refine .ite (shutupSection_mute env p fd e).modify ?_
  refine .ite (moveSection_mute env p e).modify ?_
  exact .ite (doingSection_mute env p e).modify trivial

/-- All sections of a message are local. -/
theorem parseMessage_local (env : Env) (task : Task) :
    (parseMessage (getFdnodeByname env) env task).IsLocal State.tables := by
  rw [parseMessage_decode]
  cases task.decode env with
  | logout => exact .bind (nodeDel_local env (some task.client)) fun _ => trivial
  | undecodable => trivial
  | ping => exact Mute.modify (.pure fun _ _ => rfl)
  | event e =>
    show (parseEvent (getFdnodeByname env) env task.client task.fd e).IsLocal State.tables
    unfold parseEvent
    cases e.attr .type with
    | none => trivial
    | some type =>
      refine .bind (Mute.modify (.pure fun _ _ => rfl)) fun _ => ?_
      refine .bind (Mute.read fun _ _ => rfl) fun state => ?_
      exact handleEvent_local env task.client task.fd e (CText.atoi type) state

end ArpgServer
