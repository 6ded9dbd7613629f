import ArpgServer.Effects.Rooms

/-!
# What the handlers do

Every handler of `parse_message` but the login is brought to one of a few forms: it talks, it
moves its sender between rooms, it removes a client or changes the type of one. The forms
keep what later proofs need: who is changed, and what is sent.
-/

namespace ArpgServer

open CText

variable {lookup : Lookup} {env : Env} {s s' : State} {p q : Addr} {c d : Client} {fd : Nat}
  {e : Event}

/-! ## Talking -/

/-- Two records that agree in everything the room and name tables depend on. -/
structure Client.SameCore (c d : Client) : Prop where
  fd : d.fd = c.fd
  roomid : d.roomid = c.roomid
  state : d.state = c.state
  type : d.type = c.type
  anonymous : d.anonymous = c.anonymous
  username : d.username = c.username

theorem Client.SameCore.refl (c : Client) : c.SameCore c := ⟨rfl, rfl, rfl, rfl, rfl, rfl⟩

/-- The events about who is in a room, and texts that a script passes on, are not plain. -/
def Notice.isPlain : Notice → Bool
  | .changeRoom .. | .userLogin .. | .userLogout .. | .userAdd .. | .script .. => false
  | _ => true

/-- The sender's record changes in fields that only others see, and plain events are sent. -/
def TalkEffect (p : Addr) (c : Client) (s s' : State) : Prop :=
  ∃ d l, c.SameCore d ∧ (∀ m ∈ l, ∀ n ∈ m.message, n.isPlain) ∧ s' = (s.setClient p d).post l

theorem State.setClient_self (hp : s.heap p = some c) : s.setClient p c = s := by
  unfold State.setClient
  rw [← hp, Function.update_eq_self]

theorem talkEffect_post (hp : s.heap p = some c) {l : List Send}
    (hl : ∀ m ∈ l, ∀ n ∈ m.message, n.isPlain) : TalkEffect p c s (s.post l) :=
  ⟨c, l, .refl c, hl, by rw [State.setClient_self hp]⟩

theorem plain_of_singleton {l : List Send} {n : Notice} (hl : ∀ m ∈ l, m.message = [n])
    (hn : n.isPlain) : ∀ m ∈ l, ∀ n ∈ m.message, n.isPlain := by
  intro m hm n' hn'
  rw [hl m hm] at hn'
  rw [List.mem_singleton.mp hn']
  exact hn

theorem talkEffect_broadcast {k : Nat} {n : Notice}
    (h : sendMessageAll (s.setClient p d) k n = some s') (hd : c.SameCore d) (hn : n.isPlain) :
    TalkEffect p c s s' := by
  obtain ⟨l, rfl, hl⟩ := sendMessageAll_post h
  exact ⟨d, l, hd, plain_of_singleton hl hn, rfl⟩

theorem changeStateSection_effect (hp : s.heap p = some c)
    (h : changeStateSection env p fd e s = some s') : TalkEffect p c s s' := by
  obtain ⟨_, -, h⟩ := Option.bind_eq_some_iff.mp h
  obtain ⟨name, -, h⟩ := Option.bind_eq_some_iff.mp h
  rw [← State.setClient_self hp] at h
  exact talkEffect_broadcast h (.refl c) rfl

theorem changeCharacterSection_effect (hp : s.heap p = some c)
    (h : changeCharacterSection env p fd e s = some s') : TalkEffect p c s s' := by
  obtain ⟨character, -, h⟩ := Option.bind_eq_some_iff.mp h
  simp only [hp, Option.bind_some] at h
  obtain ⟨name, -, h⟩ := Option.bind_eq_some_iff.mp h
  obtain ⟨text, -, h⟩ := Option.bind_eq_some_iff.mp h
  exact talkEffect_broadcast h ⟨rfl, rfl, rfl, rfl, rfl, rfl⟩ rfl

theorem privateMessageSection_effect (hp : s.heap p = some c) {body : LocalPtr}
    (h : privateMessageSection lookup env p fd e body s = some s') : TalkEffect p c s s' := by
  obtain ⟨to', -, h⟩ := Option.bind_eq_some_iff.mp h
  simp only [hp, Option.bind_some] at h
  split at h
  · cases h
    exact talkEffect_post hp (by simp [Notice.isPlain])
  · obtain ⟨self, -, h⟩ := Option.bind_eq_some_iff.mp h
    obtain ⟨name, -, h⟩ := Option.bind_eq_some_iff.mp h
    split at h
    · obtain ⟨text, -, rfl⟩ := Option.map_eq_some_iff.mp h
      exact talkEffect_post hp (by simp [Notice.isPlain])
    · obtain ⟨node, -, h⟩ := Option.bind_eq_some_iff.mp h
      cases node with
      | none =>
        cases h
        exact talkEffect_post hp (by simp [Notice.isPlain])
      | some q =>
        obtain ⟨tonode, -, h⟩ := Option.bind_eq_some_iff.mp h
        obtain ⟨text, -, rfl⟩ := Option.map_eq_some_iff.mp h
        rw [State.sendMessage, State.sendMessage, State.post_post]
        exact talkEffect_post hp (by simp [Notice.isPlain])

theorem publicMessageSection_effect (hp : s.heap p = some c) {body : LocalPtr}
    (h : publicMessageSection env p fd body s = some s') : TalkEffect p c s s' := by
  simp only [publicMessageSection, hp, Option.bind_some] at h
  split at h
  · cases h
    exact talkEffect_post hp (by simp [Notice.isPlain])
  · obtain ⟨name, -, h⟩ := Option.bind_eq_some_iff.mp h
    obtain ⟨text, -, h⟩ := Option.bind_eq_some_iff.mp h
    rw [← State.setClient_self hp] at h
    exact talkEffect_broadcast h (.refl c) rfl

theorem setDirection_sameCore (c : Client) (e : Event) : c.SameCore (setDirection c e) := by
  unfold setDirection
  split
  · exact .refl c
  · exact ⟨rfl, rfl, rfl, rfl, rfl, rfl⟩

theorem moveSection_effect (hp : s.heap p = some c) (h : moveSection env p e s = some s') :
    TalkEffect p c s s' := by
  simp only [moveSection, hp, Option.bind_some] at h
  have hcore := setDirection_sameCore c e
  split at h
  · obtain ⟨name, -, h⟩ := Option.bind_eq_some_iff.mp h
    exact talkEffect_broadcast h
      ⟨hcore.fd, hcore.roomid, hcore.state, hcore.type, hcore.anonymous, hcore.username⟩ rfl
  · cases h
    exact ⟨setDirection c e, [], hcore, by simp, by simp⟩

theorem doingSection_effect (hp : s.heap p = some c) (h : doingSection env p e s = some s') :
    TalkEffect p c s s' := by
  unfold doingSection at h
  split at h
  · cases h
    simpa using talkEffect_post hp (l := []) (by simp)
  · simp only [hp, Option.bind_some] at h
    obtain ⟨name, -, h⟩ := Option.bind_eq_some_iff.mp h
    exact talkEffect_broadcast h ⟨rfl, rfl, rfl, rfl, rfl, rfl⟩ rfl

theorem roomlist_forall {P : Notice → Prop} (hP : ∀ i name num, P (.roomAdd i name num))
    {l : List Nat} {msg : List Notice} {item : Nat} (hmsg : ∀ n ∈ msg, P n) :
    ∀ m ∈ roomlist s l msg item, ∀ n ∈ m, P n := by
  induction l generalizing msg item with
  | nil =>
    intro m hm
    simp only [roomlist] at hm
    split at hm
    · rw [List.mem_singleton.mp hm]
      exact hmsg
    · simp at hm
  | cons i l ih =>
    have hentry : ∀ n ∈ [Notice.roomAdd i (s.rooms i).name (s.rooms i).num], P n := by
      intro n hn
      rw [List.mem_singleton.mp hn]
      exact hP _ _ _
    intro m hm
    simp only [roomlist] at hm
    split at hm
    · split at hm
      · rcases List.mem_cons.mp hm with rfl | hm
        · exact hmsg
        · exact ih hentry m hm
      · refine ih (fun n hn => ?_) m hm
        exact (List.mem_append.mp hn).elim (hmsg n) (hentry n)
    · split at hm
      · split at hm
        · rw [List.mem_singleton.mp hm]
          exact hmsg
        · simp at hm
      · exact ih hmsg m hm

theorem sendRoomlist_effect (hp : s.heap p = some c) (h : sendRoomlist env p s = some s') :
    TalkEffect p c s s' := by
  obtain ⟨node, -, rfl⟩ := Option.map_eq_some_iff.mp h
  refine talkEffect_post hp ?_
  intro m hm
  obtain ⟨msg, hmsg, rfl⟩ := List.mem_map.mp hm
  exact roomlist_forall (fun _ _ _ => rfl) (by simp) msg hmsg

theorem luaExec_effect {str : Bytes} (h : luaExec env fd str s = some s') :
    ∃ l, s' = s.post l ∧ ∀ m ∈ l, m.fd = fd ∧ ∃ text, m.message = [.script text] := by
  obtain ⟨message, -, rfl⟩ := Option.map_eq_some_iff.mp h
  split
  · exact ⟨_, rfl, by simp⟩
  · exact ⟨[], by simp⟩

/-! ## Moving between rooms -/

theorem changeRoomEvent_effect (hs : Sound s) (hp : s.heap p = some c) (hc : c.state = .success)
    {roomid : Int} (h : (changeRoomEvent env p roomid).run s = some ((), s')) :
    s' = s ∨ JoinEffect env p c roomid s s' := by
  obtain ⟨current, t, hread, h⟩ := Proc.run_bind_eq_some.mp h
  obtain ⟨-, rfl⟩ := Proc.run_read_eq_some.mp hread
  split at h
  · obtain ⟨x, t, hjoin, h⟩ := Proc.run_bind_eq_some.mp h
    cases h
    exact Or.inr (joinRoom_effect hs hp hc hjoin)
  · cases h
    exact Or.inl rfl

theorem leaveRoomEvent_effect (hs : Sound s) (hp : s.heap p = some c)
    (h : (leaveRoomEvent env p).run s = some ((), s')) :
    ∃ l, LogoutSends env s p c l ∧ s' = (s.vacate p c).post l := by
  obtain ⟨x, t, hleave, h⟩ := Proc.run_bind_eq_some.mp h
  cases h
  exact leaveRoom_effect hs hp hleave

/-! ## Administration -/

/-- A command either answers its sender with plain events, or comes from an administrator
and concerns the client it names. -/
inductive CommandEffect (lookup : Lookup) (env : Env) (p : Addr) (c : Client) (fd : Nat)
    (e : Event) (s s' : State) (effect : Addr → Client → Prop) : Prop where
  | answered (l : List Send) (hl : ∀ m ∈ l, m.fd = fd ∧ ∀ n ∈ m.message, n.isPlain)
      (h : s' = s.post l)
      (hnone : c.type = clientTypeAdmin → ∀ username, e.attr .username = some username →
        targetOf lookup env p c username s = some none)
  | obeyed (username : Bytes) (q : Addr) (d : Client) (hadmin : c.type = clientTypeAdmin)
      (hu : e.attr .username = some username)
      (ht : targetOf lookup env p c username s = some (some q)) (hq : s.heap q = some d)
      (h : effect q d)

def GooutEffect (env : Env) (s s' : State) (q : Addr) (d : Client) : Prop :=
  ∃ l, (∀ m ∈ l, ∀ n ∈ m.message, n.isPlain) ∧ RemoveEffect env q d (s.post l) s'

def ShutupEffect (s s' : State) (q : Addr) (d : Client) : Prop :=
  ∃ type l, type ≠ d.type ∧ (∀ m ∈ l, ∀ n ∈ m.message, n.isPlain) ∧
    s' = (s.setClient q { d with type := type }).post l

theorem gooutEvent_effect (hs : Sound s) (hp : s.heap p = some c)
    (h : (gooutEvent lookup env p fd e).run s = some ((), s')) :
    CommandEffect lookup env p c fd e s s' (GooutEffect env s s') := by
  obtain ⟨node, t, hsec, h⟩ := Proc.run_bind_eq_some.mp h
  have hsec := Proc.run_step_eq_some.mp hsec
  simp only [gooutSection, hp, Option.bind_some] at hsec
  split at hsec
  · rename_i hadmin
    cases hsec
    cases h
    exact .answered _ (by simp [Notice.isPlain]) rfl fun h => absurd h hadmin
  · rename_i hadmin
    have hadmin : c.type = clientTypeAdmin := not_not.mp hadmin
    split at hsec
    · rename_i hu
      cases hsec
      cases h
      refine .answered [] (by simp) (by simp) fun _ username hu' => ?_
      rw [hu] at hu'
      cases hu'
    · rename_i username hu
      obtain ⟨target, ht, hsec⟩ := Option.bind_eq_some_iff.mp hsec
      cases target with
      | none =>
        cases hsec
        cases h
        refine .answered [] (by simp) (by simp) fun _ username' hu' => ?_
        rw [hu] at hu'
        cases hu'
        exact ht
      | some q =>
        obtain ⟨d, hq, hsec⟩ := Option.bind_eq_some_iff.mp hsec
        obtain ⟨name, -, hsec⟩ := Option.bind_eq_some_iff.mp hsec
        obtain ⟨t', hsend, hsec⟩ := Option.map_eq_some_iff.mp hsec
        cases hsec
        obtain ⟨l, rfl, hl⟩ := sendMessageAll_post hsend
        obtain ⟨x, t, hdel, h⟩ := Proc.run_bind_eq_some.mp h
        cases h
        refine .obeyed username q d hadmin hu ht hq ⟨l, plain_of_singleton hl rfl, ?_⟩
        exact nodeDel_effect (hs.post l) hq hdel

theorem shutupSection_effect (hp : s.heap p = some c)
    (h : shutupSection lookup env p fd e s = some s') :
    CommandEffect lookup env p c fd e s s' (ShutupEffect s s') := by
  simp only [shutupSection, hp, Option.bind_some] at h
  split at h
  · rename_i hadmin
    cases h
    exact .answered _ (by simp [Notice.isPlain]) rfl fun h => absurd h hadmin
  · rename_i hadmin
    have hadmin : c.type = clientTypeAdmin := not_not.mp hadmin
    split at h
    · rename_i hu
      cases h
      refine .answered [] (by simp) (by simp) fun _ username hu' => ?_
      rw [hu] at hu'
      cases hu'
    · rename_i username hu
      obtain ⟨target, ht, h⟩ := Option.bind_eq_some_iff.mp h
      cases target with
      | none =>
        cases h
        refine .answered [] (by simp) (by simp) fun _ username' hu' => ?_
        rw [hu] at hu'
        cases hu'
        exact ht
      | some q =>
        obtain ⟨d, hq, h⟩ := Option.bind_eq_some_iff.mp h
        obtain ⟨name, -, h⟩ := Option.bind_eq_some_iff.mp h
        refine .obeyed username q d hadmin hu ht hq ?_
        split at h
        · rename_i htype
          obtain ⟨l, rfl, hl⟩ := sendMessageAll_post h
          exact ⟨clientTypeShutup, l, Ne.symm htype, plain_of_singleton hl rfl, rfl⟩
        · rename_i htype
          obtain ⟨l, rfl, hl⟩ := sendMessageAll_post h
          refine ⟨clientTypeNone, l, ?_, plain_of_singleton hl rfl, rfl⟩
          rw [not_not.mp htype]
          decide

end ArpgServer
