import Mathlib.Data.Multiset.AddSub
import ArpgServer.Effects.Steps

/-!
# What a client knows about its room

A client folds the events sent to it into a multiset of names, its view. The view of every
client in a room is the multiset of the names in the member list of the room. What a client
makes of a text that a script passes on is left open.
-/

namespace ArpgServer

open CText

/-- One event in the view of a client. -/
def rosterStep (raw : Bytes → Multiset Bytes → Multiset Bytes) (view : Multiset Bytes) :
    Notice → Multiset Bytes
  | .changeRoom .. => 0
  | .userLogin profile => profile.username ::ₘ view
  | .userAdd profile => profile.username ::ₘ view
  | .userLogout username => view.erase username
  | .script message => raw message view
  | _ => view

/-- The messages `l` in the view of the client at `fd`. -/
def viewFrom (raw : Bytes → Multiset Bytes → Multiset Bytes) (fd : Nat) (view : Multiset Bytes)
    (l : List Send) : Multiset Bytes :=
  ((l.filter fun m => m.fd = fd).flatMap Send.message).foldl (rosterStep raw) view

/-- The `username` of a record. -/
def State.nameOf (s : State) (q : Addr) : Bytes :=
  match s.heap q with
  | none => []
  | some c => c.username.text

/-- The names of several records. -/
def State.names (s : State) (l : List Addr) : Multiset Bytes := (l.map s.nameOf : List Bytes)

/-- The names in the member list of a room. -/
def roster (s : State) (r : Nat) : Multiset Bytes := s.names (s.rooms r).rClient

/-- Every client in a room knows who is in it. -/
def Informed (raw : Bytes → Multiset Bytes → Multiset Bytes) (s : State) : Prop :=
  ∀ p c (r : Nat), s.heap p = some c → c.roomid = r → viewFrom raw c.fd 0 s.sent = roster s r

/-- No text of a name runs out of its buffer. -/
def Env.NamesFit (env : Env) : Prop := ∀ p, env.overrun p .username = none

variable {raw : Bytes → Multiset Bytes → Multiset Bytes} {lookup : Lookup} {env : Env}
  {s s' t : State} {p q : Addr} {c d : Client} {fd : Nat} {e : Event} {a : Action}

/-! ## Names -/

theorem nameOf_eq (h : s.heap q = some d) : s.nameOf q = d.username.text := by
  unfold State.nameOf
  rw [h]

theorem read_namesFit (henv : env.NamesFit) (hp : s.heap p = some c) {name : Bytes}
    (h : c.username.read (env.overrun p .username) = some name) : name = s.nameOf p := by
  rw [henv p, CharArray.read] at h
  rw [nameOf_eq hp]
  split at h
  · exact (Option.some.inj h).symm
  · cases h

@[simp] theorem State.names_nil : s.names [] = 0 := rfl

@[simp] theorem State.names_cons (q : Addr) (l : List Addr) :
    s.names (q :: l) = s.nameOf q ::ₘ s.names l := rfl

theorem State.names_append (l l' : List Addr) : s.names (l ++ l') = s.names l + s.names l' := by
  simp [State.names]

theorem State.names_erase {l : List Addr} (hq : q ∈ l) :
    s.names (l.erase q) = (s.names l).erase (s.nameOf q) := by
  have hperm : s.names l = s.nameOf q ::ₘ s.names (l.erase q) :=
    Multiset.coe_eq_coe.mpr ((List.perm_cons_erase hq).map s.nameOf)
  rw [hperm, Multiset.erase_cons_head]

theorem State.names_congr {l : List Addr} (h : ∀ q ∈ l, t.nameOf q = s.nameOf q) :
    t.names l = s.names l := by
  unfold State.names
  rw [List.map_congr_left h]

/-! ## Views -/

theorem viewFrom_append (fd : Nat) (v : Multiset Bytes) (l l' : List Send) :
    viewFrom raw fd v (l ++ l') = viewFrom raw fd (viewFrom raw fd v l) l' := by
  simp [viewFrom]

theorem viewFrom_cons_self (fd : Nat) (v : Multiset Bytes) (message : List Notice)
    (l : List Send) : viewFrom raw fd v (⟨fd, message⟩ :: l) =
      viewFrom raw fd (message.foldl (rosterStep raw) v) l := by
  simp [viewFrom]

theorem viewFrom_cons_of_ne {k : Nat} (h : k ≠ fd) (v : Multiset Bytes) (message : List Notice)
    (l : List Send) : viewFrom raw fd v (⟨k, message⟩ :: l) = viewFrom raw fd v l := by
  simp [viewFrom, h]

theorem viewFrom_of_forall_ne {l : List Send} (h : ∀ m ∈ l, m.fd ≠ fd) (v : Multiset Bytes) :
    viewFrom raw fd v l = v := by
  have hnil : l.filter (fun m => m.fd = fd) = [] := by simpa using h
  simp [viewFrom, hnil]

theorem rosterStep_plain {n : Notice} (h : n.isPlain) (v : Multiset Bytes) :
    rosterStep raw v n = v := by
  cases n <;> first | rfl | cases h

theorem foldl_rosterStep_plain {l : List Notice} (h : ∀ n ∈ l, n.isPlain) (v : Multiset Bytes) :
    l.foldl (rosterStep raw) v = v := by
  induction l generalizing v with
  | nil => rfl
  | cons n l ih =>
    rw [List.foldl_cons, rosterStep_plain (h n List.mem_cons_self)]
    exact ih (fun n hn => h n (List.mem_cons_of_mem _ hn)) v

theorem viewFrom_plain {l : List Send} (h : ∀ m ∈ l, ∀ n ∈ m.message, n.isPlain)
    (v : Multiset Bytes) : viewFrom raw fd v l = v := by
  refine foldl_rosterStep_plain ?_ v
  intro n hn
  obtain ⟨m, hm, hn⟩ := List.mem_flatMap.mp hn
  exact h m (List.mem_filter.mp hm).1 n hn

/-- An event to each of several clients reaches each of them once. -/
theorem viewFrom_toEach {l : List Addr} (hnodup : l.Nodup)
    (hinj : ∀ q' ∈ l, s.fdOf q' = s.fdOf q → q' = q) (n : Notice) (v : Multiset Bytes) :
    viewFrom raw (s.fdOf q) v (s.toEach l n) = if q ∈ l then rosterStep raw v n else v := by
  induction l with
  | nil => rfl
  | cons q' l ih =>
    obtain ⟨hnot, hnodup⟩ := List.nodup_cons.mp hnodup
    have ih := ih hnodup fun q'' hq'' => hinj q'' (List.mem_cons_of_mem _ hq'')
    change viewFrom raw (s.fdOf q) v (⟨s.fdOf q', [n]⟩ :: s.toEach l n) = _
    by_cases hq : q' = q
    · subst hq
      have hl : viewFrom raw (s.fdOf q') (rosterStep raw v n) (s.toEach l n) =
          rosterStep raw v n := by
        refine viewFrom_of_forall_ne ?_ _
        intro m hm hfd
        obtain ⟨q'', hq'', rfl⟩ := List.mem_map.mp hm
        have heq := hinj q'' (List.mem_cons_of_mem _ hq'') hfd
        exact hnot (heq ▸ hq'')
      rw [viewFrom_cons_self, List.foldl_cons, List.foldl_nil, hl, if_pos List.mem_cons_self]
    · have hfd : s.fdOf q' ≠ s.fdOf q := fun h => hq (hinj q' List.mem_cons_self h)
      rw [viewFrom_cons_of_ne hfd, ih]
      simp [Ne.symm hq]

/-! ## The list of the others -/

theorem userAdd_bufferLength_pos (profile : Profile) :
    0 < (Notice.userAdd profile).bufferLength := by
  have hhead : 0 < (ofString "<event type='").length := by decide
  have hmax : 0 < maxBufferLength - 1 := by decide
  simp only [Notice.bufferLength, Notice.text, eventHead, List.length_append]
  omega

theorem msgLength_pos {msg : List Notice} (hne : msg ≠ [])
    (h : ∀ n ∈ msg, ∃ profile, n = .userAdd profile) : 0 < msgLength msg := by
  obtain ⟨n, rest, rfl⟩ := List.exists_cons_of_ne_nil hne
  obtain ⟨profile, rfl⟩ := h n List.mem_cons_self
  have := userAdd_bufferLength_pos profile
  simp only [msgLength, List.map_cons, List.sum_cons]
  omega

theorem profileAt_username (henv : env.NamesFit) {profile : Profile}
    (h : profileAt env s q = some profile) : profile.username = s.nameOf q := by
  obtain ⟨d, hd, h⟩ := Option.bind_eq_some_iff.mp h
  obtain ⟨username, hname, h⟩ := Option.bind_eq_some_iff.mp h
  obtain ⟨character, -, h⟩ := Option.bind_eq_some_iff.mp h
  obtain ⟨doing, -, rfl⟩ := Option.map_eq_some_iff.mp h
  exact read_namesFit henv hd hname

/-- The list of the others names everybody in it once, however it is cut into messages. -/
theorem userlist_roster (henv : env.NamesFit) {l : List Addr} {msg : List Notice} {item : Nat}
    {msgs : List (List Notice)} (hmsg : ∀ n ∈ msg, ∃ profile, n = .userAdd profile)
    (h : userlist env s c l msg item = some msgs) (hc : ∀ q ∈ l, ∃ d, s.heap q = some d ∧
      (d.fd ≠ c.fd ∧ d.state = .success ↔ q ≠ p)) (v : Multiset Bytes) :
    msgs.flatten.foldl (rosterStep raw) v =
      s.names (l.filter (· ≠ p)) + msg.foldl (rosterStep raw) v := by
  induction l generalizing msg item msgs v with
  | nil =>
    cases h
    by_cases hne : msg = []
    · subst hne
      simp [msgLength]
    · simp [msgLength_pos hne hmsg]
  | cons q l ih =>
    obtain ⟨d, hd, hiff⟩ := hc q List.mem_cons_self
    have hc' := fun q' hq' => hc q' (List.mem_cons_of_mem q hq')
    simp only [userlist, hd, Option.bind_some] at h
    split at h
    · rename_i hsel
      obtain ⟨profile, hprof, h⟩ := Option.bind_eq_some_iff.mp h
      have hq : q ≠ p := hiff.mp hsel
      have hname := profileAt_username henv hprof
      split at h
      · obtain ⟨rest, hrest, rfl⟩ := Option.map_eq_some_iff.mp h
        rw [List.flatten_cons, List.foldl_append, ih (by simp) hrest hc']
        simp [hq, rosterStep, hname]
      · have hmsg' : ∀ n ∈ msg ++ [Notice.userAdd profile], ∃ profile, n = .userAdd profile := by
          intro n hn
          rcases List.mem_append.mp hn with hn | hn
          · exact hmsg n hn
          · exact ⟨profile, List.mem_singleton.mp hn⟩
        rw [ih hmsg' h hc']
        simp [hq, rosterStep, hname]
    · rename_i hsel
      have hq : q = p := by
        by_contra hne
        exact hsel (hiff.mpr hne)
      rw [ih hmsg h hc']
      simp [hq]

/-! ## Changes outside the rooms -/

theorem nameOf_update (hp : s.heap p = some c) (ht : t.heap = Function.update s.heap p (some d))
    (hname : d.username = c.username) (q : Addr) : t.nameOf q = s.nameOf q := by
  unfold State.nameOf
  rw [ht]
  by_cases hq : q = p
  · subst hq
    rw [Function.update_self, hp]
    exact congrArg CharArray.text hname
  · rw [Function.update_of_ne hq]

theorem informed_start (conf : Nat → RoomConf) : Informed raw (State.start conf) := by
  intro p c r hp
  cases hp

/-- The view depends on the messages, the rooms and the names of their members. -/
theorem Informed.frame (h : Informed raw s) (hrooms : t.rooms = s.rooms)
    (hsent : ∀ p c, t.heap p = some c → 0 ≤ c.roomid →
      viewFrom raw c.fd 0 t.sent = viewFrom raw c.fd 0 s.sent)
    (hheap : ∀ p d, t.heap p = some d → 0 ≤ d.roomid →
      ∃ c, s.heap p = some c ∧ c.fd = d.fd ∧ c.roomid = d.roomid)
    (hname : ∀ (r : Nat) q, q ∈ (s.rooms r).rClient → t.nameOf q = s.nameOf q) :
    Informed raw t := by
  intro p d r hp hr
  obtain ⟨c, hc, hfd, hroom⟩ := hheap p d hp (by omega)
  have hview := h p c r hc (hroom.trans hr)
  have hroster : roster t r = roster s r := by
    unfold roster
    rw [hrooms, State.names_congr (hname r)]
  rw [hsent p d hp (by omega), hroster, ← hfd]
  exact hview

theorem Informed.congr (h : Informed raw s) (hheap : t.heap = s.heap) (hrooms : t.rooms = s.rooms)
    (hsent : t.sent = s.sent) : Informed raw t := by
  refine h.frame hrooms ?_ ?_ ?_
  · intro p c _ _
    rw [hsent]
  · intro p d hp _
    exact ⟨d, by rwa [hheap] at hp, rfl, rfl⟩
  · intro r q _
    simp only [State.nameOf, hheap]

/-- A record keeps its place, and its name unless it is in no room. -/
theorem Informed.setClient (hs : Sound s) (h : Informed raw s) (hp : s.heap p = some c)
    (hfd : d.fd = c.fd) (hroom : d.roomid = c.roomid)
    (hname : d.username = c.username ∨ c.roomid = -1) {l : List Send}
    (hl : ∀ m ∈ l, ∀ n ∈ m.message, n.isPlain) : Informed raw ((s.setClient p d).post l) := by
  refine h.frame rfl ?_ ?_ ?_
  · intro q e _ _
    rw [State.post_sent, viewFrom_append, viewFrom_plain hl, State.setClient_sent]
  · intro q e he _
    rcases update_eq_some he with ⟨rfl, rfl⟩ | ⟨-, he⟩
    · exact ⟨c, hp, hfd.symm, hroom.symm⟩
    · exact ⟨e, he, rfl, rfl⟩
  · intro r q hq
    rcases hname with hname | hout
    · exact nameOf_update hp rfl hname q
    · have hne : q ≠ p := by
        rintro rfl
        exact hs.not_member hp hout r hq
      simp [State.nameOf, hne]

/-- Texts of a script reach a client outside the rooms. -/
theorem Informed.script (hs : Sound s) (h : Informed raw s) (hp : s.heap p = some c)
    (hc : c.state ≠ .success) {l : List Send} (hl : ∀ m ∈ l, m.fd = c.fd) :
    Informed raw (s.post l) := by
  refine h.frame rfl ?_ (fun q d hq _ => ⟨d, hq, rfl, rfl⟩) (fun _ _ _ => rfl)
  intro q d hq hroom
  rw [State.post_sent, viewFrom_append]
  refine viewFrom_of_forall_ne ?_ _
  intro m hm hfd
  have hqp := hs.eq_of_fd hq hp (hfd.symm.trans (hl m hm))
  subst hqp
  rw [State.post_heap, hp] at hq
  cases hq
  have := hs.waiting q c hp hc
  omega

theorem Informed.freed (hs : Sound s) (h : Informed raw s) (hp : s.heap p = some c)
    (hroom : c.roomid = -1) : Informed raw (s.freed p c) := by
  refine h.frame rfl (fun _ _ _ _ => rfl) ?_ ?_
  · intro q d hq _
    by_cases hqp : q = p
    · subst hqp
      simp [State.freed] at hq
    · exact ⟨d, by simpa [State.freed, hqp] using hq, rfl, rfl⟩
  · intro r q hq
    have hqp : q ≠ p := by
      rintro rfl
      exact hs.not_member hp hroom r hq
    simp [State.nameOf, State.freed, hqp]

theorem Informed.accept (hs : Sound s) (h : Informed raw s) (hp : s.heap p = none) (fd : Nat) :
    Informed raw { s with
      fdClients := Function.update s.fdClients fd (some p)
      heap := Function.update s.heap p (some (newClient fd s.mytimestamp)) } := by
  refine h.frame rfl (fun _ _ _ _ => rfl) ?_ ?_
  · intro q d hq hroom
    rcases update_eq_some hq with ⟨rfl, rfl⟩ | ⟨-, hq⟩
    · simp [newClient] at hroom
    · exact ⟨d, hq, rfl, rfl⟩
  · intro r q hq
    have hqp : q ≠ p := by
      rintro rfl
      obtain ⟨d, hd, -⟩ := hs.member_success hq
      rw [hp] at hd
      cases hd
    simp [State.nameOf, hqp]

/-! ## Leaving and entering a room -/

/-- The room of a client is the only one that has it in its list. -/
theorem Sound.mem_room (hs : Sound s) (hq : s.heap q = some d) {k : Nat} (hk : d.roomid = k)
    (r : Nat) : q ∈ (s.rooms r).rClient ↔ k = r := by
  rw [hs.member r q]
  constructor
  · rintro ⟨d', hd', hr'⟩
    rw [hq] at hd'
    cases hd'
    omega
  · rintro rfl
    exact ⟨d, hq, hk⟩

/-- An event to each of several clients in the view of any client. -/
theorem Sound.viewFrom_toEach (hs : Sound s) {l : List Addr} (hl : l.Nodup)
    (hreg : ∀ q' ∈ l, ∃ d', s.heap q' = some d') (hq : s.heap q = some d) (n : Notice)
    (v : Multiset Bytes) :
    viewFrom raw d.fd v (s.toEach l n) = if q ∈ l then rosterStep raw v n else v := by
  rw [← State.fdOf_eq hq]
  refine ArpgServer.viewFrom_toEach hl ?_ n v
  intro q' hq' hfd
  obtain ⟨d', hd'⟩ := hreg q' hq'
  rw [State.fdOf_eq hd', State.fdOf_eq hq] at hfd
  exact hs.eq_of_fd hd' hq hfd

theorem Informed.leave (hs : Sound s) (h : Informed raw s) (henv : env.NamesFit)
    (hp : s.heap p = some c) {l : List Send} (hl : LogoutSends env s p c l) :
    Informed raw ((s.vacate p c).post l) := by
  rcases hl with ⟨hroom, rfl⟩ | ⟨r, name, hroom, hname, rfl⟩
  · rwa [State.vacate_eq_self s p c hroom, State.post_nil]
  have hname := read_namesFit henv hp hname
  intro q d k hq hk
  rw [State.post_heap, hs.vacate_heap hp] at hq
  rcases update_eq_some hq with ⟨rfl, rfl⟩ | ⟨hqp, hq⟩
  · have : (-1 : Int) = k := hk
    omega
  have hview := h q d k hq hk
  have hnames : ((s.vacate p c).post
      (s.toEach ((s.rooms r).rClient.erase p) (.userLogout name))).nameOf = s.nameOf := by
    funext q'
    exact nameOf_update hp (d := { c with roomid := -1 }) (hs.vacate_heap hp) rfl q'
  have hmem : q ∈ (s.rooms r).rClient.erase p ↔ k = r := by
    rw [List.mem_erase_of_ne hqp, hs.mem_room hq hk r]
  have hreg : ∀ q' ∈ (s.rooms r).rClient.erase p, ∃ d', s.heap q' = some d' := by
    intro q' hq'
    obtain ⟨d', hd', -⟩ := hs.member_success (List.mem_of_mem_erase hq')
    exact ⟨d', hd'⟩
  rw [State.post_sent, State.vacate_sent, viewFrom_append, hview,
    hs.viewFrom_toEach ((hs.nodup r).erase p) hreg hq]
  unfold roster State.names
  rw [hnames, State.post_rooms, State.vacate_rooms]
  by_cases hkr : k = r
  · subst hkr
    have hpmem : p ∈ (s.rooms k).rClient := (hs.mem_room hp hroom k).mpr rfl
    rw [if_pos (hmem.mpr rfl), if_pos hroom, hname]
    exact (State.names_erase hpmem).symm
  · rw [if_neg (fun h' => hkr (hmem.mp h')), if_neg (by omega)]

theorem viewFrom_map_self (fd : Nat) (v : Multiset Bytes) (msgs : List (List Notice)) :
    viewFrom raw fd v (msgs.map fun m => ⟨fd, m⟩) = msgs.flatten.foldl (rosterStep raw) v := by
  induction msgs generalizing v with
  | nil => rfl
  | cons m msgs ih =>
    rw [List.map_cons, viewFrom_cons_self, ih, List.flatten_cons, List.foldl_append]

/-- A room that an authenticated client has entered has only authenticated members. -/
theorem Sound.entered_success (hs : Sound s) (hp : s.heap p = some c) (hc : c.state = .success)
    {r : Nat} (hq : q ∈ (s.rooms r).rClient ++ [p]) :
    ∃ d, s.heap q = some d ∧ d.state = .success := by
  rcases List.mem_append.mp hq with hq | hq
  · obtain ⟨d, hd, -, hst⟩ := hs.member_success hq
    exact ⟨d, hd, hst⟩
  · rw [List.mem_singleton.mp hq]
    exact ⟨c, hp, hc⟩

/-- Everybody in the room learns of the client that has entered it. -/
theorem Sound.viewFrom_userLogin (hs : Sound s) (henv : env.NamesFit) (hp : s.heap p = some c)
    (hroom : c.roomid = -1) (hc : c.state = .success) {r : Nat} {profile : Profile}
    (hprof : profileAt env s p = some profile) (hq : s.heap q = some d) (v : Multiset Bytes) :
    viewFrom raw d.fd v (s.toEach ((s.rooms r).rClient ++ [p]) (.userLogin profile)) =
      if q ∈ (s.rooms r).rClient ++ [p] then s.nameOf p ::ₘ v else v := by
  have hout : p ∉ (s.rooms r).rClient := hs.not_member hp hroom r
  have hnodup : ((s.rooms r).rClient ++ [p]).Nodup :=
    (hs.nodup r).append (List.nodup_singleton p) (by simpa using hout)
  have hreg : ∀ q' ∈ (s.rooms r).rClient ++ [p], ∃ d', s.heap q' = some d' := by
    intro q' hq'
    obtain ⟨d', hd', -⟩ := hs.entered_success hp hc hq'
    exact ⟨d', hd'⟩
  rw [hs.viewFrom_toEach hnodup hreg hq, ← profileAt_username henv hprof]
  rfl

/-- The client that enters a room learns who is in it, whatever it knew before. -/
theorem Sound.viewFrom_entering (hs : Sound s) (henv : env.NamesFit) (hp : s.heap p = some c)
    (hroom : c.roomid = -1) (hc : c.state = .success) {r : Nat} {l : List Send}
    (hl : JoinSends env s p c r l) (v : Multiset Bytes) :
    viewFrom raw c.fd v l = s.names ((s.rooms r).rClient ++ [p]) := by
  obtain ⟨profile, msgs, hprof, hmsgs, rfl⟩ := hl
  have hothers : (((s.rooms r).rClient ++ [p]).filter (· ≠ p)) = (s.rooms r).rClient := by
    rw [List.filter_append, List.filter_eq_self.mpr]
    · simp
    · intro q hq
      simpa using fun h' : q = p => hs.not_member hp hroom r (h' ▸ hq)
  have hother : ∀ q ∈ (s.rooms r).rClient ++ [p], ∃ d, s.heap q = some d ∧
      (d.fd ≠ c.fd ∧ d.state = .success ↔ q ≠ p) := by
    intro q hq
    obtain ⟨d, hd, hst⟩ := hs.entered_success hp hc hq
    refine ⟨d, hd, fun h' => ?_, fun h' => ⟨fun hfd => h' (hs.eq_of_fd hd hp hfd), hst⟩⟩
    rintro rfl
    rw [hp] at hd
    cases hd
    exact h'.1 rfl
  have hnone : ∀ n ∈ ([] : List Notice), ∃ profile, n = .userAdd profile := by simp
  have hlist : ∀ v, msgs.flatten.foldl (rosterStep raw) v =
      s.names (((s.rooms r).rClient ++ [p]).filter (· ≠ p)) + [].foldl (rosterStep raw) v :=
    userlist_roster henv hnone hmsgs hother
  rw [viewFrom_cons_self, viewFrom_append, hs.viewFrom_userLogin henv hp hroom hc hprof hp,
    if_pos (by simp), viewFrom_map_self, hlist, hothers, State.names_append]
  rfl

/-- The others in the room learn the name of the client that enters. -/
theorem Sound.viewFrom_entered (hs : Sound s) (henv : env.NamesFit) (hp : s.heap p = some c)
    (hroom : c.roomid = -1) (hc : c.state = .success) {r : Nat} {l : List Send}
    (hl : JoinSends env s p c r l) (hq : s.heap q = some d) (hqp : q ≠ p)
    (v : Multiset Bytes) :
    viewFrom raw d.fd v l = if q ∈ (s.rooms r).rClient then s.nameOf p ::ₘ v else v := by
  obtain ⟨profile, msgs, hprof, -, rfl⟩ := hl
  have hfd : c.fd ≠ d.fd := fun h' => hqp (hs.eq_of_fd hp hq h').symm
  have hmsgs : ∀ v, viewFrom raw d.fd v (msgs.map fun m => ⟨c.fd, m⟩) = v := by
    refine viewFrom_of_forall_ne ?_
    intro m hm
    obtain ⟨m', -, rfl⟩ := List.mem_map.mp hm
    exact hfd
  rw [viewFrom_cons_of_ne hfd, viewFrom_append,
    hs.viewFrom_userLogin henv hp hroom hc hprof hq, hmsgs]
  simp only [List.mem_append, List.mem_singleton, hqp, or_false]

theorem Informed.enter (hs : Sound s) (h : Informed raw s) (henv : env.NamesFit)
    (hp : s.heap p = some c) (hroom : c.roomid = -1) (hc : c.state = .success) {r : Nat}
    {l : List Send} (hl : JoinSends env s p c r l) : Informed raw ((s.enter p c r).post l) := by
  have hnames : ((s.enter p c r).post l).nameOf = s.nameOf := by
    funext q'
    exact nameOf_update hp (d := { c with roomid := (r : Int) }) rfl rfl q'
  intro q d k hq hk
  unfold roster State.names
  rw [hnames, State.post_rooms, State.enter_rooms, State.post_sent, viewFrom_append]
  change viewFrom raw d.fd (viewFrom raw d.fd 0 s.sent) l = _
  rcases update_eq_some hq with ⟨rfl, rfl⟩ | ⟨hqp, hold⟩
  · have hkr : (r : Int) = k := hk
    obtain rfl : k = r := by omega
    rw [if_pos rfl]
    exact hs.viewFrom_entering henv hp hroom hc hl _
  · rw [hs.viewFrom_entered henv hp hroom hc hl hold hqp, h q d k hold hk]
    by_cases hkr : k = r
    · subst hkr
      have hmem : q ∈ (s.rooms k).rClient := (hs.mem_room hold hk k).mpr rfl
      rw [if_pos hmem, if_pos rfl]
      change _ = s.names ((s.rooms k).rClient ++ [p])
      rw [State.names_append, State.names_cons, State.names_nil, Multiset.add_cons,
        Multiset.add_zero]
      rfl
    · have hmem : q ∉ (s.rooms r).rClient := fun h' => hkr ((hs.mem_room hold hk r).mp h')
      rw [if_neg hmem, if_neg hkr]
      rfl

/-! ## Every step -/

theorem QuietStep.informed (hs : Sound s) (h : Informed raw s) (henv : env.NamesFit)
    (hstep : QuietStep env s s') : Informed raw s' := by
  cases hstep with
  | clock now => exact h.congr rfl rfl rfl
  | talk p c d l hp hd hl => exact h.setClient hs hp hd.fd hd.roomid (Or.inl hd.username) hl
  | script p c l hp hc hl => exact h.script hs hp hc fun m hm => (hl m hm).1
  | leave p c l hp hl => exact h.leave hs henv hp hl
  | enter p c r l hp hroom hc hr hen hl => exact h.enter hs henv hp hroom hc hl

theorem Quiet.informed (hs : Sound s) (h : Informed raw s) (henv : env.NamesFit)
    (hq : Quiet env s s') : Informed raw s' := by
  induction hq with
  | refl => exact h
  | tail hq hstep ih => exact hstep.informed (Quiet.sound hs hq) ih henv

theorem RemoveEffect.informed (hs : Sound s) (h : Informed raw s) (henv : env.NamesFit)
    (hp : s.heap p = some c) (hrem : RemoveEffect env p c s s') : Informed raw s' := by
  obtain ⟨l, key, chain, hl, -, -, rfl⟩ := hrem
  have hvac := hs.vacate hp
  have hvacp := hs.vacate_heap_self hp
  have hleft : Informed raw (((s.vacate p c).post l).setBucket (s.bucketOf key) chain) :=
    (h.leave hs henv hp hl).congr rfl rfl rfl
  exact hleft.freed ((hvac.post l).setBucket _ _) (c := { c with roomid := -1 }) hvacp rfl

theorem RivalEffect.informed (hs : Sound s) (h : Informed raw s) (henv : env.NamesFit)
    {node : Option Addr} (hrival : RivalEffect env node s s') : Informed raw s' := by
  rcases hrival with ⟨-, rfl⟩ | ⟨q, d, -, hq, ⟨-, rfl⟩ | ⟨-, l, hl, rfl⟩⟩
  · exact h
  · exact h
  · have hvacq := hs.vacate_heap_self hq
    rw [← State.post_post]
    exact (h.leave hs henv hq hl).setClient ((hs.vacate hq).post l) hvacq
      (d := { d with roomid := -1, state := .wait }) rfl rfl (Or.inl rfl) (by simp [Notice.isPlain])

theorem AuthEffect.informed (hs : Sound s) (h : Informed raw s) (henv : env.NamesFit)
    (hp : s.heap p = some c) (hauth : AuthEffect lookup env fd e p c s s') : Informed raw s' := by
  cases hauth with
  | already hc hs' =>
    rw [hs']
    exact h.setClient hs hp rfl rfl (Or.inl rfl) (by simp [Notice.isPlain]) |>.congr
      (by simp [State.sendMessage, State.setClient_self hp]) rfl rfl
  | refused d why hc hd hs' =>
    have hsame : c.SameSession d := authCredentials_client hd
    rw [hs']
    exact h.setClient hs hp hsame.fd hsame.roomid (Or.inr (hs.waiting p c hp hc))
      (by simp [Notice.isPlain])
  | passed c' d name node t hc hpass hd hname hnode hrival hjoin =>
    have hsame : c.SameSession d := passed_sameSession hpass hd
    have hout : c.roomid = -1 := hs.waiting p c hp hc
    have hs₁ : Sound (s.setClient p d) := hs.setWaiting hp hc hsame
    have hnamed : Informed raw (s.setClient p d) := by
      simpa using h.setClient hs hp hsame.fd hsame.roomid (Or.inr hout) (l := []) (by simp)
    have hdisplaced := hrival.informed hs₁ hnamed henv
    obtain ⟨hst, hpt⟩ := hrival.waiting hs hp hc hsame
    have hreg : Informed raw (t.setBucket (t.bucketOf name)
        (t.hashTable (t.bucketOf name) ++ [⟨p, d.fd⟩])) := hdisplaced.congr rfl rfl rfl
    have hlogged := hreg.setClient (hst.setBucket _ _) hpt (l := [⟨fd, [.authSuccess name
      (luaGetuserrole env name)]⟩]) (d := d.loggedIn (luaGetuserrole env name)) rfl rfl (Or.inl rfl)
      (by simp [Notice.isPlain])
    obtain ⟨hlogin, hquiet⟩ := hjoin.afterLogin hst hpt
    exact hquiet.informed hlogin hlogged henv

theorem ActEffect.informed (hs : Sound s) (h : Informed raw s) (henv : env.NamesFit)
    (hact : ActEffect lookup env s a s') : Informed raw s' := by
  cases hact with
  | quiet hq => exact hq.informed hs h henv
  | accept fd node hfd hnode hs' =>
    rw [hs']
    exact h.accept hs hnode fd
  | remove t q d ht hq hrem => exact hrem.informed (ht.sound hs) (ht.informed hs h henv) henv hq
  | auth fd recvBits data p c e ha hfd hp hdecode ht hauth =>
    exact hauth.informed (hs.tick env.now) (h.congr rfl rfl rfl) henv hp

/-- Any client may be looked up, and no text of a name runs out of its buffer. -/
def namesFit : Condition := fun lookup env _ _ => lookup.Registered ∧ env.NamesFit

theorem Runs.informed (h : Runs namesFit s) : Sound s ∧ Informed raw s := by
  refine h.invariant (I := fun s => Sound s ∧ Informed raw s)
    (fun conf => ⟨Sound.start conf, informed_start conf⟩) ?_
  rintro lookup env s a s' ⟨hs, hinf⟩ ⟨hl, henv⟩ hact
  have heff := act_effect hs hl hact
  exact ⟨heff.sound hs, heff.informed hs hinf henv⟩

/-- **Roster agreement.** The view of every client in a room is the multiset of the names in
the member list of that room. -/
theorem view_eq_roster (raw : Bytes → Multiset Bytes → Multiset Bytes) (h : Runs namesFit s)
    {fd : Nat} {p : Addr} {c : Client} {r : Nat} (hfd : s.fdClients fd = some p)
    (hp : s.heap p = some c) (hr : c.roomid = r) : viewFrom raw fd 0 s.sent = roster s r := by
  obtain ⟨hs, hinf⟩ : Sound s ∧ Informed raw s := h.informed
  obtain ⟨d, hd, rfl⟩ := hs.registered fd p hfd
  rw [hp] at hd
  cases hd
  exact hinf p c r hp hr

/-- Two guests in the lobby: the one who came first, once the other has arrived. -/
theorem view_eq_roster_guests : ∃ s,
    actAll (State.start fun _ => lobbyConf) [connect 5 100, connect 6 200, deliver 0 5 guestLogin,
      deliver 1 6 guestLogin] = some s ∧ (s.rooms 0).rClient = [100, 200] ∧
      ∀ raw, viewFrom raw 5 0 s.sent = roster s 0 := by
  have hcheck : (actAll (State.start fun _ => lobbyConf) [connect 5 100, connect 6 200,
      deliver 0 5 guestLogin, deliver 1 6 guestLogin]).any (fun s =>
        s.fdClients 5 = some 100 ∧ (s.heap 100).map Client.roomid = some 0 ∧
          (s.rooms 0).rClient = [100, 200]) := by
    decide +kernel
  obtain ⟨s, hrun, hs⟩ := (Option.any_eq_true _ _).mp hcheck
  obtain ⟨hfd, hroom, hlist⟩ := of_decide_eq_true hs
  obtain ⟨c, hc, hc0⟩ := Option.map_eq_some_iff.mp hroom
  have hfit : Runs namesFit s := by
    refine runs_of_actAll (.of_forall ?_ _) hrun
    intro x hx t
    refine ⟨getFdnodeByname_registered x.1, ?_⟩
    simp only [List.mem_cons, List.not_mem_nil, or_false] at hx
    rcases hx with rfl | rfl | rfl | rfl <;> exact fun _ => rfl
  exact ⟨s, hrun, hlist, fun raw => view_eq_roster raw hfit hfd hc hc0⟩

end ArpgServer
