import ArpgServer.Rooms.Audience

/-!
# Why a message is sent

Every message that handling a client's event sends is one of a few: an answer to the client, an
event that the client's room is told, a private message, an order of an administrator and its
consequences, or what belongs to a login or a change of rooms. Each kind has a cause in the
state and in the event, and the descriptors it goes to are told by the state before the step.
-/

namespace ArpgServer

open CText

variable {lookup : Lookup} {env : Env} {s s' t : State} {p q : Addr} {c d : Client} {fd : Nat}
  {e : Event} {P Q : Send → Prop}

/-! ## What a step posts -/

/-- All messages that are sent satisfy a condition. -/
def Posts (P : Send → Prop) (s s' : State) : Prop :=
  ∃ l, s'.sent = s.sent ++ l ∧ ∀ m ∈ l, P m

namespace Posts

theorem trans (h : Posts P s t) (h' : Posts P t s') : Posts P s s' := by
  obtain ⟨l, hl, hP⟩ := h
  obtain ⟨l', hl', hP'⟩ := h'
  refine ⟨l ++ l', by rw [hl', hl, List.append_assoc], fun m hm => ?_⟩
  exact (List.mem_append.mp hm).elim (hP m) (hP' m)

theorem mono (h : Posts P s s') (hPQ : ∀ m, P m → Q m) : Posts Q s s' := by
  obtain ⟨l, hl, hP⟩ := h
  exact ⟨l, hl, fun m hm => hPQ m (hP m hm)⟩

theorem of_sent (h : s'.sent = s.sent) : Posts P s s' :=
  ⟨[], by rw [h, List.append_nil], fun _ hm => absurd hm List.not_mem_nil⟩

theorem single {m : Send} (hm : P m) (h : s'.sent = s.sent ++ [m]) : Posts P s s' := by
  refine ⟨[m], h, fun m' hm' => ?_⟩
  rw [List.mem_singleton.mp hm']
  exact hm

/-- What a step has sent. -/
theorem of_mem_drop {m : Send} (h : Posts P s s') (hm : m ∈ s'.sent.drop s.sent.length) : P m := by
  obtain ⟨l, hl, hP⟩ := h
  rw [hl, List.drop_left] at hm
  exact hP m hm

end Posts

/-! ## Audiences -/

/-- The descriptor is that of a client with the room number. -/
def InRoom (s : State) (r : Int) (k : Nat) : Prop :=
  0 ≤ r ∧ ∃ q d, s.fdClients k = some q ∧ s.heap q = some d ∧ d.roomid = r

/-- The texts of a profile are those of a record. -/
structure Profile.Shows (profile : Profile) (env : Env) (p : Addr) (c : Client) : Prop where
  username : c.username.read (env.overrun p .username) = some profile.username
  character : c.character.read (env.overrun p .character) = some profile.character
  doing : c.doing.read (env.overrun p .doing) = some profile.doing

theorem profileAt_shows {profile : Profile} (hp : s.heap p = some c)
    (h : profileAt env s p = some profile) : profile.Shows env p c := by
  obtain ⟨c', hc', husername, hcharacter, hdoing⟩ := Profile.isOf_of_profileAt h
  obtain rfl : c' = c := Option.some.inj (hc'.symm.trans hp)
  exact ⟨husername, hcharacter, hdoing⟩

theorem ToldOnce.posts {n : Notice} (h : ToldOnce s s' c n) :
    Posts (fun m => InRoom s c.roomid m.fd ∧ m.message = [n]) s s' := by
  obtain ⟨l, hl, hmessage, -, hfd⟩ := h
  refine ⟨l, hl, fun m hm => ⟨?_, hmessage m hm⟩⟩
  exact (hfd m.fd).mp (List.mem_map_of_mem hm)

/-- A record that stays at its place is in the rooms it was in. -/
theorem InRoom.of_setClient {r : Int} {k : Nat} (hp : s.heap p = some c)
    (hroom : d.roomid = c.roomid) (h : InRoom (s.setClient p d) r k) : InRoom s r k := by
  obtain ⟨hr, q, x, hk, hx, hxr⟩ := h
  refine ⟨hr, q, ?_⟩
  rcases update_eq_some hx with ⟨rfl, rfl⟩ | ⟨-, hx⟩
  · exact ⟨c, hk, hp, hroom.symm.trans hxr⟩
  · exact ⟨x, hk, hx, hxr⟩

theorem fd_inRoom (hs : Sound s) {r : Nat} (hq : q ∈ (s.rooms r).rClient) :
    InRoom s r (s.fdOf q) := by
  obtain ⟨d, hd, hroom, -⟩ := hs.member_success hq
  rw [State.fdOf_eq hd]
  exact ⟨Int.natCast_nonneg r, q, d, hs.current q d hd, hd, hroom⟩

/-! ## Rooms -/

/-- The others in the room of a client are told that it leaves. -/
inductive Farewell (env : Env) (s : State) (q : Addr) (d : Client) : Send → Prop where
  | told (name : Bytes) (k : Nat) (hname : d.username.read (env.overrun q .username) = some name)
      (hk : InRoom s d.roomid k) (hne : k ≠ d.fd) : Farewell env s q d ⟨k, [.userLogout name]⟩

/-- What a client that wants to be in a room causes: it is turned away, or it leaves its room,
is told the new one, shown to everyone in it and shown everyone in it. -/
inductive Arrival (env : Env) (s : State) (p : Addr) (c : Client) (roomid : Int) : Send → Prop where
  | refused (name : Option Bytes) :
      Arrival env s p c roomid ⟨c.fd, [.systemMessage s.mytimestamp (.guestRefused name)]⟩
  | leaves (m : Send) (h : Farewell env s p c m) : Arrival env s p c roomid m
  | room : Arrival env s p c roomid ⟨c.fd, [.changeRoom roomid (s.rooms roomid.toNat).name]⟩
  | newcomer (profile : Profile) (k : Nat) (hprofile : profile.Shows env p c)
      (hk : k = c.fd ∨ InRoom s roomid k) : Arrival env s p c roomid ⟨k, [.userLogin profile]⟩
  | others (msg : List Notice) (hroom : 0 ≤ roomid)
      (hmsg : ∀ n ∈ msg, ∃ q d profile, s.heap q = some d ∧ d.roomid = roomid ∧
        profile.Shows env q d ∧ n = .userAdd profile) : Arrival env s p c roomid ⟨c.fd, msg⟩

theorem LogoutSends.farewell (hs : Sound s) (hp : s.heap p = some c) {l : List Send}
    (h : LogoutSends env s p c l) : ∀ m ∈ l, Farewell env s p c m := by
  rcases h with ⟨-, rfl⟩ | ⟨r, name, hroom, hname, rfl⟩
  · intro m hm
    cases hm
  · intro m hm
    obtain ⟨q, hq, rfl⟩ := List.mem_map.mp hm
    obtain ⟨hne, hq⟩ := (hs.nodup r).mem_erase_iff.mp hq
    obtain ⟨d, hd, -⟩ := hs.member_success hq
    refine .told name (s.fdOf q) hname (hroom ▸ fd_inRoom hs hq) ?_
    rw [State.fdOf_eq hd]
    exact fun hfd => hne (hs.eq_of_fd hd hp hfd)

theorem RemoveEffect.posts (hs : Sound s) (hp : s.heap p = some c) (h : RemoveEffect env p c s s') :
    Posts (Farewell env s p c) s s' := by
  obtain ⟨l, key, chain, hl, -, -, rfl⟩ := h
  exact ⟨l, by simp [State.freed], hl.farewell hs hp⟩

/-- The entries of a list of users are of the listed clients, but for the one it is for. -/
theorem userlist_shows {P : Notice → Prop} {me : Client} {l : List Addr}
    (hP : ∀ q ∈ l, ∀ d profile, s.heap q = some d → d.fd ≠ me.fd → profile.Shows env q d →
      P (.userAdd profile)) {msg : List Notice} {item : Nat} {out : List (List Notice)}
    (h : userlist env s me l msg item = some out) (hmsg : ∀ n ∈ msg, P n) :
    ∀ m ∈ out, ∀ n ∈ m, P n := by
  induction l generalizing msg item out with
  | nil =>
    cases h
    intro m hm
    split at hm
    · rw [List.mem_singleton.mp hm]
      exact hmsg
    · exact absurd hm List.not_mem_nil
  | cons q l ih =>
    have hrest : ∀ q ∈ l, ∀ d profile, s.heap q = some d → d.fd ≠ me.fd → profile.Shows env q d →
        P (.userAdd profile) := fun q hq => hP q (List.mem_cons_of_mem _ hq)
    obtain ⟨cur, hcur, h⟩ := Option.bind_eq_some_iff.mp h
    split at h
    · rename_i hother
      obtain ⟨profile, hprofile, h⟩ := Option.bind_eq_some_iff.mp h
      have harrival : ∀ n ∈ [Notice.userAdd profile], P n := by
        intro n hn
        rw [List.mem_singleton.mp hn]
        exact hP q List.mem_cons_self cur profile hcur hother.1 (profileAt_shows hcur hprofile)
      dsimp only at h
      split at h
      · obtain ⟨out', hout, rfl⟩ := Option.map_eq_some_iff.mp h
        intro m hm
        rcases List.mem_cons.mp hm with rfl | hm
        · exact hmsg
        · exact ih hrest hout harrival m hm
      · refine ih hrest h fun n hn => ?_
        exact (List.mem_append.mp hn).elim (hmsg n) (harrival n)
    · exact ih hrest h hmsg

theorem JoinSends.arrival (hs : Sound s) (hp : s.heap p = some c) {r : Nat} (hne : c.roomid ≠ r)
    {l : List Send} (h : JoinSends env (s.vacate p c) p { c with roomid := -1 } r l) :
    ∀ m ∈ l, Arrival env s p c r m := by
  obtain ⟨profile, msgs, hprofile, hmsgs, rfl⟩ := h
  have hrooms : (s.vacate p c).rooms r = s.rooms r := by rw [State.vacate_rooms, if_neg hne]
  have hself := hs.vacate_heap_self hp
  have hfdOf : ∀ k, (s.vacate p c).fdOf k = s.fdOf k := fun k =>
    fdOf_update hp (hs.vacate_heap hp) rfl
  have hshows : profile.Shows env p c := by
    obtain ⟨husername, hcharacter, hdoing⟩ := profileAt_shows hself hprofile
    exact ⟨husername, hcharacter, hdoing⟩
  intro m hm
  rcases List.mem_cons.mp hm with rfl | hm
  · rw [hrooms]
    exact .room
  rcases List.mem_append.mp hm with hm | hm
  · obtain ⟨k, hk, rfl⟩ := List.mem_map.mp hm
    rw [hrooms, List.mem_append, List.mem_singleton] at hk
    rw [hfdOf]
    refine .newcomer profile (s.fdOf k) hshows ?_
    rcases hk with hk | rfl
    · exact Or.inr (fd_inRoom hs hk)
    · exact Or.inl (State.fdOf_eq hp)
  · obtain ⟨msg, hmsg, rfl⟩ := List.mem_map.mp hm
    refine .others msg (Int.natCast_nonneg r) (userlist_shows (P := fun n => ∃ q d profile,
      s.heap q = some d ∧ d.roomid = r ∧ profile.Shows env q d ∧ n = .userAdd profile) ?_ hmsgs
        (by simp) msg hmsg)
    intro k hk x profile hx hother hprofile
    rw [hrooms, List.mem_append, List.mem_singleton] at hk
    have hkp : k ≠ p := by
      rintro rfl
      rw [hself] at hx
      cases hx
      exact hother rfl
    rw [hs.vacate_heap hp, Function.update_of_ne hkp] at hx
    obtain ⟨y, hy, hroom⟩ := (hs.member r k).mp (hk.resolve_right hkp)
    obtain rfl : y = x := Option.some.inj (hy.symm.trans hx)
    exact ⟨k, y, profile, hx, hroom, hprofile, rfl⟩

theorem JoinEffect.posts (hs : Sound s) (hp : s.heap p = some c) {roomid : Int}
    (h : JoinEffect env p c roomid s s') : Posts (Arrival env s p c roomid) s s' := by
  rcases h with ⟨l, hl, rfl⟩ | ⟨r, l₁, l₂, rfl, -, -, hne, hl₁, hl₂, rfl⟩
  · rcases hl with rfl | ⟨name, rfl⟩
    · exact .of_sent (by simp)
    · exact .single (.refused name) rfl
  · refine ⟨l₁ ++ l₂, ?_, fun m hm => ?_⟩
    · simp [State.enter, State.setRoom]
    · rcases List.mem_append.mp hm with hm | hm
      · exact .leaves m (hl₁.farewell hs hp m hm)
      · exact hl₂.arrival hs hp hne m hm

/-! ## Causes -/

/-- An event of an administrator that leads to a client. -/
structure Order (lookup : Lookup) (env : Env) (s : State) (p : Addr) (c : Client) (e : Event)
    (q : Addr) (d : Client) : Prop where
  state : c.state = .success
  admin : c.type = clientTypeAdmin
  target : ∃ username, e.attr .username = some username ∧
    targetOf lookup env p c username s = some (some q)
  record : s.heap q = some d

/-- A login that passes its checks, with the record it writes and the name in it. -/
structure PassesLogin (env : Env) (s : State) (p : Addr) (c : Client) (e : Event) (d : Client)
    (name : Bytes) : Prop where
  state : c.state ≠ .success
  type : e.evType = some evTypeAuth
  passed : ∃ c', authCredentials env s.mytimestamp c e = some (.passed c') ∧ d = setCharacter c' e
  read : d.username.read (env.overrun p .username) = some name

/-- What is answered to an authenticated client alone. -/
def Notice.IsAnswer (now : Int) : Notice → Prop
  | .alreadyLogin => True
  | .systemMessage timestamp .muted => timestamp = now
  | .systemMessage timestamp .reselect => timestamp = now
  | .systemMessage timestamp .noRight => timestamp = now
  | .roomAdd .. => True
  | _ => False

/-- Why handling an event of the client `c` at descriptor `fd` sends a message. -/
inductive Cause (lookup : Lookup) (env : Env) (s : State) (fd : Nat) (p : Addr) (c : Client)
    (e : Event) : Send → Prop where
  | talk (evType : Int) (n : Notice) (k : Nat) (ht : e.evType = some evType)
      (hstate : c.state = .success)
      (hfree : evType = evTypePublicMessage → c.type ≠ clientTypeShutup)
      (hsaid : e.announcement env s.mytimestamp p c evType = some n) (hk : InRoom s c.roomid k) :
      Cause lookup env s fd p c e ⟨k, [n]⟩
  | privateMessage (name target text : Bytes) (k : Nat) (ht : e.evType = some evTypePrivateMessage)
      (hstate : c.state = .success) (hfree : c.type ≠ clientTypeShutup)
      (hname : c.username.read (env.overrun p .username) = some name)
      (htarget : e.attr .target = some target) (htext : (e.localBody env).deref = some text)
      (hk : k = fd ∨ ∃ q d, lookup s target (-1) = some (some q) ∧ s.heap q = some d ∧ k = d.fd) :
      Cause lookup env s fd p c e ⟨k, [.privateMessage name target s.mytimestamp text]⟩
  | answer (msg : List Notice) (hstate : c.state = .success)
      (hmsg : ∀ n ∈ msg, n.IsAnswer s.mytimestamp) : Cause lookup env s fd p c e ⟨fd, msg⟩
  | order (text : SystemText) (q : Addr) (d : Client) (name : Bytes) (k : Nat)
      (horder : Order lookup env s p c e q d)
      (hname : d.username.read (env.overrun q .username) = some name)
      (htext : e.evType = some evTypeAdminCommandGoout ∧ text = .kicked name ∨
        e.evType = some evTypeAdminCommandShutup ∧ (text = .silenced name ∨ text = .released name))
      (hk : InRoom s d.roomid k) :
      Cause lookup env s fd p c e ⟨k, [.systemMessage s.mytimestamp text]⟩
  | removed (m : Send) (q : Addr) (d : Client) (ht : e.evType = some evTypeAdminCommandGoout)
      (horder : Order lookup env s p c e q d) (h : Farewell env s q d m) :
      Cause lookup env s fd p c e m
  | leaves (m : Send) (ht : e.evType = some evTypeLeaveRoom) (hstate : c.state = .success)
      (h : Farewell env s p c m) : Cause lookup env s fd p c e m
  | moves (m : Send) (ht : e.evType = some evTypeChangeRoom) (hstate : c.state = .success)
      (h : Arrival env s p c e.roomid m) : Cause lookup env s fd p c e m
  | refused (d : Client) (why : AuthFailure) (ht : e.evType = some evTypeAuth)
      (hstate : c.state ≠ .success)
      (hd : authCredentials env s.mytimestamp c e = some (.refused d why)) :
      Cause lookup env s fd p c e ⟨fd, [.authFailure why]⟩
  | login (d : Client) (name : Bytes) (h : PassesLogin env s p c e d name) :
      Cause lookup env s fd p c e ⟨fd, [.authSuccess name (luaGetuserrole env name)]⟩
  | rival (d : Client) (name : Bytes) (q : Addr) (x : Client) (h : PassesLogin env s p c e d name)
      (hlookup : lookup (s.setClient p d) name d.fd = some (some q)) (hq : s.heap q = some x)
      (hx : x.state = .success) : Cause lookup env s fd p c e ⟨x.fd, [.otherLogin]⟩
  | displaced (m : Send) (d : Client) (name : Bytes) (q : Addr) (x : Client)
      (h : PassesLogin env s p c e d name)
      (hlookup : lookup (s.setClient p d) name d.fd = some (some q)) (hq : s.heap q = some x)
      (hm : Farewell env s q x m) : Cause lookup env s fd p c e m
  | arrives (m : Send) (d : Client) (name : Bytes) (h : PassesLogin env s p c e d name)
      (hm : Arrival env s p d e.roomid m) : Cause lookup env s fd p c e m
  | script (text : Bytes) (ht : e.evType ≠ some evTypeAuth) (hstate : c.state ≠ .success) :
      Cause lookup env s fd p c e ⟨fd, [.script text]⟩

/-- A record keeps its place, and an event goes to its room. -/
theorem broadcast_posts (hs : Sound s) (hp : s.heap p = some c) (hd : c.SamePlace d) {n : Notice}
    (h : sendMessageAll (s.setClient p d) c.fd n = some s') :
    Posts (fun m => InRoom s c.roomid m.fd ∧ m.message = [n]) s s' := by
  have hset : Sound (s.setClient p d) := by
    refine hs.setClient hp hd.fd hd.roomid fun hne => hs.waiting p c hp ?_
    rwa [hd.state] at hne
  have hself : (s.setClient p d).heap p = some d := Function.update_self ..
  rw [← hd.fd] at h
  have hposts : Posts _ s s' := (hset.toldOnce hself h).posts
  refine hposts.mono fun m hm => ⟨?_, hm.2⟩
  rw [← hd.roomid]
  exact hm.1.of_setClient hp hd.roomid

/-! ## Talking -/

theorem Announces.posts {evType : Int} (ht : e.evType = some evType) (hstate : c.state = .success)
    (hfree : evType = evTypePublicMessage → c.type ≠ clientTypeShutup)
    (h : Announces env s s' p c e evType) : Posts (Cause lookup env s fd p c e) s s' := by
  obtain ⟨n, hsaid, htold⟩ := h
  refine htold.posts.mono fun m hm => ?_
  obtain ⟨k, message⟩ := m
  obtain ⟨hk, rfl⟩ : InRoom s c.roomid k ∧ message = [n] := hm
  exact .talk evType n k ht hstate hfree hsaid hk

theorem moveSection_posts (hs : Sound s) (hp : s.heap p = some c) (ht : e.evType = some evTypeMove)
    (hstate : c.state = .success) (h : moveSection env p e s = some s') :
    Posts (Cause lookup env s fd p c e) s s' := by
  have hfree : evTypeMove = evTypePublicMessage → c.type ≠ clientTypeShutup :=
    fun h => absurd h (by decide)
  cases hx : e.attr .x with
  | none =>
    simp only [moveSection, hp, hx, Option.bind_some, Option.some.injEq] at h
    rw [← h]
    exact .of_sent rfl
  | some x =>
    cases hy : e.attr .y with
    | none =>
      simp only [moveSection, hp, hx, hy, Option.bind_some, Option.some.injEq] at h
      rw [← h]
      exact .of_sent rfl
    | some y =>
      exact (moveSection_announces hs hp (by rw [hx]; rfl) (by rw [hy]; rfl) h).posts ht hstate
        hfree

theorem doingSection_posts (hs : Sound s) (hp : s.heap p = some c)
    (ht : e.evType = some evTypeDoing) (hstate : c.state = .success)
    (h : doingSection env p e s = some s') : Posts (Cause lookup env s fd p c e) s s' := by
  have hfree : evTypeDoing = evTypePublicMessage → c.type ≠ clientTypeShutup :=
    fun h => absurd h (by decide)
  cases hdoing : e.attr .doing with
  | none =>
    simp only [doingSection, hdoing, Option.some.injEq] at h
    rw [← h]
    exact .of_sent rfl
  | some doing =>
    exact (doingSection_announces hs hp (by rw [hdoing]; rfl) h).posts ht hstate hfree

/-- A single answer. -/
theorem answer_posts {n : Notice} (hstate : c.state = .success) (hn : n.IsAnswer s.mytimestamp) :
    Posts (Cause lookup env s fd p c e) s (s.sendMessage fd n) := by
  refine .single (.answer [n] hstate fun n' hn' => ?_) rfl
  rw [List.mem_singleton.mp hn']
  exact hn

theorem publicMessageSection_posts (hs : Sound s) (hp : s.heap p = some c) (hfd : c.fd = fd)
    (ht : e.evType = some evTypePublicMessage) (hstate : c.state = .success)
    (h : publicMessageSection env p fd (e.localBody env) s = some s') :
    Posts (Cause lookup env s fd p c e) s s' := by
  by_cases hmuted : c.type = clientTypeShutup
  · simp only [publicMessageSection, hp, Option.bind_some, if_pos hmuted, Option.some.injEq] at h
    rw [← h]
    exact answer_posts hstate rfl
  · exact (publicMessageSection_announces hs hp hfd hmuted h).posts ht hstate fun _ => hmuted

theorem privateMessageSection_posts (hp : s.heap p = some c)
    (ht : e.evType = some evTypePrivateMessage) (hstate : c.state = .success)
    (h : privateMessageSection lookup env p fd e (e.localBody env) s = some s') :
    Posts (Cause lookup env s fd p c e) s s' := by
  obtain ⟨target, htarget, h⟩ := Option.bind_eq_some_iff.mp h
  simp only [hp, Option.bind_some] at h
  split at h
  · cases h
    exact answer_posts hstate rfl
  rename_i hfree
  obtain ⟨self, -, h⟩ := Option.bind_eq_some_iff.mp h
  obtain ⟨name, hname, h⟩ := Option.bind_eq_some_iff.mp h
  split at h
  · obtain ⟨text, htext, rfl⟩ := Option.map_eq_some_iff.mp h
    exact .single (.privateMessage name target text fd ht hstate hfree hname htarget htext
      (Or.inl rfl)) rfl
  obtain ⟨node, hnode, h⟩ := Option.bind_eq_some_iff.mp h
  cases node with
  | none =>
    cases h
    exact answer_posts hstate rfl
  | some q =>
    obtain ⟨d, hd, h⟩ := Option.bind_eq_some_iff.mp h
    obtain ⟨text, htext, rfl⟩ := Option.map_eq_some_iff.mp h
    have hto : ∀ k, (k = fd ∨ ∃ q d, lookup s target (-1) = some (some q) ∧ s.heap q = some d ∧
        k = d.fd) → Cause lookup env s fd p c e
          ⟨k, [.privateMessage name target s.mytimestamp text]⟩ := fun k hk =>
      .privateMessage name target text k ht hstate hfree hname htarget htext hk
    exact (Posts.single (hto d.fd (Or.inr ⟨q, d, hnode, hd, rfl⟩)) rfl).trans
      (.single (hto fd (Or.inl rfl)) rfl)

theorem sendRoomlist_posts (hp : s.heap p = some c) (hfd : c.fd = fd) (hstate : c.state = .success)
    (h : sendRoomlist env p s = some s') : Posts (Cause lookup env s fd p c e) s s' := by
  simp only [sendRoomlist, hp, Option.map_some, Option.some.injEq] at h
  refine ⟨_, by rw [← h]; rfl, fun m hm => ?_⟩
  obtain ⟨msg, hmsg, rfl⟩ := List.mem_map.mp hm
  rw [hfd]
  have hlist : ∀ n ∈ msg, n.IsAnswer s.mytimestamp :=
    roomlist_forall (fun _ _ _ => by trivial) (by simp) msg hmsg
  exact .answer msg hstate hlist

/-! ## Orders -/

theorem gooutEvent_posts (hs : Sound s) (hp : s.heap p = some c)
    (ht : e.evType = some evTypeAdminCommandGoout) (hstate : c.state = .success)
    (h : (gooutEvent lookup env p fd e).run s = some ((), s')) :
    Posts (Cause lookup env s fd p c e) s s' := by
  obtain ⟨node, t, hsec, h⟩ := Proc.run_bind_eq_some.mp h
  have hsec := Proc.run_step_eq_some.mp hsec
  simp only [gooutSection, hp, Option.bind_some] at hsec
  split at hsec
  · cases hsec
    cases h
    exact answer_posts hstate rfl
  rename_i hadmin
  split at hsec
  · cases hsec
    cases h
    exact .of_sent rfl
  rename_i username hu
  obtain ⟨target, htarget, hsec⟩ := Option.bind_eq_some_iff.mp hsec
  cases target with
  | none =>
    cases hsec
    cases h
    exact .of_sent rfl
  | some q =>
    obtain ⟨d, hq, hsec⟩ := Option.bind_eq_some_iff.mp hsec
    obtain ⟨name, hname, hsec⟩ := Option.bind_eq_some_iff.mp hsec
    obtain ⟨u, hsend, hsec⟩ := Option.map_eq_some_iff.mp hsec
    cases hsec
    have horder : Order lookup env s p c e q d :=
      ⟨hstate, not_not.mp hadmin, ⟨username, hu, htarget⟩, hq⟩
    have htold : Posts (Cause lookup env s fd p c e) s t := by
      refine (hs.toldOnce hq hsend).posts.mono fun m hm => ?_
      obtain ⟨k, message⟩ := m
      obtain ⟨hk, rfl⟩ : InRoom s d.roomid k ∧ message = _ := hm
      exact .order _ q d name k horder hname (Or.inl ⟨ht, rfl⟩) hk
    obtain ⟨l, rfl, -⟩ := sendMessageAll_post hsend
    obtain ⟨x, v, hdel, h⟩ := Proc.run_bind_eq_some.mp h
    cases h
    have hpost : Sound (s.post l) := hs.post l
    have hq' : (s.post l).heap q = some d := hq
    refine htold.trans (((nodeDel_effect hpost hq' hdel).posts hpost hq').mono fun m hm => ?_)
    refine .removed m q d ht horder ?_
    cases hm with
    | told name' k hname' hk hne => exact .told name' k hname' hk hne

theorem shutupSection_posts (hs : Sound s) (hp : s.heap p = some c)
    (ht : e.evType = some evTypeAdminCommandShutup) (hstate : c.state = .success)
    (h : shutupSection lookup env p fd e s = some s') :
    Posts (Cause lookup env s fd p c e) s s' := by
  simp only [shutupSection, hp, Option.bind_some] at h
  split at h
  · cases h
    exact answer_posts hstate rfl
  rename_i hadmin
  split at h
  · cases h
    exact .of_sent rfl
  rename_i username hu
  obtain ⟨target, htarget, h⟩ := Option.bind_eq_some_iff.mp h
  cases target with
  | none =>
    cases h
    exact .of_sent rfl
  | some q =>
    obtain ⟨d, hq, h⟩ := Option.bind_eq_some_iff.mp h
    obtain ⟨name, hname, h⟩ := Option.bind_eq_some_iff.mp h
    have horder : Order lookup env s p c e q d :=
      ⟨hstate, not_not.mp hadmin, ⟨username, hu, htarget⟩, hq⟩
    have htold : ∀ type text, (text = .silenced name ∨ text = .released name) →
        sendMessageAll (s.setClient q { d with type := type }) d.fd
          (.systemMessage s.mytimestamp text) = some s' →
        Posts (Cause lookup env s fd p c e) s s' := by
      intro type text htext hsend
      refine (broadcast_posts (d := { d with type := type }) hs hq ⟨rfl, rfl, rfl, rfl⟩ hsend).mono
        fun m hm => ?_
      obtain ⟨k, message⟩ := m
      obtain ⟨hk, rfl⟩ : InRoom s d.roomid k ∧ message = _ := hm
      exact .order text q d name k horder hname (Or.inr ⟨ht, htext⟩) hk
    split at h
    · exact htold _ _ (Or.inl rfl) h
    · exact htold _ _ (Or.inr rfl) h

/-! ## Logins -/

/-- The state `t` comes later in a login: nobody has entered a room since `s`. -/
structure Thins (s t : State) : Prop where
  fdClients : t.fdClients = s.fdClients
  mytimestamp : t.mytimestamp = s.mytimestamp
  name : ∀ r, (t.rooms r).name = (s.rooms r).name
  seated : ∀ q d, t.heap q = some d → 0 ≤ d.roomid → s.heap q = some d

theorem Thins.inRoom (h : Thins s t) {r : Int} {k : Nat} (hk : InRoom t r k) : InRoom s r k := by
  obtain ⟨hr, q, x, hk, hx, rfl⟩ := hk
  exact ⟨hr, q, x, h.fdClients ▸ hk, h.seated q x hx hr, rfl⟩

theorem Thins.trans {u : State} (h : Thins s t) (h' : Thins t u) : Thins s u := by
  constructor
  · rw [h'.fdClients, h.fdClients]
  · rw [h'.mytimestamp, h.mytimestamp]
  · intro r
    rw [h'.name, h.name]
  · intro q d hq hroom
    exact h.seated q d (h'.seated q d hq hroom) hroom

theorem Thins.setClient (p : Addr) (hroom : d.roomid = -1) : Thins s (s.setClient p d) := by
  refine ⟨rfl, rfl, fun _ => rfl, fun q x hq hx => ?_⟩
  rcases update_eq_some hq with ⟨-, rfl⟩ | ⟨-, hq⟩
  · omega
  · exact hq

theorem Thins.vacate (hs : Sound s) (hp : s.heap p = some c) : Thins s (s.vacate p c) := by
  refine ⟨by simp, by simp, fun r => ?_, fun q x hq hx => ?_⟩
  · rw [State.vacate_rooms]
    split <;> rfl
  · rw [hs.vacate_heap hp] at hq
    rcases update_eq_some hq with ⟨-, rfl⟩ | ⟨-, hq⟩
    · exact absurd hx (by simp)
    · exact hq

theorem Thins.post (l : List Send) : Thins s (s.post l) :=
  ⟨rfl, rfl, fun _ => rfl, fun _ _ hq _ => hq⟩

theorem RivalEffect.thins (hs : Sound s) {node : Option Addr} (h : RivalEffect env node s t) :
    Thins s t := by
  rcases h with ⟨-, rfl⟩ | ⟨q, d, -, hq, ⟨-, rfl⟩ | ⟨-, l, -, rfl⟩⟩
  · exact ⟨rfl, rfl, fun _ => rfl, fun _ _ hq _ => hq⟩
  · exact ⟨rfl, rfl, fun _ => rfl, fun _ _ hq _ => hq⟩
  · exact ((Thins.vacate hs hq).trans (.setClient q rfl)).trans (.post _)

theorem Thins.farewell (h : Thins s t) {m : Send} (hm : Farewell env t p c m) :
    Farewell env s p c m := by
  cases hm with
  | told name k hname hk hne => exact .told name k hname (h.inRoom hk) hne

/-- The state and the type of a record are not shown. -/
theorem Arrival.of_loggedIn (h : Thins s t) {role roomid : Int} {m : Send}
    (hm : Arrival env t p (c.loggedIn role) roomid m) : Arrival env s p c roomid m := by
  cases hm with
  | refused name =>
    rw [h.mytimestamp]
    exact .refused name
  | leaves m hm =>
    refine .leaves m ?_
    cases hm with
    | told name k hname hk hne => exact .told name k hname (h.inRoom hk) hne
  | room =>
    rw [h.name]
    exact .room
  | newcomer profile k hprofile hk =>
    obtain ⟨husername, hcharacter, hdoing⟩ := hprofile
    exact .newcomer profile k ⟨husername, hcharacter, hdoing⟩ (hk.imp_right h.inRoom)
  | others msg hroom hmsg =>
    refine .others msg hroom fun n hn => ?_
    obtain ⟨q, x, profile, hq, hx, hprofile, hn⟩ := hmsg n hn
    exact ⟨q, x, profile, h.seated q x hq (hx ▸ hroom), hx, hprofile, hn⟩

theorem RivalEffect.posts (hs : Sound s) (hp : s.heap p = some c) {name : Bytes}
    (hlogin : PassesLogin env s p c e d name) (hsame : c.SameSession d) {node : Option Addr}
    (hnode : lookup (s.setClient p d) name d.fd = some node)
    (h : RivalEffect env node (s.setClient p d) t) : Posts (Cause lookup env s fd p c e) s t := by
  have hs₁ := hs.setWaiting hp hlogin.state hsame
  rcases h with ⟨-, rfl⟩ | ⟨q, x, rfl, hq, ⟨-, rfl⟩ | ⟨hx, l, hl, rfl⟩⟩
  · exact .of_sent rfl
  · exact .of_sent rfl
  have hq' : s.heap q = some x := by
    rcases update_eq_some hq with ⟨-, rfl⟩ | ⟨-, hq⟩
    · exact absurd (hsame.state ▸ hx) hlogin.state
    · exact hq
  refine ⟨l ++ [⟨x.fd, [.otherLogin]⟩], by simp, fun m hm => ?_⟩
  rcases List.mem_append.mp hm with hm | hm
  · refine .displaced m d name q x hlogin hnode hq' ?_
    cases hl.farewell hs₁ hq m hm with
    | told name k hname hk hne => exact .told name k hname (hk.of_setClient hp hsame.roomid) hne
  · rw [List.mem_singleton.mp hm]
    exact .rival d name q x hlogin hnode hq' hx

theorem AuthEffect.posts (hs : Sound s) (hp : s.heap p = some c) (ht : e.evType = some evTypeAuth)
    (h : AuthEffect lookup env fd e p c s s') :
    Posts (Cause lookup env s fd p c e) s s' := by
  cases h with
  | already hc h =>
    rw [h]
    exact answer_posts hc (by trivial)
  | refused d why hc hd h => exact .single (.refused d why ht hc hd) (by rw [h]; rfl)
  | passed c' d name node t hc hpass hd hname hnode hrival hjoin =>
    have hsame : c.SameSession d := passed_sameSession hpass hd
    have hlogin : PassesLogin env s p c e d name := ⟨hc, ht, ⟨c', hpass, hd⟩, hname⟩
    have hs₁ := hs.setWaiting hp hc hsame
    have hroom : d.roomid = -1 := hsame.roomid.trans (hs.waiting p c hp hc)
    obtain ⟨hst, hpt⟩ := hrival.waiting hs hp hc hsame
    obtain ⟨hjoined, -⟩ := hjoin.afterLogin hst hpt
    generalize hu : (t.login p d name (luaGetuserrole env name)).sendMessage fd
      (.authSuccess name (luaGetuserrole env name)) = u at hjoin hjoined
    have hself : u.heap p = some (d.loggedIn (luaGetuserrole env name)) := by
      rw [← hu]
      simp [State.login, State.sendMessage]
    have hlater : Thins t u := by
      rw [← hu]
      refine ⟨rfl, rfl, fun _ => rfl, fun q x hq hx => ?_⟩
      rcases update_eq_some hq with ⟨-, rfl⟩ | ⟨-, hq⟩
      · exact absurd (hroom ▸ hx : (0 : Int) ≤ -1) (by decide)
      · exact hq
    have hthins : Thins s u := ((Thins.setClient p hroom).trans (hrival.thins hs₁)).trans hlater
    have hanswer : Posts (Cause lookup env s fd p c e) t u :=
      .single (.login d name hlogin) (by rw [← hu]; rfl)
    refine ((hrival.posts hs hp hlogin hsame hnode).trans hanswer).trans ?_
    refine (hjoin.posts hjoined hself).mono fun m hm => ?_
    exact .arrives m d name hlogin (hm.of_loggedIn hthins)

/-! ## Every event -/

/-- **Causes.** Every message that handling an event sends has its cause in the event and in
the state before. -/
theorem handleEvent_posts (hs : Sound s) (hl : lookup.Registered) (hp : s.heap p = some c)
    (hfd : c.fd = fd) {evType : Int} (ht : e.evType = some evType)
    (h : (handleEvent lookup env p fd e evType c.state).run s = some ((), s')) :
    Posts (Cause lookup env s fd p c e) s s' := by
  have hjob := handleEvent_handledBy lookup env p fd e evType c
  generalize handleEvent lookup env p fd e evType c.state = job at h hjob
  cases hjob with
  | auth hAuth => exact (authEvent_effect hs hl hp h).posts hs hp (hAuth ▸ ht)
  | changeState hType hc =>
    have hfree : evTypeUserChangeState = evTypePublicMessage → c.type ≠ clientTypeShutup :=
      fun h => absurd h (by decide)
    exact (changeStateSection_announces hs hp hfd (Proc.run_modify_eq_some.mp h)).posts
      (hType ▸ ht) hc hfree
  | changeCharacter hType hc =>
    have hfree : evTypeChangeCharacter = evTypePublicMessage → c.type ≠ clientTypeShutup :=
      fun h => absurd h (by decide)
    exact (changeCharacterSection_announces hs hp hfd (Proc.run_modify_eq_some.mp h)).posts
      (hType ▸ ht) hc hfree
  | privateMessage hType hc =>
    exact privateMessageSection_posts hp (hType ▸ ht) hc (Proc.run_modify_eq_some.mp h)
  | publicMessage hType hc =>
    exact publicMessageSection_posts hs hp hfd (hType ▸ ht) hc (Proc.run_modify_eq_some.mp h)
  | changeRoom hType hc =>
    rcases changeRoomEvent_effect hs hp hc h with rfl | h
    · exact .of_sent rfl
    · exact (h.posts hs hp).mono fun m hm => .moves m (hType ▸ ht) hc hm
  | roomList _ hc => exact sendRoomlist_posts hp hfd hc (Proc.run_modify_eq_some.mp h)
  | leaveRoom hType hc =>
    obtain ⟨l, hl, rfl⟩ := leaveRoomEvent_effect hs hp h
    refine ⟨l, by simp, fun m hm => ?_⟩
    exact .leaves m (hType ▸ ht) hc (hl.farewell hs hp m hm)
  | goout hGoout hc => exact gooutEvent_posts hs hp (hGoout ▸ ht) hc h
  | shutup hShutup hc =>
    exact shutupSection_posts hs hp (hShutup ▸ ht) hc (Proc.run_modify_eq_some.mp h)
  | move hType hc => exact moveSection_posts hs hp (hType ▸ ht) hc (Proc.run_modify_eq_some.mp h)
  | doing hType hc => exact doingSection_posts hs hp (hType ▸ ht) hc (Proc.run_modify_eq_some.mp h)
  | nothing =>
    cases h
    exact .of_sent rfl
  | script hc hauth =>
    obtain ⟨l, rfl, hl⟩ := luaExec_effect (Proc.run_modify_eq_some.mp h)
    refine ⟨l, rfl, fun m hm => ?_⟩
    obtain ⟨k, message⟩ := m
    obtain ⟨hk, text, hmessage⟩ : k = fd ∧ ∃ text, message = [.script text] := hl _ hm
    rw [hk, hmessage]
    refine .script text ?_ hc
    rw [ht]
    exact fun h => hauth (Option.some.inj h)

end ArpgServer
