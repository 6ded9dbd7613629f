import ArpgServer.Messages.Absent
import ArpgServer.Rooms.Lists

/-!
# Leftovers

Three locals are not initialised: the pointer `body` of `parse_message`, the buffer `msgbuffer`
of each function that formats a message, and the buffer `itembuffer` of the list replies. What a
message does depends on none of them, except where the test of a message without a body reads
`body`, and where the first entry of a list reply measures `itembuffer` and the memory behind it.
-/

namespace ArpgServer

open CText

variable {env : Env} {s t : State} {p q : Addr} {c d : Client} {fd : Nat} {e : Event}
  {task : Task} {behind : Bytes}

/-- The first contents of the locals. -/
structure Leftovers where
  body : LocalPtr
  msgbuffer : CharArray maxBufferLength
  itembuffer : CharArray maxBufferLength

/-- The two locals that an environment keeps: `body`, and `strlen` of `itembuffer`. -/
def Env.starting (env : Env) (body : LocalPtr) (item : Nat) : Env :=
  { env with body := body, itembuffer := item }

/-- The environment of a run. `behind` is the text behind an `itembuffer` without a terminator. -/
def Env.withLeftovers (env : Env) (behind : Bytes) (l : Leftovers) : Env :=
  env.starting l.body (l.itembuffer.strlen behind)

theorem formatSize : 0 < maxBufferLength := by decide

/-- The bytes of an event, formatted into the buffer of its function. -/
def Leftovers.bytes (l : Leftovers) : Notice → Bytes
  | .pong => Notice.pong.text
  | .script message => message
  | .userAdd profile =>
    (l.itembuffer.snprintf (Notice.userAdd profile).text _ formatSize le_rfl).text
  | .roomAdd roomid name num =>
    (l.itembuffer.snprintf (Notice.roomAdd roomid name num).text _ formatSize le_rfl).text
  | n => (l.msgbuffer.snprintf n.text _ formatSize le_rfl).text

/-- What a message does: the state it leads to, and the bytes it sends to each descriptor. -/
def outcome (env : Env) (behind : Bytes) (s : State) (task : Task) (l : Leftovers) :
    Option (State × List (Nat × Bytes)) :=
  ((parseMessage (getFdnodeByname (env.withLeftovers behind l)) (env.withLeftovers behind l)
    task).run s).map fun r =>
      (r.2, (r.2.sent.drop s.sent.length).map fun send => (send.fd, send.message.flatMap l.bytes))

/-- Any two runs do the same. -/
def LeftoverFree (env : Env) (behind : Bytes) (s : State) (task : Task) : Prop :=
  ∀ l l', outcome env behind s task l = outcome env behind s task l'

/-- The client is let into a room in which there is somebody else than `gone`. -/
def Meets (s : State) (c : Client) (roomid : Int) (gone : Option Addr) : Prop :=
  ∃ (r : Nat) (q : Addr), roomid = r ∧ r < maxRooms ∧ (s.rooms r).enable ≠ 0 ∧ c.roomid ≠ r ∧
    ¬ (c.anonymous = 1 ∧ (s.rooms r).anonymous = 0) ∧ q ∈ (s.rooms r).rClient ∧ gone ≠ some q

/-- The event is answered with a list that has an entry. -/
inductive GetsList (env : Env) (s : State) (p : Addr) (c : Client) (e : Event) : Prop where
  | rooms (ht : e.evType = some evTypeGetRoomList) (hc : c.state = .success) (i : Nat)
      (hi : i ∈ (List.range maxRooms).takeWhile fun i => (s.rooms i).goesOn)
      (hlisted : (s.rooms i).isListed)
  | change (ht : e.evType = some evTypeChangeRoom) (hc : c.state = .success)
      (hmeets : Meets s c e.roomid none)
  | login (ht : e.evType = some evTypeAuth) (hc : c.state ≠ .success) (c' : Client)
      (node : Option Addr) (hpass : authCredentials env s.mytimestamp c e = some (.passed c'))
      (hnode : rivalOf (getFdnodeByname env) env p (s.setClient p (setCharacter c' e)) = some node)
      (hmeets : Meets s (setCharacter c' e) e.roomid node)

/-- The handler of the event reads none of the locals before it writes them: a message has a
body, and a text in `itembuffer` is too short to fill the message before the first entry. -/
structure LeftoversUnread (env : Env) (behind : Bytes) (s : State) (p : Addr) (c : Client)
    (e : Event) : Prop where
  privateBody : e.evType = some evTypePrivateMessage → c.state = .success →
    (e.attr .target).isSome → e.body.isSome
  publicBody : e.evType = some evTypePublicMessage → c.state = .success → e.body.isSome
  lists : tempBufferLength ≤ maxBufferLength + behind.length →
    ¬ GetsList env (s.tick env.now) p c e

/-- The task reads no local before it writes it. -/
def Task.LeavesUnread (task : Task) (env : Env) (behind : Bytes) (s : State) : Prop :=
  ∀ c e, s.heap task.client = some c → task.decode env = .event e →
    LeftoversUnread env behind s task.client c e

/-! ## What is formatted -/

theorem Leftovers.bytes_eq (l l' : Leftovers) (n : Notice) : l.bytes n = l'.bytes n := by
  cases n <;> simp only [bytes, CharArray.text_snprintf_eq]

theorem outcome_eq_iff (l l' : Leftovers) :
    outcome env behind s task l = outcome env behind s task l' ↔
      (parseMessage (getFdnodeByname (env.withLeftovers behind l)) (env.withLeftovers behind l)
        task).run s =
      (parseMessage (getFdnodeByname (env.withLeftovers behind l')) (env.withLeftovers behind l')
        task).run s := by
  have hbytes : l.bytes = l'.bytes := funext (l.bytes_eq l')
  unfold outcome
  rw [hbytes]
  refine (Option.map_injective ?_).eq_iff
  intro r r' h
  exact Prod.ext rfl (Prod.mk.inj h).1

/-! ## Functions that use none of the locals -/

section
variable (env : Env) (body : LocalPtr) (item : Nat)

theorem keyIs_starting : keyIs (env.starting body item) = keyIs env := rfl

theorem fdByName_starting (s : State) (name : Bytes) (ufd : Int) (l : List HashItem) :
    fdByName (env.starting body item) s name ufd l = fdByName env s name ufd l :=
  fdByName_of_keyIs (fun _ => by rw [keyIs_starting]) ufd l

theorem chainFrom_starting (s : State) (key : Bytes) (l : List HashItem) :
    chainFrom (env.starting body item) s key l = chainFrom env s key l :=
  chainFrom_of_keyIs (fun _ => by rw [keyIs_starting]) l

theorem chainDel_starting (s : State) (key : Bytes) (fd : Nat) (l : List HashItem) :
    chainDel (env.starting body item) s key fd l = chainDel env s key fd l :=
  chainDel_of_keyIs (fun _ => by rw [keyIs_starting]) fd l

theorem getFdnodeByname_starting :
    getFdnodeByname (env.starting body item) = getFdnodeByname env := by
  funext s name ufd
  simp only [getFdnodeByname, hashSearch, chainFrom_starting, fdByName_starting]

theorem leaveRoom_starting : leaveRoom (env.starting body item) = leaveRoom env := by
  funext node
  cases node <;> rfl

theorem nodeDel_starting : nodeDel (env.starting body item) = nodeDel env := by
  have hdel : unregisterSection (env.starting body item) = unregisterSection env := by
    funext p s
    simp only [unregisterSection, hashDel, chainDel_starting]
    rfl
  funext node
  cases node with
  | none => rfl
  | some p => simp only [nodeDel, leaveRoom_starting, hdel]

theorem otherSameUsername_starting :
    otherSameUsername (env.starting body item) = otherSameUsername env := by
  have hdisplace : displaceSection (env.starting body item) = displaceSection env := rfl
  funext node
  cases node with
  | none => rfl
  | some p => simp only [otherSameUsername, leaveRoom_starting, hdisplace]

theorem authSection_starting (p : Addr) (fd : Nat) (e : Event) :
    authSection (env.starting body item) p fd e = authSection env p fd e := by
  have hpassword : authPassword (env.starting body item) = authPassword env := rfl
  have hsignature : authSignature (env.starting body item) = authSignature env := rfl
  unfold authSection authCredentials
  rw [hpassword, hsignature]

theorem rivalOf_starting (lookup : Lookup) (p : Addr) :
    rivalOf lookup (env.starting body item) p = rivalOf lookup env p := rfl

theorem gooutEvent_starting (lookup : Lookup) (p : Addr) (fd : Nat) (e : Event) :
    gooutEvent lookup (env.starting body item) p fd e = gooutEvent lookup env p fd e := by
  have hsection : gooutSection lookup (env.starting body item) p fd e =
      gooutSection lookup env p fd e := rfl
  simp only [gooutEvent, hsection, nodeDel_starting]

theorem userlist_starting (s : State) (me : Client) (l : List Addr) (msg : List Notice)
    (last : Nat) :
    userlist (env.starting body item) s me l msg last = userlist env s me l msg last := by
  have hprofile : profileAt (env.starting body item) = profileAt env := rfl
  induction l generalizing msg last with
  | nil => rfl
  | cons q l ih => simp only [userlist, hprofile, ih]

end

/-! ## The first round of a list reply -/

/-- An empty message goes out before the first entry when `itembuffer` seems to fill it. -/
def opened (item : Nat) (msgs : List (List Notice)) : List (List Notice) :=
  if tempBufferLength ≤ item ∧ msgs ≠ [] then [] :: msgs else msgs

theorem opened_nil (item : Nat) : opened item [] = [] := if_neg fun h => h.2 rfl

theorem opened_of_lt {item : Nat} (h : item < tempBufferLength) (msgs : List (List Notice)) :
    opened item msgs = msgs := if_neg fun h' => absurd h'.1 (by omega)

theorem opened_of_le {item : Nat} (h : tempBufferLength ≤ item) {msgs : List (List Notice)}
    (hne : msgs ≠ []) : opened item msgs = [] :: msgs := if_pos ⟨h, hne⟩

theorem msgLength_push_pos {n : Notice} (h : n.text ≠ []) (msg : List Notice) :
    0 < msgLength (msg ++ [n]) := by
  have hpos := List.length_pos_of_ne_nil h
  have hsize : 0 < maxBufferLength - 1 := by decide
  have hlast : msgLength [n] = n.bufferLength := rfl
  rw [msgLength, List.map_append, List.sum_append, ← msgLength, ← msgLength, hlast,
    Notice.bufferLength]
  omega

theorem userAdd_ne_nil (profile : Profile) : (Notice.userAdd profile).text ≠ [] := by
  rw [Notice.text, List.append_assoc]
  exact eventHead_append_ne_nil _ _

theorem roomAdd_ne_nil (roomid : Int) (name : Option Bytes) (num : Int) :
    (Notice.roomAdd roomid name num).text ≠ [] := by
  rw [Notice.text, List.append_assoc, List.append_assoc, List.append_assoc]
  exact eventHead_append_ne_nil _ _

/-- What waits in `msgbuffer` is sent in the end. -/
theorem userlist_ne_nil {me : Client} {l : List Addr} {msg : List Notice} {last : Nat}
    {msgs : List (List Notice)} (hmsg : 0 < msgLength msg)
    (h : userlist env s me l msg last = some msgs) : msgs ≠ [] := by
  induction l generalizing msg last msgs with
  | nil =>
    simp only [userlist, if_pos hmsg, Option.some.injEq] at h
    simp [← h]
  | cons q l ih =>
    obtain ⟨cur, -, h⟩ := Option.bind_eq_some_iff.mp h
    split at h
    · obtain ⟨profile, -, h⟩ := Option.bind_eq_some_iff.mp h
      dsimp only at h
      split at h
      · obtain ⟨rest, -, rfl⟩ := Option.map_eq_some_iff.mp h
        exact List.cons_ne_nil _ _
      · exact ih (msgLength_push_pos (userAdd_ne_nil profile) msg) h
    · exact ih hmsg h

theorem userlist_opened (me : Client) (l : List Addr) (item : Nat) :
    userlist env s me l [] item = (userlist env s me l [] 0).map (opened item) := by
  have hlength : msgLength [] = 0 := rfl
  have hempty : ¬ tempBufferLength ≤ 0 := by decide
  induction l with
  | nil => simp [userlist, hlength, opened_nil]
  | cons q l ih =>
    simp only [userlist]
    cases s.heap q with
    | none => rfl
    | some cur =>
      simp only [Option.bind_some]
      split
      · cases profileAt env s q with
        | none => rfl
        | some profile =>
          simp only [Option.bind_some, hlength, hempty, if_false, Nat.zero_add, List.nil_append]
          cases hrest : userlist env s me l [.userAdd profile]
            (Notice.userAdd profile).bufferLength with
          | none => split <;> rfl
          | some msgs =>
            have hne := userlist_ne_nil (msgLength_push_pos (userAdd_ne_nil profile) []) hrest
            simp only [Option.map_some, opened, hne, ne_eq, not_false_eq_true, and_true]
            split <;> rfl
      · exact ih

/-- A list has messages when somebody else in it is authenticated. -/
theorem userlist_ne_nil_of_mem {me : Client} {l : List Addr} {msg : List Notice} {last : Nat}
    {msgs : List (List Notice)} (hq : q ∈ l) (hd : s.heap q = some d) (hfd : d.fd ≠ me.fd)
    (hstate : d.state = .success) (h : userlist env s me l msg last = some msgs) : msgs ≠ [] := by
  induction l generalizing msg last msgs with
  | nil => cases hq
  | cons x l ih =>
    obtain ⟨cur, hcur, h⟩ := Option.bind_eq_some_iff.mp h
    split at h
    · obtain ⟨profile, -, h⟩ := Option.bind_eq_some_iff.mp h
      dsimp only at h
      split at h
      · obtain ⟨rest, -, rfl⟩ := Option.map_eq_some_iff.mp h
        exact List.cons_ne_nil _ _
      · exact userlist_ne_nil (msgLength_push_pos (userAdd_ne_nil profile) msg) h
    · rename_i hnot
      rcases List.mem_cons.mp hq with rfl | hq
      · cases hd.symm.trans hcur
        exact absurd ⟨hfd, hstate⟩ hnot
      · exact ih hq h

/-- A room with nobody else in it gives no list. -/
theorem userlist_alone {me : Client} (hp : s.heap p = some c) (hfd : c.fd = me.fd) :
    userlist env s me [p] [] 0 = some [] := by
  have hempty : ¬ 0 < msgLength [] := by decide
  have hnot : ¬ (c.fd ≠ me.fd ∧ c.state = .success) := fun h => h.1 hfd
  simp only [userlist, hp, Option.bind_some, if_neg hnot, if_neg hempty]

theorem roomlist_ne_nil (s : State) (rooms : List Nat) {msg : List Notice} {last : Nat}
    (hmsg : 0 < msgLength msg) : roomlist s rooms msg last ≠ [] := by
  induction rooms generalizing msg last with
  | nil => simp [roomlist, hmsg]
  | cons i rooms ih =>
    simp only [roomlist]
    split
    · split
      · exact List.cons_ne_nil _ _
      · exact ih (msgLength_push_pos (roomAdd_ne_nil _ _ _) msg)
    · split
      · simp
      · exact ih hmsg

theorem roomlist_opened (rooms : List Nat) (item : Nat) :
    roomlist s rooms [] item = opened item (roomlist s rooms [] 0) := by
  have hlength : msgLength [] = 0 := rfl
  have hempty : ¬ tempBufferLength ≤ 0 := by decide
  induction rooms with
  | nil => simp [roomlist, hlength, opened_nil]
  | cons i rooms ih =>
    simp only [roomlist]
    split
    · simp only [hlength, hempty, if_false, Nat.zero_add, List.nil_append]
      have hne : roomlist s rooms ([] ++ [Notice.roomAdd i (s.rooms i).name (s.rooms i).num])
          (Notice.roomAdd i (s.rooms i).name (s.rooms i).num).bufferLength ≠ [] :=
        roomlist_ne_nil s rooms (msgLength_push_pos (roomAdd_ne_nil i _ _) [])
      simp only [opened, List.nil_append] at hne ⊢
      simp only [hne, ne_eq, not_false_eq_true, and_true]
    · split
      · simp [hlength, opened_nil]
      · exact ih

theorem roomlist_eq_nil_iff (rooms : List Nat) :
    roomlist s rooms [] 0 = [] ↔
      roomEntries s (rooms.takeWhile fun i => (s.rooms i).goesOn) = [] := by
  induction rooms with
  | nil => simp [roomlist, roomEntries, msgLength]
  | cons i rooms ih =>
    by_cases hlisted : (s.rooms i).isListed
    · have hgoes : (s.rooms i).goesOn = true := by rw [Room.goesOn, hlisted, Bool.true_or]
      have hopen := of_decide_eq_true hlisted
      have hempty : ¬ tempBufferLength ≤ msgLength [] + 0 := by decide
      simp only [roomlist, if_pos hopen, if_neg hempty, List.nil_append, List.takeWhile_cons, hgoes,
        if_true, roomEntries, List.filter_cons, hlisted, List.map_cons, reduceCtorEq, iff_false]
      exact roomlist_ne_nil s _ (msgLength_push_pos (roomAdd_ne_nil _ _ _) [])
    · have hclosed : ¬ ((s.rooms i).enable = 1 ∧ (s.rooms i).visable = 1) := fun h =>
        hlisted (decide_eq_true h)
      have hroom : (s.rooms i).isListed = false := by simpa using hlisted
      simp only [roomlist, if_neg hclosed, List.takeWhile_cons, Room.goesOn, hroom, Bool.false_or]
      cases hname : (s.rooms i).name with
      | none => simp [msgLength, roomEntries]
      | some name =>
        simp only [reduceCtorEq, if_false, Option.isSome_some, if_true, ih, roomEntries,
          List.filter_cons, hroom, Bool.false_eq_true]
        rfl

/-- Two runs start a list reply alike when both find `itembuffer` short, or when there is nobody
to list. -/
def Alike (item item' : Nat) (empty : Prop) : Prop :=
  (item < tempBufferLength ∧ item' < tempBufferLength) ∨ empty

theorem sendUserlist_starting (env : Env) (body : LocalPtr) (item : Nat) (hp : s.heap p = some c)
    {r : Nat} (hroom : c.roomid = r) (hr : r < maxRooms) :
    sendUserlist (env.starting body item) p s =
      if (s.rooms r).enable ≠ 0 then
        (userlist env s c (s.rooms r).rClient [] 0).map fun msgs =>
          s.post ((opened item msgs).map fun m => ⟨c.fd, m⟩)
      else some s := by
  have hitem : (env.starting body item).itembuffer = item := rfl
  simp only [sendUserlist, hp, hroom, Option.bind_some, State.room?_natCast hr, hitem,
    userlist_starting, userlist_opened _ _ item, Option.map_map]
  rfl

theorem sendUserlist_alike {body body' : LocalPtr} {item item' : Nat} (hp : s.heap p = some c)
    {r : Nat} (hroom : c.roomid = r) (hr : r < maxRooms)
    (h : Alike item item' ((s.rooms r).rClient = [p])) :
    sendUserlist (env.starting body item) p s = sendUserlist (env.starting body' item') p s := by
  rw [sendUserlist_starting env body item hp hroom hr,
    sendUserlist_starting env body' item' hp hroom hr]
  rcases h with ⟨h, h'⟩ | halone
  · simp only [opened_of_lt h, opened_of_lt h']
  · simp only [halone, userlist_alone hp rfl, Option.map_some, opened_nil]

theorem sendRoomlist_alike {body body' : LocalPtr} {item item' : Nat}
    (h : Alike item item' (roomlist s (List.range maxRooms) [] 0 = [])) :
    sendRoomlist (env.starting body item) p s = sendRoomlist (env.starting body' item') p s := by
  have hopened : opened item (roomlist s (List.range maxRooms) [] 0) =
      opened item' (roomlist s (List.range maxRooms) [] 0) := by
    rcases h with ⟨h, h'⟩ | hnone
    · rw [opened_of_lt h, opened_of_lt h']
    · rw [hnone, opened_nil, opened_nil]
  have hitem : (env.starting body item).itembuffer = item := rfl
  have hitem' : (env.starting body' item').itembuffer = item' := rfl
  rw [sendRoomlist, sendRoomlist, hitem, hitem', roomlist_opened _ item, hopened,
    ← roomlist_opened]

/-! ## Rooms -/

/-- The state in which `join_room` tells the others. -/
def State.joined (s : State) (p : Addr) (c : Client) (r : Nat) : State :=
  (s.enter p c r).sendMessage c.fd (.changeRoom r (s.rooms r).name)

theorem joinSection_eq (hp : s.heap p = some c) {r : Nat} (hr : r < maxRooms)
    (hen : (s.rooms r).enable ≠ 0) :
    joinSection env p r s =
      (profileAt env (s.joined p c r) p).bind fun profile =>
        (sendMessageAll (s.joined p c r) c.fd (.userLogin profile)).bind
          (sendUserlist env p) := by
  simp only [joinSection, State.room?_natCast hr, hp, Option.bind_some, Int.toNat_natCast,
    if_pos hen]
  rfl

theorem joined_heap (s : State) (p : Addr) (c : Client) (r : Nat) :
    (s.joined p c r).heap p = some { c with roomid := r } := Function.update_self ..

theorem joined_rClient (s : State) (p : Addr) (c : Client) (r : Nat) :
    ((s.joined p c r).rooms r).rClient = (s.rooms r).rClient ++ [p] := by
  have hrooms : (s.joined p c r).rooms = (s.enter p c r).rooms := rfl
  rw [hrooms, State.enter_rooms, if_pos rfl]
  rfl

theorem joinSection_alike {body body' : LocalPtr} {item item' : Nat} (hp : s.heap p = some c)
    {r : Nat} (hr : r < maxRooms) (hen : (s.rooms r).enable ≠ 0)
    (h : Alike item item' ((s.rooms r).rClient = [])) :
    joinSection (env.starting body item) p r s = joinSection (env.starting body' item') p r s := by
  have hprofile : ∀ body item, profileAt (env.starting body item) = profileAt env :=
    fun _ _ => rfl
  rw [joinSection_eq hp hr hen, joinSection_eq hp hr hen, hprofile, hprofile]
  cases profileAt env (s.joined p c r) p with
  | none => rfl
  | some profile =>
    rw [Option.bind_some, Option.bind_some]
    cases hall : sendMessageAll (s.joined p c r) c.fd (.userLogin profile) with
    | none => rfl
    | some t =>
      obtain ⟨l, rfl, -⟩ := sendMessageAll_post hall
      refine sendUserlist_alike (joined_heap s p c r) rfl hr (h.imp_right fun hnone => ?_)
      rw [State.post_rooms, joined_rClient, hnone, List.nil_append]

/-- With somebody in the room, the list that a newcomer gets has messages. -/
theorem joinSection_lists (hs : Sound s) (henv : env.Legible) (hp : s.heap p = some c) {r : Nat}
    (hr : r < maxRooms) (hen : (s.rooms r).enable ≠ 0) (hroom : c.roomid ≠ r)
    (hq : q ∈ (s.rooms r).rClient) :
    ∃ t msgs, msgs ≠ [] ∧ ∀ body item, joinSection (env.starting body item) p r s =
      some (State.post t ((opened item msgs).map fun m => ⟨c.fd, m⟩)) := by
  have hu := joined_heap s p c r
  have hpop : (s.joined p c r).Populated := (hs.populated.enter c r).post _
  obtain ⟨profile, hprofile⟩ := profileAt_total henv hu
  obtain ⟨l, hl⟩ := sendMessageAll_total hpop c.fd (.userLogin profile)
  obtain ⟨msgs, hmsgs⟩ := userlist_total henv { c with roomid := (r : Int) }
    ((hpop.post l).member r) [] 0
  obtain ⟨d, hd, hdroom, hdstate⟩ := hs.member_success hq
  have hqp : q ≠ p := by
    rintro rfl
    cases hp.symm.trans hd
    exact hroom hdroom
  have hdu : ((s.joined p c r).post l).heap q = some d := (Function.update_of_ne hqp ..).trans hd
  have hmem : q ∈ (((s.joined p c r).post l).rooms r).rClient := by
    rw [State.post_rooms, joined_rClient]
    exact List.mem_append_left _ hq
  have hfd : d.fd ≠ ({ c with roomid := (r : Int) } : Client).fd :=
    fun h => hqp (hs.eq_of_fd hd hp h)
  refine ⟨(s.joined p c r).post l, msgs, userlist_ne_nil_of_mem hmem hdu hfd hdstate hmsgs, ?_⟩
  intro body item
  have hprofile' : profileAt (env.starting body item) (s.joined p c r) p = some profile := hprofile
  have hpost : ((s.joined p c r).post l).heap p = some { c with roomid := (r : Int) } := hu
  have hopen : (((s.joined p c r).post l).rooms r).enable ≠ 0 := by
    have hrooms : ((s.joined p c r).post l).rooms = (s.enter p c r).rooms := rfl
    rw [hrooms, State.enter_rooms, if_pos rfl]
    exact hen
  rw [joinSection_eq hp hr hen, hprofile', Option.bind_some, hl, Option.bind_some,
    sendUserlist_starting env body item hpost rfl hr, if_pos hopen, hmsgs, Option.map_some]

theorem joinCheck_enters (hs : Sound s) (hp : s.heap p = some c) {roomid : Int}
    {start : JoinStart} (h : joinCheck p roomid s = some (start, t)) (hstart : start ≠ .refused) :
    t = s ∧ ∃ r : Nat, roomid = r ∧ r < maxRooms ∧ (s.rooms r).enable ≠ 0 ∧ c.roomid ≠ r ∧
      ¬ (c.anonymous = 1 ∧ (s.rooms r).anonymous = 0) := by
  rcases joinCheck_cases hs hp h with ⟨hrefused, -⟩ | ⟨r, rfl, hr, hen, hne, rfl, -⟩
  · exact absurd hrefused hstart
  · refine ⟨rfl, r, rfl, hr, hen, hne, fun hguest => ?_⟩
    have hrange : ¬ ((maxRooms : Int) < r ∨ (r : Int) < 0) := by omega
    have hopen : ¬ ((t.rooms r).enable = 0 ∨ c.roomid = r) := not_or.mpr ⟨hen, hne⟩
    simp only [joinCheck, if_neg hrange, State.room?_natCast hr, hp, Option.bind_some,
      Option.map_some, if_neg hopen, if_pos hguest, Option.some.injEq, Prod.mk.injEq] at h
    exact hstart h.1.symm

theorem joinCheck_of_enters (hp : s.heap p = some c) {r : Nat} (hr : r < maxRooms)
    (hen : (s.rooms r).enable ≠ 0) (hne : c.roomid ≠ r)
    (hguest : ¬ (c.anonymous = 1 ∧ (s.rooms r).anonymous = 0)) :
    joinCheck p r s = some (if 0 ≤ c.roomid then .leaveFirst else .enter, s) := by
  have hrange : ¬ ((maxRooms : Int) < r ∨ (r : Int) < 0) := by omega
  have hopen : ¬ ((s.rooms r).enable = 0 ∨ c.roomid = r) := not_or.mpr ⟨hen, hne⟩
  simp only [joinCheck, if_neg hrange, State.room?_natCast hr, hp, Option.bind_some,
    Option.map_some, if_neg hopen, if_neg hguest]
  split <;> rfl

/-- Another room keeps its members when the client leaves its own. -/
theorem vacate_rClient {r : Nat} (hne : c.roomid ≠ r) (l : List Send) :
    ((s.vacate p c).post l).rooms r = s.rooms r := by
  rw [State.post_rooms, State.vacate_rooms, if_neg hne]

theorem joinRoom_alike {body body' : LocalPtr} {item item' : Nat} (hs : Sound s)
    (hp : s.heap p = some c) {roomid : Int} (h : Alike item item' (¬ Meets s c roomid none)) :
    (joinRoom (env.starting body item) (some p) roomid).run s =
      (joinRoom (env.starting body' item') (some p) roomid).run s := by
  refine Proc.run_bind_congr rfl ?_
  intro start t hcheck
  have henters := joinCheck_enters hs hp (Proc.run_step_eq_some.mp hcheck)
  cases start with
  | refused => rfl
  | leaveFirst =>
    obtain ⟨rfl, r, rfl, hr, hen, hne, hguest⟩ := henters nofun
    simp only [leaveRoom_starting]
    refine Proc.run_bind_congr rfl ?_
    intro x u hleave
    obtain ⟨l, -, rfl⟩ := leaveRoom_effect hs hp hleave
    have hrooms := vacate_rClient (s := t) (p := p) hne l
    have hvac : ((t.vacate p c).post l).heap p = some { c with roomid := -1 } :=
      hs.vacate_heap_self hp
    refine Proc.run_bind_congr ?_ fun _ _ _ => rfl
    rw [Proc.run_modify, Proc.run_modify]
    refine congrArg _ (joinSection_alike hvac hr (hrooms ▸ hen) ?_)
    refine h.imp_right fun hnone => ?_
    rw [hrooms, List.eq_nil_iff_forall_not_mem]
    exact fun q hq => hnone ⟨r, q, rfl, hr, hen, hne, hguest, hq, nofun⟩
  | enter =>
    obtain ⟨rfl, r, rfl, hr, hen, hne, hguest⟩ := henters nofun
    refine Proc.run_bind_congr ?_ fun _ _ _ => rfl
    rw [Proc.run_modify, Proc.run_modify]
    refine congrArg _ (joinSection_alike hp hr hen ?_)
    refine h.imp_right fun hnone => ?_
    rw [List.eq_nil_iff_forall_not_mem]
    exact fun q hq => hnone ⟨r, q, rfl, hr, hen, hne, hguest, hq, nofun⟩

/-- Somebody who is met is listed, in the last messages of the run. -/
theorem joinRoom_lists (hs : Sound s) (henv : env.Legible) (hp : s.heap p = some c) {roomid : Int}
    (hmeets : Meets s c roomid none) :
    ∃ t msgs, msgs ≠ [] ∧ ∀ body item, ∃ x,
      (joinRoom (env.starting body item) (some p) roomid).run s =
        some (x, State.post t ((opened item msgs).map fun m => ⟨c.fd, m⟩)) := by
  obtain ⟨r, q, rfl, hr, hen, hne, hguest, hq, -⟩ := hmeets
  have hcheck := joinCheck_of_enters hp hr hen hne hguest
  by_cases hin : 0 ≤ c.roomid
  · rw [if_pos hin] at hcheck
    obtain ⟨⟨x, u⟩, hleave⟩ := leaveRoom_ends hs hp henv.readable
    obtain ⟨l, -, rfl⟩ := leaveRoom_effect hs hp hleave
    have hrooms := vacate_rClient (s := s) (p := p) hne l
    have hout : ({ c with roomid := -1 } : Client).roomid ≠ r := by
      intro h
      have : (-1 : Int) = r := h
      omega
    have hvac : ((s.vacate p c).post l).heap p = some { c with roomid := -1 } :=
      hs.vacate_heap_self hp
    obtain ⟨t, msgs, hmsgs, hjoin⟩ := joinSection_lists ((hs.vacate hp).post l) henv hvac hr
      (hrooms ▸ hen) hout (hrooms ▸ hq)
    refine ⟨t, msgs, hmsgs, fun body item => ⟨returnSuccess, ?_⟩⟩
    simp only [joinRoom, Proc.run_bind, Proc.run_step, hcheck, Option.bind_some,
      leaveRoom_starting, hleave, Proc.run_modify, hjoin, Option.map_some]
    rfl
  · rw [if_neg hin] at hcheck
    obtain ⟨t, msgs, hmsgs, hjoin⟩ := joinSection_lists hs henv hp hr hen hne hq
    refine ⟨t, msgs, hmsgs, fun body item => ⟨returnSuccess, ?_⟩⟩
    simp only [joinRoom, Proc.run_bind, Proc.run_step, hcheck, Option.bind_some, Proc.run_modify,
      hjoin, Option.map_some]
    rfl

/-! ## Login -/

/-- A displaced session is gone from its room, and nothing else changes in the rooms. -/
theorem RivalEffect.rooms (hs : Sound s) {node : Option Addr} (h : RivalEffect env node s t)
    (r : Nat) :
    (t.rooms r).enable = (s.rooms r).enable ∧ (t.rooms r).anonymous = (s.rooms r).anonymous ∧
      ∀ q, q ∈ (t.rooms r).rClient ↔ q ∈ (s.rooms r).rClient ∧ node ≠ some q := by
  rcases h with ⟨rfl, rfl⟩ | ⟨x, d, rfl, hx, ⟨hd, rfl⟩ | ⟨-, l, -, rfl⟩⟩
  · simp
  · refine ⟨rfl, rfl, fun q => ⟨fun hq => ⟨hq, ?_⟩, fun h => h.1⟩⟩
    intro hxq
    obtain ⟨e, he, -, hstate⟩ := hs.member_success hq
    cases hxq
    cases hx.symm.trans he
    exact hd hstate
  · rw [State.post_rooms, State.setClient_rooms, State.vacate_rooms]
    split
    · refine ⟨rfl, rfl, fun q => ?_⟩
      rw [Room.without, (hs.nodup r).mem_erase_iff, and_comm, Ne, Ne, Option.some_inj, eq_comm]
    · rename_i hr
      refine ⟨rfl, rfl, fun q => ⟨fun hq => ⟨hq, ?_⟩, fun h => h.1⟩⟩
      intro hxq
      cases hxq
      obtain ⟨e, he, hroom, -⟩ := hs.member_success hq
      cases hx.symm.trans he
      exact hr hroom

/-- Whom a login meets is in the room from the start and not displaced by it. -/
theorem RivalEffect.meets_iff (hs : Sound s) {node : Option Addr} (h : RivalEffect env node s t)
    (d : Client) (name : Bytes) (role : Int) (l : List Send) (roomid : Int) :
    Meets ((t.login p d name role).post l) (d.loggedIn role) roomid none ↔
      Meets s d roomid node := by
  refine exists_congr fun r => exists_congr fun q => ?_
  obtain ⟨henable, hanonymous, hmember⟩ := h.rooms hs r
  have hrooms : ((t.login p d name role).post l).rooms r = t.rooms r := rfl
  have hnone : (none : Option Addr) ≠ some q := nofun
  rw [hrooms, henable, hanonymous, hmember]
  simp only [hnone, ne_eq, not_false_eq_true, and_true]
  rfl

/-- A login up to the room, whatever the locals hold. -/
theorem authEvent_run (fd : Nat) (hs : Sound s) (hsize : 0 < s.hashSize) (hp : s.heap p = some c)
    (hc : c.state ≠ .success) {c' : Client}
    (hpass : authCredentials env s.mytimestamp c e = some (.passed c')) {node : Option Addr}
    (hnode : rivalOf lookup env p (s.setClient p (setCharacter c' e)) = some node)
    (hrival : RivalEffect env node (s.setClient p (setCharacter c' e)) t)
    (hother : (otherSameUsername env node).run (s.setClient p (setCharacter c' e)) =
      some ((), t)) :
    ∃ name, ∀ body item, (authEvent lookup (env.starting body item) p fd e c.state).run s =
      ((joinRoom (env.starting body item) (some p) e.roomid).run
        ((t.login p (setCharacter c' e) name (luaGetuserrole env name)).sendMessage fd
          (.authSuccess name (luaGetuserrole env name)))).map fun r => ((), r.2) := by
  have hsection : authSection env p fd e s = some (true, s.setClient p (setCharacter c' e)) := by
    simp only [authSection, hp, Option.bind_some, hpass, Option.map_some]
  obtain ⟨-, hpt⟩ := hrival.waiting hs hp hc (passed_sameSession hpass rfl)
  have hp₁ : (s.setClient p (setCharacter c' e)).heap p = some (setCharacter c' e) :=
    Function.update_self ..
  have hrivalOf := hnode
  simp only [rivalOf, hp₁, Option.bind_some] at hrivalOf
  obtain ⟨name, hname, -⟩ := Option.bind_eq_some_iff.mp hrivalOf
  refine ⟨name, fun body item => ?_⟩
  have hsize' : 0 < t.hashSize := by
    rw [hrival.frame.2]
    exact hsize
  have heffect := takeEffect_run (env.starting body item) fd hsize' hpt hname e.roomid
  simp only [authEvent, if_neg hc, authSection_starting, rivalOf_starting,
    otherSameUsername_starting, Proc.run_bind, Proc.run_step, hsection, Option.bind_some, if_true,
    Proc.run_read, hnode, Option.map_some, hother]
  simp only [Proc.run_bind] at heffect
  exact heffect

/-- The rival that a login finds has a record. -/
theorem rivalOf_record (hs : Sound s) (hp : s.heap p = some c) {node : Option Addr}
    (h : rivalOf (getFdnodeByname env) env p s = some node) :
    ∀ q, node = some q → ∃ d, s.heap q = some d := by
  rintro q rfl
  simp only [rivalOf, hp, Option.bind_some] at h
  obtain ⟨name, -, h⟩ := Option.bind_eq_some_iff.mp h
  obtain ⟨k, hk⟩ := getFdnodeByname_registered env _ _ _ _ h
  exact hs.populated.registered k q hk

theorem authEvent_alike {body body' : LocalPtr} {item item' : Nat} (hs : Sound s)
    (hsize : 0 < s.hashSize) (hp : s.heap p = some c)
    (h : Alike item item' (c.state ≠ .success → ∀ c' node,
      authCredentials env s.mytimestamp c e = some (.passed c') →
      rivalOf (getFdnodeByname env) env p (s.setClient p (setCharacter c' e)) = some node →
      ¬ Meets s (setCharacter c' e) e.roomid node)) :
    (authEvent (getFdnodeByname env) (env.starting body item) p fd e c.state).run s =
      (authEvent (getFdnodeByname env) (env.starting body' item') p fd e c.state).run s := by
  by_cases hc : c.state = .success
  · simp only [authEvent, if_pos hc]
  simp only [authEvent, if_neg hc, authSection_starting, rivalOf_starting,
    otherSameUsername_starting]
  refine Proc.run_bind_congr rfl ?_
  intro passed u hsection
  cases passed with
  | false => simp only [Bool.false_eq_true, if_false]
  | true =>
    obtain ⟨c', hpass, rfl⟩ := authSection_passed hp (Proc.run_step_eq_some.mp hsection)
    have hs₁ : Sound (s.setClient p (setCharacter c' e)) :=
      hs.setWaiting hp hc (passed_sameSession hpass rfl)
    have hp₁ : (s.setClient p (setCharacter c' e)).heap p = some (setCharacter c' e) :=
      Function.update_self ..
    refine Proc.run_bind_congr rfl ?_
    intro node u hread
    obtain ⟨hnode, rfl⟩ := Proc.run_read_eq_some.mp hread
    refine Proc.run_bind_congr rfl ?_
    intro _ t hother
    have hrival := otherSameUsername_rival hs₁ (rivalOf_record hs₁ hp₁ hnode) hother
    obtain ⟨hst, hpt⟩ := hrival.waiting hs hp hc (passed_sameSession hpass rfl)
    have hrivalOf := hnode
    simp only [rivalOf, hp₁, Option.bind_some] at hrivalOf
    obtain ⟨name, hname, -⟩ := Option.bind_eq_some_iff.mp hrivalOf
    have hsize' : 0 < t.hashSize := by
      rw [hrival.frame.2]
      exact hsize
    have heffect := takeEffect_run (env.starting body item) fd hsize' hpt hname e.roomid
    have heffect' := takeEffect_run (env.starting body' item') fd hsize' hpt hname e.roomid
    have hrole : ∀ body item, luaGetuserrole (env.starting body item) name =
      luaGetuserrole env name := fun _ _ => rfl
    rw [hrole] at heffect heffect'
    refine heffect.trans (Eq.trans ?_ heffect'.symm)
    refine congrArg _ (joinRoom_alike ((hst.login hpt name _).post _) (Function.update_self ..) ?_)
    refine h.imp_right fun hnone hmeets => ?_
    exact hnone hc c' node hpass hnode ((hrival.meets_iff hs₁ _ _ _ _ _).mp hmeets)

theorem authEvent_lists (hs : Sound s) (henv : env.Legible) (hsize : 0 < s.hashSize)
    (hp : s.heap p = some c) (hc : c.state ≠ .success) {c' : Client}
    (hpass : authCredentials env s.mytimestamp c e = some (.passed c')) {node : Option Addr}
    (hnode : rivalOf (getFdnodeByname env) env p (s.setClient p (setCharacter c' e)) = some node)
    (hmeets : Meets s (setCharacter c' e) e.roomid node) :
    ∃ t k msgs, msgs ≠ [] ∧ ∀ body item,
      (authEvent (getFdnodeByname env) (env.starting body item) p fd e c.state).run s =
        some ((), State.post t ((opened item msgs).map fun m => ⟨k, m⟩)) := by
  have hs₁ : Sound (s.setClient p (setCharacter c' e)) :=
    hs.setWaiting hp hc (passed_sameSession hpass rfl)
  have hp₁ : (s.setClient p (setCharacter c' e)).heap p = some (setCharacter c' e) :=
    Function.update_self ..
  have hrecord := rivalOf_record hs₁ hp₁ hnode
  obtain ⟨⟨_, t⟩, hother⟩ := otherSameUsername_ends hs₁ henv hrecord
  have hrival := otherSameUsername_rival hs₁ hrecord hother
  obtain ⟨hst, hpt⟩ := hrival.waiting hs hp hc (passed_sameSession hpass rfl)
  obtain ⟨name, hrun⟩ := authEvent_run fd hs hsize hp hc hpass hnode hrival hother
  obtain ⟨u, msgs, hmsgs, hjoin⟩ := joinRoom_lists ((hst.login hpt name _).post _) henv
    (Function.update_self ..) ((hrival.meets_iff hs₁ _ name _ _ _).mpr hmeets)
  refine ⟨u, (setCharacter c' e).fd, msgs, hmsgs, fun body item => ?_⟩
  obtain ⟨x, hx⟩ := hjoin body item
  rw [hrun body item]
  exact congrArg _ hx

/-! ## The chain of handlers -/

/-- Two runs handle an event alike when they find the same body, as far as it is asked for, and
start a list reply alike. -/
theorem handleEvent_alike {body body' : LocalPtr} {item item' : Nat} {evType : Int} (hs : Sound s)
    (hsize : 0 < s.hashSize) (hp : s.heap p = some c) (ht : e.evType = some evType)
    (hprivate : evType = evTypePrivateMessage → c.state = .success → (e.attr .target).isSome →
      e.localBody (env.starting body item) = e.localBody (env.starting body' item'))
    (hpublic : evType = evTypePublicMessage → c.state = .success →
      e.localBody (env.starting body item) = e.localBody (env.starting body' item'))
    (h : Alike item item' (¬ GetsList env s p c e)) :
    (handleEvent (getFdnodeByname env) (env.starting body item) p fd e evType c.state).run s =
      (handleEvent (getFdnodeByname env) (env.starting body' item') p fd e evType
        c.state).run s := by
  unfold handleEvent
  by_cases hAuth : evType = evTypeAuth
  · rw [if_pos hAuth, if_pos hAuth]
    refine authEvent_alike hs hsize hp (h.imp_right fun hnone hc c' node hpass hnode hmeets => ?_)
    exact hnone (.login (hAuth ▸ ht) hc c' node hpass hnode hmeets)
  rw [if_neg hAuth, if_neg hAuth]
  by_cases hState : evType = evTypeUserChangeState ∧ c.state = .success
  · rw [if_pos hState, if_pos hState]
    rfl
  rw [if_neg hState, if_neg hState]
  by_cases hChar : evType = evTypeChangeCharacter ∧ c.state = .success
  · rw [if_pos hChar, if_pos hChar]
    rfl
  rw [if_neg hChar, if_neg hChar]
  have hsame : (evType = evTypePrivateMessage ∧ c.state = .success ∧ (e.attr .target).isSome ∧
      (e.localBody (env.starting body item)).isNull = false) ↔
      (evType = evTypePrivateMessage ∧ c.state = .success ∧ (e.attr .target).isSome ∧
        (e.localBody (env.starting body' item')).isNull = false) :=
    and_congr_right fun hn => and_congr_right fun hc => and_congr_right fun htarget => by
      rw [hprivate hn hc htarget]
  by_cases hPrivate : evType = evTypePrivateMessage ∧ c.state = .success ∧
      (e.attr .target).isSome ∧ (e.localBody (env.starting body item)).isNull = false
  · rw [if_pos hPrivate, if_pos (hsame.mp hPrivate),
      hprivate hPrivate.1 hPrivate.2.1 hPrivate.2.2.1]
    rfl
  rw [if_neg hPrivate, if_neg (mt hsame.mpr hPrivate)]
  have hsame : (evType = evTypePublicMessage ∧ c.state = .success ∧
      (e.localBody (env.starting body item)).isNull = false) ↔
      (evType = evTypePublicMessage ∧ c.state = .success ∧
        (e.localBody (env.starting body' item')).isNull = false) :=
    and_congr_right fun hn => and_congr_right fun hc => by rw [hpublic hn hc]
  by_cases hPublic : evType = evTypePublicMessage ∧ c.state = .success ∧
      (e.localBody (env.starting body item)).isNull = false
  · rw [if_pos hPublic, if_pos (hsame.mp hPublic), hpublic hPublic.1 hPublic.2.1]
    rfl
  rw [if_neg hPublic, if_neg (mt hsame.mpr hPublic)]
  by_cases hRoom : evType = evTypeChangeRoom ∧ c.state = .success
  · rw [if_pos hRoom, if_pos hRoom]
    refine Proc.run_bind_congr rfl ?_
    intro current t hread
    obtain ⟨-, rfl⟩ := Proc.run_read_eq_some.mp hread
    split
    · refine Proc.run_bind_congr (joinRoom_alike hs hp ?_) fun _ _ _ => rfl
      exact h.imp_right fun hnone hmeets => hnone (.change (hRoom.1 ▸ ht) hRoom.2 hmeets)
    · rfl
  rw [if_neg hRoom, if_neg hRoom]
  by_cases hList : evType = evTypeGetRoomList ∧ c.state = .success
  · rw [if_pos hList, if_pos hList, Proc.run_modify, Proc.run_modify]
    refine congrArg _ (sendRoomlist_alike (h.imp_right fun hnone => ?_))
    rw [roomlist_eq_nil_iff, roomEntries_eq_nil]
    intro i hi
    rw [← Bool.not_eq_true]
    exact fun hlisted => hnone (.rooms (hList.1 ▸ ht) hList.2 i hi hlisted)
  rw [if_neg hList, if_neg hList]
  by_cases hLeave : evType = evTypeLeaveRoom ∧ c.state = .success
  · rw [if_pos hLeave, if_pos hLeave, leaveRoomEvent, leaveRoomEvent, leaveRoom_starting,
      leaveRoom_starting]
  rw [if_neg hLeave, if_neg hLeave]
  by_cases hGoout : evType = evTypeAdminCommandGoout ∧ c.state = .success
  · rw [if_pos hGoout, if_pos hGoout, gooutEvent_starting, gooutEvent_starting]
  rw [if_neg hGoout, if_neg hGoout]
  rfl

/-- An event that gets a list with an entry shows what `itembuffer` held. -/
theorem GetsList.handled {evType : Int} (hlist : GetsList env s p c e) (fd : Nat) (hs : Sound s)
    (henv : env.Legible) (hsize : 0 < s.hashSize) (hp : s.heap p = some c)
    (ht : e.evType = some evType) :
    ∃ t k msgs, msgs ≠ [] ∧ ∀ body item,
      (handleEvent (getFdnodeByname env) (env.starting body item) p fd e evType c.state).run s =
        some ((), State.post t ((opened item msgs).map fun m => ⟨k, m⟩)) := by
  cases hlist with
  | rooms ht' hc i hi hlisted =>
    cases ht.symm.trans ht'
    have hne : roomlist s (List.range maxRooms) [] 0 ≠ [] := by
      rw [Ne, roomlist_eq_nil_iff, roomEntries_eq_nil]
      intro hnone
      rw [hnone i hi] at hlisted
      cases hlisted
    refine ⟨s, c.fd, _, hne, fun body item => ?_⟩
    have hitem : (env.starting body item).itembuffer = item := rfl
    rw [handleEvent, if_neg (by decide), if_neg (fun h => absurd h.1 (by decide)),
      if_neg (fun h => absurd h.1 (by decide)), if_neg (fun h => absurd h.1 (by decide)),
      if_neg (fun h => absurd h.1 (by decide)), if_neg (fun h => absurd h.1 (by decide)),
      if_pos ⟨rfl, hc⟩, Proc.run_modify, sendRoomlist, hp, hitem, ← roomlist_opened]
    rfl
  | change ht' hc hmeets =>
    cases ht.symm.trans ht'
    obtain ⟨r, -, hroom, -, -, hne, -⟩ := id hmeets
    obtain ⟨t, msgs, hmsgs, hjoin⟩ := joinRoom_lists hs henv hp hmeets
    refine ⟨t, c.fd, msgs, hmsgs, fun body item => ?_⟩
    obtain ⟨x, hx⟩ := hjoin body item
    rw [handleEvent, if_neg (by decide), if_neg (fun h => absurd h.1 (by decide)),
      if_neg (fun h => absurd h.1 (by decide)), if_neg (fun h => absurd h.1 (by decide)),
      if_neg (fun h => absurd h.1 (by decide)), if_pos ⟨rfl, hc⟩]
    rw [← hroom] at hne
    simp only [changeRoomEvent, Proc.run_bind, Proc.run_read, hp, Option.map_some,
      Option.bind_some, ne_eq, hne, not_false_eq_true, if_true, hx]
    rfl
  | login ht' hc c' node hpass hnode hmeets =>
    cases ht.symm.trans ht'
    simp only [handleEvent, if_true]
    exact authEvent_lists hs henv hsize hp hc hpass hnode hmeets

/-- The empty message is one more. -/
theorem post_opened_ne {msgs : List (List Notice)} (hmsgs : msgs ≠ []) {item : Nat}
    (hitem : tempBufferLength ≤ item) (t : State) (k : Nat) :
    t.post ((opened 0 msgs).map fun m => ⟨k, m⟩) ≠
      t.post ((opened item msgs).map fun m => ⟨k, m⟩) := by
  intro h
  have hsent := congrArg (fun t : State => t.sent.length) h
  have hzero : 0 < tempBufferLength := by decide
  simp only [opened_of_lt hzero, opened_of_le hitem hmsgs, State.post_sent,
    List.length_append, List.length_map, List.length_cons] at hsent
  omega

/-! ## The message -/

theorem localBody_starting (h : e.body.isSome) (env env' : Env) :
    e.localBody env = e.localBody env' := by
  obtain ⟨b, hb⟩ := Option.isSome_iff_exists.mp h
  simp only [Event.localBody, hb]

theorem alike_of_unread {empty : Prop} (l l' : Leftovers)
    (h : tempBufferLength ≤ maxBufferLength + behind.length → empty) :
    Alike (l.itembuffer.strlen behind) (l'.itembuffer.strlen behind) empty := by
  by_cases hfull : tempBufferLength ≤ maxBufferLength + behind.length
  · exact Or.inr (h hfull)
  · have hl := l.itembuffer.strlen_le behind
    have hl' := l'.itembuffer.strlen_le behind
    exact Or.inl ⟨by omega, by omega⟩

theorem parseEvent_alike (hs : Sound s) (hsize : 0 < s.hashSize) (hp : s.heap p = some c)
    (h : LeftoversUnread env behind s p c e) (l l' : Leftovers) :
    (parseEvent (getFdnodeByname env) (env.withLeftovers behind l) p fd e).run s =
      (parseEvent (getFdnodeByname env) (env.withLeftovers behind l') p fd e).run s := by
  cases ht : e.evType with
  | none =>
    rw [parseEvent, parseEvent, Option.map_eq_none_iff.mp ht]
  | some evType =>
    rw [parseEvent_run hp ht, parseEvent_run hp ht]
    have htick : (s.tick env.now).heap p = some c := hp
    refine handleEvent_alike (hs.tick env.now) hsize htick ht ?_ ?_ (alike_of_unread l l' h.lists)
    · rintro rfl hc htarget
      exact localBody_starting (h.privateBody ht hc htarget) _ _
    · rintro rfl hc
      exact localBody_starting (h.publicBody ht hc) _ _

theorem leftoverFree_iff : LeftoverFree env behind s task ↔ ∀ l l' : Leftovers,
    (parseMessage (getFdnodeByname env) (env.withLeftovers behind l) task).run s =
      (parseMessage (getFdnodeByname env) (env.withLeftovers behind l') task).run s := by
  refine forall_congr' fun l => forall_congr' fun l' => ?_
  rw [outcome_eq_iff]
  simp only [Env.withLeftovers, getFdnodeByname_starting]

theorem leftoverFree_of_unread (hs : Sound s) (hsize : 0 < s.hashSize)
    (h : task.LeavesUnread env behind s) : LeftoverFree env behind s task := by
  rw [leftoverFree_iff]
  intro l l'
  have hdecode : ∀ l, task.decode (env.withLeftovers behind l) = task.decode env := fun _ => rfl
  rw [parseMessage_decode, parseMessage_decode, hdecode, hdecode]
  cases htask : task.decode env with
  | logout => simp only [Env.withLeftovers, nodeDel_starting]
  | undecodable => rfl
  | ping => rfl
  | event e =>
    dsimp only
    cases hp : s.heap task.client with
    | some c => exact parseEvent_alike hs hsize hp (h c e hp htask) l l'
    | none =>
      unfold parseEvent
      split
      · rfl
      · have htick : ∀ l, (s.tick (env.withLeftovers behind l).now).heap task.client = none :=
          fun _ => hp
        simp only [Proc.run_bind, Proc.run_modify, Proc.run_read, htick, Option.map_some,
          Option.map_none, Option.bind_some, Option.bind_none]

/-! ## What differs -/

/-- A message without a body is left alone if its local is `NULL`. -/
theorem handleEvent_null {evType : Int} (hbody : (e.localBody env).isNull = true)
    (hc : c.state = .success)
    (ht : evType = evTypePrivateMessage ∨ evType = evTypePublicMessage) :
    handleEvent lookup env p fd e evType c.state = .ret () := by
  rcases ht with rfl | rfl <;>
  · simp +decide only [handleEvent, hbody, hc, and_false, and_true, if_false, if_true]
    rfl

/-- A message without a body is refused, or the server faults, if its local is not `NULL`. -/
theorem handleEvent_wild {evType : Int} {r : Unit × State} (hp : s.heap p = some c)
    (hbody : e.localBody env = .wild) (hc : c.state = .success)
    (ht : (evType = evTypePrivateMessage ∧ (e.attr .target).isSome) ∨
      evType = evTypePublicMessage)
    (h : (handleEvent lookup env p fd e evType c.state).run s = some r) :
    ∃ n, r.2 = s.sendMessage fd n := by
  have hderef : LocalPtr.wild.deref = none := rfl
  rcases ht with ⟨rfl, htarget⟩ | rfl
  · have hask : evTypePrivateMessage = evTypePrivateMessage ∧ c.state = .success ∧
        (e.attr .target).isSome ∧ (e.localBody env).isNull = false := by
      rw [hbody]
      exact ⟨rfl, hc, htarget, rfl⟩
    obtain ⟨target, htarget⟩ := Option.isSome_iff_exists.mp htarget
    rw [handleEvent, if_neg (by decide), if_neg (fun h => absurd h.1 (by decide)),
      if_neg (fun h => absurd h.1 (by decide)), if_pos hask] at h
    have h := Proc.run_modify_eq_some.mp h
    simp only [privateMessageSection, htarget, hp, Option.bind_some, hbody, hderef,
      Option.map_none] at h
    split at h
    · exact ⟨_, (Option.some.inj h).symm⟩
    · obtain ⟨self, -, h⟩ := Option.bind_eq_some_iff.mp h
      obtain ⟨name, -, h⟩ := Option.bind_eq_some_iff.mp h
      split at h
      · cases h
      · obtain ⟨node, -, h⟩ := Option.bind_eq_some_iff.mp h
        cases node with
        | none => exact ⟨_, (Option.some.inj h).symm⟩
        | some q =>
          obtain ⟨d, -, h⟩ := Option.bind_eq_some_iff.mp h
          cases h
  · have hask : evTypePublicMessage = evTypePublicMessage ∧ c.state = .success ∧
        (e.localBody env).isNull = false := by
      rw [hbody]
      exact ⟨rfl, hc, rfl⟩
    rw [handleEvent, if_neg (by decide), if_neg (fun h => absurd h.1 (by decide)),
      if_neg (fun h => absurd h.1 (by decide)), if_neg (fun h => absurd h.1 (by decide)),
      if_pos hask] at h
    have h := Proc.run_modify_eq_some.mp h
    simp only [publicMessageSection, hp, Option.bind_some, hbody, hderef, Option.bind_none] at h
    split at h
    · exact ⟨_, (Option.some.inj h).symm⟩
    · obtain ⟨name, -, h⟩ := Option.bind_eq_some_iff.mp h
      cases h

theorem sendMessage_ne_self (s : State) (fd : Nat) (n : Notice) : s ≠ s.sendMessage fd n := by
  intro h
  have hsent := congrArg (fun t : State => t.sent.length) h
  simp only [State.sendMessage, State.post_sent, List.length_append, List.length_singleton] at hsent
  omega

/-- The locals of a run in which nothing was there before. -/
def Leftovers.clean : Leftovers := ⟨.null, .zero _, .zero _⟩

/-- The locals of a run that finds a pointer and a buffer without a terminator. -/
def Leftovers.dirty : Leftovers := ⟨.wild, .full _, .full _⟩

theorem localBody_none (h : e.body = none) (env : Env) : e.localBody env = env.body := by
  rw [Event.localBody, h]

/-- Two runs that find different pointers handle a message alike only if it has a body. -/
theorem body_isSome_of_run_eq {evType : Int} {item item' : Nat} (hp : s.heap p = some c)
    (hc : c.state = .success)
    (ht : (evType = evTypePrivateMessage ∧ (e.attr .target).isSome) ∨ evType = evTypePublicMessage)
    (h : (handleEvent lookup (env.starting .null item) p fd e evType c.state).run s =
      (handleEvent lookup (env.starting .wild item') p fd e evType c.state).run s) :
    e.body.isSome := by
  by_contra hnone
  have hlocal := localBody_none (Option.not_isSome_iff_eq_none.mp hnone)
  have hnull : (e.localBody (env.starting .null item)).isNull = true := by
    rw [hlocal]
    rfl
  rw [handleEvent_null hnull hc (ht.imp_left fun h => h.1), Proc.run_ret] at h
  obtain ⟨n, hn⟩ := handleEvent_wild hp (hlocal _) hc ht h.symm
  exact sendMessage_ne_self s fd n hn

theorem parseMessage_event_run (hp : s.heap task.client = some c)
    (hdecode : task.decode env = .event e) {evType : Int} (ht : e.evType = some evType)
    (l : Leftovers) :
    (parseMessage lookup (env.withLeftovers behind l) task).run s =
      (handleEvent lookup (env.withLeftovers behind l) task.client task.fd e evType c.state).run
        (s.tick env.now) := by
  have hdecode' : task.decode (env.withLeftovers behind l) = .event e := hdecode
  rw [parseMessage_decode, hdecode', parseEvent_run hp ht]
  rfl

theorem unread_of_leftoverFree (hs : Sound s) (hsize : 0 < s.hashSize)
    (hp : s.heap task.client = some c) (hdecode : task.decode env = .event e)
    (horder : SoundMemory env c e) (h : LeftoverFree env behind s task) :
    LeftoversUnread env behind s task.client c e := by
  have htick : (s.tick env.now).heap task.client = some c := hp
  have hrun : ∀ {evType}, e.evType = some evType →
      (handleEvent (getFdnodeByname env) (env.withLeftovers behind .clean) task.client task.fd e
        evType c.state).run (s.tick env.now) =
      (handleEvent (getFdnodeByname env) (env.withLeftovers behind .dirty) task.client task.fd e
        evType c.state).run (s.tick env.now) := by
    intro evType ht
    rw [← parseMessage_event_run hp hdecode ht, ← parseMessage_event_run hp hdecode ht]
    exact leftoverFree_iff.mp h .clean .dirty
  constructor
  · intro ht hc htarget
    exact body_isSome_of_run_eq htick hc (Or.inl ⟨rfl, htarget⟩) (hrun ht)
  · intro ht hc
    exact body_isSome_of_run_eq htick hc (Or.inr rfl) (hrun ht)
  · intro hfull hlist
    obtain ⟨evType, ht⟩ : ∃ evType, e.evType = some evType := by
      cases hlist with
      | rooms ht => exact ⟨_, ht⟩
      | change ht => exact ⟨_, ht⟩
      | login ht => exact ⟨_, ht⟩
    obtain ⟨t, k, msgs, hmsgs, hhandled⟩ :=
      hlist.handled task.fd (hs.tick env.now) horder.legible hsize htick ht
    have hrun := hrun ht
    have hclean : Leftovers.clean.itembuffer.strlen behind = 0 :=
      CharArray.strlen_zero formatSize behind
    have hdirty : Leftovers.dirty.itembuffer.strlen behind = maxBufferLength + behind.length :=
      CharArray.strlen_full _ behind
    rw [Env.withLeftovers, Env.withLeftovers, hhandled, hhandled, hclean, hdirty] at hrun
    exact post_opened_ne hmsgs hfull t k (congrArg Prod.snd (Option.some.inj hrun))

/-- **Leftovers.** A message does the same whatever its locals hold if it reads none of them before
it writes it; and only then, if all the texts it reads end. -/
theorem leftoverFree_iff_unread (hs : Reachable s) (env : Env) (behind : Bytes) (task : Task) :
    (task.LeavesUnread env behind s → LeftoverFree env behind s task) ∧
      ((∀ c e, s.heap task.client = some c → task.decode env = .event e → SoundMemory env c e) →
        (LeftoverFree env behind s task ↔ task.LeavesUnread env behind s)) := by
  have hsound := hs.toAnyLookup.sound
  have hsize := hs.toAnyLookup.hashSize_pos
  refine ⟨leftoverFree_of_unread hsound hsize, fun horder => ⟨?_, ?_⟩⟩
  · intro h c e hp hdecode
    exact unread_of_leftoverFree hsound hsize hp hdecode (horder c e hp hdecode) h
  · exact leftoverFree_of_unread hsound hsize

/-- A greeting has a body. -/
theorem leftoverFree_iff_unread_greeting : ∃ s : State, Reachable s ∧
    LeftoverFree (orderlyEnv greeting) (ofString "left behind") s ⟨5, 100, 4, greeting.data⟩ := by
  obtain ⟨s, c, hs, -⟩ := exists_guest
  have hdecode : Task.decode (orderlyEnv greeting) ⟨5, 100, 4, greeting.data⟩ =
      .event greeting.event :=
    orderly_decode (by decide +kernel) (by decide +kernel)
  have htype : greeting.event.evType = some evTypePublicMessage := by decide +kernel
  refine ⟨s, hs, (leftoverFree_iff_unread hs _ _ _).1 ?_⟩
  intro c e _ he
  obtain rfl := Decoded.event.inj (hdecode.symm.trans he)
  refine ⟨fun _ _ _ => rfl, fun _ _ => rfl, fun hfull => absurd hfull ?_⟩
  decide +kernel

/-- A message without a body. -/
def bareMessage : Packet where
  data := [120, 156, 179, 73, 45, 75, 205, 43, 81, 40, 169, 44, 72, 181, 85, 55, 54, 82, 215, 183,
    3, 0, 59, 237, 5, 158]
  text := ofString "<event type='32'/>"
  event := .ofList [(.type, ofString "32")]

/-- A guest sends no body: the pointer left in the local decides whether anything happens. -/
theorem not_leftoverFree : ¬ ∀ (env : Env) (behind : Bytes) (s : State) (task : Task),
    Reachable s → s.fdClients task.fd = some task.client → LeftoverFree env behind s task := by
  intro hall
  obtain ⟨s, c, hs, h5, hc, hstate⟩ := exists_guest
  have hdecode : Task.decode (orderlyEnv bareMessage) ⟨5, 100, 4, bareMessage.data⟩ =
      .event bareMessage.event :=
    orderly_decode (by decide +kernel) (by decide +kernel)
  have htype : bareMessage.event.evType = some evTypePublicMessage := by decide +kernel
  have hu : bareMessage.event.attr .username = none := by decide +kernel
  have hunread := unread_of_leftoverFree hs.toAnyLookup.sound hs.toAnyLookup.hashSize_pos hc hdecode
    (soundMemory_nameless _ c hu) (hall _ [] s ⟨5, 100, 4, bareMessage.data⟩ hs h5)
  have hbody := hunread.publicBody htype hstate
  cases hbody

end ArpgServer
