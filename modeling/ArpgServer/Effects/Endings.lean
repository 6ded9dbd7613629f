import ArpgServer.Effects.Total
import ArpgServer.Names.Lookup

/-!
# Handlers that come to an end

Each handler of `parse_message` ends at a state that keeps the room invariant if the texts of
the memory end and the fields that it uses without a test are there. A login needs its checks
to end besides.
-/

namespace ArpgServer

open CText

variable {lookup : Lookup} {env : Env} {s t : State} {p q : Addr} {c d : Client} {fd : Nat}
  {e : Event} {name : Bytes}

/-! ## The name lookup -/

theorem fdByName_total (henv : env.Readable) (s : State) (name : Bytes) (ufd : Int)
    (l : List HashItem) : ∃ found, fdByName env s name ufd l = some found := by
  induction l with
  | nil => exact ⟨none, rfl⟩
  | cons item rest ih =>
    obtain ⟨b, hb⟩ := keyIs_total henv s item name
    simp only [fdByName, hb, Option.bind_some]
    split
    · exact ⟨_, rfl⟩
    · exact ih

theorem getFdnodeByname_total (henv : env.Readable) (hsize : 0 < s.hashSize) (name : Bytes)
    (ufd : Int) : ∃ node, getFdnodeByname env s name ufd = some node := by
  obtain ⟨found, hfound⟩ := fdByName_total henv s name ufd (s.hashTable (s.bucketOf name))
  rw [getFdnodeByname_eq hsize, hfound]
  exact ⟨_, rfl⟩

/-- What a command names leads to nobody or to a record. -/
theorem targetOf_total (hs : s.Populated) (henv : env.Readable) (hsize : 0 < s.hashSize)
    (hp : s.heap p = some c) (name : Bytes) :
    ∃ node, targetOf (getFdnodeByname env) env p c name s = some node ∧
      ∀ q, node = some q → ∃ d, s.heap q = some d := by
  obtain ⟨self, hself⟩ := strcmp_total c.username (henv.overrun p) name
  simp only [targetOf, hself, Option.bind_some]
  split
  · refine ⟨some p, rfl, ?_⟩
    intro q hq
    cases hq
    exact ⟨c, hp⟩
  · obtain ⟨node, hnode⟩ := getFdnodeByname_total henv hsize name (-1)
    refine ⟨node, hnode, ?_⟩
    rintro q rfl
    obtain ⟨k, hk⟩ := getFdnodeByname_registered env _ _ _ _ hnode
    exact hs.registered k q hk

/-! ## Talking -/

theorem changeStateSection_total (hs : s.Populated) (henv : env.Legible) (hp : s.heap p = some c)
    {state : Bytes} (hstate : e.attr .state = some state) :
    ∃ t, changeStateSection env p fd e s = some t := by
  obtain ⟨name, hname⟩ := read_total c.username (henv.overrun p .username)
  obtain ⟨l, hl⟩ := sendMessageAll_total hs fd (.changeState name 0)
  simp only [changeStateSection, hstate, nameAt, hp, hname, hl, Option.bind_some]
  exact ⟨_, rfl⟩

theorem changeCharacterSection_total (hs : s.Populated) (henv : env.Legible)
    (hp : s.heap p = some c) {character : Bytes} (hcharacter : e.attr .character = some character) :
    ∃ t, changeCharacterSection env p fd e s = some t := by
  obtain ⟨name, hname⟩ := read_total c.username (henv.overrun p .username)
  obtain ⟨text, htext⟩ := read_total (c.character.strncpy character 32 (by decide))
    (henv.overrun p .character)
  obtain ⟨l, hl⟩ := sendMessageAll_total
    (hs.setClient { c with character := c.character.strncpy character 32 (by decide) }) fd
    (.changeCharacter name text)
  simp only [changeCharacterSection, hcharacter, hp, hname, htext, Option.bind_some]
  exact ⟨_, hl⟩

theorem publicMessageSection_total (hs : s.Populated) (henv : env.Legible)
    (hp : s.heap p = some c) {body : LocalPtr}
    (hbody : c.type ≠ clientTypeShutup → body.deref.isSome) :
    ∃ t, publicMessageSection env p fd body s = some t := by
  obtain ⟨name, hname⟩ := read_total c.username (henv.overrun p .username)
  simp only [publicMessageSection, hp, hname, Option.bind_some]
  split
  · exact ⟨_, rfl⟩
  · rename_i htype
    obtain ⟨text, htext⟩ := Option.isSome_iff_exists.mp (hbody htype)
    obtain ⟨l, hl⟩ := sendMessageAll_total hs fd (.publicMessage name s.mytimestamp text)
    rw [htext, Option.bind_some, hl]
    exact ⟨_, rfl⟩

theorem privateMessageSection_total (hs : s.Populated) (henv : env.Legible)
    (hsize : 0 < s.hashSize) (hp : s.heap p = some c) {body : LocalPtr} {target : Bytes}
    (htarget : e.attr .target = some target)
    (hbody : c.type ≠ clientTypeShutup → ∀ q,
      targetOf (getFdnodeByname env) env p c target s = some (some q) → body.deref.isSome) :
    ∃ t, privateMessageSection (getFdnodeByname env) env p fd e body s = some t := by
  obtain ⟨self, hself⟩ := strcmp_total c.username (henv.overrun p .username) target
  obtain ⟨name, hname⟩ := read_total c.username (henv.overrun p .username)
  simp only [targetOf, hself, Option.bind_some] at hbody
  simp only [privateMessageSection, htarget, hp, hself, hname, Option.bind_some]
  split
  · exact ⟨_, rfl⟩
  rename_i htype
  have hbody := hbody htype
  split
  · rename_i htrue
    rw [if_pos htrue] at hbody
    obtain ⟨text, htext⟩ := Option.isSome_iff_exists.mp (hbody p rfl)
    rw [htext]
    exact ⟨_, rfl⟩
  · rename_i hfalse
    rw [if_neg hfalse] at hbody
    obtain ⟨node, hnode⟩ := getFdnodeByname_total henv.readable hsize target (-1)
    rw [hnode, Option.bind_some]
    cases node with
    | none => exact ⟨_, rfl⟩
    | some q =>
      obtain ⟨k, hk⟩ := getFdnodeByname_registered env _ _ _ _ hnode
      obtain ⟨d, hd⟩ := hs.registered k q hk
      obtain ⟨text, htext⟩ := Option.isSome_iff_exists.mp (hbody q hnode)
      simp only [hd, htext, Option.bind_some, Option.map_some]
      exact ⟨_, rfl⟩

theorem moveSection_total (hs : s.Populated) (henv : env.Legible) (hp : s.heap p = some c) :
    ∃ t, moveSection env p e s = some t := by
  obtain ⟨name, hname⟩ := read_total (setDirection c e).username (henv.overrun p .username)
  simp only [moveSection, hp, Option.bind_some]
  split
  · rename_i x y hx hy
    let d := { setDirection c e with x := atoi x, y := atoi y }
    obtain ⟨l, hl⟩ := sendMessageAll_total (hs.setClient d) d.fd (.move name d.direction d.x d.y)
    rw [hname, Option.bind_some, hl]
    exact ⟨_, rfl⟩
  · exact ⟨_, rfl⟩

theorem doingSection_total (hs : s.Populated) (henv : env.Legible) (hp : s.heap p = some c) :
    ∃ t, doingSection env p e s = some t := by
  unfold doingSection
  split
  · exact ⟨_, rfl⟩
  · rename_i doing hdoing
    let d := { c with doing := (CharArray.zero 24).strncpy doing 24 (by decide) }
    obtain ⟨name, hname⟩ := read_total c.username (henv.overrun p .username)
    obtain ⟨l, hl⟩ := sendMessageAll_total (hs.setClient d) d.fd (.doing name doing)
    simp only [hp, hname, Option.bind_some]
    exact ⟨_, hl⟩

theorem luaExec_total (hmessage : env.message.isSome) (fd : Nat) (str : Bytes) (s : State) :
    ∃ t, luaExec env fd str s = some t := by
  obtain ⟨rest, hrest⟩ := Option.isSome_iff_exists.mp hmessage
  simp only [luaExec, hrest, Option.map_some]
  split
  · exact ⟨_, rfl⟩
  · exact ⟨_, rfl⟩

/-! ## Administration -/

theorem shutupSection_total (hs : s.Populated) (henv : env.Legible) (hsize : 0 < s.hashSize)
    (hp : s.heap p = some c) :
    ∃ t, shutupSection (getFdnodeByname env) env p fd e s = some t := by
  simp only [shutupSection, hp, Option.bind_some]
  split
  · exact ⟨_, rfl⟩
  split
  · exact ⟨_, rfl⟩
  rename_i username husername
  obtain ⟨node, hnode, hrecord⟩ := targetOf_total hs henv.readable hsize hp username
  rw [hnode, Option.bind_some]
  cases node with
  | none => exact ⟨_, rfl⟩
  | some q =>
    obtain ⟨d, hd⟩ := hrecord q rfl
    obtain ⟨name, hname⟩ := read_total d.username (henv.overrun q .username)
    simp only [hd, hname, Option.bind_some]
    split
    · obtain ⟨l, hl⟩ := sendMessageAll_total (hs.setClient { d with type := clientTypeShutup })
        d.fd (.systemMessage s.mytimestamp (.silenced name))
      exact ⟨_, hl⟩
    · obtain ⟨l, hl⟩ := sendMessageAll_total (hs.setClient { d with type := clientTypeNone })
        d.fd (.systemMessage s.mytimestamp (.released name))
      exact ⟨_, hl⟩

theorem gooutSection_total (hs : s.Populated) (henv : env.Legible) (hsize : 0 < s.hashSize)
    (hp : s.heap p = some c) (fd : Nat) (e : Event) :
    ∃ node l, gooutSection (getFdnodeByname env) env p fd e s = some (node, s.post l) ∧
      ∀ q, node = some q → ∃ d, s.heap q = some d := by
  have hnobody : ∀ q : Addr, none = some q → ∃ d, s.heap q = some d := by
    intro q hq
    cases hq
  simp only [gooutSection, hp, Option.bind_some]
  split
  · exact ⟨none, _, rfl, hnobody⟩
  split
  · exact ⟨none, [], by rw [State.post_nil], hnobody⟩
  rename_i username husername
  obtain ⟨node, hnode, hrecord⟩ := targetOf_total hs henv.readable hsize hp username
  rw [hnode, Option.bind_some]
  cases node with
  | none => exact ⟨none, [], by rw [State.post_nil], hnobody⟩
  | some q =>
    obtain ⟨d, hd⟩ := hrecord q rfl
    obtain ⟨name, hname⟩ := read_total d.username (henv.overrun q .username)
    obtain ⟨l, hl⟩ := sendMessageAll_total hs d.fd (.systemMessage s.mytimestamp (.kicked name))
    simp only [hd, hname, hl, Option.bind_some, Option.map_some]
    exact ⟨some q, l, rfl, hrecord⟩

theorem gooutEvent_ends (hs : Sound s) (henv : env.Legible) (hsize : 0 < s.hashSize)
    (hp : s.heap p = some c) : (gooutEvent (getFdnodeByname env) env p fd e).Ends s := by
  obtain ⟨node, l, hsection, hrecord⟩ := gooutSection_total hs.populated henv hsize hp fd e
  refine .bind_step hsection ?_
  cases node with
  | none => exact .ret () _
  | some q =>
    obtain ⟨d, hd⟩ := hrecord q rfl
    exact .bind (nodeDel_ends (hs.post l) hd hsize henv.readable) fun _ t _ => .ret () t

/-! ## Rooms -/

/-- No message asks for the room behind the last one. -/
theorem Event.roomid_lt (e : Event) : e.roomid < maxRooms := by
  unfold Event.roomid
  split
  · decide
  split
  · decide
  · omega

theorem changeRoomEvent_ends (hs : Sound s) (henv : env.Legible) (hp : s.heap p = some c)
    (e : Event) : (changeRoomEvent env p e.roomid).Ends s := by
  refine .bind_read (congrArg (Option.map Client.roomid) hp) ?_
  split
  · exact .bind (joinRoom_ends hs henv hp e.roomid_lt.ne) fun _ t _ => .ret () t
  · exact .ret () s

theorem leaveRoomEvent_ends (hs : Sound s) (henv : env.Legible) (hp : s.heap p = some c) :
    (leaveRoomEvent env p).Ends s :=
  .bind (leaveRoom_ends hs hp henv.readable) fun _ t _ => .ret () t

/-! ## Login -/

theorem otherSameUsername_ends (hs : Sound s) (henv : env.Legible) {node : Option Addr}
    (hnode : ∀ q, node = some q → ∃ d, s.heap q = some d) :
    (otherSameUsername env node).Ends s := by
  cases node with
  | none => exact .ret () s
  | some q =>
    obtain ⟨d, hd⟩ := hnode q rfl
    refine .bind (leaveRoom_ends hs hd henv.readable) ?_
    intro x t hleave
    obtain ⟨l, -, rfl⟩ := leaveRoom_effect hs hd hleave
    have hvac : ((s.vacate q d).post l).heap q = some { d with roomid := -1 } :=
      hs.vacate_heap_self hd
    apply Proc.Ends.modify
    simp only [displaceSection, hvac, Option.bind_some]
    split
    · obtain ⟨name, hname⟩ := read_total d.username (henv.overrun q .username)
      have hpop := (((hs.vacate hd).post l).populated.setClient (p := q)
        { d with roomid := -1, state := .wait }).post [⟨d.fd, [.otherLogin]⟩]
      obtain ⟨l', hl'⟩ := sendMessageAll_total hpop d.fd (.userLogout name)
      rw [hname, Option.bind_some]
      exact ⟨_, hl'⟩
    · exact ⟨_, rfl⟩

theorem authSection_passed (hp : s.heap p = some c)
    (h : authSection env p fd e s = some (true, t)) :
    ∃ c', authCredentials env s.mytimestamp c e = some (.passed c') ∧
      t = s.setClient p (setCharacter c' e) := by
  simp only [authSection, hp, Option.bind_some] at h
  obtain ⟨out, hout, h⟩ := Option.map_eq_some_iff.mp h
  cases out with
  | refused d why => cases h
  | passed c' =>
    cases h
    exact ⟨c', hout, rfl⟩

/-- What a login does once its rival is displaced. -/
theorem takeEffect_run (env : Env) (fd : Nat) (hsize : 0 < s.hashSize) (hp : s.heap p = some c)
    (hname : c.username.read (env.overrun p .username) = some name) (roomid : Int) :
    (do
      nodeAdd env p
      Proc.modify (authSuccess env p fd)
      let _ ← joinRoom env (some p) roomid
      return () : Proc State Unit).run s =
      ((joinRoom env (some p) roomid).run ((s.login p c name (luaGetuserrole env name)).sendMessage
        fd (.authSuccess name (luaGetuserrole env name)))).map fun r => ((), r.2) := by
  let registered := s.setBucket (s.bucketOf name) (s.hashTable (s.bucketOf name) ++ [⟨p, c.fd⟩])
  have hadd : (nodeAdd env p).run s = some ((), registered) := by
    simp only [nodeAdd, Proc.run_modify, hp, Option.bind_some, hashAdd, if_neg hsize.ne', nameAt,
      hname, Option.map_some]
    rfl
  have hsuccess : authSuccess env p fd registered =
      some ((s.login p c name (luaGetuserrole env name)).sendMessage fd
        (.authSuccess name (luaGetuserrole env name))) := by
    have hpr : registered.heap p = some c := hp
    simp only [authSuccess, hpr, hname, Option.bind_some, Option.map_some]
    rfl
  simp only [Proc.run_bind, hadd, Proc.run_modify, hsuccess, Option.bind_some,
    Option.map_eq_bind]
  rfl

theorem takeEffect_ends (hs : Sound s) (henv : env.Legible) (hsize : 0 < s.hashSize)
    (hp : s.heap p = some c) {roomid : Int} (hroom : roomid ≠ maxRooms) :
    (do
      nodeAdd env p
      Proc.modify (authSuccess env p fd)
      let _ ← joinRoom env (some p) roomid
      return () : Proc State Unit).Ends s := by
  obtain ⟨name, hname⟩ := read_total c.username (henv.overrun p .username)
  let role := luaGetuserrole env name
  have hlogin : Sound ((s.login p c name role).sendMessage fd (.authSuccess name role)) :=
    (hs.login hp name role).post _
  have hjoin : ((s.login p c name role).sendMessage fd (.authSuccess name role)).heap p =
      some (c.loggedIn role) := Function.update_self ..
  obtain ⟨r, hr⟩ := joinRoom_ends hlogin henv hjoin hroom
  refine ⟨((), r.2), ?_⟩
  rw [takeEffect_run env fd hsize hp hname, hr, Option.map_some]

/-- A login whose checks end is carried through. -/
theorem authEvent_ends (hs : Sound s) (henv : env.Legible) (hsize : 0 < s.hashSize)
    (hp : s.heap p = some c)
    (hchecks : c.state ≠ .success → (authCredentials env s.mytimestamp c e).isSome) :
    (authEvent (getFdnodeByname env) env p fd e c.state).Ends s := by
  unfold authEvent
  by_cases hc : c.state = .success
  · rw [if_pos hc]
    exact .modify ⟨_, rfl⟩
  rw [if_neg hc]
  refine .bind (.step ?_) ?_
  · obtain ⟨out, hout⟩ := Option.isSome_iff_exists.mp (hchecks hc)
    simp only [authSection, hp, Option.bind_some, hout]
    exact ⟨_, _, rfl⟩
  intro passed t hsection
  cases passed with
  | false => exact .ret () t
  | true =>
    obtain ⟨c', hpass, rfl⟩ := authSection_passed hp (Proc.run_step_eq_some.mp hsection)
    have hd : c.SameSession (setCharacter c' e) := passed_sameSession hpass rfl
    generalize setCharacter c' e = d at hd
    have hs₁ : Sound (s.setClient p d) := hs.setWaiting hp hc hd
    have hp₁ : (s.setClient p d).heap p = some d := Function.update_self ..
    obtain ⟨name, hname⟩ := read_total d.username (henv.overrun p .username)
    obtain ⟨node, hnode⟩ :=
      getFdnodeByname_total (s := s.setClient p d) henv.readable hsize name d.fd
    have hrival : rivalOf (getFdnodeByname env) env p (s.setClient p d) = some node := by
      simp only [rivalOf, hp₁, hname, hnode, Option.bind_some]
    have hreg : ∀ q, node = some q → ∃ d', (s.setClient p d).heap q = some d' := by
      rintro q rfl
      obtain ⟨k, hk⟩ := getFdnodeByname_registered env _ _ _ _ hnode
      exact hs₁.populated.registered k q hk
    refine .bind_read hrival ?_
    refine .bind (otherSameUsername_ends hs₁ henv hreg) ?_
    intro _ t hother
    have heff := otherSameUsername_rival hs₁ hreg hother
    obtain ⟨hst, hpt⟩ := heff.waiting hs hp hc hd
    refine takeEffect_ends hst henv ?_ hpt e.roomid_lt.ne
    rw [heff.frame.2]
    exact hsize

/-! ## The chain of handlers -/

/-- All that is used without a test is there: the attributes `state` and `character`, and the
text behind a local `body` that is not `NULL`. -/
structure UntestedGiven (lookup : Lookup) (env : Env) (s : State) (p : Addr) (c : Client)
    (e : Event) (evType : Int) : Prop where
  state : evType = evTypeUserChangeState → c.state = .success → (e.attr .state).isSome
  character : evType = evTypeChangeCharacter → c.state = .success → (e.attr .character).isSome
  privateBody : evType = evTypePrivateMessage → c.state = .success →
    (e.localBody env).isNull = false → ∀ target q, e.attr .target = some target →
    c.type ≠ clientTypeShutup → targetOf lookup env p c target s = some (some q) →
    (e.localBody env).deref.isSome
  publicBody : evType = evTypePublicMessage → c.state = .success →
    (e.localBody env).isNull = false → c.type ≠ clientTypeShutup →
    (e.localBody env).deref.isSome

theorem handleEvent_ends (hs : Sound s) (henv : env.Legible) (hmessage : env.message.isSome)
    (hsize : 0 < s.hashSize) (hp : s.heap p = some c) {evType : Int}
    (hchecks : evType = evTypeAuth → c.state ≠ .success →
      (authCredentials env s.mytimestamp c e).isSome)
    (hgiven : UntestedGiven (getFdnodeByname env) env s p c e evType) :
    (handleEvent (getFdnodeByname env) env p fd e evType c.state).Ends s := by
  have hjob := handleEvent_handledBy (getFdnodeByname env) env p fd e evType c
  generalize handleEvent (getFdnodeByname env) env p fd e evType c.state = job at hjob
  cases hjob with
  | auth ht => exact authEvent_ends hs henv hsize hp (hchecks ht)
  | changeState ht hc =>
    obtain ⟨state, hstate⟩ := Option.isSome_iff_exists.mp (hgiven.state ht hc)
    exact .modify (changeStateSection_total hs.populated henv hp hstate)
  | changeCharacter ht hc =>
    obtain ⟨character, hcharacter⟩ := Option.isSome_iff_exists.mp (hgiven.character ht hc)
    exact .modify (changeCharacterSection_total hs.populated henv hp hcharacter)
  | privateMessage ht hc htarget hbody =>
    obtain ⟨target, htarget⟩ := Option.isSome_iff_exists.mp htarget
    refine .modify (privateMessageSection_total hs.populated henv hsize hp htarget ?_)
    exact fun hmuted q hq => hgiven.privateBody ht hc hbody target q htarget hmuted hq
  | publicMessage ht hc hbody =>
    refine .modify (publicMessageSection_total hs.populated henv hp ?_)
    exact hgiven.publicBody ht hc hbody
  | changeRoom => exact changeRoomEvent_ends hs henv hp e
  | roomList =>
    apply Proc.Ends.modify
    rw [sendRoomlist, hp]
    exact ⟨_, rfl⟩
  | leaveRoom => exact leaveRoomEvent_ends hs henv hp
  | goout => exact gooutEvent_ends hs henv hsize hp
  | shutup => exact .modify (shutupSection_total hs.populated henv hsize hp)
  | move => exact .modify (moveSection_total hs.populated henv hp)
  | doing => exact .modify (doingSection_total hs.populated henv hp)
  | nothing => exact .ret () s
  | script => exact .modify (luaExec_total hmessage fd _ s)

/-- A login that comes to an end has come to the end of its checks. -/
theorem authCredentials_of_ends (hp : s.heap p = some c) (hc : c.state ≠ .success)
    (h : (handleEvent lookup env p fd e evTypeAuth c.state).Ends s) :
    (authCredentials env s.mytimestamp c e).isSome := by
  rw [handleEvent, if_pos rfl, authEvent, if_neg hc] at h
  obtain ⟨r, hrun⟩ := h
  obtain ⟨passed, t, hsection, -⟩ := Proc.run_bind_eq_some.mp hrun
  have hsection := Proc.run_step_eq_some.mp hsection
  simp only [authSection, hp, Option.bind_some] at hsection
  obtain ⟨out, hout, -⟩ := Option.map_eq_some_iff.mp hsection
  exact Option.isSome_iff_exists.mpr ⟨out, hout⟩

/-- A handler that ends has found all that it uses. -/
theorem untestedGiven_of_ends (hp : s.heap p = some c) {evType : Int}
    (h : (handleEvent lookup env p fd e evType c.state).Ends s) :
    UntestedGiven lookup env s p c e evType := by
  constructor
  · rintro rfl hc
    rw [handleEvent, if_neg (by decide), if_pos ⟨rfl, hc⟩] at h
    obtain ⟨t, ht⟩ := Proc.Ends.modify_iff.mp h
    obtain ⟨state, hstate, -⟩ := Option.bind_eq_some_iff.mp ht
    exact Option.isSome_iff_exists.mpr ⟨state, hstate⟩
  · rintro rfl hc
    rw [handleEvent, if_neg (by decide), if_neg (fun h => absurd h.1 (by decide)),
      if_pos ⟨rfl, hc⟩] at h
    obtain ⟨t, ht⟩ := Proc.Ends.modify_iff.mp h
    obtain ⟨character, hcharacter, -⟩ := Option.bind_eq_some_iff.mp ht
    exact Option.isSome_iff_exists.mpr ⟨character, hcharacter⟩
  · rintro rfl hc hbody target q htarget htype hq
    rw [handleEvent, if_neg (by decide), if_neg (fun h => absurd h.1 (by decide)),
      if_neg (fun h => absurd h.1 (by decide)),
      if_pos ⟨rfl, hc, Option.isSome_iff_exists.mpr ⟨target, htarget⟩, hbody⟩] at h
    obtain ⟨t, ht⟩ := Proc.Ends.modify_iff.mp h
    simp only [privateMessageSection, htarget, hp, Option.bind_some, if_neg htype] at ht
    obtain ⟨self, hself, ht⟩ := Option.bind_eq_some_iff.mp ht
    obtain ⟨name, -, ht⟩ := Option.bind_eq_some_iff.mp ht
    simp only [targetOf, hself, Option.bind_some] at hq
    split at ht
    · obtain ⟨text, htext, -⟩ := Option.map_eq_some_iff.mp ht
      exact Option.isSome_iff_exists.mpr ⟨text, htext⟩
    · rename_i hfalse
      rw [if_neg hfalse] at hq
      rw [hq, Option.bind_some] at ht
      obtain ⟨d, -, ht⟩ := Option.bind_eq_some_iff.mp ht
      obtain ⟨text, htext, -⟩ := Option.map_eq_some_iff.mp ht
      exact Option.isSome_iff_exists.mpr ⟨text, htext⟩
  · rintro rfl hc hbody htype
    rw [handleEvent, if_neg (by decide), if_neg (fun h => absurd h.1 (by decide)),
      if_neg (fun h => absurd h.1 (by decide)), if_neg (fun h => absurd h.1 (by decide)),
      if_pos ⟨rfl, hc, hbody⟩] at h
    obtain ⟨t, ht⟩ := Proc.Ends.modify_iff.mp h
    simp only [publicMessageSection, hp, Option.bind_some, if_neg htype] at ht
    obtain ⟨name, -, ht⟩ := Option.bind_eq_some_iff.mp ht
    obtain ⟨text, htext, -⟩ := Option.bind_eq_some_iff.mp ht
    exact Option.isSome_iff_exists.mpr ⟨text, htext⟩

end ArpgServer
