import ArpgServer.Effects.Events

/-!
# What is left alone

A few fields of a record say who a client is: its name, its two texts and whether it is a
guest. Only a login and the two handlers of the texts write them. Every other section keeps
them, logs nobody in, takes nobody to a room that is closed to it and turns no guest away;
`join_room` alone turns guests away.
-/

namespace ArpgServer

open CText

variable {lookup : Lookup} {env : Env} {s s' t : State} {p q : Addr} {c d : Client} {fd : Nat}
  {e : Event} {sender : Option Addr}

/-- Two records that say the same of their client. -/
structure Client.SameSelf (c d : Client) : Prop where
  anonymous : d.anonymous = c.anonymous
  username : d.username = c.username
  character : d.character = c.character
  doing : d.doing = c.doing

namespace Client.SameSelf

theorem refl (c : Client) : c.SameSelf c := ⟨rfl, rfl, rfl, rfl⟩

theorem trans {c d e : Client} (h : c.SameSelf d) (h' : d.SameSelf e) : c.SameSelf e :=
  ⟨h'.anonymous.trans h.anonymous, h'.username.trans h.username, h'.character.trans h.character,
    h'.doing.trans h.doing⟩

end Client.SameSelf

/-- Two records of one connection with the same activity time. -/
structure Client.SameStamp (c d : Client) : Prop where
  fd : d.fd = c.fd
  keepalivetime : d.keepalivetime = c.keepalivetime

namespace Client.SameStamp

theorem refl (c : Client) : c.SameStamp c := ⟨rfl, rfl⟩

theorem trans {c d e : Client} (h : c.SameStamp d) (h' : d.SameStamp e) : c.SameStamp e :=
  ⟨h'.fd.trans h.fd, h'.keepalivetime.trans h.keepalivetime⟩

end Client.SameStamp

/-- The room a client is in is open to it. -/
def Admitted (s : State) (c : Client) : Prop :=
  ∀ r : Nat, c.roomid = r → ¬ (c.anonymous = 1 ∧ (s.rooms r).anonymous = 0)

/-- The texts of a profile are those of a client. -/
def Profile.IsOf (profile : Profile) (env : Env) (s : State) (p : Addr) : Prop :=
  ∃ c, s.heap p = some c ∧
    c.username.read (env.overrun p .username) = some profile.username ∧
    c.character.read (env.overrun p .character) = some profile.character ∧
    c.doing.read (env.overrun p .doing) = some profile.doing

/-- An event that refuses nobody and shows no texts but those in profiles: that of the sender,
who joins a room, and those of the others in it. -/
def Notice.Calm (env : Env) (sender : Option Addr) (s : State) : Notice → Prop
  | .userLogin profile => ∃ p, sender = some p ∧ profile.IsOf env s p
  | .userAdd profile => sender.isSome ∧ ∃ q, profile.IsOf env s q
  | .publicMessage .. | .privateMessage .. | .changeCharacter .. | .doing .. => False
  | .systemMessage _ (.guestRefused _) => False
  | _ => True

def Calm (env : Env) (sender : Option Addr) (s : State) (l : List Send) : Prop :=
  ∀ m ∈ l, ∀ n ∈ m.message, n.Calm env sender s

/-- A client before and after. -/
structure Client.Remains (s t : State) (c d : Client) : Prop where
  self : c.SameSelf d
  stamp : c.SameStamp d
  state : d.state = .success → c.state = .success
  place : Admitted s c → Admitted t d

/-- What all but logins and the handlers of the texts keep. -/
structure Kept (env : Env) (sender : Option Addr) (s t : State) : Prop where
  record : ∀ q d, t.heap q = some d → ∃ c, s.heap q = some c ∧ c.Remains s t d
  conf : ∀ r, (t.rooms r).anonymous = (s.rooms r).anonymous
  sent : ∃ l, t.sent = s.sent ++ l ∧ Calm env sender s l
  clock : t.mytimestamp = s.mytimestamp

theorem Calm.append {l l' : List Send} (h : Calm env sender s l) (h' : Calm env sender s l') :
    Calm env sender s (l ++ l') := by
  intro m hm
  exact (List.mem_append.mp hm).elim (h m) (h' m)

theorem calm_nil : Calm env sender s [] := by simp [Calm]

theorem calm_single {n : Notice} (hn : n.Calm env sender s) (fd : Nat) :
    Calm env sender s [⟨fd, [n]⟩] := by
  simpa [Calm] using hn

theorem Profile.isOf_of_profileAt {profile : Profile} (h : profileAt env s p = some profile) :
    profile.IsOf env s p := by
  obtain ⟨c, hp, h⟩ := Option.bind_eq_some_iff.mp h
  obtain ⟨username, husername, h⟩ := Option.bind_eq_some_iff.mp h
  obtain ⟨character, hcharacter, h⟩ := Option.bind_eq_some_iff.mp h
  obtain ⟨doing, hdoing, rfl⟩ := Option.map_eq_some_iff.mp h
  exact ⟨c, hp, husername, hcharacter, hdoing⟩

/-- The texts of a client are those of its earlier records. -/
theorem Profile.IsOf.before {profile : Profile} (h : profile.IsOf env t p)
    (hback : ∀ q d, t.heap q = some d → ∃ c, s.heap q = some c ∧ c.SameSelf d) :
    profile.IsOf env s p := by
  obtain ⟨d, hd, husername, hcharacter, hdoing⟩ := h
  obtain ⟨c, hc, hself⟩ := hback p d hd
  rw [hself.username] at husername
  rw [hself.character] at hcharacter
  rw [hself.doing] at hdoing
  exact ⟨c, hc, husername, hcharacter, hdoing⟩

theorem Calm.before {l : List Send} (h : Calm env sender t l)
    (hback : ∀ q d, t.heap q = some d → ∃ c, s.heap q = some c ∧ c.SameSelf d) :
    Calm env sender s l := by
  intro m hm n hn
  have hcalm := h m hm n hn
  cases n with
  | userLogin profile =>
    obtain ⟨p, hp, hprofile⟩ := hcalm
    exact ⟨p, hp, hprofile.before hback⟩
  | userAdd profile =>
    obtain ⟨hsender, q, hq⟩ := hcalm
    exact ⟨hsender, q, hq.before hback⟩
  | systemMessage timestamp body => cases body <;> exact hcalm
  | _ => exact hcalm

theorem Admitted.congr (h : Admitted s c) (hself : d.anonymous = c.anonymous)
    (hroom : d.roomid = c.roomid) (hconf : ∀ r, (t.rooms r).anonymous = (s.rooms r).anonymous) :
    Admitted t d := by
  intro r hr
  rw [hself, hconf]
  exact h r (hroom.symm.trans hr)

theorem admitted_outside (s : State) (h : c.roomid = -1) : Admitted s c := by
  intro r hr
  omega

namespace Kept

/-- The records and the rooms are the same. -/
theorem of_eq (hheap : t.heap = s.heap) (hrooms : t.rooms = s.rooms)
    (hclock : t.mytimestamp = s.mytimestamp)
    (hsent : ∃ l, t.sent = s.sent ++ l ∧ Calm env sender s l) : Kept env sender s t where
  record q d hd := by
    rw [hheap] at hd
    exact ⟨d, hd, .refl d, .refl d, id, fun h => h.congr rfl rfl fun r => by rw [hrooms]⟩
  conf r := by rw [hrooms]
  sent := hsent
  clock := hclock

theorem post {l : List Send} (hl : Calm env sender s l) : Kept env sender s (s.post l) :=
  of_eq rfl rfl rfl ⟨l, rfl, hl⟩

theorem refl (s : State) : Kept env sender s s := of_eq rfl rfl rfl ⟨[], by simp, calm_nil⟩

theorem setBucket (s : State) (i : Nat) (chain : List HashItem) :
    Kept env sender s (s.setBucket i chain) :=
  of_eq rfl rfl rfl ⟨[], by simp, calm_nil⟩

theorem trans (h : Kept env sender s t) (h' : Kept env sender t s') : Kept env sender s s' where
  record q d hd := by
    obtain ⟨c, hc, hcd⟩ := h'.record q d hd
    obtain ⟨b, hb, hbc⟩ := h.record q c hc
    exact ⟨b, hb, hbc.self.trans hcd.self, hbc.stamp.trans hcd.stamp,
      fun hst => hbc.state (hcd.state hst), fun hin => hcd.place (hbc.place hin)⟩
  conf r := (h'.conf r).trans (h.conf r)
  sent := by
    obtain ⟨l, hl, hn⟩ := h.sent
    obtain ⟨l', hl', hn'⟩ := h'.sent
    refine ⟨l ++ l', by rw [hl', hl, List.append_assoc], hn.append (hn'.before ?_)⟩
    intro q d hd
    obtain ⟨c, hc, hremains⟩ := h.record q d hd
    exact ⟨c, hc, hremains.self⟩
  clock := h'.clock.trans h.clock

instance : IsPreorder State (Kept env sender) where
  refl := refl
  trans _ _ _ := trans

theorem setClient (hp : s.heap p = some c) (hself : c.SameSelf d) (hstamp : c.SameStamp d)
    (hstate : d.state = .success → c.state = .success)
    (hplace : d.roomid = c.roomid ∨ Admitted s d) : Kept env sender s (s.setClient p d) where
  record q x hx := by
    rcases update_eq_some hx with ⟨rfl, rfl⟩ | ⟨-, hx⟩
    · refine ⟨c, hp, hself, hstamp, hstate, fun hin => ?_⟩
      rcases hplace with hroom | hin'
      · exact hin.congr hself.anonymous hroom fun _ => rfl
      · exact hin'
    · exact ⟨x, hx, .refl x, .refl x, id, fun hin => hin.congr rfl rfl fun _ => rfl⟩
  conf _ := rfl
  sent := ⟨[], by simp, calm_nil⟩
  clock := rfl

theorem setRoom {r : Nat} {room : Room} (h : room.anonymous = (s.rooms r).anonymous) :
    Kept env sender s (s.setRoom r room) := by
  have hconf : ∀ k, ((s.setRoom r room).rooms k).anonymous = (s.rooms k).anonymous := by
    intro k
    rw [State.setRoom_rooms, Function.update_apply]
    split
    · rename_i hk
      rw [hk, h]
    · rfl
  exact ⟨fun q d hd => ⟨d, hd, .refl d, .refl d, id, fun hin => hin.congr rfl rfl hconf⟩, hconf,
    ⟨[], by simp, calm_nil⟩, rfl⟩

theorem broadcast {n : Notice} {k : Nat} (h : sendMessageAll s k n = some s')
    (hn : n.Calm env sender s) : Kept env sender s s' := by
  obtain ⟨l, rfl, hl⟩ := sendMessageAll_post h
  refine post fun m hm n' hn' => ?_
  rw [hl m hm] at hn'
  rw [List.mem_singleton.mp hn']
  exact hn

/-- The sender's record changes in other fields, and an event goes to its room. -/
theorem talk {n : Notice} {k : Nat} (hp : s.heap p = some c)
    (h : sendMessageAll (s.setClient p d) k n = some s') (hself : c.SameSelf d)
    (hstamp : c.SameStamp d) (hstate : d.state = c.state) (hroom : d.roomid = c.roomid)
    (hn : n.Calm env sender (s.setClient p d)) : Kept env sender s s' :=
  (setClient hp hself hstamp (fun hd => hstate ▸ hd) (Or.inl hroom)).trans (broadcast h hn)

end Kept

/-! ## What is sent -/

/-- All events that are sent satisfy a condition. -/
def Sends (P : Notice → Prop) (s s' : State) : Prop :=
  ∃ l, s'.sent = s.sent ++ l ∧ ∀ m ∈ l, ∀ n ∈ m.message, P n

theorem Sends.trans {P : Notice → Prop} (h : Sends P s t) (h' : Sends P t s') : Sends P s s' := by
  obtain ⟨l, hl, hP⟩ := h
  obtain ⟨l', hl', hP'⟩ := h'
  refine ⟨l ++ l', by rw [hl', hl, List.append_assoc], fun m hm => ?_⟩
  exact (List.mem_append.mp hm).elim (hP m) (hP' m)

theorem Sends.mono {P Q : Notice → Prop} (h : Sends P s s') (hPQ : ∀ n, P n → Q n) :
    Sends Q s s' := by
  obtain ⟨l, hl, hP⟩ := h
  exact ⟨l, hl, fun m hm n hn => hPQ n (hP m hm n hn)⟩

theorem Sends.of_sent {P : Notice → Prop} (h : s'.sent = s.sent) : Sends P s s' :=
  ⟨[], by simp [h], by simp⟩

/-- One event goes to some descriptors. -/
theorem Sends.post {P : Notice → Prop} {n : Notice} {l : List Send} (hn : P n)
    (hl : ∀ m ∈ l, m.message = [n]) (h : s'.sent = s.sent ++ l) : Sends P s s' := by
  refine ⟨l, h, fun m hm n' hn' => ?_⟩
  rw [hl m hm] at hn'
  rwa [List.mem_singleton.mp hn']

/-- What a step has sent. -/
theorem Sends.of_mem_drop {P : Notice → Prop} {m : Send} {n : Notice} (h : Sends P s s')
    (hm : m ∈ s'.sent.drop s.sent.length) (hn : n ∈ m.message) : P n := by
  obtain ⟨l, hl, hP⟩ := h
  rw [hl, List.drop_left] at hm
  exact hP m hm n hn

theorem Kept.sends {P : Notice → Prop} (h : Kept env sender s t)
    (hP : ∀ n : Notice, n.Calm env sender s → P n) : Sends P s t := by
  obtain ⟨l, hl, hcalm⟩ := h.sent
  exact ⟨l, hl, fun m hm n hn => hP n (hcalm m hm n hn)⟩

/-! ## Rooms and names -/

theorem userlist_forall {P : Notice → Prop}
    (hP : ∀ q profile, profileAt env s q = some profile → P (.userAdd profile)) {me : Client}
    {l : List Addr} {msg : List Notice} {item : Nat} {out : List (List Notice)}
    (h : userlist env s me l msg item = some out) (hmsg : ∀ n ∈ msg, P n) :
    ∀ m ∈ out, ∀ n ∈ m, P n := by
  induction l generalizing msg item out with
  | nil =>
    cases h
    intro m hm
    split at hm
    · rw [List.mem_singleton.mp hm]
      exact hmsg
    · exact absurd hm List.not_mem_nil
  | cons q l ih =>
    obtain ⟨cur, -, h⟩ := Option.bind_eq_some_iff.mp h
    split at h
    · obtain ⟨profile, hprofile, h⟩ := Option.bind_eq_some_iff.mp h
      have hentry : ∀ n ∈ [Notice.userAdd profile], P n := by
        intro n hn
        rw [List.mem_singleton.mp hn]
        exact hP q profile hprofile
      simp only at h
      split at h
      · obtain ⟨out', hout, rfl⟩ := Option.map_eq_some_iff.mp h
        intro m hm
        rcases List.mem_cons.mp hm with rfl | hm
        · exact hmsg
        · exact ih hout hentry m hm
      · refine ih h fun n hn => ?_
        exact (List.mem_append.mp hn).elim (hmsg n) (hentry n)
    · exact ih h hmsg

theorem sendUserlist_kept (h : sendUserlist env p s = some s') : Kept env (some q) s s' := by
  obtain ⟨node, -, h⟩ := Option.bind_eq_some_iff.mp h
  obtain ⟨room, -, h⟩ := Option.bind_eq_some_iff.mp h
  split at h
  · obtain ⟨msgs, hmsgs, rfl⟩ := Option.map_eq_some_iff.mp h
    refine .post fun m hm => ?_
    obtain ⟨msg, hmsg, rfl⟩ := List.mem_map.mp hm
    refine userlist_forall (fun q profile hprofile => ?_) hmsgs (by simp) msg hmsg
    exact ⟨rfl, q, Profile.isOf_of_profileAt hprofile⟩
  · cases h
    exact .refl s

theorem leaveSection_kept {roomid : Int} (h : leaveSection env p roomid s = some s') :
    Kept env sender s s' := by
  obtain ⟨room, hroom, h⟩ := Option.bind_eq_some_iff.mp h
  obtain ⟨c, hp, h⟩ := Option.bind_eq_some_iff.mp h
  obtain ⟨current, -, h⟩ := Option.bind_eq_some_iff.mp h
  obtain ⟨-, -, rfl⟩ := State.room?_eq_some.mp hroom
  split at h
  · cases h
    exact .refl s
  · obtain ⟨list, -, h⟩ := Option.bind_eq_some_iff.mp h
    have hset : Kept env sender s
        (s.setRoom roomid.toNat ((s.rooms roomid.toNat).unlinked list)) := by
      apply Kept.setRoom
      cases list <;> rfl
    simp only at h
    split at h
    · obtain ⟨username, -, h⟩ := Option.bind_eq_some_iff.mp h
      obtain ⟨t, hsend, rfl⟩ := Option.map_eq_some_iff.mp h
      obtain ⟨l, rfl, -⟩ := sendMessageAll_post hsend
      refine (hset.trans (.broadcast hsend (by trivial))).trans (.setClient hp ⟨rfl, rfl, rfl, rfl⟩
        ⟨rfl, rfl⟩ id ?_)
      exact Or.inr (admitted_outside _ rfl)
    · cases h
      exact hset

theorem leaveRoom_keeps (env : Env) (p : Option Addr) :
    (leaveRoom env p).Keeps (Kept env sender) := by
  cases p with
  | none => exact .ret _
  | some p =>
    refine .bind (.read _) fun roomid => ?_
    split
    · exact .ret _
    · exact .bind (.modify fun _ _ => leaveSection_kept) fun _ => .ret _

/-- A room is entered by a client it is open to. -/
theorem joinSection_kept {roomid : Int}
    (hguest : ∀ c, s.heap p = some c →
      ¬ (c.anonymous = 1 ∧ (s.rooms roomid.toNat).anonymous = 0))
    (h : joinSection env p roomid s = some s') : Kept env (some p) s s' := by
  obtain ⟨room, hroom, h⟩ := Option.bind_eq_some_iff.mp h
  obtain ⟨h0, -, rfl⟩ := State.room?_eq_some.mp hroom
  split at h
  · obtain ⟨c, hp, h⟩ := Option.bind_eq_some_iff.mp h
    obtain ⟨profile, hprofile, h⟩ := Option.bind_eq_some_iff.mp h
    obtain ⟨t, hsend, h⟩ := Option.bind_eq_some_iff.mp h
    have hmove : Kept env (some p) s (s.setClient p { c with roomid := roomid }) := by
      refine .setClient hp ⟨rfl, rfl, rfl, rfl⟩ ⟨rfl, rfl⟩ id (Or.inr fun r hr => ?_)
      obtain rfl : roomid.toNat = r := by
        have hr : roomid = r := hr
        omega
      exact hguest c hp
    refine ((hmove.trans (.setRoom ?_)).trans (.post ?_)).trans
      ((Kept.broadcast hsend ⟨p, rfl, Profile.isOf_of_profileAt hprofile⟩).trans
        (sendUserlist_kept h))
    · rfl
    · exact calm_single (by trivial) c.fd
  · cases h
    exact .refl s

/-- A guest is turned away. -/
def TurnedAway (p : Addr) (s s' : State) : Prop :=
  ∃ c name, s.heap p = some c ∧ c.anonymous = 1 ∧
    s' = s.sendMessage c.fd (.systemMessage s.mytimestamp (.guestRefused name))

theorem joinRoom_kept {roomid x : Int} (h : (joinRoom env (some p) roomid).run s = some (x, s')) :
    Kept env (some p) s s' ∨ TurnedAway p s s' := by
  obtain ⟨start, t, hcheck, h⟩ := Proc.run_bind_eq_some.mp h
  rw [Proc.run_step_eq_some] at hcheck
  unfold joinCheck at hcheck
  split at hcheck
  · cases hcheck
    cases h
    exact Or.inl (.refl s)
  obtain ⟨room, hroom, hcheck⟩ := Option.bind_eq_some_iff.mp hcheck
  obtain ⟨-, -, rfl⟩ := State.room?_eq_some.mp hroom
  obtain ⟨c, hp, hcheck⟩ := Option.map_eq_some_iff.mp hcheck
  split at hcheck
  · cases hcheck
    cases h
    exact Or.inl (.refl s)
  split at hcheck
  · rename_i hguest
    cases hcheck
    cases h
    exact Or.inr ⟨c, _, hp, hguest.1, rfl⟩
  rename_i hguest
  split at hcheck
  · cases hcheck
    obtain ⟨y, t, hleave, h⟩ := Proc.run_bind_eq_some.mp h
    obtain ⟨u, t', hjoin, h⟩ := Proc.run_bind_eq_some.mp h
    cases h
    have hkept : Kept env (some p) _ _ := leaveRoom_keeps env (some p) s y t hleave
    have hjoin := Proc.run_modify_eq_some.mp hjoin
    refine Or.inl (hkept.trans (joinSection_kept (fun d hd => ?_) hjoin))
    obtain ⟨c', hc', hremains⟩ := hkept.record p d hd
    rw [hp] at hc'
    cases hc'
    rw [hremains.self.anonymous, hkept.conf]
    exact hguest
  · cases hcheck
    obtain ⟨u, t', hjoin, h⟩ := Proc.run_bind_eq_some.mp h
    cases h
    refine Or.inl (joinSection_kept (fun d hd => ?_) (Proc.run_modify_eq_some.mp hjoin))
    rw [hp] at hd
    cases hd
    exact hguest

theorem nodeAdd_keeps (env : Env) (p : Addr) : (nodeAdd env p).Keeps (Kept env sender) := by
  refine .modify fun s s' h => ?_
  obtain ⟨c, -, h⟩ := Option.bind_eq_some_iff.mp h
  obtain ⟨name, -, rfl⟩ := hashAdd_eq_some h
  exact .setBucket s _ _

theorem unregisterSection_kept (h : unregisterSection env p s = some s') :
    Kept env sender s s' := by
  obtain ⟨c, -, h⟩ := Option.bind_eq_some_iff.mp h
  obtain ⟨key, -, h⟩ := Option.bind_eq_some_iff.mp h
  obtain ⟨chain, -, rfl⟩ := hashDel_eq_some h
  exact .setBucket s _ chain

theorem freeSection_kept (h : freeSection p s = some s') : Kept env sender s s' := by
  obtain ⟨c, hp, rfl⟩ := Option.map_eq_some_iff.mp h
  refine ⟨fun q d hd => ?_, fun _ => rfl, ⟨[], by simp, calm_nil⟩, rfl⟩
  change Function.update s.heap p none q = some d at hd
  have hq : q ≠ p := by
    rintro rfl
    rw [Function.update_self] at hd
    cases hd
  rw [Function.update_of_ne hq] at hd
  exact ⟨d, hd, .refl d, .refl d, id, fun hin => hin.congr rfl rfl fun _ => rfl⟩

theorem nodeDel_keeps (env : Env) (p : Option Addr) : (nodeDel env p).Keeps (Kept env sender) := by
  cases p with
  | none => exact .ret _
  | some p =>
    refine .bind (leaveRoom_keeps env (some p)) fun _ => ?_
    refine .bind (.modify fun _ _ => unregisterSection_kept) fun _ => ?_
    exact .bind (.modify fun _ _ => freeSection_kept) fun _ => .ret _

theorem displaceSection_kept (h : displaceSection env p s = some s') : Kept env sender s s' := by
  obtain ⟨node, hp, h⟩ := Option.bind_eq_some_iff.mp h
  split at h
  · obtain ⟨username, -, h⟩ := Option.bind_eq_some_iff.mp h
    have hwait : Kept env sender s (s.setClient p { node with state := .wait }) :=
      .setClient hp ⟨rfl, rfl, rfl, rfl⟩ ⟨rfl, rfl⟩ (fun hd => by cases hd) (Or.inl rfl)
    exact (hwait.trans (.post (calm_single (by trivial) node.fd))).trans (.broadcast h (by trivial))
  · cases h
    exact .refl s

theorem otherSameUsername_keeps (env : Env) (p : Option Addr) :
    (otherSameUsername env p).Keeps (Kept env sender) := by
  cases p with
  | none => exact .ret _
  | some p =>
    exact .bind (leaveRoom_keeps env (some p)) fun _ =>
      .modify fun _ _ => displaceSection_kept

/-! ## Handlers -/

theorem changeStateSection_kept (h : changeStateSection env p fd e s = some s') :
    Kept env sender s s' := by
  obtain ⟨_, -, h⟩ := Option.bind_eq_some_iff.mp h
  obtain ⟨name, -, h⟩ := Option.bind_eq_some_iff.mp h
  exact .broadcast h (by trivial)

/-- A message of a client, under its name and with the texts of its event. -/
def Notice.Spoken (env : Env) (p : Addr) (c : Client) (e : Event) : Notice → Prop
  | .publicMessage name _ text =>
    c.username.read (env.overrun p .username) = some name ∧ (e.localBody env).deref = some text
  | .privateMessage name to' _ text =>
    c.username.read (env.overrun p .username) = some name ∧ e.attr .target = some to' ∧
      (e.localBody env).deref = some text
  | _ => False

/-- A message is sent. -/
def Speaks (env : Env) (p : Addr) (c : Client) (e : Event) (s s' : State) : Prop :=
  ∃ n l, n.Spoken env p c e ∧ (∀ m ∈ l, m.message = [n]) ∧ s' = s.post l

theorem privateMessageSection_spoken (hp : s.heap p = some c)
    (h : privateMessageSection lookup env p fd e (e.localBody env) s = some s') :
    Kept env sender s s' ∨ Speaks env p c e s s' := by
  obtain ⟨to', hto, h⟩ := Option.bind_eq_some_iff.mp h
  simp only [hp, Option.bind_some] at h
  split at h
  · cases h
    exact Or.inl (.post (calm_single (by trivial) fd))
  · obtain ⟨self, -, h⟩ := Option.bind_eq_some_iff.mp h
    obtain ⟨name, hname, h⟩ := Option.bind_eq_some_iff.mp h
    split at h
    · obtain ⟨text, htext, rfl⟩ := Option.map_eq_some_iff.mp h
      have hspoken : (Notice.privateMessage name to' s.mytimestamp text).Spoken env p c e :=
        ⟨hname, hto, htext⟩
      exact Or.inr ⟨_, _, hspoken, by simp, rfl⟩
    · obtain ⟨node, -, h⟩ := Option.bind_eq_some_iff.mp h
      cases node with
      | none =>
        cases h
        exact Or.inl (.post (calm_single (by trivial) fd))
      | some q =>
        obtain ⟨tonode, -, h⟩ := Option.bind_eq_some_iff.mp h
        obtain ⟨text, htext, rfl⟩ := Option.map_eq_some_iff.mp h
        have hspoken : (Notice.privateMessage name to' s.mytimestamp text).Spoken env p c e :=
          ⟨hname, hto, htext⟩
        refine Or.inr ⟨_, _, hspoken, ?_, State.post_post ..⟩
        simp

theorem publicMessageSection_spoken (hp : s.heap p = some c)
    (h : publicMessageSection env p fd (e.localBody env) s = some s') :
    Kept env sender s s' ∨ Speaks env p c e s s' := by
  simp only [publicMessageSection, hp, Option.bind_some] at h
  split at h
  · cases h
    exact Or.inl (.post (calm_single (by trivial) fd))
  · obtain ⟨name, hname, h⟩ := Option.bind_eq_some_iff.mp h
    obtain ⟨text, htext, h⟩ := Option.bind_eq_some_iff.mp h
    obtain ⟨l, rfl, hl⟩ := sendMessageAll_post h
    have hspoken : (Notice.publicMessage name s.mytimestamp text).Spoken env p c e :=
      ⟨hname, htext⟩
    exact Or.inr ⟨_, l, hspoken, hl, rfl⟩

theorem sendRoomlist_kept (h : sendRoomlist env p s = some s') : Kept env sender s s' := by
  obtain ⟨node, -, rfl⟩ := Option.map_eq_some_iff.mp h
  refine .post fun m hm => ?_
  obtain ⟨msg, hmsg, rfl⟩ := List.mem_map.mp hm
  exact roomlist_forall (fun _ _ _ => by trivial) (by simp) msg hmsg

theorem setDirection_sameSelf (c : Client) (e : Event) : c.SameSelf (setDirection c e) := by
  unfold setDirection
  split
  · exact .refl c
  · exact ⟨rfl, rfl, rfl, rfl⟩

theorem setDirection_sameStamp (c : Client) (e : Event) : c.SameStamp (setDirection c e) := by
  unfold setDirection
  split
  · exact .refl c
  · exact ⟨rfl, rfl⟩

theorem moveSection_kept (h : moveSection env p e s = some s') : Kept env sender s s' := by
  obtain ⟨c, hp, h⟩ := Option.bind_eq_some_iff.mp h
  have hself := setDirection_sameSelf c e
  have hstamp := setDirection_sameStamp c e
  have hcore := setDirection_sameCore c e
  simp only at h
  split at h
  · obtain ⟨name, -, h⟩ := Option.bind_eq_some_iff.mp h
    exact .talk hp h ⟨hself.anonymous, hself.username, hself.character, hself.doing⟩
      ⟨hstamp.fd, hstamp.keepalivetime⟩ hcore.state hcore.roomid (by trivial)
  · cases h
    exact .setClient hp hself hstamp (fun hd => hcore.state ▸ hd) (Or.inl hcore.roomid)

theorem luaExec_kept {str : Bytes} (h : luaExec env fd str s = some s') : Kept env sender s s' := by
  obtain ⟨l, rfl, hl⟩ := luaExec_effect h
  refine .post fun m hm n hn => ?_
  obtain ⟨-, text, hmsg⟩ := hl m hm
  rw [hmsg] at hn
  rw [List.mem_singleton.mp hn]
  trivial

theorem gooutSection_kept {node : Option Addr}
    (h : gooutSection lookup env p fd e s = some (node, s')) : Kept env sender s s' := by
  obtain ⟨c, -, h⟩ := Option.bind_eq_some_iff.mp h
  split at h
  · cases h
    exact .post (calm_single (by trivial) fd)
  split at h
  · cases h
    exact .refl s
  obtain ⟨found, -, h⟩ := Option.bind_eq_some_iff.mp h
  cases found with
  | none =>
    cases h
    exact .refl s
  | some q =>
    obtain ⟨tonode, -, h⟩ := Option.bind_eq_some_iff.mp h
    obtain ⟨name, -, h⟩ := Option.bind_eq_some_iff.mp h
    obtain ⟨t, hsend, h⟩ := Option.map_eq_some_iff.mp h
    cases h
    exact .broadcast hsend (by trivial)

theorem gooutEvent_keeps (lookup : Lookup) (env : Env) (p : Addr) (fd : Nat) (e : Event) :
    (gooutEvent lookup env p fd e).Keeps (Kept env sender) := by
  refine .bind (.step fun _ _ _ => gooutSection_kept) fun node => ?_
  cases node with
  | none => exact .ret _
  | some q => exact .bind (nodeDel_keeps env (some q)) fun _ => .ret _

theorem shutupSection_kept (h : shutupSection lookup env p fd e s = some s') :
    Kept env sender s s' := by
  obtain ⟨c, -, h⟩ := Option.bind_eq_some_iff.mp h
  split at h
  · cases h
    exact .post (calm_single (by trivial) fd)
  split at h
  · cases h
    exact .refl s
  obtain ⟨found, -, h⟩ := Option.bind_eq_some_iff.mp h
  cases found with
  | none =>
    cases h
    exact .refl s
  | some q =>
    obtain ⟨tonode, hq, h⟩ := Option.bind_eq_some_iff.mp h
    obtain ⟨name, -, h⟩ := Option.bind_eq_some_iff.mp h
    split at h
    · exact .talk hq h ⟨rfl, rfl, rfl, rfl⟩ ⟨rfl, rfl⟩ rfl rfl (by trivial)
    · exact .talk hq h ⟨rfl, rfl, rfl, rfl⟩ ⟨rfl, rfl⟩ rfl rfl (by trivial)

/-! ## Events -/

/-- The event is no login of a client that waits, and brings none of the two texts. -/
structure Event.StoresNothing (e : Event) (c : Client) : Prop where
  auth : e.evType = some evTypeAuth → c.state = .success
  character : e.evType = some evTypeChangeCharacter → c.state = .success →
    e.attr .character = none
  doing : e.evType = some evTypeDoing → c.state = .success → e.attr .doing = none

/-- How an event changes what the records say: by a login that is refused or passes its checks,
or by one of the two texts. A guest may be turned away from a room. -/
inductive EventFrame (env : Env) (fd : Nat) (e : Event) (p : Addr) (c : Client)
    (s s' : State) : Prop where
  | kept (hnot : e.StoresNothing c) (h : Kept env (some p) s s')
  | spoke (hnot : e.StoresNothing c) (h : Speaks env p c e s s')
  | turnedAway (hnot : e.StoresNothing c) (hc : c.state = .success) (h : TurnedAway p s s')
  | refused (d : Client) (why : AuthFailure) (ht : e.evType = some evTypeAuth)
      (hc : c.state ≠ .success)
      (hd : authCredentials env s.mytimestamp c e = some (.refused d why))
      (h : s' = (s.setClient p d).sendMessage fd (.authFailure why))
  | passed (c' d : Client) (name : Bytes) (t u : State) (ht : e.evType = some evTypeAuth)
      (hc : c.state ≠ .success)
      (hpass : authCredentials env s.mytimestamp c e = some (.passed c'))
      (hbefore : Kept env (some p) (s.setClient p (setCharacter c' e)) t) (hp : t.heap p = some d)
      (hu : u = (t.setClient p (d.loggedIn (luaGetuserrole env name))).sendMessage fd
        (.authSuccess name (luaGetuserrole env name)))
      (hjoin : Kept env (some p) u s' ∨ TurnedAway p u s')
  | character (character name text : Bytes) (l : List Send)
      (ht : e.evType = some evTypeChangeCharacter) (hc : c.state = .success)
      (he : e.attr .character = some character)
      (hname : c.username.read (env.overrun p .username) = some name)
      (htext : (c.character.strncpy character 32 (by decide)).read (env.overrun p .character) =
        some text)
      (hl : ∀ m ∈ l, m.message = [.changeCharacter name text])
      (h : s' = (s.setClient p
        { c with character := c.character.strncpy character 32 (by decide) }).post l)
  | doing (doing name : Bytes) (l : List Send) (ht : e.evType = some evTypeDoing)
      (hc : c.state = .success) (he : e.attr .doing = some doing)
      (hname : c.username.read (env.overrun p .username) = some name)
      (hl : ∀ m ∈ l, m.message = [.doing name doing])
      (h : s' = (s.setClient p
        { c with doing := (CharArray.zero 24).strncpy doing 24 (by decide) }).post l)

/-- The registration of a client leaves all texts alone. -/
theorem Kept.before_login {u : State} {w : Client} {role : Int} {n : Notice}
    (h : Kept env sender s t) (hp : t.heap p = some d)
    (hu : u = (t.setClient p (d.loggedIn role)).sendMessage fd n) (hw : u.heap q = some w) :
    ∃ c, s.heap q = some c ∧ c.SameSelf w := by
  obtain ⟨x, hx, hxw⟩ : ∃ x, t.heap q = some x ∧ x.SameSelf w := by
    rw [hu] at hw
    rcases update_eq_some hw with ⟨rfl, rfl⟩ | ⟨-, hw⟩
    · exact ⟨d, hp, rfl, rfl, rfl, rfl⟩
    · exact ⟨w, hw, .refl w⟩
  obtain ⟨c, hc, hremains⟩ := h.record q x hx
  exact ⟨c, hc, hremains.self.trans hxw⟩

/-- An event of another type stores nothing. -/
theorem storesNothing_of_ne {evType : Int} (ht : e.evType = some evType)
    (hauth : evType ≠ evTypeAuth) (hchar : evType ≠ evTypeChangeCharacter)
    (hdoing : evType ≠ evTypeDoing) : e.StoresNothing c := by
  constructor <;>
  · intro h
    rw [ht] at h
    cases h
    contradiction

theorem changeCharacterSection_frame (hp : s.heap p = some c)
    (ht : e.evType = some evTypeChangeCharacter) (hc : c.state = .success)
    (h : changeCharacterSection env p fd e s = some s') : EventFrame env fd e p c s s' := by
  obtain ⟨character, he, h⟩ := Option.bind_eq_some_iff.mp h
  simp only [hp, Option.bind_some] at h
  obtain ⟨name, hname, h⟩ := Option.bind_eq_some_iff.mp h
  obtain ⟨text, htext, h⟩ := Option.bind_eq_some_iff.mp h
  obtain ⟨l, rfl, hl⟩ := sendMessageAll_post h
  exact .character character name text l ht hc he hname htext hl rfl

theorem doingSection_frame (hp : s.heap p = some c) (ht : e.evType = some evTypeDoing)
    (hc : c.state = .success) (h : doingSection env p e s = some s') :
    EventFrame env fd e p c s s' := by
  unfold doingSection at h
  split at h
  · rename_i he
    cases h
    have hnot : e.StoresNothing c := by
      refine ⟨fun _ => hc, fun h => ?_, fun _ _ => he⟩
      rw [ht] at h
      cases h
    exact .kept hnot (.refl s)
  · rename_i doing he
    simp only [hp, Option.bind_some] at h
    obtain ⟨name, hname, h⟩ := Option.bind_eq_some_iff.mp h
    obtain ⟨l, rfl, hl⟩ := sendMessageAll_post h
    exact .doing doing name l ht hc he hname hl rfl

theorem authEvent_frame (hp : s.heap p = some c) (ht : e.evType = some evTypeAuth)
    (h : (authEvent lookup env p fd e c.state).run s = some ((), s')) :
    EventFrame env fd e p c s s' := by
  unfold authEvent at h
  by_cases hc : c.state = .success
  · rw [if_pos hc] at h
    cases h
    have hnot : e.StoresNothing c := by
      refine ⟨fun _ => hc, fun h => ?_, fun h => ?_⟩ <;>
      · rw [ht] at h
        cases h
    exact .kept hnot (.post (calm_single (by trivial) fd))
  rw [if_neg hc] at h
  obtain ⟨passed, t₀, hsec, h⟩ := Proc.run_bind_eq_some.mp h
  have hsec := Proc.run_step_eq_some.mp hsec
  simp only [authSection, hp, Option.bind_some] at hsec
  obtain ⟨out, hout, hsec⟩ := Option.map_eq_some_iff.mp hsec
  cases out with
  | refused d why =>
    cases hsec
    cases h
    exact .refused d why ht hc hout rfl
  | passed c' =>
    cases hsec
    obtain ⟨node, t₁, hread, h⟩ := Proc.run_bind_eq_some.mp h
    obtain ⟨-, rfl⟩ := Proc.run_read_eq_some.mp hread
    obtain ⟨u, t₂, hother, h⟩ := Proc.run_bind_eq_some.mp h
    obtain ⟨u, t₃, hadd, h⟩ := Proc.run_bind_eq_some.mp h
    obtain ⟨u, t₄, hsucc, h⟩ := Proc.run_bind_eq_some.mp h
    obtain ⟨x, t₅, hjoin, h⟩ := Proc.run_bind_eq_some.mp h
    cases h
    obtain ⟨d, hd, hsucc⟩ := Option.bind_eq_some_iff.mp (Proc.run_modify_eq_some.mp hsucc)
    obtain ⟨name, -, hu⟩ := Option.map_eq_some_iff.mp hsucc
    have hbefore : Kept env (some p) _ _ := (otherSameUsername_keeps env node _ _ _ hother).trans
      (nodeAdd_keeps env p _ _ _ hadd)
    exact .passed c' d name t₃ t₄ ht hc hout hbefore hd hu.symm (joinRoom_kept hjoin)

theorem changeRoomEvent_frame {roomid : Int} (hnot : e.StoresNothing c) (hc : c.state = .success)
    (h : (changeRoomEvent env p roomid).run s = some ((), s')) : EventFrame env fd e p c s s' := by
  obtain ⟨c', t, hread, h⟩ := Proc.run_bind_eq_some.mp h
  obtain ⟨-, rfl⟩ := Proc.run_read_eq_some.mp hread
  split at h
  · obtain ⟨x, t', hjoin, h⟩ := Proc.run_bind_eq_some.mp h
    cases h
    rcases joinRoom_kept hjoin with hkept | haway
    · exact .kept hnot hkept
    · exact .turnedAway hnot hc haway
  · cases h
    exact .kept hnot (.refl _)

theorem handleEvent_frame {evType : Int} (hp : s.heap p = some c) (ht : e.evType = some evType)
    (h : (handleEvent lookup env p fd e evType c.state).run s = some ((), s')) :
    EventFrame env fd e p c s s' := by
  have hother : ∀ {n : Int}, evType = n → n ≠ evTypeAuth → n ≠ evTypeChangeCharacter →
      n ≠ evTypeDoing → e.StoresNothing c := by
    rintro n rfl
    exact storesNothing_of_ne ht
  have hjob := handleEvent_handledBy lookup env p fd e evType c
  generalize handleEvent lookup env p fd e evType c.state = job at h hjob
  cases hjob with
  | auth hAuth => exact authEvent_frame hp (hAuth ▸ ht) h
  | changeState hn =>
    exact .kept (hother hn (by decide) (by decide) (by decide))
      (changeStateSection_kept (Proc.run_modify_eq_some.mp h))
  | changeCharacter hn hc =>
    exact changeCharacterSection_frame hp (hn ▸ ht) hc (Proc.run_modify_eq_some.mp h)
  | privateMessage hn =>
    have hnot := hother hn (by decide) (by decide) (by decide)
    exact (privateMessageSection_spoken hp (Proc.run_modify_eq_some.mp h)).elim (.kept hnot)
      (.spoke hnot)
  | publicMessage hn =>
    have hnot := hother hn (by decide) (by decide) (by decide)
    exact (publicMessageSection_spoken hp (Proc.run_modify_eq_some.mp h)).elim (.kept hnot)
      (.spoke hnot)
  | changeRoom hn hc =>
    exact changeRoomEvent_frame (hother hn (by decide) (by decide) (by decide)) hc h
  | roomList hn =>
    exact .kept (hother hn (by decide) (by decide) (by decide))
      (sendRoomlist_kept (Proc.run_modify_eq_some.mp h))
  | leaveRoom hn =>
    obtain ⟨x, t, hleave, h⟩ := Proc.run_bind_eq_some.mp h
    cases h
    exact .kept (hother hn (by decide) (by decide) (by decide))
      (leaveRoom_keeps env (some p) _ _ _ hleave)
  | goout hn =>
    exact .kept (hother hn (by decide) (by decide) (by decide))
      (gooutEvent_keeps lookup env p fd e _ _ _ h)
  | shutup hn =>
    exact .kept (hother hn (by decide) (by decide) (by decide))
      (shutupSection_kept (Proc.run_modify_eq_some.mp h))
  | move hn =>
    exact .kept (hother hn (by decide) (by decide) (by decide))
      (moveSection_kept (Proc.run_modify_eq_some.mp h))
  | doing hn hc => exact doingSection_frame hp (hn ▸ ht) hc (Proc.run_modify_eq_some.mp h)
  | nothing _ hAuth hChar hDoing =>
    cases h
    exact .kept (storesNothing_of_ne ht hAuth hChar hDoing) (.refl s)
  | script hc hAuth =>
    have hnot : e.StoresNothing c := by
      refine ⟨fun h => ?_, fun _ h => absurd h hc, fun _ h => absurd h hc⟩
      rw [ht] at h
      exact absurd (Option.some.inj h) hAuth
    exact .kept hnot (luaExec_kept (Proc.run_modify_eq_some.mp h))

/-- The action is no connection of the client and no event of it that stores something. -/
structure Action.StoresNothing (env : Env) (s : State) (a : Action) (q : Addr) : Prop where
  accept : ∀ fd, a ≠ .accept fd q
  event : ∀ fd recvBits data c e, a = .task fd recvBits data → s.fdClients fd = some q →
    s.heap q = some c → Task.decode env ⟨fd, q, recvBits, data⟩ = .event e → e.StoresNothing c

theorem noteInput_eq_some (h : noteInput env fd s = some s') :
    ∃ p c, s.heap p = some c ∧
      s' = (s.tick env.now).setClient p { c with keepalivetime := toInt32 env.now } := by
  obtain ⟨p, -, h⟩ := Option.bind_eq_some_iff.mp h
  obtain ⟨c, hp, rfl⟩ := Option.map_eq_some_iff.mp h
  exact ⟨p, c, hp, rfl⟩

/-- How an action changes what the records say. The time is read or left alone. -/
inductive ActFrame (env : Env) (s : State) (a : Action) (s' : State) : Prop where
  | kept (now : Int) (hnow : now = s.mytimestamp ∨ now = env.now)
      (hnot : ∀ q, a.StoresNothing env s q) (h : Kept env none (s.tick now) s')
  | accept (fd : Nat) (node : Addr) (ha : a = .accept fd node)
      (h : acceptClient fd node s = some s')
  | input (fd : Nat) (ha : a = .input fd) (h : noteInput env fd s = some s')
  | event (fd : Nat) (recvBits : Int) (data : Bytes) (p : Addr) (c : Client) (e : Event)
      (ha : a = .task fd recvBits data) (hfd : s.fdClients fd = some p) (hp : s.heap p = some c)
      (hdecode : Task.decode env ⟨fd, p, recvBits, data⟩ = .event e)
      (h : EventFrame env fd e p c (s.tick env.now) s')

theorem parseEvent_frame (h : (parseEvent lookup env p fd e).run s = some ((), s')) :
    (e.evType = none ∧ s' = s) ∨
      ∃ c, s.heap p = some c ∧ EventFrame env fd e p c (s.tick env.now) s' := by
  cases ht : e.evType with
  | none =>
    have htype : e.attr .type = none := Option.map_eq_none_iff.mp ht
    unfold parseEvent at h
    rw [htype] at h
    cases h
    exact Or.inl ⟨rfl, rfl⟩
  | some evType =>
    cases hp : s.heap p with
    | none =>
      obtain ⟨type, htype, -⟩ := Option.map_eq_some_iff.mp ht
      unfold parseEvent at h
      rw [htype] at h
      obtain ⟨u, t, htick, h⟩ := Proc.run_bind_eq_some.mp h
      cases Proc.run_modify_eq_some.mp htick
      obtain ⟨c, t, hread, -⟩ := Proc.run_bind_eq_some.mp h
      obtain ⟨hc, -⟩ := Proc.run_read_eq_some.mp hread
      have hp' : (s.tick env.now).heap p = none := hp
      rw [hp'] at hc
      cases hc
    | some c => exact Or.inr ⟨c, rfl, handleEvent_frame hp ht (parseEvent_handle hp ht h)⟩

theorem Action.StoresNothing.of_ne {a : Action} (haccept : ∀ fd node, a ≠ .accept fd node)
    (htask : ∀ fd recvBits data, a ≠ .task fd recvBits data) (q : Addr) :
    a.StoresNothing env s q :=
  ⟨fun fd => haccept fd q, fun fd recvBits data _ _ ha => absurd ha (htask fd recvBits data)⟩

theorem Action.StoresNothing.task {recvBits : Int} {data : Bytes} (hfd : s.fdClients fd = some p)
    (h : ∀ c e, q = p → s.heap p = some c → Task.decode env ⟨fd, p, recvBits, data⟩ = .event e →
      e.StoresNothing c) : (Action.task fd recvBits data).StoresNothing env s q := by
  refine ⟨fun _ => nofun, ?_⟩
  intro fd' recvBits' data' c e ha hfd' hp hdecode
  cases ha
  rw [hfd] at hfd'
  cases hfd'
  exact h c e rfl hp hdecode

theorem act_frame {a : Action} (h : act lookup env s a = some s') : ActFrame env s a s' := by
  cases a with
  | accept fd node => exact .accept fd node rfl h
  | input fd => exact .input fd rfl h
  | task fd recvBits data =>
    obtain ⟨p, hfd, h⟩ := Option.bind_eq_some_iff.mp h
    obtain ⟨⟨u, t⟩, hrun, rfl⟩ := Option.map_eq_some_iff.mp h
    let task : Task := ⟨fd, p, recvBits, data⟩
    have hnone : (∀ e, task.decode env ≠ .event e) →
        ∀ q, (Action.task fd recvBits data).StoresNothing env s q := fun hno q =>
      .task hfd fun _ e _ _ hdecode => absurd hdecode (hno e)
    cases hdecode : task.decode env with
    | logout =>
      rw [parseMessage_decode, hdecode] at hrun
      obtain ⟨x, t, hdel, h⟩ := Proc.run_bind_eq_some.mp hrun
      cases h
      exact .kept s.mytimestamp (Or.inl rfl) (hnone (by simp [hdecode]))
        (nodeDel_keeps env (some p) _ _ _ hdel)
    | undecodable =>
      rw [parseMessage_decode, hdecode] at hrun
      cases hrun
      exact .kept _ (Or.inl rfl) (hnone (by simp [hdecode])) (.refl s)
    | ping =>
      rw [parseMessage_decode, hdecode] at hrun
      cases Proc.run_modify_eq_some.mp hrun
      exact .kept _ (Or.inl rfl) (hnone (by simp [hdecode])) (.post (calm_single (by trivial) fd))
    | event e =>
      rw [parseMessage_decode, hdecode] at hrun
      rcases parseEvent_frame hrun with ⟨ht, rfl⟩ | ⟨c, hp, hframe⟩
      · refine .kept _ (Or.inl rfl) (fun q => .task hfd fun c e' _ _ hdecode' => ?_) (.refl _)
        rw [hdecode] at hdecode'
        cases hdecode'
        constructor <;>
        · intro h
          rw [ht] at h
          cases h
      · exact .event fd recvBits data p c e rfl hfd hp hdecode hframe
  | idle i =>
    have hnot : ∀ q, (Action.idle i).StoresNothing env s q := .of_ne nofun nofun
    simp only [act, heartbeatAt] at h
    split at h
    · cases h
      exact .kept env.now (Or.inr rfl) hnot (.refl _)
    · rename_i p hfd
      obtain ⟨c, -, h⟩ := Option.bind_eq_some_iff.mp h
      split at h
      · obtain ⟨r, hdel, rfl⟩ := Option.map_eq_some_iff.mp h
        exact .kept env.now (Or.inr rfl) hnot (nodeDel_keeps env (some p) _ _ _ hdel)
      · cases h
        exact .kept env.now (Or.inr rfl) hnot (.refl _)

/-! ## Activity times -/

/-- The records are old ones, and so are their activity times. -/
def KeepsStamps (s s' : State) : Prop :=
  ∀ q d, s'.heap q = some d → ∃ c, s.heap q = some c ∧ c.SameStamp d

theorem KeepsStamps.trans (h : KeepsStamps s t) (h' : KeepsStamps t s') : KeepsStamps s s' := by
  intro q d hd
  obtain ⟨c, hc, hcd⟩ := h' q d hd
  obtain ⟨b, hb, hbc⟩ := h q c hc
  exact ⟨b, hb, hbc.trans hcd⟩

theorem KeepsStamps.of_heap (h : s'.heap = s.heap) : KeepsStamps s s' := by
  intro q d hd
  rw [h] at hd
  exact ⟨d, hd, .refl d⟩

theorem Kept.stamps (h : Kept env sender s s') : KeepsStamps s s' := by
  intro q d hd
  obtain ⟨c, hc, hremains⟩ := h.record q d hd
  exact ⟨c, hc, hremains.stamp⟩

theorem keepsStamps_setClient (hp : s.heap p = some c) (hd : c.SameStamp d) :
    KeepsStamps s (s.setClient p d) := by
  intro q x hx
  rcases update_eq_some hx with ⟨rfl, rfl⟩ | ⟨-, hx⟩
  · exact ⟨c, hp, hd⟩
  · exact ⟨x, hx, .refl x⟩

theorem authCredentials_sameStamp {now : Int} {out : AuthOutcome}
    (h : authCredentials env now c e = some out) : c.SameStamp out.client := by
  obtain ⟨anonymous, name, hout⟩ := authCredentials_renamed h
  rw [hout]
  exact ⟨rfl, rfl⟩

theorem setCharacter_sameStamp (c : Client) (e : Event) : c.SameStamp (setCharacter c e) := by
  unfold setCharacter
  split <;> exact ⟨rfl, rfl⟩

theorem TurnedAway.stamps (h : TurnedAway p s s') :
    KeepsStamps s s' ∧ s'.mytimestamp = s.mytimestamp := by
  obtain ⟨c, name, -, -, rfl⟩ := h
  exact ⟨.of_heap rfl, rfl⟩

/-- No event changes an activity time. -/
theorem EventFrame.stamps (hp : s.heap p = some c) (h : EventFrame env fd e p c s s') :
    KeepsStamps s s' ∧ s'.mytimestamp = s.mytimestamp := by
  cases h with
  | kept hnot h => exact ⟨h.stamps, h.clock⟩
  | spoke hnot h =>
    obtain ⟨n, l, -, -, rfl⟩ := h
    exact ⟨.of_heap rfl, rfl⟩
  | turnedAway hnot hc h => exact h.stamps
  | refused d why ht hc hd h =>
    rw [h]
    exact ⟨keepsStamps_setClient hp (authCredentials_sameStamp hd), rfl⟩
  | passed c' d name t u ht hc hpass hbefore hpt hu hjoin =>
    have hcheck : c.SameStamp c' := authCredentials_sameStamp hpass
    have hset := keepsStamps_setClient hp (hcheck.trans (setCharacter_sameStamp c' e))
    have hlogin : KeepsStamps t u := by
      rw [hu]
      exact keepsStamps_setClient hpt ⟨rfl, rfl⟩
    have hu' : u.mytimestamp = s.mytimestamp := by
      rw [hu]
      exact hbefore.clock
    have hjoined : KeepsStamps u s' ∧ s'.mytimestamp = u.mytimestamp := by
      rcases hjoin with h | h
      · exact ⟨h.stamps, h.clock⟩
      · exact h.stamps
    exact ⟨((hset.trans hbefore.stamps).trans hlogin).trans hjoined.1, hjoined.2.trans hu'⟩
  | character character name text l ht hc he hname htext hl h =>
    rw [h]
    exact ⟨keepsStamps_setClient hp ⟨rfl, rfl⟩, rfl⟩
  | doing doing name l ht hc he hname hl h =>
    rw [h]
    exact ⟨keepsStamps_setClient hp ⟨rfl, rfl⟩, rfl⟩

/-- A message changes no activity time. -/
theorem ActFrame.stamps {recvBits : Int} {data : Bytes}
    (h : ActFrame env s (.task fd recvBits data) s') :
    KeepsStamps s s' ∧ (s'.mytimestamp = s.mytimestamp ∨ s'.mytimestamp = env.now) := by
  cases h with
  | kept now hnow hnot h =>
    refine ⟨h.stamps, ?_⟩
    rw [h.clock]
    exact hnow
  | accept k node ha h => cases ha
  | input k ha h => cases ha
  | event k r d p c e ha hfd hp hdecode h =>
    obtain ⟨hstamps, hclock⟩ := h.stamps (s := s.tick env.now) hp
    exact ⟨hstamps, Or.inr hclock⟩

end ArpgServer
