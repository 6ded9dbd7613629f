import ArpgServer.Effects.Rooms
import ArpgServer.Messages.Templates
import ArpgServer.Model.Lists

/-!
# The list replies

A list reply is complete when its messages hold the entries of all that are listed, in order
and each entry whole in one message. The loops test for a full buffer with the length of the
entry before, so an entry may leave `msgbuffer` when it is longer than that one by more than the
room that is left. Apart from that, and from an entry that its own buffer cuts, nothing is lost.
-/

namespace ArpgServer

variable {env : Env} {s : State} {p : Addr} {c me node : Client} {b b' : ListBuffers}
  {room : Room} {entry : Notice} {entries : List Notice} {texts : List Bytes} {l : List Addr}

/-! ## What is listed -/

/-- The entries of the members that are authenticated and not the one who asks. -/
def userEntries (env : Env) (s : State) (me : Client) : List Addr → Option (List Notice)
  | [] => some []
  | p :: rest =>
    (s.heap p).bind fun cur =>
      if cur.fd ≠ me.fd ∧ cur.state = .success then
        (profileAt env s p).bind fun profile =>
          (userEntries env s me rest).map (Notice.userAdd profile :: ·)
      else userEntries env s me rest

def Room.isListed (room : Room) : Bool := room.enable = 1 ∧ room.visable = 1

/-- The entries of the rooms that are open and visible. -/
def roomEntries (s : State) (rooms : List Nat) : List Notice :=
  (rooms.filter fun i => (s.rooms i).isListed).map fun i : Nat =>
    .roomAdd i (s.rooms i).name (s.rooms i).num

/-- No room is listed behind one that is not and has no name. -/
def NamedBefore (s : State) : Prop :=
  ∀ i k, i < k → k < maxRooms → (s.rooms i).isListed = false → (s.rooms i).name = none →
    (s.rooms k).isListed = false

theorem flatten_groups (f : Notice → Bytes) (groups : List (List Notice)) :
    (groups.map fun group => group.flatMap f).flatten = groups.flatten.flatMap f := by
  induction groups with
  | nil => rfl
  | cons group groups ih =>
    rw [List.map_cons, List.flatten_cons, ih, List.flatten_cons, List.flatMap_append]

/-- The messages are made of the entries in order, each whole in one of them. -/
def Complete (texts : List Bytes) (entries : List Notice) : Prop :=
  ∃ groups : List (List Notice), groups.flatten = entries ∧
    texts = groups.map fun group => group.flatMap Notice.text

/-! ## What fits -/

/-- No entry leaves a buffer that holds `used` bytes and was last given `last`: it is emptied when
it has no room for as many bytes as before, and otherwise the next entry fits. -/
def NoneOutgrows : Nat → Nat → List Nat → Prop
  | _, _, [] => True
  | used, last, n :: rest =>
    if tempBufferLength ≤ used + last then NoneOutgrows n n rest
    else used + n < tempBufferLength ∧ NoneOutgrows (used + n) n rest

instance decidableNoneOutgrows : (used last : Nat) → (sizes : List Nat) →
    Decidable (NoneOutgrows used last sizes)
  | _, _, [] => isTrue trivial
  | used, last, n :: rest =>
    haveI := decidableNoneOutgrows n n rest
    haveI := decidableNoneOutgrows (used + n) n rest
    inferInstanceAs (Decidable (if tempBufferLength ≤ used + last then NoneOutgrows n n rest
      else used + n < tempBufferLength ∧ NoneOutgrows (used + n) n rest))

/-- Every entry fits its buffer, and none is longer than the one before it by more than the room
that is left. -/
def EntriesFit (entries : List Notice) : Prop :=
  (∀ entry ∈ entries, entry.text.length < maxBufferLength) ∧
    NoneOutgrows 0 0 (entries.map fun entry => entry.text.length)

/-- The text of a list message. -/
def messageText (msg : List Notice) : Bytes := msg.flatMap Notice.formatted

theorem ListBuffers.put_eq_some (h : b.put entry = some b') :
    (tempBufferLength ≤ b.msgbuffer.length + b.itembuffer ∧
        b' = ⟨entry.formatted, entry.formatted.length, b.messages ++ [b.msgbuffer]⟩) ∨
      (¬ tempBufferLength ≤ b.msgbuffer.length + b.itembuffer ∧
        b' = ⟨b.msgbuffer ++ entry.formatted, entry.formatted.length, b.messages⟩) := by
  unfold put append flush at h
  split at h
  · rename_i hfull
    obtain ⟨-, h⟩ := Option.ite_none_right_eq_some.mp h
    exact Or.inl ⟨hfull, (Option.some.inj h).symm⟩
  · rename_i hroom
    obtain ⟨-, h⟩ := Option.ite_none_right_eq_some.mp h
    exact Or.inr ⟨hroom, (Option.some.inj h).symm⟩

@[simp] theorem messageText_nil : messageText [] = [] := rfl

@[simp] theorem messageText_append (msg msg' : List Notice) :
    messageText (msg ++ msg') = messageText msg ++ messageText msg' := List.flatMap_append

@[simp] theorem messageText_singleton (n : Notice) : messageText [n] = n.formatted :=
  List.flatMap_singleton ..

/-- The entries so far: those in messages, and those that wait. -/
def ListBuffers.Holds (b : ListBuffers) (groups : List (List Notice)) (waiting : List Notice) :
    Prop :=
  b.messages = groups.map messageText ∧ b.msgbuffer = messageText waiting

theorem ListBuffers.put_holds {groups : List (List Notice)} {waiting : List Notice}
    (h : b.Holds groups waiting) (hput : b.put entry = some b') :
    ∃ groups' waiting', b'.Holds groups' waiting' ∧
      groups'.flatten ++ waiting' = groups.flatten ++ waiting ++ [entry] := by
  obtain ⟨hmessages, hwaiting⟩ := h
  rcases put_eq_some hput with ⟨-, rfl⟩ | ⟨-, rfl⟩
  · refine ⟨groups ++ [waiting], [entry], ⟨?_, ?_⟩, ?_⟩
    · simp [hmessages, hwaiting]
    · simp
    · simp
  · refine ⟨groups, waiting ++ [entry], ⟨hmessages, ?_⟩, ?_⟩
    · simp [hwaiting]
    · simp

theorem ListBuffers.start_holds (env : Env) : (start env).Holds [] [] := ⟨rfl, rfl⟩

theorem ListBuffers.putAll_holds {groups : List (List Notice)} {waiting : List Notice}
    (h : b.Holds groups waiting) (hput : entries.foldlM ListBuffers.put b = some b') :
    ∃ groups' waiting', b'.Holds groups' waiting' ∧
      groups'.flatten ++ waiting' = groups.flatten ++ waiting ++ entries := by
  induction entries generalizing b groups waiting with
  | nil =>
    cases hput
    exact ⟨groups, waiting, h, by simp⟩
  | cons entry entries ih =>
    rw [List.foldlM_cons] at hput
    obtain ⟨b₁, hput₁, hput⟩ := Option.bind_eq_some_iff.mp hput
    obtain ⟨groups₁, waiting₁, h₁, heq₁⟩ := b.put_holds h hput₁
    obtain ⟨groups₂, waiting₂, h₂, heq₂⟩ := ih h₁ hput
    refine ⟨groups₂, waiting₂, h₂, ?_⟩
    rw [heq₂, heq₁, List.append_assoc, List.singleton_append]

/-- The messages are groups of the entries, as far as `itembuffer` keeps them. -/
theorem ListBuffers.finish_putAll (hput : entries.foldlM ListBuffers.put (.start env) = some b)
    (hne : ∀ entry ∈ entries, entry.formatted ≠ []) :
    ∃ groups : List (List Notice), groups.flatten = entries ∧
      b.finish = groups.map messageText := by
  obtain ⟨groups, waiting, ⟨hmessages, hwaiting⟩, heq⟩ :=
    putAll_holds (start_holds env) hput
  simp only [List.flatten_nil, List.append_nil, List.nil_append] at heq
  unfold finish
  split
  · refine ⟨groups ++ [waiting], ?_, ?_⟩
    · simp [heq]
    · simp [hmessages, hwaiting]
  · rename_i hempty
    have hnil : waiting = [] := by
      cases waiting with
      | nil => rfl
      | cons entry waiting =>
        have hitem := hne entry (heq ▸ List.mem_append_right _ List.mem_cons_self)
        have hpos := List.length_pos_of_ne_nil hitem
        rw [hwaiting, messageText, List.flatMap_cons, List.length_append] at hempty
        omega
    refine ⟨groups, ?_, hmessages⟩
    rw [← heq, hnil, List.append_nil]

/-! ## What is cut -/

theorem item_eq_text (h : entry.text.length < maxBufferLength) : entry.formatted = entry.text :=
  List.take_of_length_le (by omega)

theorem items_eq_texts (h : ∀ entry ∈ entries, entry.text.length < maxBufferLength) :
    entries.flatMap Notice.formatted = entries.flatMap Notice.text :=
  List.flatMap_congr fun entry hentry => item_eq_text (h entry hentry)

theorem length_items (entries : List Notice) :
    (entries.flatMap Notice.formatted).length ≤ (entries.flatMap Notice.text).length ∧
      ((entries.flatMap Notice.text).length ≤ (entries.flatMap Notice.formatted).length →
        ∀ entry ∈ entries, entry.text.length < maxBufferLength) := by
  induction entries with
  | nil => simp
  | cons entry entries ih =>
    have hitem : entry.formatted.length = min (maxBufferLength - 1) entry.text.length :=
      List.length_take
    simp only [List.flatMap_cons, List.length_append, List.forall_mem_cons]
    refine ⟨by omega, fun hle => ?_⟩
    have hpos : 0 < maxBufferLength := by decide
    exact ⟨by omega, ih.2 (by omega)⟩

/-- When nothing is lost of some entries, none is cut and none is left out. -/
theorem short_of_items_eq {rest : List Notice}
    (h : entries.flatMap Notice.formatted = (entries ++ rest).flatMap Notice.text)
    (hne : ∀ entry ∈ rest, entry.text ≠ []) :
    (∀ entry ∈ entries, entry.text.length < maxBufferLength) ∧ rest = [] := by
  obtain ⟨hle, hshort⟩ := length_items entries
  have hlength := congrArg List.length h
  rw [List.flatMap_append, List.length_append] at hlength
  refine ⟨hshort (by omega), ?_⟩
  cases rest with
  | nil => rfl
  | cons entry rest =>
    have hpos := List.length_pos_of_ne_nil (hne entry List.mem_cons_self)
    rw [List.flatMap_cons, List.length_append] at hlength
    omega

/-! ## What stays in the buffer -/

theorem ListBuffers.put_isSome_iff (h : entry.text.length < maxBufferLength) (rest : List Nat) :
    (∃ b', b.put entry = some b' ∧ NoneOutgrows b'.msgbuffer.length b'.itembuffer rest) ↔
      NoneOutgrows b.msgbuffer.length b.itembuffer (entry.text.length :: rest) := by
  have hitem : entry.text.take (maxBufferLength - 1) = entry.text := item_eq_text h
  have hsize : maxBufferLength ≤ tempBufferLength := by decide
  rw [NoneOutgrows]
  unfold put append flush
  simp only [hitem]
  split
  · rename_i hfull
    have hfits : ([] : Bytes).length + entry.text.length < tempBufferLength := by
      rw [List.length_nil]
      omega
    simp only [if_pos hfits, Option.some.injEq, exists_eq_left', List.nil_append]
  · by_cases hfits : b.msgbuffer.length + entry.text.length < tempBufferLength
    · simp only [hfits, if_true, Option.some.injEq, exists_eq_left', List.length_append, true_and]
    · simp only [hfits, if_false, reduceCtorEq, false_and, exists_false]

theorem ListBuffers.putAll_isSome_iff
    (h : ∀ entry ∈ entries, entry.text.length < maxBufferLength) :
    (∃ b', entries.foldlM ListBuffers.put b = some b') ↔
      NoneOutgrows b.msgbuffer.length b.itembuffer
        (entries.map fun entry => entry.text.length) := by
  induction entries generalizing b with
  | nil => exact ⟨fun _ => trivial, fun _ => ⟨b, rfl⟩⟩
  | cons entry entries ih =>
    have hrest := fun e he => h e (List.mem_cons_of_mem _ he)
    rw [List.map_cons, ← put_isSome_iff (h entry List.mem_cons_self)]
    simp only [List.foldlM_cons, Option.bind_eq_bind, Option.bind_eq_some_iff, ← ih hrest]
    constructor
    · rintro ⟨b', b₁, hb₁, hb'⟩
      exact ⟨b₁, hb₁, b', hb'⟩
    · rintro ⟨b₁, hb₁, b', hb'⟩
      exact ⟨b', b₁, hb₁, hb'⟩

/-- What was in `itembuffer` before the first entry does not matter. -/
theorem noneOutgrows_start {sizes : List Nat} (last : Nat) :
    (∀ n ∈ sizes, n < maxBufferLength) →
      (NoneOutgrows 0 last sizes ↔ NoneOutgrows 0 0 sizes) := by
  intro h
  cases sizes with
  | nil => exact Iff.rfl
  | cons n rest =>
    have hn := h n List.mem_cons_self
    have hsize : maxBufferLength ≤ tempBufferLength := by decide
    have hfits : n < tempBufferLength := by omega
    have hempty : ¬ tempBufferLength ≤ 0 := by decide
    simp only [NoneOutgrows, Nat.zero_add, hempty, if_false, hfits, true_and]
    split <;> exact Iff.rfl

/-- Entries that are put into the buffer come out whole exactly when they fit. -/
theorem putAll_complete_iff (env : Env) {rest : List Notice}
    (hne : ∀ entry ∈ entries ++ rest, entry.text ≠ []) :
    (∃ b, entries.foldlM ListBuffers.put (.start env) = some b ∧
        Complete b.finish (entries ++ rest)) ↔
      EntriesFit entries ∧ rest = [] := by
  have hitems : ∀ entry ∈ entries, entry.formatted ≠ [] := by
    intro entry hentry
    have htext := hne entry (List.mem_append_left rest hentry)
    rw [Notice.formatted, Ne, List.take_eq_nil_iff, not_or]
    exact ⟨by decide, htext⟩
  have hsizes : (∀ entry ∈ entries, entry.text.length < maxBufferLength) →
      ∀ n ∈ entries.map (fun entry => entry.text.length), n < maxBufferLength := by
    intro h n hn
    obtain ⟨entry, hentry, rfl⟩ := List.mem_map.mp hn
    exact h entry hentry
  constructor
  · rintro ⟨b, hput, groups, hgroups, hfinish⟩
    obtain ⟨groups', hgroups', hfinish'⟩ := ListBuffers.finish_putAll hput hitems
    have hall : entries.flatMap Notice.formatted = (entries ++ rest).flatMap Notice.text := by
      have hflatten : (groups'.map fun group => group.flatMap Notice.formatted).flatten =
          (groups.map fun group => group.flatMap Notice.text).flatten :=
        congrArg List.flatten (hfinish'.symm.trans hfinish)
      rwa [flatten_groups, flatten_groups, hgroups, hgroups'] at hflatten
    obtain ⟨hshort, hrest⟩ :=
      short_of_items_eq hall fun entry hentry => hne entry (List.mem_append_right _ hentry)
    refine ⟨⟨hshort, ?_⟩, hrest⟩
    rw [← noneOutgrows_start env.itembuffer (hsizes hshort)]
    exact (ListBuffers.putAll_isSome_iff hshort).mp ⟨b, hput⟩
  · rintro ⟨⟨hshort, hnone⟩, rfl⟩
    rw [← noneOutgrows_start env.itembuffer (hsizes hshort)] at hnone
    obtain ⟨b, hput⟩ := (ListBuffers.putAll_isSome_iff (b := .start env) hshort).mpr hnone
    obtain ⟨groups, hgroups, hfinish⟩ := ListBuffers.finish_putAll hput hitems
    refine ⟨b, hput, groups, by rw [hgroups, List.append_nil], ?_⟩
    rw [hfinish]
    refine List.map_congr_left fun group hgroup => items_eq_texts fun entry hentry => ?_
    exact hshort entry (hgroups ▸ List.mem_flatten_of_mem hgroup hentry)

/-! ## The functions -/

theorem userlistTexts_eq (h : userEntries env s me l = some entries) (b : ListBuffers) :
    userlistTexts env s me l b =
      (entries.foldlM ListBuffers.put b).map ListBuffers.finish := by
  induction l generalizing b entries with
  | nil =>
    cases h
    rfl
  | cons q l ih =>
    obtain ⟨cur, hcur, h⟩ := Option.bind_eq_some_iff.mp h
    simp only [userlistTexts, hcur, Option.bind_some]
    split at h
    · rename_i hlisted
      obtain ⟨profile, hprofile, h⟩ := Option.bind_eq_some_iff.mp h
      obtain ⟨rest, hrest, rfl⟩ := Option.map_eq_some_iff.mp h
      rw [if_pos hlisted, hprofile, Option.bind_some, List.foldlM_cons, Option.bind_eq_bind]
      cases b.put (.userAdd profile) with
      | none => rfl
      | some b₁ => exact ih hrest b₁
    · rename_i hlisted
      rw [if_neg hlisted]
      exact ih h b

/-- The loop goes on while rooms are listed or have a name. -/
def Room.goesOn (room : Room) : Bool := room.isListed || room.name.isSome

theorem roomlistTexts_eq (rooms : List Nat) (b : ListBuffers) :
    roomlistTexts s rooms b =
      ((roomEntries s (rooms.takeWhile fun i => (s.rooms i).goesOn)).foldlM
        ListBuffers.put b).map ListBuffers.finish := by
  induction rooms generalizing b with
  | nil => rfl
  | cons i rooms ih =>
    simp only [roomlistTexts, List.takeWhile_cons]
    by_cases hlisted : (s.rooms i).enable = 1 ∧ (s.rooms i).visable = 1
    · have hroom : (s.rooms i).isListed = true := decide_eq_true hlisted
      have hgoes : (s.rooms i).goesOn = true := by rw [Room.goesOn, hroom, Bool.true_or]
      rw [if_pos hlisted, if_pos hgoes]
      simp only [roomEntries, List.filter_cons, hroom, if_true, List.map_cons, List.foldlM_cons,
        Option.bind_eq_bind]
      cases b.put (.roomAdd i (s.rooms i).name (s.rooms i).num) with
      | none => rfl
      | some b₁ => exact ih b₁
    · have hroom : (s.rooms i).isListed = false := decide_eq_false hlisted
      rw [if_neg hlisted]
      by_cases hname : (s.rooms i).name = none
      · have hgoes : (s.rooms i).goesOn = false := by
          rw [Room.goesOn, hroom, hname]
          rfl
        rw [if_pos hname, hgoes]
        rfl
      · have hgoes : (s.rooms i).goesOn = true := by
          rw [Room.goesOn, Option.isSome_iff_ne_none.mpr hname, Bool.or_true]
        rw [if_neg hname, if_pos hgoes, ih]
        simp only [roomEntries, List.filter_cons, hroom, Bool.false_eq_true, if_false]

theorem roomEntries_eq_nil {rooms : List Nat} :
    roomEntries s rooms = [] ↔ ∀ k ∈ rooms, (s.rooms k).isListed = false := by
  rw [roomEntries, List.map_eq_nil_iff, List.filter_eq_nil_iff]
  simp only [Bool.not_eq_true]

theorem dropWhile_unlisted_iff (rooms : List Nat) :
    (∀ k ∈ rooms.dropWhile fun i => (s.rooms i).goesOn, (s.rooms k).isListed = false) ↔
      rooms.Pairwise fun i k => (s.rooms i).goesOn = false → (s.rooms k).isListed = false := by
  induction rooms with
  | nil => simp
  | cons i rooms ih =>
    rw [List.dropWhile_cons, List.pairwise_cons]
    by_cases hgoes : (s.rooms i).goesOn = true
    · rw [if_pos hgoes, ih]
      simp [hgoes]
    · have hgoes : (s.rooms i).goesOn = false := by simpa using hgoes
      have hroom : (s.rooms i).isListed = false := (Bool.or_eq_false_iff.mp hgoes).1
      simp only [hgoes, Bool.false_eq_true, if_false, List.forall_mem_cons, hroom, true_and,
        true_implies]
      refine ⟨fun h => ⟨h, ?_⟩, fun h => h.1⟩
      exact List.pairwise_of_forall_mem_list fun _ _ k hk _ => h k hk

/-- Nothing is listed behind the room where the loop ends. -/
theorem namedBefore_iff : NamedBefore s ↔
    roomEntries s ((List.range maxRooms).dropWhile fun i => (s.rooms i).goesOn) = [] := by
  rw [roomEntries_eq_nil, dropWhile_unlisted_iff, List.pairwise_iff_getElem]
  simp only [List.length_range, List.getElem_range]
  constructor
  · intro h i k _ hk hik hgoes
    obtain ⟨hroom, hname⟩ := Bool.or_eq_false_iff.mp hgoes
    exact h i k hik hk hroom (by simpa using hname)
  · intro h i k hik hk hroom hname
    refine h i k (hik.trans hk) hk hik ?_
    rw [Room.goesOn, hroom, hname]
    rfl

theorem roomEntries_split (s : State) (rooms : List Nat) : roomEntries s rooms =
    roomEntries s (rooms.takeWhile fun i => (s.rooms i).goesOn) ++
      roomEntries s (rooms.dropWhile fun i => (s.rooms i).goesOn) := by
  rw [roomEntries, roomEntries, roomEntries, ← List.map_append, ← List.filter_append,
    List.takeWhile_append_dropWhile]

theorem eventHead_append_ne_nil (type : Int) (rest : Bytes) : eventHead type ++ rest ≠ [] := by
  have hhead : eventHead type ≠ [] := by
    rw [eventHead, Ne, List.append_eq_nil_iff, List.append_eq_nil_iff]
    rintro ⟨⟨hnil, -⟩, -⟩
    exact absurd hnil (by decide)
  simp [hhead]

theorem userEntries_ne_nil (h : userEntries env s me l = some entries) :
    ∀ entry ∈ entries, entry.text ≠ [] := by
  induction l generalizing entries with
  | nil =>
    cases h
    simp
  | cons q l ih =>
    obtain ⟨cur, -, h⟩ := Option.bind_eq_some_iff.mp h
    split at h
    · obtain ⟨profile, -, h⟩ := Option.bind_eq_some_iff.mp h
      obtain ⟨rest, hrest, rfl⟩ := Option.map_eq_some_iff.mp h
      refine List.forall_mem_cons.mpr ⟨?_, ih hrest⟩
      rw [Notice.text, List.append_assoc]
      exact eventHead_append_ne_nil _ _
    · exact ih h

theorem roomEntries_ne_nil (s : State) (rooms : List Nat) :
    ∀ entry ∈ roomEntries s rooms, entry.text ≠ [] := by
  intro entry hentry
  obtain ⟨i, -, rfl⟩ := List.mem_map.mp hentry
  rw [Notice.text, List.append_assoc, List.append_assoc, List.append_assoc]
  exact eventHead_append_ne_nil _ _

theorem exists_map_finish {x : Option ListBuffers} :
    (∃ texts, x.map ListBuffers.finish = some texts ∧ Complete texts entries) ↔
      ∃ b, x = some b ∧ Complete b.finish entries := by
  constructor
  · rintro ⟨texts, hx, hcomplete⟩
    obtain ⟨b, hb, rfl⟩ := Option.map_eq_some_iff.mp hx
    exact ⟨b, hb, hcomplete⟩
  · rintro ⟨b, rfl, hcomplete⟩
    exact ⟨b.finish, rfl, hcomplete⟩

theorem sendUserlist_complete_iff (hp : s.heap p = some node)
    (hroom : s.room? node.roomid = some room) (hen : room.enable ≠ 0)
    (hentries : userEntries env s node room.rClient = some entries) :
    (∃ texts, sendUserlistTexts env p s = some texts ∧ Complete texts entries) ↔
      EntriesFit entries := by
  have hne : ∀ entry ∈ entries ++ [], entry.text ≠ [] := by
    rw [List.append_nil]
    exact userEntries_ne_nil hentries
  have h := putAll_complete_iff env hne
  simp only [List.append_nil, and_true] at h
  rw [← h, ← exists_map_finish]
  simp only [sendUserlistTexts, hp, Option.bind_some, hroom, if_pos hen,
    userlistTexts_eq hentries]

theorem sendRoomlist_complete_iff (hp : s.heap p = some node) :
    (∃ texts, sendRoomlistTexts env p s = some texts ∧
        Complete texts (roomEntries s (List.range maxRooms))) ↔
      EntriesFit (roomEntries s (List.range maxRooms)) ∧ NamedBefore s := by
  have hsplit := roomEntries_split s (List.range maxRooms)
  have hne := roomEntries_ne_nil s (List.range maxRooms)
  rw [hsplit] at hne
  have h := putAll_complete_iff env hne
  rw [← hsplit, ← namedBefore_iff, ← exists_map_finish, ← roomlistTexts_eq] at h
  simp only [sendRoomlistTexts, hp, Option.bind_some]
  rw [h]
  refine and_congr_left fun hnamed => ?_
  rw [namedBefore_iff] at hnamed
  rw [hsplit, hnamed, List.append_nil]

/-! ## The messages as events -/

theorem Notice.length_formatted (n : Notice) : n.formatted.length = n.bufferLength := by
  rw [Notice.formatted, List.length_take, Notice.bufferLength, Nat.min_comm]

theorem messageText_push (msg : List Notice) (n : Notice) :
    messageText (msg ++ [n]) = messageText msg ++ n.formatted := by
  simp [messageText]

theorem msgLength_eq (msg : List Notice) : msgLength msg = (messageText msg).length := by
  induction msg with
  | nil => rfl
  | cons n msg ih =>
    rw [messageText, List.flatMap_cons, List.length_append, n.length_formatted]
    rw [msgLength, List.map_cons, List.sum_cons, ← msgLength, ih, messageText]

theorem ListBuffers.finish_refines {msg : List Notice} (hmsg : b.msgbuffer = messageText msg) :
    b.finish = b.messages ++ (if 0 < msgLength msg then [msg] else []).map messageText := by
  unfold finish
  rw [msgLength_eq, hmsg]
  split <;> simp

/-- The buffers hold the events of the loop over lists. -/
theorem userlistTexts_refines {msg : List Notice} (hmsg : b.msgbuffer = messageText msg)
    (h : userlistTexts env s me l b = some texts) :
    ∃ msgs, userlist env s me l msg b.itembuffer = some msgs ∧
      texts = b.messages ++ msgs.map messageText := by
  induction l generalizing b msg with
  | nil =>
    cases h
    exact ⟨_, rfl, ListBuffers.finish_refines hmsg⟩
  | cons q l ih =>
    obtain ⟨cur, hcur, h⟩ := Option.bind_eq_some_iff.mp h
    simp only [userlist, hcur, Option.bind_some]
    split at h
    · rename_i hlisted
      obtain ⟨profile, hprofile, h⟩ := Option.bind_eq_some_iff.mp h
      obtain ⟨b₁, hput, h⟩ := Option.bind_eq_some_iff.mp h
      rw [if_pos hlisted, hprofile, Option.bind_some, msgLength_eq, ← hmsg]
      have hitem := (Notice.userAdd profile).length_formatted
      rcases ListBuffers.put_eq_some hput with ⟨hfull, rfl⟩ | ⟨hroom, rfl⟩
      · obtain ⟨msgs, hmsgs, rfl⟩ := ih (messageText_singleton _).symm h
        rw [if_pos hfull, ← hitem, hmsgs]
        exact ⟨_, rfl, by simp [hmsg]⟩
      · obtain ⟨msgs, hmsgs, rfl⟩ := ih (hmsg ▸ (messageText_push _ _).symm) h
        rw [if_neg hroom, ← hitem]
        exact ⟨msgs, hmsgs, rfl⟩
    · rename_i hlisted
      rw [if_neg hlisted]
      exact ih hmsg h

theorem roomlistTexts_refines {msg : List Notice} (hmsg : b.msgbuffer = messageText msg)
    {rooms : List Nat} (h : roomlistTexts s rooms b = some texts) :
    texts = b.messages ++ (roomlist s rooms msg b.itembuffer).map messageText := by
  induction rooms generalizing b msg with
  | nil =>
    cases h
    exact ListBuffers.finish_refines hmsg
  | cons i rooms ih =>
    simp only [roomlistTexts] at h
    simp only [roomlist]
    split at h
    · rename_i hlisted
      obtain ⟨b₁, hput, h⟩ := Option.bind_eq_some_iff.mp h
      rw [if_pos hlisted, msgLength_eq, ← hmsg]
      generalize Notice.roomAdd i (s.rooms i).name (s.rooms i).num = entry at hput
      have hitem := entry.length_formatted
      rcases ListBuffers.put_eq_some hput with ⟨hfull, rfl⟩ | ⟨hroom, rfl⟩
      · rw [if_pos hfull, ← hitem, ih (messageText_singleton _).symm h]
        simp [hmsg]
      · rw [if_neg hroom, ← hitem]
        exact ih (hmsg ▸ (messageText_push _ _).symm) h
    · rename_i hlisted
      rw [if_neg hlisted]
      split at h
      · rename_i hname
        cases h
        rw [if_pos hname]
        exact ListBuffers.finish_refines hmsg
      · rename_i hname
        rw [if_neg hname]
        exact ih hmsg h

/-- What a complete list reply hands to `send_message` are the texts of the events sent. -/
theorem sendUserlist_texts (h : sendUserlistTexts env p s = some texts) :
    ∃ (s' : State) (node : Client) (msgs : List (List Notice)),
      sendUserlist env p s = some s' ∧ s.heap p = some node ∧
      s' = s.post (msgs.map fun m => ⟨node.fd, m⟩) ∧ texts = msgs.map messageText := by
  obtain ⟨node, hp, h⟩ := Option.bind_eq_some_iff.mp h
  obtain ⟨room, hroom, h⟩ := Option.bind_eq_some_iff.mp h
  simp only [sendUserlist, hp, hroom, Option.bind_some]
  split at h
  · rename_i hen
    obtain ⟨msgs, hmsgs, htexts⟩ := userlistTexts_refines (ListBuffers.start_holds env).2 h
    rw [if_pos hen]
    refine ⟨_, node, msgs, ?_, rfl, rfl, htexts⟩
    rw [show env.itembuffer = (ListBuffers.start env).itembuffer from rfl, hmsgs, Option.map_some]
  · rename_i hen
    cases h
    rw [if_neg hen]
    exact ⟨s, node, [], rfl, rfl, by simp, rfl⟩

theorem sendRoomlist_texts (h : sendRoomlistTexts env p s = some texts) :
    ∃ (s' : State) (node : Client) (msgs : List (List Notice)),
      sendRoomlist env p s = some s' ∧ s.heap p = some node ∧
      s' = s.post (msgs.map fun m => ⟨node.fd, m⟩) ∧ texts = msgs.map messageText := by
  obtain ⟨node, hp, h⟩ := Option.bind_eq_some_iff.mp h
  refine ⟨_, node, roomlist s (List.range maxRooms) [] env.itembuffer, ?_, hp, rfl, ?_⟩
  · rw [sendRoomlist, hp, Option.map_some]
  · exact roomlistTexts_refines (ListBuffers.start_holds env).2 h

/-! ## Complete replies -/

/-- Entries that never get longer fit. -/
theorem noneOutgrows_of_sorted {used last : Nat} {sizes : List Nat}
    (h : (last :: sizes).Pairwise (· ≥ ·)) (hsmall : ∀ n ∈ sizes, n < maxBufferLength) :
    NoneOutgrows used last sizes := by
  induction sizes generalizing used last with
  | nil => exact trivial
  | cons n sizes ih =>
    obtain ⟨hlast, hrest⟩ := List.pairwise_cons.mp h
    have hn : n ≤ last := hlast n List.mem_cons_self
    have hsmall' := fun m hm => hsmall m (List.mem_cons_of_mem _ hm)
    unfold NoneOutgrows
    split
    · exact ih hrest hsmall'
    · exact ⟨by omega, ih hrest hsmall'⟩

/-- **List replies.** Both replies are complete exactly when all their entries fit, and for the
rooms when none is listed behind the end of the list. -/
theorem lists_complete_iff (env : Env) (hp : s.heap p = some node) :
    (∀ room entries, s.room? node.roomid = some room → room.enable ≠ 0 →
        userEntries env s node room.rClient = some entries →
        ((∃ texts, sendUserlistTexts env p s = some texts ∧ Complete texts entries) ↔
          EntriesFit entries)) ∧
      ((∃ texts, sendRoomlistTexts env p s = some texts ∧
          Complete texts (roomEntries s (List.range maxRooms))) ↔
        EntriesFit (roomEntries s (List.range maxRooms)) ∧ NamedBefore s) :=
  ⟨fun _ _ hroom hen hentries => sendUserlist_complete_iff hp hroom hen hentries,
    sendRoomlist_complete_iff hp⟩

/-- The second guest in the lobby is told about the first. -/
theorem lists_complete_iff_guest : ∃ (s : State) (node : Client) (entries : List Notice)
    (texts : List Bytes), Reachable s ∧ s.heap 200 = some node ∧ entries.length = 1 ∧
    sendUserlistTexts (.delivering 0 guestLogin) 200 s = some texts ∧ Complete texts entries := by
  have hcheck : (actAll (State.start fun _ => lobbyConf) [connect 5 100, connect 6 200,
      deliver 0 5 guestLogin, deliver 1 6 guestLogin]).any (fun s =>
        (s.heap 200).any fun node : Client => (s.room? node.roomid).any fun room =>
          room.enable ≠ 0 ∧ (userEntries (.delivering 0 guestLogin) s node room.rClient).any
            fun entries => entries.length = 1 ∧
              ∀ entry ∈ entries, entry.text.length < maxBufferLength) := by
    decide +kernel
  obtain ⟨s, hrun, hs⟩ := (Option.any_eq_true _ _).mp hcheck
  obtain ⟨node, hnode, hs⟩ := (Option.any_eq_true _ _).mp hs
  obtain ⟨room, hroom, hs⟩ := (Option.any_eq_true _ _).mp hs
  obtain ⟨hen, hs⟩ := of_decide_eq_true hs
  obtain ⟨entries, hentries, hs⟩ := (Option.any_eq_true _ _).mp hs
  obtain ⟨hone, hshort⟩ := of_decide_eq_true hs
  obtain ⟨entry, rfl⟩ := List.length_eq_one_iff.mp hone
  have hsmall := hshort entry (List.mem_singleton_self entry)
  have hfit : EntriesFit [entry] := by
    refine ⟨hshort, ?_⟩
    have hempty : ¬ tempBufferLength ≤ 0 + 0 := by decide
    have hsize : maxBufferLength ≤ tempBufferLength := by decide
    simp only [List.map_cons, List.map_nil, NoneOutgrows, if_neg hempty, and_true]
    omega
  obtain ⟨texts, htexts, hcomplete⟩ :=
    ((lists_complete_iff (.delivering 0 guestLogin) hnode).1 room [entry] hroom hen hentries).mpr
      hfit
  exact ⟨s, node, [entry], texts, reachable_of_actAll hrun, hnode, rfl, htexts, hcomplete⟩

/-- Fifty rooms whose names have one letter, but for one of thirty. -/
def fiftyRooms (r : Nat) : RoomConf :=
  { enable := 1, anonymous := 1, visable := 1
    name := some (List.replicate (if r = 42 then 30 else 1) 97) }

/-- A longer name behind short ones leaves the buffer. -/
theorem lists_not_complete : ¬ ∀ (env : Env) (s : State) (p : Addr) (node : Client), Reachable s →
    s.heap p = some node → ∃ texts, sendRoomlistTexts env p s = some texts ∧
      Complete texts (roomEntries s (List.range maxRooms)) := by
  intro hall
  have hcheck : (actAll (State.start fiftyRooms) [connect 5 100]).any (fun s =>
      (s.heap 100).isSome ∧ ¬ NoneOutgrows 0 0
        ((roomEntries s (List.range maxRooms)).map fun entry => entry.text.length)) := by
    decide +kernel
  obtain ⟨s, hrun, hs⟩ := (Option.any_eq_true _ _).mp hcheck
  obtain ⟨hheap, hgrows⟩ := of_decide_eq_true hs
  obtain ⟨node, hnode⟩ := Option.isSome_iff_exists.mp hheap
  have hcomplete := hall (.delivering 0 guestLogin) s 100 node (reachable_of_actAll hrun) hnode
  exact hgrows ((sendRoomlist_complete_iff hnode).mp hcomplete).1.2

end ArpgServer
