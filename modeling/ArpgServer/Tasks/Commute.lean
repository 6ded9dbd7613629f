import ArpgServer.Tasks.Kinds

/-!
# Sections that commute

What a section of each kind does to the tables, and what its result depends on. From this
follows that sections of kinds that are apart give the same in either order.
-/

namespace ArpgServer

open CText Proc

variable {env : Env} {s s' t t' : State} {p q : Addr} {c d : Client} {fd : Nat} {e : Event}
  {α β γ : Type} {f : State → Option (β × State)} {g : State → Option (γ × State)}
  {κ κ' : Kind}

/-! ## What sections depend on -/

/-- The record without what only its owner writes. -/
def Client.outline (c : Client) : Client :=
  { c with
    character := CharArray.zero 32, doing := CharArray.zero 24, direction := 0, x := 0, y := 0 }

/-- What an outline shows. -/
structure Client.Akin (c d : Client) : Prop where
  fd : d.fd = c.fd
  roomid : d.roomid = c.roomid
  state : d.state = c.state
  type : d.type = c.type
  username : d.username = c.username

theorem Client.akin (h : d.outline = c.outline) : c.Akin d := by
  simp only [Client.outline, Client.mk.injEq] at h
  obtain ⟨hfd, hroom, hstate, htype, -, -, hname, -⟩ := h
  exact ⟨hfd, hroom, hstate, htype, hname⟩

/-- States that differ in the clock, in what was sent and in what outlines leave out. -/
structure Akin (s t : State) : Prop where
  fdClients : t.fdClients = s.fdClients
  rooms : t.rooms = s.rooms
  hashSize : t.hashSize = s.hashSize
  hashTable : t.hashTable = s.hashTable
  outline : ∀ q, (t.heap q).map Client.outline = (s.heap q).map Client.outline

namespace Akin

theorem cases (h : Akin s t) (q : Addr) : (s.heap q = none ∧ t.heap q = none) ∨
    ∃ c d, s.heap q = some c ∧ t.heap q = some d ∧ d.outline = c.outline := by
  have hq := h.outline q
  cases hs : s.heap q with
  | none =>
    rw [hs] at hq
    exact Or.inl ⟨rfl, Option.map_eq_none_iff.mp hq⟩
  | some c =>
    rw [hs] at hq
    obtain ⟨d, hd, heq⟩ := Option.map_eq_some_iff.mp hq
    exact Or.inr ⟨c, d, rfl, hd, heq⟩

theorem map_eq (h : Akin s t) {F : Client → α} (hF : ∀ c d : Client, d.outline = c.outline →
    F d = F c) (q : Addr) : (t.heap q).map F = (s.heap q).map F := by
  rcases h.cases q with ⟨hs, ht⟩ | ⟨c, d, hc, hd, heq⟩
  · rw [hs, ht]
  · rw [hc, hd, Option.map_some, Option.map_some, hF c d heq]

theorem broadcast (h : Akin s t) (n n' : Notice) (l : List Addr) :
    (broadcast t n' l).isSome = (broadcast s n l).isSome := by
  induction l with
  | nil => rfl
  | cons q rest ih =>
    rcases h.cases q with ⟨hs, ht⟩ | ⟨c, d, hc, hd, -⟩
    · simp only [ArpgServer.broadcast, hs, ht, Option.bind_none]
    · simp only [ArpgServer.broadcast, hc, hd, Option.bind_some, Option.isSome_map, ih]

theorem sendMessageAll (h : Akin s t) {fd fd' : Nat} (hfd : fd' = fd) (n n' : Notice) :
    (sendMessageAll t fd' n').isSome = (sendMessageAll s fd n).isSome := by
  subst hfd
  simp only [ArpgServer.sendMessageAll, h.fdClients]
  cases s.fdClients fd' with
  | none => rfl
  | some q =>
    dsimp only
    rcases h.cases q with ⟨hs, ht⟩ | ⟨c, d, hc, hd, heq⟩
    · rw [hs, ht]
      rfl
    · have hroom := (Client.akin heq).roomid
      simp only [hc, hd, Option.bind_some, hroom, h.rooms]
      split
      · rw [Option.isSome_map, Option.isSome_map, h.broadcast]
      · rfl

theorem getFdnodeByname (h : Akin s t) (env : Env) (name : Bytes) (ufd : Int) :
    getFdnodeByname env t name ufd = getFdnodeByname env s name ufd := by
  have hkey : ∀ name item, keyIs env t item name = keyIs env s item name := fun name item =>
    keyIs_of_username (h.map_eq (fun _ _ heq => (Client.akin heq).username) item.key)
  have hbucket : t.bucketOf name = s.bucketOf name := by
    rw [State.bucketOf, State.bucketOf, h.hashSize]
  simp only [ArpgServer.getFdnodeByname, hashSearch, h.hashSize, h.hashTable, hbucket,
    chainFrom_of_keyIs (hkey name), h.fdClients]
  congr 1
  funext found
  rw [fdByName_of_keyIs (hkey name)]

theorem nameAt (h : Akin s t) (env : Env) (q : Addr) : nameAt env t q = nameAt env s q := by
  unfold ArpgServer.nameAt
  rcases h.cases q with ⟨hs, ht⟩ | ⟨c, d, hc, hd, heq⟩
  · rw [hs, ht]
  · simp only [hc, hd, (Client.akin heq).username]

theorem of_tables (h : Akin s t) (ht : t'.tables = t.tables) : Akin s t' := by
  rw [State.eq_withSent ht.symm]
  exact ⟨h.fdClients, h.rooms, h.hashSize, h.hashTable, h.outline⟩

/-- The client's record is set in both states. -/
theorem setClient (h : Akin s t) (hcd : d.outline = c.outline) :
    Akin (s.setClient q c) (t.setClient q d) := by
  refine ⟨h.fdClients, h.rooms, h.hashSize, h.hashTable, fun k => ?_⟩
  by_cases hk : k = q
  · simp [hk, hcd]
  · simpa [hk] using h.outline k

end Akin

/-! ## What sections do -/

/-- The client's record, rewritten. -/
def State.edit (s : State) (p : Addr) (φ : Client → Client) : State :=
  { s with heap := Function.update s.heap p ((s.heap p).map φ) }

theorem State.edit_eq (hp : s.heap p = some c) (φ : Client → Client) :
    s.edit p φ = s.setClient p (φ c) := by
  rw [State.edit, hp, Option.map_some, State.setClient]

theorem State.edit_comm (s : State) (p : Addr) {φ ψ : Client → Client}
    (h : ∀ c, ψ (φ c) = φ (ψ c)) : (s.edit p φ).edit p ψ = (s.edit p ψ).edit p φ := by
  have hcomp : ψ ∘ φ = φ ∘ ψ := funext h
  simp only [State.edit, Function.update_self, Function.update_idem, Option.map_map, hcomp]

/-- The position a `move` gives the client. -/
def placed (e : Event) (c : Client) : Client :=
  match e.attr .x, e.attr .y with
  | some x, some y => { setDirection c e with x := atoi x, y := atoi y }
  | _, _ => setDirection c e

/-- What a section of the kind does to the state, but for the messages. -/
inductive Writes (p : Addr) : Kind → (State → State) → Prop
  | look : Writes p .look id
  | speak : Writes p .speak id
  | clock (now : Int) : Writes p (.clock now) fun s => s.tick now
  | place (e : Event) : Writes p .place fun s => s.edit p (placed e)
  | doing (φ : CharArray 24 → CharArray 24) :
      Writes p .doing fun s => s.edit p fun c => { c with doing := φ c.doing }
  | character (φ : CharArray 32 → CharArray 32) :
      Writes p .character fun s => s.edit p fun c => { c with character := φ c.character }

theorem setDirection_outline (c : Client) (e : Event) : (setDirection c e).outline = c.outline := by
  unfold setDirection
  split <;> rfl

theorem placed_outline (e : Event) (c : Client) : (placed e c).outline = c.outline := by
  unfold placed
  split
  · exact setDirection_outline c e
  · exact setDirection_outline c e

namespace Writes

variable {u v : State → State}

theorem tables (h : Writes p κ u) (s : State) : (u s).tables = u s.tables := by
  cases h <;> rfl

theorem akin (h : Writes p κ u) (s : State) : Akin s (u s) := by
  have hedit : ∀ φ : Client → Client, (∀ c, (φ c).outline = c.outline) → Akin s (s.edit p φ) := by
    intro φ hφ
    refine ⟨rfl, rfl, rfl, rfl, fun q => ?_⟩
    by_cases hq : q = p
    · subst hq
      simp only [State.edit, Function.update_self, Option.map_map]
      congr 1
      funext c
      exact hφ c
    · simp only [State.edit, Function.update_of_ne hq]
  cases h with
  | look => exact ⟨rfl, rfl, rfl, rfl, fun _ => rfl⟩
  | speak => exact ⟨rfl, rfl, rfl, rfl, fun _ => rfl⟩
  | clock now => exact ⟨rfl, rfl, rfl, rfl, fun _ => rfl⟩
  | place e => exact hedit _ (placed_outline e)
  | doing φ => exact hedit _ fun _ => rfl
  | character φ => exact hedit _ fun _ => rfl

theorem placed_doing (e : Event) (φ : CharArray 24 → CharArray 24) (c : Client) :
    placed e { c with doing := φ c.doing } = { placed e c with doing := φ (placed e c).doing } := by
  unfold placed setDirection
  split <;> split <;> rfl

theorem placed_character (e : Event) (φ : CharArray 32 → CharArray 32) (c : Client) :
    placed e { c with character := φ c.character } =
      { placed e c with character := φ (placed e c).character } := by
  unfold placed setDirection
  split <;> split <;> rfl

/-- Sections of kinds that are apart write different things. -/
theorem comm (hu : Writes p κ u) (hv : Writes p κ' v) (h : κ.apart κ') (s : State) :
    v (u s) = u (v s) := by
  cases hu with
  | look => rfl
  | speak => rfl
  | clock now =>
    cases hv with
    | clock now' =>
      obtain rfl : now = now' := of_decide_eq_true h
      rfl
    | _ => rfl
  | place e =>
    cases hv with
    | place e' => exact absurd h (by decide)
    | doing φ => exact State.edit_comm s p fun c => (placed_doing e φ c).symm
    | character φ => exact State.edit_comm s p fun c => (placed_character e φ c).symm
    | _ => rfl
  | doing φ =>
    cases hv with
    | doing ψ => exact absurd h (by decide)
    | place e => exact State.edit_comm s p (placed_doing e φ)
    | character ψ => exact State.edit_comm s p fun _ => rfl
    | _ => rfl
  | character φ =>
    cases hv with
    | character ψ => exact absurd h (by decide)
    | place e => exact State.edit_comm s p (placed_character e φ)
    | doing ψ => exact State.edit_comm s p fun _ => rfl
    | _ => rfl

end Writes

/-! ## Light sections -/

/-- What a section of a light kind does is one of the writes of its kind, and its result depends
on outlines only. -/
structure Light (p : Addr) (κ : Kind) (f : State → Option (β × State)) : Prop where
  edits : ∃ u, Writes p κ u ∧ Edits State.tables u f
  value : ∀ s t, Akin s t → value f t = value f s

theorem isSome_bind_congr {x y : Option α} (hxy : x = y) {F G : α → Option β}
    (h : ∀ a, (F a).isSome = (G a).isSome) : (x.bind F).isSome = (y.bind G).isSome := by
  subst hxy
  cases x with
  | none => rfl
  | some a => exact h a

theorem value_unit {F : State → Option State} (h : (F t).isSome = (F s).isSome) :
    value (unit F) t = value (unit F) s := by
  unfold value unit
  cases hs : F s <;> cases ht : F t <;> simp_all

theorem Light.unit {F : State → Option State} {u : State → State} (hu : Writes p κ u)
    (hedits : ∀ s t, F s = some t → t.tables = (u s).tables)
    (hsome : ∀ s t, Akin s t → (F t).isSome = (F s).isSome) : Light p κ (unit F) where
  edits := by
    refine ⟨u, hu, fun s b t h => ?_⟩
    obtain ⟨t', ht, heq⟩ := Option.map_eq_some_iff.mp h
    cases heq
    exact hedits s t ht
  value := fun s t h => value_unit (hsome s t h)

theorem tables_sendMessageAll {n : Notice} (h : sendMessageAll s fd n = some t) :
    t.tables = s.tables := by
  obtain ⟨l, rfl, -⟩ := sendMessageAll_post h
  rfl

theorem changeState_light (env : Env) (e : Event) :
    Light p .speak (ArpgServer.unit (changeStateSection env p fd e)) := by
  refine .unit .speak (fun s t h => ?_) fun s t h => ?_
  · obtain ⟨_, -, h⟩ := Option.bind_eq_some_iff.mp h
    obtain ⟨name, -, h⟩ := Option.bind_eq_some_iff.mp h
    exact tables_sendMessageAll h
  · simp only [changeStateSection, h.nameAt]
    cases e.attr .state with
    | none => rfl
    | some text =>
      cases nameAt env s p with
      | none => rfl
      | some name => exact h.sendMessageAll rfl _ _

theorem privateMessage_light (env : Env) (e : Event) (body : LocalPtr) : Light p .speak
    (ArpgServer.unit (privateMessageSection (getFdnodeByname env) env p fd e body)) := by
  refine .unit .speak (fun s t h => ?_) fun s t h => ?_
  · obtain ⟨target, -, h⟩ := Option.bind_eq_some_iff.mp h
    obtain ⟨c, -, h⟩ := Option.bind_eq_some_iff.mp h
    split at h
    · cases h
      rfl
    obtain ⟨self, -, h⟩ := Option.bind_eq_some_iff.mp h
    obtain ⟨name, -, h⟩ := Option.bind_eq_some_iff.mp h
    split at h
    · obtain ⟨text, -, rfl⟩ := Option.map_eq_some_iff.mp h
      rfl
    obtain ⟨node, -, h⟩ := Option.bind_eq_some_iff.mp h
    cases node with
    | none =>
      cases h
      rfl
    | some q =>
      obtain ⟨tonode, -, h⟩ := Option.bind_eq_some_iff.mp h
      obtain ⟨text, -, rfl⟩ := Option.map_eq_some_iff.mp h
      rfl
  · unfold privateMessageSection
    cases e.attr .target with
    | none => rfl
    | some target =>
      rcases h.cases p with ⟨hs, ht⟩ | ⟨c, d, hc, hd, heq⟩
      · simp only [hs, ht, Option.bind_some, Option.bind_none]
      · have hsame := Client.akin heq
        simp only [hc, hd, Option.bind_some, hsame.type, hsame.username, h.getFdnodeByname]
        split
        · rfl
        refine isSome_bind_congr rfl fun self => isSome_bind_congr rfl fun name => ?_
        split
        · rw [Option.isSome_map, Option.isSome_map]
        refine isSome_bind_congr rfl fun node => ?_
        cases node with
        | none => rfl
        | some q =>
          dsimp only
          rcases h.cases q with ⟨hs, ht⟩ | ⟨c', d', hc', hd', -⟩
          · rw [hs, ht]
            rfl
          · simp only [hc', hd', Option.bind_some, Option.isSome_map]

theorem publicMessage_light (env : Env) (body : LocalPtr) :
    Light p .speak (ArpgServer.unit (publicMessageSection env p fd body)) := by
  refine .unit .speak (fun s t h => ?_) fun s t h => ?_
  · obtain ⟨c, -, h⟩ := Option.bind_eq_some_iff.mp h
    split at h
    · cases h
      rfl
    · obtain ⟨name, -, h⟩ := Option.bind_eq_some_iff.mp h
      obtain ⟨text, -, h⟩ := Option.bind_eq_some_iff.mp h
      exact tables_sendMessageAll h
  · unfold publicMessageSection
    rcases h.cases p with ⟨hs, ht⟩ | ⟨c, d, hc, hd, heq⟩
    · rw [hs, ht]
      rfl
    · have hsame := Client.akin heq
      simp only [hc, hd, Option.bind_some, hsame.type, hsame.username]
      split
      · rfl
      · exact isSome_bind_congr rfl fun name => isSome_bind_congr rfl fun text =>
        h.sendMessageAll rfl _ _

theorem roomlist_light (env : Env) : Light p .speak (ArpgServer.unit (sendRoomlist env p)) := by
  refine .unit .speak (fun s t h => ?_) fun s t h => ?_
  · obtain ⟨node, -, rfl⟩ := Option.map_eq_some_iff.mp h
    rfl
  · unfold sendRoomlist
    rcases h.cases p with ⟨hs, ht⟩ | ⟨c, d, hc, hd, -⟩
    · rw [hs, ht]
      rfl
    · rw [hc, hd]
      rfl

/-- A section that rewrites the client's record and speaks to its room. -/
theorem tables_edit {φ : Client → Client} {n : Notice} (hp : s.heap p = some c)
    (h : sendMessageAll (s.setClient p (φ c)) fd n = some t) : t.tables = (s.edit p φ).tables := by
  rw [tables_sendMessageAll h, State.edit_eq hp]

theorem move_light (env : Env) (e : Event) :
    Light p .place (ArpgServer.unit (moveSection env p e)) := by
  refine .unit (.place e) (fun s t h => ?_) fun s t h => ?_
  · obtain ⟨c, hp, h⟩ := Option.bind_eq_some_iff.mp h
    dsimp only at h
    split at h
    · rename_i x y hx hy
      obtain ⟨name, -, h⟩ := Option.bind_eq_some_iff.mp h
      have hplaced : placed e c = { setDirection c e with x := atoi x, y := atoi y } := by
        simp only [placed, hx, hy]
      rw [← hplaced] at h
      exact tables_edit hp h
    · rename_i hno
      cases h
      have hplaced : placed e c = setDirection c e := by
        unfold placed
        split
        · rename_i x y hx hy
          exact (hno x y hx hy).elim
        · rfl
      rw [State.edit_eq hp, hplaced]
  · unfold moveSection
    rcases h.cases p with ⟨hs, ht⟩ | ⟨c, d, hc, hd, heq⟩
    · rw [hs, ht]
      rfl
    · have hturned : (setDirection d e).outline = (setDirection c e).outline := by
        rw [setDirection_outline, setDirection_outline, heq]
      have hsame := Client.akin hturned
      simp only [hc, hd, Option.bind_some]
      split
      · refine isSome_bind_congr (by rw [hsame.username]) fun name => ?_
        refine (h.setClient ?_).sendMessageAll hsame.fd _ _
        exact hturned
      · rfl

theorem doing_light (env : Env) (e : Event) :
    Light p .doing (ArpgServer.unit (doingSection env p e)) := by
  cases hdoing : e.attr .doing with
  | none =>
    have hidle : doingSection env p e = some := by
      funext s
      simp only [doingSection, hdoing]
    rw [hidle]
    refine .unit (.doing id) (fun s t h => ?_) fun s t h => rfl
    cases h
    have hself : s.edit p (fun c => { c with doing := id c.doing }) = s := by
      have hid : (fun c : Client => { c with doing := id c.doing }) = id := rfl
      rw [hid, State.edit, Option.map_id, id, Function.update_eq_self]
    rw [hself]
  | some doing =>
    refine .unit (.doing fun _ => (CharArray.zero 24).strncpy doing 24 (by decide))
      (fun s t h => ?_) fun s t h => ?_
    · simp only [doingSection, hdoing] at h
      obtain ⟨c, hp, h⟩ := Option.bind_eq_some_iff.mp h
      obtain ⟨name, -, h⟩ := Option.bind_eq_some_iff.mp h
      exact tables_edit hp h
    · simp only [doingSection, hdoing]
      rcases h.cases p with ⟨hs, ht⟩ | ⟨c, d, hc, hd, heq⟩
      · rw [hs, ht]
        rfl
      · have hsame := Client.akin heq
        simp only [hc, hd, Option.bind_some]
        refine isSome_bind_congr (by rw [hsame.username]) fun name => ?_
        refine (h.setClient ?_).sendMessageAll hsame.fd _ _
        exact heq

theorem changeCharacter_light (env : Env) (e : Event) :
    Light p .character (ArpgServer.unit (changeCharacterSection env p fd e)) := by
  cases hcharacter : e.attr .character with
  | none =>
    have hfault : changeCharacterSection env p fd e = fun _ => none := by
      funext s
      simp only [changeCharacterSection, hcharacter, Option.bind_none]
    rw [hfault]
    exact .unit (.character id) (fun _ _ h => by cases h) fun _ _ _ => rfl
  | some character =>
    -- the copy fills the array, so what it held before is not read
    have hfull : ∀ a b : CharArray 32, a.strncpy character 32 (by decide) =
        b.strncpy character 32 (by decide) := by
      intro a b
      apply CharArray.ext
      simp only [CharArray.strncpy, List.drop_eq_nil_of_le a.size_eq.le,
        List.drop_eq_nil_of_le b.size_eq.le]
    refine .unit (.character fun a => a.strncpy character 32 (by decide)) (fun s t h => ?_)
      fun s t h => ?_
    · simp only [changeCharacterSection, hcharacter, Option.bind_some] at h
      obtain ⟨c, hp, h⟩ := Option.bind_eq_some_iff.mp h
      obtain ⟨name, -, h⟩ := Option.bind_eq_some_iff.mp h
      obtain ⟨text, -, h⟩ := Option.bind_eq_some_iff.mp h
      exact tables_edit hp h
    · simp only [changeCharacterSection, hcharacter, Option.bind_some]
      rcases h.cases p with ⟨hs, ht⟩ | ⟨c, d, hc, hd, heq⟩
      · rw [hs, ht]
        rfl
      · have hsame := Client.akin heq
        simp only [hc, hd, Option.bind_some]
        refine isSome_bind_congr (by rw [hsame.username]) fun name => ?_
        refine isSome_bind_congr (by rw [hfull d.character c.character]) fun text => ?_
        refine (h.setClient ?_).sendMessageAll rfl _ _
        exact heq

theorem Section.light (h : Section fd p κ β f) (hκ : κ.isLight) : Light p κ f := by
  cases h with
  | reply n => cases hκ
  | script env str => cases hκ
  | time now =>
    refine .unit (.clock now) (fun s t h => ?_) fun s t h => rfl
    cases h
    rfl
  | state =>
    refine ⟨⟨id, .look, fun s b t h => ?_⟩, fun s t h => ?_⟩
    · obtain ⟨b', -, heq⟩ := Option.map_eq_some_iff.mp h
      cases heq
      rfl
    · have hstate := h.map_eq (fun _ _ heq => (Client.akin heq).state) p
      simp only [Proc.value, reading, Option.map_map, Function.comp_def, hstate]
  | changeState env e => exact changeState_light env e
  | privateMessage env e body => exact privateMessage_light env e body
  | publicMessage env body => exact publicMessage_light env body
  | roomlist env => exact roomlist_light env
  | move env e => exact move_light env e
  | doing env e => exact doing_light env e
  | changeCharacter env e => exact changeCharacter_light env e
  | roomid => cases hκ
  | joinCheck roomid => cases hκ
  | leave env roomid => cases hκ
  | join env roomid => cases hκ
  | other β f hf => cases hκ

/-! ## Sections that move the client -/

/-- A section that does the same at any time. -/
def Ticks (F : State → Option State) : Prop :=
  ∀ s now, F (s.tick now) = (F s).map fun t => t.tick now

namespace Ticks

variable {F G : State → Option State}

theorem pure {u : State → State} (hu : ∀ s now, u (s.tick now) = (u s).tick now) :
    Ticks fun s => some (u s) := by
  intro s now
  show some (u (s.tick now)) = (some (u s)).map fun t => t.tick now
  rw [Option.map_some, hu]

theorem bind {x : State → Option α} (hx : ∀ s now, x (s.tick now) = x s)
    {H : α → State → Option State} (hH : ∀ a, Ticks (H a)) :
    Ticks fun s => (x s).bind fun a => H a s := by
  intro s now
  show ((x (s.tick now)).bind fun a => H a (s.tick now)) =
    ((x s).bind fun a => H a s).map fun t => t.tick now
  rw [hx, Option.map_bind]
  congr 1
  funext a
  exact hH a s now

theorem ite {P : Prop} [Decidable P] (hF : Ticks F) (hG : Ticks G) :
    Ticks fun s => if P then F s else G s := by
  intro s now
  show (if P then F (s.tick now) else G (s.tick now)) =
    (if P then F s else G s).map fun t => t.tick now
  split
  · exact hF s now
  · exact hG s now

/-- A section that goes on with a changed state. -/
theorem comp {u : State → State} (hu : ∀ s now, u (s.tick now) = (u s).tick now) (hF : Ticks F) :
    Ticks fun s => F (u s) := by
  intro s now
  show F (u (s.tick now)) = (F (u s)).map fun t => t.tick now
  rw [hu, hF]

/-- A section that goes on with the result of another one. -/
theorem next (hF : Ticks F) (hG : Ticks G) : Ticks fun s => (F s).bind G := by
  intro s now
  show (F (s.tick now)).bind G = ((F s).bind G).map fun t => t.tick now
  rw [hF, Option.map_bind, Option.bind_map]
  congr 1
  funext t
  exact hG t now

theorem mapNext (hF : Ticks F) {u : State → State}
    (hu : ∀ s now, u (s.tick now) = (u s).tick now) : Ticks fun s => (F s).map u := by
  have hnext := hF.next (G := fun s => some (u s)) (pure hu)
  intro s now
  simpa only [Option.map_eq_bind, Function.comp_def] using hnext s now

end Ticks

theorem sendMessageAll_ticks (fd : Nat) (n : Notice) : Ticks fun s => sendMessageAll s fd n := by
  intro s now
  have hheap : (s.tick now).heap = s.heap := rfl
  have hfd : (s.tick now).fdClients = s.fdClients := rfl
  have hrooms : (s.tick now).rooms = s.rooms := rfl
  simp only [sendMessageAll, hheap, hfd, hrooms, broadcast_congr hheap]
  cases s.fdClients fd with
  | none => rfl
  | some q =>
    dsimp only
    cases s.heap q with
    | none => rfl
    | some c =>
      simp only [Option.bind_some]
      split
      · rw [Option.map_map]
        rfl
      · rfl

theorem leaveSection_ticks (env : Env) (p : Addr) (roomid : Int) :
    Ticks (leaveSection env p roomid) := by
  refine .bind (fun _ _ => rfl) fun room => .bind (fun _ _ => rfl) fun c =>
    .bind (fun _ _ => rfl) fun current => .ite (.pure fun _ _ => rfl) ?_
  refine .bind (fun s now => unlinkFd_congr (s := s) (t := s.tick now) rfl c.fd room.rClient) ?_
  intro list
  refine .comp (u := fun s => s.setRoom roomid.toNat (room.unlinked list)) (fun _ _ => rfl)
    (F := fun s => if c.state = .success then
      (c.username.read (env.overrun p .username)).bind fun username =>
        (sendMessageAll s c.fd (.userLogout username)).map fun s =>
          s.setClient p { c with roomid := -1 }
      else some s) ?_
  refine .ite (.bind (fun _ _ => rfl) fun username => ?_) (.pure fun _ _ => rfl)
  exact (sendMessageAll_ticks c.fd (.userLogout username)).mapNext fun _ _ => rfl

theorem sendUserlist_ticks (env : Env) (p : Addr) : Ticks (sendUserlist env p) := by
  refine .bind (fun _ _ => rfl) fun node => .bind (fun _ _ => rfl) fun room => .ite ?_
    (.pure fun _ _ => rfl)
  intro s now
  dsimp only
  have hheap : (s.tick now).heap = s.heap := rfl
  have hlist : userlist env (s.tick now) node room.rClient [] env.itembuffer =
      userlist env s node room.rClient [] env.itembuffer :=
    userlist_congr hheap node room.rClient [] env.itembuffer
  rw [hlist, Option.map_map]
  rfl

theorem joinSection_ticks (env : Env) (p : Addr) (roomid : Int) :
    Ticks (joinSection env p roomid) := by
  refine .bind (fun _ _ => rfl) fun room =>
    .ite (.bind (fun _ _ => rfl) fun c => ?_) (.pure fun _ _ => rfl)
  refine .comp (u := fun s => ((s.setClient p { c with roomid := roomid }).setRoom roomid.toNat
      { room with num := room.num + 1, rClient := room.rClient ++ [p] }).sendMessage c.fd
        (.changeRoom roomid room.name)) (fun _ _ => rfl)
    (F := fun s => (profileAt env s p).bind fun profile =>
      (sendMessageAll s c.fd (.userLogin profile)).bind (sendUserlist env p)) ?_
  refine .bind (fun s now => profileAt_congr rfl) fun profile => ?_
  exact (sendMessageAll_ticks c.fd (.userLogin profile)).next (sendUserlist_ticks env p)

/-! ### The client's state -/

def SameStateOf (p : Addr) (s t : State) : Prop :=
  (t.heap p).map Client.state = (s.heap p).map Client.state

theorem sameStateOf_setClient (hp : s.heap p = some c) (hd : d.state = c.state) :
    SameStateOf p s (s.setClient p d) := by
  rw [SameStateOf, hp]
  simp [hd]

theorem leaveSection_state {roomid : Int} (h : leaveSection env p roomid s = some t) :
    SameStateOf p s t := by
  obtain ⟨room, -, h⟩ := Option.bind_eq_some_iff.mp h
  obtain ⟨c, hp, h⟩ := Option.bind_eq_some_iff.mp h
  obtain ⟨current, -, h⟩ := Option.bind_eq_some_iff.mp h
  split at h
  · cases h
    rfl
  obtain ⟨list, -, h⟩ := Option.bind_eq_some_iff.mp h
  dsimp only at h
  split at h
  · obtain ⟨name, -, h⟩ := Option.bind_eq_some_iff.mp h
    obtain ⟨u, hsend, rfl⟩ := Option.map_eq_some_iff.mp h
    obtain ⟨l, rfl, -⟩ := sendMessageAll_post hsend
    exact sameStateOf_setClient hp rfl
  · cases h
    rfl

theorem joinSection_state {roomid : Int} (h : joinSection env p roomid s = some t) :
    SameStateOf p s t := by
  obtain ⟨room, -, h⟩ := Option.bind_eq_some_iff.mp h
  split at h
  · obtain ⟨c, hp, h⟩ := Option.bind_eq_some_iff.mp h
    obtain ⟨profile, -, h⟩ := Option.bind_eq_some_iff.mp h
    obtain ⟨u, hsend, h⟩ := Option.bind_eq_some_iff.mp h
    obtain ⟨l, rfl, -⟩ := sendMessageAll_post hsend
    have hlist : t.heap = ((s.setClient p { c with roomid := roomid }).heap) := by
      obtain ⟨node, -, h⟩ := Option.bind_eq_some_iff.mp h
      obtain ⟨room', -, h⟩ := Option.bind_eq_some_iff.mp h
      split at h
      · obtain ⟨msgs, -, rfl⟩ := Option.map_eq_some_iff.mp h
        rfl
      · cases h
        rfl
    rw [SameStateOf, hlist]
    exact sameStateOf_setClient hp rfl
  · cases h
    rfl

/-- The tests of `join_room` leave all tables as they are. -/
theorem joinCheck_tables {roomid : Int} {start : JoinStart}
    (h : joinCheck p roomid s = some (start, t)) : t.tables = s.tables := by
  unfold joinCheck at h
  split at h
  · cases h
    rfl
  · obtain ⟨room, -, h⟩ := Option.bind_eq_some_iff.mp h
    obtain ⟨c, -, h⟩ := Option.map_eq_some_iff.mp h
    split at h
    · cases h
      rfl
    · split at h
      · cases h
        rfl
      · split at h <;>
        · cases h
          rfl

theorem joinCheck_tick (s : State) (now : Int) (roomid : Int) :
    seen State.tables (joinCheck p roomid (s.tick now)) =
      (joinCheck p roomid s).map fun r => (r.1, (r.2.tick now).tables) := by
  unfold joinCheck
  split
  · rfl
  have hroom : (s.tick now).room? roomid = s.room? roomid := rfl
  have hheap : (s.tick now).heap = s.heap := rfl
  rw [hroom, hheap]
  cases s.room? roomid with
  | none => rfl
  | some room =>
    simp only [Option.bind_some]
    cases s.heap p with
    | none => rfl
    | some c =>
      simp only [Option.map_some, seen]
      split
      · rfl
      · split
        · rfl
        · split <;> rfl

/-- A section that moves the client does the same at any time and keeps the client's state. -/
structure Timeless (p : Addr) (f : State → Option (β × State)) : Prop where
  tick : ∀ s now, seen State.tables (f (s.tick now)) =
    (f s).map fun r => (r.1, (r.2.tick now).tables)
  state : ∀ s b t, f s = some (b, t) → SameStateOf p s t

theorem Timeless.unit {F : State → Option State} (htick : Ticks F)
    (hstate : ∀ s t, F s = some t → SameStateOf p s t) : Timeless p (ArpgServer.unit F) where
  tick := by
    intro s now
    simp only [ArpgServer.unit, htick s now, seen, Option.map_map]
    rfl
  state := by
    intro s b t h
    obtain ⟨t', ht, heq⟩ := Option.map_eq_some_iff.mp h
    cases heq
    exact hstate s t ht

theorem Section.timeless (h : Section fd p .room β f) : Timeless p f := by
  cases h with
  | roomid =>
    refine ⟨fun s now => ?_, fun s b t h => ?_⟩
    · simp only [reading, seen, Option.map_map]
      rfl
    · obtain ⟨b', -, heq⟩ := Option.map_eq_some_iff.mp h
      cases heq
      rfl
  | joinCheck roomid =>
    refine ⟨fun s now => joinCheck_tick s now roomid, fun s b t h => ?_⟩
    have hheap : t.tables.heap = s.tables.heap := by rw [joinCheck_tables h]
    have hheap : t.heap = s.heap := hheap
    rw [SameStateOf, hheap]
  | leave env roomid =>
    exact .unit (leaveSection_ticks env p roomid) fun s t => leaveSection_state
  | join env roomid => exact .unit (joinSection_ticks env p roomid) fun s t => joinSection_state

/-! ## The table -/

theorem Section.answer (h : Section fd p .answer β f) :
    Edits State.tables id f ∧ ∀ s t, value f t = value f s := by
  cases h with
  | reply n =>
    refine ⟨fun s b t h => ?_, fun s t => rfl⟩
    cases h
    rfl
  | script env str =>
    refine ⟨fun s b t h => ?_, fun s t => value_unit ?_⟩
    · obtain ⟨t', ht, heq⟩ := Option.map_eq_some_iff.mp h
      cases heq
      obtain ⟨l, rfl, -⟩ := luaExec_effect ht
      rfl
    · simp only [luaExec, Option.isSome_map]

theorem Section.look (h : Section fd p .look β f) (hst : SameStateOf p s t) :
    value f t = value f s := by
  cases h with
  | state =>
    rw [SameStateOf] at hst
    simp only [Proc.value, reading, Option.map_map, Function.comp_def, hst]

theorem Section.clock {now : Int} (h : Section fd p (.clock now) β f) :
    Edits State.tables (fun s => s.tick now) f ∧ ∃ b, ∀ s, value f s = some b := by
  cases h with
  | time now =>
    refine ⟨fun s b t h => ?_, (), fun s => rfl⟩
    cases h
    rfl

/-- A light section and one that moves the client. -/
theorem Section.commute_room (hf : Section fd p κ β f) (hg : Section fd p .room γ g)
    (h : κ = .look ∨ ∃ now, κ = .clock now) : Commute State.tables f g := by
  have htimeless := hg.timeless
  rcases h with rfl | ⟨now, rfl⟩
  · obtain ⟨⟨u, hu, hedits⟩, -⟩ := hf.light rfl
    cases hu
    exact hedits.commute_observe hg.isLocal fun s c t hgs => hf.look (htimeless.state s c t hgs)
  · obtain ⟨hedits, b, hvalue⟩ := hf.clock
    refine hedits.commute_through hvalue fun s t ht => ?_
    rw [hg.isLocal t _ ht]
    exact htimeless.tick s now

/-- **Sections of kinds that are apart commute.** -/
theorem Section.commute (hf : Section fd p κ β f) (hg : Section fd p κ' γ g)
    (h : κ.apart κ') : Commute State.tables f g := by
  rcases Kind.apart_cases h with rfl | rfl | ⟨hlight, hlight'⟩ | ⟨rfl, hlook⟩ | ⟨hlook, rfl⟩ |
    ⟨rfl, hclock⟩ | ⟨hclock, rfl⟩
  · obtain ⟨hedits, hvalue⟩ := hf.answer
    exact hedits.commute_observe hg.isLocal fun _ _ _ _ => hvalue _ _
  · obtain ⟨hedits, hvalue⟩ := hg.answer
    exact (hedits.commute_observe hf.isLocal fun _ _ _ _ => hvalue _ _).symm
  · obtain ⟨⟨u, hu, hedits⟩, hvalue⟩ := hf.light hlight
    obtain ⟨⟨v, hv, hedits'⟩, hvalue'⟩ := hg.light hlight'
    refine hedits.commute hedits' (fun s t ht => hvalue s t ?_) (fun s t ht => hvalue' s t ?_) ?_
    · exact (hv.akin s).of_tables ht
    · exact (hu.akin s).of_tables ht
    · intro s t t' ht ht'
      rw [hv.tables, ht, hu.tables, hu.tables, ht', hv.tables, hu.comm hv h]
  · exact (hg.commute_room hf (Or.inl hlook)).symm
  · exact hf.commute_room hg (Or.inl hlook)
  · exact (hg.commute_room hf (Or.inr hclock)).symm
  · exact hf.commute_room hg (Or.inr hclock)

end ArpgServer
