import ArpgServer.Xml.RoundTrip

/-!
# Processing instructions

The parser keeps the instructions of a document by their targets, and the serializer writes
those that were met before the root tag before it and the others behind it. Reading what was
written gives the same list, and so a whole document is read again as it was.
-/

namespace ArpgServer.Ezxml

open CText Scan

/-! ## Lists of instructions -/

variable {target instruction : Bytes} {after : Bool} {front back pi : Instructions}

theorem addInstruction_append (h : target ∉ front.map Prod.fst) (rest : Instructions) :
    addInstruction target instruction after (front ++ rest) =
      front ++ addInstruction target instruction after rest := by
  induction front with
  | nil => rfl
  | cons g front ih =>
    rw [List.map_cons, List.mem_cons, not_or] at h
    rw [List.cons_append, addInstruction, if_neg (Ne.symm h.1), ih h.2]
    rfl

theorem addInstruction_found (h : target ∉ front.map Prod.fst) (list : List (Bytes × Bool)) :
    addInstruction target instruction after (front ++ (target, list) :: back) =
      front ++ (target, list ++ [(instruction, after)]) :: back := by
  rw [addInstruction_append h, addInstruction, if_pos rfl]

theorem addInstruction_new (h : target ∉ front.map Prod.fst) :
    addInstruction target instruction after front =
      front ++ [(target, [(instruction, after)])] := by
  have hnew := @addInstruction_append target instruction after front h []
  rwa [List.append_nil] at hnew

/-- The instructions of a list are added one after the other. -/
def addAll (after : Bool) (list : List (Bytes × Bytes)) (pi : Instructions) : Instructions :=
  list.foldl (fun pi i => addInstruction i.1 i.2 after pi) pi

theorem addAll_found (h : target ∉ front.map Prod.fst) (list : List (Bytes × Bool))
    (items : List Bytes) :
    addAll after (items.map (target, ·)) (front ++ (target, list) :: back) =
      front ++ (target, list ++ items.map (·, after)) :: back := by
  induction items generalizing list with
  | nil => simp [addAll]
  | cons i items ih =>
    have hi := ih (list ++ [(i, after)])
    rw [List.append_assoc] at hi
    rw [addAll, List.map_cons, List.foldl_cons, addInstruction_found h]
    exact hi

theorem addAll_new (h : target ∉ front.map Prod.fst) {items : List Bytes} (hitems : items ≠ []) :
    addAll after (items.map (target, ·)) front = front ++ [(target, items.map (·, after))] := by
  obtain ⟨i, items, rfl⟩ := List.exists_cons_of_ne_nil hitems
  have hi := @addAll_found target after front [] h [(i, after)] items
  rw [addAll, List.map_cons, List.foldl_cons, addInstruction_new h]
  exact hi

/-- The instructions for one target: those before the root tag, and those behind its start. -/
structure Group where
  target : Bytes
  before : List Bytes
  later : List Bytes

def Group.entry (g : Group) : Bytes × List (Bytes × Bool) :=
  (g.target, g.before.map (·, false) ++ g.later.map (·, true))

/-- Every target has a group of its own, and those met before the root tag come first. -/
structure Groups (gs : List Group) : Prop where
  nodup : (gs.map Group.target).Nodup
  used : ∀ g ∈ gs, g.before ≠ [] ∨ g.later ≠ []
  order : (gs.map Group.before).Pairwise fun l l' => l = [] → l' = []

theorem map_entry (gs : List Group) :
    (gs.map Group.entry).map Prod.fst = gs.map Group.target := by
  rw [List.map_map]
  rfl

theorem instructions_entries (after : Bool) (gs : List Group) :
    instructions after (gs.map Group.entry) =
      gs.flatMap fun g => (if after then g.later else g.before).map (g.target, ·) := by
  rw [instructions, List.flatMap_map]
  refine List.flatMap_congr fun g _ => ?_
  cases after <;> simp [Group.entry, List.filter_append, List.filter_map, Function.comp_def]

theorem addAll_append (list list' : List (Bytes × Bytes)) :
    addAll after (list ++ list') pi = addAll after list' (addAll after list pi) :=
  List.foldl_append

theorem not_mem_targets {g : Group} {gs gs' : List Group} {done : Instructions}
    (hnodup : (gs ++ g :: gs').map Group.target |>.Nodup)
    (hdone : ∀ x ∈ done.map Prod.fst, x ∈ gs.map Group.target) :
    g.target ∉ done.map Prod.fst := by
  intro hmem
  rw [List.map_append, List.map_cons, List.nodup_append] at hnodup
  exact hnodup.2.2 _ (hdone _ hmem) _ List.mem_cons_self rfl

/-- The instructions before the root tag, added to nothing, give the groups that have some. -/
theorem addAll_before {gs gs' : List Group} {done : Instructions}
    (hnodup : (gs ++ gs').map Group.target |>.Nodup)
    (hdone : ∀ x ∈ done.map Prod.fst, x ∈ gs.map Group.target) :
    addAll false (gs'.flatMap fun g => g.before.map (g.target, ·)) done =
      done ++ (gs'.filter (·.before ≠ [])).map fun g => (g.target, g.before.map (·, false)) := by
  induction gs' generalizing gs done with
  | nil => simp [addAll]
  | cons g gs' ih =>
    have hg := not_mem_targets hnodup hdone
    have hnodup' : ((gs ++ [g]) ++ gs').map Group.target |>.Nodup := by
      rwa [List.append_assoc, List.singleton_append]
    rw [List.flatMap_cons, addAll_append]
    by_cases hbefore : g.before = []
    · have hrest := @ih (gs ++ [g]) done hnodup' fun x hx => by
        rw [List.map_append]
        exact List.mem_append_left _ (hdone x hx)
      rw [List.filter_cons_of_neg (by simp [hbefore]), hbefore]
      exact hrest
    · have hrest := @ih (gs ++ [g]) (done ++ [(g.target, g.before.map (·, false))]) hnodup'
        fun x hx => by
          rw [List.map_append, List.mem_append] at hx ⊢
          exact hx.imp (hdone x) id
      rw [addAll_new hg hbefore, hrest, List.filter_cons_of_pos (by simpa using hbefore),
        List.map_cons, List.append_assoc]
      rfl

/-- The instructions behind the start of the root tag complete the groups. -/
theorem addAll_later {gs gs' : List Group} (h : Groups (gs ++ gs')) :
    addAll true (gs'.flatMap fun g => g.later.map (g.target, ·)) (gs.map Group.entry ++
        (gs'.filter (·.before ≠ [])).map fun g => (g.target, g.before.map (·, false))) =
      (gs ++ gs').map Group.entry := by
  induction gs' generalizing gs with
  | nil => simp [addAll]
  | cons g gs' ih =>
    have hg : g.target ∉ (gs.map Group.entry).map Prod.fst :=
      not_mem_targets h.nodup fun x hx => by rwa [map_entry] at hx
    have hsplit : gs ++ g :: gs' = (gs ++ [g]) ++ gs' := by
      rw [List.append_assoc, List.singleton_append]
    have hrest := @ih (gs ++ [g]) (hsplit ▸ h)
    rw [List.map_append, List.append_assoc, List.map_singleton, List.singleton_append] at hrest
    rw [hsplit, ← hrest, List.flatMap_cons, addAll_append]
    by_cases hbefore : g.before = []
    · have hlater : g.later ≠ [] :=
        (h.used g (List.mem_append_right _ List.mem_cons_self)).resolve_left fun hne => hne hbefore
      have hnone : (g :: gs').filter (·.before ≠ []) = [] := by
        rw [List.filter_eq_nil_iff]
        have horder := List.pairwise_map.mp h.order
        have horder := (List.pairwise_append.mp horder).2.1
        rw [List.pairwise_cons] at horder
        intro x hx
        rcases List.mem_cons.mp hx with rfl | hx
        · simp [hbefore]
        · simp [horder.1 x hx hbefore]
      have hnone' : gs'.filter (·.before ≠ []) = [] := by
        rwa [List.filter_cons_of_neg (by simp [hbefore])] at hnone
      rw [hnone, hnone', List.map_nil, List.append_nil, addAll_new hg hlater, Group.entry, hbefore]
      rfl
    · rw [List.filter_cons_of_pos (by simpa using hbefore), List.map_cons, addAll_found hg]
      rfl

/-- What was written in two parts is read as the list it was. -/
theorem addAll_instructions {gs : List Group} (h : Groups gs) :
    addAll true (instructions true (gs.map Group.entry))
      (addAll false (instructions false (gs.map Group.entry)) []) = gs.map Group.entry := by
  have hbefore := @addAll_before [] gs [] h.nodup fun x hx => absurd hx List.not_mem_nil
  have hlater := @addAll_later [] gs h
  rw [instructions_entries, instructions_entries]
  simp only [Bool.false_eq_true, if_false, if_true]
  rw [hbefore]
  exact hlater

/-! ## Single instructions -/

/-- A target and an instruction that can be written. -/
structure InstrOk (target instruction : Bytes) : Prop where
  chars : ∀ b ∈ target, isWs b = false
  start : target.head? ≠ some 62
  name : target ≠ ofString "xml"
  begins : ∀ b, instruction.head? = some b → isWs b = false
  ends : ¬ [63, 62] <:+: target ∧ ¬ [63, 62] <:+: instruction
  zero : 0 ∉ target ∧ 0 ∉ instruction

/-- What stands between `<?` and `?>`. -/
def contentOf (target instruction : Bytes) : Bytes :=
  target ++ ((if instruction = [] then [] else [32]) ++ instruction)

theorem instructionCode_eq (target instruction : Bytes) :
    instructionCode target instruction =
      60 :: 63 :: (contentOf target instruction ++ [63, 62]) := by
  have hopen : ofString "<?" = [60, 63] := rfl
  have hblank : ofString " " = [32] := rfl
  have hclose : ofString "?>" = [63, 62] := rfl
  rw [instructionCode, contentOf, hopen, hblank, hclose]
  simp

theorem instructionEnd_first {s content rest : Bytes}
    (h : instructionEnd s = some (content, rest)) :
    ¬ [63, 62] <:+: content := by
  induction s generalizing content with
  | nil => cases h
  | cons b s ih =>
    rw [instructionEnd] at h
    split at h
    · cases h
      simp
    · rename_i hb
      obtain ⟨⟨c, r⟩, hr, h⟩ := Option.map_eq_some_iff.mp h
      cases h
      have hs := instructionEnd_eq hr
      rw [List.infix_cons_iff]
      rintro (hstart | hlater)
      · obtain ⟨back, hback⟩ := hstart
        obtain ⟨rfl, htail⟩ := List.cons.inj hback
        have htail : c = 62 :: back := htail.symm
        refine hb ?_
        rw [hs, htail]
        rfl
      · exact ih hr hlater

theorem instructionEnd_append {content : Bytes} (h : ¬ [63, 62] <:+: content) (rest : Bytes) :
    instructionEnd (content ++ 63 :: 62 :: rest) = some (content, 62 :: rest) := by
  induction content with
  | nil => rfl
  | cons b c ih =>
    have hc : ¬ [63, 62] <:+: c := fun hinside => h (hinside.trans (List.suffix_cons b c).isInfix)
    have hb : ¬ (b = 63 &&
        (c ++ 63 :: 62 :: rest = [] || (c ++ 63 :: 62 :: rest).head? = some 62)) := by
      intro hb
      simp only [Bool.and_eq_true, Bool.or_eq_true, decide_eq_true_eq] at hb
      obtain ⟨rfl, hnil | hhead⟩ := hb
      · exact absurd hnil (by simp)
      · cases c with
        | nil => cases hhead
        | cons b' c =>
          cases hhead
          exact h ⟨[], c, rfl⟩
    rw [List.cons_append, instructionEnd, if_neg hb, ih hc]
    rfl

theorem infix_of_infix_blank {l l' : Bytes} (h : [63, 62] <:+: l ++ 32 :: l') :
    [63, 62] <:+: l ∨ [63, 62] <:+: l' := by
  induction l with
  | nil =>
    rw [List.nil_append, List.infix_cons_iff] at h
    rcases h with h | h
    · obtain ⟨back, hback⟩ := h
      exact absurd (List.cons.inj hback).1 (by decide)
    · exact Or.inr h
  | cons b l ih =>
    rw [List.cons_append, List.infix_cons_iff] at h
    rcases h with h | h
    · left
      obtain ⟨back, hback⟩ := h
      obtain ⟨rfl, htail⟩ := List.cons.inj hback
      have htail : l ++ 32 :: l' = 62 :: back := htail.symm
      cases l with
      | nil => exact absurd (List.cons.inj htail).1 (by decide)
      | cons b' l =>
        obtain ⟨rfl, -⟩ := List.cons.inj htail
        exact ⟨[], l, rfl⟩
    · exact (ih h).imp (fun h => h.trans (List.suffix_cons b l).isInfix) id

theorem InstrOk.contentOf (h : InstrOk target instruction) :
    ¬ [63, 62] <:+: contentOf target instruction := by
  unfold Ezxml.contentOf
  split
  · rename_i hnil
    rw [hnil, List.append_nil, List.append_nil]
    exact h.ends.1
  · intro hinside
    exact (infix_of_infix_blank hinside).elim h.ends.1 h.ends.2

/-- An instruction is taken apart as it was put together. -/
theorem procInst_contentOf (h : InstrOk target instruction) (p : Parse) :
    procInst p (contentOf target instruction) =
      { p with
        pi := addInstruction target instruction (!p.stack.isEmpty || p.closed) p.pi } := by
  have hchars : ∀ c ∈ target, (!isWs c) = true := fun c hc => by
    rw [h.chars c hc]
    rfl
  have htake : (contentOf target instruction).takeWhile (!isWs ·) = target := by
    unfold contentOf
    split
    · rename_i hnil
      rw [hnil, List.append_nil, List.append_nil, List.takeWhile_eq_self_iff]
      exact hchars
    · exact takeWhile_stop hchars rfl
  have hdrop : (((contentOf target instruction).dropWhile (!isWs ·)).drop 1).dropWhile isWs =
      instruction := by
    unfold contentOf
    split
    · rename_i hnil
      rw [hnil, List.append_nil, List.append_nil, List.dropWhile_eq_nil_iff.mpr hchars]
      rfl
    · have hrest : (target ++ ([32] ++ instruction)).dropWhile (!isWs ·) = 32 :: instruction :=
        dropWhile_stop hchars rfl
      rw [hrest, List.drop_one, List.tail_cons]
      cases hinstr : instruction with
      | nil => rfl
      | cons b i =>
        exact List.dropWhile_cons_of_neg (by rw [h.begins b (by rw [hinstr]; rfl)]; decide)
  simp only [procInst, htake, hdrop]
  rw [if_neg h.name]

theorem instrOk_of_content {b : UInt8} {t content rest : Bytes} (hb : b ≠ 62)
    (h : instructionEnd (b :: t) = some (content, rest)) (hzero : 0 ∉ content)
    (hname : content.takeWhile (!isWs ·) ≠ ofString "xml") :
    InstrOk (content.takeWhile (!isWs ·))
      (((content.dropWhile (!isWs ·)).drop 1).dropWhile isWs) := by
  have htarget : content.takeWhile (!isWs ·) <+: content := List.takeWhile_prefix _
  have hinstr : ((content.dropWhile (!isWs ·)).drop 1).dropWhile isWs <:+ content :=
    ((List.dropWhile_suffix _).trans (List.drop_suffix _ _)).trans (List.dropWhile_suffix _)
  have hfirst := instructionEnd_first h
  refine ⟨fun c hc => by simpa using List.mem_takeWhile_imp hc, ?_, hname, ?_,
    ⟨fun hinside => hfirst (hinside.trans htarget.isInfix), fun hinside =>
      hfirst (hinside.trans hinstr.isInfix)⟩,
    ⟨fun hmem => hzero (htarget.subset hmem), fun hmem => hzero (hinstr.subset hmem)⟩⟩
  · intro hhead
    have heq := instructionEnd_eq h
    cases htake : content.takeWhile (!isWs ·) with
    | nil =>
      rw [htake] at hhead
      cases hhead
    | cons c target =>
      rw [htake] at hhead htarget
      cases hhead
      obtain ⟨back, hback⟩ := htarget
      rw [← hback] at heq
      exact hb (List.cons.inj heq).1
  · intro c hc
    rcases dropWhile_cases isWs ((content.dropWhile (!isWs ·)).drop 1) with
      hnil | ⟨c', r, hcons, hc'⟩
    · rw [hnil] at hc
      cases hc
    · rw [hcons] at hc
      cases hc
      exact hc'

/-! ## The list the parser keeps -/

/-- The list of the parser, while the root tag is not named, or later. -/
def PiOk (named : Bool) (pi : Instructions) : Prop :=
  ∃ gs, pi = gs.map Group.entry ∧ Groups gs ∧ (named = false → ∀ g ∈ gs, g.later = []) ∧
    ∀ g ∈ gs, ∀ i ∈ g.before ++ g.later, InstrOk g.target i

theorem piOk_nil (named : Bool) : PiOk named [] :=
  ⟨[], rfl, ⟨List.nodup_nil, fun _ hg => absurd hg List.not_mem_nil, .nil⟩,
    fun _ _ hg => absurd hg List.not_mem_nil, fun _ hg => absurd hg List.not_mem_nil⟩

theorem PiOk.named (h : PiOk false pi) : PiOk true pi := by
  obtain ⟨gs, hpi, hgroups, -, hok⟩ := h
  exact ⟨gs, hpi, hgroups, fun h => (by cases h), hok⟩

/-- The group an instruction is added to. -/
def Group.add (g : Group) (instruction : Bytes) (named : Bool) : Group :=
  if named then { g with later := g.later ++ [instruction] }
  else { g with before := g.before ++ [instruction] }

theorem forall_replaced {gs gs' : List Group} {g g' : Group} {P : Group → Prop}
    (h : ∀ x ∈ gs ++ g :: gs', P x) (hg : P g') : ∀ x ∈ gs ++ g' :: gs', P x := by
  intro x hx
  rcases List.mem_append.mp hx with hx | hx
  · exact h x (List.mem_append_left _ hx)
  · rcases List.mem_cons.mp hx with rfl | hx
    · exact hg
    · exact h x (List.mem_append_right _ (List.mem_cons_of_mem g hx))

theorem order_of_before {gs : List Group} (h : ∀ g ∈ gs, g.before ≠ []) :
    (gs.map Group.before).Pairwise fun l l' => l = [] → l' = [] := by
  refine List.pairwise_map.mpr (List.pairwise_of_forall_mem_list fun g hg _ _ hnil => ?_)
  exact absurd hnil (h g hg)

theorem PiOk.add {named : Bool} (h : PiOk named pi) (hi : InstrOk target instruction) :
    PiOk named (addInstruction target instruction named pi) := by
  obtain ⟨gs, rfl, hgroups, hlater, hok⟩ := h
  have hbefore : named = false → ∀ g ∈ gs, g.before ≠ [] := fun hnamed g hg =>
    (hgroups.used g hg).resolve_right fun hne => hne (hlater hnamed g hg)
  by_cases hmem : target ∈ gs.map Group.target
  · obtain ⟨g, hg, rfl⟩ := List.mem_map.mp hmem
    obtain ⟨front, back, rfl⟩ := List.append_of_mem hg
    have hfront : g.target ∉ (front.map Group.entry).map Prod.fst :=
      not_mem_targets hgroups.nodup fun x hx => by rwa [map_entry] at hx
    have htarget : (g.add instruction named).target = g.target := by cases named <;> rfl
    refine ⟨front ++ g.add instruction named :: back, ?_, ⟨?_, ?_, ?_⟩, ?_, ?_⟩
    · rw [List.map_append, List.map_cons, Group.entry, addInstruction_found hfront, List.map_append,
        List.map_cons]
      cases named with
      | true => simp [Group.entry, Group.add]
      | false => simp [Group.entry, Group.add, hlater rfl g hg]
    · have hnodup := hgroups.nodup
      rw [List.map_append, List.map_cons] at hnodup ⊢
      rwa [htarget]
    · refine forall_replaced hgroups.used ?_
      cases named <;> simp [Group.add]
    · cases named with
      | true =>
        have horder := hgroups.order
        rwa [List.map_append, List.map_cons] at horder ⊢
      | false =>
        exact order_of_before (forall_replaced (hbefore rfl) (by simp [Group.add]))
    · rintro rfl
      exact forall_replaced (hlater rfl) (hlater rfl g hg)
    · refine forall_replaced hok fun i hmem => ?_
      rw [htarget]
      have hcases : i ∈ g.before ++ g.later ∨ i = instruction := by
        cases named <;>
        simp only [Group.add, if_true, if_false, Bool.false_eq_true, List.mem_append,
          List.mem_singleton] at hmem ⊢ <;>
        tauto
      rcases hcases with hmem | rfl
      · exact hok g hg i hmem
      · exact hi
  · have hfront : target ∉ (gs.map Group.entry).map Prod.fst := by rwa [map_entry]
    have hnew : ∀ {P : Group → Prop}, (∀ x ∈ gs, P x) →
        P (Group.add ⟨target, [], []⟩ instruction named) →
        ∀ x ∈ gs ++ [Group.add ⟨target, [], []⟩ instruction named], P x := by
      intro P h hg x hx
      rcases List.mem_append.mp hx with hx | hx
      · exact h x hx
      · rw [List.mem_singleton.mp hx]
        exact hg
    refine ⟨gs ++ [Group.add ⟨target, [], []⟩ instruction named], ?_, ⟨?_, ?_, ?_⟩, ?_, ?_⟩
    · rw [addInstruction_new hfront, List.map_append]
      cases named <;> rfl
    · rw [List.map_append, List.nodup_append]
      refine ⟨hgroups.nodup, (by simp), fun x hx y hy => ?_⟩
      rintro rfl
      have hy : x = target := by cases named <;> exact List.mem_singleton.mp hy
      exact hmem (hy ▸ hx)
    · refine hnew hgroups.used ?_
      cases named <;> simp [Group.add]
    · cases named with
      | true =>
        rw [List.map_append, List.pairwise_append]
        exact ⟨hgroups.order, List.pairwise_singleton _ _,
          fun l _ l' hl' _ => List.mem_singleton.mp hl'⟩
      | false => exact order_of_before (hnew (hbefore rfl) (by simp [Group.add]))
    · rintro rfl
      exact hnew (hlater rfl) rfl
    · refine hnew hok fun i hmem => ?_
      have htarget : (Group.add ⟨target, [], []⟩ instruction named).target = target := by
        cases named <;> rfl
      have heq : i = instruction := by cases named <;> simpa [Group.add] using hmem
      rw [htarget, heq]
      exact hi

/-- The root tag has its name. -/
def Parse.named (p : Parse) : Bool := !p.stack.isEmpty || p.closed

variable {p p' : Parse} {s : Bytes}

theorem named_of_cons {top : Open} {below : List Open} (h : p.stack = top :: below) :
    p.named = true := by
  rw [Parse.named, h]
  rfl

theorem named_closeTag {name : Bytes} (h : closeTag p name = some p') :
    p.named = true ∧ p'.named = true ∧ p'.pi = p.pi := by
  unfold closeTag at h
  split at h
  · cases h
  · rename_i top below hstack
    split at h
    · split at h
      · cases h
        exact ⟨named_of_cons hstack, rfl, rfl⟩
      · cases h
        exact ⟨named_of_cons hstack, rfl, rfl⟩
    · cases h

theorem named_charContent {t : Mode} {content rest rest' : Bytes}
    (h : charContent p t content rest = some (p', rest')) : p'.named = p.named ∧ p'.pi = p.pi := by
  unfold charContent at h
  split at h
  · cases h
    exact ⟨rfl, rfl⟩
  · rename_i top below hstack
    split at h
    · cases h
      exact ⟨rfl, rfl⟩
    · obtain ⟨r, -, h⟩ := Option.map_eq_some_iff.mp h
      cases h
      exact ⟨(named_of_cons hstack).symm, rfl⟩

theorem PiOk.named_of {named : Bool} (h : PiOk named pi) : PiOk true pi := by
  cases named with
  | true => exact h
  | false => exact h.named

/-- No piece of markup breaks the list. -/
theorem Effect.piOk (he : Effect s p p') (h : PiOk p.named p.pi) (hs : 0 ∉ s) :
    PiOk p'.named p'.pi := by
  cases he with
  | same => exact h
  | opened => exact h.named_of
  | emptied _ _ _ hclose =>
    obtain ⟨-, hnamed, hpi⟩ := named_closeTag hclose
    rw [hnamed, hpi]
    exact h.named_of
  | closed hclose =>
    obtain ⟨-, hnamed, hpi⟩ := named_closeTag hclose
    rw [hnamed, hpi]
    exact h.named_of
  | cdata _ hchar =>
    obtain ⟨hnamed, hpi⟩ := named_charContent hchar
    rwa [hnamed, hpi]
  | instruction hb hend hcontent =>
    simp only [procInst]
    split
    · exact h
    · rename_i hname
      exact h.add (instrOk_of_content hb hend (hcontent hs) hname)

theorem invariant_piOk : Invariant fun p => PiOk p.named p.pi where
  new := piOk_nil _
  effect := fun he hs h => he.piOk h hs
  content := by
    intro p p' content rest rest' hchar _ h
    obtain ⟨hnamed, hpi⟩ := named_charContent hchar
    rwa [hnamed, hpi]

/-! ## Reading what was written -/

variable {e : UInt8} {rest : Bytes}

theorem head_contentOf (h : InstrOk target instruction) (rest : Bytes) :
    ∃ b t, contentOf target instruction ++ 63 :: rest = b :: t ∧ b ≠ 62 := by
  unfold contentOf
  cases htarget : target with
  | cons b t =>
    refine ⟨b, _, rfl, ?_⟩
    rintro rfl
    exact h.start (by rw [htarget]; rfl)
  | nil =>
    split
    · rename_i hnil
      rw [hnil]
      exact ⟨63, rest, rfl, by decide⟩
    · exact ⟨32, _, rfl, by decide⟩

theorem markup_instruction (h : InstrOk target instruction) :
    markup e p (63 :: (contentOf target instruction ++ 63 :: 62 :: rest)) =
      some (.next { p with pi := addInstruction target instruction p.named p.pi }
        (62 :: rest)) := by
  have hslash : ofString "/" = [47] := rfl
  have hcomment : ofString "!--" = [33, 45, 45] := rfl
  have hcdata : ofString "![CDATA[" = [33, 91, 67, 68, 65, 84, 65, 91] := rfl
  have hdoctype : ofString "!DOCTYPE" = [33, 68, 79, 67, 84, 89, 80, 69] := rfl
  have hmark : ofString "?" = [63] := rfl
  have hstart : isNameStart 63 = false := rfl
  obtain ⟨b, t, hbt, hb⟩ := head_contentOf h (62 :: rest)
  have hend := instructionEnd_append h.contentOf rest
  rw [markup, hslash, hcomment, hcdata, hdoctype, hmark]
  simp only [List.head?_cons, Option.map_some, Option.getD_some, hstart, Bool.false_eq_true,
    if_false, List.cons_prefix_cons, List.nil_prefix, and_true, if_true, List.drop_one,
    List.tail_cons]
  rw [if_neg (by decide), if_neg (by simp), if_neg (by simp), if_neg (by simp), hbt,
    Ezxml.instruction, if_neg hb, ← hbt, hend]
  simp only [procInst_contentOf h]
  rfl

variable {next : Parse → Bytes → Option Parsed}

/-- A blank outside of the root tag is passed over. -/
theorem resume_blank (hstack : p.stack = []) (s : Bytes) :
    resume next p (10 :: s) = resume next p s := by
  have hdrop : (10 :: s).dropWhile (fun b => decide (b ≠ 60)) =
      s.dropWhile (fun b => decide (b ≠ 60)) := List.dropWhile_cons_of_pos rfl
  have hchar : ∀ content rest, charContent p .content content rest = some (p, rest) := by
    intro content rest
    rw [charContent, hstack]
  unfold resume
  rw [hdrop]
  simp only [hchar]

theorem resume_instruction (h : InstrOk target instruction) (s : Bytes) :
    resume (run e) p (instructionCode target instruction ++ s) =
      resume (run e) { p with pi := addInstruction target instruction p.named p.pi } s := by
  rw [instructionCode_eq, List.cons_append, resume_markup, List.cons_append, List.append_assoc,
    run_eq]
  simp only [List.cons_append, List.nil_append]
  rw [markup_instruction h]
  rfl

theorem resume_before {list : List (Bytes × Bytes)} (hok : ∀ i ∈ list, InstrOk i.1 i.2)
    (pi : Instructions) (s : Bytes) :
    resume (run e) ⟨[], .null, pi⟩
        ((list.flatMap fun i => instructionCode i.1 i.2 ++ ofString "\n") ++ s) =
      resume (run e) ⟨[], .null, addAll false list pi⟩ s := by
  have hline : ofString "\n" = [10] := rfl
  induction list generalizing pi with
  | nil => rfl
  | cons i list ih =>
    have hi := hok i List.mem_cons_self
    rw [List.flatMap_cons, List.append_assoc, List.append_assoc, resume_instruction hi, hline,
      List.singleton_append, resume_blank rfl, ← hline,
      ih fun x hx => hok x (List.mem_cons_of_mem i hx)]
    rfl

theorem resume_later {list : List (Bytes × Bytes)} (hok : ∀ i ∈ list, InstrOk i.1 i.2)
    {tree : Xml} (htree : tree ≠ .null) (pi : Instructions) :
    resume (run e) ⟨[], tree, pi⟩ (list.flatMap fun i => ofString "\n" ++ instructionCode i.1 i.2) =
      some { tree := tree, pi := addAll true list pi, err := none } := by
  have hline : ofString "\n" = [10] := rfl
  have hclosed : ∀ pi, (Parse.mk [] tree pi).closed = true := fun pi => by
    simp [Parse.closed, htree]
  induction list generalizing pi with
  | nil =>
    have hfinish : (Parse.mk [] tree pi).finish = { tree := tree, pi := pi, err := none } := by
      simp only [Parse.finish, hclosed, if_true]
      rfl
    exact congrArg some hfinish
  | cons i list ih =>
    have hi := hok i List.mem_cons_self
    have hnamed : (Parse.mk [] tree pi).named = true := by rw [Parse.named, hclosed]; rfl
    rw [List.flatMap_cons, hline, List.append_assoc, List.singleton_append, resume_blank rfl,
      resume_instruction hi, ← hline, hnamed, ih fun x hx => hok x (List.mem_cons_of_mem i hx)]
    rfl

/-! ## Whole documents -/

theorem instrOk_of_mem {gs : List Group}
    (hok : ∀ g ∈ gs, ∀ i ∈ g.before ++ g.later, InstrOk g.target i) :
    ∀ i ∈ instructions after (gs.map Group.entry), InstrOk i.1 i.2 := by
  intro i hi
  rw [instructions_entries] at hi
  obtain ⟨g, hg, hi⟩ := List.mem_flatMap.mp hi
  obtain ⟨x, hx, rfl⟩ := List.mem_map.mp hi
  refine hok g hg x ?_
  cases after with
  | true => exact List.mem_append_right _ hx
  | false => exact List.mem_append_left _ hx

/-- The tags of a document and its instructions, behind nothing that was read before. -/
theorem resume_ezxmlToxml {r : Parsed} (htree : r.tree.Root) (hne : r.tree ≠ .null)
    (hpi : PiOk true r.pi) :
    resume (run e) Parse.new (ezxmlToxml r) =
      some { tree := r.tree.reread, pi := r.pi, err := none } := by
  obtain ⟨tree, pi, err⟩ := r
  rcases htree with hnull | ⟨name, attr, txt, child, htag, hok⟩
  · exact absurd hnull hne
  · obtain rfl : tree = .tag name attr txt 0 child .null := htag
    obtain ⟨gs, rfl, hgroups, -, hinstr⟩ := hpi
    obtain ⟨-, hname, hattr, htxt, hchild, -⟩ := hok
    have hcode := toxmlR_tag [] 0 name attr txt 0 child .null
      ((instructions true (gs.map Group.entry)).flatMap fun i =>
        ofString "\n" ++ instructionCode i.1 i.2)
    have hempty : toxmlR [] (min 0 ([] : Bytes).length) .null = [] := rfl
    simp only [ezxmlToxml]
    rw [List.append_assoc, Parse.new, resume_before (instrOk_of_mem hinstr), hcode, hempty,
      List.nil_append]
    have hstart : ampencode false
        (if 0 ≤ 0 then (([] : Bytes).drop 0).take (0 - 0) else [].drop 0) =
        [] := rfl
    rw [hstart, List.nil_append, resume_markup, run_tag hname hattr (readsAs_of_ok hchild)]
    simp only [closeTag, if_true, Option.bind_some, Open.toXml]
    rw [resume_later (instrOk_of_mem hinstr) (by simp), addAll_instructions hgroups]
    rfl

theorem zero_not_mem_toxmlR {txt : Bytes} {start : Nat} {x : Xml} (h : x.Ok txt start)
    (htxt : 0 ∉ txt) : 0 ∉ toxmlR txt start x := by
  induction x generalizing txt start with
  | null => exact zero_not_mem_ampencode fun hmem => htxt (List.mem_of_mem_drop hmem)
  | tag name attr own off child ordered ihchild ihordered =>
    obtain ⟨hstart, hname, hattr, hown, hchild, hordered⟩ := h
    have hcode := toxmlR_tag txt start name attr own off child ordered []
    have hattrs : 0 ∉ (written attr [] attr).flatMap attrCode := by
      intro hmem
      obtain ⟨a, ha, hzero⟩ := List.mem_flatMap.mp hmem
      have hok := hattr a (mem_of_mem_written ha)
      have hvalue : 0 ∉ ampencode true (a.2.getD []) := by
        refine zero_not_mem_ampencode ?_
        cases hv : a.2 with
        | none => exact List.not_mem_nil
        | some v => exact hok.value v hv
      have hzero' := hok.name.zero List.not_mem_nil
      rw [← code_spelling] at hzero
      simp [Spelling.code, spelling, hzero', hvalue] at hzero
    have hname' := hname.zero List.not_mem_nil
    have hslice : 0 ∉ (txt.drop start).take (off - start) :=
      fun hmem => htxt (List.mem_of_mem_drop (List.mem_of_mem_take hmem))
    have hordered' := hordered.le
    rw [List.append_nil, if_pos hstart] at hcode
    rw [hcode, Nat.min_eq_left hordered']
    simp [hattrs, hname', zero_not_mem_ampencode hslice, ihchild hchild hown,
      ihordered hordered htxt]

theorem zero_not_mem_instructionCode (h : InstrOk target instruction) :
    0 ∉ instructionCode target instruction := by
  have hcontent : 0 ∉ contentOf target instruction := by
    unfold contentOf
    split <;> simp [h.zero.1, h.zero.2]
  rw [instructionCode_eq]
  simp [hcontent]

theorem zero_not_mem_ezxmlToxml {r : Parsed} (htree : r.tree.Root) (hpi : PiOk true r.pi) :
    0 ∉ ezxmlToxml r := by
  obtain ⟨tree, pi, err⟩ := r
  rcases htree with hnull | ⟨name, attr, txt, child, htag, hok⟩
  · obtain rfl : tree = .null := hnull
    exact List.not_mem_nil
  · obtain rfl : tree = .tag name attr txt 0 child .null := htag
    obtain ⟨gs, rfl, -, -, hinstr⟩ := hpi
    have hline : ofString "\n" = [10] := rfl
    have hlist : ∀ after, ∀ i ∈ instructions after (gs.map Group.entry),
        0 ∉ instructionCode i.1 i.2 := fun after i hi =>
      zero_not_mem_instructionCode (instrOk_of_mem hinstr i hi)
    simp only [ezxmlToxml, List.mem_append, not_or, List.mem_flatMap, not_exists, not_and, hline]
    refine ⟨⟨fun i hi => ⟨hlist false i hi, by decide⟩, ?_⟩,
      fun i hi => ⟨by decide, hlist true i hi⟩⟩
    exact zero_not_mem_toxmlR hok List.not_mem_nil

theorem head_ezxmlToxml {r : Parsed} (htree : r.tree.Root) (hne : r.tree ≠ .null) :
    ∃ s, ezxmlToxml r = 60 :: s := by
  obtain ⟨tree, pi, err⟩ := r
  rcases htree with hnull | ⟨name, attr, txt, child, htag, hok⟩
  · exact absurd hnull hne
  · obtain rfl : tree = .tag name attr txt 0 child .null := htag
    have hcode := toxmlR_tag [] 0 name attr txt 0 child .null
    simp only [ezxmlToxml]
    cases instructions false pi with
    | nil => exact ⟨_, by rw [List.flatMap_nil, List.nil_append, hcode]; rfl⟩
    | cons i list =>
      exact ⟨_, by rw [List.flatMap_cons, instructionCode_eq]; rfl⟩

/-- A document that was parsed is written as one that is parsed without an error, into the
same instructions and the same tree. -/
theorem ezxmlParseStr_written {buffer : Bytes} {r : Parsed} (h : ezxmlParseStr buffer = some r)
    (hne : r.tree ≠ .null) (junk : Bytes) :
    ezxmlParseStr (ezxmlToxml r ++ 0 :: junk) =
      some { tree := r.tree.reread, pi := r.pi, err := none } := by
  have htree := root_ezxmlParseStr h
  have hpi : PiOk true r.pi := by
    obtain ⟨q, hq, -, hqpi⟩ := invariant_piOk.ezxmlParseStr h
    rw [hqpi]
    exact hq.named_of
  obtain ⟨s, hs⟩ := head_ezxmlToxml htree hne
  have hzero := zero_not_mem_ezxmlToxml htree hpi
  have hutf : str2utf8 (ezxmlToxml r ++ 0 :: junk) = ezxmlToxml r ++ 0 :: junk := by
    rw [hs, List.cons_append]
    rfl
  obtain ⟨e, he⟩ := exists_parseText hzero junk hutf
  have hparse := @resume_ezxmlToxml e r htree hne hpi
  rw [hs, resume_markup] at hparse
  rw [he, hs, parseText_markup, hparse]

/-- For every buffer: what was parsed, written and parsed again has no error, the same
instructions, and on every path of child tags the same text and the same attributes, but for
the blanks the encoder does not know. -/
theorem document_round_trip {buffer : Bytes} {r : Parsed} (h : ezxmlParseStr buffer = some r)
    (hne : r.tree ≠ .null) (junk : Bytes) :
    ∃ r', ezxmlParseStr (ezxmlToxml r ++ 0 :: junk) = some r' ∧ r'.err = none ∧ r'.pi = r.pi ∧
      ∀ (path : List Bytes) (name : Bytes),
        (path.foldl ezxmlChild r'.tree).txt? = (path.foldl ezxmlChild r.tree).txt? ∧
        ezxmlAttr (path.foldl ezxmlChild r'.tree) name =
          (ezxmlAttr (path.foldl ezxmlChild r.tree) name).map fun v =>
            v.map (readAs .attribute) := by
  refine ⟨_, ezxmlParseStr_written h hne junk, rfl, rfl, fun path name => ?_⟩
  simp only [foldl_ezxmlChild_reread]
  exact ⟨txt?_reread _, ezxmlAttr_reread _ name⟩

/-- A document with instructions, references and children. -/
theorem document_round_trip_event : ∃ r r',
    ezxmlParseStr (ofString
      "<?a b?><event type='10' x='1&#10;2'>&lt;<body>hi</body> all</event><?c?>\x00") = some r ∧
      ezxmlParseStr (ezxmlToxml r ++ [0]) = some r' ∧
      (ezxmlChild r'.tree (ofString "body")).txt? = (ezxmlChild r.tree (ofString "body")).txt? := by
  have hcheck : (ezxmlParseStr (ofString
      "<?a b?><event type='10' x='1&#10;2'>&lt;<body>hi</body> all</event><?c?>\x00")).any
      fun r => r.tree ≠ .null := by decide +kernel
  obtain ⟨r, hr, hne⟩ := (Option.any_eq_true _ _).mp hcheck
  obtain ⟨r', hr', -, -, hpath⟩ := document_round_trip hr (of_decide_eq_true hne) []
  exact ⟨r, r', hr, hr', (hpath [ofString "body"] []).1⟩

end ArpgServer.Ezxml
