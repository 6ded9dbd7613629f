import Mathlib.Data.List.Perm.Basic
import ArpgServer.Model.EzxmlLinks

/-!
# The links of a parent thread its tags

For tags inserted at any offsets, `ordered` leads through all of them in the order of their
offsets, tags at one offset in the order they came in; `ezxml_child` finds the first tag of a
name in that order, and `next` leads through the others.
-/

namespace ArpgServer.Ezxml

open CText Linked

/-- An address with its tag. -/
abbrev Tag := Nat × Label

/-- The test for a name. -/
def named (name : Bytes) (z : Tag) : Bool := z.2.name = name

/-- The test for the tags that stay in front of a tag at an offset. -/
def upTo (off : Nat) (z : Tag) : Bool := z.2.off ≤ off

/-- The tags with a new one, behind those whose offsets are not above its own. -/
def place (z : Tag) (tags : List Tag) : List Tag :=
  tags.takeWhile (upTo z.2.off) ++ z :: tags.dropWhile (upTo z.2.off)

/-- The offsets do not decrease. -/
def Rising (tags : List Tag) : Prop := tags.Pairwise fun z z' => z.2.off ≤ z'.2.off

variable {tags heads : List Tag} {z c : Tag} {off : Nat} {name : Bytes}

/-! ## Lists of tags -/

theorem dropWhile_upTo (h : Rising tags) : ∀ z ∈ tags.dropWhile (upTo off), off < z.2.off := by
  induction tags with
  | nil => simp
  | cons a tags ih =>
    obtain ⟨ha, htags⟩ := List.pairwise_cons.mp h
    intro z hz
    by_cases hup : upTo off a = true
    · rw [List.dropWhile_cons_of_pos hup] at hz
      exact ih htags z hz
    · have hlt : off < a.2.off := by simpa [upTo] using hup
      rw [List.dropWhile_cons_of_neg hup] at hz
      rcases List.mem_cons.mp hz with rfl | hz
      · exact hlt
      · exact Nat.lt_of_lt_of_le hlt (ha z hz)

theorem takeWhile_upTo : ∀ z ∈ tags.takeWhile (upTo off), z.2.off ≤ off := by
  intro z hz
  simpa [upTo] using List.mem_takeWhile_imp hz

/-- Among rising offsets the tags in front are those that pass the test. -/
theorem takeWhile_eq_filter (h : Rising tags) :
    tags.takeWhile (upTo off) = tags.filter (upTo off) := by
  have hback : (tags.dropWhile (upTo off)).filter (upTo off) = [] := by
    refine List.filter_eq_nil_iff.mpr fun z hz => ?_
    have hlt := dropWhile_upTo h z hz
    simp [upTo]
    omega
  have hfront : (tags.takeWhile (upTo off)).filter (upTo off) = tags.takeWhile (upTo off) :=
    List.filter_eq_self.mpr fun z hz => List.mem_takeWhile_imp hz
  calc tags.takeWhile (upTo off)
      = (tags.takeWhile (upTo off) ++ tags.dropWhile (upTo off)).filter (upTo off) := by
        rw [List.filter_append, hfront, hback, List.append_nil]
    _ = tags.filter (upTo off) := by rw [List.takeWhile_append_dropWhile]

theorem dropWhile_eq_filter (h : Rising tags) :
    tags.dropWhile (upTo off) = tags.filter fun z => !upTo off z := by
  have hfront : (tags.takeWhile (upTo off)).filter (fun z => !upTo off z) = [] := by
    refine List.filter_eq_nil_iff.mpr fun z hz => ?_
    simp [List.mem_takeWhile_imp hz]
  have hback : (tags.dropWhile (upTo off)).filter (fun z => !upTo off z) =
      tags.dropWhile (upTo off) := by
    refine List.filter_eq_self.mpr fun z hz => ?_
    have hlt := dropWhile_upTo h z hz
    simp [upTo]
    omega
  calc tags.dropWhile (upTo off)
      = (tags.takeWhile (upTo off) ++ tags.dropWhile (upTo off)).filter fun z => !upTo off z := by
        rw [List.filter_append, hfront, hback, List.nil_append]
    _ = tags.filter fun z => !upTo off z := by rw [List.takeWhile_append_dropWhile]

theorem place_perm : (place z tags).Perm (z :: tags) := by
  refine List.perm_middle.trans ?_
  rw [List.takeWhile_append_dropWhile]

theorem rising_place (h : Rising tags) : Rising (place z tags) := by
  have hparts : Rising (tags.takeWhile (upTo z.2.off) ++ tags.dropWhile (upTo z.2.off)) := by
    rwa [List.takeWhile_append_dropWhile]
  obtain ⟨hfront, hback, hboth⟩ := List.pairwise_append.mp hparts
  refine List.pairwise_append.mpr ⟨hfront, List.pairwise_cons.mpr ⟨?_, hback⟩, ?_⟩
  · intro a ha
    exact Nat.le_of_lt (dropWhile_upTo h a ha)
  · intro a ha b hb
    rcases List.mem_cons.mp hb with rfl | hb
    · exact takeWhile_upTo a ha
    · exact hboth a ha b hb

theorem filter_place_of_neg {p : Tag → Bool} (hz : p z = false) :
    (place z tags).filter p = tags.filter p := by
  have hcons : (z :: tags.dropWhile (upTo z.2.off)).filter p =
      (tags.dropWhile (upTo z.2.off)).filter p := List.filter_cons_of_neg (by simp [hz])
  rw [place, List.filter_append, hcons, ← List.filter_append, List.takeWhile_append_dropWhile]

/-- The tags of a name are placed as all tags are. -/
theorem filter_place (h : Rising tags) (hz : named name z = true) :
    (place z tags).filter (named name) = place z (tags.filter (named name)) := by
  have hsub : Rising (tags.filter (named name)) := h.filter _
  rw [place, place, List.filter_append, List.filter_cons_of_pos hz, takeWhile_eq_filter h,
    dropWhile_eq_filter h, takeWhile_eq_filter hsub, dropWhile_eq_filter hsub]
  simp only [List.filter_filter, Bool.and_comm]

theorem place_sublist (hheads : Rising heads) (h : Rising tags) (hsub : heads.Sublist tags) :
    (place z heads).Sublist (place z tags) := by
  rw [place, place, takeWhile_eq_filter hheads, dropWhile_eq_filter hheads, takeWhile_eq_filter h,
    dropWhile_eq_filter h]
  exact (hsub.filter _).append ((hsub.filter _).cons_cons z)

theorem find_place_of_neg {p : Tag → Bool} (hz : p z = false) :
    (place z tags).find? p = tags.find? p := by
  rw [← List.head?_filter, filter_place_of_neg hz, List.head?_filter]

theorem find_split (p : Tag → Bool) (off : Nat) : tags.find? p =
    ((tags.takeWhile (upTo off)).find? p).or ((tags.dropWhile (upTo off)).find? p) := by
  rw [← List.find?_append, List.takeWhile_append_dropWhile]

/-- The first tag of a name stays the first one when it is not behind the new tag. -/
theorem find_place_of_le {p : Tag → Bool} (h : Rising tags) (hc : tags.find? p = some c)
    (hle : c.2.off ≤ z.2.off) : (place z tags).find? p = some c := by
  have hfront : (tags.takeWhile (upTo z.2.off)).find? p = some c := by
    rw [find_split p z.2.off] at hc
    cases hfind : (tags.takeWhile (upTo z.2.off)).find? p with
    | some d => rwa [hfind] at hc
    | none =>
      rw [hfind, Option.none_or] at hc
      have hlt := dropWhile_upTo h c (List.mem_of_find?_eq_some hc)
      omega
  rw [place, List.find?_append, hfront]
  rfl

/-- The new tag is the first of its name when no other one is in front of it. -/
theorem find_place_of_lt {p : Tag → Bool} (hz : p z = true)
    (hlt : ∀ c ∈ tags, p c = true → z.2.off < c.2.off) : (place z tags).find? p = some z := by
  have hfront : (tags.takeWhile (upTo z.2.off)).find? p = none := by
    refine List.find?_eq_none.mpr fun c hc hp => ?_
    have hle := takeWhile_upTo c hc
    have hlt := hlt c ((List.takeWhile_sublist _).mem hc) hp
    omega
  rw [place, List.find?_append, hfront, List.find?_cons_of_pos hz]
  rfl

/-- No tag of a name is in front of the first one. -/
theorem off_find_le {p : Tag → Bool} (h : Rising tags) (hc : tags.find? p = some c) :
    ∀ d ∈ tags, p d = true → c.2.off ≤ d.2.off := by
  obtain ⟨-, front, back, rfl, hfront⟩ := List.find?_eq_some_iff_append.mp hc
  intro d hd hp
  rcases List.mem_append.mp hd with hd | hd
  · have hnot := hfront d hd
    simp [hp] at hnot
  · rcases List.mem_cons.mp hd with rfl | hd
    · exact Nat.le_refl _
    · exact (List.pairwise_cons.mp (List.pairwise_append.mp h).2.1).1 d hd

/-! ## The three lists -/

/-- The links of a parent lead through its tags: `ordered` through all, `next` through those of
a name, and `sibling` through some, among them the first one of every name. -/
structure Threads (m : Links) (tags : List Tag) : Prop where
  rising : Rising tags
  ordered : Chain m.ordered m.child tags none
  sibling : ∃ heads, Chain m.sibling m.child heads none ∧ heads.Sublist tags ∧
    ∀ name, heads.find? (named name) = tags.find? (named name)
  next : ∀ name, Chain m.next (first (tags.filter (named name))) (tags.filter (named name)) none

theorem threads_empty : Threads .empty [] where
  rising := List.Pairwise.nil
  ordered := rfl
  sibling := ⟨[], rfl, List.Sublist.refl [], fun _ => rfl⟩
  next := fun _ => rfl

variable {m : Links} {h : Heap Label} {s : Option Nat} {fuel : Nat} {a : Nat} {x : Label}

/-- The loops that look for the place of a new tag. -/
theorem search_upTo (hc : Chain h s tags none) (hfuel : tags.length < fuel) (off : Nat) :
    search h (fun y => some (off < y.off)) fuel none s =
      some (last (tags.takeWhile (upTo off)), first (tags.dropWhile (upTo off))) := by
  have htest : ∀ z : Tag, (!decide (off < z.2.off)) = upTo off z := by
    intro z
    rw [← decide_not, upTo]
    exact decide_eq_decide.mpr Nat.not_lt
  rw [search_eq hc hfuel, cut_decided]
  simp only [htest, Option.map_some, Option.or_none]

/-- The loops that look for a name. -/
theorem search_named (hc : Chain h s tags none) (hfuel : tags.length < fuel) (name : Bytes) :
    search h (fun y => some (y.name = name)) fuel none s =
      some (last (tags.takeWhile fun z => !named name z),
        (tags.find? (named name)).map Prod.fst) := by
  have hfirst : first (tags.dropWhile fun z => !named name z) =
      (tags.find? (named name)).map Prod.fst := by
    rw [first, List.find?_eq_head?_dropWhile_not]
  rw [search_eq hc hfuel, cut_decided]
  simp only [Option.map_some, Option.or_none]
  exact congrArg (fun r => some (_, r)) hfirst

/-- The new tag is linked where it is placed, behind another one. -/
theorem linkBehind_place (hc : Chain h s tags none) (ha : h a = some ⟨x, none⟩)
    (hfresh : a ∉ tags.map Prod.fst) {cur : Nat}
    (hcur : last (tags.takeWhile (upTo x.off)) = some cur) :
    ∃ h', Links.linkBehind h a cur (first (tags.dropWhile (upTo x.off))) = some h' ∧
      Chain h' s (place (a, x) tags) none ∧
      ∀ c, c ∉ tags.map Prod.fst → c ≠ a → h' c = h c := by
  have hparts : tags.takeWhile (upTo x.off) ++ tags.dropWhile (upTo x.off) = tags :=
    List.takeWhile_append_dropWhile
  obtain ⟨h', hset, hchain, hsame⟩ :=
    Chain.insert (hparts.symm ▸ hc) ha (hparts.symm ▸ hfresh) hcur
  refine ⟨h', hset, hchain, fun c hc hne => hsame c (fun hmem => hc ?_) hne⟩
  exact ((List.takeWhile_sublist _).map _).mem hmem

theorem last_takeWhile_eq_none (hlast : last (tags.takeWhile (upTo off)) = none) :
    tags.takeWhile (upTo off) = [] := by
  simpa [last] using hlast

/-- The new tag is the first one. -/
theorem place_eq_cons (h : tags.takeWhile (upTo x.off) = []) :
    place (a, x) tags = (a, x) :: tags := by
  have hparts := @List.takeWhile_append_dropWhile _ (upTo x.off) tags
  rw [h, List.nil_append] at hparts
  simp only [place, h, hparts, List.nil_append]

theorem exists_cons {head : Nat} (hc : Chain h (some head) tags none) :
    ∃ y rest next, tags = (head, y) :: rest ∧ h head = some ⟨y, next⟩ := by
  cases tags with
  | nil => cases hc
  | cons node rest =>
    obtain ⟨b, y⟩ := node
    obtain ⟨hstart, next, hb, -⟩ := hc
    cases hstart
    exact ⟨y, rest, next, rfl, hb⟩

/-- The list of all tags takes the new one in. -/
theorem insertOrdered_place {head : Nat} (hhead : m.child = some head)
    (hc : Chain m.ordered (some head) tags none) (ha : m.ordered a = some ⟨x, none⟩)
    (hfresh : a ∉ tags.map Prod.fst) (hfuel : tags.length < fuel) :
    ∃ ordered, Links.insertOrdered fuel m a x head =
        some { m with
          ordered := ordered
          child := if tags.takeWhile (upTo x.off) = [] then some a else some head } ∧
      Chain ordered (if tags.takeWhile (upTo x.off) = [] then some a else some head)
        (place (a, x) tags) none := by
  obtain ⟨y, rest, next, rfl, hy⟩ := exists_cons hc
  rw [Links.insertOrdered, hy, Option.bind_some]
  by_cases hle : y.off ≤ x.off
  · have hup : upTo x.off (head, y) = true := by simpa [upTo] using hle
    have htake : ((head, y) :: rest).takeWhile (upTo x.off) =
        (head, y) :: rest.takeWhile (upTo x.off) := List.takeWhile_cons_of_pos hup
    obtain ⟨cur, hcur⟩ : ∃ cur, last (((head, y) :: rest).takeWhile (upTo x.off)) = some cur := by
      rw [htake, last_cons]
      cases last (rest.takeWhile (upTo x.off)) with
      | none => exact ⟨head, rfl⟩
      | some cur => exact ⟨cur, rfl⟩
    obtain ⟨h', hset, hchain, -⟩ := linkBehind_place hc ha hfresh hcur
    have hne : ((head, y) :: rest).takeWhile (upTo x.off) ≠ [] := by
      rw [htake]
      exact List.cons_ne_nil _ _
    rw [if_pos hle, search_upTo hc hfuel, Option.bind_some]
    simp only [hcur, Option.bind_some, hset, Option.map_some, if_neg hne, ← hhead]
    exact ⟨h', rfl, hhead ▸ hchain⟩
  · have hup : ¬ upTo x.off (head, y) = true := by simpa [upTo] using hle
    have htake : ((head, y) :: rest).takeWhile (upTo x.off) = [] :=
      List.takeWhile_cons_of_neg hup
    obtain ⟨h', hset, hchain, -⟩ := hc.push ha hfresh
    rw [if_neg hle, hset]
    simp only [Option.map_some, if_pos htake, place_eq_cons htake]
    exact ⟨h', rfl, hchain⟩

/-- A list of one name takes the new tag in behind its first one. -/
theorem insertNext_place {cur : Nat} (hc : Chain m.next (some cur) tags none)
    (ha : m.next a = some ⟨x, none⟩) (hfresh : a ∉ tags.map Prod.fst) (hfuel : tags.length < fuel)
    (hfirst : tags.takeWhile (upTo x.off) ≠ []) :
    ∃ next, Links.insertNext fuel m a x cur = some { m with next := next } ∧
      Chain next (some cur) (place (a, x) tags) none ∧
      ∀ c, c ∉ tags.map Prod.fst → c ≠ a → next c = m.next c := by
  obtain ⟨l, hl⟩ : ∃ l, last (tags.takeWhile (upTo x.off)) = some l := by
    cases hlast : last (tags.takeWhile (upTo x.off)) with
    | none => exact absurd (last_takeWhile_eq_none hlast) hfirst
    | some l => exact ⟨l, rfl⟩
  obtain ⟨next, hset, hchain, hsame⟩ := linkBehind_place hc ha hfresh hl
  refine ⟨next, ?_, hchain, hsame⟩
  rw [Links.insertNext, search_upTo hc hfuel, Option.bind_some]
  simp only [hl, Option.bind_some, hset, Option.map_some]

/-- The first tag of a name leaves the list of the first ones, unless it is the first of all. -/
theorem unlink_head {head : Nat} (hc : Chain h (some head) heads none) (hrising : Rising heads)
    (hlt : ∀ c, heads.find? (named x.name) = some c → x.off < c.2.off)
    (hfresh : a ∉ heads.map Prod.fst) :
    ∃ sibling kept,
      Links.unlinkFirst h head (last (heads.takeWhile fun z => !named x.name z))
        ((heads.find? (named x.name)).map Prod.fst) = some sibling ∧
      Chain sibling (some head) kept none ∧ sibling a = h a ∧ kept.Sublist heads ∧
      (∀ name, name ≠ x.name → kept.find? (named name) = heads.find? (named name)) ∧
      ∀ d ∈ kept, named x.name d = true → x.off < d.2.off := by
  have hbehind : ∀ d ∈ heads, named x.name d = true → x.off < d.2.off := by
    intro d hd hname
    obtain ⟨c, hfind⟩ : ∃ c, heads.find? (named x.name) = some c :=
      Option.isSome_iff_exists.mp (List.find?_isSome.mpr ⟨d, hd, hname⟩)
    exact Nat.lt_of_lt_of_le (hlt c hfind) (off_find_le hrising hfind d hd hname)
  cases hprev : last (heads.takeWhile fun z => !named x.name z) with
  | none => exact ⟨h, heads, rfl, hc, rfl, List.Sublist.refl _, fun _ _ => rfl, hbehind⟩
  | some p =>
    cases hfind : heads.find? (named x.name) with
    | none => exact ⟨h, heads, rfl, hc, rfl, List.Sublist.refl _, fun _ _ => rfl, hbehind⟩
    | some c =>
      obtain ⟨c, y⟩ := c
      obtain ⟨hname, front, back, hsplit, hfront⟩ := List.find?_eq_some_iff_append.mp hfind
      have htake : heads.takeWhile (fun z => !named x.name z) = front := by
        rw [hsplit, List.takeWhile_append_of_pos hfront,
          List.takeWhile_cons_of_neg (by simp [hname]), List.append_nil]
      rw [htake] at hprev
      subst hsplit
      obtain ⟨h', s', hunlink, hchain, hsame⟩ := hc.unlink
      rw [hprev] at hunlink
      have hs' : s' = some head := by
        obtain ⟨node, -, hset⟩ := Option.bind_eq_some_iff.mp hunlink
        obtain ⟨h'', -, heq⟩ := Option.map_eq_some_iff.mp hset
        cases heq
        rfl
      have hsub : (front ++ back).Sublist (front ++ (c, y) :: back) :=
        (List.Sublist.refl front).append (List.sublist_cons_self _ _)
      refine ⟨h', front ++ back, ?_, hs' ▸ hchain, hsame a ?_, hsub, ?_, ?_⟩
      · rw [Option.map_some, Links.unlinkFirst, hunlink, Option.map_some]
      · intro hmem
        rw [List.map_append, List.mem_append, not_or] at hfresh
        exact hfresh.1 hmem
      · intro name hne
        have hother : named name (c, y) = false := by
          have hy : y.name = x.name := by simpa [named] using hname
          simp [named, hy, hne.symm]
        rw [List.find?_append, List.find?_append, List.find?_cons_of_neg (by simp [hother])]
      · exact fun d hd => hbehind d (hsub.mem hd)

/-- The list of the first tags takes the new one in. -/
theorem insertFirst_place {head : Nat} {cur : Option Nat}
    (hcur : (heads.find? (named x.name)).map Prod.fst = cur)
    (hc : Chain m.sibling (some head) heads none) (hrising : Rising heads)
    (hlt : ∀ c, heads.find? (named x.name) = some c → x.off < c.2.off)
    (ha : m.sibling a = some ⟨x, none⟩) (hnext : m.next a = some ⟨x, none⟩)
    (hfresh : a ∉ heads.map Prod.fst) (hfuel : heads.length < fuel) :
    ∃ sibling kept, Links.insertFirst fuel m a x head
        (last (heads.takeWhile fun z => !named x.name z)) cur =
          some { m with
            next := Function.update m.next a (some ⟨x, cur⟩)
            sibling := sibling } ∧
      Chain sibling (if kept.takeWhile (upTo x.off) = [] then some a else some head)
        (place (a, x) kept) none ∧ (∃ h, Chain h (some head) kept none) ∧ kept.Sublist heads ∧
      (∀ name, name ≠ x.name → kept.find? (named name) = heads.find? (named name)) ∧
      ∀ d ∈ kept, named x.name d = true → x.off < d.2.off := by
  subst hcur
  obtain ⟨sibling, kept, hremoved, hkept, hsame, hsub, hothers, hbehind⟩ :=
    unlink_head hc hrising hlt hfresh
  have hfreshKept : a ∉ kept.map Prod.fst := fun hmem => hfresh ((hsub.map _).mem hmem)
  have hset : setNext m.next a ((heads.find? (named x.name)).map Prod.fst) =
      some (Function.update m.next a (some ⟨x, (heads.find? (named x.name)).map Prod.fst⟩)) := by
    rw [setNext, hnext, Option.map_some]
  have hfuelKept : kept.length < fuel := Nat.lt_of_le_of_lt hsub.length_le hfuel
  rw [← hsame] at ha
  rw [Links.insertFirst, hremoved, Option.bind_some, hset, Option.bind_some,
    search_upTo hkept hfuelKept, Option.bind_some]
  cases hlast : last (kept.takeWhile (upTo x.off)) with
  | none =>
    have hnil := last_takeWhile_eq_none hlast
    have hall : kept.dropWhile (upTo x.off) = kept := by
      have hparts := @List.takeWhile_append_dropWhile _ (upTo x.off) kept
      rwa [hnil, List.nil_append] at hparts
    obtain ⟨h', hpush, hchain, -⟩ := hkept.push ha hfreshKept
    rw [hkept.start_eq] at hpush
    refine ⟨h', kept, ?_, ?_, ⟨_, hkept⟩, hsub, hothers, hbehind⟩
    · simp only [hall, hpush, Option.map_some]
    · rw [if_pos hnil, place_eq_cons hnil]
      exact hchain
  | some l =>
    have hne : kept.takeWhile (upTo x.off) ≠ [] := by
      intro hnil
      rw [hnil] at hlast
      cases hlast
    obtain ⟨h', hbehindSet, hchain, -⟩ := linkBehind_place hkept ha hfreshKept hlast
    refine ⟨h', kept, ?_, ?_, ⟨_, hkept⟩, hsub, hothers, hbehind⟩
    · simp only [hbehindSet, Option.map_some]
    · rw [if_neg hne]
      exact hchain

/-! ## One insertion -/

theorem first_filter (p : Tag → Bool) : first (tags.filter p) = (tags.find? p).map Prod.fst := by
  rw [first, List.head?_filter]

theorem takeWhile_upTo_eq_nil : tags.takeWhile (upTo off) = [] ↔
    ∀ z, tags.head? = some z → off < z.2.off := by
  cases tags with
  | nil => simp
  | cons z tags =>
    by_cases hup : upTo off z = true
    · rw [List.takeWhile_cons_of_pos hup]
      have hle : z.2.off ≤ off := by simpa [upTo] using hup
      simp [hle]
    · rw [List.takeWhile_cons_of_neg hup]
      have hlt : off < z.2.off := by simpa [upTo] using hup
      simp [hlt]

theorem named_self : named x.name (a, x) = true := by simp [named]

theorem named_of_ne (h : name ≠ x.name) : named name (a, x) = false := by simp [named, h.symm]

namespace Threads

variable (ht : Threads m tags) (hfresh : a ∉ tags.map Prod.fst)

include hfresh in
theorem not_mem_of_sublist {l : List Tag} (hsub : l.Sublist tags) : a ∉ l.map Prod.fst :=
  fun hmem => hfresh ((hsub.map _).mem hmem)

include ht in
/-- The tags of a name, as `next` leads through them. -/
theorem chain_named (name : Bytes) :
    Chain m.next ((tags.find? (named name)).map Prod.fst) (tags.filter (named name)) none := by
  rw [← first_filter]
  exact ht.next name

include ht hfresh in
theorem allocate (x : Label) : Threads (m.allocate a x) tags where
  rising := ht.rising
  ordered := ht.ordered.update hfresh _
  sibling := by
    obtain ⟨heads, hheads, hsub, hfind⟩ := ht.sibling
    exact ⟨heads, hheads.update (not_mem_of_sublist hfresh hsub) _, hsub, hfind⟩
  next := fun name =>
    (ht.next name).update (not_mem_of_sublist hfresh List.filter_sublist) _

include ht hfresh in
/-- The first tag of a parent. -/
theorem insert_empty (hchild : m.child = none) :
    Threads { m.allocate a x with child := some a } (place (a, x) tags) := by
  have htags : tags = [] := by
    have hchain := ht.ordered
    rw [hchild] at hchain
    cases tags with
    | nil => rfl
    | cons z tags => cases hchain.1
  subst htags
  have hplace : place (a, x) [] = [(a, x)] := rfl
  have hself : ∀ h : Heap Label,
      Chain (Function.update h a (some ⟨x, none⟩)) (some a) [(a, x)] none :=
    fun h => ⟨rfl, none, Function.update_self .., rfl⟩
  rw [hplace]
  refine ⟨List.pairwise_singleton _ _, hself _, ⟨[(a, x)], hself _, List.Sublist.refl _,
    fun _ => rfl⟩, fun name => ?_⟩
  by_cases hname : named name (a, x) = true
  · rw [List.filter_cons_of_pos hname]
    exact hself _
  · rw [List.filter_cons_of_neg hname]
    rfl

include ht hfresh in
/-- A tag that is not the first one of its name. -/
theorem insert_next {ordered next : Heap Label} {head : Nat}
    (hc : tags.find? (named x.name) = some c) (hle : c.2.off ≤ x.off) (hchild : m.child = some head)
    (hordered : Chain ordered (if tags.takeWhile (upTo x.off) = [] then some a else some head)
      (place (a, x) tags) none)
    (hnext : Chain next (some c.1) (place (a, x) (tags.filter (named x.name))) none)
    (hsame : ∀ b, b ∉ (tags.filter (named x.name)).map Prod.fst → b ≠ a → next b = m.next b) :
    Threads { m with
      ordered := ordered
      child := if tags.takeWhile (upTo x.off) = [] then some a else some head
      next := next } (place (a, x) tags) := by
  have hmem := List.mem_of_find?_eq_some hc
  have htake : tags.takeWhile (upTo x.off) ≠ [] := by
    rw [takeWhile_eq_filter ht.rising]
    intro hnil
    have hnot := List.filter_eq_nil_iff.mp hnil c hmem
    exact hnot (by simpa [upTo] using hle)
  have hfind : (place (a, x) tags).find? (named x.name) = some c :=
    find_place_of_le ht.rising hc hle
  refine ⟨rising_place ht.rising, hordered, ?_, fun name => ?_⟩
  · obtain ⟨heads, hheads, hsub, hfirst⟩ := ht.sibling
    rw [hchild] at hheads
    refine ⟨heads, by rwa [if_neg htake], hsub.trans ?_, fun name => ?_⟩
    · have hparts := @List.takeWhile_append_dropWhile _ (upTo x.off) tags
      conv => lhs; rw [← hparts]
      exact (List.Sublist.refl _).append (List.sublist_cons_self _ _)
    · by_cases hname : name = x.name
      · rw [hname, hfirst, hc, hfind]
      · rw [hfirst, find_place_of_neg (named_of_ne hname)]
  · by_cases hname : name = x.name
    · subst hname
      rw [first_filter, hfind, filter_place ht.rising named_self]
      exact hnext
    · rw [filter_place_of_neg (named_of_ne hname)]
      refine (ht.next name).congr fun b hb => hsame b ?_ ?_
      · intro hb'
        obtain ⟨z, hz, rfl⟩ := List.mem_map.mp hb
        obtain ⟨z', hz', heq⟩ := List.mem_map.mp hb'
        obtain ⟨hz, hzname⟩ := List.mem_filter.mp hz
        obtain ⟨hz', hzname'⟩ := List.mem_filter.mp hz'
        obtain rfl := List.inj_on_of_nodup_map ht.ordered.nodup hz' hz heq
        have h₁ : z'.2.name = name := by simpa [named] using hzname
        have h₂ : z'.2.name = x.name := by simpa [named] using hzname'
        exact hname (h₁.symm.trans h₂)
      · rintro rfl
        exact not_mem_of_sublist hfresh List.filter_sublist hb

include ht in
/-- Whether the new tag comes first shows in both lists. -/
theorem takeWhile_congr {head : Nat} {kept : List Tag} (hchild : m.child = some head)
    (hkept : Chain h (some head) kept none) (hsub : kept.Sublist tags) :
    kept.takeWhile (upTo off) = [] ↔ tags.takeWhile (upTo off) = [] := by
  have hordered := ht.ordered
  have hnodup := ht.ordered.nodup
  rw [hchild] at hordered
  obtain ⟨y, rest, next, htags, -⟩ := exists_cons hordered
  obtain ⟨y', rest', next', rfl, -⟩ := exists_cons hkept
  have hmem : (head, y') ∈ tags := hsub.mem List.mem_cons_self
  have hmem' : (head, y) ∈ tags := by
    rw [htags]
    exact List.mem_cons_self
  have heq := List.inj_on_of_nodup_map hnodup hmem hmem' rfl
  cases heq
  rw [takeWhile_upTo_eq_nil, takeWhile_upTo_eq_nil, htags]
  simp

include ht hfresh in
/-- A tag that is the first one of its name. -/
theorem insert_first {ordered sibling : Heap Label} {head : Nat} {kept heads : List Tag}
    (hlt : ∀ c, tags.find? (named x.name) = some c → x.off < c.2.off)
    (hordered : Chain ordered (if tags.takeWhile (upTo x.off) = [] then some a else some head)
      (place (a, x) tags) none)
    (hsibling : Chain sibling (if tags.takeWhile (upTo x.off) = [] then some a else some head)
      (place (a, x) kept) none)
    (hsub : kept.Sublist heads) (hheads : heads.Sublist tags)
    (hfirst : ∀ name, heads.find? (named name) = tags.find? (named name))
    (hothers : ∀ name, name ≠ x.name → kept.find? (named name) = heads.find? (named name))
    (hbehind : ∀ d ∈ kept, named x.name d = true → x.off < d.2.off) :
    Threads
      { child := if tags.takeWhile (upTo x.off) = [] then some a else some head
        ordered := ordered
        next := Function.update m.next a (some ⟨x, (tags.find? (named x.name)).map Prod.fst⟩)
        sibling := sibling } (place (a, x) tags) := by
  have hsubTags := hsub.trans hheads
  have hrisingKept : Rising kept := ht.rising.sublist hsubTags
  have hall : ∀ d ∈ tags, named x.name d = true → x.off < d.2.off := by
    intro d hd hname
    obtain ⟨c, hfind⟩ : ∃ c, tags.find? (named x.name) = some c :=
      Option.isSome_iff_exists.mp (List.find?_isSome.mpr ⟨d, hd, hname⟩)
    exact Nat.lt_of_lt_of_le (hlt c hfind) (off_find_le ht.rising hfind d hd hname)
  refine ⟨rising_place ht.rising, hordered, ⟨_, hsibling,
    place_sublist hrisingKept ht.rising hsubTags, fun name => ?_⟩, fun name => ?_⟩
  · by_cases hname : name = x.name
    · subst hname
      rw [find_place_of_lt named_self hbehind, find_place_of_lt named_self hall]
    · rw [find_place_of_neg (named_of_ne hname), find_place_of_neg (named_of_ne hname),
        hothers name hname, hfirst]
  · by_cases hname : name = x.name
    · subst hname
      have hnil : (tags.filter (named x.name)).takeWhile (upTo x.off) = [] := by
        rw [takeWhile_upTo_eq_nil, List.head?_filter]
        exact fun z hz => hall z (List.mem_of_find?_eq_some hz) (List.find?_some hz)
      rw [filter_place ht.rising named_self, place_eq_cons hnil]
      exact ⟨rfl, _, Function.update_self ..,
        (ht.chain_named x.name).update (not_mem_of_sublist hfresh List.filter_sublist) _⟩
    · rw [filter_place_of_neg (named_of_ne hname)]
      exact (ht.next name).update (not_mem_of_sublist hfresh List.filter_sublist) _

include ht hfresh in
/-- **One insertion.** The new tag is placed in all three lists. -/
theorem insert (hfuel : tags.length < fuel) : ∃ m', Links.ezxmlInsert fuel m a x = some m' ∧
    Threads m' (place (a, x) tags) := by
  have hta := ht.allocate hfresh x
  cases hchild : m.child with
  | none => exact ⟨_, by simp only [Links.ezxmlInsert, Links.allocate, hchild],
      ht.insert_empty hfresh hchild⟩
  | some head =>
    have hchild' : (m.allocate a x).child = some head := hchild
    obtain ⟨ordered, hset, hordered⟩ := insertOrdered_place (m := m.allocate a x) hchild'
      (hchild' ▸ hta.ordered) (Function.update_self ..) hfresh hfuel
    obtain ⟨heads, hheads, hsub, hfirst⟩ := hta.sibling
    rw [hchild'] at hheads
    have hfuelHeads : heads.length < fuel := Nat.lt_of_le_of_lt hsub.length_le hfuel
    have hrisingHeads : Rising heads := ht.rising.sublist hsub
    have hfreshHeads := not_mem_of_sublist hfresh hsub
    -- What both branches that make the new tag the first one of its name come to.
    have hfirstTag : ∀ cur, (heads.find? (named x.name)).map Prod.fst = cur →
        (∀ c, heads.find? (named x.name) = some c → x.off < c.2.off) →
        ∃ m', Links.insertFirst fuel { m.allocate a x with
            ordered := ordered
            child := if tags.takeWhile (upTo x.off) = [] then some a else some head } a x head
            (last (heads.takeWhile fun z => !named x.name z)) cur = some m' ∧
          Threads m' (place (a, x) tags) := by
      intro cur hcur hlt
      obtain ⟨sibling, kept, hinsert, hsibling, ⟨_, hstart⟩, hkept, hothers, hbehind⟩ :=
        insertFirst_place
        (m := { m.allocate a x with
          ordered := ordered
          child := if tags.takeWhile (upTo x.off) = [] then some a else some head })
        hcur hheads hrisingHeads hlt (Function.update_self ..) (Function.update_self ..)
        hfreshHeads hfuelHeads
      have hsame : kept.takeWhile (upTo x.off) = [] ↔ tags.takeWhile (upTo x.off) = [] :=
        hta.takeWhile_congr hchild' hstart (hkept.trans hsub)
      simp only [hsame] at hsibling
      have hcurTags : (tags.find? (named x.name)).map Prod.fst = cur := by rw [← hfirst, hcur]
      refine ⟨_, hinsert, ?_⟩
      rw [← hcurTags]
      exact hta.insert_first hfresh (fun c hc => hlt c (by rw [hfirst, hc])) hordered hsibling hkept
        hsub hfirst hothers hbehind
    simp only [Links.ezxmlInsert, hchild', hset, Option.bind_some, Links.insertNamed]
    rw [search_named hheads hfuelHeads]
    cases hfind : heads.find? (named x.name) with
    | none =>
      simp only [Option.map_none, Option.bind_some]
      exact hfirstTag none (by rw [hfind]; rfl) (by simp [hfind])
    | some c =>
      obtain ⟨next, hc⟩ := hheads.mem (a := c.1) (x := c.2) (List.mem_of_find?_eq_some hfind)
      simp only [Option.map_some, Option.bind_some, hc]
      split
      · rename_i hle
        have hcTags : tags.find? (named x.name) = some c := by rw [← hfirst, hfind]
        have hchain := hta.chain_named x.name
        rw [hcTags, Option.map_some] at hchain
        have hne : (tags.filter (named x.name)).takeWhile (upTo x.off) ≠ [] := by
          rw [ne_eq, takeWhile_upTo_eq_nil, List.head?_filter, hcTags]
          intro hlt
          have hlt := hlt c rfl
          omega
        have hfuelName : (tags.filter (named x.name)).length < fuel :=
          Nat.lt_of_le_of_lt (List.length_filter_le _ _) hfuel
        obtain ⟨next, hinsert, hnext, hsame⟩ := insertNext_place
          (m := { m.allocate a x with
            ordered := ordered
            child := if tags.takeWhile (upTo x.off) = [] then some a else some head })
          hchain (Function.update_self ..) (not_mem_of_sublist hfresh List.filter_sublist)
          hfuelName hne
        exact ⟨_, hinsert, hta.insert_next hfresh hcTags hle hchild' hordered hnext hsame⟩
      · rename_i hle
        refine hfirstTag (some c.1) (by rw [hfind]; rfl) fun d hd => ?_
        rw [hfind] at hd
        cases hd
        exact Nat.lt_of_not_le hle

include ht in
/-- `ezxml_get` counts the tags of a name. -/
theorem ezxmlGet (hfuel : tags.length < fuel) (name : Bytes) (k : Nat) :
    Links.ezxmlGet fuel m name k = some ((tags.filter (named name))[k]?.map Prod.fst) := by
  have hidx : ∀ (l : List Tag) (s : Option Nat) (k : Nat), Chain m.next s l none →
      Links.ezxmlIdx m s k = some (l[k]?.map Prod.fst) := by
    intro l
    induction l with
    | nil =>
      intro s k hl
      obtain rfl : s = none := hl
      cases k <;> rfl
    | cons z l ih =>
      intro s k hl
      obtain ⟨rfl, next, hz, hl⟩ := hl
      cases k with
      | zero => rfl
      | succ k =>
        rw [Links.ezxmlIdx, hz, Option.bind_some, ih next k hl, List.getElem?_cons_succ]
  obtain ⟨heads, hheads, hsub, hfirst⟩ := ht.sibling
  rw [Links.ezxmlGet, Links.ezxmlChild,
    search_named hheads (Nat.lt_of_le_of_lt hsub.length_le hfuel), Option.map_some,
    Option.bind_some, hfirst]
  exact hidx _ _ k (ht.chain_named name)

end Threads

/-! ## Any number of insertions -/

/-- The tags in the order of their offsets, those at one offset in the order they came in. -/
def placeAll (tags kids : List Tag) : List Tag := kids.foldl (fun tags z => place z tags) tags

/-- The test for an offset. -/
def atOff (off : Nat) (z : Tag) : Bool := z.2.off = off

variable {kids : List Tag}

theorem placeAll_perm : (placeAll tags kids).Perm (tags ++ kids) := by
  induction kids generalizing tags with
  | nil => rw [List.append_nil]; rfl
  | cons z kids ih =>
    refine ih.trans ((place_perm.append_right kids).trans ?_)
    exact List.perm_middle.symm

theorem filter_atOff_place (h : Rising tags) :
    (place z tags).filter (atOff off) = tags.filter (atOff off) ++ [z].filter (atOff off) := by
  by_cases hz : atOff off z = true
  · have hoff : z.2.off = off := by simpa [atOff] using hz
    have hback : (tags.dropWhile (upTo z.2.off)).filter (atOff off) = [] := by
      refine List.filter_eq_nil_iff.mpr fun d hd => ?_
      have hlt := dropWhile_upTo h d hd
      simp [atOff]
      omega
    have hfront : tags.filter (atOff off) = (tags.takeWhile (upTo z.2.off)).filter (atOff off) := by
      conv => lhs; rw [← @List.takeWhile_append_dropWhile _ (upTo z.2.off) tags]
      rw [List.filter_append, hback, List.append_nil]
    rw [hfront, place, List.filter_append, List.filter_cons_of_pos hz, hback,
      List.filter_cons_of_pos hz]
    rfl
  · rw [filter_place_of_neg (by simpa using hz), List.filter_cons_of_neg hz, List.filter_nil,
      List.append_nil]

theorem filter_atOff_placeAll (h : Rising tags) :
    (placeAll tags kids).filter (atOff off) =
      tags.filter (atOff off) ++ kids.filter (atOff off) := by
  induction kids generalizing tags with
  | nil => rw [List.filter_nil, List.append_nil]; rfl
  | cons z kids ih =>
    have hcons : (z :: kids).filter (atOff off) =
        [z].filter (atOff off) ++ kids.filter (atOff off) := by
      rw [← List.filter_append]
      rfl
    rw [hcons, ← List.append_assoc, ← filter_atOff_place h]
    exact ih (rising_place h)

/-- A tag that is not in front of any other one comes to the end. -/
theorem place_eq_append (h : ∀ d ∈ tags, d.2.off ≤ z.2.off) : place z tags = tags ++ [z] := by
  have hall : ∀ d ∈ tags, upTo z.2.off d = true := by
    intro d hd
    simpa [upTo] using h d hd
  rw [place, List.takeWhile_eq_self_iff.mpr hall, List.dropWhile_eq_nil_iff.mpr hall]

/-- Tags that come in with rising offsets stay in their order, as those of a document do. -/
theorem placeAll_of_rising (h : Rising (tags ++ kids)) : placeAll tags kids = tags ++ kids := by
  induction kids generalizing tags with
  | nil => rw [List.append_nil]; rfl
  | cons z kids ih =>
    have hplace : place z tags = tags ++ [z] :=
      place_eq_append fun d hd => (List.pairwise_append.mp h).2.2 d hd z List.mem_cons_self
    change placeAll (place z tags) kids = tags ++ z :: kids
    rw [hplace, ih (by rwa [List.append_assoc]), List.append_assoc]
    rfl

theorem insertAll_threads (ht : Threads m tags) (hnodup : ((tags ++ kids).map Prod.fst).Nodup)
    (hfuel : tags.length + kids.length ≤ fuel) :
    ∃ m', Links.insertAll fuel m kids = some m' ∧ Threads m' (placeAll tags kids) := by
  induction kids generalizing m tags with
  | nil => exact ⟨m, rfl, ht⟩
  | cons z kids ih =>
    obtain ⟨a, x⟩ := z
    have hperm := (@place_perm tags (a, x)).append_right kids
    rw [List.length_cons] at hfuel
    have hfresh : a ∉ tags.map Prod.fst := by
      rw [List.map_append, List.map_cons, List.nodup_append] at hnodup
      exact fun hmem => hnodup.2.2 a hmem a List.mem_cons_self rfl
    have hroom : tags.length < fuel := by omega
    obtain ⟨m', hinsert, ht'⟩ := ht.insert (x := x) hfresh hroom
    have hlen : (place (a, x) tags).length = tags.length + 1 := by
      rw [place_perm.length_eq, List.length_cons]
    have hnodup' : ((place (a, x) tags ++ kids).map Prod.fst).Nodup := by
      refine ((hperm.map Prod.fst).nodup_iff).mpr ?_
      exact ((List.perm_middle.map Prod.fst).nodup_iff).mp hnodup
    obtain ⟨m'', hall, ht''⟩ := ih ht' hnodup' (by omega)
    exact ⟨m'', by rw [Links.insertAll, hinsert, Option.bind_some, hall], ht''⟩

/-- For tags at any offsets, put into a parent one after another: `ordered` leads through all
of them by offset, those at one offset in the order they came in, so that tags of a document
stay in its order; and `ezxml_get` finds the `k`-th tag of a name in this order. -/
theorem insertAll_get (hnodup : (kids.map Prod.fst).Nodup) (hfuel : kids.length < fuel) :
    ∃ m tags, Links.insertAll fuel .empty kids = some m ∧ Chain m.ordered m.child tags none ∧
      tags.Perm kids ∧ Rising tags ∧ (∀ off, tags.filter (atOff off) = kids.filter (atOff off)) ∧
      (Rising kids → tags = kids) ∧
      ∀ name k, Links.ezxmlGet fuel m name k =
        some ((tags.filter (named name))[k]?.map Prod.fst) := by
  have hroom : ([] : List Tag).length + kids.length ≤ fuel := by
    rw [List.length_nil]
    omega
  obtain ⟨m, hall, ht⟩ := insertAll_threads threads_empty hnodup hroom
  have hlen : (placeAll [] kids).length < fuel := by rwa [placeAll_perm.length_eq]
  exact ⟨m, placeAll [] kids, hall, ht.ordered, placeAll_perm, ht.rising,
    fun off => filter_atOff_placeAll List.Pairwise.nil, @placeAll_of_rising [] kids,
    ht.ezxmlGet hlen⟩

/-- Two tags of one name, put in from the last offset to the first, and one between them. -/
theorem insertAll_get_backwards : ∃ m tags,
    Links.insertAll 4 .empty [(1, ⟨[97], 7⟩), (2, ⟨[98], 5⟩), (3, ⟨[97], 0⟩)] = some m ∧
      Chain m.ordered m.child tags none ∧ Rising tags ∧
      Links.ezxmlGet 4 m [97] 1 = some ((tags.filter (named [97]))[1]?.map Prod.fst) := by
  obtain ⟨m, tags, hall, hordered, -, hrising, -, -, hget⟩ :=
    @insertAll_get 4 [(1, ⟨[97], 7⟩), (2, ⟨[98], 5⟩), (3, ⟨[97], 0⟩)] (by decide) (by decide)
  exact ⟨m, tags, hall, hordered, hrising, hget [97] 1⟩

end ArpgServer.Ezxml
