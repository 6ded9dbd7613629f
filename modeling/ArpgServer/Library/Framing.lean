import Mathlib.Algebra.Ring.Nat
import Mathlib.Data.List.Basic

/-!
# Length-prefixed frames

A payload is sent behind its length, a big-endian number of a fixed number of bytes. The
lemmas say what is found at the front of a stream of such frames, and how long it is. A
receiver that follows the lengths gets the payloads of frames that were written in part only
exactly when nothing is written after the first such part.
-/

namespace Framing

/-- The `width` low bytes of a number, the most significant one first. -/
def bigEndian : Nat → Nat → List UInt8
  | 0, _ => []
  | width + 1, n => (n / 256 ^ width).toUInt8 :: bigEndian width n

/-- The number that big-endian bytes denote. -/
def value : List UInt8 → Nat
  | [] => 0
  | b :: bs => b.toNat * 256 ^ bs.length + value bs

@[simp] theorem length_bigEndian (width n : Nat) : (bigEndian width n).length = width := by
  induction width with
  | zero => rfl
  | succ width ih => rw [bigEndian, List.length_cons, ih]

theorem value_bigEndian_mod (width n : Nat) : value (bigEndian width n) = n % 256 ^ width := by
  induction width with
  | zero => rw [bigEndian, value, Nat.pow_zero, Nat.mod_one]
  | succ width ih =>
    have hdigit : (n / 256 ^ width).toUInt8.toNat = n / 256 ^ width % 256 :=
      UInt8.toNat_ofNat'
    rw [bigEndian, value, ih, hdigit, length_bigEndian, Nat.pow_succ, Nat.mod_mul]
    rw [Nat.mul_comm, Nat.add_comm]

theorem value_bigEndian {width n : Nat} (h : n < 256 ^ width) : value (bigEndian width n) = n := by
  rw [value_bigEndian_mod, Nat.mod_eq_of_lt h]

def frame (width : Nat) (p : List UInt8) : List UInt8 := bigEndian width p.length ++ p

/-- The frames of several payloads, one behind the other. -/
def frames (width : Nat) (ps : List (List UInt8)) : List UInt8 := ps.flatMap (frame width)

variable (width : Nat) (p : List UInt8) (ps qs : List (List UInt8))

@[simp] theorem frames_nil : frames width [] = [] := rfl

theorem frames_cons :
    frames width (p :: ps) = bigEndian width p.length ++ (p ++ frames width ps) := by
  rw [frames, List.flatMap_cons, frame, List.append_assoc]
  rfl

/-- The first bytes are the length of the first payload. -/
theorem take_frames_cons : (frames width (p :: ps)).take width = bigEndian width p.length := by
  rw [frames_cons]
  exact List.take_left' (length_bigEndian width p.length)

theorem drop_frames_cons : (frames width (p :: ps)).drop width = p ++ frames width ps := by
  rw [frames_cons]
  exact List.drop_left' (length_bigEndian width p.length)

theorem length_frames :
    (frames width ps).length = (ps.map fun p => width + p.length).sum := by
  induction ps with
  | nil => rfl
  | cons p ps ih =>
    rw [frames_cons, List.length_append, List.length_append, length_bigEndian, ih, List.map_cons,
      List.sum_cons, Nat.add_assoc]

theorem length_frames_cons :
    (frames width (p :: ps)).length = width + p.length + (frames width ps).length := by
  rw [length_frames, length_frames, List.map_cons, List.sum_cons]

/-! ## Receiving -/

/-- The payloads a receiver takes from a stream, at most so many, and what is left. -/
def receiveAtMost (width : Nat) : Nat → List UInt8 → List (List UInt8) × List UInt8
  | 0, s => ([], s)
  | fuel + 1, s =>
    if s.length < width ∨ (s.drop width).length < value (s.take width) then ([], s)
    else
      let (ps, rest) := receiveAtMost width fuel ((s.drop width).drop (value (s.take width)))
      ((s.drop width).take (value (s.take width)) :: ps, rest)

/-- All payloads in a stream, and what is left. -/
def receive (width : Nat) (s : List UInt8) : List (List UInt8) × List UInt8 :=
  receiveAtMost width s.length s

theorem length_receiveAtMost (fuel : Nat) (s : List UInt8) :
    s.length = (frames width (receiveAtMost width fuel s).1).length +
      (receiveAtMost width fuel s).2.length := by
  induction fuel generalizing s with
  | zero => simp [receiveAtMost]
  | succ fuel ih =>
    rw [receiveAtMost]
    split
    · simp
    · rename_i hfits
      have hrest := ih ((s.drop width).drop (value (s.take width)))
      simp only [List.length_drop] at hfits hrest
      simp only [length_frames_cons, List.length_take, List.length_drop]
      omega

theorem length_receive (s : List UInt8) :
    s.length = (frames width (receive width s).1).length + (receive width s).2.length :=
  length_receiveAtMost width s.length s

/-- A piece of a frame that is not all of it. -/
def Unfinished (width : Nat) (rest : List UInt8) : Prop :=
  ∃ p, p.length < 256 ^ width ∧ rest <+: frame width p ∧ rest.length < width + p.length

theorem receiveAtMost_unfinished {rest : List UInt8} (hrest : rest = [] ∨ Unfinished width rest)
    (hwidth : 0 < width) (fuel : Nat) : receiveAtMost width fuel rest = ([], rest) := by
  cases fuel with
  | zero => rfl
  | succ fuel =>
    rw [receiveAtMost, if_pos]
    rcases hrest with rfl | ⟨p, hp, ⟨more, hmore⟩, hlen⟩
    · left
      exact hwidth
    · by_cases hshort : rest.length < width
      · left
        exact hshort
      · right
        have hhead : rest.take width = bigEndian width p.length := by
          have htake := congrArg (List.take width) hmore
          rw [List.take_append_of_le_length (by omega), frame,
            List.take_left' (length_bigEndian width p.length)] at htake
          exact htake
        rw [hhead, value_bigEndian hp, List.length_drop]
        omega

theorem length_le_frames (hwidth : 0 < width) : ps.length ≤ (frames width ps).length := by
  induction ps with
  | nil => exact Nat.zero_le _
  | cons p ps ih =>
    rw [length_frames_cons, List.length_cons]
    omega

/-- Whole frames are received, and the unfinished one behind them waits. -/
theorem receive_frames {rest : List UInt8} (hps : ∀ p ∈ ps, p.length < 256 ^ width)
    (hrest : rest = [] ∨ Unfinished width rest) (hwidth : 0 < width) :
    receive width (frames width ps ++ rest) = (ps, rest) := by
  suffices hfuel : ∀ fuel, ps.length ≤ fuel →
      receiveAtMost width fuel (frames width ps ++ rest) = (ps, rest) by
    apply hfuel
    have hcount := length_le_frames width ps hwidth
    rw [List.length_append]
    omega
  induction ps with
  | nil =>
    intro fuel _
    exact receiveAtMost_unfinished width hrest hwidth fuel
  | cons p ps ih =>
    intro fuel hfuel
    rw [List.length_cons] at hfuel
    obtain ⟨fuel, rfl⟩ : ∃ k, fuel = k + 1 := ⟨fuel - 1, by omega⟩
    have hp := hps p List.mem_cons_self
    have hdrop : (frames width (p :: ps) ++ rest).drop width = p ++ (frames width ps ++ rest) := by
      rw [frames_cons, List.append_assoc, List.drop_left' (length_bigEndian width p.length),
        List.append_assoc]
    have hhead : value ((frames width (p :: ps) ++ rest).take width) = p.length := by
      rw [frames_cons, List.append_assoc, List.take_left' (length_bigEndian width p.length),
        value_bigEndian hp]
    have hlong : ¬ (frames width (p :: ps) ++ rest).length < width := by
      rw [List.length_append, length_frames_cons]
      omega
    have hfits : ¬ (p ++ (frames width ps ++ rest)).length < p.length := by
      rw [List.length_append]
      omega
    rw [receiveAtMost, hhead, hdrop, if_neg (not_or.mpr ⟨hlong, hfits⟩), List.drop_left,
      List.take_left, ih (fun q hq => hps q (List.mem_cons_of_mem p hq)) fuel (by omega)]

/-! ## Frames that are written in part -/

/-- So many bytes of a frame, or all of it. -/
def piece (width : Nat) (x : List UInt8 × Nat) : List UInt8 := (frame width x.1).take x.2

/-- All of the frame is written. -/
def isWhole (width : Nat) (x : List UInt8 × Nat) : Bool := width + x.1.length ≤ x.2

/-- Nothing is written. -/
def isSilent (x : List UInt8 × Nat) : Bool := x.2 = 0

/-- The stream of pieces. -/
def written (width : Nat) (xs : List (List UInt8 × Nat)) : List UInt8 := xs.flatMap (piece width)

/-- The payloads of the frames that are written whole. -/
def wholes (width : Nat) (xs : List (List UInt8 × Nat)) : List (List UInt8) :=
  (xs.filter (isWhole width)).map Prod.fst

/-- The last piece of all, when it is not a whole frame. -/
def unfinished (width : Nat) : List (List UInt8 × Nat) → List UInt8
  | [] => []
  | x :: xs =>
    if xs.all isSilent then (if isWhole width x then [] else piece width x)
    else unfinished width xs

/-- Nothing is written after a piece that is not a whole frame. -/
def Orderly (width : Nat) : List (List UInt8 × Nat) → Prop
  | [] => True
  | x :: xs => (xs.all isSilent ∨ isSilent x ∨ isWhole width x) ∧ Orderly width xs

section
variable {width : Nat} {x : List UInt8 × Nat} {xs ys : List (List UInt8 × Nat)}

theorem length_frame (p : List UInt8) : (frame width p).length = width + p.length := by
  rw [frame, List.length_append, length_bigEndian]

theorem length_piece : (piece width x).length = min x.2 (width + x.1.length) := by
  rw [piece, List.length_take, length_frame]

theorem piece_of_isWhole (h : isWhole width x) : piece width x = frame width x.1 := by
  apply List.take_of_length_le
  rw [length_frame]
  exact of_decide_eq_true h

theorem written_cons : written width (x :: xs) = piece width x ++ written width xs := by
  rw [written, List.flatMap_cons]
  rfl

theorem written_of_silent (h : xs.all isSilent) : written width xs = [] := by
  rw [written, List.flatMap_eq_nil_iff]
  intro x hx
  have hzero : x.2 = 0 := of_decide_eq_true (List.all_eq_true.mp h x hx)
  rw [piece, hzero, List.take_zero]

theorem wholes_cons :
    wholes width (x :: xs) =
      if isWhole width x then x.1 :: wholes width xs else wholes width xs := by
  rw [wholes, List.filter_cons]
  split <;> rfl

theorem wholes_of_silent (hwidth : 0 < width) (h : xs.all isSilent) : wholes width xs = [] := by
  rw [wholes, List.map_eq_nil_iff, List.filter_eq_nil_iff]
  intro x hx
  have hzero : x.2 = 0 := of_decide_eq_true (List.all_eq_true.mp h x hx)
  simp only [isWhole, hzero, decide_eq_true_eq]
  omega

theorem orderly_of_silent (h : xs.all isSilent) : Orderly width xs := by
  induction xs with
  | nil => trivial
  | cons x xs ih =>
    rw [List.all_cons, Bool.and_eq_true] at h
    exact ⟨Or.inl h.2, ih h.2⟩

theorem Orderly.take (h : Orderly width xs) (n : Nat) : Orderly width (xs.take n) := by
  induction xs generalizing n with
  | nil =>
    rw [List.take_nil]
    trivial
  | cons x xs ih =>
    cases n with
    | zero => trivial
    | succ n =>
      obtain ⟨hx, hxs⟩ := h
      refine ⟨hx.imp_left fun hall => ?_, ih hxs n⟩
      rw [List.all_eq_true] at hall ⊢
      exact fun y hy => hall y (List.mem_of_mem_take hy)

/-- The stream is never shorter than its whole frames and its last piece, and as long only when
the pieces are in order. -/
theorem length_written (hwidth : 0 < width) (xs : List (List UInt8 × Nat)) :
    (frames width (wholes width xs)).length + (unfinished width xs).length ≤
        (written width xs).length ∧
      ((frames width (wholes width xs)).length + (unfinished width xs).length =
        (written width xs).length → Orderly width xs) := by
  induction xs with
  | nil => exact ⟨Nat.le_refl 0, fun _ => trivial⟩
  | cons x xs ih =>
    obtain ⟨hle, horderly⟩ := ih
    rw [written_cons, wholes_cons, unfinished, List.length_append]
    by_cases hall : xs.all isSilent
    · rw [if_pos hall, written_of_silent hall, wholes_of_silent hwidth hall]
      refine ⟨?_, fun _ => ⟨Or.inl hall, orderly_of_silent hall⟩⟩
      split
      · rename_i hx
        rw [piece_of_isWhole hx, length_frames_cons, length_frame]
        simp
      · simp
    · rw [if_neg hall]
      by_cases hx : isWhole width x
      · rw [if_pos hx, length_frames_cons, piece_of_isWhole hx, length_frame]
        refine ⟨by omega, fun heq => ⟨Or.inr (Or.inr hx), horderly (by omega)⟩⟩
      · rw [if_neg hx, length_piece]
        refine ⟨by omega, fun heq => ⟨Or.inr (Or.inl ?_), horderly (by omega)⟩⟩
        show decide (x.2 = 0) = true
        rw [decide_eq_true_eq]
        omega

theorem Orderly.written_eq (hwidth : 0 < width) (h : Orderly width xs) :
    written width xs = frames width (wholes width xs) ++ unfinished width xs := by
  induction xs with
  | nil => rfl
  | cons x xs ih =>
    obtain ⟨hx, hxs⟩ := h
    rw [written_cons, wholes_cons, unfinished]
    by_cases hall : xs.all isSilent
    · rw [if_pos hall, written_of_silent hall, wholes_of_silent hwidth hall, List.append_nil]
      split
      · rename_i hw
        rw [piece_of_isWhole hw, frames, List.flatMap_singleton, List.append_nil]
      · rfl
    · rw [if_neg hall, ih hxs]
      split
      · rename_i hw
        rw [piece_of_isWhole hw, frames, frames, List.flatMap_cons, List.append_assoc]
      · rename_i hw
        have hzero : x.2 = 0 :=
          of_decide_eq_true ((hx.resolve_left hall).resolve_right hw)
        rw [piece, hzero, List.take_zero, List.nil_append]

theorem unfinished_spec (hlen : ∀ x ∈ xs, x.1.length < 256 ^ width) :
    unfinished width xs = [] ∨ Unfinished width (unfinished width xs) := by
  induction xs with
  | nil => exact Or.inl rfl
  | cons x xs ih =>
    rw [unfinished]
    split
    · split
      · exact Or.inl rfl
      · rename_i hw
        refine Or.inr ⟨x.1, hlen x List.mem_cons_self, List.take_prefix .., ?_⟩
        have hpart : ¬ width + x.1.length ≤ x.2 := fun h => hw (decide_eq_true h)
        rw [length_piece]
        omega
    · exact ih fun y hy => hlen y (List.mem_cons_of_mem x hy)

/-- The receiver gets what was written whole, and at most the last piece is left, exactly when
the pieces are in order. -/
theorem receive_written_iff (hwidth : 0 < width) (hlen : ∀ x ∈ xs, x.1.length < 256 ^ width) :
    receive width (written width xs) = (wholes width xs, unfinished width xs) ↔
      Orderly width xs := by
  constructor
  · intro h
    have hreceived := length_receive width (written width xs)
    rw [h] at hreceived
    exact (length_written hwidth xs).2 hreceived.symm
  · intro h
    rw [h.written_eq hwidth]
    apply receive_frames width _ _ (unfinished_spec hlen) hwidth
    intro p hp
    obtain ⟨x, hx, rfl⟩ := List.mem_map.mp hp
    exact hlen x (List.mem_of_mem_filter hx)

end

end Framing
