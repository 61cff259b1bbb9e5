import Warm.Bytes

/-! Logs of self-delimiting frames: what a reader finds of a log that was cut anywhere. A frame reads
back whatever follows it, and a cut frame does not read. -/
namespace Warm

open Bytes List

/-- The bytes of a frame and a reader that returns the first frame with its size. -/
structure FrameFormat (φ : Type) where
  encode : φ → Bytes
  read : Bytes → Option (φ × Nat)

namespace FrameFormat

variable {φ : Type}

/-- What makes a format self-delimiting on the frames that fit it. -/
structure Lawful (format : FrameFormat φ) (Fits : φ → Prop) : Prop where
  read_encode : ∀ frame, Fits frame → ∀ rest,
    format.read (format.encode frame ++ rest) = some (frame, (format.encode frame).length)
  read_cut : ∀ frame, Fits frame → ∀ n, n < (format.encode frame).length →
    format.read ((format.encode frame).take n) = none
  encode_pos : ∀ frame, Fits frame → 0 < (format.encode frame).length

def encodeAll (format : FrameFormat φ) (frames : List φ) : Bytes := frames.flatMap format.encode

/-- The frames up to the first bytes that do not read, and where those are. -/
def scan (format : FrameFormat φ) : Nat → Bytes → List φ × Nat
  | 0, _ => ([], 0)
  | fuel + 1, data =>
    match format.read data with
    | none => ([], 0)
    | some (frame, size) =>
      let (frames, behind) := scan format fuel (data.drop size)
      (frame :: frames, size + behind)

variable {format : FrameFormat φ} {Fits : φ → Prop}

@[simp] theorem encodeAll_nil : format.encodeAll [] = [] := rfl

theorem encodeAll_cons (frame : φ) (frames : List φ) :
    format.encodeAll (frame :: frames) = format.encode frame ++ format.encodeAll frames := flatMap_cons

theorem encodeAll_append (first second : List φ) :
    format.encodeAll (first ++ second) = format.encodeAll first ++ format.encodeAll second := flatMap_append

theorem length_le_encodeAll (lawful : format.Lawful Fits) (fit : ∀ frame ∈ frames, Fits frame) :
    frames.length ≤ (format.encodeAll frames).length := by
  induction frames with
  | nil => exact Nat.le_refl _
  | cons frame frames ih =>
    have rest := ih (forall_mem_cons.mp fit).2
    have own := lawful.encode_pos frame (fit frame (by simp))
    rw [encodeAll_cons, length_append, length_cons]
    omega

theorem scan_encodeAll (lawful : format.Lawful Fits) (fit : ∀ frame ∈ frames, Fits frame)
    (ends : format.read torn = none) (enough : frames.length < fuel) :
    format.scan fuel (format.encodeAll frames ++ torn) = (frames, (format.encodeAll frames).length) := by
  induction frames generalizing fuel with
  | nil =>
    obtain ⟨fuel, rfl⟩ := Nat.exists_eq_succ_of_ne_zero (Nat.ne_of_gt enough)
    rw [encodeAll_nil, nil_append, scan, ends]
    rfl
  | cons frame frames ih =>
    rw [length_cons] at enough
    obtain ⟨fuel, rfl⟩ := Nat.exists_eq_succ_of_ne_zero (Nat.ne_of_gt (Nat.lt_of_le_of_lt (Nat.zero_le _) enough))
    have rest := ih (forall_mem_cons.mp fit).2 (Nat.lt_of_succ_lt_succ enough)
    rw [encodeAll_cons, append_assoc, scan, lawful.read_encode frame (fit frame (by simp))]
    dsimp only
    rw [drop_left, rest, length_append]

theorem take_encodeAll (lawful : format.Lawful Fits) (empty : format.read [] = none)
    (fit : ∀ frame ∈ frames, Fits frame) (n : Nat) :
    ∃ count torn, (format.encodeAll frames).take n = format.encodeAll (frames.take count) ++ torn ∧
      format.read torn = none := by
  induction frames generalizing n with
  | nil => exact ⟨0, [], by simp, empty⟩
  | cons frame frames ih =>
    rw [encodeAll_cons, List.take_append]
    by_cases whole : (format.encode frame).length ≤ n
    · obtain ⟨count, torn, cut, ends⟩ :=
        ih (forall_mem_cons.mp fit).2 (n - (format.encode frame).length)
      refine ⟨count + 1, torn, ?_, ends⟩
      rw [take_of_length_le whole, cut, take_succ_cons, encodeAll_cons, append_assoc]
    · refine ⟨0, (format.encode frame).take n, ?_, lawful.read_cut frame (fit frame (by simp)) n (by omega)⟩
      rw [Nat.sub_eq_zero_of_le (by omega)]
      simp

end FrameFormat

end Warm
