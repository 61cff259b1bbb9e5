import Mathlib.Data.List.Basic
import Mathlib.Tactic.Ring
import Mathlib.Tactic.Linarith

/-! Byte strings as a mapped file sees them: little-endian words, writes over a range and
zero tails. Reads past the end give zero, so every reader checks its bounds itself. -/
namespace Warm

open List

abbrev Bytes := List UInt8

namespace Bytes

def octet (data : Bytes) (i : Nat) : UInt8 := data[i]?.getD 0

/-- The little-endian 32-bit word at `i`. -/
def word (data : Bytes) (i : Nat) : Nat :=
  (octet data i).toNat + 256 * (octet data (i + 1)).toNat +
    65536 * (octet data (i + 2)).toNat + 16777216 * (octet data (i + 3)).toNat

def ofWord (n : Nat) : Bytes :=
  [UInt8.ofNat n, UInt8.ofNat (n / 256), UInt8.ofNat (n / 65536), UInt8.ofNat (n / 16777216)]

/-- `data[i..i + bytes.len()].copy_from_slice(bytes)`. -/
def write (data : Bytes) (i : Nat) (bytes : Bytes) : Bytes :=
  data.take i ++ (bytes ++ data.drop (i + bytes.length))

/-- `data[i..i + len]`. -/
def slice (data : Bytes) (i len : Nat) : Bytes := (data.drop i).take len

def zeros (n : Nat) : Bytes := List.replicate n 0

@[simp] theorem ofWord_length (n : Nat) : (ofWord n).length = 4 := rfl
@[simp] theorem zeros_length (n : Nat) : (zeros n).length = n := length_replicate
@[simp] theorem zeros_zero : zeros 0 = [] := rfl

theorem zeros_append (m n : Nat) : zeros m ++ zeros n = zeros (m + n) :=
  replicate_append_replicate

@[simp] theorem drop_zeros (m n : Nat) : (zeros n).drop m = zeros (n - m) := drop_replicate

@[simp] theorem octet_zeros (n i : Nat) : octet (zeros n) i = 0 := by
  simp only [octet, zeros, getElem?_replicate]
  split <;> rfl

theorem octet_append_left (data rest : Bytes) (inside : i < data.length) :
    octet (data ++ rest) i = octet data i := by
  rw [octet, octet, getElem?_append_left inside]

theorem octet_append_right (front data : Bytes) (i : Nat) :
    octet (front ++ data) (front.length + i) = octet data i := by
  rw [octet, octet, getElem?_append_right (Nat.le_add_right _ _), Nat.add_sub_cancel_left]

theorem octet_drop (data : Bytes) (i j : Nat) : octet (data.drop i) j = octet data (i + j) := by
  rw [octet, octet, getElem?_drop]

theorem octet_past_end (data : Bytes) (i : Nat) (past : data.length ≤ i) : octet data i = 0 := by
  rw [octet, getElem?_eq_none past]
  rfl

theorem word_append_right (front data : Bytes) (i : Nat) :
    word (front ++ data) (front.length + i) = word data i := by
  simp only [word, Nat.add_assoc, octet_append_right]

theorem word_drop (data : Bytes) (i j : Nat) : word (data.drop i) j = word data (i + j) := by
  simp only [word, octet_drop, Nat.add_assoc]

theorem word_append_left (data rest : Bytes) (i : Nat) (inside : i + 4 ≤ data.length) :
    word (data ++ rest) i = word data i := by
  rw [word, word, octet_append_left _ _ (by omega), octet_append_left _ _ (by omega),
    octet_append_left _ _ (by omega), octet_append_left _ _ (by omega)]

theorem word_ofWord (n : Nat) : word (ofWord n) 0 = n % 2 ^ 32 := by
  simp only [word, octet, ofWord, getElem?_cons_zero, getElem?_cons_succ,
    Option.getD_some, UInt8.toNat_ofNat']
  omega

theorem word_ofWord_append (n : Nat) (rest : Bytes) : word (ofWord n ++ rest) 0 = n % 2 ^ 32 := by
  rw [word_append_left _ _ _ (by simp), word_ofWord]

@[simp] theorem word_zeros (n i : Nat) : word (zeros n) i = 0 := by simp [word]

theorem octet_slice (data : Bytes) (i len j : Nat) (inside : j < len) :
    octet (slice data i len) j = octet data (i + j) := by
  rw [slice, octet, octet, getElem?_take_of_lt inside, getElem?_drop]

theorem word_slice (data : Bytes) (i len j : Nat) (inside : j + 4 ≤ len) :
    word (slice data i len) j = word data (i + j) := by
  simp only [word, Nat.add_assoc]
  rw [octet_slice _ _ _ _ (by omega), octet_slice _ _ _ _ (by omega),
    octet_slice _ _ _ _ (by omega), octet_slice _ _ _ _ (by omega)]

theorem slice_length (data : Bytes) (i len : Nat) (inside : i + len ≤ data.length) :
    (slice data i len).length = len := by
  simp only [slice, length_take, length_drop]
  omega

theorem slice_append_right (front data : Bytes) (i len : Nat) :
    slice (front ++ data) (front.length + i) len = slice data i len := by
  rw [slice, slice, drop_length_add_append]

theorem slice_whole (data rest : Bytes) : slice (data ++ rest) 0 data.length = data := by
  simp [slice]

theorem ofWord_word (length : data.length = 4) : ofWord (word data 0) = data := by
  match data, length with
  | [a, b, c, d], _ =>
    have a_lt := a.toNat_lt
    have b_lt := b.toNat_lt
    have c_lt := c.toNat_lt
    have d_lt := d.toNat_lt
    simp only [ofWord, word, octet, getElem?_cons_zero, getElem?_cons_succ,
      Option.getD_some, List.cons.injEq, and_true, ← UInt8.toNat_inj, UInt8.toNat_ofNat']
    omega

theorem slice_eq_ofWord (data : Bytes) (i : Nat) (inside : i + 4 ≤ data.length) (small : n < 2 ^ 32) :
    (slice data i 4 == ofWord n) = (word data i == n) := by
  have whole : word (slice data i 4) 0 = word data i := word_slice data i 4 0 (by decide)
  rw [Bool.eq_iff_iff, beq_iff_eq, beq_iff_eq, ← whole]
  constructor
  · intro same
    rw [same, word_ofWord]
    omega
  · rintro rfl
    exact (ofWord_word (slice_length data i 4 inside)).symm

theorem word_eq_zero_iff (data : Bytes) (i : Nat) :
    word data i = 0 ↔ ∀ j < 4, octet data (i + j) = 0 := by
  have byte (b : UInt8) : b = 0 ↔ b.toNat = 0 := by
    constructor
    · rintro rfl; rfl
    · intro h; exact UInt8.toNat_inj.mp h
  constructor
  · intro zero j bound
    unfold word at zero
    obtain rfl | rfl | rfl | rfl : j = 0 ∨ j = 1 ∨ j = 2 ∨ j = 3 := by omega
    · rw [byte, Nat.add_zero]; omega
    all_goals rw [byte]; omega
  · intro each
    have a := each 0 (by decide)
    have b := each 1 (by decide)
    have c := each 2 (by decide)
    have d := each 3 (by decide)
    simp only [Nat.add_zero] at a
    simp [word, a, b, c, d]

theorem all_zero_iff (data : Bytes) :
    data.all (· == 0) = true ↔ ∀ j < data.length, octet data j = 0 := by
  simp only [all_eq_true, beq_iff_eq, octet]
  constructor
  · intro zero j bound
    simpa [bound] using zero _ (getElem_mem bound)
  · intro zero b member
    obtain ⟨j, bound, rfl⟩ := mem_iff_getElem.mp member
    simpa [bound] using zero j bound

@[simp] theorem write_length (data bytes : Bytes) (i : Nat)
    (fits : i + bytes.length ≤ data.length) : (write data i bytes).length = data.length := by
  simp only [write, length_append, length_take, length_drop]
  omega

theorem write_append (front old bytes : Bytes) :
    write (front ++ old) front.length bytes = front ++ (bytes ++ old.drop bytes.length) := by
  simp [write, drop_append]

end Bytes

end Warm
