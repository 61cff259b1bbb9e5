import Warm.Bytes
import Mathlib.Data.Nat.Bitwise
import Mathlib.Data.Nat.Size
import Mathlib.Tactic.IntervalCases

/-! Values of one width as a little-endian bit string: packed through a 64-bit buffer, read back
through windows of a few bytes or, for the widest, byte by byte. A read outside the bytes has no result. -/
namespace Warm.BitPacking

open List hiding count

/-- The number a byte string stands for, lowest byte first. -/
def number : Bytes → Nat
  | [] => 0
  | b :: bytes => b.toNat + 256 * number bytes

/-- The lowest `count` bytes of a number: `to_le_bytes()[..count]`. -/
def leBytes (value : Nat) : Nat → Bytes
  | 0 => []
  | count + 1 => UInt8.ofNat value :: leBytes (value / 256) count

/-- Each value goes into the buffer above the `used` bits; a full buffer is written out. -/
def packFrom (bits : Nat) : Nat → Nat → List Nat → Bytes
  | buffer, used, [] => leBytes buffer ((used + 7) / 8)
  | buffer, used, value :: values =>
    let filled := buffer ||| (value <<< used) % 2 ^ 64
    if used + bits ≥ 64 then
      leBytes filled 8 ++ packFrom bits (if used = 0 then 0 else value >>> (64 - used)) (used + bits - 64) values
    else packFrom bits filled (used + bits) values

def pack (values : List Nat) (bits : Nat) : Bytes := packFrom bits 0 0 values

/-- The values of one width as one number. -/
def stream (bits : Nat) : List Nat → Nat
  | [] => 0
  | value :: values => value + 2 ^ bits * stream bits values

def field (bytes : Bytes) (bit bits : Nat) : Nat := number bytes / 2 ^ bit % 2 ^ bits

/-- `&bytes[start..start + size]`. -/
def exactly (bytes : Bytes) (start size : Nat) : Option Bytes :=
  if start + size ≤ bytes.length then some (bytes.slice start size) else none

/-- At most eight bytes of the tail from `start` on, before zeros. -/
def padded (bytes : Bytes) (start : Nat) : Option Bytes :=
  if start ≤ bytes.length then some (bytes.slice start 8) else none

def masked (window : Bytes) (shift bits : Nat) : Nat := (number window >>> shift) &&& (2 ^ bits - 1)

/-- Bytes go into the reader's buffer until it has `bits` bits. -/
def refill (bits : Nat) : Bytes → Nat → Nat → Option (Bytes × Nat × Nat)
  | [], buffer, used => if used < bits then none else some ([], buffer, used)
  | b :: bytes, buffer, used =>
    if used < bits then refill bits bytes (buffer ||| b.toNat <<< used) (used + 8) else some (b :: bytes, buffer, used)

/-- `count` calls of the reader's `next`. -/
def readAll (bits : Nat) : Nat → Bytes → Nat → Nat → Option (List Nat)
  | 0, _, _, _ => some []
  | count + 1, bytes, buffer, used => do
    let (bytes, buffer, used) ← refill bits bytes buffer used
    let values ← readAll bits count bytes (buffer >>> bits) (used - bits)
    some ((buffer &&& (2 ^ bits - 1)) :: values)

def unpackInto (bytes : Bytes) (count bits : Nat) : Option (List Nat) :=
  if bits = 0 then some (List.replicate count 0)
  else if 56 < bits then readAll bits count bytes 0 0
  else (List.range count).mapM fun index =>
    ((exactly bytes (index * bits / 8) 8).or (padded bytes (index * bits / 8))).map (masked · (index * bits % 8) bits)

/-- The vector loop: eight values of two loads at a time while both are inside. -/
def unpackVector (bytes : Bytes) (count bits : Nat) : Nat → Nat → Option (List Nat)
  | 0, _ => some []
  | fuel + 1, done =>
    if done + 8 ≤ count ∧ done * bits / 8 + bits / 2 + 16 ≤ bytes.length then do
      let lo ← exactly bytes (done * bits / 8) 16
      let hi ← exactly bytes (done * bits / 8 + bits / 2) 16
      let rest ← unpackVector bytes count bits fuel (done + 8)
      some ((List.range 8).map (fun lane => masked ((if lane < 4 then lo else hi).slice
        (lane * bits / 8 - lane / 4 * (bits / 2)) 4) (lane * bits % 8) bits) ++ rest)
    else some []

def decoded (vector : Bool) (bytes : Bytes) (count bits : Nat) : Option (List Nat) :=
  if vector ∧ bits ≤ 25 ∧ 32 ≤ count then unpackVector bytes count bits count 0 else some []

/-- The values of a width up to 32, with vector instructions or without. -/
def unpackFixed (vector : Bool) (bytes : Bytes) (count bits : Nat) : Option (List Nat) := do
  let decoded ← decoded vector bytes count bits
  let whole := if 8 ≤ bytes.length then min (((bytes.length - 8) * 8 + 7) / bits + 1) count else 0
  (List.range count).mapM fun index =>
    if whole ≤ index then (padded bytes (index * bits / 8)).map (masked · (index * bits % 8) bits)
    else if decoded.length ≤ index then (exactly bytes (index * bits / 8) 8).map (masked · (index * bits % 8) bits)
    else decoded[index]?

def BLOCK_LEN : Nat := 128

/-- Into an array of `BLOCK_LEN` values. -/
def unpackValues (vector : Bool) (bytes : Bytes) (count bits : Nat) : Option (List Nat) :=
  if BLOCK_LEN < count then none
  else if bits = 0 then some (List.replicate count 0)
  else if bits ≤ 32 then unpackFixed vector bytes count bits
  else unpackInto bytes count bits

def unpack (bytes : Bytes) (index bits : Nat) : Option Nat :=
  if bits = 0 then some 0
  else
    let bit := index * bits
    let window := if bits ≤ 56 then exactly bytes (bit / 8) 8 else none
    (window.or (exactly bytes (bit / 8) ((bit % 8 + bits + 7) / 8))).map (masked · (bit % 8) bits)

section Number

theorem number_append (front back : Bytes) : number (front ++ back) = number front + 256 ^ front.length * number back := by
  induction front with
  | nil => simp [number]
  | cons b front ih =>
    rw [cons_append, number, ih, number, length_cons, pow_succ]
    ring

theorem number_drop (bytes : Bytes) (k : Nat) : number (bytes.drop k) = number bytes / 256 ^ k := by
  induction k generalizing bytes with
  | zero => simp
  | succ k ih =>
    cases bytes with
    | nil => simp [number]
    | cons b bytes =>
      have small := b.toNat_lt
      have next : (b.toNat + 256 * number bytes) / 256 = number bytes := by omega
      rw [drop_succ_cons, ih, number, pow_succ', ← Nat.div_div_eq_div_mul, next]

theorem number_take (bytes : Bytes) (k : Nat) : number (bytes.take k) = number bytes % 256 ^ k := by
  induction k generalizing bytes with
  | zero => simp [number, Nat.mod_one]
  | succ k ih =>
    cases bytes with
    | nil => simp [number]
    | cons b bytes =>
      have small := b.toNat_lt
      have low : (b.toNat + 256 * number bytes) % 256 = b.toNat := by omega
      have high : (b.toNat + 256 * number bytes) / 256 = number bytes := by omega
      rw [take_succ_cons, number, ih, number, pow_succ', Nat.mod_mul, low, high]

theorem leBytes_length (value count : Nat) : (leBytes value count).length = count := by
  induction count generalizing value with
  | zero => rfl
  | succ count ih => rw [leBytes, length_cons, ih]

theorem number_leBytes (value count : Nat) : number (leBytes value count) = value % 256 ^ count := by
  induction count generalizing value with
  | zero => simp [leBytes, number, Nat.mod_one]
  | succ count ih =>
    rw [leBytes, number, ih, pow_succ', Nat.mod_mul, UInt8.toNat_ofNat']

theorem pow_bytes (k : Nat) : 256 ^ k = 2 ^ (8 * k) := by
  rw [pow_mul]
  rfl

end Number

section Pack

variable {bits : Nat}

theorem lor_shifted (small : low < 2 ^ k) : low ||| high * 2 ^ k = low + high * 2 ^ k := by
  rw [Nat.lor_comm, Nat.mul_comm, ← Nat.two_pow_add_eq_or_of_lt small, Nat.add_comm]

theorem shifted_split (inside : used < 64) (fits : value < 2 ^ 64) :
    ∃ low, (value <<< used) % 2 ^ 64 = low * 2 ^ used ∧
      low * 2 ^ used + 2 ^ 64 * (if used = 0 then 0 else value >>> (64 - used)) = value * 2 ^ used := by
  have power : (2 : Nat) ^ 64 = 2 ^ (64 - used) * 2 ^ used := by rw [← pow_add, Nat.sub_add_cancel (by omega)]
  have high : (if used = 0 then 0 else value >>> (64 - used)) = value / 2 ^ (64 - used) := by
    by_cases first : used = 0
    · subst first
      rw [if_pos rfl, Nat.sub_zero, Nat.div_eq_of_lt fits]
    · rw [if_neg first, Nat.shiftRight_eq_div_pow]
  refine ⟨value % 2 ^ (64 - used), ?_, ?_⟩
  · rw [Nat.shiftLeft_eq, power, Nat.mul_mod_mul_right]
  · rw [high, power]
    calc value % 2 ^ (64 - used) * 2 ^ used + 2 ^ (64 - used) * 2 ^ used * (value / 2 ^ (64 - used))
        = (value % 2 ^ (64 - used) + 2 ^ (64 - used) * (value / 2 ^ (64 - used))) * 2 ^ used := by ring
      _ = value * 2 ^ used := by rw [Nat.mod_add_div]

theorem packFrom_spec (wide : bits ≤ 64) (inside : used < 64) (held : buffer < 2 ^ used)
    (fit : ∀ v ∈ values, v < 2 ^ bits) :
    number (packFrom bits buffer used values) = buffer + 2 ^ used * stream bits values ∧
      (packFrom bits buffer used values).length = (used + bits * values.length + 7) / 8 := by
  induction values generalizing buffer used with
  | nil =>
    have room : buffer < 256 ^ ((used + 7) / 8) := by
      rw [pow_bytes]
      exact held.trans_le (Nat.pow_le_pow_right (by norm_num) (by omega))
    rw [packFrom, number_leBytes, leBytes_length, Nat.mod_eq_of_lt room]
    simp [stream]
  | cons value values ih =>
    have own := fit value mem_cons_self
    have rest : ∀ v ∈ values, v < 2 ^ bits := (forall_mem_cons.mp fit).2
    have fits : value < 2 ^ 64 := own.trans_le (Nat.pow_le_pow_right (by norm_num) wide)
    obtain ⟨low, shifted, split⟩ := shifted_split inside fits
    have filled : buffer ||| (value <<< used) % 2 ^ 64 = buffer + low * 2 ^ used := by
      rw [shifted, lor_shifted held]
    have bound : buffer + value * 2 ^ used < 2 ^ (used + bits) := by
      have top : (value + 1) * 2 ^ used ≤ 2 ^ bits * 2 ^ used := Nat.mul_le_mul_right _ own
      rw [pow_add, Nat.mul_comm (2 ^ used)]
      rw [Nat.add_mul, Nat.one_mul] at top
      omega
    rw [packFrom, stream, length_cons, filled]
    by_cases full : used + bits ≥ 64
    · rw [if_pos full]
      generalize (if used = 0 then 0 else value >>> (64 - used)) = carry at split ⊢
      have small : buffer + low * 2 ^ used < 2 ^ 64 := by
        have less := Nat.mod_lt (value <<< used) (y := 2 ^ 64) (by norm_num)
        rw [shifted] at less
        have aligned : (low + 1) * 2 ^ used ≤ 2 ^ 64 := by
          have power : (2 : Nat) ^ 64 = 2 ^ (64 - used) * 2 ^ used := by rw [← pow_add, Nat.sub_add_cancel (by omega)]
          rw [power] at less ⊢
          exact Nat.mul_le_mul_right _ (Nat.lt_of_mul_lt_mul_right less)
        rw [Nat.add_mul, Nat.one_mul] at aligned
        omega
      have next : carry < 2 ^ (used + bits - 64) := by
        have power : 2 ^ (used + bits) = 2 ^ 64 * 2 ^ (used + bits - 64) := by
          rw [← pow_add, Nat.add_sub_cancel' full]
        have total : 2 ^ 64 * carry < 2 ^ 64 * 2 ^ (used + bits - 64) := by
          rw [← power]
          omega
        exact Nat.lt_of_mul_lt_mul_left total
      obtain ⟨value_eq, length_eq⟩ := ih (by omega) next rest
      rw [number_append, number_leBytes, leBytes_length, length_append, leBytes_length, value_eq, length_eq,
        pow_bytes, Nat.mod_eq_of_lt small]
      constructor
      · have power : 2 ^ 64 * 2 ^ (used + bits - 64) = 2 ^ used * 2 ^ bits := by
          rw [← pow_add, ← pow_add, Nat.add_sub_cancel' full]
        calc buffer + low * 2 ^ used + 2 ^ 64 * (carry + 2 ^ (used + bits - 64) * stream bits values)
            = buffer + (low * 2 ^ used + 2 ^ 64 * carry) +
                2 ^ 64 * 2 ^ (used + bits - 64) * stream bits values := by ring
          _ = buffer + 2 ^ used * (value + 2 ^ bits * stream bits values) := by rw [split, power]; ring
      · have grown : bits * (values.length + 1) = bits * values.length + bits := Nat.mul_succ ..
        rw [grown]
        omega
    · rw [if_neg full]
      have whole : low * 2 ^ used = value * 2 ^ used := by
        rw [← shifted, Nat.shiftLeft_eq, Nat.mod_eq_of_lt]
        have less : 2 ^ (used + bits) ≤ 2 ^ 64 := Nat.pow_le_pow_right (by norm_num) (by omega)
        omega
      rw [whole]
      obtain ⟨value_eq, length_eq⟩ := ih (by omega) bound rest
      rw [value_eq, length_eq, pow_add]
      constructor
      · ring
      · have grown : bits * (values.length + 1) = bits * values.length + bits := Nat.mul_succ ..
        rw [grown]
        congr 1
        omega

theorem number_pack (wide : bits ≤ 64) (fit : ∀ v ∈ values, v < 2 ^ bits) :
    number (pack values bits) = stream bits values := by
  have spec := (packFrom_spec wide (by norm_num : 0 < 64) (by norm_num : 0 < 2 ^ 0) fit).1
  rw [pack, spec]
  simp

theorem pack_length (wide : bits ≤ 64) (fit : ∀ v ∈ values, v < 2 ^ bits) :
    (pack values bits).length = (values.length * bits + 7) / 8 := by
  have spec := (packFrom_spec wide (by norm_num : 0 < 64) (by norm_num : 0 < 2 ^ 0) fit).2
  rw [pack, spec, Nat.zero_add, Nat.mul_comm]

theorem stream_field (fit : ∀ v ∈ values, v < 2 ^ bits) (above : Nat) (inside : i < values.length) :
    (stream bits values + 2 ^ (bits * values.length) * above) / 2 ^ (i * bits) % 2 ^ bits = values[i] := by
  induction values generalizing i with
  | nil => simp at inside
  | cons value values ih =>
    have own := fit value mem_cons_self
    have rest : ∀ v ∈ values, v < 2 ^ bits := (forall_mem_cons.mp fit).2
    have factored : stream bits (value :: values) + 2 ^ (bits * (value :: values).length) * above =
        value + 2 ^ bits * (stream bits values + 2 ^ (bits * values.length) * above) := by
      rw [stream, length_cons, Nat.mul_succ, pow_add]
      ring
    rw [factored]
    cases i with
    | zero =>
      rw [Nat.zero_mul, pow_zero, Nat.div_one, Nat.add_mul_mod_self_left, Nat.mod_eq_of_lt own]
      rfl
    | succ i =>
      have shifted : (value + 2 ^ bits * (stream bits values + 2 ^ (bits * values.length) * above)) / 2 ^ bits =
          stream bits values + 2 ^ (bits * values.length) * above := by
        rw [Nat.add_mul_div_left _ _ (by positivity), Nat.div_eq_of_lt own, Nat.zero_add]
      rw [Nat.succ_mul, Nat.add_comm (i * bits), pow_add, ← Nat.div_div_eq_div_mul, shifted]
      exact ih rest (by simpa using inside)

theorem field_pack (wide : bits ≤ 64) (fit : ∀ v ∈ values, v < 2 ^ bits) (rest : Bytes) (inside : i < values.length) :
    field (pack values bits ++ rest) (i * bits) bits = values[i] := by
  have covered : bits * values.length ≤ 8 * (pack values bits).length := by
    rw [pack_length wide fit, Nat.mul_comm]
    omega
  have power : 256 ^ (pack values bits).length * number rest =
      2 ^ (bits * values.length) * (2 ^ (8 * (pack values bits).length - bits * values.length) * number rest) := by
    rw [pow_bytes, ← Nat.mul_assoc, ← pow_add, Nat.add_sub_cancel' covered]
  rw [field, number_append, number_pack wide fit, power, stream_field fit _ inside]

end Pack

section Unpack

variable {bits : Nat} {bytes : Bytes}

theorem mod_div_mod (inside : r + bits ≤ a) : x % 2 ^ a / 2 ^ r % 2 ^ bits = x / 2 ^ r % 2 ^ bits := by
  have power : (2 : Nat) ^ a = 2 ^ r * 2 ^ (a - r) := by rw [← pow_add, Nat.add_sub_cancel' (by omega)]
  rw [power, Nat.mod_mul_right_div_self]
  exact Nat.mod_mod_of_dvd _ (pow_dvd_pow 2 (by omega))

theorem masked_eq (inside : bit % 8 + bits ≤ 8 * size) :
    masked (bytes.slice (bit / 8) size) (bit % 8) bits = field bytes bit bits := by
  have place : 2 ^ bit = 256 ^ (bit / 8) * 2 ^ (bit % 8) := by rw [pow_bytes, ← pow_add, Nat.div_add_mod]
  rw [masked, Bytes.slice, Nat.and_two_pow_sub_one_eq_mod, Nat.shiftRight_eq_div_pow, number_take, number_drop,
    pow_bytes size, mod_div_mod inside, Nat.div_div_eq_div_mul, ← place, field]

/-- The values of one width at the start of a byte string. -/
def fields (bytes : Bytes) (count bits : Nat) : List Nat := (List.range count).map fun i => field bytes (i * bits) bits

theorem mapM_eq_map {read : α → Option β} {items : List α} (each : ∀ a ∈ items, read a = some (f a)) :
    items.mapM read = some (items.map f) := by
  induction items with
  | nil => rfl
  | cons a items ih =>
    rw [mapM_cons, each a mem_cons_self, ih (forall_mem_cons.mp each).2]
    rfl

theorem refill_spec (held : buffer < 2 ^ used) (enough : bits ≤ used + 8 * bytes.length) :
    ∃ after next filled, refill bits bytes buffer used = some (after, next, filled) ∧
      next + 2 ^ filled * number after = buffer + 2 ^ used * number bytes ∧ next < 2 ^ filled ∧
      filled + 8 * after.length = used + 8 * bytes.length ∧ bits ≤ filled := by
  induction bytes generalizing buffer used with
  | nil =>
    have full : bits ≤ used := by simpa using enough
    exact ⟨[], buffer, used, by rw [refill, if_neg (Nat.not_lt.mpr full)], rfl, held, rfl, full⟩
  | cons b bytes ih =>
    rw [refill]
    by_cases more : used < bits
    · rw [if_pos more, Nat.shiftLeft_eq, lor_shifted held]
      have small := b.toNat_lt
      have bound : buffer + b.toNat * 2 ^ used < 2 ^ (used + 8) := by
        have top : (b.toNat + 1) * 2 ^ used ≤ 2 ^ 8 * 2 ^ used := Nat.mul_le_mul_right _ small
        rw [pow_add, Nat.mul_comm (2 ^ used)]
        rw [Nat.add_mul, Nat.one_mul] at top
        omega
      rw [length_cons] at enough
      obtain ⟨after, next, filled, ran, value, less, length, full⟩ := ih bound (by omega)
      refine ⟨after, next, filled, ran, ?_, less, ?_, full⟩
      · rw [value, number, pow_add]
        ring
      · rw [length, length_cons]
        omega
    · rw [if_neg more]
      exact ⟨_, _, _, rfl, rfl, held, rfl, by omega⟩

theorem readAll_eq (count : Nat) (held : buffer < 2 ^ used) (enough : count * bits ≤ used + 8 * bytes.length) :
    readAll bits count bytes buffer used =
      some ((List.range count).map fun i => (buffer + 2 ^ used * number bytes) / 2 ^ (i * bits) % 2 ^ bits) := by
  induction count generalizing bytes buffer used with
  | zero => rfl
  | succ count ih =>
    rw [Nat.succ_mul] at enough
    have first : bits ≤ used + 8 * bytes.length := by omega
    obtain ⟨after, next, filled, ran, value, less, length, wide⟩ := refill_spec held first
    have power : (2 : Nat) ^ filled = 2 ^ bits * 2 ^ (filled - bits) := by rw [← pow_add, Nat.add_sub_cancel' wide]
    have shifted : next >>> bits < 2 ^ (filled - bits) := by
      rw [Nat.shiftRight_eq_div_pow]
      exact Nat.div_lt_of_lt_mul (power ▸ less)
    rw [readAll, ran]
    simp only [Option.bind_eq_bind, Option.bind_some]
    rw [ih shifted (by omega), Option.bind_some, range_succ_eq_map, map_cons, map_map, ← value]
    congr 2
    · rw [Nat.and_two_pow_sub_one_eq_mod, Nat.zero_mul, pow_zero, Nat.div_one, power, Nat.mul_assoc,
        Nat.add_mul_mod_self_left]
    · apply map_congr_left
      intro i _
      have rest : (next + 2 ^ filled * number after) / 2 ^ bits = next >>> bits + 2 ^ (filled - bits) * number after := by
        rw [power, Nat.mul_assoc, Nat.add_mul_div_left _ _ (by positivity), Nat.shiftRight_eq_div_pow]
      rw [← rest, Nat.div_div_eq_div_mul, ← pow_add]
      simp only [Function.comp_apply, Nat.succ_mul, Nat.add_comm]

theorem fields_zero (bytes : Bytes) (count : Nat) : fields bytes count 0 = List.replicate count 0 := by
  simp only [fields, field, pow_zero, Nat.mod_one, map_const', length_range]

section

variable (enough : count * bits ≤ 8 * bytes.length)
include enough

/-- A value among `count` ends before the bytes do. -/
theorem inside_bits (inside : index < count) :
    index * bits + bits ≤ 8 * bytes.length := by
  have next : (index + 1) * bits ≤ count * bits := Nat.mul_le_mul_right _ inside
  rw [Nat.add_mul, Nat.one_mul] at next
  omega

theorem readAll_fields :
    readAll bits count bytes 0 0 = some (fields bytes count bits) := by
  rw [readAll_eq count (by norm_num) (by omega)]
  simp only [pow_zero, Nat.zero_add, Nat.one_mul, fields, field]

theorem unpackInto_eq :
    unpackInto bytes count bits = some (fields bytes count bits) := by
  unfold unpackInto
  by_cases none : bits = 0
  · rw [if_pos none, none, fields_zero]
  rw [if_neg none]
  by_cases wide : 56 < bits
  · rw [if_pos wide, readAll_fields enough]
  rw [if_neg wide]
  refine mapM_eq_map fun index member => ?_
  have within := inside_bits enough (mem_range.mp member)
  have window : (exactly bytes (index * bits / 8) 8).or (padded bytes (index * bits / 8)) =
      some (bytes.slice (index * bits / 8) 8) := by
    rw [exactly, padded, if_pos (show index * bits / 8 ≤ bytes.length by omega)]
    split <;> rfl
  rw [window, Option.map_some, masked_eq (by omega)]

end

theorem slice_slice (within : at_ + size ≤ total) : (Bytes.slice bytes start total).slice at_ size =
    bytes.slice (start + at_) size := by
  rw [Bytes.slice, Bytes.slice, drop_take, take_take, drop_drop, Bytes.slice, Nat.min_eq_left (by omega)]

theorem unpackVector_eq (fuel : Nat) (narrow : bits ≤ 25) (group : Nat) (start : 8 * group ≤ count) :
    ∃ n, 8 * group + n ≤ count ∧ unpackVector bytes count bits fuel (8 * group) =
      some ((List.range' (8 * group) n).map fun i => field bytes (i * bits) bits) := by
  induction fuel generalizing group with
  | zero => exact ⟨0, start, rfl⟩
  | succ fuel ih =>
    rw [unpackVector]
    by_cases loads : 8 * group + 8 ≤ count ∧ 8 * group * bits / 8 + bits / 2 + 16 ≤ bytes.length
    case neg => exact ⟨0, start, by rw [if_neg loads]; rfl⟩
    obtain ⟨n, below, rest⟩ := ih (group + 1) (by omega)
    refine ⟨8 + n, by omega, ?_⟩
    rw [if_pos loads, exactly, exactly, if_pos (by omega), if_pos (by omega), show 8 * group + 8 = 8 * (group + 1) by ring,
      rest, ← range'_append_1, map_append]
    refine congrArg some (congrArg₂ _ ?_ rfl)
    rw [range'_eq_map_range, map_map]
    refine map_congr_left fun lane member => ?_
    have early := mem_range.mp member
    have place : (8 * group + lane) * bits = 8 * (group * bits) + lane * bits := by ring
    have aligned : 8 * group * bits / 8 = group * bits := by
      rw [Nat.mul_assoc, Nat.mul_div_cancel_left _ (by norm_num)]
    have lanes : lane / 4 * (bits / 2) ≤ lane * bits / 8 ∧ lane * bits / 8 - lane / 4 * (bits / 2) + 4 ≤ 16 := by
      interval_cases lane <;> omega
    have block : (if lane < 4 then bytes.slice (8 * group * bits / 8) 16
        else bytes.slice (8 * group * bits / 8 + bits / 2) 16) =
        bytes.slice (8 * group * bits / 8 + lane / 4 * (bits / 2)) 16 := by
      by_cases low : lane < 4
      · rw [if_pos low, Nat.div_eq_of_lt low, Nat.zero_mul, Nat.add_zero]
      · rw [if_neg low, show lane / 4 = 1 by omega, Nat.one_mul]
    have start : 8 * group * bits / 8 + lane / 4 * (bits / 2) + (lane * bits / 8 - lane / 4 * (bits / 2)) =
        (8 * group + lane) * bits / 8 := by
      rw [aligned, place]
      omega
    have shift : lane * bits % 8 = (8 * group + lane) * bits % 8 := by
      rw [place]
      omega
    rw [block, slice_slice lanes.2, start, shift]
    exact masked_eq (by omega)

theorem decoded_eq (vector : Bool) (bytes : Bytes) (count bits : Nat) : ∃ n ≤ count,
    decoded vector bytes count bits = some ((List.range' 0 n).map fun i => field bytes (i * bits) bits) := by
  unfold decoded
  split
  next used =>
    obtain ⟨n, below, ran⟩ := unpackVector_eq count used.2.1 0 (Nat.zero_le count)
    exact ⟨n, by omega, ran⟩
  next => exact ⟨0, Nat.zero_le _, rfl⟩

theorem unpackFixed_eq (vector : Bool) (positive : 0 < bits) (narrow : bits ≤ 32)
    (enough : count * bits ≤ 8 * bytes.length) : unpackFixed vector bytes count bits = some (fields bytes count bits) := by
  obtain ⟨n, below, ran⟩ := decoded_eq vector bytes count bits
  rw [unpackFixed, ran, Option.bind_eq_bind, Option.bind_some]
  refine mapM_eq_map fun index member => ?_
  have within := inside_bits enough (mem_range.mp member)
  generalize reach : (if 8 ≤ bytes.length then min (((bytes.length - 8) * 8 + 7) / bits + 1) count else 0) = whole
  by_cases late : whole ≤ index
  · rw [if_pos late, padded, if_pos (by omega), Option.map_some, masked_eq (by omega)]
  rw [if_neg late]
  by_cases behind : n ≤ index
  · -- The last whole window begins at the last byte that leaves room for eight.
    have room : index * bits / 8 + 8 ≤ bytes.length := by
      split at reach
      next long =>
        have least : index * bits ≤ (bytes.length - 8) * 8 + 7 := (Nat.le_div_iff_mul_le positive).mp (by omega)
        omega
      next => omega
    rw [if_pos (by simpa using behind), exactly, if_pos room, Option.map_some, masked_eq (by omega)]
  · rw [if_neg (by simpa using behind), getElem?_map, getElem?_range' (by omega), Option.map_some]
    simp

theorem unpackValues_eq (vector : Bool) (few : count ≤ BLOCK_LEN) (enough : count * bits ≤ 8 * bytes.length) :
    unpackValues vector bytes count bits = some (fields bytes count bits) := by
  rw [unpackValues, if_neg (Nat.not_lt.mpr few)]
  by_cases none : bits = 0
  · rw [if_pos none, none, fields_zero]
  rw [if_neg none]
  by_cases narrow : bits ≤ 32
  · rw [if_pos narrow, unpackFixed_eq vector (Nat.pos_of_ne_zero none) narrow enough]
  · rw [if_neg narrow, unpackInto_eq enough]

theorem unpack_eq (enough : count * bits ≤ 8 * bytes.length) (inside : index < count) :
    unpack bytes index bits = some (field bytes (index * bits) bits) := by
  have within := inside_bits enough inside
  unfold unpack
  by_cases none : bits = 0
  · rw [if_pos none, none]
    simp [field, Nat.mod_one]
  rw [if_neg none]
  dsimp only
  by_cases direct : bits ≤ 56 ∧ index * bits / 8 + 8 ≤ bytes.length
  · rw [if_pos direct.1, exactly, if_pos direct.2, Option.some_or, Option.map_some, masked_eq (by omega)]
  · have covered : (if bits ≤ 56 then exactly bytes (index * bits / 8) 8 else Option.none) = Option.none := by
      split
      next small => rw [exactly, if_neg fun room => direct ⟨small, room⟩]
      next => rfl
    rw [covered, Option.none_or, exactly, if_pos (by omega), Option.map_some, masked_eq (by omega)]

theorem fields_pack (wide : bits ≤ 64) (fit : ∀ v ∈ values, v < 2 ^ bits) (rest : Bytes) :
    fields (pack values bits ++ rest) values.length bits = values := by
  apply ext_getElem
  · simp [fields]
  · intro i _ inside
    simp only [fields, getElem_map, getElem_range]
    exact field_pack wide fit rest inside

/-- Every reader returns what was packed, whatever follows it, with no read outside the bytes. -/
theorem unpack_pack (wide : bits ≤ 64) (few : values.length ≤ BLOCK_LEN) (fit : ∀ v ∈ values, v < 2 ^ bits)
    (rest : Bytes) :
    (∀ vector, unpackValues vector (pack values bits ++ rest) values.length bits = some values) ∧
      unpackInto (pack values bits ++ rest) values.length bits = some values ∧
      readAll bits values.length (pack values bits ++ rest) 0 0 = some values ∧
      ∀ index (inside : index < values.length), unpack (pack values bits ++ rest) index bits = some values[index] := by
  have enough : values.length * bits ≤ 8 * (pack values bits ++ rest).length := by
    rw [length_append, pack_length wide fit]
    omega
  have same := fields_pack wide fit rest
  refine ⟨fun vector => ?_, ?_, ?_, fun index inside => ?_⟩
  · rw [unpackValues_eq vector few enough, same]
  · rw [unpackInto_eq enough, same]
  · rw [readAll_fields enough, same]
  · rw [unpack_eq enough inside, field_pack wide fit rest inside]

/-- Three values of three bits, with a byte behind them. -/
theorem unpack_pack_three :
    (∀ vector, unpackValues vector (pack [5, 0, 7] 3 ++ [255]) 3 3 = some [5, 0, 7]) ∧
      unpackInto (pack [5, 0, 7] 3 ++ [255]) 3 3 = some [5, 0, 7] ∧
      readAll 3 3 (pack [5, 0, 7] 3 ++ [255]) 0 0 = some [5, 0, 7] ∧
      ∀ index (inside : index < 3), unpack (pack [5, 0, 7] 3 ++ [255]) index 3 = some [5, 0, 7][index] :=
  unpack_pack (by norm_num) (by decide) (by decide) [255]

end Unpack

end Warm.BitPacking
