import Warm.Ascending
import Warm.Document
import Mathlib.Data.List.Nodup

/-! Binding of sparse hypervectors: the symmetric difference of their active indices, shifts of the
indices modulo the dimension, and the ordered binding made of the two. Arithmetic is the release
build's: `u32` additions wrap. -/
namespace Warm

open List

/-- `u32`'s order, as the sorts and the merge use it. -/
instance instLinearOrderUInt32 : LinearOrder UInt32 where
  le_refl := UInt32.le_refl
  le_trans _ _ _ := UInt32.le_trans
  le_antisymm _ _ := UInt32.le_antisymm
  le_total := UInt32.le_total
  lt_iff_le_not_ge a b := by rw [UInt32.lt_iff_toNat_lt, UInt32.le_iff_toNat_le, UInt32.le_iff_toNat_le]; omega
  toDecidableLE := inferInstance

namespace VectorRecord

def bind (self other : VectorRecord) : VectorRecord :=
  ⟨self.dim, Ascending.symmetricDifference self.indices other.indices⟩

/-- `none` where the remainder by the dimension's low 32 bits panics. -/
def permute (self : VectorRecord) (shifts : UInt64) : Option VectorRecord :=
  if self.dim = 0 then some self
  else
    let dim := self.dim.toUInt32
    let shift := (shifts % self.dim).toUInt32
    (self.indices.mapM fun idx => if dim = 0 then none else some ((idx + shift) % dim)).map fun indices =>
      ⟨self.dim, indices.mergeSort fun x y => decide (x ≤ y)⟩

def bindOrdered (self other : VectorRecord) : Option VectorRecord :=
  (self.permute 1).map fun permuted => permuted.bind other

def unbindOrderedLeft (self other : VectorRecord) : Option VectorRecord :=
  (self.bind other).permute (self.dim - 1)

/-- A vector of dimension `n`: strictly ascending indices below it. -/
structure InSpace (n : UInt64) (vector : VectorRecord) : Prop where
  dim : vector.dim = n
  ascending : vector.indices.Pairwise (· < ·)
  bounded : ∀ i ∈ vector.indices, i.toNat < n.toNat

/-- The laws of binding on the vectors of dimension `n`. -/
structure BindingAlgebra (n : UInt64) : Prop where
  bind_closed : ∀ a b, InSpace n a → InSpace n b → InSpace n (a.bind b)
  bind_assoc : ∀ a b c, InSpace n a → InSpace n b → InSpace n c → (a.bind b).bind c = a.bind (b.bind c)
  bind_comm : ∀ a b, InSpace n a → InSpace n b → a.bind b = b.bind a
  bind_empty : ∀ a, InSpace n a → a.bind ⟨n, []⟩ = a ∧ bind ⟨n, []⟩ a = a
  bind_self : ∀ a, InSpace n a → a.bind a = ⟨n, []⟩
  permute_closed : ∀ a shifts, InSpace n a → ∃ permuted, a.permute shifts = some permuted ∧ InSpace n permuted
  permute_permute : ∀ a first second, InSpace n a →
    (a.permute first).bind (·.permute second) = a.permute (.ofNat ((first.toNat + second.toNat) % n.toNat))
  permute_inverse : ∀ a shifts, InSpace n a →
    (a.permute shifts).bind (·.permute (.ofNat (n.toNat - shifts.toNat % n.toNat))) = some a
  bindOrdered_closed : ∀ a b, InSpace n a → InSpace n b → ∃ bound, a.bindOrdered b = some bound ∧ InSpace n bound
  unbindOrderedLeft_closed : ∀ a b, InSpace n a → InSpace n b →
    ∃ unbound, a.unbindOrderedLeft b = some unbound ∧ InSpace n unbound
  unbind_left : ∀ a b, InSpace n a → InSpace n b → (a.bindOrdered b).bind (·.unbindOrderedLeft b) = some a
  unbind_right : ∀ a b, InSpace n a → InSpace n b →
    (a.bindOrdered b).bind (fun bound => (a.permute 1).map bound.bind) = some b

theorem InSpace.ext (left : InSpace n a) (right : InSpace n b) (same : ∀ i, i ∈ a.indices ↔ i ∈ b.indices) : a = b := by
  obtain ⟨dim, indices⟩ := a
  obtain ⟨dim', indices'⟩ := b
  obtain rfl : dim = n := left.dim
  obtain rfl : dim' = dim := right.dim
  obtain rfl := Ascending.ext left.ascending right.ascending same
  rfl

theorem inSpace_empty (n : UInt64) : InSpace n ⟨n, []⟩ := ⟨rfl, .nil, forall_mem_nil _⟩

section
variable {n : UInt64} {a b c : VectorRecord}

/-! ### The symmetric difference -/

theorem mem_bind (left : InSpace n a) (right : InSpace n b) (i : UInt32) :
    i ∈ (a.bind b).indices ↔ ¬(i ∈ a.indices ↔ i ∈ b.indices) :=
  Ascending.mem_symmetricDifference left.ascending right.ascending i

theorem InSpace.bind (left : InSpace n a) (right : InSpace n b) : InSpace n (a.bind b) where
  dim := left.dim
  ascending := Ascending.symmetricDifference_ascending left.ascending right.ascending
  bounded i member := by
    have either := (mem_bind left right i).mp member
    by_cases inside : i ∈ a.indices
    · exact left.bounded i inside
    · exact right.bounded i (by tauto)

theorem bind_assoc (first : InSpace n a) (second : InSpace n b) (third : InSpace n c) :
    (a.bind b).bind c = a.bind (b.bind c) := by
  refine ((first.bind second).bind third).ext (first.bind (second.bind third)) fun i => ?_
  rw [mem_bind (first.bind second) third, mem_bind first (second.bind third), mem_bind first second,
    mem_bind second third]
  tauto

theorem bind_comm (left : InSpace n a) (right : InSpace n b) : a.bind b = b.bind a := by
  refine (left.bind right).ext (right.bind left) fun i => ?_
  rw [mem_bind left right, mem_bind right left]
  tauto

theorem bind_empty (own : InSpace n a) : a.bind ⟨n, []⟩ = a := by
  refine (own.bind (inSpace_empty n)).ext own fun i => ?_
  rw [mem_bind own (inSpace_empty n), iff_false_right not_mem_nil, not_not]

theorem bind_self (own : InSpace n a) : a.bind a = ⟨n, []⟩ := by
  refine (own.bind own).ext (inSpace_empty n) fun i => ?_
  rw [mem_bind own own, iff_false_right not_mem_nil, not_not]

theorem bind_cancel (left : InSpace n a) (right : InSpace n b) : (a.bind b).bind b = a := by
  rw [bind_assoc left right right, bind_self right, bind_empty left]

/-! ### Shifts -/

theorem toNat_pos (nonzero : n ≠ 0) : 0 < n.toNat := by
  by_contra zero
  exact nonzero (UInt64.toNat_inj.mp (by simpa using zero))

theorem permute_zero_dim (own : InSpace 0 a) (shifts : UInt64) : a.permute shifts = some a := by
  rw [permute, if_pos own.dim]

section

variable (small : n.toNat ≤ 2 ^ 31)
include small

theorem toNat_shift (i : UInt32) (inside : i.toNat < n.toNat) (shifts : UInt64) :
    ((i + (shifts % n).toUInt32) % n.toUInt32).toNat = (i.toNat + shifts.toNat) % n.toNat := by
  have below : shifts.toNat % n.toNat < n.toNat := Nat.mod_lt _ (by omega)
  have dim : n.toUInt32.toNat = n.toNat := by
    rw [UInt64.toNat_toUInt32, Nat.mod_eq_of_lt (by omega)]
  have shift : (shifts % n).toUInt32.toNat = shifts.toNat % n.toNat := by
    rw [UInt64.toNat_toUInt32, UInt64.toNat_mod, Nat.mod_eq_of_lt (by omega)]
  rw [UInt32.toNat_mod, UInt32.toNat_add, dim, shift,
    Nat.mod_eq_of_lt (show i.toNat + shifts.toNat % n.toNat < 2 ^ 32 by omega), Nat.add_mod_mod]

theorem permute_spec (own : InSpace n a) (shifts : UInt64) :
    ∃ permuted, a.permute shifts = some permuted ∧ InSpace n permuted ∧
      ∀ j, j ∈ permuted.indices ↔ ∃ i ∈ a.indices, j.toNat = (i.toNat + shifts.toNat) % n.toNat := by
  by_cases empty : n = 0
  · subst empty
    refine ⟨a, permute_zero_dim own shifts, own, fun j => ?_⟩
    have none (i : UInt32) : i ∉ a.indices := fun member => absurd (own.bounded i member) (Nat.not_lt_zero _)
    exact ⟨fun member => absurd member (none j), fun ⟨i, member, _⟩ => absurd member (none i)⟩
  have positive := toNat_pos empty
  have nonzero : n.toUInt32 ≠ 0 := by
    intro zero
    have low := congrArg UInt32.toNat zero
    rw [UInt64.toNat_toUInt32, Nat.mod_eq_of_lt (by omega)] at low
    exact absurd low (by simp; omega)
  let moved := a.indices.map fun i => (i + (shifts % n).toUInt32) % n.toUInt32
  have computed : a.permute shifts = some ⟨n, moved.mergeSort fun x y => decide (x ≤ y)⟩ := by
    rw [permute, own.dim, if_neg empty]
    simp only [if_neg nonzero]
    have all : a.indices.mapM (fun i => (pure ((i + (shifts % n).toUInt32) % n.toUInt32) : Option UInt32)) = some moved :=
      mapM_pure
    exact congrArg _ all
  have distinct : moved.Nodup := by
    refine List.Nodup.map_on (fun i first j second same => ?_) (own.ascending.imp fun less => ne_of_lt less)
    have same := congrArg UInt32.toNat same
    have first := own.bounded i first
    have second := own.bounded j second
    rw [toNat_shift small i first, toNat_shift small j second] at same
    have equal : i.toNat % n.toNat = j.toNat % n.toNat := Nat.ModEq.add_right_cancel' shifts.toNat same
    rw [Nat.mod_eq_of_lt first, Nat.mod_eq_of_lt second] at equal
    exact UInt32.toNat_inj.mp equal
  have members (j : UInt32) : j ∈ moved.mergeSort (fun x y => decide (x ≤ y)) ↔
      ∃ i ∈ a.indices, j.toNat = (i.toNat + shifts.toNat) % n.toNat := by
    rw [mem_mergeSort, mem_map]
    refine exists_congr fun i => and_congr_right fun member => ?_
    rw [← toNat_shift small i (own.bounded i member), UInt32.toNat_inj, eq_comm]
  refine ⟨_, computed, ⟨rfl, Ascending.sort_ascending distinct, fun j member => ?_⟩, members⟩
  obtain ⟨i, _, place⟩ := (members j).mp member
  rw [place]
  exact Nat.mod_lt _ positive

theorem permute_permute (own : InSpace n a) (first second : UInt64) :
    (a.permute first).bind (·.permute second) = a.permute (.ofNat ((first.toNat + second.toNat) % n.toNat)) := by
  by_cases empty : n = 0
  · subst empty
    rw [permute_zero_dim own, permute_zero_dim own, Option.bind_some, permute_zero_dim own]
  obtain ⟨once, moved, inside, members⟩ := permute_spec small own first
  obtain ⟨twice, moved', inside', members'⟩ := permute_spec small inside second
  obtain ⟨whole, moved'', inside'', members''⟩ :=
    permute_spec small own (.ofNat ((first.toNat + second.toNat) % n.toNat))
  rw [moved, Option.bind_some, moved', moved'']
  refine congrArg some (inside'.ext inside'' fun j => ?_)
  have total : (UInt64.ofNat ((first.toNat + second.toNat) % n.toNat)).toNat =
      (first.toNat + second.toNat) % n.toNat :=
    UInt64.toNat_ofNat_of_lt' ((Nat.mod_lt _ (toNat_pos empty)).trans n.toNat_lt)
  rw [members', members'', total]
  constructor
  · rintro ⟨middle, member, place⟩
    obtain ⟨i, own, before⟩ := (members middle).mp member
    refine ⟨i, own, ?_⟩
    rw [place, before, Nat.mod_add_mod, Nat.add_mod_mod, Nat.add_assoc]
  · rintro ⟨i, own', place⟩
    have bound : (i.toNat + first.toNat) % n.toNat < 2 ^ 32 := by
      have := Nat.mod_lt (i.toNat + first.toNat) (Nat.zero_lt_of_lt (own.bounded i own'))
      omega
    have same : (UInt32.ofNat ((i.toNat + first.toNat) % n.toNat)).toNat = (i.toNat + first.toNat) % n.toNat :=
      UInt32.toNat_ofNat_of_lt' bound
    refine ⟨.ofNat ((i.toNat + first.toNat) % n.toNat), (members _).mpr ⟨i, own', same⟩, ?_⟩
    rw [same, place, Nat.mod_add_mod, Nat.add_mod_mod, Nat.add_assoc]

theorem permute_multiple (own : InSpace n a) (shifts : UInt64)
    (multiple : shifts.toNat % n.toNat = 0) : a.permute shifts = some a := by
  obtain ⟨permuted, moved, inside, members⟩ := permute_spec small own shifts
  rw [moved]
  refine congrArg some (inside.ext own fun j => ?_)
  have still (i : UInt32) (member : i ∈ a.indices) : (i.toNat + shifts.toNat) % n.toNat = i.toNat := by
    rw [Nat.add_mod, multiple, Nat.add_zero, Nat.mod_mod, Nat.mod_eq_of_lt (own.bounded i member)]
  rw [members]
  constructor
  · rintro ⟨i, member, place⟩
    rw [still i member] at place
    exact UInt32.toNat_inj.mp place ▸ member
  · exact fun member => ⟨j, member, (still j member).symm⟩

theorem permute_undo (own : InSpace n a) (first second : UInt64)
    (multiple : (first.toNat + second.toNat) % n.toNat = 0) :
    (a.permute first).bind (·.permute second) = some a := by
  rw [permute_permute small own, multiple]
  exact permute_multiple small own _ (Nat.zero_mod _)

end

/-! ### The laws -/

theorem inverse_shift (nonzero : n ≠ 0) (shifts : UInt64) :
    (shifts.toNat + (UInt64.ofNat (n.toNat - shifts.toNat % n.toNat)).toNat) % n.toNat = 0 := by
  have positive := toNat_pos nonzero
  have below := Nat.mod_lt shifts.toNat positive
  have parts := Nat.div_add_mod shifts.toNat n.toNat
  have whole : shifts.toNat + (n.toNat - shifts.toNat % n.toNat) = n.toNat * (shifts.toNat / n.toNat + 1) := by
    rw [Nat.mul_succ]
    omega
  rw [UInt64.toNat_ofNat_of_lt' (Nat.lt_of_le_of_lt (Nat.sub_le _ _) n.toNat_lt), whole, Nat.mul_mod_right]

section

variable (small : n.toNat ≤ 2 ^ 31) (left : InSpace n a)
include small left

theorem bindOrdered_spec (b : VectorRecord) :
    ∃ permuted, a.permute 1 = some permuted ∧ InSpace n permuted ∧ a.bindOrdered b = some (permuted.bind b) := by
  obtain ⟨permuted, moved, inside, _⟩ := permute_spec small left 1
  refine ⟨permuted, moved, inside, ?_⟩
  rw [bindOrdered, moved, Option.map_some]

theorem unbindOrderedLeft_bindOrdered (right : InSpace n b) :
    (a.bindOrdered b).bind (·.unbindOrderedLeft b) = some a := by
  obtain ⟨permuted, moved, inside, bound⟩ := bindOrdered_spec small left _
  rw [bound, Option.bind_some, unbindOrderedLeft, bind_cancel inside right, (inside.bind right).dim]
  by_cases empty : n = 0
  · subst empty
    rw [permute_zero_dim inside, ← moved, permute_zero_dim left]
  have undone := permute_undo small left 1 (n - 1) (by
    have positive : 1 ≤ n.toNat := toNat_pos empty
    have one : (1 : UInt64) ≤ n := UInt64.le_iff_toNat_le.mpr positive
    rw [UInt64.toNat_sub_of_le _ _ one, UInt64.toNat_one, Nat.add_sub_cancel' positive, Nat.mod_self])
  rw [moved, Option.bind_some] at undone
  exact undone

theorem bind_permute_bindOrdered (right : InSpace n b) :
    (a.bindOrdered b).bind (fun bound => (a.permute 1).map bound.bind) = some b := by
  obtain ⟨permuted, moved, inside, bound⟩ := bindOrdered_spec small left _
  rw [bound, Option.bind_some, moved, Option.map_some, bind_comm inside right, bind_cancel right inside]

end

theorem bindingAlgebra_of_small (small : n.toNat ≤ 2 ^ 31) : BindingAlgebra n where
  bind_closed _ _ left right := left.bind right
  bind_assoc _ _ _ first second third := bind_assoc first second third
  bind_comm _ _ left right := bind_comm left right
  bind_empty _ own := ⟨bind_empty own, by rw [bind_comm (inSpace_empty n) own, bind_empty own]⟩
  bind_self _ own := bind_self own
  permute_closed _ shifts own := by
    obtain ⟨permuted, moved, inside, _⟩ := permute_spec small own shifts
    exact ⟨permuted, moved, inside⟩
  permute_permute _ first second own := permute_permute small own first second
  permute_inverse _ shifts own := by
    by_cases empty : n = 0
    · subst empty
      rw [permute_zero_dim own, Option.bind_some, permute_zero_dim own]
    · exact permute_undo small own _ _ (inverse_shift empty shifts)
  bindOrdered_closed _ _ left right := by
    obtain ⟨permuted, _, inside, bound⟩ := bindOrdered_spec small left _
    exact ⟨_, bound, inside.bind right⟩
  unbindOrderedLeft_closed _ _ left right := by
    obtain ⟨permuted, moved, inside, _⟩ := permute_spec small (left.bind right) (n - 1)
    exact ⟨permuted, by rw [unbindOrderedLeft, left.dim, moved], inside⟩
  unbind_left _ _ left right := unbindOrderedLeft_bindOrdered small left right
  unbind_right _ _ left right := bind_permute_bindOrdered small left right

/-! ### Larger dimensions -/

theorem permute_singleton (nonzero : n ≠ 0) (i : UInt32) (shifts : UInt64) :
    permute ⟨n, [i]⟩ shifts =
      if n.toUInt32 = 0 then none else some ⟨n, [(i + (shifts % n).toUInt32) % n.toUInt32]⟩ := by
  rw [permute, if_neg nonzero]
  dsimp only
  split
  · rfl
  · exact congrArg (fun indices => some (⟨n, indices⟩ : VectorRecord)) (mergeSort_singleton _)

theorem inSpace_singleton (inside : i.toNat < n.toNat) : InSpace n ⟨n, [i]⟩ where
  dim := rfl
  ascending := pairwise_singleton _ _
  bounded j member := by rw [mem_singleton.mp member]; exact inside

theorem not_permute_inverse (large : 2 ^ 31 < n.toNat) (fits : n.toNat < 2 ^ 32) :
    (permute ⟨n, [.ofNat (n.toNat - 1)]⟩ (.ofNat (n.toNat - 1))).bind
        (·.permute (.ofNat (n.toNat - (UInt64.ofNat (n.toNat - 1)).toNat % n.toNat))) ≠
      some ⟨n, [.ofNat (n.toNat - 1)]⟩ := by
  have nonzero : n ≠ 0 := by
    rintro rfl
    exact absurd large (by decide)
  have dim : n.toUInt32.toNat = n.toNat := by
    rw [UInt64.toNat_toUInt32, Nat.mod_eq_of_lt fits]
  have nonzero' : n.toUInt32 ≠ 0 := by
    intro zero
    rw [zero, UInt32.toNat_zero] at dim
    omega
  have top : (UInt64.ofNat (n.toNat - 1)).toNat = n.toNat - 1 :=
    UInt64.toNat_ofNat_of_lt' (Nat.lt_of_le_of_lt (Nat.sub_le _ _) n.toNat_lt)
  have top' : (UInt32.ofNat (n.toNat - 1)).toNat = n.toNat - 1 :=
    UInt32.toNat_ofNat_of_lt' (show n.toNat - 1 < 2 ^ 32 by omega)
  have one : (UInt64.ofNat 1).toNat = 1 := rfl
  have back : n.toNat - (n.toNat - 1) % n.toNat = 1 := by
    rw [Nat.mod_eq_of_lt (by omega)]
    omega
  have small (shifts : UInt64) (below : shifts.toNat < n.toNat) : (shifts % n).toUInt32.toNat = shifts.toNat := by
    rw [UInt64.toNat_toUInt32, UInt64.toNat_mod, Nat.mod_eq_of_lt below, Nat.mod_eq_of_lt (below.trans fits)]
  rw [top, back, permute_singleton nonzero, if_neg nonzero', Option.bind_some, permute_singleton nonzero, if_neg nonzero']
  intro same
  have same := congrArg UInt32.toNat (List.cons.inj (congrArg indices (Option.some.inj same))).1
  have once : ((UInt32.ofNat (n.toNat - 1) + (UInt64.ofNat (n.toNat - 1) % n).toUInt32) % n.toUInt32).toNat =
      2 * (n.toNat - 1) - 2 ^ 32 := by
    rw [UInt32.toNat_mod, UInt32.toNat_add, dim, small _ (by rw [top]; omega), top, top',
      show n.toNat - 1 + (n.toNat - 1) = 2 * (n.toNat - 1) - 2 ^ 32 + 2 ^ 32 by omega, Nat.add_mod_right,
      Nat.mod_eq_of_lt (by omega), Nat.mod_eq_of_lt (by omega)]
  rw [UInt32.toNat_mod, UInt32.toNat_add, once, dim, small _ (by rw [one]; omega), top',
    one, Nat.mod_eq_of_lt (by omega), Nat.mod_eq_of_lt (by omega)] at same
  omega

theorem not_permute_zero (large : 2 ^ 32 ≤ n.toNat) :
    (permute ⟨n, [.ofNat (2 ^ 32 - 1)]⟩ 0).bind (·.permute (.ofNat (n.toNat - (0 : UInt64).toNat % n.toNat))) ≠
      some ⟨n, [.ofNat (2 ^ 32 - 1)]⟩ := by
  have nonzero : n ≠ 0 := by
    rintro rfl
    exact absurd large (by decide)
  rw [permute_singleton nonzero]
  split
  · simp
  next low =>
    rw [Option.bind_some, permute_singleton nonzero, if_neg low]
    intro same
    have same := congrArg UInt32.toNat (List.cons.inj (congrArg indices (Option.some.inj same))).1
    have positive : 0 < n.toUInt32.toNat := by
      by_contra zero
      exact low (UInt32.toNat_inj.mp (by simpa using zero))
    have top : (UInt32.ofNat (2 ^ 32 - 1)).toNat = 2 ^ 32 - 1 := rfl
    have below := Nat.mod_lt ((((.ofNat (2 ^ 32 - 1) : UInt32) + (0 % n).toUInt32) % n.toUInt32 +
      (UInt64.ofNat (n.toNat - (0 : UInt64).toNat % n.toNat) % n).toUInt32).toNat) positive
    have bound := n.toUInt32.toNat_lt
    rw [UInt32.toNat_mod, top] at same
    omega

/-- Binding has its laws in exactly the dimensions whose indices' sums fit 32 bits. -/
theorem bindingAlgebra_iff (n : UInt64) : BindingAlgebra n ↔ n.toNat ≤ 2 ^ 31 := by
  refine ⟨fun algebra => ?_, bindingAlgebra_of_small⟩
  by_contra large
  rcases Nat.lt_or_ge n.toNat (2 ^ 32) with fits | wide
  · exact not_permute_inverse (by omega) fits (algebra.permute_inverse _ _ (inSpace_singleton (by
      rw [UInt32.toNat_ofNat_of_lt' (show n.toNat - 1 < 2 ^ 32 by omega)]
      omega)))
  · exact not_permute_zero wide (algebra.permute_inverse _ _ (inSpace_singleton (by
      rw [UInt32.toNat_ofNat_of_lt' (show 2 ^ 32 - 1 < 2 ^ 32 by omega)]
      omega)))

end

/-- In 2^31 + 1 dimensions the last index, shifted by itself and then by one, comes to lie at 1. -/
theorem permute_wraps :
    InSpace 2147483649 ⟨2147483649, [2147483648]⟩ ∧
      permute ⟨2147483649, [2147483648]⟩ 2147483648 = some ⟨2147483649, [0]⟩ ∧
      permute ⟨2147483649, [0]⟩ 1 = some ⟨2147483649, [1]⟩ ∧ ¬BindingAlgebra 2147483649 := by
  have wrapped : permute ⟨2147483649, [2147483648]⟩ 2147483648 = some ⟨2147483649, [0]⟩ := by
    rw [permute_singleton (by decide), if_neg (by decide)]
    rfl
  have shifted : permute ⟨2147483649, [0]⟩ 1 = some ⟨2147483649, [1]⟩ := by
    rw [permute_singleton (by decide), if_neg (by decide)]
    rfl
  refine ⟨inSpace_singleton (by decide), wrapped, shifted, fun algebra => ?_⟩
  have undone := algebra.permute_inverse ⟨2147483649, [2147483648]⟩ 2147483648 (inSpace_singleton (by decide))
  rw [wrapped, Option.bind_some] at undone
  exact absurd (shifted.symm.trans undone) (by decide)

end VectorRecord
end Warm
