import Mathlib.Data.List.Basic
import Mathlib.Data.List.Induction
import Mathlib.Data.Nat.Bitwise
import Mathlib.Data.Nat.Log
import Mathlib.Tactic.Linarith

/-! Merkle trees over a list of leaf digests, split at the largest power of two below their number:
roots, inclusion proofs from the leaf up, and the same tree built level by level. -/
namespace Warm.MerkleTree

open List

/-- The largest power of two below `n`, for `n` at least 2. -/
def split (n : Nat) : Nat := 2 ^ Nat.log2 (n - 1)

theorem split_pos (n : Nat) : 0 < split n := Nat.two_pow_pos _

theorem split_lt (several : 2 ≤ n) : split n < n := by
  have le := Nat.log2_self_le (n := n - 1) (by omega)
  unfold split
  omega

theorem le_two_split (n : Nat) : n ≤ 2 * split n := by
  have lt := Nat.lt_log2_self (n := n - 1)
  rw [Nat.pow_succ] at lt
  unfold split
  omega

@[simp] theorem split_two : split 2 = 1 := rfl

theorem split_half (several : 3 ≤ n) : split n = 2 * split ((n + 1) / 2) := by
  unfold split
  rw [Nat.log2_def, if_pos (by omega), Nat.pow_succ, show (n + 1) / 2 - 1 = (n - 1) / 2 by omega, Nat.mul_comm]

section
variable {D : Type} [Inhabited D] (node : D → D → D)

/-- The root over leaf digests. -/
def root (leaves : List D) : D :=
  if _several : 2 ≤ leaves.length then
    node (root (leaves.take (split leaves.length))) (root (leaves.drop (split leaves.length)))
  else leaves.headD default
termination_by leaves.length
decreasing_by
  · have lt := split_lt _several
    simp [length_take]
    omega
  · have pos := split_pos leaves.length
    simp [length_drop]
    omega

/-- The siblings of a leaf on the way up, each flagged when it sits to the left. -/
def path (leaves : List D) (index : Nat) : List (Bool × D) :=
  if _several : 2 ≤ leaves.length then
    if index < split leaves.length then
      path (leaves.take (split leaves.length)) index ++ [(false, root node (leaves.drop (split leaves.length)))]
    else
      path (leaves.drop (split leaves.length)) (index - split leaves.length) ++
        [(true, root node (leaves.take (split leaves.length)))]
  else []
termination_by leaves.length
decreasing_by
  · have lt := split_lt _several
    simp [length_take]
    omega
  · have pos := split_pos leaves.length
    simp [length_drop]
    omega

/-- The node above a node and its sibling. -/
def join (digest : D) (sibling : Bool × D) : D × D :=
  if sibling.1 then (sibling.2, digest) else (digest, sibling.2)

/-- What a digest and the siblings on its way up hash to. -/
def climb (digest : D) (siblings : List (Bool × D)) : D :=
  siblings.foldl (fun digest sibling => node (join digest sibling).1 (join digest sibling).2) digest

/-- The pairs hashed while the root is computed. -/
def rootInputs (leaves : List D) : List (D × D) :=
  if _several : 2 ≤ leaves.length then
    (root node (leaves.take (split leaves.length)), root node (leaves.drop (split leaves.length))) ::
      (rootInputs (leaves.take (split leaves.length)) ++ rootInputs (leaves.drop (split leaves.length)))
  else []
termination_by leaves.length
decreasing_by
  · have lt := split_lt _several
    simp [length_take]
    omega
  · have pos := split_pos leaves.length
    simp [length_drop]
    omega

/-- The pairs hashed on the way up. -/
def climbInputs (digest : D) : List (Bool × D) → List (D × D)
  | [] => []
  | sibling :: rest =>
    join digest sibling :: climbInputs (node (join digest sibling).1 (join digest sibling).2) rest

/-- One level up: adjacent nodes are joined, an odd last node is carried. -/
def pairUp : List D → List D
  | left :: right :: rest => node left right :: pairUp rest
  | [last] => [last]
  | [] => []

/-! ### One split -/

variable {node}

theorem root_split (several : 2 ≤ leaves.length) :
    root node leaves =
      node (root node (leaves.take (split leaves.length))) (root node (leaves.drop (split leaves.length))) := by
  rw [root, dif_pos several]

theorem path_left (several : 2 ≤ leaves.length) (left : index < split leaves.length) :
    path node leaves index = path node (leaves.take (split leaves.length)) index ++
      [(false, root node (leaves.drop (split leaves.length)))] := by
  rw [path, dif_pos several, if_pos left]

theorem path_right (several : 2 ≤ leaves.length) (right : split leaves.length ≤ index) :
    path node leaves index = path node (leaves.drop (split leaves.length)) (index - split leaves.length) ++
      [(true, root node (leaves.take (split leaves.length)))] := by
  rw [path, dif_pos several, if_neg (by omega)]

theorem path_single {leaves : List D} (single : leaves.length ≤ 1) (index : Nat) : path node leaves index = [] := by
  rw [path, dif_neg (by omega)]

@[simp] theorem root_singleton (digest : D) : root node [digest] = digest := by
  rw [root, dif_neg (by simp)]
  rfl

theorem rootInputs_split (several : 2 ≤ leaves.length) :
    rootInputs node leaves =
      (root node (leaves.take (split leaves.length)), root node (leaves.drop (split leaves.length))) ::
        (rootInputs node (leaves.take (split leaves.length)) ++ rootInputs node (leaves.drop (split leaves.length))) := by
  rw [rootInputs, dif_pos several]

theorem rootInputs_single (single : leaves.length ≤ 1) : rootInputs node leaves = [] := by
  rw [rootInputs, dif_neg (by omega)]

omit [Inhabited D] in
theorem length_halves {leaves : List D} (several : 2 ≤ leaves.length) :
    (leaves.take (split leaves.length)).length = split leaves.length ∧
      (leaves.drop (split leaves.length)).length = leaves.length - split leaves.length ∧
      split leaves.length < leaves.length ∧ 0 < split leaves.length := by
  have lt := split_lt several
  refine ⟨by simp [length_take]; omega, by simp [length_drop], lt, split_pos _⟩

omit [Inhabited D] in
theorem split_induction {motive : List D → Prop} (single : ∀ leaves : List D, leaves.length ≤ 1 → motive leaves)
    (halves : ∀ leaves : List D, 2 ≤ leaves.length → motive (leaves.take (split leaves.length)) →
      motive (leaves.drop (split leaves.length)) → motive leaves) (leaves : List D) : motive leaves := by
  induction size : leaves.length using Nat.strong_induction_on generalizing leaves with
  | _ n ih =>
    by_cases several : 2 ≤ leaves.length
    · obtain ⟨left, right, lt, pos⟩ := length_halves several
      exact halves leaves several (ih _ (by omega) _ left) (ih _ (by omega) _ right)
    · exact single leaves (by omega)

/-! ### Climbing -/

omit [Inhabited D] in
theorem climb_append (digest : D) (siblings : List (Bool × D)) (last : Bool × D) :
    climb node digest (siblings ++ [last]) =
      node (join (climb node digest siblings) last).1 (join (climb node digest siblings) last).2 := by
  simp [climb]

omit [Inhabited D] in
theorem climbInputs_append (digest : D) (siblings : List (Bool × D)) (last : Bool × D) :
    climbInputs node digest (siblings ++ [last]) =
      climbInputs node digest siblings ++ [join (climb node digest siblings) last] := by
  induction siblings generalizing digest with
  | nil => rfl
  | cons sibling rest ih =>
    rw [cons_append, climbInputs, climbInputs, ih]
    rfl

theorem climb_path (found : leaves[index]? = some leaf) :
    climb node leaf (path node leaves index) = root node leaves := by
  induction leaves using split_induction generalizing index with
  | single leaves short =>
    have first : leaves = [leaf] := by
      match leaves, index, short, found with
      | [only], 0, _, found => rw [Option.some.inj found]
    rw [path_single (by simpa using short), first, root_singleton]
    rfl
  | halves leaves several left right =>
    rw [root_split several]
    by_cases inLeft : index < split leaves.length
    · rw [path_left several inLeft, climb_append, left (by rw [getElem?_take_of_lt inLeft]; exact found)]
      rfl
    · rw [path_right several (by omega), climb_append,
        right (by rw [getElem?_drop, show split leaves.length + (index - split leaves.length) = index by omega]; exact found)]
      rfl

theorem length_path (leaves : List D) (index : Nat) : (path node leaves index).length ≤ Nat.clog 2 leaves.length := by
  induction leaves using split_induction generalizing index with
  | single leaves short => rw [path_single short]; exact Nat.zero_le _
  | halves leaves several left right =>
    obtain ⟨sizeLeft, sizeRight, lt, pos⟩ := length_halves several
    have power : Nat.clog 2 (split leaves.length) = Nat.log2 (leaves.length - 1) := Nat.clog_pow 2 _ (by decide)
    have above : Nat.log2 (leaves.length - 1) + 1 ≤ Nat.clog 2 leaves.length := by
      rw [Nat.succ_le_iff, Nat.lt_clog_iff_pow_lt (by decide)]
      exact lt
    by_cases inLeft : index < split leaves.length
    · rw [path_left several inLeft, length_append]
      have short := left index
      rw [sizeLeft, power] at short
      simp only [length_singleton]
      omega
    · rw [path_right several (by omega), length_append]
      have short := right (index - split leaves.length)
      have less : Nat.clog 2 (leaves.length - split leaves.length) ≤ Nat.clog 2 (split leaves.length) :=
        Nat.clog_mono_right 2 (by have := le_two_split leaves.length; omega)
      rw [sizeRight] at short
      simp only [length_singleton]
      omega

/-! ### Without collisions -/

/-- No collision shows among what the root hashes and what a digest hashes on its way up: equal nodes
have equal children, and neither the digest nor a leaf is a node. -/
structure CollisionFree (node : D → D → D) (leaves : List D) (digest : D) (siblings : List (Bool × D)) : Prop where
  nodes : ∀ a ∈ climbInputs node digest siblings, ∀ b ∈ rootInputs node leaves,
    node a.1 a.2 = node b.1 b.2 → a = b
  start : ∀ b ∈ rootInputs node leaves, digest ≠ node b.1 b.2
  leaf : ∀ leaf ∈ leaves, ∀ a ∈ climbInputs node digest siblings, leaf ≠ node a.1 a.2

theorem CollisionFree.init (free : CollisionFree node leaves digest (siblings ++ [last]))
    (inputs : ∀ b ∈ rootInputs node part, b ∈ rootInputs node leaves) (members : ∀ leaf ∈ part, leaf ∈ leaves) :
    CollisionFree node part digest siblings := by
  have earlier (a : D × D) (member : a ∈ climbInputs node digest siblings) :
      a ∈ climbInputs node digest (siblings ++ [last]) := by
    rw [climbInputs_append]
    exact mem_append_left _ member
  exact ⟨fun a memberA b memberB => free.nodes a (earlier a memberA) b (inputs b memberB),
    fun b memberB => free.start b (inputs b memberB),
    fun leaf memberLeaf a memberA => free.leaf leaf (members leaf memberLeaf) a (earlier a memberA)⟩

theorem CollisionFree.last {digest : D} {siblings : List (Bool × D)} {last : Bool × D} (several : 2 ≤ leaves.length)
    (free : CollisionFree node leaves digest (siblings ++ [last]))
    (reached : climb node digest (siblings ++ [last]) = root node leaves) :
    join (climb node digest siblings) last =
      (root node (leaves.take (split leaves.length)), root node (leaves.drop (split leaves.length))) := by
  rw [climb_append, root_split several] at reached
  refine free.nodes _ ?_ _ ?_ reached
  · rw [climbInputs_append]
    exact mem_append_right _ (mem_singleton_self _)
  · rw [rootInputs_split several]
    exact mem_cons_self ..

section

variable {leaves : List D} {digest : D} {siblings : List (Bool × D)} {last : Bool × D} (several : 2 ≤ leaves.length) (free : CollisionFree node leaves digest (siblings ++ [last]))
include several free

theorem CollisionFree.left :
    CollisionFree node (leaves.take (split leaves.length)) digest siblings :=
  free.init (fun b member => by
    rw [rootInputs_split several]
    exact mem_cons_of_mem _ (mem_append_left _ member)) fun leaf => mem_of_mem_take

theorem CollisionFree.right :
    CollisionFree node (leaves.drop (split leaves.length)) digest siblings :=
  free.init (fun b member => by
    rw [rootInputs_split several]
    exact mem_cons_of_mem _ (mem_append_right _ member)) fun leaf => mem_of_mem_drop

end

theorem CollisionFree.not_root (several : 2 ≤ leaves.length) (free : CollisionFree node leaves digest []) :
    digest ≠ root node leaves := by
  rw [root_split several]
  exact free.start _ (by rw [rootInputs_split several]; exact mem_cons_self ..)

theorem mem_of_climb (some_ : leaves ≠ []) (free : CollisionFree node leaves digest siblings)
    (reached : climb node digest siblings = root node leaves) : digest ∈ leaves := by
  induction leaves using split_induction generalizing siblings with
  | single leaves short =>
    obtain ⟨leaf, rfl⟩ := length_eq_one_iff.mp
      (show leaves.length = 1 by have := length_pos_iff.mpr some_; omega)
    rw [root_singleton] at reached
    cases siblings using List.reverseRecOn with
    | nil => exact mem_singleton.mpr reached
    | append_singleton siblings last =>
      rw [climb_append] at reached
      refine absurd reached.symm (free.leaf leaf (mem_singleton_self _) _ ?_)
      rw [climbInputs_append]
      exact mem_append_right _ (mem_singleton_self _)
  | halves leaves several left right =>
    obtain ⟨sizeLeft, sizeRight, lt, pos⟩ := length_halves several
    cases siblings using List.reverseRecOn with
    | nil => exact absurd reached (free.not_root several)
    | append_singleton siblings last =>
      have step := free.last several reached
      unfold join at step
      split at step
      · refine mem_of_mem_drop (right ?_ (free.right several) (congrArg Prod.snd step))
        exact ne_nil_of_length_pos (by omega)
      · refine mem_of_mem_take (left ?_ (free.left several) (congrArg Prod.fst step))
        exact ne_nil_of_length_pos (by omega)

theorem eq_path_of_climb (inside : index < leaves.length)
    (sides : siblings.map (·.1) = (path node leaves index).map (·.1)) (free : CollisionFree node leaves digest siblings)
    (reached : climb node digest siblings = root node leaves) :
    leaves[index]? = some digest ∧ siblings = path node leaves index := by
  induction leaves using split_induction generalizing siblings index with
  | single leaves short =>
    obtain ⟨leaf, rfl⟩ := length_eq_one_iff.mp (show leaves.length = 1 by omega)
    rw [path_single short] at sides ⊢
    have none : siblings = [] := map_eq_nil_iff.mp sides
    have first : index = 0 := by simpa using inside
    subst none first
    rw [root_singleton] at reached
    exact ⟨by rw [← reached]; rfl, rfl⟩
  | halves leaves several left right =>
    obtain ⟨sizeLeft, sizeRight, lt, pos⟩ := length_halves several
    by_cases inLeft : index < split leaves.length
    · rw [path_left several inLeft] at sides ⊢
      rw [map_append] at sides
      obtain ⟨siblings, last, rfl, front, side⟩ := map_eq_append_iff.mp sides
      obtain ⟨⟨flag, sibling⟩, rfl, own⟩ := map_eq_singleton_iff.mp side
      have step := free.last several reached
      have own : flag = false := own
      subst own
      simp only [join, Bool.false_eq_true, if_false, Prod.mk.injEq] at step
      obtain ⟨found, same⟩ := left (by omega) front (free.left several) step.1
      rw [getElem?_take_of_lt inLeft] at found
      exact ⟨found, by rw [same, step.2]⟩
    · rw [path_right several (by omega)] at sides ⊢
      rw [map_append] at sides
      obtain ⟨siblings, last, rfl, front, side⟩ := map_eq_append_iff.mp sides
      obtain ⟨⟨flag, sibling⟩, rfl, own⟩ := map_eq_singleton_iff.mp side
      have step := free.last several reached
      have own : flag = true := own
      subst own
      simp only [join, if_true, Prod.mk.injEq] at step
      obtain ⟨found, same⟩ := right (by omega) front (free.right several) step.2
      rw [getElem?_drop, show split leaves.length + (index - split leaves.length) = index by omega] at found
      exact ⟨found, by rw [same, step.1]⟩

/-! ### Level by level -/

omit [Inhabited D] in
theorem length_pairUp (leaves : List D) : (pairUp node leaves).length = (leaves.length + 1) / 2 := by
  fun_induction pairUp node leaves with
  | case1 left right rest ih => simp [ih]; omega
  | case2 last => simp
  | case3 => simp

omit [Inhabited D] in
theorem pairUp_take (k : Nat) (leaves : List D) : pairUp node (leaves.take (2 * k)) = (pairUp node leaves).take k := by
  induction k generalizing leaves with
  | zero => simp [pairUp]
  | succ k ih =>
    rw [Nat.mul_succ]
    match leaves with
    | left :: right :: rest =>
      rw [take_succ_cons, take_succ_cons, pairUp, pairUp, take_succ_cons, ih]
    | [last] => simp [pairUp]
    | [] => simp [pairUp]

omit [Inhabited D] in
theorem pairUp_drop (k : Nat) (leaves : List D) : pairUp node (leaves.drop (2 * k)) = (pairUp node leaves).drop k := by
  induction k generalizing leaves with
  | zero => simp
  | succ k ih =>
    rw [Nat.mul_succ]
    match leaves with
    | left :: right :: rest => rw [drop_succ_cons, drop_succ_cons, pairUp, drop_succ_cons, ih]
    | [last] => simp [pairUp]
    | [] => simp [pairUp]

omit [Inhabited D] in
theorem split_pairUp {leaves : List D} (several : 3 ≤ leaves.length) :
    split leaves.length = 2 * split (pairUp node leaves).length := by
  rw [length_pairUp, split_half several]

theorem pairUp_two (two : leaves.length = 2) : pairUp node leaves = [root node leaves] := by
  obtain ⟨left, right, rfl⟩ := length_eq_two.mp two
  rw [root_split (by simp)]
  simp [pairUp]

omit [Inhabited D] in
theorem pairUp_single (single : leaves.length ≤ 1) : pairUp node leaves = leaves := by
  match leaves, single with
  | [last], _ => rfl
  | [], _ => rfl

theorem root_pairUp (leaves : List D) : root node (pairUp node leaves) = root node leaves := by
  induction leaves using split_induction with
  | single leaves short => rw [pairUp_single short]
  | halves leaves several left right =>
    by_cases two : leaves.length = 2
    · rw [pairUp_two two, root_singleton]
    have halves := @split_pairUp _ node leaves (by omega)
    have above : 2 ≤ (pairUp node leaves).length := by rw [length_pairUp]; omega
    rw [halves, pairUp_take] at left
    rw [halves, pairUp_drop] at right
    rw [root_split above, left, right, ← halves, root_split several]

theorem xor_one (n : Nat) : n ^^^ 1 = if n % 2 = 0 then n + 1 else n - 1 := by
  have half : (n ^^^ 1) / 2 = n / 2 := by simp [Nat.xor_div_two]
  have parity := Nat.xor_mod_two_eq (m := n) (n := 1)
  split <;> omega

/-- The sibling of a node on its own level, flagged when it sits to the left. -/
def levelSibling (leaves : List D) (index : Nat) : List (Bool × D) :=
  (leaves[index ^^^ 1]?).toList.map fun sibling => (decide (index % 2 = 1), sibling)

omit [Inhabited D] in
theorem levelSibling_take (inside : index < 2 * k) :
    levelSibling (leaves.take (2 * k)) index = levelSibling leaves index := by
  unfold levelSibling
  rw [getElem?_take_of_lt (by rw [xor_one]; split <;> omega)]

omit [Inhabited D] in
theorem levelSibling_drop (past : 2 * k ≤ index) :
    levelSibling (leaves.drop (2 * k)) (index - 2 * k) = levelSibling leaves index := by
  have parity : (index - 2 * k) % 2 = index % 2 := by omega
  have moved : 2 * k + ((index - 2 * k) ^^^ 1) = index ^^^ 1 := by
    rw [xor_one, xor_one, parity]
    split <;> omega
  unfold levelSibling
  rw [getElem?_drop, moved, parity]

theorem path_pairUp (inside : index < leaves.length) :
    path node leaves index = levelSibling leaves index ++ path node (pairUp node leaves) (index / 2) := by
  induction leaves using split_induction generalizing index with
  | single leaves short =>
    obtain ⟨leaf, rfl⟩ := length_eq_one_iff.mp (show leaves.length = 1 by omega)
    have first : index = 0 := by simpa using inside
    subst first
    rw [path_single short, path_single (by simp [pairUp])]
    rfl
  | halves leaves several left right =>
    obtain ⟨sizeLeft, sizeRight, lt, pos⟩ := length_halves several
    by_cases two : leaves.length = 2
    · obtain ⟨a, b, rfl⟩ := length_eq_two.mp two
      have two : split [a, b].length = 1 := rfl
      rw [pairUp_two rfl, @path_single _ _ _ [root node [a, b]] (by simp), append_nil]
      by_cases first : index = 0
      · subst first
        rw [path_left several (by omega), two, path_single (by simp)]
        simp [levelSibling]
      · have second : index = 1 := by simp at inside; omega
        subst second
        rw [path_right several (by omega), two, path_single (by simp)]
        simp [levelSibling]
    have halves := @split_pairUp _ node leaves (by omega)
    have above : 2 ≤ (pairUp node leaves).length := by rw [length_pairUp]; omega
    by_cases inLeft : index < split leaves.length
    · have own := @left index (by omega)
      rw [halves, levelSibling_take (by omega), pairUp_take] at own
      rw [path_left several inLeft, path_left above (by omega), ← append_assoc, ← own, ← pairUp_drop, ← halves,
        root_pairUp]
    · have own := @right (index - split leaves.length) (by omega)
      rw [halves, levelSibling_drop (by omega), pairUp_drop,
        show (index - 2 * split (pairUp node leaves).length) / 2 = index / 2 - split (pairUp node leaves).length by omega] at own
      rw [path_right several (by omega), path_right above (by omega), ← append_assoc, halves, own, ← pairUp_take,
        root_pairUp]

/-! ### Sides -/

end

/-- The sides of the siblings on the way up from a leaf, which only the number of leaves decides. -/
def sides (n index : Nat) : List Bool := (path (fun _ _ => ()) (List.replicate n ()) index).map (·.1)

section
variable {D : Type} [Inhabited D] {node : D → D → D}

theorem map_fst_path (leaves : List D) (index : Nat) :
    (path node leaves index).map (·.1) = sides leaves.length index := by
  induction leaves using split_induction generalizing index with
  | single leaves short =>
    unfold sides
    rw [path_single short, path_single (by simpa using short)]
    rfl
  | halves leaves several left right =>
    have units : 2 ≤ (List.replicate leaves.length ()).length := by simpa using several
    obtain ⟨sizeLeft, sizeRight, lt, pos⟩ := length_halves several
    rw [sizeLeft] at left
    rw [sizeRight] at right
    unfold sides at *
    by_cases inLeft : index < split leaves.length
    · rw [path_left several inLeft, path_left units (by simpa using inLeft), map_append, left index]
      simp [take_replicate, Nat.min_eq_left lt.le]
    · rw [path_right several (by omega), path_right units (by simpa using inLeft), map_append, right]
      simp

end

theorem sides_single (single : n ≤ 1) (index : Nat) : sides n index = [] := by
  unfold sides
  rw [path_single (by simpa using single)]
  rfl

theorem sides_half (inside : index < n) :
    sides n index = (if index % 2 = 1 then [true] else if index + 1 < n then [false] else []) ++
      sides ((n + 1) / 2) (index / 2) := by
  have level : sides n index = (levelSibling (List.replicate n ()) index).map (·.1) ++
      (path (fun _ _ => ()) (pairUp (fun _ _ => ()) (List.replicate n ())) (index / 2)).map (·.1) := by
    unfold sides
    rw [path_pairUp (by simpa using inside), map_append]
  rw [level, map_fst_path, length_pairUp, length_replicate]
  congr 1
  unfold levelSibling
  rw [getElem?_replicate, xor_one]
  by_cases odd : index % 2 = 1
  · rw [if_neg (show ¬ index % 2 = 0 by omega), if_pos (by omega), if_pos odd]
    simp [odd]
  · rw [if_pos (show index % 2 = 0 by omega), if_neg odd]
    by_cases present : index + 1 < n
    · rw [if_pos present, if_pos present]
      simp [odd]
    · rw [if_neg present, if_neg present]
      rfl

end Warm.MerkleTree
