import Warm.Checked
import Warm.MerkleTree
import Warm.ProvenanceTrust

/-! Inclusion proofs of a transparency receipt: the verifier that walks two shifting counters, and the
recursive tree over the log's entries. -/
namespace Warm.Provenance

open Bytes Binary List
open Checked (error_bind ok_bind require require_false require_true)
open MerkleTree (climb climbInputs join map_fst_path path_left rootInputs sides_half sides_single)

/-- The digest of an empty tree. -/
instance : Inhabited Array32 := ⟨⟨List.replicate 32 0, by simp⟩⟩

def leafHash (lib : Libraries) (entry : Bytes) : Array32 := lib.sha256 (0 :: entry)

def nodeHash (lib : Libraries) (left right : Array32) : Array32 := lib.sha256 (1 :: (left.val ++ right.val))

/-- The inner loop: a node carried up a level has no sibling there. -/
def skipCarried (fnIndex sn : Nat) : Nat × Nat :=
  if carried : fnIndex % 2 = 0 ∧ fnIndex ≠ 0 then skipCarried (fnIndex / 2) (sn / 2) else (fnIndex, sn)
termination_by fnIndex
decreasing_by omega

/-- The loop over the path, and the check after it. -/
def inclusionSteps (lib : Libraries) (hash : Array32) (fnIndex sn : Nat) : List Cbor → Checked Array32
  | [] => do
    require (sn = 0) "incomplete proof"
    .ok hash
  | .bytes sibling :: rest => do
    require (sibling.length = 32 ∧ sn ≠ 0) "invalid path hash or length"
    if fnIndex % 2 = 1 ∨ fnIndex = sn then
      let skipped := skipCarried fnIndex sn
      inclusionSteps lib (lib.sha256 (1 :: (sibling ++ hash.val))) (skipped.1 / 2) (skipped.2 / 2) rest
    else
      inclusionSteps lib (lib.sha256 (1 :: (hash.val ++ sibling))) (fnIndex / 2) (sn / 2) rest
  | _ :: _ => .error (.error "invalid path hash")

def inclusionRoot (lib : Libraries) (entry : Bytes) (size index : Nat) (path : List Cbor) : Checked Array32 := do
  require (size > 1 ∧ index < size ∧ path ≠ [] ∧ path.length ≤ 64) "invalid proof bounds"
  inclusionSteps lib (leafHash lib entry) index (← U64.sub size 1) path

/-- The root of the recursive tree over entries. -/
def merkle (lib : Libraries) (leaves : List Bytes) : Array32 :=
  MerkleTree.root (nodeHash lib) (leaves.map (leafHash lib))

def inclusionProof (lib : Libraries) (leaves : List Bytes) (index : Nat) : List Cbor :=
  (MerkleTree.path (nodeHash lib) (leaves.map (leafHash lib)) index).map fun sibling => .bytes sibling.2.val

/-! ### What is hashed -/

def nodeInput (pair : Array32 × Array32) : Bytes := 1 :: (pair.1.val ++ pair.2.val)

/-- The strings hashed while the tree is built. -/
def treeInputs (lib : Libraries) (leaves : List Bytes) : List Bytes :=
  leaves.map (0 :: ·) ++ (rootInputs (nodeHash lib) (leaves.map (leafHash lib))).map nodeInput

def pathDigests (path : List Cbor) : List Array32 :=
  path.filterMap fun sibling =>
    match sibling with
    | .bytes bytes => Array32.tryFrom bytes
    | _ => none

/-- The strings hashed while a path is checked. -/
def pathInputs (lib : Libraries) (entry : Bytes) (size index : Nat) (path : List Cbor) : List Bytes :=
  (0 :: entry) :: (climbInputs (nodeHash lib) (leafHash lib entry)
    ((MerkleTree.sides size index).zip (pathDigests path))).map nodeInput

/-- The hash tells the strings apart. -/
def Distinct (lib : Libraries) (inputs : List Bytes) : Prop :=
  ∀ a ∈ inputs, ∀ b ∈ inputs, lib.sha256 a = lib.sha256 b → a = b

theorem nodeInput_injective : Function.Injective nodeInput := by
  rintro ⟨⟨a, sizeA⟩, ⟨b, sizeB⟩⟩ ⟨⟨c, sizeC⟩, ⟨d, sizeD⟩⟩ same
  obtain ⟨left, right⟩ := append_inj (List.cons.inj same).2 (sizeA.trans sizeC.symm)
  simp_all

theorem collisionFree
    (distinct : Distinct lib (treeInputs lib leaves ++ (0 :: entry) :: (climbInputs (nodeHash lib) (leafHash lib entry) siblings).map nodeInput)) :
    MerkleTree.CollisionFree (nodeHash lib) (leaves.map (leafHash lib)) (leafHash lib entry) siblings where
  nodes := by
    intro a memberA b memberB same
    refine nodeInput_injective (distinct _ ?_ _ ?_ same)
    · exact mem_append_right _ (mem_cons_of_mem _ (mem_map_of_mem memberA))
    · exact mem_append_left _ (mem_append_right _ (mem_map_of_mem memberB))
  start := by
    intro b memberB same
    have equal := distinct (0 :: entry) (mem_append_right _ (mem_cons_self ..)) (nodeInput b)
      (mem_append_left _ (mem_append_right _ (mem_map_of_mem memberB))) same
    cases equal
  leaf := by
    intro leaf memberLeaf a memberA same
    obtain ⟨own, member, rfl⟩ := mem_map.mp memberLeaf
    have equal := distinct (0 :: own) (mem_append_left _ (mem_append_left _ (mem_map_of_mem member)))
      (nodeInput a) (mem_append_right _ (mem_cons_of_mem _ (mem_map_of_mem memberA))) same
    cases equal

/-! ### The loop climbs the tree -/

theorem skipCarried_stop (stop : fnIndex % 2 = 1 ∨ fnIndex = 0) : skipCarried fnIndex sn = (fnIndex, sn) := by
  rw [skipCarried, dif_neg (by omega)]

theorem skipCarried_half (even : fnIndex % 2 = 0) (some_ : fnIndex ≠ 0) :
    skipCarried fnIndex sn = skipCarried (fnIndex / 2) (sn / 2) := by
  rw [skipCarried, dif_pos ⟨even, some_⟩]

theorem inclusionSteps_carried (lib : Libraries) (hash : Array32) (even : sn % 2 = 0) (some_ : sn ≠ 0)
    (path : List Cbor) : inclusionSteps lib hash sn sn path = inclusionSteps lib hash (sn / 2) (sn / 2) path := by
  have above : sn / 2 ≠ 0 := by omega
  match path with
  | [] =>
    simp only [inclusionSteps]
    rw [require_false some_, require_false above]
  | .bytes sibling :: rest =>
    simp only [inclusionSteps, some_, above, ne_eq, not_false_eq_true, and_true, or_true, if_true,
      skipCarried_half even some_]
  | .integer _ :: _ => rfl
  | .text _ :: _ => rfl
  | .array _ :: _ => rfl
  | .map _ :: _ => rfl
  | .tag _ _ :: _ => rfl
  | .other _ :: _ => rfl

theorem inclusionSteps_cons {hash : Array32} {fnIndex sn : Nat} (some_ : sn ≠ 0)
    (present : fnIndex % 2 = 1 ∨ fnIndex ≠ sn) {path : List Cbor} {result : Array32} :
    inclusionSteps lib hash fnIndex sn path = .ok result ↔
      ∃ sibling : Array32, ∃ rest, path = .bytes sibling.val :: rest ∧
        inclusionSteps lib (nodeHash lib (join hash (decide (fnIndex % 2 = 1), sibling)).1
          (join hash (decide (fnIndex % 2 = 1), sibling)).2) (fnIndex / 2) (sn / 2) rest = .ok result := by
  have bytes (sibling : Bytes) (rest : List Cbor) : inclusionSteps lib hash fnIndex sn (.bytes sibling :: rest) = .ok result ↔
      ∃ sized : sibling.length = 32, inclusionSteps lib
        (nodeHash lib (join hash (decide (fnIndex % 2 = 1), ⟨sibling, sized⟩)).1
          (join hash (decide (fnIndex % 2 = 1), ⟨sibling, sized⟩)).2) (fnIndex / 2) (sn / 2) rest = .ok result := by
    simp only [inclusionSteps]
    by_cases sized : sibling.length = 32
    · rw [require_true ⟨sized, some_⟩, ok_bind]
      by_cases odd : fnIndex % 2 = 1
      · simp [odd, sized, skipCarried_stop, join, nodeHash]
      · have apart : fnIndex ≠ sn := present.resolve_left odd
        simp [odd, apart, sized, join, nodeHash]
    · rw [require_false fun both => sized both.1, error_bind]
      simp [sized]
  cases path with
  | nil => simp [inclusionSteps, require_false some_]
  | cons item rest =>
    cases item with
    | bytes sibling =>
      rw [bytes]
      constructor
      · rintro ⟨sized, done⟩
        exact ⟨⟨sibling, sized⟩, rest, rfl, done⟩
      · rintro ⟨⟨own, sized⟩, others, same, done⟩
        cases same
        exact ⟨sized, done⟩
    | _ => simp [inclusionSteps]

/-- The loop accepts the paths with one digest for each side on the way up, and returns what they hash
up to. -/
theorem inclusionSteps_eq_ok {n index : Nat} (inside : index < n) {hash : Array32} {path : List Cbor} {result : Array32} :
    inclusionSteps lib hash index (n - 1) path = .ok result ↔
      ∃ digests : List Array32, path = digests.map (fun digest => .bytes digest.val) ∧
        digests.length = (MerkleTree.sides n index).length ∧
        result = climb (nodeHash lib) hash ((MerkleTree.sides n index).zip digests) := by
  induction n using Nat.strong_induction_on generalizing index hash path with
  | _ n ih =>
    by_cases single : n = 1
    · subst single
      rw [sides_single le_rfl]
      cases path with
      | nil =>
        have done : inclusionSteps lib hash index (1 - 1) [] = .ok hash := rfl
        rw [done, Except.ok.injEq]
        constructor
        · rintro rfl
          exact ⟨[], rfl, rfl, rfl⟩
        · rintro ⟨digests, -, -, rfl⟩
          rfl
      | cons sibling rest =>
        refine iff_of_false ?_ ?_
        · cases sibling <;> simp [inclusionSteps, require]
        · rintro ⟨digests, same, none, -⟩
          rw [length_eq_zero_iff.mp none] at same
          cases same
    have half : (n + 1) / 2 - 1 = (n - 1) / 2 := by omega
    have above := fun hash path => @ih ((n + 1) / 2) (by omega) (index / 2) (by omega) hash path
    rw [half] at above
    rw [sides_half inside]
    by_cases carried : index % 2 = 0 ∧ index + 1 = n
    · obtain ⟨even, last⟩ := carried
      rw [if_neg (by omega), if_neg (by omega), nil_append, show n - 1 = index by omega,
        inclusionSteps_carried lib hash even (by omega), show index / 2 = (n - 1) / 2 by omega]
      rw [show index / 2 = (n - 1) / 2 by omega] at above
      exact above hash path
    · rw [inclusionSteps_cons (by omega) (by omega)]
      have side : (if index % 2 = 1 then [true] else if index + 1 < n then [false] else []) = [decide (index % 2 = 1)] := by
        by_cases odd : index % 2 = 1
        · simp [odd]
        · rw [if_neg odd, if_pos (by omega)]
          simp [odd]
      rw [side]
      constructor
      · rintro ⟨sibling, rest, rfl, done⟩
        obtain ⟨digests, rfl, length, rfl⟩ := (above _ _).mp done
        exact ⟨sibling :: digests, rfl, by simp [length], by simp [climb]⟩
      · rintro ⟨digests, rfl, length, rfl⟩
        cases digests with
        | nil => simp at length
        | cons sibling digests =>
          exact ⟨sibling, _, rfl, (above _ _).mpr ⟨digests, rfl, by simpa using length, by simp [climb]⟩⟩

theorem inclusionSteps_fits (lib : Libraries) (hash : Array32) (fnIndex sn : Nat) (path : List Cbor) :
    inclusionSteps lib hash fnIndex sn path ≠ .error .overflow := by
  induction path generalizing hash fnIndex sn with
  | nil => by_cases done : sn = 0 <;> simp [inclusionSteps, require, done]
  | cons sibling rest ih =>
    cases sibling with
    | bytes sibling =>
      simp only [inclusionSteps]
      by_cases valid : sibling.length = 32 ∧ sn ≠ 0
      · rw [require_true valid, ok_bind]
        split
        · exact ih _ _ _
        · exact ih _ _ _
      · rw [require_false valid, error_bind]
        simp
    | _ => simp [inclusionSteps]

/-! ### Inclusion -/

theorem pathDigests_map (digests : List Array32) : pathDigests (digests.map fun digest => .bytes digest.val) = digests := by
  have own (digest : Array32) : Array32.tryFrom digest.val = some digest := dif_pos digest.property
  induction digests with
  | nil => rfl
  | cons digest rest ih =>
    rw [map_cons, pathDigests, filterMap_cons]
    simp only [own]
    exact congrArg _ ih

theorem zip_sides (lib : Libraries) (leaves : List Bytes) (index : Nat) :
    (MerkleTree.sides leaves.length index).zip
        ((MerkleTree.path (nodeHash lib) (leaves.map (leafHash lib)) index).map (·.2)) =
      MerkleTree.path (nodeHash lib) (leaves.map (leafHash lib)) index := by
  have sides := @map_fst_path _ _ (nodeHash lib) (leaves.map (leafHash lib)) index
  rw [length_map] at sides
  rw [← sides, zip_map', map_id'']
  exact fun sibling => rfl

theorem length_sides (lib : Libraries) (leaves : List Bytes) (index : Nat) :
    (MerkleTree.sides leaves.length index).length = (inclusionProof lib leaves index).length := by
  have sides := @map_fst_path _ _ (nodeHash lib) (leaves.map (leafHash lib)) index
  rw [length_map] at sides
  rw [← sides, inclusionProof, length_map, length_map]

theorem inclusionProof_bounds (lib : Libraries) (several : 1 < leaves.length) (bounded : leaves.length < 2 ^ 64)
    (index : Nat) : inclusionProof lib leaves index ≠ [] ∧ (inclusionProof lib leaves index).length ≤ 64 := by
  have two : 2 ≤ (leaves.map (leafHash lib)).length := by rw [length_map]; exact several
  constructor
  · unfold inclusionProof
    rw [ne_eq, map_eq_nil_iff]
    by_cases left : index < MerkleTree.split (leaves.map (leafHash lib)).length
    · simp [path_left two left]
    · simp [MerkleTree.path_right two (Nat.le_of_not_lt left)]
  · rw [inclusionProof, length_map]
    refine (MerkleTree.length_path _ _).trans ?_
    rw [length_map, Nat.clog_le_iff_le_pow (by decide)]
    exact bounded.le

/-- Whatever entry and path are given, `inclusion_root` leaves no integer's range and accepts no path
of another length than the recursive proof's. It returns the root of the recursive tree exactly for
the entry at the index with its recursive proof, when the hash tells the strings hashed apart. -/
theorem inclusionRoot_exact {lib : Libraries} {leaves : List Bytes} (several : 1 < leaves.length)
    (bounded : leaves.length < 2 ^ 64) {index : Nat} (inside : index < leaves.length) (entry : Bytes)
    (path : List Cbor) :
    (Distinct lib (treeInputs lib leaves ++ pathInputs lib entry leaves.length index path) →
        (inclusionRoot lib entry leaves.length index path = .ok (merkle lib leaves) ↔
          leaves[index]? = some entry ∧ path = inclusionProof lib leaves index)) ∧
      (∀ root, inclusionRoot lib entry leaves.length index path = .ok root →
        path.length = (inclusionProof lib leaves index).length) ∧
      inclusionRoot lib entry leaves.length index path ≠ .error .overflow := by
  have steps (root : Array32) : inclusionRoot lib entry leaves.length index path = .ok root ↔
      (path ≠ [] ∧ path.length ≤ 64) ∧ ∃ digests : List Array32, path = digests.map (fun digest => .bytes digest.val) ∧
        digests.length = (MerkleTree.sides leaves.length index).length ∧ root =
          climb (nodeHash lib) (leafHash lib entry) ((MerkleTree.sides leaves.length index).zip digests) := by
    unfold inclusionRoot
    rw [Checked.require_bind_eq_ok, U64.sub_ok several.le, ok_bind, inclusionSteps_eq_ok inside]
    simp only [several, inside, true_and]
  refine ⟨fun distinct => ?_, fun root done => ?_, ?_⟩
  · rw [steps]
    constructor
    · rintro ⟨-, digests, rfl, length, reached⟩
      rw [pathInputs, pathDigests_map] at distinct
      have sides : ((MerkleTree.sides leaves.length index).zip digests).map (·.1) =
          (MerkleTree.path (nodeHash lib) (leaves.map (leafHash lib)) index).map (·.1) := by
        rw [map_fst_path, length_map, map_fst_zip length.ge]
      obtain ⟨found, siblings⟩ := MerkleTree.eq_path_of_climb (by simpa using inside) sides (collisionFree distinct)
        reached.symm
      rw [getElem?_map, Option.map_eq_some_iff] at found
      obtain ⟨own, present, same⟩ := found
      have equal := distinct (0 :: own)
        (mem_append_left _ (mem_append_left _ (mem_map_of_mem (mem_of_getElem? present))))
        (0 :: entry) (mem_append_right _ (mem_cons_self ..)) same
      refine ⟨by rw [present, (List.cons.inj equal).2], ?_⟩
      have back := congrArg (List.map (·.2)) siblings
      rw [map_snd_zip length.le] at back
      rw [back, inclusionProof, map_map]
      rfl
    · rintro ⟨present, rfl⟩
      refine ⟨inclusionProof_bounds lib several bounded index,
        (MerkleTree.path (nodeHash lib) (leaves.map (leafHash lib)) index).map (·.2), ?_, ?_, ?_⟩
      · rw [inclusionProof, map_map]
        rfl
      · rw [length_sides lib, inclusionProof, length_map, length_map]
      · rw [zip_sides]
        exact (MerkleTree.climb_path (by rw [getElem?_map, present]; rfl)).symm
  · obtain ⟨-, digests, rfl, length, -⟩ := (steps root).mp done
    rw [length_map, length, length_sides lib]
  · unfold inclusionRoot
    by_cases valid : leaves.length > 1 ∧ index < leaves.length ∧ path ≠ [] ∧ path.length ≤ 64
    · rw [require_true valid, ok_bind, U64.sub_ok several.le, ok_bind]
      exact inclusionSteps_fits lib _ _ _ path
    · rw [require_false valid, error_bind]
      simp

namespace Sample

/-- The SHA-256 of the leaves `a` and `b` and of the node above them. -/
def leafA : Array32 :=
  ⟨[0x02, 0x2a, 0x69, 0x79, 0xe6, 0xda, 0xb7, 0xaa, 0x5a, 0xe4, 0xc3, 0xe5, 0xe4, 0x5f, 0x7e, 0x97,
    0x71, 0x12, 0xa7, 0xe6, 0x35, 0x93, 0x82, 0x0d, 0xbe, 0xc1, 0xec, 0x73, 0x8a, 0x24, 0xf9, 0x3c], by decide⟩

def leafB : Array32 :=
  ⟨[0x57, 0xeb, 0x35, 0x61, 0x5d, 0x47, 0xf3, 0x4e, 0xc7, 0x14, 0xca, 0xcd, 0xf5, 0xfd, 0x74, 0x60,
    0x8a, 0x5e, 0x8e, 0x10, 0x27, 0x24, 0xe8, 0x0b, 0x24, 0xb2, 0x87, 0xc0, 0xc2, 0x7b, 0x6a, 0x31], by decide⟩

def nodeAB : Array32 :=
  ⟨[0xb1, 0x37, 0x98, 0x5f, 0xf4, 0x84, 0xfb, 0x60, 0x0d, 0xb9, 0x31, 0x07, 0xc7, 0x7b, 0x03, 0x65,
    0xc8, 0x0d, 0x78, 0xf5, 0xb4, 0x29, 0xde, 0xd0, 0xfd, 0x97, 0x36, 0x1d, 0x07, 0x79, 0x99, 0xeb], by decide⟩

/-- SHA-256 on the strings that a log of two entries hashes. -/
def receiptLibraries : Libraries :=
  { libraries with
    sha256 := fun bytes =>
      if bytes = [0, 97] then leafA else if bytes = [0, 98] then leafB
      else if bytes = 1 :: (leafA.val ++ leafB.val) then nodeAB else content }

end Sample

/-- A log of two entries: its second entry verifies with the hash of the first. -/
theorem inclusionRoot_exact_two :
    inclusionRoot Sample.receiptLibraries [98] 2 1 [.bytes Sample.leafA.val] =
        .ok (merkle Sample.receiptLibraries [[97], [98]]) ↔
      ([[97], [98]] : List Bytes)[1]? = some [98] ∧
        [.bytes Sample.leafA.val] = inclusionProof Sample.receiptLibraries [[97], [98]] 1 := by
  have tree : treeInputs Sample.receiptLibraries [[97], [98]] =
      [[0, 97], [0, 98], nodeInput (Sample.leafA, Sample.leafB)] := by
    have pair : rootInputs (nodeHash Sample.receiptLibraries) [Sample.leafA, Sample.leafB] =
        [(Sample.leafA, Sample.leafB)] := by
      rw [MerkleTree.rootInputs_split (by decide)]
      simp [MerkleTree.rootInputs_single]
    exact congrArg (fun pairs => [[0, 97], [0, 98]] ++ pairs.map nodeInput) pair
  have path : pathInputs Sample.receiptLibraries [98] 2 1 [.bytes Sample.leafA.val] =
      [[0, 98], nodeInput (Sample.leafA, Sample.leafB)] := by
    have sides : MerkleTree.sides 2 1 = [true] := by
      rw [sides_half (by decide), sides_single (by decide)]
      rfl
    unfold pathInputs
    rw [sides]
    rfl
  refine (@inclusionRoot_exact Sample.receiptLibraries [[97], [98]] (by decide) (by decide) 1 (by decide) [98]
    [.bytes Sample.leafA.val]).1 ?_
  change Distinct _ (_ ++ pathInputs _ [98] 2 1 _)
  rw [tree, path]
  unfold Distinct
  decide

end Warm.Provenance
