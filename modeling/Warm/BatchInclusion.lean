import Warm.ProvenanceLog
import Warm.ReceiptInclusion

/-! Inclusion proofs of a signed batch: the tree that is built level by level is the recursive one,
every leaf's proof is accepted, and only the batch's content hashes are. -/
namespace Warm.Provenance

open Bytes Binary List
open MerkleTree (climb join pairUp path_single)

/-! ### The levels are the recursive tree -/

section

variable (lib : Libraries) (hashing : MerkleHashing)
include lib hashing

theorem merkleParents_eq (level : List Array32) :
    merkleParents lib hashing level = pairUp (hashing.node lib) level := by
  fun_induction merkleParents lib hashing level with
  | case1 left right rest ih => rw [pairUp, ih]
  | case2 last => rfl
  | case3 => rfl

theorem merkleLevels_last (some_ : level ≠ []) :
    (merkleLevels lib hashing level).getLast? = some [MerkleTree.root (hashing.node lib) level] := by
  fun_induction merkleLevels lib hashing level with
  | case1 level short =>
    obtain ⟨last, rfl⟩ := length_eq_one_iff.mp
      (show level.length = 1 by have := length_pos_iff.mpr some_; omega)
    simp
  | case2 level several ih =>
    have above : merkleParents lib hashing level ≠ [] := by
      rw [← length_pos_iff, length_merkleParents]
      omega
    rw [getLast?_cons, ih above, merkleParents_eq, MerkleTree.root_pairUp]
    rfl

theorem merkleLevels_head (level : List Array32) :
    ∃ upper, merkleLevels lib hashing level = level :: upper := by
  rw [merkleLevels]
  split
  · exact ⟨[], rfl⟩
  · exact ⟨_, rfl⟩

theorem merkleProof_eq {index : Nat} (inside : index < level.length) :
    merkleProof (merkleLevels lib hashing level) index = MerkleTree.path (hashing.node lib) level index := by
  induction size : level.length using Nat.strong_induction_on generalizing level index with
  | _ n ih =>
    by_cases short : level.length ≤ 1
    · rw [merkleLevels, if_pos short, path_single short]
      rfl
    have above := length_merkleParents lib hashing level
    have rest := @ih (merkleParents lib hashing level).length (by omega) (merkleParents lib hashing level) (index / 2)
      (by omega) rfl
    obtain ⟨upper, levels⟩ := merkleLevels_head lib hashing (merkleParents lib hashing level)
    rw [MerkleTree.path_pairUp inside, ← merkleParents_eq, ← rest, merkleLevels, if_neg short, levels, merkleProof]
    rfl

end

/-! ### The check -/

theorem merkleRootFromProof_eq (lib : Libraries) (hash : Array32) (siblings : List (Bool × Array32)) :
    merkleRootFromProof lib .rfc6962 hash siblings = climb (nodeHash lib) hash siblings := by
  unfold merkleRootFromProof climb
  congr 1
  funext node sibling
  unfold join
  split <;> rfl

/-- The strings hashed while a content hash and its proof are checked. -/
def checkInputs (lib : Libraries) (contentHash : Array32) (siblings : List (Bool × Array32)) : List Bytes :=
  (0 :: contentHash.val) ::
    (MerkleTree.climbInputs (nodeHash lib) (leafHash lib contentHash.val) siblings).map nodeInput

theorem checkInclusion_accepts (some_ : size ≠ 0) (short : siblings.length ≤ Nat.clog 2 size)
    (reached : climb (nodeHash lib) (leafHash lib contentHash.val) siblings = root) :
    checkInclusion lib .rfc6962 contentHash (some siblings) root.val (some size) = .ok () := by
  have same : (merkleRootFromProof lib .rfc6962 (MerkleHashing.rfc6962.leaf lib contentHash) siblings).val = root.val := by
    rw [merkleRootFromProof_eq, ← reached]
    rfl
  unfold checkInclusion
  rw [bind_eq_ok]
  exact ⟨(), ensure_eq_ok.mpr ⟨some_, short⟩, ensure_eq_ok.mpr same⟩

/-- The levels over content hashes end in the root of the recursive tree, the check accepts every
content hash with its proof, and with any proof at all it accepts only a content hash of the list when
the hash tells the strings hashed apart. -/
theorem batchInclusion_exact {lib : Libraries} {hashes : List Array32} (some_ : hashes ≠ []) :
    let levels := merkleLevels lib .rfc6962 (hashes.map (MerkleHashing.rfc6962.leaf lib))
    let root := merkle lib (hashes.map (·.val))
    levels.getLast? = some [root] ∧
      (∀ index contentHash, hashes[index]? = some contentHash →
        checkInclusion lib .rfc6962 contentHash (some (merkleProof levels index)) root.val (some hashes.length) = .ok ()) ∧
      ∀ contentHash proof,
        checkInclusion lib .rfc6962 contentHash proof root.val (some hashes.length) = .ok () →
          ∃ siblings, proof = some siblings ∧
            (Distinct lib (treeInputs lib (hashes.map (·.val)) ++ checkInputs lib contentHash siblings) →
              contentHash ∈ hashes) := by
  have leaves : (hashes.map (·.val)).map (leafHash lib) = hashes.map (MerkleHashing.rfc6962.leaf lib) := by
    rw [map_map]
    rfl
  have size : (hashes.map (MerkleHashing.rfc6962.leaf lib)).length = hashes.length := length_map _
  have treeRoot : merkle lib (hashes.map (·.val)) =
      MerkleTree.root (nodeHash lib) (hashes.map (MerkleHashing.rfc6962.leaf lib)) := by
    unfold merkle
    rw [leaves]
  dsimp only
  refine ⟨?_, fun index contentHash present => ?_, fun contentHash proof accepted => ?_⟩
  · rw [merkleLevels_last lib .rfc6962 (by simpa using some_), treeRoot]
    rfl
  · obtain ⟨inside, -⟩ := List.getElem?_eq_some_iff.mp present
    rw [merkleProof_eq lib .rfc6962 (by rw [size]; exact inside)]
    refine checkInclusion_accepts (length_pos_iff.mpr some_).ne' ?_ ?_
    · rw [← size]
      exact MerkleTree.length_path _ _
    · rw [treeRoot]
      exact MerkleTree.climb_path (by rw [getElem?_map, present]; rfl)
  · obtain ⟨siblings, carried, reached⟩ := checkInclusion_eq_ok accepted
    refine ⟨siblings, carried, fun distinct => ?_⟩
    have same := Subtype.ext reached
    rw [merkleRootFromProof_eq, merkle] at same
    have member := MerkleTree.mem_of_climb
      (fun none => some_ (map_eq_nil_iff.mp (map_eq_nil_iff.mp none))) (collisionFree distinct) same
    obtain ⟨own, inList, equal⟩ := mem_map.mp member
    have input := distinct (0 :: own) (mem_append_left _ (mem_append_left _ (mem_map_of_mem inList)))
      (0 :: contentHash.val) (mem_append_right _ (mem_cons_self ..)) equal
    obtain ⟨listed, present, value⟩ := mem_map.mp inList
    rw [← Subtype.ext (value.trans (List.cons.inj input).2)]
    exact present

namespace Sample

def hashA : Array32 :=
  ⟨[0xca, 0x97, 0x81, 0x12, 0xca, 0x1b, 0xbd, 0xca, 0xfa, 0xc2, 0x31, 0xb3, 0x9a, 0x23, 0xdc, 0x4d,
    0xa7, 0x86, 0xef, 0xf8, 0x14, 0x7c, 0x4e, 0x72, 0xb9, 0x80, 0x77, 0x85, 0xaf, 0xee, 0x48, 0xbb], by decide⟩

def hashB : Array32 :=
  ⟨[0x3e, 0x23, 0xe8, 0x16, 0x00, 0x39, 0x59, 0x4a, 0x33, 0x89, 0x4f, 0x65, 0x64, 0xe1, 0xb1, 0x34,
    0x8b, 0xbd, 0x7a, 0x00, 0x88, 0xd4, 0x2c, 0x4a, 0xcb, 0x73, 0xee, 0xae, 0xd5, 0x9c, 0x00, 0x9d], by decide⟩

def batchLeafA : Array32 :=
  ⟨[0xa2, 0x3b, 0xd5, 0xb0, 0x6d, 0xa9, 0x04, 0x82, 0x38, 0xa6, 0x5b, 0x3f, 0x1d, 0x9d, 0x0b, 0x9e,
    0x15, 0xfa, 0xe3, 0xdd, 0xe2, 0x62, 0x68, 0x8e, 0x64, 0x89, 0xaa, 0x4c, 0x76, 0x3d, 0x18, 0x20], by decide⟩

def batchLeafB : Array32 :=
  ⟨[0xa0, 0xd9, 0xf0, 0xa5, 0x0b, 0x35, 0xb9, 0xf7, 0xd7, 0xed, 0xc5, 0x7f, 0xb6, 0x4f, 0x47, 0x71,
    0xdd, 0xef, 0x0f, 0xef, 0xea, 0xca, 0x4e, 0x6f, 0x94, 0x9a, 0x15, 0x14, 0xdb, 0x5b, 0x13, 0x6d], by decide⟩

def batchNode : Array32 :=
  ⟨[0xad, 0x5c, 0xa6, 0xcd, 0xdc, 0x0b, 0x27, 0xc6, 0xa8, 0x3e, 0x33, 0x2b, 0xf2, 0x80, 0x11, 0x76,
    0x92, 0x36, 0xe6, 0xc6, 0xa1, 0xf7, 0x86, 0xeb, 0xf7, 0xb5, 0x26, 0x7b, 0x37, 0xa5, 0xbd, 0x22], by decide⟩

/-- SHA-256 on the strings that a batch of two contents hashes. -/
def batchLibraries : Libraries :=
  { libraries with
    sha256 := fun bytes =>
      if bytes = 0 :: hashA.val then batchLeafA else if bytes = 0 :: hashB.val then batchLeafB
      else if bytes = 1 :: (batchLeafA.val ++ batchLeafB.val) then batchNode else content }

end Sample

/-- A batch of two contents: the second one's proof is accepted, and by its proof it is in the list. -/
theorem batchInclusion_exact_two :
    let levels := merkleLevels Sample.batchLibraries .rfc6962
      ([Sample.hashA, Sample.hashB].map (MerkleHashing.rfc6962.leaf Sample.batchLibraries))
    let root := merkle Sample.batchLibraries ([Sample.hashA, Sample.hashB].map (·.val))
    checkInclusion Sample.batchLibraries .rfc6962 Sample.hashB (some (merkleProof levels 1)) root.val (some 2) = .ok () ∧
      Sample.hashB ∈ [Sample.hashA, Sample.hashB] := by
  have exact_ := @batchInclusion_exact Sample.batchLibraries [Sample.hashA, Sample.hashB] (by simp)
  have accepted := exact_.2.1 1 Sample.hashB rfl
  refine ⟨accepted, ?_⟩
  obtain ⟨siblings, carried, member⟩ := exact_.2.2 Sample.hashB _ accepted
  refine member ?_
  have two : 2 ≤ [Sample.batchLeafA, Sample.batchLeafB].length := by decide
  have path : merkleProof (merkleLevels Sample.batchLibraries .rfc6962
      ([Sample.hashA, Sample.hashB].map (MerkleHashing.rfc6962.leaf Sample.batchLibraries))) 1 =
      [(true, Sample.batchLeafA)] := by
    rw [merkleProof_eq _ _ (by simp)]
    change MerkleTree.path _ [Sample.batchLeafA, Sample.batchLeafB] 1 = _
    rw [MerkleTree.path_right two (by decide), path_single (by decide)]
    simp
  have tree : treeInputs Sample.batchLibraries ([Sample.hashA, Sample.hashB].map (·.val)) =
      [0 :: Sample.hashA.val, 0 :: Sample.hashB.val, nodeInput (Sample.batchLeafA, Sample.batchLeafB)] := by
    have pair : MerkleTree.rootInputs (nodeHash Sample.batchLibraries) [Sample.batchLeafA, Sample.batchLeafB] =
        [(Sample.batchLeafA, Sample.batchLeafB)] := by
      rw [MerkleTree.rootInputs_split two]
      simp [MerkleTree.rootInputs_single]
    exact congrArg (fun pairs => [0 :: Sample.hashA.val, 0 :: Sample.hashB.val] ++ pairs.map nodeInput) pair
  have own : siblings = [(true, Sample.batchLeafA)] := (Option.some.inj carried).symm.trans path
  have checked : checkInputs Sample.batchLibraries Sample.hashB [(true, Sample.batchLeafA)] =
      [0 :: Sample.hashB.val, nodeInput (Sample.batchLeafA, Sample.batchLeafB)] := rfl
  rw [own, tree, checked]
  unfold Distinct
  decide

end Warm.Provenance
