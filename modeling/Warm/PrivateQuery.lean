import Mathlib.Algebra.BigOperators.Group.List.Basic
import Mathlib.Data.BitVec
import Mathlib.Data.Finset.Card
import Mathlib.Data.List.GetD
import Mathlib.Tactic.Ring
import Warm.Checked

/-! Private scoring: the server adds the words of an encrypted query over each row, and the client
takes the noise off. All words wrap at 32 bits; a score comes back exactly as long as the noise of a
row stays below half of the scaling factor. -/
namespace Warm.PrivateQuery

open List

abbrev Word := BitVec 32

def LWE_DIM : Nat := 1280
def ERROR_TAIL : Nat := 77
def MAX_DIM : Nat := 2 ^ 21
def Q : Nat := 2 ^ 32

inductive PrivateQueryError where
  | dimension (dim : Nat)
  | plaintextModulus (modulus : Nat)
  | rowWeightBound (requested bound : Nat)
  | rowTooHeavy (row weight limit : Nat)
  | codeDimension (expected found : Nat)
  | malformedCode
  | length (what : String) (expected found : Nat)
  | hintMismatch

structure Params where
  dim : Nat
  plaintextModulus : Nat
  maxRowWeight : Nat
deriving DecidableEq

namespace Params

def rowWeightBound (plaintextModulus : Nat) : Nat :=
  if plaintextModulus < 2 then 0 else min ((Q / plaintextModulus - 1) / (2 * ERROR_TAIL)) (plaintextModulus - 1)

def new (dim plaintextModulus maxRowWeight : Nat) : Except PrivateQueryError Params :=
  let bound := rowWeightBound plaintextModulus
  if dim = 0 ∨ MAX_DIM < dim then .error (.dimension dim)
  else if bound = 0 then .error (.plaintextModulus plaintextModulus)
  else if maxRowWeight = 0 ∨ bound < maxRowWeight then .error (.rowWeightBound maxRowWeight bound)
  else .ok ⟨dim, plaintextModulus, maxRowWeight⟩

def delta (params : Params) : Word := BitVec.ofNat 32 (Q / params.plaintextModulus)

end Params

structure EntangledHVec where
  dim : Nat
  indices : List Nat

def checkCode (code : EntangledHVec) (dim : Nat) : Except PrivateQueryError Unit :=
  if code.dim ≠ dim then .error (.codeDimension dim code.dim)
  else if code.indices.IsChain (· < ·) ∧ (code.indices.getLast?.all fun last => last < dim) then .ok ()
  else .error .malformedCode

def dot (a b : List Word) : Word := (List.zip a b).foldl (fun acc entry => acc + entry.1 * entry.2) 0

structure PublicMatrix where
  params : Params
  seed : List UInt8
  rows : List (List Word)
  tall : rows.length = params.dim
  wide : ∀ row ∈ rows, row.length = LWE_DIM

structure Hint where
  params : Params
  seed : List UInt8
  rows : List (List Word)

structure Server where
  params : Params
  rows : List (List Nat)
  hint : Hint

structure QueryState where
  params : Params
  seed : List UInt8
  secret : List Word

def checkRow (params : Params) (entry : EntangledHVec × Nat) : Except PrivateQueryError (List Nat) := do
  checkCode entry.1 params.dim
  if params.maxRowWeight < entry.1.indices.length then
    throw (.rowTooHeavy entry.2 entry.1.indices.length params.maxRowWeight)
  else return entry.1.indices

def hintRow (matrix : PublicMatrix) (row : List Nat) : List Word :=
  row.foldl (fun out j => List.zipWith (· + ·) out (matrix.rows.getD j [])) (List.replicate LWE_DIM 0)

def Server.new (matrix : PublicMatrix) (rows : List EntangledHVec) : Except PrivateQueryError Server := do
  let rows ← rows.zipIdx.mapM (checkRow matrix.params)
  return ⟨matrix.params, rows, ⟨matrix.params, matrix.seed, rows.map (hintRow matrix)⟩⟩

def Server.answer (server : Server) (query : List Word) : Except PrivateQueryError (List Word) :=
  if query.length ≠ server.params.dim then .error (.length "query" server.params.dim query.length)
  else .ok (server.rows.map fun row => row.foldl (fun acc j => acc + query.getD j 0) 0)

def QueryState.decode (state : QueryState) (hint : Hint) (answer : List Word) : Except PrivateQueryError (List Word) :=
  if hint.params ≠ state.params ∨ hint.seed ≠ state.seed then .error .hintMismatch
  else if answer.length ≠ hint.rows.length then .error (.length "answer" hint.rows.length answer.length)
  else
    let delta := state.params.delta
    .ok (List.zipWith (fun h a => (a - dot h state.secret + delta / 2) / delta %
      BitVec.ofNat 32 state.params.plaintextModulus) hint.rows answer)

/-- A sample of the error as a word; negative ones wrap. -/
def errorWord (e : Int) : Word := if e < 0 then -BitVec.ofNat 32 e.natAbs else BitVec.ofNat 32 e.natAbs

def query (matrix : PublicMatrix) (code : EntangledHVec) (secret : List Word) (errors : Nat → Int) :
    Except PrivateQueryError (List Word × QueryState) := do
  checkCode code matrix.params.dim
  let c := (matrix.rows.map fun row => dot row secret).mapIdx fun j word => word + errorWord (errors j)
  return (code.indices.foldl (fun c j => c.modify j (· + matrix.params.delta)) c,
    ⟨matrix.params, matrix.seed, secret⟩)

theorem foldl_add (f : α → Word) (items : List α) (acc : Word) :
    items.foldl (fun acc a => acc + f a) acc = acc + (items.map f).sum := by
  induction items generalizing acc with
  | nil => simp
  | cons a items ih => simp [ih, add_assoc]

theorem dot_eq_sum (a b : List Word) : dot a b = (List.zipWith (· * ·) a b).sum := by
  rw [dot, foldl_add, zero_add, List.zip, map_zipWith]

theorem dot_add (a b s : List Word) (same : a.length = b.length) :
    dot (List.zipWith (· + ·) a b) s = dot a s + dot b s := by
  simp only [dot_eq_sum]
  induction a generalizing b s with
  | nil => cases b <;> simp at same ⊢
  | cons x a ih =>
    cases b with
    | nil => simp at same
    | cons y b =>
      cases s with
      | nil => simp
      | cons z s =>
        simp only [zipWith_cons_cons, sum_cons, ih b s (by simpa using same)]
        ring

theorem dot_zero (n : Nat) (s : List Word) : dot (List.replicate n 0) s = 0 := by
  rw [dot_eq_sum]
  induction n generalizing s with
  | zero => simp
  | succ n ih =>
    cases s with
    | nil => simp
    | cons z s => rw [replicate_succ, zipWith_cons_cons, sum_cons, ih, zero_mul, add_zero]

theorem dot_hintRow (matrix : PublicMatrix) (row : List Nat) (s : List Word)
    (inside : ∀ j ∈ row, j < matrix.params.dim) :
    dot (hintRow matrix row) s = (row.map fun j => dot (matrix.rows.getD j []) s).sum := by
  have added (out : List Word) (size : out.length = LWE_DIM) :
      dot (row.foldl (fun out j => List.zipWith (· + ·) out (matrix.rows.getD j [])) out) s =
        dot out s + (row.map fun j => dot (matrix.rows.getD j []) s).sum := by
    induction row generalizing out with
    | nil => simp
    | cons j row ih =>
      have here : j < matrix.rows.length := by rw [matrix.tall]; exact inside j (by simp)
      have wide : (matrix.rows.getD j []).length = LWE_DIM := by
        rw [getD_eq_getElem _ _ here]
        exact matrix.wide _ (getElem_mem here)
      rw [foldl_cons, ih (forall_mem_cons.mp inside).2 _
        (by rw [length_zipWith, size, wide, Nat.min_self]),
        dot_add _ _ _ (size.trans wide.symm), map_cons, sum_cons, add_assoc]
  rw [hintRow, added _ (by simp), dot_zero, zero_add]

theorem getElem?_raised (code : List Nat) (delta : Word) (v : List Word) (distinct : code.Nodup) (held : v[j]? = some word) :
    (code.foldl (fun v j => v.modify j (· + delta)) v)[j]? = some (word + if j ∈ code then delta else 0) := by
  induction code generalizing v word with
  | nil => simpa using held
  | cons i code ih =>
    obtain ⟨fresh, distinct⟩ := nodup_cons.mp distinct
    rw [foldl_cons]
    by_cases own : i = j
    · subst own
      rw [ih _ distinct (by rw [getElem?_modify, held]; simp; rfl)]
      simp [fresh]
    · rw [ih _ distinct (by rw [getElem?_modify, held]; simp [own]; rfl)]
      simp [Ne.symm own]

theorem errorWord_cast (e : Int) : errorWord e = (e : Word) := by
  rw [errorWord]
  split
  next negative =>
    obtain ⟨n, rfl⟩ := Int.exists_eq_neg_ofNat (le_of_lt negative)
    simp
  next positive =>
    obtain ⟨n, rfl⟩ := Int.eq_ofNat_of_zero_le (not_lt.mp positive)
    simp

theorem length_raised (code : List Nat) (delta : Word) (c : List Word) :
    (code.foldl (fun c j => c.modify j (· + delta)) c).length = c.length := by
  induction code generalizing c with
  | nil => rfl
  | cons j code ih => rw [foldl_cons, ih, length_modify]

theorem sum_intCast (row : List Nat) (f : Nat → Int) : ((row.map f).sum : Word) = (row.map fun j => (f j : Word)).sum := by
  induction row with
  | nil => simp
  | cons j row ih => simp [ih]

theorem new_bounds (made : Params.new dim modulus weight = .ok params) :
    params = ⟨dim, modulus, weight⟩ ∧ 0 < weight ∧ 2 ≤ modulus ∧ weight ≤ modulus - 1 ∧
      2 * (weight * ERROR_TAIL) ≤ Q / modulus - 1 := by
  rw [Params.new] at made
  split_ifs at made with outside unusable heavy
  rw [Params.rowWeightBound] at unusable heavy
  split at unusable
  · exact absurd rfl unusable
  next usable =>
    rw [if_neg usable] at heavy
    have light : weight ≤ min ((Q / modulus - 1) / (2 * ERROR_TAIL)) (modulus - 1) := by omega
    obtain ⟨margin, small⟩ := le_min_iff.mp light
    rw [Nat.le_div_iff_mul_le (by decide)] at margin
    exact ⟨(Except.ok.inj made).symm, by omega, by omega, small, by linarith⟩

theorem decode_word (made : Params.new dim modulus weight = .ok params) (few : m ≤ weight) (e : Int)
    (noise : |e| ≤ (weight * ERROR_TAIL : Nat)) :
    ((((e + (Q / modulus : Nat) * m : Int) : Word) + params.delta / 2) / params.delta % BitVec.ofNat 32 modulus).toNat =
      m := by
  obtain ⟨rfl, pos, two, small, margin⟩ := new_bounds made
  have scaled : Q / modulus * modulus ≤ 2 ^ 32 := Nat.div_mul_le_self Q modulus
  rw [Params.delta]
  generalize Q / modulus = delta at *
  obtain ⟨low, high⟩ := abs_le.mp noise
  have tail : 0 < weight * ERROR_TAIL := Nat.mul_pos pos (by decide)
  generalize weight * ERROR_TAIL = most at *
  have wide : 2 * modulus ≤ delta * modulus := Nat.mul_le_mul_right _ (by omega)
  have tall : delta * 2 ≤ delta * modulus := Nat.mul_le_mul_left _ two
  have next : delta * (m + 1) ≤ delta * modulus := Nat.mul_le_mul_left _ (by omega)
  rw [Nat.mul_add_one] at next
  obtain ⟨n, value⟩ : ∃ n : Nat, e + delta * m + (delta / 2 : Nat) = n := by
    apply Int.eq_ofNat_of_zero_le
    omega
  have inside : delta * m ≤ n ∧ n < delta * m + delta := by
    zify
    push_cast at value
    omega
  have half : BitVec.ofNat 32 delta / 2 = ((delta / 2 : Nat) : Int) := by
    apply BitVec.eq_of_toNat_eq
    have fits : delta < 2 ^ 32 := by omega
    simp
    omega
  rw [half, ← Int.cast_add, value]
  have rounded : n / delta = m := Nat.div_eq_of_lt_le (by linarith) (by linarith)
  simp only [Int.cast_natCast, BitVec.natCast_eq_ofNat, BitVec.toNat_umod, BitVec.toNat_udiv, BitVec.toNat_ofNat]
  rw [Nat.mod_eq_of_lt (by omega : n < 2 ^ 32), Nat.mod_eq_of_lt (by omega : delta < 2 ^ 32),
    Nat.mod_eq_of_lt (by omega : modulus < 2 ^ 32), rounded, Nat.mod_eq_of_lt (by omega)]

theorem checkCode_ok (code : EntangledHVec) (dim : Nat) (checked : checkCode code dim = .ok ()) :
    code.indices.Nodup ∧ ∀ j ∈ code.indices, j < dim := by
  rw [checkCode] at checked
  split_ifs at checked with apart well
  obtain ⟨chain, bounded⟩ := well
  have ascending := isChain_iff_pairwise.mp chain
  refine ⟨ascending.imp ne_of_lt, fun j member => ?_⟩
  rcases eq_nil_or_concat code.indices with none | ⟨front, last, parts⟩
  · simp [none] at member
  · rw [concat_eq_append] at parts
    rw [parts, pairwise_append] at ascending
    rw [parts] at bounded member
    have below : last < dim := by simpa using bounded
    rcases mem_append.mp member with early | own
    · exact (ascending.2.2 j early last (by simp)).trans below
    · rwa [mem_singleton.mp own]

theorem mapM_ok {f : α → Except ε β} {g : α → β} {P : α → Prop} {items : List α} (each : ∀ a b, f a = .ok b → b = g a ∧ P a)
    (ran : items.mapM f = .ok results) : results = items.map g ∧ ∀ a ∈ items, P a := by
  have all := mapM_eq_ok.mp ran
  clear ran
  induction all with
  | nil => simp
  | cons own _ ih =>
    obtain ⟨rfl, holds⟩ := each _ _ own
    exact ⟨by rw [map_cons, ih.1], by simpa [holds] using ih.2⟩

theorem new_rows (built : Server.new matrix rows = .ok server) :
    server = ⟨matrix.params, rows.map (·.indices),
      ⟨matrix.params, matrix.seed, (rows.map (·.indices)).map (hintRow matrix)⟩⟩ ∧
    ∀ row ∈ rows, row.indices.Nodup ∧ (∀ j ∈ row.indices, j < matrix.params.dim) ∧
      row.indices.length ≤ matrix.params.maxRowWeight := by
  obtain ⟨kept, checked, done⟩ := bind_eq_ok.mp built
  obtain ⟨rfl, good⟩ := mapM_ok (g := fun entry => entry.1.indices) (P := fun entry => entry.1.indices.Nodup ∧
    (∀ j ∈ entry.1.indices, j < matrix.params.dim) ∧ entry.1.indices.length ≤ matrix.params.maxRowWeight)
    (by
      intro entry row accepted
      obtain ⟨_, code, rest⟩ := bind_eq_ok.mp accepted
      split_ifs at rest with heavy
      obtain ⟨distinct, inside⟩ := checkCode_ok _ _ code
      exact ⟨(Except.ok.inj rest).symm, distinct, inside, not_lt.mp heavy⟩) checked
  have same : (rows.zipIdx.map fun entry => entry.1.indices) = rows.map (·.indices) := by
    conv_rhs => rw [← zipIdx_map_fst 0 rows, map_map]
    rfl
  refine ⟨by rw [← same]; exact (Except.ok.inj done).symm, fun row member => ?_⟩
  rw [← zipIdx_map_fst 0 rows] at member
  obtain ⟨entry, listed, rfl⟩ := mem_map.mp member
  exact good entry listed

theorem query_word (asked : query matrix code secret errors = .ok (words, state)) (inside : j < matrix.params.dim) :
    words.getD j 0 = dot (matrix.rows.getD j []) secret +
      ((errors j + if j ∈ code.indices then (matrix.params.delta.toNat : Int) else 0 : Int) : Word) := by
  obtain ⟨_, checked, done⟩ := bind_eq_ok.mp asked
  obtain ⟨rfl, -⟩ := Prod.mk.inj (Except.ok.inj done)
  have here : j < matrix.rows.length := by rwa [matrix.tall]
  have held := getElem?_raised code.indices matrix.params.delta
    ((matrix.rows.map fun row => dot row secret).mapIdx fun j word => word + errorWord (errors j))
    (checkCode_ok _ _ checked).1 (j := j) (by rw [getElem?_mapIdx, getElem?_map, getElem?_eq_getElem here]; rfl)
  rw [getD_eq_getElem?_getD, held, getD_eq_getElem _ _ here, Option.getD_some, errorWord_cast, add_assoc]
  push_cast
  split <;> simp

theorem sum_scaled (delta : Int) (row code : List Nat) (errors : Nat → Int) :
    (row.map fun j => errors j + if j ∈ code then delta else 0).sum =
      (row.map errors).sum + delta * (row.filter (· ∈ code)).length := by
  induction row with
  | nil => simp
  | cons j row ih =>
    by_cases member : j ∈ code
    · simp [ih, member]
      ring
    · simp [ih, member]
      ring

theorem noise_le (row : List Nat) (errors : Nat → Int) (small : ∀ j, |errors j| ≤ ERROR_TAIL) :
    |(row.map errors).sum| ≤ (row.length * ERROR_TAIL : Nat) := by
  induction row with
  | nil => simp
  | cons j row ih =>
    rw [map_cons, sum_cons, length_cons, Nat.add_one_mul]
    push_cast at ih ⊢
    exact (abs_add_le _ _).trans (by linarith [small j])

theorem noisy_row (made : Params.new dim modulus weight = .ok matrix.params)
    (asked : query matrix code secret errors = .ok (words, state)) (row : List Nat)
    (inside : ∀ j ∈ row, j < matrix.params.dim) :
    row.foldl (fun acc j => acc + words.getD j 0) 0 - dot (hintRow matrix row) secret =
      (((row.map errors).sum + (Q / modulus : Nat) * (row.filter (· ∈ code.indices)).length : Int) : Word) := by
  obtain ⟨params, pos, two, -⟩ := new_bounds made
  have delta : matrix.params.delta.toNat = Q / modulus := by
    have fits : Q / modulus < 2 ^ 32 := Nat.div_lt_self (by decide) two
    rw [Params.delta, params, BitVec.toNat_ofNat, Nat.mod_eq_of_lt fits]
  rw [foldl_add, zero_add, dot_hintRow matrix row secret inside,
    map_congr_left fun j member => query_word asked (inside j member), sum_map_add, add_sub_cancel_left,
    ← sum_intCast, sum_scaled, delta]

theorem card_inter (row code : List Nat) (distinct : row.Nodup) :
    (row.toFinset ∩ code.toFinset).card = (row.filter (· ∈ code)).length := by
  rw [← toFinset_card_of_nodup (distinct.filter _)]
  congr 1
  ext j
  simp

/-- Every score comes back exactly. -/
theorem decode_exact (made : Params.new dim modulus weight = .ok matrix.params)
    (built : Server.new matrix rows = .ok server) (asked : query matrix code secret errors = .ok (words, state))
    (small : ∀ j, |errors j| ≤ ERROR_TAIL) :
    ∃ answer scores, server.answer words = .ok answer ∧ state.decode server.hint answer = .ok scores ∧
      scores.map BitVec.toNat = rows.map fun row => (row.indices.toFinset ∩ code.indices.toFinset).card := by
  obtain ⟨rfl, good⟩ := new_rows built
  have params := (new_bounds made).1
  have noisy := noisy_row made asked
  obtain ⟨_, checked, done⟩ := bind_eq_ok.mp asked
  obtain ⟨held, rfl⟩ := Prod.mk.inj (Except.ok.inj done)
  have size : words.length = matrix.params.dim := by
    rw [← held, length_raised, length_mapIdx, length_map, matrix.tall]
  refine ⟨_, _, if_neg (not_not.mpr size), (if_neg (by simp)).trans (if_neg (by simp)), ?_⟩
  rw [zipWith_map, zipWith_self, map_map, map_map]
  refine map_congr_left fun row member => ?_
  obtain ⟨distinct, inside, light⟩ := good row member
  have weight_eq : matrix.params.maxRowWeight = weight := by rw [params]
  have modulus_eq : matrix.params.plaintextModulus = modulus := by rw [params]
  rw [weight_eq] at light
  have few := (length_filter_le (· ∈ code.indices) row.indices).trans light
  have noise := (noise_le row.indices errors small).trans
    (Int.ofNat_le.mpr (Nat.mul_le_mul_right ERROR_TAIL light))
  simp only [Function.comp_apply, noisy row.indices inside, modulus_eq, card_inter _ _ distinct]
  exact decode_word made few _ noise

def zeros : PublicMatrix := ⟨⟨1, 1024, 1023⟩, [], [List.replicate LWE_DIM 0], rfl, by simp⟩

/-- One row of one index, with the largest error against it. -/
theorem decode_exact_one :
    ∃ server words state answer scores, Server.new zeros [⟨1, [0]⟩] = .ok server ∧
      query zeros ⟨1, [0]⟩ [5] (fun _ => -77) = .ok (words, state) ∧ server.answer words = .ok answer ∧
      state.decode server.hint answer = .ok scores ∧ scores.map BitVec.toNat = [1] := by
  obtain ⟨answer, scores, answered, decoded, exact⟩ :=
    @decode_exact 1 1024 1023 zeros [⟨1, [0]⟩] _ ⟨1, [0]⟩ [5] (fun _ => -77) _ _ rfl rfl rfl fun _ => by decide
  exact ⟨_, _, _, answer, scores, rfl, rfl, answered, decoded, exact⟩

end Warm.PrivateQuery
