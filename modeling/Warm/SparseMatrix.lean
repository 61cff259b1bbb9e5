import Warm.Bytes

/-! Sparse matrices in the `spmat` layout of a mapped file. The sizes in the header are untrusted:
their products are checked, the sums of the products are not. -/
namespace Warm.SparseImpact

open Bytes List

/-- How a reader stops: past the range of `usize`, at a slice that is not there, or with a message. -/
inductive Failure where
  | overflow
  | outOfRange
  | malformed (message : String)

structure CsrView where
  indptr : List Int
  indices : List Int
  /-- `f32` values by their bits. -/
  data : List Nat
  nDims : Nat

def add (a b : Nat) : Except Failure Nat := if a + b < 2 ^ 64 then .ok (a + b) else .error .overflow

def size (v : Int) : Except Failure Nat :=
  if 0 ≤ v then .ok v.toNat else .error (.malformed s!"negative size {v}")

/-- `n * w`, checked. -/
def span (n w : Nat) : Except Failure Nat :=
  if n * w < 2 ^ 64 then .ok (n * w) else .error (.malformed "spmat size overflows")

/-- `&items[start..stop]`. -/
def range (items : List α) (start stop : Nat) : Except Failure (List α) :=
  if start ≤ stop ∧ stop ≤ items.length then .ok ((items.drop start).take (stop - start)) else .error .outOfRange

def index (items : List α) (i : Nat) : Except Failure α :=
  match items[i]? with
  | some item => .ok item
  | none => .error .outOfRange

def int64 (data : Bytes) (i : Nat) : Int := Int.bmod (word data i + 2 ^ 32 * word data (i + 4) : Nat) (2 ^ 64)

def int32 (data : Bytes) (i : Nat) : Int := Int.bmod (word data i) (2 ^ 32)

/-- `try_cast_slice` of aligned bytes to items of `w` bytes. -/
def castSlice (w : Nat) (read : Bytes → Nat → α) (bytes : Bytes) : Except Failure (List α) :=
  if bytes.length % w = 0 then .ok ((List.range (bytes.length / w)).map fun k => read bytes (w * k))
  else .error (.malformed "misaligned section: OutputSliceWouldHaveSlop")

/-- Where the three sections end. -/
def ends (rows nnz : Nat) : Except Failure (Nat × Nat × Nat) := do
  let indptrEnd ← add 24 (← span (← add rows 1) 8)
  let indicesEnd ← add indptrEnd (← span nnz 4)
  let dataEnd ← add indicesEnd (← span nnz 4)
  return (indptrEnd, indicesEnd, dataEnd)

def sections (bytes : Bytes) (cols indptrEnd indicesEnd dataEnd : Nat) : Except Failure CsrView := do
  let indptr ← castSlice 8 int64 (← range bytes 24 indptrEnd)
  let indices ← castSlice 4 int32 (← range bytes indptrEnd indicesEnd)
  let data ← castSlice 4 word (← range bytes indicesEnd dataEnd)
  return ⟨indptr, indices, data, cols⟩

def fromSpmat (bytes : Bytes) : Except Failure CsrView :=
  if bytes.length < 24 then .error (.malformed "spmat header is truncated or misaligned")
  else do
    let rows ← size (int64 bytes 0)
    let cols ← size (int64 bytes 8)
    let nnz ← size (int64 bytes 16)
    let (indptrEnd, indicesEnd, dataEnd) ← ends rows nnz
    if bytes.length = dataEnd then sections bytes cols indptrEnd indicesEnd dataEnd
    else .error (.malformed s!"file is {bytes.length} bytes, header implies {dataEnd}")

namespace CsrView

def validate (view : CsrView) : Except Failure Nat :=
  match view.indptr.length with
  | 0 => .error (.malformed "indptr is empty")
  | rows + 1 =>
    if view.indices.length ≠ view.data.length then
      .error (.malformed s!"{view.indices.length} indices but {view.data.length} values")
    else do
      let first ← index view.indptr 0
      let last ← index view.indptr rows
      if first ≠ 0 ∨ last ≠ view.indices.length then .error (.malformed "indptr must start at 0 and end at nnz")
      else if (view.indptr.zip view.indptr.tail).any fun w => w.1 > w.2 then .error (.malformed "indptr decreases")
      else match view.indices.find? fun c => c < 0 ∨ view.nDims ≤ c.toNat with
        | some bad => .error (.malformed s!"coordinate {bad} outside [0, {view.nDims})")
        | none => .ok rows

/-- `v as usize` of an `i64`. -/
def asUsize (v : Int) : Nat := if 0 ≤ v then v.toNat else (v + 2 ^ 64).toNat

def row (view : CsrView) (r : Nat) : Except Failure (List Int × List Nat) := do
  let a := asUsize (← index view.indptr r)
  let b := asUsize (← index view.indptr (r + 1))
  return (← range view.indices a b, ← range view.data a b)

end CsrView

/-- The sizes in the header of a file that has one. -/
structure Header (bytes : Bytes) (rows cols nnz : Nat) : Prop where
  long : 24 ≤ bytes.length
  rows : int64 bytes 0 = rows
  cols : int64 bytes 8 = cols
  nnz : int64 bytes 16 = nnz

/-- Where the products fit 64 bits, so do the sums up to the end of the file. -/
def SizesFit (rows nnz : Nat) : Prop :=
  (rows + 1) * 8 < 2 ^ 64 → 24 + (rows + 1) * 8 < 2 ^ 64 ∧
    (nnz * 4 < 2 ^ 64 → 24 + (rows + 1) * 8 + nnz * 4 + nnz * 4 < 2 ^ 64)

def SumsFit (bytes : Bytes) : Prop := ∀ rows cols nnz, Header bytes rows cols nnz → SizesFit rows nnz

/-- The view has the sizes of the header, which make up the length of the file. -/
def Whole (bytes : Bytes) (view : CsrView) : Prop :=
  ∃ rows nnz, Header bytes rows view.nDims nnz ∧ view.indptr.length = rows + 1 ∧ view.indices.length = nnz ∧
    view.data.length = nnz ∧ bytes.length = 24 + (rows + 1) * 8 + nnz * 4 + nnz * 4

/-- Read and validated with messages for all that is refused. -/
structure ReadSafely (bytes : Bytes) : Prop where
  refused : ∀ failure, (fromSpmat bytes >>= CsrView.validate) = .error failure → ∃ message, failure = .malformed message
  accepted : ∀ view, fromSpmat bytes = .ok view → Whole bytes view

theorem range_ok (items : List α) (ordered : start ≤ stop) (inside : stop ≤ items.length) :
    ∃ part, range items start stop = .ok part ∧ part.length = stop - start := by
  refine ⟨_, if_pos ⟨ordered, inside⟩, ?_⟩
  rw [length_take, length_drop]
  omega

theorem castSlice_ok (w : Nat) (read : Bytes → Nat → α) (whole : bytes.length = n * w) (some_ : 0 < w) :
    ∃ items, castSlice w read bytes = .ok items ∧ items.length = n := by
  refine ⟨_, if_pos (by rw [whole]; exact Nat.mul_mod_left n w), ?_⟩
  rw [length_map, length_range, whole, Nat.mul_div_cancel n some_]

/-- The sums overflow, or they fit and the ends are where they say unless a product overflows. -/
theorem ends_outcome (small : rows < 2 ^ 63) (nnz : Nat) :
    ¬SizesFit rows nnz ∧ ends rows nnz = .error .overflow ∨ SizesFit rows nnz ∧
      ((∃ message, ends rows nnz = .error (.malformed message)) ∨ ends rows nnz =
        .ok (24 + (rows + 1) * 8, 24 + (rows + 1) * 8 + nnz * 4, 24 + (rows + 1) * 8 + nnz * 4 + nnz * 4)) := by
  have one : rows + 1 < 2 ^ 64 := by omega
  unfold SizesFit
  simp only [ends, add, span, one, ↓reduceIte, bind, Except.bind, pure, Except.pure]
  by_cases rowsFit : (rows + 1) * 8 < 2 ^ 64
  swap
  · exact .inr ⟨fun fits => absurd fits rowsFit, .inl ⟨"spmat size overflows", by simp only [rowsFit, ↓reduceIte]⟩⟩
  simp only [rowsFit, ↓reduceIte, forall_const]
  by_cases first : 24 + (rows + 1) * 8 < 2 ^ 64
  swap
  · exact .inl ⟨fun fits => first fits.1, by simp only [first, ↓reduceIte]⟩
  simp only [first, ↓reduceIte, true_and]
  by_cases nnzFit : nnz * 4 < 2 ^ 64
  swap
  · exact .inr ⟨fun fits => absurd fits nnzFit, .inl ⟨"spmat size overflows", by simp only [nnzFit, ↓reduceIte]⟩⟩
  simp only [nnzFit, ↓reduceIte, forall_const]
  by_cases last : 24 + (rows + 1) * 8 + nnz * 4 + nnz * 4 < 2 ^ 64
  · have second : 24 + (rows + 1) * 8 + nnz * 4 < 2 ^ 64 := by omega
    exact .inr ⟨last, .inr (by simp only [second, last, ↓reduceIte])⟩
  · refine .inl ⟨last, ?_⟩
    by_cases second : 24 + (rows + 1) * 8 + nnz * 4 < 2 ^ 64
    · simp only [second, last, ↓reduceIte]
    · simp only [second, ↓reduceIte]

theorem sections_whole (header : Header bytes rows cols nnz)
    (length : bytes.length = 24 + (rows + 1) * 8 + nnz * 4 + nnz * 4) :
    ∃ view, sections bytes cols (24 + (rows + 1) * 8) (24 + (rows + 1) * 8 + nnz * 4)
      (24 + (rows + 1) * 8 + nnz * 4 + nnz * 4) = .ok view ∧ Whole bytes view := by
  obtain ⟨part, first, size⟩ := range_ok bytes (Nat.le_add_right 24 ((rows + 1) * 8)) (by omega)
  obtain ⟨part', second, size'⟩ := range_ok bytes (Nat.le_add_right (24 + (rows + 1) * 8) (nnz * 4)) (by omega)
  obtain ⟨part'', third, size''⟩ :=
    range_ok bytes (Nat.le_add_right (24 + (rows + 1) * 8 + nnz * 4) (nnz * 4)) (by omega)
  rw [Nat.add_sub_cancel_left] at size size' size''
  obtain ⟨indptr, own, count⟩ := castSlice_ok 8 int64 size (by omega)
  obtain ⟨indices, own', count'⟩ := castSlice_ok 4 int32 size' (by omega)
  obtain ⟨data, own'', count''⟩ := castSlice_ok 4 word size'' (by omega)
  refine ⟨⟨indptr, indices, data, cols⟩, ?_, rows, nnz, header, count, count', count'', length⟩
  simp only [sections, first, second, third, own, own', own'', bind, Except.bind, pure, Except.pure]

theorem size_cases (v : Int) : (∀ n : Nat, v ≠ n) ∧ (∃ message, size v = .error (.malformed message)) ∨
    ∃ n : Nat, v = n ∧ size v = .ok n := by
  by_cases own : 0 ≤ v
  · obtain ⟨n, rfl⟩ := Int.eq_ofNat_of_zero_le own
    exact .inr ⟨n, rfl, if_pos own⟩
  · exact .inl ⟨fun n same => own (same ▸ Int.natCast_nonneg n), _, if_neg own⟩

/-- A file overflows a sum, or it is refused with a message or read whole. -/
theorem fromSpmat_outcome (bytes : Bytes) :
    ¬SumsFit bytes ∧ fromSpmat bytes = .error .overflow ∨ SumsFit bytes ∧
      ((∃ message, fromSpmat bytes = .error (.malformed message)) ∨ ∃ view, fromSpmat bytes = .ok view ∧ Whole bytes view) := by
  unfold fromSpmat
  by_cases short : bytes.length < 24
  · exact .inr ⟨fun _ _ _ header => absurd header.long (by omega), .inl ⟨_, if_pos short⟩⟩
  rw [if_neg short]
  rcases size_cases (int64 bytes 0) with ⟨none, message, refused⟩ | ⟨rows, rowsEq, sized⟩
  · exact .inr ⟨fun rows _ _ header => absurd header.rows (none rows), .inl ⟨message, by rw [refused]; rfl⟩⟩
  rcases size_cases (int64 bytes 8) with ⟨none, message, refused⟩ | ⟨cols, colsEq, sized'⟩
  · exact .inr ⟨fun _ cols _ header => absurd header.cols (none cols), .inl ⟨message, by rw [sized, refused]; rfl⟩⟩
  rcases size_cases (int64 bytes 16) with ⟨none, message, refused⟩ | ⟨nnz, nnzEq, sized''⟩
  · exact .inr ⟨fun _ _ nnz header => absurd header.nnz (none nnz), .inl ⟨message, by rw [sized, sized', refused]; rfl⟩⟩
  have header : Header bytes rows cols nnz := ⟨by omega, rowsEq, colsEq, nnzEq⟩
  have fits : SumsFit bytes ↔ SizesFit rows nnz := by
    refine ⟨fun all => all rows cols nnz header, fun fits rows' cols' nnz' other => ?_⟩
    rw [Int.ofNat.inj (other.rows.symm.trans rowsEq), Int.ofNat.inj (other.nnz.symm.trans nnzEq)]
    exact fits
  have small : rows < 2 ^ 63 := by
    have bound : int64 bytes 0 < (2 ^ 64 + 1) / 2 := Int.bmod_lt (by decide)
    omega
  rw [fits, sized, sized', sized'']
  rcases ends_outcome small nnz with ⟨large, stopped⟩ | ⟨small, ⟨message, stopped⟩ | stops⟩
  · exact .inl ⟨large, by simp only [stopped, bind, Except.bind]⟩
  · exact .inr ⟨small, .inl ⟨message, by simp only [stopped, bind, Except.bind]⟩⟩
  · refine .inr ⟨small, ?_⟩
    simp only [stops, bind, Except.bind]
    by_cases length : bytes.length = 24 + (rows + 1) * 8 + nnz * 4 + nnz * 4
    · rw [if_pos length]
      exact .inr (sections_whole header length)
    · exact .inl ⟨_, if_neg length⟩

/-- What `validate` checks of a view. -/
structure Valid (view : CsrView) (rows : Nat) : Prop where
  length : view.indptr.length = rows + 1
  data : view.indices.length = view.data.length
  first : view.indptr[0]? = some 0
  last : view.indptr[rows]? = some (view.indices.length : Int)
  ascending : ∀ r a b : _, view.indptr[r]? = some a → view.indptr[r + 1]? = some b → a ≤ b
  inside : ∀ c ∈ view.indices, 0 ≤ c ∧ c < view.nDims

theorem validate_outcome (view : CsrView) :
    (∃ message, view.validate = .error (.malformed message)) ∨ ∃ rows, view.validate = .ok rows ∧ Valid view rows := by
  unfold CsrView.validate
  split
  next => exact .inl ⟨_, rfl⟩
  next rows length =>
    split
    next => exact .inl ⟨_, rfl⟩
    next data =>
      have first := getElem?_eq_getElem (show 0 < view.indptr.length by omega)
      have last := getElem?_eq_getElem (show rows < view.indptr.length by omega)
      simp only [index, first, last, bind, Except.bind]
      split
      next => exact .inl ⟨_, rfl⟩
      next edges =>
        obtain ⟨zero, nnz⟩ := not_or.mp edges
        split
        next => exact .inl ⟨_, rfl⟩
        next ascending =>
          split
          next => exact .inl ⟨_, rfl⟩
          next inside =>
            refine .inr ⟨rows, rfl, length, not_not.mp data, first.trans (congrArg some (not_not.mp zero)),
              last.trans (congrArg some (not_not.mp nnz)), ?_, ?_⟩
            · intro r a b before after
              by_contra falls
              refine ascending (any_eq_true.mpr ⟨(a, b), mem_iff_getElem?.mpr ⟨r, ?_⟩, decide_eq_true (not_le.mp falls)⟩)
              rw [getElem?_zip_eq_some, getElem?_tail]
              exact ⟨before, after⟩
            · intro c member
              have fine := find?_eq_none.mp inside c member
              rw [decide_eq_true_eq, not_or] at fine
              omega

/-- The offset of row `r`. -/
def offset (view : CsrView) (r : Nat) : Nat := (view.indptr.getD r 0).toNat

/-- The entries of row `r` in a list of all. -/
def entries (view : CsrView) (r : Nat) (items : List α) : List α :=
  (items.drop (offset view r)).take (offset view (r + 1) - offset view r)

theorem Valid.offsets (valid : Valid view rows) {r : Nat} (inside : r ≤ rows) :
    view.indptr[r]? = some (offset view r : Int) ∧ offset view r ≤ view.indices.length := by
  have below (r : Nat) (inside : r ≤ rows) : ∃ v, view.indptr[r]? = some v ∧ 0 ≤ v := by
    induction r with
    | zero => exact ⟨0, valid.first, le_refl 0⟩
    | succ r ih =>
      obtain ⟨v, own, positive⟩ := ih (by omega)
      have next := getElem?_eq_getElem (show r + 1 < view.indptr.length by rw [valid.length]; omega)
      exact ⟨_, next, positive.trans (valid.ascending r _ _ own next)⟩
  have above (k : Nat) (inside : k ≤ rows) : ∃ v, view.indptr[rows - k]? = some v ∧ v ≤ view.indices.length := by
    induction k with
    | zero => exact ⟨_, valid.last, le_refl _⟩
    | succ k ih =>
      obtain ⟨v, own, bounded⟩ := ih (by omega)
      obtain ⟨before, at_, -⟩ := below (rows - (k + 1)) (by omega)
      rw [show rows - k = rows - (k + 1) + 1 by omega] at own
      exact ⟨before, at_, (valid.ascending _ _ _ at_ own).trans bounded⟩
  obtain ⟨v, own, positive⟩ := below r inside
  obtain ⟨v', own', bounded⟩ := above (rows - r) (by omega)
  rw [Nat.sub_sub_self inside, own] at own'
  obtain rfl := Option.some.inj own'
  have same : (offset view r : Int) = v := by
    rw [offset, getD_eq_getElem?_getD, own]
    exact Int.toNat_of_nonneg positive
  rw [same]
  exact ⟨own, by omega⟩

theorem Valid.row (valid : Valid view rows) {r : Nat} (inside : r < rows) :
    view.row r = .ok (entries view r view.indices, entries view r view.data) := by
  obtain ⟨own, -⟩ := valid.offsets inside.le
  obtain ⟨next, bounded⟩ := valid.offsets (show r + 1 ≤ rows from inside)
  have ordered := valid.ascending r _ _ own next
  have part {α : Type} (items : List α) (length : items.length = view.indices.length) :
      range items (offset view r) (offset view (r + 1)) = .ok (entries view r items) := if_pos (by omega)
  have exact_ (n : Nat) : CsrView.asUsize n = n := if_pos (Int.natCast_nonneg n)
  simp only [CsrView.row, index, own, next, bind, Except.bind, exact_, part view.indices rfl,
    part view.data valid.data.symm, pure, Except.pure]

/-- The rows are the entries, one row after the other. -/
theorem Valid.cover (valid : Valid view rows) (items : List α) (length : items.length = view.indices.length) :
    ((List.range rows).map fun r => entries view r items).flatten = items := by
  have upto (n : Nat) (inside : n ≤ rows) :
      ((List.range n).map fun r => entries view r items).flatten = items.take (offset view n) := by
    induction n with
    | zero =>
      have zero : offset view 0 = 0 := by simp [offset, getD_eq_getElem?_getD, valid.first]
      rw [zero]
      rfl
    | succ n ih =>
      have ordered := valid.ascending n _ _ (valid.offsets (by omega)).1 (valid.offsets inside).1
      rw [range_succ, map_append, flatten_append, ih (by omega), map_singleton, flatten_singleton, entries, ← take_add]
      congr 1
      omega
  have whole : offset view rows = items.length := by
    have last := (valid.offsets le_rfl).1
    rw [valid.last] at last
    exact length.trans (Int.ofNat.inj (Option.some.inj last)) |>.symm
  rw [upto rows le_rfl, whole, take_length]

theorem ReadSafely.fits (safe : ReadSafely bytes) : SumsFit bytes := by
  rcases fromSpmat_outcome bytes with ⟨-, stopped⟩ | ⟨fits, -⟩
  · obtain ⟨message, wrong⟩ := safe.refused .overflow (by rw [stopped]; rfl)
    contradiction
  · exact fits

/-- A file is read without overflow and without a slice out of range exactly if its sums fit; the rows of a view that
passes its checks are in range, and together they are its entries. -/
theorem fromSpmat_safe (bytes : Bytes) : (ReadSafely bytes ↔ SumsFit bytes) ∧
    ∀ (view : CsrView) (rows : Nat), view.validate = .ok rows → ∃ parts : Nat → List Int × List Nat,
      (∀ r < rows, view.row r = .ok (parts r) ∧ ∀ c ∈ (parts r).1, 0 ≤ c ∧ c < view.nDims) ∧
      ((List.range rows).map fun r => (parts r).1).flatten = view.indices ∧
      ((List.range rows).map fun r => (parts r).2).flatten = view.data := by
  constructor
  · constructor
    · exact ReadSafely.fits
    · intro fits
      rcases fromSpmat_outcome bytes with ⟨large, -⟩ | ⟨-, ⟨message, refused⟩ | ⟨view, read, whole⟩⟩
      · exact absurd fits large
      · refine ⟨fun failure stopped => ⟨message, ?_⟩, fun view read => ?_⟩
        · rw [refused] at stopped
          exact (Except.error.inj stopped).symm
        · rw [refused] at read
          contradiction
      · refine ⟨fun failure stopped => ?_, fun view' read' => ?_⟩
        · rw [read] at stopped
          rcases validate_outcome view with ⟨message, refused⟩ | ⟨rows, passed, -⟩
          · exact ⟨message, Except.error.inj (stopped.symm.trans refused)⟩
          · exact absurd (passed.symm.trans stopped) (by simp)
        · rw [read] at read'
          exact Except.ok.inj read' ▸ whole
  · intro view rows passed
    rcases validate_outcome view with ⟨message, refused⟩ | ⟨rows', passed', valid⟩
    · exact absurd (passed.symm.trans refused) (by simp)
    obtain rfl := Except.ok.inj (passed'.symm.trans passed)
    refine ⟨fun r => (entries view r view.indices, entries view r view.data), ?_, valid.cover view.indices rfl,
      valid.cover view.data valid.data.symm⟩
    intro r inside
    exact ⟨valid.row inside, fun c member => valid.inside c (mem_of_mem_drop (mem_of_mem_take member))⟩

/-- A header of 2^61 - 2 rows and one entry, and nothing behind it. -/
theorem fromSpmat_wraps : ¬ReadSafely
    ([0xFE, 0xFF, 0xFF, 0xFF, 0xFF, 0xFF, 0xFF, 0x1F, 0, 0, 0, 0, 0, 0, 0, 0, 1, 0, 0, 0, 0, 0, 0, 0] : Bytes) := by
  intro safe
  have fits := safe.fits (2 ^ 61 - 2) 0 1 ⟨by decide, by decide, by decide, by decide⟩ (by decide)
  exact absurd fits.1 (by decide)

end Warm.SparseImpact
