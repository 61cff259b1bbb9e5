import Warm.Document
import Warm.JournalFrame
import Mathlib.Data.List.Sort
import Mathlib.Data.List.Dedup

/-! The term dictionary of a binary frame: the distinct terms of its documents in byte order, each
written as what it shares with the one before and the rest. -/
namespace Warm.Binary

open List

open Journal (maxRawFrameSize)

def termLe (a b : String) : Bool := decide (utf8 a ≤ utf8 b)

def documentTerms (documents : List StoredDocument) : List String :=
  documents.flatMap fun document => document.chunks.flatMap fun chunk => chunk.terms.keys

/-- The distinct terms sorted, and the dictionary id of every (chunk, term). -/
structure FrameTerms where
  sorted : List String
  ids : List Nat
  deriving DecidableEq, Repr

namespace FrameTerms

def new (documents : List StoredDocument) : FrameTerms :=
  let terms := documentTerms documents
  let sorted := terms.dedup.mergeSort termLe
  ⟨sorted, terms.map (sorted.idxOf ·)⟩

/-- The number of leading bytes two terms share. -/
def shared (previous term : Bytes) : Nat := ((previous.zip term).takeWhile fun pair => pair.1 == pair.2).length

def writeEntries (previous : Bytes) : List String → Bytes
  | [] => []
  | term :: rest =>
    let common := shared previous (utf8 term)
    putVarint common ++ (putBytes ((utf8 term).drop common) ++ writeEntries (utf8 term) rest)

def write (terms : FrameTerms) : Bytes := putVarint terms.sorted.length ++ writeEntries [] terms.sorted

end FrameTerms

namespace Reader

/-- The loop of `DecodedTerms::read`; `previous` is the term before, `total` the bytes decoded so
far. The total stays below the frame limit, so a term's start always fits in 32 bits. -/
def termEntries : Nat → Option Bytes → Nat → Reader (List String)
  | 0, _, _ => pure []
  | count + 1, previous, total => do
    let before := previous.getD []
    let shared ← number 64 "shared prefix"
    ensure (shared ≤ before.length ∧ (previous.isSome ∨ shared = 0)) .termPrefix
    let suffix ← bytes
    ensure (total + shared + suffix.length ≤ maxRawFrameSize) .dictionarySize
    let term := before.take shared ++ suffix
    match fromUtf8 term with
    | none => throw .termNotUtf8
    | some text => do
      ensure (previous.all (fun before => decide (before < term)) = true) .termOrder
      let rest ← termEntries count (some term) (total + term.length)
      pure (text :: rest)

/-- `DecodedTerms::read`. -/
def decodedTerms : Reader (List String) := do
  let count ← count 2
  termEntries count none 0

end Reader

namespace FrameTerms

theorem sorted_perm (documents : List StoredDocument) :
    (new documents).sorted.Perm (documentTerms documents).dedup :=
  mergeSort_perm _ _

theorem mem_sorted (documents : List StoredDocument) (term : String) :
    term ∈ (new documents).sorted ↔ term ∈ documentTerms documents := by
  rw [(sorted_perm documents).mem_iff, List.mem_dedup]

theorem sortByKey_ascending (key : α → String) {items : List α} (distinct : (items.map key).Nodup) :
    (items.mergeSort fun a b => termLe (key a) (key b)).Pairwise fun a b => utf8 (key a) < utf8 (key b) := by
  have transitive (a b c : α) (ab : termLe (key a) (key b) = true) (bc : termLe (key b) (key c) = true) :
      termLe (key a) (key c) = true := by
    rw [termLe, decide_eq_true_eq] at *
    exact List.le_trans ab bc
  have total (a b : α) : (termLe (key a) (key b) || termLe (key b) (key a)) = true := by
    rw [Bool.or_eq_true, termLe, termLe, decide_eq_true_eq, decide_eq_true_eq]
    exact List.le_total _ _
  have ordered := pairwise_mergeSort transitive total items
  have apart := ((mergeSort_perm items fun a b => termLe (key a) (key b)).map key).nodup_iff.mpr distinct
  refine (ordered.and (pairwise_map.mp apart)).imp ?_
  intro a b ⟨below, apart⟩
  rw [termLe, decide_eq_true_eq] at below
  rcases List.le_iff_lt_or_eq.mp below with strict | same
  · exact strict
  · exact absurd (utf8_injective same) apart

theorem sorted_ascending (documents : List StoredDocument) :
    (new documents).sorted.Pairwise fun a b => utf8 a < utf8 b :=
  sortByKey_ascending id (by rw [map_id]; exact nodup_dedup _)

theorem shared_le (previous term : Bytes) : shared previous term ≤ previous.length := by
  refine Nat.le_trans (takeWhile_sublist _).length_le ?_
  rw [length_zip]
  exact Nat.min_le_left _ _

theorem take_shared (previous term : Bytes) :
    previous.take (shared previous term) = term.take (shared previous term) := by
  induction previous generalizing term with
  | nil => simp [shared]
  | cons a previous ih =>
    cases term with
    | nil => simp [shared]
    | cons b term =>
      by_cases same : a = b
      · subst same
        have counted : shared (a :: previous) (a :: term) = shared previous term + 1 := by simp [shared]
        rw [counted, take_succ_cons, take_succ_cons, ih]
      · have counted : shared (a :: previous) (b :: term) = 0 := by simp [shared, same]
        rw [counted]
        rfl

theorem rebuild (previous term : Bytes) :
    previous.take (shared previous term) ++ term.drop (shared previous term) = term := by
  rw [take_shared, take_append_drop]

end FrameTerms

/-- The bytes of the terms in full, as the decoded dictionary holds them. -/
def termBytes (terms : List String) : Nat := (terms.map String.utf8ByteSize).sum

theorem putVarint_pos (value : Nat) : 0 < (putVarint value).length := by
  rw [putVarint, putVarintFrom]
  split <;> simp

theorem writeEntries_length (previous : Bytes) (terms : List String) :
    2 * terms.length ≤ (FrameTerms.writeEntries previous terms).length := by
  induction terms generalizing previous with
  | nil => simp
  | cons term terms ih =>
    have rest := ih (utf8 term)
    have first := putVarint_pos (FrameTerms.shared previous (utf8 term))
    have second := putVarint_pos ((utf8 term).drop (FrameTerms.shared previous (utf8 term))).length
    simp only [FrameTerms.writeEntries, putBytes, length_append, length_cons]
    omega

namespace Reader

/-- Reading a written dictionary gives its terms back, unless they are longer in full than the
largest frame. -/
theorem termEntries_writeEntries (terms : List String) (previous : Option Bytes) (total : Nat) (rest : Bytes)
    (ascending : terms.Pairwise fun a b => utf8 a < utf8 b)
    (above : ∀ before ∈ previous, ∀ term ∈ terms, before < utf8 term)
    (fits : (previous.getD []).length + (FrameTerms.writeEntries (previous.getD []) terms).length < 2 ^ 64) :
    termEntries terms.length previous total (FrameTerms.writeEntries (previous.getD []) terms ++ rest) =
      if total + termBytes terms ≤ maxRawFrameSize ∨ terms = [] then .ok (terms, rest) else .error .dictionarySize := by
  induction terms generalizing previous total with
  | nil => simp [FrameTerms.writeEntries, termEntries, termBytes]; rfl
  | cons term terms ih =>
    have common := FrameTerms.shared_le (previous.getD []) (utf8 term)
    have sharedPrefix : FrameTerms.shared (previous.getD []) (utf8 term) ≤ (previous.getD []).length ∧
        (previous.isSome = true ∨ FrameTerms.shared (previous.getD []) (utf8 term) = 0) := by
      cases previous with
      | none => exact ⟨common, .inr (Nat.le_zero.mp common)⟩
      | some before => exact ⟨common, .inl rfl⟩
    have inOrder : previous.all (fun before => decide (before < utf8 term)) = true := by
      cases previous with
      | none => rfl
      | some before => exact decide_eq_true (above before rfl term (mem_cons_self ..))
    have rebuilt := FrameTerms.rebuild (previous.getD []) (utf8 term)
    have size : FrameTerms.shared (previous.getD []) (utf8 term) +
        ((utf8 term).drop (FrameTerms.shared (previous.getD []) (utf8 term))).length = term.utf8ByteSize := by
      have whole := congrArg List.length rebuilt
      rw [length_append, length_take, Nat.min_eq_left common, utf8_length] at whole
      exact whole
    simp only [FrameTerms.writeEntries, putBytes, length_append] at fits
    simp only [FrameTerms.writeEntries, length_cons, termEntries, append_assoc]
    rw [bind_ok (number_putVarint _ _ _ (by omega) (Nat.le_refl 64)), bind_ok (ensure_ok sharedPrefix _ _),
      bind_ok (bytes_putBytes _ _ (by omega))]
    have sum : termBytes (term :: terms) = term.utf8ByteSize + termBytes terms := by
      simp [termBytes]
    by_cases room : total + FrameTerms.shared (previous.getD []) (utf8 term) +
        ((utf8 term).drop (FrameTerms.shared (previous.getD []) (utf8 term))).length ≤ maxRawFrameSize
    · have longer : (utf8 term).length ≤ (previous.getD []).length +
          ((utf8 term).drop (FrameTerms.shared (previous.getD []) (utf8 term))).length := by
        rw [utf8_length]
        omega
      rw [bind_ok (ensure_ok room _ _), rebuilt, fromUtf8_utf8]
      simp only
      rw [bind_ok (ensure_ok inOrder _ _)]
      have later := ih (some (utf8 term)) (total + (utf8 term).length) (List.Pairwise.of_cons ascending)
        (by
          rintro _ ⟨⟩ other member
          exact rel_of_pairwise_cons ascending member)
        (by
          simp only [Option.getD_some]
          omega)
      rw [utf8_length, Nat.add_assoc total, ← sum] at later
      simp only [Option.getD_some] at later
      by_cases all : total + termBytes (term :: terms) ≤ maxRawFrameSize
      · rw [if_pos (.inl all)] at later
        rw [utf8_length, bind_ok later, if_pos (.inl all)]
        rfl
      · by_cases last : terms = []
        · subst last
          simp only [termBytes, map_cons, map_nil, sum_cons, sum_nil] at all
          omega
        · rw [if_neg (by simp [all, last])] at later
          rw [utf8_length, bind_error later, if_neg (by simp [all])]
    · rw [bind_error (ensure_error room _ _), if_neg]
      simp only [reduceCtorEq, or_false, sum]
      omega

theorem decodedTerms_write (documents : List StoredDocument) (rest : Bytes)
    (fits : (FrameTerms.new documents).write.length < 2 ^ 64) :
    decodedTerms ((FrameTerms.new documents).write ++ rest) =
      if termBytes (FrameTerms.new documents).sorted ≤ maxRawFrameSize
      then .ok ((FrameTerms.new documents).sorted, rest) else .error .dictionarySize := by
  generalize dictionary : FrameTerms.new documents = terms at *
  have ascending := FrameTerms.sorted_ascending documents
  rw [dictionary] at ascending
  have entries := writeEntries_length [] terms.sorted
  rw [FrameTerms.write, length_append] at fits
  have room : terms.sorted.length ≤ (FrameTerms.writeEntries [] terms.sorted ++ rest).length / max 2 1 := by
    rw [length_append, Nat.le_div_iff_mul_le (by decide)]
    simp only [Nat.max_eq_left (show 1 ≤ 2 by decide)]
    omega
  rw [decodedTerms, FrameTerms.write, append_assoc, bind_ok (count_putVarint _ _ _ (by omega) room)]
  have read := termEntries_writeEntries terms.sorted none 0 rest ascending
    (fun _ absent => nomatch absent) (by simpa using by omega)
  simp only [Option.getD_none, Nat.zero_add] at read
  rw [read]
  by_cases all : termBytes terms.sorted ≤ maxRawFrameSize
  · rw [if_pos (.inl all), if_pos all]
  · have some_term : terms.sorted ≠ [] := by
      rintro empty
      rw [empty] at all
      exact all (Nat.zero_le _)
    rw [if_neg (by simp [all, some_term]), if_neg all]

end Reader

end Warm.Binary
