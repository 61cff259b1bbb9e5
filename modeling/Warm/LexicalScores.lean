import Warm.LexicalNorms

/-! The scores a query adds up: whatever the scratch was before, every slot's score is the sum over the query's postings, and
the slots a sparse query records are the ones it gave a score. -/
namespace Warm.Lexical

open List hiding after all length min sum

open Panics
open Leads (bind foldlM get_bind ite of_known pure)

section Spec

variable (F : Floats) (store : LexicalSource) (prepared : PreparedSearch)

def addVisit (slot : Nat) (total : UInt64) (visit : UInt64 × Option (Nat × Nat)) : UInt64 :=
  match visit.2 with
  | some (at', frequency) =>
    if at' = slot then
      F.add total (prepared.bm25.weight F visit.1 (F.ofNat frequency) ((normOf F store prepared.bm25 slot).getD 0))
    else total
  | none => total

/-- The sum of the weights of a slot's postings in the order of the query's terms, from zero. -/
def total (visits : List (UInt64 × Option (Nat × Nat))) (slot : Nat) : UInt64 :=
  visits.foldl (addVisit F store prepared slot) 0

/-- The BM25 score of a slot for the query. -/
def score (slot : Nat) : UInt64 :=
  total F store prepared (visits ((lists F store (terms prepared)).getD [])) slot

/-- `0.0 < score`, which holds of the infinite score and not of NaN. -/
def isPositive (bits : UInt64) : Bool := 0 < bits && bits ≤ infinity

/-- What a query is to return: the first `limit` of the slots with a positive score. -/
def ranking : List (UInt64 × Nat) :=
  let scored := (List.range store.slotCount).map fun slot => (score F store prepared slot, slot)
  topRanked store prepared.limit (scored.filter fun item => isPositive item.1)

/-- A posting list passes on its `len` postings. -/
def PostingSet.Whole (slots : Nat) (list : PostingSet) : Prop :=
  list.reads.length = list.len ∧ ∀ read ∈ list.reads, ∃ slot frequency, read = some (slot, frequency) ∧ slot < slots

def Posted (slot : Nat) : Prop :=
  ∃ term ∈ terms prepared, ∃ list, store.postings term.1 term.2 = some (some list) ∧ ∃ frequency, some (slot, frequency) ∈ list.reads

/-- A store whose calls return for the query, with one chunk in each posted slot, and a limit that `prepare_search` accepts. -/
structure Serves : Prop where
  limit : 0 < prepared.limit
  counted : ∀ slot < store.slotCount, store.slotWordCount slot ≠ none
  listed : ∀ term ∈ terms prepared, ∃ found, store.postings term.1 term.2 = some found ∧
    ∀ list, found = some list → list.Whole store.slotCount
  placed : ∀ slot, Posted store prepared slot → store.slotOrder slot ≠ none
  distinct : ∀ a b, Posted store prepared a → Posted store prepared b → store.slotOrder a = store.slotOrder b → a = b

end Spec

variable {F : Floats} {stores : Set LexicalSource} {store : LexicalSource} {prepared : PreparedSearch} {scratch : LexicalScratch} {α : Type}

section Lists

variable {all found : List (Nat × String)} {collected : List (UInt64 × PostingSet)}

theorem lists_some (listed : ∀ term ∈ all, ∃ found, store.postings term.1 term.2 = some found) :
    ∃ collected, lists F store all = some collected := by
  induction all with
  | nil => exact ⟨[], rfl⟩
  | cons term rest ih =>
    obtain ⟨later, rest'⟩ := ih (forall_mem_cons.mp listed).2
    obtain ⟨found, read⟩ := listed term mem_cons_self
    simp only [lists, read, rest', Option.bind_eq_bind, Option.bind_some]
    cases found with
    | none => exact ⟨later, rfl⟩
    | some list => exact ⟨_, rfl⟩

theorem mem_lists (read : lists F store all = some collected) (member : item ∈ collected) :
    ∃ term ∈ all, store.postings term.1 term.2 = some (some item.2) := by
  induction all generalizing collected with
  | nil =>
    cases read
    cases member
  | cons term rest ih =>
    simp only [lists, Option.bind_eq_bind, Option.bind_eq_some_iff] at read
    obtain ⟨found, own, read⟩ := read
    cases found with
    | none =>
      obtain ⟨other, inside, owned⟩ := ih read member
      exact ⟨other, mem_cons_of_mem _ inside, owned⟩
    | some list =>
      simp only [Option.bind_eq_some_iff] at read
      obtain ⟨later, rest', made⟩ := read
      cases made
      rcases mem_cons.mp member with rfl | old
      · exact ⟨term, mem_cons_self, own⟩
      · obtain ⟨other, inside, owned⟩ := ih rest' old
        exact ⟨other, mem_cons_of_mem _ inside, owned⟩

theorem mem_visits (member : visit ∈ visits collected) : ∃ list ∈ collected, visit.2 ∈ list.2.reads := by
  obtain ⟨list, inside, made⟩ := mem_flatMap.mp member
  obtain ⟨read, own, rfl⟩ := mem_map.mp made
  exact ⟨list, inside, own⟩

theorem postingTotal_eq (lists : List (UInt64 × PostingSet)) :
    postingTotal lists = min (lists.map fun list => list.2.len).sum (2 ^ 64 - 1) := by
  have run (total : Nat) : lists.foldl (fun total list => min (total + list.2.len) (2 ^ 64 - 1)) (min total (2 ^ 64 - 1)) =
      min (total + (lists.map fun list => list.2.len).sum) (2 ^ 64 - 1) := by
    induction lists generalizing total with
    | nil => simp
    | cons list rest ih =>
      have next : min (min total (2 ^ 64 - 1) + list.2.len) (2 ^ 64 - 1) = min (total + list.2.len) (2 ^ 64 - 1) := by omega
      rw [foldl_cons, next, ih, map_cons, sum_cons, Nat.add_assoc]
  have whole := run 0
  rw [Nat.zero_min, Nat.zero_add] at whole
  exact whole

theorem visits_length (whole : ∀ list ∈ collected, list.2.reads.length = list.2.len)
    (sparse : isDense store collected = false) : (visits collected).length = postingTotal collected := by
  have few : ¬store.slotCount / 2 ≤ postingTotal collected := of_decide_eq_false sparse
  have fits := store.fits
  have sum : (visits collected).length = (collected.map fun list => list.2.len).sum := by
    rw [visits, length_flatMap]
    congr 1
    apply map_congr_left
    intro list member
    rw [length_map, whole list member]
  rw [postingTotal_eq] at few ⊢
  omega

end Lists

theorem demand_bind (given : ∀ value, found = some value → Leads (· = scratch) (rest value) after failed)
    (missing : found = none → failed scratch) : Leads (· = scratch) (demand found >>= rest) after failed := by
  cases found with
  | none =>
    rintro _ rfl
    exact missing rfl
  | some value => exact given value rfl

theorem demand_known (given : ∀ value, found = some value → after value scratch)
    (missing : found = none → failed scratch) : Leads (· = scratch) (demand found) after failed := by
  rintro _ rfl
  cases found with
  | none => exact missing rfl
  | some value => exact given value rfl

section Adding

variable {done : List (UInt64 × Option (Nat × Nat))} {visit : UInt64 × Option (Nat × Nat)} {slot frequency : Nat}

theorem total_append (at' : Nat) : total F store prepared (done ++ [visit]) at' =
    addVisit F store prepared at' (total F store prepared done at') visit := by
  rw [total, foldl_append, foldl_cons, foldl_nil, total]

/-- The scores are the sums over the visits that are done. -/
def AreTotals (F : Floats) (store : LexicalSource) (prepared : PreparedSearch) (done : List (UInt64 × Option (Nat × Nat)))
    (scores : List UInt64) : Prop :=
  ∀ (slot : Nat) score, scores[slot]? = some score → score = total F store prepared done slot

theorem AreTotals.add (sums : AreTotals F store prepared done scores) (read : visit.2 = some (slot, frequency))
    {norm : UInt64} (own : scores[slot]? = some old) (normed : normOf F store prepared.bm25 slot = some norm) :
    AreTotals F store prepared (done ++ [visit])
      (scores.set slot (F.add old (prepared.bm25.weight F visit.1 (F.ofNat frequency) norm))) := by
  intro at' score written
  rw [total_append, addVisit, read]
  dsimp only
  by_cases same : slot = at'
  · rw [← same, getElem?_set_self (List.getElem?_eq_some_iff.mp own).1, Option.some.injEq] at written
    rw [if_pos same, ← same, ← sums slot old own, normed, Option.getD_some, written]
  · rw [getElem?_set_ne same] at written
    rw [if_neg same]
    exact sums at' score written

/-- Only slots of the store have a score that is not zero. -/
def Within (slots : Nat) (scores : List UInt64) : Prop :=
  ∀ (slot : Nat) score, scores[slot]? = some score → score ≠ 0 → slot < slots

theorem Within.set (within : Within slots scores) (inside : slot < slots) (score : UInt64) :
    Within slots (scores.set slot score) := by
  intro at' found own nonzero
  by_cases same : slot = at'
  · exact same ▸ inside
  · rw [getElem?_set_ne same] at own
    exact within at' found own nonzero

theorem getElem?_take_eq_some {items : List α} {item : α} (own : (items.take slots)[slot]? = some item) :
    slot < slots ∧ items[slot]? = some item := by
  rw [getElem?_take] at own
  split at own
  next inside => exact ⟨inside, own⟩
  next => cases own

theorem getElem?_take_ne_none {items : List α} (room : slots ≤ items.length) (inside : slot < slots) :
    (items.take slots)[slot]? ≠ none := by
  rw [getElem?_take_of_lt inside, Ne, List.getElem?_eq_none_iff]
  omega

/-- What a query leaves when it panics. -/
def Panicked (F : Floats) (stores : Set LexicalSource) (store : LexicalSource) (prepared : PreparedSearch)
    (scratch : LexicalScratch) : Prop :=
  Sound F stores scratch ∧ ¬Serves store prepared

variable (names : StatesName stores) (member : store ∈ stores)
include names member

theorem addDense_leads (whole : Serves store prepared → ∃ slot frequency, visit.2 = some (slot, frequency) ∧ slot < store.slotCount) :
    Leads
      (fun scratch => Keyed F store prepared.bm25 scratch ∧ scratch.complete = true ∧ Within store.slotCount scratch.scores ∧
        (Serves store prepared → AreTotals F store prepared done scratch.scores))
      (addDense F store prepared visit)
      (fun _ scratch => Keyed F store prepared.bm25 scratch ∧ scratch.complete = true ∧ Within store.slotCount scratch.scores ∧
        (Serves store prepared → AreTotals F store prepared (done ++ [visit]) scratch.scores))
      (Panicked F stores store prepared) := by
  refine of_known fun scratch => ?_
  rintro ⟨keyed, complete, within, sums⟩
  have panics (broken : ¬Serves store prepared) : Panicked F stores store prepared scratch :=
    ⟨keyed.sound names member, broken⟩
  unfold addDense
  refine demand_bind (fun posting read => ?_) fun missing => panics fun serves => ?_
  rotate_left
  · obtain ⟨slot, frequency, read, -⟩ := whole serves
    rw [read] at missing
    cases missing
  obtain ⟨slot, frequency⟩ := posting
  have inside (serves : Serves store prepared) : slot < store.slotCount := by
    obtain ⟨_, _, own, inside⟩ := whole serves
    cases read.symm.trans own
    exact inside
  refine get_bind (demand_bind (fun norm normed => ?_) fun missing => panics fun serves => ?_)
  rotate_left
  · exact getElem?_take_ne_none (keyed.norms_length ▸ keyed.room) (inside serves) missing
  obtain ⟨bound, normed⟩ := getElem?_take_eq_some normed
  refine demand_bind (fun old own => ?_) fun missing => panics fun _ => ?_
  rotate_left
  · exact getElem?_take_ne_none keyed.room bound missing
  obtain ⟨-, own⟩ := getElem?_take_eq_some own
  refine fun _ _ => ⟨keyed.congr (length_set ..) rfl rfl rfl rfl rfl rfl, complete, within.set bound _, ?_⟩
  intro serves
  refine (sums serves).add read own ?_
  obtain ⟨words, counted⟩ := Option.ne_none_iff_exists'.mp (serves.counted slot bound)
  have cached := keyed.norms slot bound (keyed.full complete slot bound) _ (by rw [normOf, counted, Option.map_some])
  rw [normed, Option.some.injEq] at cached
  rw [normOf, counted, Option.map_some, cached]

omit names member in
theorem mem_take_set {items : List Nat} (room : reached < items.length) (item other : Nat) :
    other ∈ (items.set reached item).take (reached + 1) ↔ other ∈ items.take reached ∨ other = item := by
  rw [take_add_one, take_set_of_le (le_refl reached), getElem?_set_self room, mem_append]
  simp

/-- What a sparse query has recorded: every slot with a score is among the first `reached` entries. -/
structure Recording (F : Floats) (store : LexicalSource) (prepared : PreparedSearch) (size : Nat)
    (done : List (UInt64 × Option (Nat × Nat))) (reached : Nat) (scratch : LexicalScratch) : Prop where
  keyed : Keyed F store prepared.bm25 scratch
  recorded : ∀ (slot : Nat) score, scratch.scores[slot]? = some score → score ≠ 0 → slot ∈ scratch.touched.take reached
  ranged : ∀ slot ∈ scratch.touched.take reached, slot < store.slotCount
  sums : Serves store prepared → AreTotals F store prepared done scratch.scores
  counts : Serves store prepared → reached ≤ done.length ∧ scratch.touched.length = size

theorem recordSparse_leads {size : Nat} (reached : Nat) (room : Serves store prepared → done.length < size)
    (read : visit.2 = some (slot, frequency)) (inside : Serves store prepared → slot < store.slotCount) :
    Leads
      (fun scratch => Recording F store prepared size done reached scratch ∧
        (slot < store.slotCount → scratch.normEpochs[slot]? = some scratch.epoch))
      (recordSparse F store prepared visit.1 slot frequency reached)
      (Recording F store prepared size (done ++ [visit])) (Panicked F stores store prepared) := by
  refine of_known fun scratch => ?_
  rintro ⟨recording, stamped⟩
  have keyed := recording.keyed
  have panics (broken : ¬Serves store prepared) : Panicked F stores store prepared scratch :=
    ⟨keyed.sound names member, broken⟩
  unfold recordSparse
  refine get_bind (demand_bind (fun old own => ?_) fun missing => panics fun serves => ?_)
  rotate_left
  · exact getElem?_take_ne_none keyed.room (inside serves) missing
  obtain ⟨bound, own⟩ := getElem?_take_eq_some own
  refine demand_bind (fun _ entry => ?_) fun missing => panics fun serves => ?_
  rotate_left
  · have := room serves
    have := recording.counts serves
    rw [List.getElem?_eq_none_iff] at missing
    omega
  have reach : reached < scratch.touched.length := (List.getElem?_eq_some_iff.mp entry).1
  have small : slot % 2 ^ 32 = slot := Nat.mod_eq_of_lt (lt_of_lt_of_le bound store.fits)
  have touched : Keyed F store prepared.bm25 { scratch with touched := scratch.touched.set reached slot } :=
    keyed.congr rfl rfl rfl rfl rfl rfl rfl
  rw [small]
  refine Leads.set_bind (demand_bind (fun norm normed => ?_) fun missing => ?_)
  rotate_left
  · rw [List.getElem?_eq_none_iff, keyed.norms_length] at missing
    have := keyed.room
    omega
  refine Leads.modify_bind (pure ?_)
  rintro _ rfl
  have kept (other : Nat) (was : other ∈ scratch.touched.take reached) :
      other ∈ (scratch.touched.set reached slot).take (if isZero old then reached + 1 else reached) := by
    split
    · exact (mem_take_set reach slot other).mpr (.inl was)
    · rw [take_set_of_le (le_refl reached)]
      exact was
  refine ⟨touched.congr (length_set ..) rfl rfl rfl rfl rfl rfl, ?_, ?_, ?_, ?_⟩
  · intro other score written nonzero
    by_cases same : slot = other
    · rw [← same]
      cases zero : isZero old with
      | true => exact (mem_take_set reach slot slot).mpr (.inr rfl)
      | false =>
        have was : old ≠ 0 := fun was => by simp [isZero, was] at zero
        have kept := kept slot (recording.recorded slot old own was)
        rw [zero] at kept
        exact kept
    · rw [getElem?_set_ne same] at written
      exact kept other (recording.recorded other score written nonzero)
  · intro other listed
    split at listed
    · rcases (mem_take_set reach slot other).mp listed with was | rfl
      · exact recording.ranged other was
      · exact bound
    · rw [take_set_of_le (le_refl reached)] at listed
      exact recording.ranged other listed
  · intro serves
    refine (recording.sums serves).add read own ?_
    obtain ⟨words, counted⟩ := Option.ne_none_iff_exists'.mp (serves.counted slot bound)
    have cached := keyed.norms slot bound (stamped bound) _ (by rw [normOf, counted, Option.map_some])
    rw [normed, Option.some.injEq] at cached
    rw [normOf, counted, Option.map_some, cached]
  · intro serves
    obtain ⟨few, length⟩ := recording.counts serves
    refine ⟨?_, by rw [length_set, length]⟩
    rw [length_append, length_singleton]
    split <;> omega

theorem addSparse_leads (room : Serves store prepared → done.length < size)
    (whole : Serves store prepared → ∃ slot frequency, visit.2 = some (slot, frequency) ∧ slot < store.slotCount) :
    Leads (Recording F store prepared size done reached) (addSparse F store prepared reached visit)
      (Recording F store prepared size (done ++ [visit])) (Panicked F stores store prepared) := by
  refine of_known fun scratch recording => ?_
  unfold addSparse
  refine demand_bind (fun posting read => ?_) fun missing =>
    ⟨recording.keyed.sound names member, fun serves => ?_⟩
  rotate_left
  · obtain ⟨slot, frequency, read, -⟩ := whole serves
    rw [read] at missing
    cases missing
  obtain ⟨slot, frequency⟩ := posting
  have inside (serves : Serves store prepared) : slot < store.slotCount := by
    obtain ⟨_, _, own, inside⟩ := whole serves
    cases read.symm.trans own
    exact inside
  have records := recordSparse_leads (F := F) names member reached room read inside
  refine get_bind ?_
  refine ite (fun _ => ?_) fun complete => ?_
  · let hold (next : LexicalScratch) : Prop := next.scores = scratch.scores ∧ next.touched = scratch.touched
    refine bind (((refreshNorm_leads hold fun _ _ _ _ kept => kept)).mono ?_ (fun _ _ kept => kept) ?_) fun _ => ?_
    · rintro _ rfl
      exact ⟨recording.keyed, rfl, rfl⟩
    · rintro next ⟨keyed, missing⟩
      exact ⟨keyed.sound names member, fun serves => serves.counted slot (inside serves) (missing (inside serves))⟩
    · refine records.mono ?_ (fun _ _ kept => kept) fun _ kept => kept
      rintro next ⟨keyed, ⟨scores, touched⟩, stamped⟩
      refine ⟨⟨keyed, ?_, ?_, ?_, ?_⟩, fun _ => stamped⟩
      · rw [scores, touched]
        exact recording.recorded
      · rw [touched]
        exact recording.ranged
      · rw [scores]
        exact recording.sums
      · rw [touched]
        exact recording.counts
  · rw [Bool.not_eq_true', Bool.not_eq_false] at complete
    refine records.mono ?_ (fun _ _ kept => kept) fun _ kept => kept
    rintro _ rfl
    exact ⟨recording, recording.keyed.full complete slot⟩

end Adding

def readBack (store : LexicalSource) (dense : Bool) (scratch : LexicalScratch) : List Nat :=
  if dense then List.range store.slotCount else scratch.touched

/-- A scratch whose scores are the query's: every slot with a score is read back. -/
structure Scored (F : Floats) (store : LexicalSource) (prepared : PreparedSearch) (collected : List (UInt64 × PostingSet))
    (scratch : LexicalScratch) : Prop where
  keyed : Keyed F store prepared.bm25 scratch
  recorded : ∀ (slot : Nat) score, scratch.scores[slot]? = some score → score ≠ 0 →
    slot ∈ readBack store (isDense store collected) scratch
  ranged : ∀ slot ∈ readBack store (isDense store collected) scratch, slot < store.slotCount
  sums : Serves store prepared → AreTotals F store prepared (visits collected) scratch.scores

section Whole

variable {collected : List (UInt64 × PostingSet)} (read : lists F store (terms prepared) = some collected)
include read

theorem Serves.whole (serves : Serves store prepared) (member : item ∈ collected) : item.2.Whole store.slotCount := by
  obtain ⟨term, inside, own⟩ := mem_lists read member
  obtain ⟨found, named, whole⟩ := serves.listed term inside
  rw [own, Option.some.injEq] at named
  exact whole item.2 named.symm

theorem Serves.visit (serves : Serves store prepared) {visit : UInt64 × Option (Nat × Nat)}
    (member : visit ∈ visits collected) :
    ∃ slot frequency, visit.2 = some (slot, frequency) ∧ slot < store.slotCount := by
  obtain ⟨list, inside, own⟩ := mem_visits member
  exact (serves.whole read inside).2 visit.2 own

theorem addScores_leads (names : StatesName stores) (member : store ∈ stores) :
    Leads
      (fun scratch => Keyed F store prepared.bm25 scratch ∧ (∀ score ∈ scratch.scores, score = 0) ∧
        (isDense store collected = true → scratch.complete = true))
      (addScores F store prepared collected)
      (fun _ => Scored F store prepared collected) (Panicked F stores store prepared) := by
  have start {scores : List UInt64} (zero : ∀ score ∈ scores, score = 0) : AreTotals F store prepared [] scores :=
    fun slot score own => zero score (mem_of_getElem? own)
  unfold addScores
  refine ite (fun dense => ?_) fun sparse => ?_
  · let held (done : List (UInt64 × Option (Nat × Nat))) (_ : Unit) (scratch : LexicalScratch) : Prop :=
      Keyed F store prepared.bm25 scratch ∧ scratch.complete = true ∧ Within store.slotCount scratch.scores ∧
        (Serves store prepared → AreTotals F store prepared done scratch.scores)
    refine (foldlM held ?_).mono ?_ ?_ fun _ kept => kept
    · intro done visit rest _ split
      refine addDense_leads names member fun serves => serves.visit read ?_
      rw [split]
      exact mem_append_right _ mem_cons_self
    · rintro scratch ⟨keyed, zero, complete⟩
      refine ⟨keyed, complete dense, ?_, fun _ => start zero⟩
      intro slot score own nonzero
      exact absurd (zero score (mem_of_getElem? own)) nonzero
    · rintro _ scratch ⟨keyed, -, within, sums⟩
      have order : readBack store (isDense store collected) scratch = List.range store.slotCount := by
        rw [readBack, if_pos dense]
      refine ⟨keyed, ?_, ?_, sums⟩
      · intro slot score own nonzero
        rw [order, mem_range]
        exact within slot score own nonzero
      · intro slot listed
        rw [order] at listed
        exact mem_range.mp listed
  · let held := Recording F store prepared (postingTotal collected)
    refine of_known fun scratch => ?_
    rintro ⟨keyed, zero, -⟩
    refine Leads.modify_bind (bind (M := held (visits collected)) ?_ fun reached => ?_)
    · refine (foldlM held ?_).mono ?_ (fun _ _ kept => kept) fun _ kept => kept
      · intro done visit rest reached split
        refine addSparse_leads names member (fun serves => ?_) fun serves => serves.visit read ?_
        · have length := visits_length (fun list inside => (serves.whole read inside).1) (Bool.eq_false_iff.mpr sparse)
          rw [split, length_append, length_cons] at length
          omega
        · rw [split]
          exact mem_append_right _ mem_cons_self
      · rintro _ rfl
        refine ⟨keyed.congr rfl rfl rfl rfl rfl rfl rfl, ?_, ?_, fun _ => start zero, ?_⟩
        · intro slot score own nonzero
          exact absurd (zero score (mem_of_getElem? own)) nonzero
        · intro slot listed
          cases listed
        · exact fun _ => ⟨Nat.zero_le _, length_replicate⟩
    · refine Leads.modify fun next recording => ?_
      have order (next : LexicalScratch) : readBack store (isDense store collected) next = next.touched := by
        rw [readBack, if_neg sparse]
      refine ⟨recording.keyed.congr rfl rfl rfl rfl rfl rfl rfl, ?_, ?_, recording.sums⟩
      · rw [order]
        exact recording.recorded
      · rw [order]
        exact recording.ranged

end Whole

end Warm.Lexical

