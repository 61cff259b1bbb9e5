import Warm.LexicalSelect

/-! A query run in a scratch with any past. Every state of a scratch that queries leave, returning or panicking, is one from
which the next query gives what a fresh scratch gives. -/
namespace Warm.Lexical

open Panics List
open Leads (bind get_bind ite known_bind modify_bind of_known pure)

variable {F : Floats} {stores : Set LexicalSource} {store : LexicalSource} {prepared : PreparedSearch}

section Query

variable {collected : List (UInt64 × PostingSet)} (read : lists F store (terms prepared) = some collected)
include read

theorem seen_perm (scored : Scored F store prepared collected scratch) (serves : Serves store prepared)
    {seen : List (UInt64 × Nat)} (distinct : seen.Nodup)
    (mem_seen : ∀ item, item ∈ seen ↔ item.2 ∈ readBack store (isDense store collected) scratch ∧ item.1 = scratch.scores[item.2]?.getD 0 ∧ isPositive item.1 = true) :
    seen.Perm (((List.range store.slotCount).map fun slot => (score F store prepared slot, slot)).filter fun item =>
      isPositive item.1) := by
  have given {slot : Nat} (inside : slot < store.slotCount) :
      ∃ value, scratch.scores[slot]? = some value ∧ value = score F store prepared slot := by
    have room := scored.keyed.room
    have own := getElem?_eq_getElem (l := scratch.scores) (i := slot) (by omega)
    refine ⟨_, own, ?_⟩
    rw [scored.sums serves slot _ own, score, read, Option.getD_some]
  refine (perm_ext_iff_of_nodup distinct ?_).mpr fun item => ?_
  · refine (List.Nodup.map (fun a b same => (Prod.ext_iff.mp same).2) nodup_range).filter _
  rw [mem_seen, mem_filter, mem_map]
  constructor
  · rintro ⟨listed, same, positive⟩
    have inside := scored.ranged item.2 listed
    obtain ⟨value, own, total⟩ := given inside
    rw [own, Option.getD_some] at same
    exact ⟨⟨item.2, mem_range.mpr inside, Prod.ext (by rw [same, total]) rfl⟩, positive⟩
  · rintro ⟨⟨slot, inside, rfl⟩, positive⟩
    obtain ⟨value, own, total⟩ := given (mem_range.mp inside)
    refine ⟨scored.recorded slot value own ?_, ?_, positive⟩
    · rintro rfl
      rw [← total] at positive
      cases positive
    · rw [own, Option.getD_some, total]

theorem kept_ranking {next} {floor bar : UInt64} (scored : Scored F store prepared collected scratch)
    (serves : Serves store prepared)
    (drained : Draining F store prepared (fun slot => scratch.scores[slot]?.getD 0) (readBack store (isDense store collected) scratch) floor next)
    (barred : if next.best.length < prepared.limit then bar = 0 else next.best.getLast? = some bar) :
    unordered store (next.candidates.filter fun item => bar ≤ item.1) = false ∧
      topRanked store prepared.limit (next.candidates.filter fun item => bar ≤ item.1) = ranking F store prepared := by
  obtain ⟨seen, distinct, mem_seen, selected⟩ := drained.selected serves.limit
  have perm := seen_perm read scored serves distinct mem_seen
  have posted {item : UInt64 × Nat} (inside : item ∈ seen) : Posted store prepared item.2 := by
    have listed := perm.mem_iff.mp inside
    rw [mem_filter, mem_map] at listed
    obtain ⟨⟨slot, -, rfl⟩, positive⟩ := listed
    refine posted_of_total read fun zero => ?_
    rw [score, read, Option.getD_some, zero] at positive
    cases positive
  have keyed : ∀ a ∈ seen, ∀ b ∈ seen, rankKey store a = rankKey store b → a = b := by
    intro a left b right same
    exact rankKey_injective (selected.positive a left) (selected.positive b right) (serves.placed _ (posted left))
      (serves.placed _ (posted right)) (serves.distinct _ _ (posted left) (posted right)) same
  constructor
  · refine any_eq_false.mpr fun item member => ?_
    have placed := serves.placed _ (posted (selected.admitted item (mem_filter.mp member).1))
    rw [Bool.and_eq_true, Option.isNone_iff_eq_none]
    exact fun unplaced => placed unplaced.1
  · rw [selected.topRanked serves.limit keyed barred, ranking, topRanked, topRanked, TopK.sortBy_perm keyed perm]

theorem select_leads (names : StatesName stores) (member : store ∈ stores) :
    Leads (Scored F store prepared collected) (select store prepared (isDense store collected))
      (fun result scratch => Sound F stores scratch ∧ (∀ score ∈ scratch.scores, score = 0) ∧
        (Serves store prepared → result = ranking F store prepared))
      (Panicked F stores store prepared) := by
  refine of_known fun scratch scored => ?_
  unfold select
  refine modify_bind (get_bind ?_)
  let given (slot : Nat) : UInt64 := scratch.scores[slot]?.getD 0
  let order := readBack store (isDense store collected) scratch
  refine known_bind (M := Draining F store prepared given order) ?_ fun floor next drained => ?_
  · refine (Leads.foldlM (Draining F store prepared given) ?_).mono ?_ (fun _ _ kept => kept) fun _ kept => kept
    · intro done slot rest floor split
      refine take_leads names member (scored.ranged slot ?_)
      change slot ∈ order
      rw [show order = _ from split]
      exact mem_append_right _ mem_cons_self
    · rintro _ rfl
      refine ⟨scored.keyed.congr rfl rfl rfl rfl rfl rfl rfl, ?_, fun _ => ⟨[], nodup_nil, ?_, Selected.fresh⟩⟩
      · intro slot score own
        rw [if_neg not_mem_nil]
        change score = scratch.scores[slot]?.getD 0
        rw [own, Option.getD_some]
      · intro item
        rw [mem_nil_iff, mem_nil_iff, false_and]
  have keyed := drained.keyed
  have zero : ∀ score ∈ next.scores, score = 0 := by
    intro score listed
    obtain ⟨slot, bound, own⟩ := mem_iff_getElem.mp listed
    have own : next.scores[slot]? = some score := by rw [getElem?_eq_getElem bound, own]
    rw [drained.drained slot score own]
    by_cases done : slot ∈ order
    · exact if_pos done
    · rw [if_neg done]
      change scratch.scores[slot]?.getD 0 = 0
      cases was : scratch.scores[slot]? with
      | none => rfl
      | some old => exact not_not.mp fun nonzero => done (scored.recorded slot old was nonzero)
  have panics {next : LexicalScratch} (keyed : Keyed F store prepared.bm25 next) (broken : ¬Serves store prepared) :
      Panicked F stores store prepared next := ⟨keyed.sound names member, broken⟩
  refine known_bind (M := fun bar known => known = next ∧
    if next.best.length < prepared.limit then bar = 0 else next.best.getLast? = some bar) ?_ ?_
  · refine get_bind (ite (fun short => pure ?_) fun full => demand_known (fun bar last => ?_) fun empty => ?_)
    · rintro _ rfl
      rw [if_pos short]
      exact ⟨rfl, rfl⟩
    · rw [if_neg full]
      exact ⟨rfl, last⟩
    · refine panics keyed fun serves => ?_
      obtain ⟨seen, -, -, selected⟩ := drained.selected serves.limit
      rw [selected.getLast serves.limit full] at empty
      cases empty
  rintro bar next ⟨rfl, barred⟩
  have ranked := fun serves => kept_ranking read scored serves drained barred
  refine get_bind (Leads.set_bind (ite (fun lost => Leads.throw ?_) fun ordered =>
    modify_bind (pure ?_)))
  · rintro _ rfl
    refine panics (keyed.congr rfl rfl rfl rfl rfl rfl rfl) fun serves => ?_
    rw [(ranked serves).1] at lost
    cases lost
  · rintro _ rfl
    have sound := (keyed.sound names member)
    refine ⟨⟨{ sound with }, fun _ => zero, ?_⟩, zero,
      fun serves => (ranked serves).2⟩
    exact fun store member bm25 named =>
      ⟨(sound.cached store member bm25 named).norms, (sound.cached store member bm25 named).full⟩

end Query

theorem rank_leads (names : StatesName stores) (member : store ∈ stores) :
    Leads (Sound F stores) (rank F store prepared)
      (fun result scratch => Sound F stores scratch ∧ (∀ score ∈ scratch.scores, score = 0) ∧
        (Serves store prepared → result = ranking F store prepared))
      (Panicked F stores store prepared) := by
  refine of_known fun scratch sound => ?_
  have entered := sound.enter store
  unfold rank
  refine modify_bind (demand_bind (fun collected read => ?_) fun missing => ?_)
  rotate_left
  · refine ⟨entered.toSound, fun serves => ?_⟩
    obtain ⟨collected, read⟩ := lists_some (F := F) fun term inside =>
      (serves.listed term inside).imp fun _ found => found.1
    rw [read] at missing
    cases missing
  have keyed := entered.rekey member prepared.bm25
  have zero := entered.zero
  rw [← LexicalScratch.rekey_scores (normKey store prepared.bm25)] at zero
  refine modify_bind (get_bind ?_)
  have rest := (addScores_leads read names member).bind fun _ => select_leads read names member
  refine ite (fun partly => ?_) fun whole => ?_
  · refine bind ((fillNorms_leads ((scratch.enter store.slotCount).rekey (normKey store prepared.bm25)).scores).mono ?_ (fun _ _ filled => filled) ?_) fun _ => ?_
    · rintro _ rfl
      exact ⟨keyed, rfl⟩
    · rintro next ⟨keyed, slot, inside, missing⟩
      exact ⟨keyed.sound names member, fun serves => serves.counted slot inside missing⟩
    · refine of_known fun next => ?_
      rintro ⟨keyed, scores, complete⟩
      refine modify_bind (rest.mono ?_ (fun _ _ ranked => ranked) fun _ failed => failed)
      rintro _ rfl
      exact ⟨keyed.congr rfl rfl rfl rfl rfl rfl rfl, by rw [scores]; exact zero, fun _ => complete⟩
  · refine modify_bind (rest.mono ?_ (fun _ _ ranked => ranked) fun _ failed => failed)
    rintro _ rfl
    refine ⟨keyed.congr rfl rfl rfl rfl rfl rfl rfl, zero, fun dense => ?_⟩
    rw [dense, Bool.and_true, Bool.not_eq_true', Bool.not_eq_false] at whole
    exact whole

/-- The scratches that queries on the stores leave behind, those included that panicked. -/
inductive Reached (F : Floats) (stores : Set LexicalSource) : LexicalScratch → Prop
  | fresh : Reached F stores {}
  | query {scratch : LexicalScratch} {store : LexicalSource} (member : store ∈ stores) (prepared : PreparedSearch)
      (reached : Reached F stores scratch) : Reached F stores (left (rank F store prepared) scratch)

theorem Reached.sound (names : StatesName stores) (reached : Reached F stores scratch) : Sound F stores scratch := by
  induction reached with
  | fresh => exact Sound.fresh
  | query member prepared _ ih =>
    exact ((rank_leads names member).mono (fun _ sound => sound) (fun _ _ ranked => ranked.1) fun _ failed => failed.1).left_of ih

/-- Whatever queries a scratch has served, the next one returns the ranking, which is what a fresh scratch returns, and leaves
every score zero. -/
theorem rank_reached (names : StatesName stores) {scratch : LexicalScratch} (reached : Reached F stores scratch)
    (member : store ∈ stores) (serves : Serves store prepared) :
    result (rank F store prepared) scratch = some (ranking F store prepared) ∧
      result (rank F store prepared) {} = some (ranking F store prepared) ∧
      ∀ score ∈ (left (rank F store prepared) scratch).scores, score = 0 := by
  have returns {scratch : LexicalScratch} (sound : Sound F stores scratch) :
      ∃ next, rank F store prepared scratch = .ok (ranking F store prepared) next ∧ ∀ score ∈ next.scores, score = 0 := by
    obtain ⟨value, next, run, -, zero, ranked⟩ := ((rank_leads names member).mono (fun _ sound => sound)
      (fun _ _ ranked => ranked) fun _ failed => failed.2 serves).returns sound
    exact ⟨next, by rw [run, ranked serves], zero⟩
  obtain ⟨next, run, zero⟩ := returns (reached.sound names)
  obtain ⟨_, fresh, -⟩ := returns Sound.fresh
  refine ⟨by rw [result, run], by rw [result, fresh], ?_⟩
  rw [left, run]
  exact zero

section Sample

def Sample.table (rows : List ((UInt64 × UInt64) × UInt64)) (a b : UInt64) : UInt64 := (rows.lookup (a, b)).getD 0

/-- The results of the float operations at the operands of one short query. -/
def Sample.floats : Floats where
  ofNat count := match count with | 1 => one | 2 => 0x4000000000000000 | _ => 0
  add := table
    [((0x3FD0000000000000, 0x3FE8000000000000), one), ((0, half), half), ((one, half), 0x3FF8000000000000),
      ((one, 0x3FD5555555555555), 0x3FF5555555555555), ((one, 0x3FF3333333333333), 0x400199999999999A),
      ((0, 0x3FD269621134DB91), 0x3FD269621134DB91)]
  sub := table [((one, one), 0)]
  mul := table
    [((0x3FE8000000000000, 0x4000000000000000), 0x3FF8000000000000), ((0x3FF3333333333333, one), 0x3FF3333333333333),
      ((0x3FD269621134DB91, one), 0x3FD269621134DB91), ((0x3FD269621134DB91, 0x400199999999999A), 0x3FE440B8AC86F186)]
  div := table
    [((0x4000000000000000, one), 0x4000000000000000), ((half, 0x3FF8000000000000), 0x3FD5555555555555),
      ((0x3FF8000000000000, 0x4000000000000000), 0x3FE8000000000000),
      ((0x3FE440B8AC86F186, 0x400199999999999A), 0x3FD269621134DB91)]
  max := table [((0x4000000000000000, one), 0x4000000000000000)]
  ln bits := if bits = 0x3FF5555555555555 then 0x3FD269621134DB91 else 0

def Sample.chunk (generation : Nat) (postings : Nat → String → Option (Option PostingSet)) : LexicalSource where
  slotCount := 1
  fits := by decide
  chunkCount := 1
  wordCount := 2
  state := (0, generation)
  postings := postings
  slotWordCount slot := if slot = 0 then some 2 else none
  slotOrder slot := if slot = 0 then some ("d", 0) else none

/-- A store whose posting list panics after its first posting. -/
def Sample.broken : LexicalSource := chunk 0 fun _ _ => some (some ⟨1, [some (0, 1), none]⟩)

def Sample.served : LexicalSource := chunk 1 fun form _ => some (if form = 0 then some ⟨1, [some (0, 1)]⟩ else none)

/-- One word of form 0, under the default constants. -/
def Sample.query : PreparedSearch :=
  ⟨(["moon"], []), 10, ⟨0x400199999999999A, 0x3FF3333333333333, 0x3FD0000000000000, 0x3FE8000000000000⟩⟩

theorem Sample.names : StatesName {broken, served} := by
  rintro a (rfl | rfl) b (rfl | rfl) same
  · exact ⟨rfl, rfl, rfl, fun _ _ => rfl⟩
  · exact absurd same (by decide)
  · exact absurd same (by decide)
  · exact ⟨rfl, rfl, rfl, fun _ _ => rfl⟩

theorem Sample.posted (posted : Posted served query slot) : slot = 0 := by
  obtain ⟨term, named, list, own, frequency, listed⟩ := posted
  rw [show terms query = [(0, "moon")] from rfl, mem_singleton] at named
  rw [named] at own
  cases own
  exact (by simpa using listed : slot = 0 ∧ frequency = 1).1

theorem Sample.serves : Serves served Sample.query where
  limit := by decide
  counted := by decide
  listed := by
    intro term named
    rw [show terms Sample.query = [(0, "moon")] from rfl, mem_singleton] at named
    rw [named]
    refine ⟨_, rfl, ?_⟩
    rintro _ ⟨⟩
    refine ⟨rfl, fun read member => ?_⟩
    rw [mem_singleton] at member
    exact ⟨0, 1, member, Nat.one_pos⟩
  placed := by
    intro slot posted
    rw [Sample.posted posted]
    decide
  distinct := by
    intro a b left right _
    rw [Sample.posted left, Sample.posted right]

/-- The query of the panicking store leaves a score behind. -/
example : (left (rank Sample.floats Sample.broken Sample.query) {}).scores = [0x3FD269621134DB91] := by decide

theorem rank_reached_panicked :
    result (rank Sample.floats Sample.served Sample.query) (left (rank Sample.floats Sample.broken Sample.query) {}) =
      some (ranking Sample.floats Sample.served Sample.query) ∧
    ranking Sample.floats Sample.served Sample.query = [(0x3FD269621134DB91, 0)] :=
  ⟨(rank_reached Sample.names (.query (.inl rfl) Sample.query .fresh) (.inr rfl) Sample.serves).1, by decide⟩

end Sample

end Warm.Lexical
