import Mathlib.Data.Set.Basic
import Warm.LexicalRank

/-! The norms a scratch keeps between queries: a norm whose epoch is the current one belongs to the store state and the
constants of the key, in every state a query leaves, whether it returns or panics. -/
namespace Warm.Lexical

open List hiding get length set

open Panics

variable (F : Floats)

/-- A slot's norm as a fresh scratch computes it; `none` where its word count panics. -/
def normOf (store : LexicalSource) (bm25 : Bm25) (slot : Nat) : Option UInt64 :=
  (store.slotWordCount slot).map fun words => bm25.norm F (F.ofNat words) (average F store)

/-- A store identity with its generation names one state of the index. -/
def StatesName (stores : Set LexicalSource) : Prop :=
  ∀ a ∈ stores, ∀ b ∈ stores, a.state = b.state →
    a.slotCount = b.slotCount ∧ a.chunkCount = b.chunkCount ∧ a.wordCount = b.wordCount ∧
      ∀ slot < a.slotCount, a.slotWordCount slot = b.slotWordCount slot

/-- The norms of the current epoch are the store's. -/
structure Cached (store : LexicalSource) (bm25 : Bm25) (scratch : LexicalScratch) : Prop where
  norms : ∀ slot < store.slotCount, scratch.normEpochs[slot]? = some scratch.epoch →
    ∀ norm, normOf F store bm25 slot = some norm → scratch.norms[slot]? = some norm
  full : scratch.complete = true → ∀ slot < store.slotCount, scratch.normEpochs[slot]? = some scratch.epoch

/-- What holds of the tables in any state, also of one a panic left. -/
structure Tables (scratch : LexicalScratch) : Prop where
  norms_length : scratch.norms.length = scratch.scores.length
  epochs_length : scratch.normEpochs.length = scratch.scores.length
  past : ∀ stamp ∈ scratch.normEpochs, stamp ≤ scratch.epoch
  bounded : scratch.epoch < 2 ^ 32
  started : scratch.key ≠ none → 0 < scratch.epoch

/-- A scratch between two queries. -/
structure Sound (stores : Set LexicalSource) (scratch : LexicalScratch) : Prop extends Tables scratch where
  clean : scratch.dirty = false → ∀ score ∈ scratch.scores, score = 0
  cached : ∀ store ∈ stores, ∀ bm25, scratch.key = some (normKey store bm25) → Cached F store bm25 scratch

/-- A scratch within a query that has not keyed the norms yet. -/
structure Entered (stores : Set LexicalSource) (store : LexicalSource) (scratch : LexicalScratch) : Prop
    extends Sound F stores scratch where
  running : scratch.dirty = true
  room : store.slotCount ≤ scratch.scores.length
  zero : ∀ score ∈ scratch.scores, score = 0

/-- A scratch within a query whose norms are keyed to the store. -/
structure Keyed (store : LexicalSource) (bm25 : Bm25) (scratch : LexicalScratch) : Prop extends Tables scratch,
    Cached F store bm25 scratch where
  dirty : scratch.dirty = true
  room : store.slotCount ≤ scratch.scores.length
  key : scratch.key = some (normKey store bm25)

variable {F} {α : Type} {stores : Set LexicalSource} {store : LexicalSource} {bm25 : Bm25} {scratch : LexicalScratch}

theorem Sound.fresh : Sound F stores {} where
  norms_length := rfl
  epochs_length := rfl
  past := by simp
  bounded := by decide
  started := fun named => absurd rfl named
  clean := by simp
  cached := fun _ _ _ named => nomatch named

section

variable (names : StatesName stores) (member : store ∈ stores) (member' : other ∈ stores) (same : normKey store bm25 = normKey other bm25')
include names member member' same

theorem normOf_eq (inside : slot < store.slotCount) :
    normOf F store bm25 slot = normOf F other bm25' slot := by
  simp only [normKey, NormKey.mk.injEq] at same
  obtain ⟨identity, generation, k1, oneMinusB, b⟩ := same
  obtain ⟨-, chunks, words, counts⟩ := names store member other member' (Prod.ext identity generation)
  unfold normOf average Bm25.norm
  rw [counts slot inside, chunks, words, k1, oneMinusB, b]

theorem Cached.transfer (cached : Cached F store bm25 scratch) : Cached F other bm25' scratch := by
  have state : store.state = other.state := by
    simp only [normKey, NormKey.mk.injEq] at same
    exact Prod.ext same.1 same.2.1
  have slots := (names store member other member' state).1
  constructor
  · intro slot inside stamped norm own
    rw [← slots] at inside
    rw [← normOf_eq names member member' same inside] at own
    exact cached.norms slot inside stamped norm own
  · intro complete slot inside
    rw [← slots] at inside
    exact cached.full complete slot inside

end

theorem Keyed.sound (names : StatesName stores) (member : store ∈ stores) (keyed : Keyed F store bm25 scratch) :
    Sound F stores scratch where
  toTables := keyed.toTables
  clean := fun clean => absurd keyed.dirty (by simp [clean])
  cached := by
    intro other member' bm25' named
    rw [keyed.key, Option.some.injEq] at named
    exact keyed.toCached.transfer names member member' named

theorem Keyed.congr {next} (keyed : Keyed F store bm25 scratch) (scores : next.scores.length = scratch.scores.length)
    (norms : next.norms = scratch.norms) (epochs : next.normEpochs = scratch.normEpochs)
    (epoch : next.epoch = scratch.epoch) (key : next.key = scratch.key) (complete : next.complete = scratch.complete)
    (dirty : next.dirty = scratch.dirty) : Keyed F store bm25 next where
  norms_length := by rw [norms, scores, keyed.norms_length]
  epochs_length := by rw [epochs, scores, keyed.epochs_length]
  past := by rw [epochs, epoch]; exact keyed.past
  bounded := by rw [epoch]; exact keyed.bounded
  started := by rw [key, epoch]; exact keyed.started
  norms := by rw [epochs, epoch, norms]; exact keyed.norms
  full := by rw [epochs, epoch, complete]; exact keyed.full
  dirty := by rw [dirty, keyed.dirty]
  room := by rw [scores]; exact keyed.room
  key := by rw [key, keyed.key]

theorem getElem?_rightpad {items : List α} {item : α} (inside : slot < items.length) :
    (items.rightpad slots item)[slot]? = items[slot]? :=
  getElem?_append_left inside

theorem getElem?_rightpad_of_le {items : List α} {item found : α} (outside : items.length ≤ slot)
    (own : (items.rightpad slots item)[slot]? = some found) : found = item := by
  rw [List.rightpad, getElem?_append_right outside] at own
  exact eq_of_mem_replicate (mem_of_getElem? own)

namespace LexicalScratch

theorem zeroed_length (scratch : LexicalScratch) : scratch.zeroed.scores.length = scratch.scores.length := by
  unfold zeroed
  split
  · exact length_map _
  · rfl

theorem zeroed_frame (scratch : LexicalScratch) :
    scratch.zeroed.norms = scratch.norms ∧ scratch.zeroed.normEpochs = scratch.normEpochs ∧
      scratch.zeroed.epoch = scratch.epoch ∧ scratch.zeroed.key = scratch.key ∧
      scratch.zeroed.complete = scratch.complete := by
  unfold zeroed
  split <;> exact ⟨rfl, rfl, rfl, rfl, rfl⟩

theorem zeroed_clean (sound : Sound F stores scratch) : ∀ score ∈ scratch.zeroed.scores, score = 0 := by
  unfold zeroed
  cases dirty : scratch.dirty with
  | true =>
    intro score member
    obtain ⟨-, -, rfl⟩ := mem_map.mp member
    rfl
  | false => exact sound.clean dirty

theorem zeroed_sound (sound : Sound F stores scratch) : Sound F stores scratch.zeroed := by
  obtain ⟨norms, epochs, epoch, key, complete⟩ := scratch.zeroed_frame
  constructor
  · constructor
    · rw [norms, zeroed_length, sound.norms_length]
    · rw [epochs, zeroed_length, sound.epochs_length]
    · rw [epochs, epoch]
      exact sound.past
    · rw [epoch]
      exact sound.bounded
    · rw [key, epoch]
      exact sound.started
  · exact fun _ => zeroed_clean sound
  · intro store member bm25 named
    rw [key] at named
    have cached := sound.cached store member bm25 named
    constructor
    · rw [epochs, epoch, norms]
      exact cached.norms
    · rw [epochs, epoch, complete]
      exact cached.full

theorem grown_room (slots : Nat) (scratch : LexicalScratch) : slots ≤ (scratch.grown slots).scores.length := by
  unfold grown
  split
  next short =>
    rw [List.rightpad, length_append, length_replicate]
    omega
  next long => omega

theorem grown_clean (clean : ∀ score ∈ scratch.scores, score = 0) (slots : Nat) :
    ∀ score ∈ (scratch.grown slots).scores, score = 0 := by
  unfold grown
  split
  · exact forall_mem_append.mpr ⟨clean, fun _ => eq_of_mem_replicate⟩
  · exact clean

theorem grown_sound (sound : Sound F stores scratch) (slots : Nat) : Sound F stores (scratch.grown slots) := by
  unfold grown
  split
  next short =>
    constructor
    · constructor
      · simp only [List.rightpad, length_append, length_replicate, sound.norms_length]
      · simp only [List.rightpad, length_append, length_replicate, sound.epochs_length]
      · intro stamp member
        rcases mem_append.mp member with old | new
        · exact sound.past stamp old
        · rw [eq_of_mem_replicate new]
          exact Nat.zero_le _
      · exact sound.bounded
      · exact sound.started
    · intro clean score member
      rcases mem_append.mp member with old | new
      · exact sound.clean clean score old
      · exact eq_of_mem_replicate new
    · intro store member bm25 named
      have positive := sound.started (by rw [named]; simp)
      refine ⟨?_, fun complete => nomatch complete⟩
      intro slot inside stamped norm own
      rcases Nat.lt_or_ge slot scratch.normEpochs.length with old | new
      · rw [getElem?_rightpad old] at stamped
        have kept := (sound.cached store member bm25 named).norms slot inside stamped norm own
        rw [getElem?_rightpad (by rw [sound.norms_length, ← sound.epochs_length]; exact old), kept]
      · have zero : scratch.epoch = 0 := getElem?_rightpad_of_le new stamped
        omega
  next => exact sound

end LexicalScratch

theorem Sound.enter (sound : Sound F stores scratch) (store : LexicalSource) :
    Entered F stores store (scratch.enter store.slotCount) := by
  have grown := LexicalScratch.grown_sound (LexicalScratch.zeroed_sound sound) store.slotCount
  exact {
    toTables := { grown with }
    clean := fun clean => nomatch clean
    cached := fun store member bm25 named =>
      ⟨(grown.cached store member bm25 named).norms, (grown.cached store member bm25 named).full⟩
    running := rfl
    room := LexicalScratch.grown_room _ _
    zero := LexicalScratch.grown_clean (LexicalScratch.zeroed_clean sound) _ }

namespace LexicalScratch

theorem rekey_scores (key : NormKey) (scratch : LexicalScratch) : (scratch.rekey key).scores = scratch.scores := by
  unfold rekey
  split
  · rfl
  split <;> rfl

end LexicalScratch

theorem Entered.rekey (entered : Entered F stores store scratch) (member : store ∈ stores) (bm25 : Bm25) :
    Keyed F store bm25 (scratch.rekey (normKey store bm25)) := by
  unfold LexicalScratch.rekey
  split
  next same =>
    exact { toTables := entered.toTables, toCached := entered.cached store member bm25 same, dirty := entered.running,
            room := entered.room, key := same }
  split
  next next =>
    constructor
    · constructor
      · exact entered.norms_length
      · exact entered.epochs_length
      · exact fun stamp member => (entered.past stamp member).trans (Nat.le_succ _)
      · exact next
      · exact fun _ => Nat.succ_pos _
    · refine ⟨fun slot _ stamped => ?_, fun complete => nomatch complete⟩
      have old := entered.past _ (mem_of_getElem? stamped)
      exact absurd old (Nat.not_succ_le_self _)
    · exact entered.running
    · exact entered.room
    · rfl
  next wraps =>
    have zero {stamp : Nat} (member : stamp ∈ scratch.normEpochs.map fun _ => 0) : stamp = 0 := by
      obtain ⟨-, -, rfl⟩ := mem_map.mp member
      rfl
    constructor
    · constructor
      · exact entered.norms_length
      · exact (length_map _).trans entered.epochs_length
      · exact fun stamp member => by rw [zero member]; exact Nat.zero_le _
      · exact Nat.one_lt_two_pow (by decide)
      · exact fun _ => Nat.one_pos
    · refine ⟨fun slot _ stamped => ?_, fun complete => nomatch complete⟩
      have old := zero (mem_of_getElem? stamped)
      exact absurd old Nat.one_ne_zero
    · exact entered.running
    · exact entered.room
    · rfl

section Refresh

variable {prepared : PreparedSearch} {slot : Nat}

theorem refreshNorm_run (scratch : LexicalScratch) : refreshNorm F store prepared slot scratch =
    match scratch.normEpochs[slot]? with
    | none => .error () scratch
    | some stamp =>
      if stamp = scratch.epoch then .ok () scratch
      else
        let stamped := { scratch with normEpochs := scratch.normEpochs.set slot scratch.epoch }
        match store.slotWordCount slot with
        | none => .error () stamped
        | some words =>
          let norm := prepared.bm25.norm F (F.ofNat words) (average F store)
          .ok () { stamped with norms := stamped.norms.set slot norm } := by
  unfold refreshNorm
  change EStateM.bind (demand scratch.normEpochs[slot]?) _ scratch = _
  cases scratch.normEpochs[slot]? with
  | none => rfl
  | some found =>
    simp only [EStateM.bind, demand, pure, EStateM.pure]
    split
    · rfl
    · cases store.slotWordCount slot with
      | none => rfl
      | some words => rfl

/-- The epoch is written before the word count is read: a word count that panics leaves a stale norm under the epoch, at a
slot whose norm no query of this store gets to read. -/
theorem refreshNorm_leads (hold : LexicalScratch → Prop)
    (frame : ∀ scratch norms (normEpochs : List Nat), (∀ other : Nat, scratch.normEpochs[other]? = some scratch.epoch →
      normEpochs[other]? = some scratch.epoch) → hold scratch → hold { scratch with norms, normEpochs }) :
    Leads (fun scratch => Keyed F store prepared.bm25 scratch ∧ hold scratch) (refreshNorm F store prepared slot)
      (fun _ scratch => Keyed F store prepared.bm25 scratch ∧ hold scratch ∧
        scratch.normEpochs[slot]? = some scratch.epoch)
      (fun scratch => Keyed F store prepared.bm25 scratch ∧ (slot < store.slotCount → store.slotWordCount slot = none)) := by
  rintro scratch ⟨keyed, held⟩
  rw [refreshNorm_run]
  cases read : scratch.normEpochs[slot]? with
  | none =>
    refine ⟨keyed, fun inside => ?_⟩
    have outside := List.getElem?_eq_none_iff.mp read
    have := keyed.epochs_length
    have := keyed.room
    omega
  | some stamp =>
    have bound : slot < scratch.normEpochs.length := (List.getElem?_eq_some_iff.mp read).1
    dsimp only
    by_cases fresh : stamp = scratch.epoch
    · rw [if_pos fresh]
      exact ⟨keyed, held, by rw [read, fresh]⟩
    rw [if_neg fresh]
    have past : ∀ stamp ∈ scratch.normEpochs.set slot scratch.epoch, stamp ≤ scratch.epoch := by
      intro stamp member
      rcases mem_or_eq_of_mem_set member with old | rfl
      · exact keyed.past stamp old
      · exact le_refl _
    have length : (scratch.normEpochs.set slot scratch.epoch).length = scratch.scores.length := by
      rw [length_set, keyed.epochs_length]
    have stays (other : Nat) (stamped : scratch.normEpochs[other]? = some scratch.epoch) :
        (scratch.normEpochs.set slot scratch.epoch)[other]? = some scratch.epoch := by
      by_cases same : slot = other
      · rw [← same, getElem?_set_self bound]
      · rw [getElem?_set_ne same, stamped]
    have full : scratch.complete = true → ∀ other < store.slotCount,
        (scratch.normEpochs.set slot scratch.epoch)[other]? = some scratch.epoch :=
      fun complete other inside => stays other (keyed.full complete other inside)
    cases counted : store.slotWordCount slot with
    | none =>
      refine ⟨⟨⟨keyed.norms_length, length, past, keyed.bounded, keyed.started⟩, ⟨?_, full⟩, keyed.dirty, keyed.room,
        keyed.key⟩, fun _ => rfl⟩
      intro other inside stamped norm own
      have apart : slot ≠ other := by
        rintro rfl
        rw [normOf, counted] at own
        cases own
      rw [getElem?_set_ne apart] at stamped
      exact keyed.norms other inside stamped norm own
    | some words =>
      refine ⟨⟨⟨?_, length, past, keyed.bounded, keyed.started⟩, ⟨?_, full⟩, keyed.dirty, keyed.room, keyed.key⟩,
        frame _ _ _ stays held, ?_⟩
      · rw [length_set, keyed.norms_length]
      · intro other inside stamped norm own
        by_cases same : slot = other
        · rw [← same, normOf, counted, Option.map_some, Option.some.injEq] at own
          rw [← same, getElem?_set_self, own]
          rw [keyed.norms_length, ← keyed.epochs_length]
          exact bound
        · rw [getElem?_set_ne same] at stamped ⊢
          exact keyed.norms other inside stamped norm own
      · exact getElem?_set_self bound

theorem fillNorms_leads (scores : List UInt64) :
    Leads (fun scratch => Keyed F store prepared.bm25 scratch ∧ scratch.scores = scores) (fillNorms F store prepared)
      (fun _ scratch => Keyed F store prepared.bm25 scratch ∧ scratch.scores = scores ∧ scratch.complete = true)
      (fun scratch => Keyed F store prepared.bm25 scratch ∧ ∃ slot < store.slotCount, store.slotWordCount slot = none) := by
  unfold fillNorms
  let held (done : List Nat) (_ : Unit) (scratch : LexicalScratch) : Prop :=
    Keyed F store prepared.bm25 scratch ∧ scratch.scores = scores ∧
      ∀ slot ∈ done, scratch.normEpochs[slot]? = some scratch.epoch
  refine Leads.bind (M := held (List.range store.slotCount)) ?_ fun _ => ?_
  · refine (Leads.foldlM held ?_).mono (fun scratch start => ⟨start.1, start.2, fun _ none => nomatch none⟩)
      (fun _ _ kept => kept) (fun _ kept => kept)
    intro done slot rest _ whole
    have inside : slot < store.slotCount := by
      rw [← mem_range, whole]
      exact mem_append_right _ mem_cons_self
    refine (refreshNorm_leads (fun scratch => scratch.scores = scores ∧
      ∀ slot ∈ done, scratch.normEpochs[slot]? = some scratch.epoch) ?_).mono (fun _ kept => kept) ?_ ?_
    · intro scratch norms normEpochs stays kept
      exact ⟨kept.1, fun slot member => stays slot (kept.2 slot member)⟩
    · rintro _ scratch ⟨keyed, ⟨same, earlier⟩, own⟩
      refine ⟨keyed, same, fun other member => ?_⟩
      rcases mem_append.mp member with old | new
      · exact earlier other old
      · rw [mem_singleton.mp new, own]
    · rintro scratch ⟨keyed, missing⟩
      exact ⟨keyed, slot, inside, missing inside⟩
  · refine Leads.modify fun scratch => ?_
    rintro ⟨keyed, same, stamped⟩
    refine ⟨⟨{ keyed with }, ⟨keyed.norms, fun _ slot inside => ?_⟩, keyed.dirty, keyed.room, keyed.key⟩, same, rfl⟩
    exact stamped slot (mem_range.mpr inside)

end Refresh

end Warm.Lexical
