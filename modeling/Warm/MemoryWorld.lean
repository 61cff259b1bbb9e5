import Warm.MemoryPlanned

/-! What calls that share a store keep: an index with a revision describes the documents of that revision, and while the
store stays at a revision a memory's index for it stays what it was. -/
namespace Warm.Memory

open Interleaving

/-- The index holds what the documents say, and lists no member twice. -/
structure Index.Describes (index : Index) (documents : Documents) : Prop where
  mirrors : index.Mirrors documents
  tidy : index.Tidy

theorem Index.Describes.withRevision {index : Index} (describes : index.Describes documents) (revision : Option Nat) :
    ({ index with revision := revision } : Index).Describes documents where
  mirrors :=
    { coherent := describes.mirrors.coherent.congr (fun _ => rfl) (fun _ => rfl)
      links := describes.mirrors.links
      group := describes.mirrors.group
      entities := describes.mirrors.entities
      windowed := describes.mirrors.windowed }
  tidy := describes.tidy.congr fun _ => rfl

theorem Index.rebuild_describes (documents : Documents) (revision : Nat) :
    (rebuild documents revision).Describes documents :=
  ⟨rebuild_mirrors documents revision, rebuild_tidy documents revision⟩

namespace World

/-- Every index with a revision describes the documents of that revision. -/
def Sound (world : World) : Prop :=
  ∀ memory revision, (world.index memory).revision = some revision →
    revision ≤ world.revision ∧ (world.index memory).Describes (world.history revision)

/-- A memory's index describes the current documents and is marked with no other revision. -/
def Held (world : World) (memory : Nat) : Prop :=
  ((world.index memory).revision = some world.revision ∨ (world.index memory).revision = none) ∧
    (world.index memory).Describes world.documents

/-- What any step may do: the past stays, and an index that is held stays held while the store stays. -/
structure Later (a b : World) : Prop where
  revision : a.revision ≤ b.revision
  history : ∀ revision ≤ a.revision, b.history revision = a.history revision
  held : ∀ memory, b.revision = a.revision → a.Held memory → b.Held memory

theorem Later.refl (world : World) : Later world world :=
  ⟨le_refl _, fun _ _ => rfl, fun _ _ held => held⟩

theorem Later.trans (first : Later a b) (second : Later b c) : Later a c where
  revision := first.revision.trans second.revision
  history := by
    intro revision bound
    rw [second.history revision (bound.trans first.revision), first.history revision bound]
  held := by
    intro memory same held
    have middle : b.revision = a.revision := by
      have := first.revision
      have := second.revision
      omega
    exact second.held memory (same.trans middle.symm) (first.held memory middle held)

instance : Std.Refl Later := ⟨Later.refl⟩

instance : IsTrans World Later := ⟨fun _ _ _ => Later.trans⟩

theorem sound_of_unread {world : World} (unread : world.index = fun _ => Index.empty) : world.Sound := by
  intro memory revision marked
  rw [unread] at marked
  simp [Index.empty] at marked

theorem Sound.empty : World.empty.Sound :=
  sound_of_unread rfl

/-- The documents another writer leaves. -/
def write (world : World) (documents : Documents) : World :=
  { world with
    revision := world.revision + 1
    history := Function.update world.history (world.revision + 1) documents }

theorem commit_eq_write (world : World) (transaction : Transaction) (installed : String → Bool) :
    world.commit transaction installed = world.write (transaction.apply installed world.documents) :=
  rfl

section Write

variable (world : World) (documents : Documents)

@[simp] theorem write_revision : (world.write documents).revision = world.revision + 1 :=
  rfl

@[simp] theorem write_history_new : (world.write documents).history (world.revision + 1) = documents := by
  simp [write]

theorem write_history_old {revision : Nat} (bound : revision ≤ world.revision) :
    (world.write documents).history revision = world.history revision := by
  have apart : revision ≠ world.revision + 1 := by omega
  simp [write, Function.update_of_ne apart]

theorem later_write : Later world (world.write documents) where
  revision := by simp
  history := fun _ bound => world.write_history_old documents bound
  held := by
    intro memory same
    simp at same

theorem Sound.write {world : World} (sound : world.Sound) (documents : Documents) : (world.write documents).Sound := by
  intro memory revision marked
  obtain ⟨bound, describes⟩ := sound memory revision marked
  refine ⟨Nat.le_succ_of_le bound, ?_⟩
  rw [world.write_history_old documents bound]
  exact describes

end Write

section SetIndex

variable {world : World} {memory : Nat} {index : Index}

theorem Sound.setIndex (sound : world.Sound)
    (described : ∀ revision, index.revision = some revision →
      revision ≤ world.revision ∧ index.Describes (world.history revision)) : (world.setIndex memory index).Sound := by
  intro other revision marked
  by_cases own : other = memory
  · subst own
    simp only [World.setIndex, Function.update_self] at marked ⊢
    exact described revision marked
  · simp only [World.setIndex, Function.update_of_ne own] at marked ⊢
    exact sound other revision marked

theorem later_setIndex (stays : world.Held memory → (world.setIndex memory index).Held memory) :
    Later world (world.setIndex memory index) where
  revision := le_refl _
  history := fun _ _ => rfl
  held := by
    intro other _ held
    by_cases own : other = memory
    · subst own
      exact stays held
    · simpa only [Held, World.setIndex, Function.update_of_ne own, World.documents] using held

theorem held_setIndex : (world.setIndex memory index).Held memory ↔
    (index.revision = some world.revision ∨ index.revision = none) ∧ index.Describes world.documents := by
  simp only [Held, World.setIndex, Function.update_self, World.documents]

end SetIndex

section Commands

variable {world : World}

theorem Sound.refreshed (sound : world.Sound) (memory : Nat) : (refreshed world memory).Sound := by
  unfold Memory.refreshed
  split
  · exact sound
  · apply sound.setIndex
    intro revision marked
    simp only [Index.rebuild, Option.some.injEq] at marked
    subst marked
    exact ⟨le_refl _, Index.rebuild_describes world.documents world.revision⟩

theorem later_refreshed (world : World) (memory : Nat) : Later world (refreshed world memory) := by
  unfold Memory.refreshed
  split
  · exact Later.refl world
  · apply later_setIndex
    intro _
    exact held_setIndex.mpr ⟨.inl rfl, Index.rebuild_describes world.documents world.revision⟩

theorem Sound.unsettle (sound : world.Sound) (memory : Nat) :
    (world.setIndex memory { world.index memory with revision := none }).Sound := by
  apply sound.setIndex
  intro revision marked
  simp at marked

theorem later_unsettle (world : World) (memory : Nat) :
    Later world (world.setIndex memory { world.index memory with revision := none }) := by
  apply later_setIndex
  intro held
  exact held_setIndex.mpr ⟨.inr rfl, held.2.withRevision none⟩

theorem Sound.settle (sound : world.Sound) {memory before after commits : Nat} (reached : after ≤ world.revision)
    (follows : after = before + commits → ∀ index updated, index.Describes (world.history before) → apply index = some updated → updated.Describes (world.history after)) :
    (world.setIndex memory (settled (world.index memory) before after commits apply)).Sound := by
  apply sound.setIndex
  intro revision marked
  unfold settled at marked ⊢
  split at marked
  · next own =>
    rw [if_pos own]
    cases applied : apply (world.index memory) with
    | none => simp [applied] at marked
    | some updated =>
      simp only [applied, Option.some.injEq] at marked
      subst marked
      have describes := (sound memory before own.1).2
      exact ⟨reached, (follows own.2 _ updated describes applied).withRevision _⟩
  · simp at marked

theorem later_settle (world : World) {memory before after commits : Nat} (apply : Index → Option Index)
    (moved : 0 < commits) (reached : after ≤ world.revision) :
    Later world (world.setIndex memory (settled (world.index memory) before after commits apply)) := by
  apply later_setIndex
  intro held
  have elsewhere : ¬((world.index memory).revision = some before ∧ after = before + commits) := by
    rintro ⟨marked, own⟩
    rcases held.1 with same | none
    · rw [marked, Option.some.injEq] at same
      omega
    · rw [marked] at none
      simp at none
  unfold settled
  rw [if_neg elsewhere]
  exact held_setIndex.mpr ⟨.inr rfl, held.2.withRevision none⟩

theorem changed_cases (world : World) (transaction : Transaction) (revision : Nat) (fault : Fault) :
    ((changed world transaction revision fault).2 = world ∧
      ((changed world transaction revision fault).1 = .ok false → world.revision ≠ revision) ∧
      ((changed world transaction revision fault).1 = .ok true →
        transaction.inputs = [] ∧ transaction.deleted = [] ∧ world.revision = revision) ∧
      ∀ effect, (changed world transaction revision fault).1 ≠ .error (.committed effect)) ∨
    (world.revision = revision ∧ ¬(transaction.inputs = [] ∧ transaction.deleted = []) ∧
      (∃ installed, (changed world transaction revision fault).2 = world.commit transaction installed ∧
        ((changed world transaction revision fault).1 = .ok true ∧ installed = (fun _ => true) ∨
          (changed world transaction revision fault).1 = .error (.committed "live publication")))) := by
  unfold changed
  split
  · exact .inl ⟨rfl, by simp, by simp, by simp⟩
  split
  · next none =>
    rw [Bool.and_eq_true, List.isEmpty_iff, List.isEmpty_iff] at none
    refine .inl ⟨rfl, fun late => ?_, fun matched => ⟨none.1, none.2, ?_⟩, by simp⟩
    · simpa using late
    · simpa using matched
  · next some =>
    have filled : ¬(transaction.inputs = [] ∧ transaction.deleted = []) := by
      rintro ⟨first, second⟩
      simp [first, second] at some
    cases fault with
    | refused message => exact .inl ⟨rfl, by simp, by simp, by simp⟩
    | none =>
      simp only
      split
      · next same => exact .inr ⟨same, filled, _, rfl, .inl ⟨rfl, rfl⟩⟩
      · next late => exact .inl ⟨rfl, fun _ => late, by simp, by simp⟩
    | unpublished installed =>
      simp only
      split
      · next same => exact .inr ⟨same, filled, installed, rfl, .inr rfl⟩
      · next late => exact .inl ⟨rfl, fun _ => late, by simp, by simp⟩

theorem Sound.changed (sound : world.Sound) (transaction : Transaction) (revision : Nat) (fault : Fault) :
    (changed world transaction revision fault).2.Sound := by
  rcases changed_cases world transaction revision fault with ⟨same, -⟩ | ⟨-, -, installed, committed, -⟩
  · rw [same]
    exact sound
  · rw [committed, commit_eq_write]
    exact sound.write _

theorem later_changed (world : World) (transaction : Transaction) (revision : Nat) (fault : Fault) :
    Later world (changed world transaction revision fault).2 := by
  rcases changed_cases world transaction revision fault with ⟨same, -⟩ | ⟨-, -, installed, committed, -⟩
  · rw [same]
    exact Later.refl world
  · rw [committed, commit_eq_write]
    exact later_write world _

end Commands

end World

end Warm.Memory
