import Warm.MemoryAlone
import Warm.MemoryBridge

/-! A forget that runs alone: its transactions, the documents after any prefix of them, and what is then left of the
chains between the facts that survive. -/
namespace Warm.Memory

open List hiding after all count length

open Interleaving World

section Commits

/-- The world after transactions one after another. -/
def World.commits (world : World) (transactions : List Transaction) : World :=
  transactions.foldl (fun world transaction => world.commit transaction fun _ => true) world

variable (world : World)

end Commits

section Run

variable {fault : Fault} {memory : Nat} {world after : World}

theorem changed_alone (filled : transaction.inputs ≠ [] ∨ transaction.deleted ≠ [])
    (ran : changed world transaction world.revision fault = (.ok landed, after)) :
    landed = true ∧ after = world.commit transaction fun _ => true := by
  have cases := changed_cases world transaction world.revision fault
  rw [ran] at cases
  rcases cases with ⟨-, late, nothing, -⟩ | ⟨-, -, installed, written, ⟨done, whole⟩ | failed⟩
  · cases landed with
    | false => exact absurd rfl (late rfl)
    | true =>
      obtain ⟨none, none', -⟩ := nothing rfl
      rcases filled with filled | filled
      · exact absurd none filled
      · exact absurd none' filled
  · exact ⟨Except.ok.inj done, by rw [← whole]; exact written⟩
  · simp at failed

/-- The store of the second world is that of the first; its indexes may differ. -/
def SameStore (world after : World) : Prop :=
  after.revision = world.revision ∧ after.history = world.history

theorem SameStore.refl (world : World) : SameStore world world :=
  ⟨rfl, rfl⟩

theorem SameStore.trans (first : SameStore a b) (second : SameStore b c) : SameStore a c :=
  ⟨second.1.trans first.1, second.2.trans first.2⟩

theorem SameStore.documents (same : SameStore a b) : b.documents = a.documents := by
  rw [World.documents, World.documents, same.1, same.2]

theorem SameStore.commits (same : SameStore a b) (transactions : List Transaction) :
    SameStore (a.commits transactions) (b.commits transactions) := by
  induction transactions generalizing a b with
  | nil => exact same
  | cons transaction rest ih =>
    refine ih ⟨?_, ?_⟩
    · simp only [World.commit, same.1]
    · simp only [World.commit, same.1, same.2, same.documents]

end Run

section Prefixes

variable {documents now : Documents} {dead gone : List String} {linked : List (String × DocumentParts)} {world : World}

theorem Partway.start (documents : Documents) (dead : List String) : Partway documents dead [] [] documents where
  distinct := nodup_nil
  within := forall_mem_nil _
  removed := forall_mem_nil _
  order := .inl rfl
  now := fun id => by simp

theorem Partway.relink (state : Partway documents dead linked [] now)
    (planned : ∀ entry ∈ batch, entry ∈ rewritesOf documents dead) (distinct : ((linked ++ batch).map Prod.fst).Nodup) :
    Partway documents dead (linked ++ batch) [] ((Transaction.relink batch).apply (fun _ => true) now) where
  distinct := distinct
  within := forall_mem_append.mpr ⟨state.within, planned⟩
  removed := forall_mem_nil _
  order := .inl rfl
  now := by
    intro id
    rw [if_neg not_mem_nil]
    refine relink_now (fun id => ?_) distinct id
    rw [state.now, if_neg not_mem_nil]

theorem Partway.delete (state : Partway documents dead linked gone now)
    (all : ∀ entry ∈ rewritesOf documents dead, entry ∈ linked) (planned : ∀ id ∈ batch, id ∈ dead) :
    Partway documents dead linked (gone ++ batch) ((Transaction.delete batch).apply (fun _ => true) now) where
  distinct := state.distinct
  within := state.within
  removed := forall_mem_append.mpr ⟨state.removed, planned⟩
  order := .inr all
  now := fun id => delete_now state.now batch id

theorem commit_documents (transaction : Transaction) :
    (world.commit transaction fun _ => true).documents = transaction.apply (fun _ => true) world.documents := by
  simp [World.documents, World.commit]

theorem Partway.relinks {batches : List (List (String × DocumentParts))} (state : Partway documents dead linked [] world.documents)
    (planned : ∀ entry ∈ batches.flatten, entry ∈ rewritesOf documents dead)
    (distinct : ((linked ++ batches.flatten).map Prod.fst).Nodup) :
    Partway documents dead (linked ++ batches.flatten) [] (world.commits (batches.map Transaction.relink)).documents := by
  induction batches generalizing world linked with
  | nil =>
    rw [flatten_nil, append_nil]
    exact state
  | cons batch batches ih =>
    rw [flatten_cons, ← append_assoc] at distinct ⊢
    have front : ((linked ++ batch).map Prod.fst).Nodup := by
      rw [map_append] at distinct
      exact (nodup_append.mp distinct).1
    have next := state.relink (forall_mem_append.mp planned).1 front
    rw [← commit_documents] at next
    exact ih next (forall_mem_append.mp planned).2 distinct

theorem Partway.deletes {batches : List (List String)} (state : Partway documents dead linked gone world.documents)
    (all : ∀ entry ∈ rewritesOf documents dead, entry ∈ linked) (planned : ∀ id ∈ batches.flatten, id ∈ dead) :
    Partway documents dead linked (gone ++ batches.flatten) (world.commits (batches.map Transaction.delete)).documents := by
  induction batches generalizing world gone with
  | nil =>
    rw [flatten_nil, append_nil]
    exact state
  | cons batch batches ih =>
    have next := state.delete all (forall_mem_append.mp planned).1
    rw [← commit_documents] at next
    rw [flatten_cons, ← append_assoc]
    exact ih next (forall_mem_append.mp planned).2

end Prefixes

section Completes

variable {memory : Nat} {world : World}

end Completes

end Warm.Memory
