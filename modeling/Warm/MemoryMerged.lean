import Warm.Checked
import Warm.MemoryDuplicates

/-! What a remember that runs alone leaves: its facts with the texts and times of their inputs, and in the memory's index
the links of before, less those of overwritten facts, with those of the new ones. -/
namespace Warm.Memory

open Interleaving World List
open Except (ok.inj ok.injEq)

section Inputs

variable {settings : WriteSettings} {input : RememberInput} {documents : Documents} {index : Index} {earlier : List Planned}
  {now : Millis}

theorem collectExplicit_ok (collected : collectExplicit input = .ok explicit) (id : String) :
    id ∈ explicit ↔ id ∈ input.supersedes.getD [] := by
  unfold collectExplicit at collected
  obtain ⟨kept, folded, rest⟩ := bind_eq_ok.mp collected
  obtain ⟨_, -, rest⟩ := bind_eq_ok.mp rest
  obtain rfl := ok.inj rest
  rw [mem_sortIds]
  suffices grown : ∀ (ids start kept : List String), (ids.foldlM (fun explicit id => do
      check (validId id) "supersedes holds an invalid fact id"
      return pushUnique explicit id) start : Except MemoryError (List String)) = .ok kept →
      (id ∈ kept ↔ id ∈ start ∨ id ∈ ids) by
    simpa using grown _ _ _ folded
  intro ids
  induction ids with
  | nil =>
    intro start kept folded
    obtain rfl := ok.inj folded
    simp
  | cons first ids ih =>
    intro start kept folded
    obtain ⟨next, own, rest⟩ := bind_eq_ok.mp folded
    obtain ⟨_, -, pushed⟩ := bind_eq_ok.mp own
    obtain rfl := ok.inj pushed
    rw [ih _ _ rest, mem_cons]
    have added := mem_foldl_pushUnique start [first] id
    rw [foldl_cons, foldl_nil, mem_singleton] at added
    rw [added, or_assoc]

theorem planOne_text (planned : (planOne settings earlier input now).eval (answer documents index) = .ok fact)
    (written : fact.idempotent = false) : ∃ parts, fact.document = some parts ∧ parts.text = some input.text := by
  have content {checked : Checked} {replaces : Bool} {previous : Option Stamp}
      (fresh : (planOne.planFact settings earlier input now checked replaces previous).eval (answer documents index) =
        .ok fact) : ∃ parts, fact.document = some parts ∧ parts.text = some input.text := by
    unfold planOne.planFact at fresh
    obtain ⟨_, -, rest⟩ := (Plan.eval_bind_eq_ok _).mp fresh
    obtain ⟨links, -, rest⟩ := (Plan.eval_bind_eq_ok _).mp rest
    obtain ⟨_, -, rest⟩ := (Plan.eval_bind_eq_ok _).mp rest
    obtain ⟨document, made, rest⟩ := (Plan.eval_bind_eq_ok _).mp rest
    rw [Plan.eval_pure, ok.injEq] at rest
    subst rest
    refine ⟨document, rfl, ?_⟩
    rw [Plan.eval_lift] at made
    simp only [planDocument] at made
    split at made
    · simp [throw, throwThe, MonadExceptOf.throw] at made
    · obtain ⟨_, -, same⟩ := bind_eq_ok.mp made
      obtain rfl := ok.inj same
      rfl
  unfold planOne at planned
  obtain ⟨checked, -, rest⟩ := (Plan.eval_bind_eq_ok _).mp planned
  obtain ⟨existing, -, rest⟩ := (Plan.eval_bind_eq_ok _).mp rest
  cases existing with
  | identical stamp =>
    rw [Plan.eval_pure, ok.injEq] at rest
    subst rest
    simp at written
  | nothing => exact content rest
  | replaced previous => exact content rest

end Inputs

section Grown

variable {index index' : Index} {documents documents' : Documents} {written : List Planned}

/-- An index after a call against the one before: edges between facts that were not written stay, written facts supersede
what their stamps name, and there are no others but those of hints that named a written fact before. -/
structure Grown (documents : Documents) (written : List Planned) (index index' : Index) : Prop where
  old : ∀ id ∉ written.map (·.id), ∀ edge ∈ index.edges id, edge.by_ ∉ written.map (·.id) →
    ∃ edge' ∈ index'.edges id, edge'.effective = edge.effective
  new : ∀ fact ∈ written, ∀ old ∈ fact.stamp.supersedes, ∃ edge' ∈ index'.edges old, edge'.effective = fact.stamp.effectiveFrom
  only : ∀ id ∉ written.map (·.id), ∀ edge' ∈ index'.edges id,
    (∃ edge ∈ index.edges id, edge.effective = edge'.effective) ∨
    ∃ fact ∈ written, edge'.effective = fact.stamp.effectiveFrom ∧ (id ∈ fact.stamp.supersedes ∨
      ∃ stamp, trackedStamp documents id = some stamp ∧ fact.id ∈ stamp.supersededBy)

theorem Index.Coherent.edge_of_links (coherent : index.Coherent times) (linked : index.Links old by_)
    (known : times by_ = some (effective, ingest)) : ∃ edge ∈ index.edges old, edge.effective = effective := by
  obtain ⟨edge, member, rfl⟩ := linked
  have timed := coherent.timed old edge member
  rw [known, Option.some.injEq, Prod.mk.injEq] at timed
  exact ⟨edge, member, timed.1.symm⟩

theorem With.known_other (now : With documents documents' written) {id : String} (apart : id ∉ written.map (·.id)) :
    Index.known documents' id = Index.known documents id := by
  unfold Index.known
  rw [now.trackedStamp_other apart]

theorem With.known_written (now : With documents documents' written) (writes : Writes documents written)
    (member : fact ∈ written) (tracked : fact.stamp.tracked = true) :
    Index.known documents' fact.id = some fact.stamp.times := by
  unfold Index.known
  rw [now.trackedStamp_written writes member, if_pos tracked]
  rfl

theorem grown_of_mirrors (mirrors : index.Mirrors documents) (mirrors' : index'.Mirrors documents')
    (writes : Writes documents written) (tracked : ∀ fact ∈ written, fact.stamp.tracked = true)
    (now : With documents documents' written) : Grown documents written index index' where
  old := by
    intro id apart edge member byApart
    suffices linked : Supersedes documents' id edge.by_ from
      mirrors'.coherent.edge_of_links ((mirrors'.links id edge.by_).mpr linked)
        ((now.known_other byApart).trans (mirrors.coherent.timed id edge member))
    have before := (mirrors.links id edge.by_).mp ⟨edge, member, rfl⟩
    unfold Supersedes at before ⊢
    rwa [now.trackedStamp_other apart, now.trackedStamp_other byApart]
  new := by
    intro fact member old named
    refine mirrors'.coherent.edge_of_links ((mirrors'.links old fact.id).mpr (.inl ⟨fact.stamp, ?_, named⟩))
      (now.known_written writes member (tracked fact member))
    rw [now.trackedStamp_written writes member, if_pos (tracked fact member)]
  only := by
    intro id apart edge' member
    have timed := mirrors'.coherent.timed id edge' member
    have linked := (mirrors'.links id edge'.by_).mp ⟨edge', member, rfl⟩
    by_cases own : edge'.by_ ∈ written.map (·.id)
    · obtain ⟨fact, inside, same⟩ := mem_map.mp own
      rw [← same, now.known_written writes inside (tracked fact inside), Option.some.injEq] at timed
      refine .inr ⟨fact, inside, (Prod.mk.inj timed).1.symm, ?_⟩
      rcases linked with ⟨stamp, found, named⟩ | ⟨stamp, found, hint, -⟩
      · rw [← same, now.trackedStamp_written writes inside, if_pos (tracked fact inside), Option.some.injEq] at found
        exact .inl (found ▸ named)
      · rw [now.trackedStamp_other apart] at found
        exact .inr ⟨stamp, found, same ▸ hint⟩
    · rw [now.known_other own] at timed
      refine .inl (mirrors.coherent.edge_of_links ((mirrors.links id edge'.by_).mpr ?_) timed)
      unfold Supersedes at linked ⊢
      rwa [now.trackedStamp_other apart, now.trackedStamp_other own] at linked

theorem grown_of_settle (mirrors : index.Mirrors documents) (writes : Writes documents written)
    (tracked : ∀ fact ∈ written, fact.stamp.tracked = true) (now : With documents documents' written)
    (applied : settleWritten written index = some index') : Grown documents written index index' := by
  obtain ⟨free, -⟩ := settleWritten_eq_some mirrors writes applied
  obtain ⟨coherent, links⟩ := settleWritten_links mirrors writes (fun _ _ _ _ other member _ => tracked other member) now applied
  refine ⟨?_, ?_, ?_⟩
  · intro id apart edge member byApart
    exact coherent.edge_of_links ((links id edge.by_).mpr (.inl ⟨edge, member, rfl⟩))
      ((now.known_other byApart).trans (mirrors.coherent.timed id edge member))
  · intro fact member old named
    exact coherent.edge_of_links ((links old fact.id).mpr (.inr ⟨fact, member, .inl ⟨named, rfl⟩⟩))
      (now.known_written writes member (tracked fact member))
  · intro id apart edge' member
    have timed := coherent.timed id edge' member
    rcases (links id edge'.by_).mp ⟨edge', member, rfl⟩ with before | ⟨fact, inside, ⟨named, same⟩ | ⟨rfl, -⟩⟩
    · obtain ⟨byApart, -⟩ := writes.unlinked mirrors free before
      rw [now.known_other byApart] at timed
      exact .inl (mirrors.coherent.edge_of_links before timed)
    · rw [same, now.known_written writes inside (tracked fact inside), Option.some.injEq] at timed
      exact .inr ⟨fact, inside, (Prod.mk.inj timed).1.symm, .inl named⟩
    · exact absurd (mem_map_of_mem inside) apart

end Grown

end Warm.Memory
