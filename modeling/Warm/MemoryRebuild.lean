import Mathlib.Data.List.Nodup
import Warm.MemoryIndex

/-! What the stored documents say about links, groups, entities and windows, and that a rebuilt index holds exactly
that. -/
namespace Warm.Memory

open List

/-- The second fact supersedes the first, by its own stamp or by the first one's hint. -/
def Supersedes (documents : Documents) (old by_ : String) : Prop :=
  (∃ stamp, trackedStamp documents by_ = some stamp ∧ old ∈ stamp.supersedes) ∨
    ∃ stamp, trackedStamp documents old = some stamp ∧ by_ ∈ stamp.supersededBy ∧ (trackedStamp documents by_).isSome

def windowedIds (documents : Documents) : Finset String :=
  (((Index.stamps documents).filter fun entry => entry.2.windowed).map Prod.fst).toFinset

namespace Index

/-- The index holds what the documents say. -/
structure Mirrors (index : Index) (documents : Documents) : Prop where
  coherent : index.Coherent (known documents)
  links : ∀ old by_, index.Links old by_ ↔ Supersedes documents old by_
  group : ∀ subject entry, entry ∈ index.group subject ↔
    ∃ stamp, trackedStamp documents entry.id = some stamp ∧ stamp.subject = some subject ∧
      stamp.times = (entry.effective, entry.ingest)
  entities : ∀ entity id, id ∈ index.entityIds entity ↔
    ∃ stamp, trackedStamp documents id = some stamp ∧ entity ∈ stamp.entities
  windowed : index.windowed = (windowedIds documents).card

theorem trackedStamp_eq_some {id : String} {stamp : Stamp} :
    trackedStamp documents id = some stamp ↔
      (∃ parts, documents[id]? = some parts ∧ parts.stamp = some stamp) ∧ stamp.tracked = true := by
  unfold trackedStamp
  rw [Option.filter_eq_some_iff, Option.bind_eq_some_iff]

theorem mem_stamps (documents : Documents) (id : String) (stamp : Stamp) :
    (id, stamp) ∈ stamps documents ↔ trackedStamp documents id = some stamp := by
  unfold stamps
  rw [mem_filterMap]
  constructor
  · rintro ⟨⟨key, parts⟩, -, found⟩
    obtain ⟨own, tracked, equal⟩ := Option.map_eq_some_iff.mp found
    obtain ⟨rfl, rfl⟩ := Prod.mk.inj equal
    exact tracked
  · intro tracked
    obtain ⟨⟨parts, found, -⟩, -⟩ := trackedStamp_eq_some.mp tracked
    exact ⟨(id, parts), (Table.mem_toList documents id parts).mpr found, by simp [tracked]⟩

theorem stamps_nodup (documents : Documents) : ((stamps documents).map Prod.fst).Nodup := by
  unfold stamps
  have keys := Table.toList_keys_nodup documents
  generalize documents.toList = entries at keys
  induction entries with
  | nil => exact nodup_nil
  | cons entry entries ih =>
    rw [map_cons, nodup_cons] at keys
    rw [filterMap_cons]
    split
    · exact ih keys.2
    · next found kept =>
      obtain ⟨stamp, -, rfl⟩ := Option.map_eq_some_iff.mp kept
      rw [map_cons, nodup_cons]
      refine ⟨?_, ih keys.2⟩
      intro again
      obtain ⟨⟨key, other⟩, member, same⟩ := mem_map.mp again
      obtain ⟨source, inside, own⟩ := mem_filterMap.mp member
      obtain ⟨_, -, equal⟩ := Option.map_eq_some_iff.mp own
      apply keys.1
      rw [← show key = entry.1 from same, ← (Prod.mk.inj equal).1]
      exact mem_map_of_mem inside

theorem mem_windowedIds (documents : Documents) (id : String) :
    id ∈ windowedIds documents ↔ ∃ stamp, trackedStamp documents id = some stamp ∧ stamp.windowed = true := by
  unfold windowedIds
  rw [mem_toFinset, mem_map]
  constructor
  · rintro ⟨⟨key, stamp⟩, member, rfl⟩
    obtain ⟨inside, windowed⟩ := mem_filter.mp member
    exact ⟨stamp, (mem_stamps documents key stamp).mp inside, windowed⟩
  · rintro ⟨stamp, tracked, windowed⟩
    exact ⟨(id, stamp), mem_filter.mpr ⟨(mem_stamps documents id stamp).mpr tracked, windowed⟩, rfl⟩

section InsertAll

variable (lookup : String → String → Option (Millis × Millis))

/-- Inserts facts one after another. -/
def insertAll (index : Index) (entries : List (String × Stamp)) : Index :=
  entries.foldl (fun index entry => index.insert entry.1 entry.2 (lookup entry.1)) index

theorem links_insertAll (index : Index) (entries : List (String × Stamp)) (a b : String) :
    (index.insertAll lookup entries).Links a b ↔
      index.Links a b ∨ ∃ entry ∈ entries, (a ∈ entry.2.supersedes ∧ b = entry.1) ∨
        (a = entry.1 ∧ b ∈ entry.2.supersededBy ∧ (lookup entry.1 b).isSome) := by
  unfold insertAll
  induction entries generalizing index with
  | nil => simp
  | cons entry entries ih =>
    rw [foldl_cons, ih, links_insert, exists_mem_cons_iff, or_assoc]

theorem Coherent.insertAll {index : Index} {entries : List (String × Stamp)} (coherent : index.Coherent times)
    (own : ∀ entry ∈ entries, entry.2.supersedes ≠ [] → times entry.1 = some entry.2.times)
    (known : ∀ entry ∈ entries, ∀ by_ ∈ entry.2.supersededBy, ∀ found, lookup entry.1 by_ = some found → times by_ = some found) :
    (index.insertAll lookup entries).Coherent times := by
  unfold Index.insertAll
  induction entries generalizing index with
  | nil => exact coherent
  | cons entry entries ih =>
    refine ih ?_ (forall_mem_cons.mp own).2
      (forall_mem_cons.mp known).2
    exact coherent.insert _ (own entry mem_cons_self) (known entry mem_cons_self)

theorem mem_group_insertAll (index : Index) (distinct : (entries.map Prod.fst).Nodup)
    (fresh : ∀ subject, ∀ entry ∈ index.group subject, entry.id ∉ entries.map Prod.fst) (subject : String)
    (member : Member) :
    member ∈ (index.insertAll lookup entries).group subject ↔
      member ∈ index.group subject ∨ ∃ entry ∈ entries, entry.2.subject = some subject ∧
        member = ⟨entry.1, entry.2.effectiveFrom, entry.2.ingest⟩ := by
  unfold insertAll
  induction entries generalizing index with
  | nil => simp
  | cons entry entries ih =>
    rw [map_cons, nodup_cons] at distinct
    rw [foldl_cons, ih, mem_group_insert, exists_mem_cons_iff]
    · constructor
      · rintro ((⟨before, -⟩ | ⟨own, equal⟩) | later)
        · exact .inl before
        · exact .inr (.inl ⟨own, equal⟩)
        · exact .inr (.inr later)
      · rintro (before | ⟨own, equal⟩ | later)
        · refine .inl (.inl ⟨before, fun both => fresh subject member before ?_⟩)
          rw [both.2]
          exact mem_cons_self
        · exact .inl (.inr ⟨own, equal⟩)
        · exact .inr later
    · exact distinct.2
    · intro other present inside again
      rcases (mem_group_insert index entry.1 entry.2 (lookup entry.1) other present).mp inside with
        ⟨before, -⟩ | ⟨-, equal⟩
      · exact fresh other present before (mem_cons_of_mem _ again)
      · rw [equal] at again
        exact distinct.1 again

theorem mem_entityIds_insertAll (index : Index) (entries : List (String × Stamp)) (entity id : String) :
    id ∈ (index.insertAll lookup entries).entityIds entity ↔
      id ∈ index.entityIds entity ∨ ∃ entry ∈ entries, id = entry.1 ∧ entity ∈ entry.2.entities := by
  unfold insertAll
  induction entries generalizing index with
  | nil => simp
  | cons entry entries ih =>
    rw [foldl_cons, ih, mem_entityIds_insert, exists_mem_cons_iff, or_assoc]

theorem windowed_insertAll (index : Index) (entries : List (String × Stamp)) :
    (index.insertAll lookup entries).windowed =
      index.windowed + (entries.filter fun entry => entry.2.windowed).length := by
  unfold insertAll
  induction entries generalizing index with
  | nil => simp
  | cons entry entries ih =>
    rw [foldl_cons, ih, windowed_insert, filter_cons]
    split <;> simp <;> omega

end InsertAll

theorem rebuild_mirrors (documents : Documents) (revision : Nat) : (rebuild documents revision).Mirrors documents := by
  have coherent : (insertAll (fun _ => known documents) empty (stamps documents)).Coherent (known documents) := by
    refine (coherent_empty _).insertAll _ ?_ ?_
    · intro entry member _
      simp [known, (mem_stamps documents entry.1 entry.2).mp member]
    · intro _ _ _ _ found same
      exact same
  constructor
  · exact coherent.congr (fun _ => rfl) (fun _ => rfl)
  · intro old by_
    have content : (rebuild documents revision).Links old by_ ↔
        (insertAll (fun _ => known documents) empty (stamps documents)).Links old by_ :=
      links_congr (fun _ => rfl) old by_
    rw [content, links_insertAll]
    unfold Supersedes
    constructor
    · rintro (none | ⟨⟨id, stamp⟩, member, ⟨superseded, rfl⟩ | ⟨rfl, hinted, found⟩⟩)
      · exact absurd none (links_empty old by_)
      · exact .inl ⟨stamp, (mem_stamps documents _ stamp).mp member, superseded⟩
      · refine .inr ⟨stamp, (mem_stamps documents _ stamp).mp member, hinted, ?_⟩
        simpa [known] using found
    · rintro (⟨stamp, tracked, superseded⟩ | ⟨stamp, tracked, hinted, found⟩)
      · exact .inr ⟨(by_, stamp), (mem_stamps documents by_ stamp).mpr tracked, .inl ⟨superseded, rfl⟩⟩
      · refine .inr ⟨(old, stamp), (mem_stamps documents old stamp).mpr tracked, .inr ⟨rfl, hinted, ?_⟩⟩
        simpa [known] using found
  · intro subject entry
    have content := mem_group_insertAll (fun _ => known documents) empty (stamps_nodup documents)
      (fun subject entry inside => by simp [empty, group] at inside) subject entry
    rw [show (rebuild documents revision).group subject = (insertAll (fun _ => known documents) empty
      (stamps documents)).group subject from rfl, content]
    constructor
    · rintro (none | ⟨⟨id, stamp⟩, member, own, rfl⟩)
      · simp [empty, group] at none
      · exact ⟨stamp, (mem_stamps documents id stamp).mp member, own, rfl⟩
    · rintro ⟨stamp, tracked, own, times⟩
      refine .inr ⟨(entry.id, stamp), (mem_stamps documents entry.id stamp).mpr tracked, own, ?_⟩
      obtain ⟨effective, ingest⟩ := Prod.mk.inj times
      rw [effective, ingest]
  · intro entity id
    rw [show (rebuild documents revision).entityIds entity = (insertAll (fun _ => known documents) empty
      (stamps documents)).entityIds entity from rfl, mem_entityIds_insertAll]
    constructor
    · rintro (none | ⟨⟨key, stamp⟩, member, rfl, own⟩)
      · simp [empty, entityIds] at none
      · exact ⟨stamp, (mem_stamps documents _ stamp).mp member, own⟩
    · rintro ⟨stamp, tracked, own⟩
      exact .inr ⟨(id, stamp), (mem_stamps documents id stamp).mpr tracked, rfl, own⟩
  · rw [show (rebuild documents revision).windowed = (insertAll (fun _ => known documents) empty
      (stamps documents)).windowed from rfl, windowed_insertAll]
    unfold windowedIds
    rw [toFinset_card_of_nodup, length_map]
    · simp [empty]
    · exact (stamps_nodup documents).sublist (filter_sublist.map Prod.fst)

theorem Mirrors.same (first : a.Mirrors documents) (second : b.Mirrors documents) :
    Same a b where
  windowed := first.windowed.trans second.windowed.symm
  edges := by
    intro id edge
    rw [first.coherent.mem_edges, second.coherent.mem_edges, first.links, second.links]
  predecessors := by
    intro id old
    rw [first.coherent.mirrored, second.coherent.mirrored, first.links, second.links]
  group := by
    intro subject entry
    rw [first.group, second.group]
  entity := by
    intro entity id
    rw [first.entities, second.entities]

theorem mirrors_iff (index : Index) (documents : Documents) (revision : Nat) :
    index.Mirrors documents ↔ Same index (rebuild documents revision) := by
  have rebuilt := rebuild_mirrors documents revision
  constructor
  · intro mirrors
    exact mirrors.same rebuilt
  · intro same
    have links (old by_ : String) : index.Links old by_ ↔ (rebuild documents revision).Links old by_ := by
      simp only [Links, same.edges]
    refine ⟨⟨?_, ?_⟩, ?_, ?_, ?_, ?_⟩
    · intro id edge member
      exact rebuilt.coherent.timed id edge ((same.edges id edge).mp member)
    · intro id old
      rw [same.predecessors, rebuilt.coherent.mirrored, links]
    · intro old by_
      rw [links, rebuilt.links]
    · intro subject entry
      rw [same.group, rebuilt.group]
    · intro entity id
      rw [same.entity, rebuilt.entities]
    · rw [same.windowed, rebuilt.windowed]

end Index

end Warm.Memory
