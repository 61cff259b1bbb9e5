import Warm.MemoryCalls

/-! The index after a call's own transaction: taking the old stamps out and the new ones in leaves what a rebuild of the
changed documents would hold, unless the transaction is one that only a rebuild can follow. -/
namespace Warm.Memory

open List
open Prod (fst mk.inj)

namespace Index

section RemoveAll

/-- Removes facts one after another. -/
def removeAll (index : Index) (entries : List (String × Stamp)) : Index :=
  entries.foldl (fun index entry => index.remove entry.1 entry.2) index

variable {times : String → Option (Millis × Millis)}

theorem Coherent.removeAll {index : Index} (coherent : index.Coherent times) (entries : List (String × Stamp)) :
    (index.removeAll entries).Coherent times := by
  unfold Index.removeAll
  induction entries generalizing index with
  | nil => exact coherent
  | cons entry entries ih => exact ih (coherent.remove entry.1 entry.2)

theorem Coherent.links_removeAll {index : Index} (coherent : index.Coherent times) (entries : List (String × Stamp))
    (old by_ : String) :
    (index.removeAll entries).Links old by_ ↔
      index.Links old by_ ∧ old ∉ entries.map fst ∧ by_ ∉ entries.map fst := by
  unfold Index.removeAll
  induction entries generalizing index with
  | nil => simp
  | cons entry entries ih =>
    rw [foldl_cons, ih (coherent.remove entry.1 entry.2), coherent.links_remove, map_cons]
    simp only [mem_cons, not_or]
    tauto

section

variable (index : Index) (entries : List (String × Stamp))
include index entries

theorem mem_group_removeAll (subject : String) (member : Member) :
    member ∈ (index.removeAll entries).group subject ↔
      member ∈ index.group subject ∧ ∀ entry ∈ entries, ¬(entry.2.subject = some subject ∧ member.id = entry.1) := by
  unfold removeAll
  induction entries generalizing index with
  | nil => simp
  | cons entry entries ih =>
    rw [foldl_cons, ih, mem_group_remove, forall_mem_cons, and_assoc]

theorem mem_entityIds_removeAll (entity id : String) :
    id ∈ (index.removeAll entries).entityIds entity ↔
      id ∈ index.entityIds entity ∧ ∀ entry ∈ entries, ¬(entity ∈ entry.2.entities ∧ id = entry.1) := by
  unfold removeAll
  induction entries generalizing index with
  | nil => simp
  | cons entry entries ih =>
    rw [foldl_cons, ih, mem_entityIds_remove, forall_mem_cons, and_assoc]

theorem windowed_removeAll :
    (index.removeAll entries).windowed =
      index.windowed - (entries.filter fun entry => entry.2.windowed).length := by
  unfold removeAll
  induction entries generalizing index with
  | nil => simp
  | cons entry entries ih =>
    rw [foldl_cons, ih, windowed_remove, filter_cons]
    split <;> simp <;> omega

end

end RemoveAll

section Removed

variable {index : Index} {documents : Documents} {entries : List (String × Stamp)}

/-- An entry of an id that is about something is every entry of that id. -/
theorem not_mem_entries_iff {entries : List (String × Stamp)} {id : String} (about : Stamp → Prop)
    (own : ∀ entry ∈ entries, ∀ stamp, trackedStamp documents entry.1 = some stamp → entry.2 = stamp)
    (listed : ∃ stamp, trackedStamp documents id = some stamp ∧ about stamp) :
    (∀ entry ∈ entries, ¬(about entry.2 ∧ id = entry.1)) ↔ id ∉ entries.map fst := by
  obtain ⟨stamp, tracked, named⟩ := listed
  constructor
  · intro apart removed
    obtain ⟨entry, listed, rfl⟩ := mem_map.mp removed
    exact apart entry listed ⟨own entry listed stamp tracked ▸ named, rfl⟩
  · exact fun kept entry listed both => kept (mem_map.mpr ⟨entry, listed, both.2.symm⟩)

section

variable (mirrors : index.Mirrors documents) (own : ∀ entry ∈ entries, ∀ stamp, trackedStamp documents entry.1 = some stamp → entry.2 = stamp)
include mirrors own

theorem Mirrors.mem_group_removeAll
    (subject : String) (member : Member) :
    member ∈ (index.removeAll entries).group subject ↔
      member ∈ index.group subject ∧ member.id ∉ entries.map fst := by
  rw [Index.mem_group_removeAll]
  refine and_congr_right fun inside => not_mem_entries_iff (·.subject = some subject) own ?_
  obtain ⟨stamp, tracked, about, -⟩ := (mirrors.group subject member).mp inside
  exact ⟨stamp, tracked, about⟩

theorem Mirrors.mem_entityIds_removeAll
    (entity id : String) :
    id ∈ (index.removeAll entries).entityIds entity ↔
      id ∈ index.entityIds entity ∧ id ∉ entries.map fst := by
  rw [Index.mem_entityIds_removeAll]
  exact and_congr_right fun inside => not_mem_entries_iff (entity ∈ ·.entities) own ((mirrors.entities entity id).mp inside)

end

theorem windowed_length (entries : List (String × Stamp)) (distinct : (entries.map fst).Nodup) :
    (entries.filter fun entry => entry.2.windowed).length =
      (((entries.filter fun entry => entry.2.windowed).map fst).toFinset).card := by
  rw [toFinset_card_of_nodup, length_map]
  exact distinct.sublist (filter_sublist.map fst)

theorem Mirrors.windowed_removeAll (mirrors : index.Mirrors documents) (distinct : (entries.map fst).Nodup)
    (own : ∀ entry ∈ entries, ∀ stamp, trackedStamp documents entry.1 = some stamp → entry.2 = stamp)
    (stored : ∀ entry ∈ entries, entry.2.windowed = true → trackedStamp documents entry.1 = some entry.2) :
    (index.removeAll entries).windowed =
      (windowedIds documents \ (entries.map fst).toFinset).card := by
  have part : ((entries.filter fun entry => entry.2.windowed).map fst).toFinset =
      windowedIds documents ∩ (entries.map fst).toFinset := by
    ext id
    rw [mem_toFinset, Finset.mem_inter, mem_windowedIds, mem_toFinset]
    constructor
    · intro member
      obtain ⟨entry, inside, rfl⟩ := mem_map.mp member
      obtain ⟨listed, windowed⟩ := mem_filter.mp inside
      exact ⟨⟨entry.2, stored entry listed windowed, windowed⟩, mem_map_of_mem listed⟩
    · rintro ⟨⟨stamp, tracked, windowed⟩, member⟩
      obtain ⟨entry, listed, rfl⟩ := mem_map.mp member
      have same := own entry listed stamp tracked
      exact mem_map.mpr ⟨entry, mem_filter.mpr ⟨listed, by rw [same]; exact windowed⟩, rfl⟩
  rw [Index.windowed_removeAll, mirrors.windowed, windowed_length entries distinct, part]
  have total := Finset.card_sdiff_add_card_inter (windowedIds documents) (entries.map fst).toFinset
  omega

end Removed

section Forgotten

variable {index : Index} {documents documents' : Documents} {entries : List (String × Stamp)}

def Without (documents documents' : Documents) (ids : List String) : Prop :=
  ∀ id, documents'[id]? = if id ∈ ids then none else documents[id]?

theorem Without.trackedStamp (without : Without documents documents' ids) (id : String) :
    trackedStamp documents' id = if id ∈ ids then none else Memory.trackedStamp documents id := by
  unfold Memory.trackedStamp
  rw [without id]
  split <;> rfl

/-- Each of several facts is stored, with the stamp it is removed by. -/
def StoredAs (documents : Documents) (entries : List (String × Stamp)) : Prop :=
  ∀ entry ∈ entries, ∃ parts, documents[entry.1]? = some parts ∧ entry.2 = parts.stamp.getD Stamp.default

theorem StoredAs.own (stored : StoredAs documents entries) :
    ∀ entry ∈ entries, ∀ stamp, Memory.trackedStamp documents entry.1 = some stamp → entry.2 = stamp := by
  intro entry listed stamp tracked
  obtain ⟨parts, found, same⟩ := stored entry listed
  obtain ⟨⟨other, again, own⟩, -⟩ := trackedStamp_eq_some.mp tracked
  rw [found, Option.some.injEq] at again
  rw [same, again, own]
  rfl

theorem StoredAs.windowed (stored : StoredAs documents entries) :
    ∀ entry ∈ entries, entry.2.windowed = true → Memory.trackedStamp documents entry.1 = some entry.2 := by
  intro entry listed windowed
  obtain ⟨parts, found, same⟩ := stored entry listed
  cases stamped : parts.stamp with
  | none =>
    rw [same, stamped] at windowed
    simp [Stamp.default, Stamp.windowed] at windowed
  | some stamp =>
    rw [stamped, Option.getD_some] at same
    rw [same] at windowed ⊢
    exact trackedStamp_of found stamped (tracked_of_windowed windowed)

/-- Removing facts that no remaining fact names as superseded leaves what a rebuild of the remaining documents holds. -/
theorem Mirrors.removeAll (mirrors : index.Mirrors documents) (distinct : (entries.map fst).Nodup)
    (stored : StoredAs documents entries) (without : Without documents documents' (entries.map fst))
    (unnamed : ∀ by_ stamp, Memory.trackedStamp documents by_ = some stamp → by_ ∉ entries.map fst →
      ∀ old ∈ stamp.supersedes, old ∉ entries.map fst) :
    (index.removeAll entries).Mirrors documents' := by
  have kept {id : String} {stamp : Stamp} : Memory.trackedStamp documents' id = some stamp ↔
      id ∉ entries.map fst ∧ Memory.trackedStamp documents id = some stamp := by
    rw [without.trackedStamp]
    split
    · next removed => simp [removed]
    · next remains => simp [remains]
  have links (old by_ : String) : (index.removeAll entries).Links old by_ ↔ Supersedes documents' old by_ := by
    rw [mirrors.coherent.links_removeAll, mirrors.links]
    unfold Supersedes
    simp only [Option.isSome_iff_exists, kept]
    constructor
    · rintro ⟨⟨stamp, tracked, superseded⟩ | ⟨stamp, tracked, hinted, other, known⟩, oldKept, byKept⟩
      · exact .inl ⟨stamp, ⟨byKept, tracked⟩, superseded⟩
      · exact .inr ⟨stamp, ⟨oldKept, tracked⟩, hinted, other, byKept, known⟩
    · rintro (⟨stamp, ⟨byKept, tracked⟩, superseded⟩ | ⟨stamp, ⟨oldKept, tracked⟩, hinted, other, byKept, known⟩)
      · exact ⟨.inl ⟨stamp, tracked, superseded⟩, unnamed by_ stamp tracked byKept old superseded, byKept⟩
      · exact ⟨.inr ⟨stamp, tracked, hinted, other, known⟩, oldKept, byKept⟩
  have coherent := mirrors.coherent.removeAll entries
  refine ⟨⟨?_, coherent.mirrored⟩, links, ?_, ?_, ?_⟩
  · intro id edge member
    have timed := coherent.timed id edge member
    obtain ⟨-, -, byKept⟩ := (mirrors.coherent.links_removeAll entries id edge.by_).mp ⟨edge, member, rfl⟩
    unfold known at timed ⊢
    rw [without.trackedStamp, if_neg byKept]
    exact timed
  · intro subject entry
    rw [mirrors.mem_group_removeAll stored.own, mirrors.group]
    simp only [kept]
    constructor
    · rintro ⟨⟨stamp, tracked, about, times⟩, remains⟩
      exact ⟨stamp, ⟨remains, tracked⟩, about, times⟩
    · rintro ⟨stamp, ⟨remains, tracked⟩, about, times⟩
      exact ⟨⟨stamp, tracked, about, times⟩, remains⟩
  · intro entity id
    rw [mirrors.mem_entityIds_removeAll stored.own, mirrors.entities]
    simp only [kept]
    constructor
    · rintro ⟨⟨stamp, tracked, about⟩, remains⟩
      exact ⟨stamp, ⟨remains, tracked⟩, about⟩
    · rintro ⟨stamp, ⟨remains, tracked⟩, about⟩
      exact ⟨⟨stamp, tracked, about⟩, remains⟩
  · rw [mirrors.windowed_removeAll distinct stored.own stored.windowed]
    congr 1
    ext id
    rw [Finset.mem_sdiff, mem_toFinset, mem_windowedIds, mem_windowedIds]
    simp only [kept]
    constructor
    · rintro ⟨⟨stamp, tracked, windowed⟩, remains⟩
      exact ⟨stamp, ⟨remains, tracked⟩, windowed⟩
    · rintro ⟨stamp, ⟨remains, tracked⟩, windowed⟩
      exact ⟨⟨stamp, tracked, windowed⟩, remains⟩

end Forgotten

end Index

/-- Facts a call writes over documents: each under its own id, with its stamp, over what was stored there; a hint names
another of them or a stored fact of the same subject. -/
structure Writes (documents : Documents) (written : List Planned) : Prop where
  distinct : (written.map (·.id)).Nodup
  document : ∀ fact ∈ written, ∃ parts, fact.document = some parts ∧ parts.stamp = some fact.stamp
  previous : ∀ fact ∈ written, fact.previous = documents[fact.id]?.bind (·.stamp)
  replaces : ∀ fact ∈ written, fact.replaces = documents[fact.id]?.isSome
  hinted : ∀ fact ∈ written, ∀ by_ ∈ fact.stamp.supersededBy, by_ ∈ written.map (·.id) ∨
    ∃ subject stamp, fact.stamp.subject = some subject ∧ trackedStamp documents by_ = some stamp ∧
      stamp.subject = some subject

def With (documents documents' : Documents) (written : List Planned) : Prop :=
  (∀ fact ∈ written, documents'[fact.id]? = fact.document) ∧
    ∀ id, id ∉ written.map (·.id) → documents'[id]? = documents[id]?

/-- What the incremental update can follow: a fact that only becomes part of the index with this call is named in no other
stored fact's hints, and no hint of the call names a fact that the call leaves without memory fields. -/
structure Followable (documents : Documents) (written : List Planned) : Prop where
  unhinted : ∀ fact ∈ written, fact.stamp.tracked = true → trackedStamp documents fact.id = none →
    ∀ id stamp, trackedStamp documents id = some stamp → id ∉ written.map (·.id) → fact.id ∉ stamp.supersededBy
  tracked : ∀ fact ∈ written, ∀ by_ ∈ fact.stamp.supersededBy, ∀ other ∈ written, other.id = by_ →
    other.stamp.tracked = true

section Written

variable {index : Index} {documents documents' : Documents} {written : List Planned}

section

variable (now : With documents documents' written)
include now

theorem With.trackedStamp_written (writes : Writes documents written)
    (member : fact ∈ written) :
    trackedStamp documents' fact.id = if fact.stamp.tracked then some fact.stamp else none := by
  obtain ⟨parts, own, stamped⟩ := writes.document fact member
  unfold trackedStamp
  rw [now.1 fact member, own, Option.bind_some, stamped, Option.filter_some]

theorem With.trackedStamp_other {id : String}
    (apart : id ∉ written.map (·.id)) : trackedStamp documents' id = trackedStamp documents id := by
  unfold trackedStamp
  rw [now.2 id apart]

theorem With.trackedStamp_eq_some (writes : Writes documents written)
    (id : String) (stamp : Stamp) :
    trackedStamp documents' id = some stamp ↔
      (∃ fact ∈ written, fact.id = id ∧ fact.stamp = stamp ∧ stamp.tracked = true) ∨
        (id ∉ written.map (·.id) ∧ trackedStamp documents id = some stamp) := by
  by_cases own : id ∈ written.map (·.id)
  · obtain ⟨fact, member, rfl⟩ := mem_map.mp own
    rw [now.trackedStamp_written writes member]
    constructor
    · intro found
      split at found
      · next tracked =>
        rw [Option.some.injEq] at found
        exact .inl ⟨fact, member, rfl, found, found ▸ tracked⟩
      · simp at found
    · rintro (⟨other, inside, same, rfl, tracked⟩ | ⟨apart, -⟩)
      · have equal := inj_on_of_nodup_map writes.distinct inside member same
        rw [← equal, if_pos tracked]
      · exact absurd own apart
  · rw [now.trackedStamp_other own]
    constructor
    · exact fun found => .inr ⟨own, found⟩
    · rintro (⟨fact, member, rfl, -⟩ | ⟨-, found⟩)
      · exact absurd (mem_map_of_mem member) own
      · exact found

end

/-- The old stamps a call takes out of the index. -/
def removedEntries (written : List Planned) : List (String × Stamp) :=
  written.filterMap fun fact => fact.previous.map fun old => (fact.id, old)

theorem foldl_removePrevious (index : Index) (written : List Planned) :
    written.foldl removePrevious index = index.removeAll (removedEntries written) := by
  unfold removedEntries Index.removeAll
  induction written generalizing index with
  | nil => rfl
  | cons fact written ih =>
    rw [foldl_cons, ih, filterMap_cons]
    unfold removePrevious
    cases fact.previous with
    | none => rfl
    | some old => rfl

theorem mem_removedEntries (entry : String × Stamp) :
    entry ∈ removedEntries written ↔ ∃ fact ∈ written, fact.id = entry.1 ∧ fact.previous = some entry.2 := by
  unfold removedEntries
  rw [mem_filterMap]
  constructor
  · rintro ⟨fact, member, kept⟩
    obtain ⟨old, own, rfl⟩ := Option.map_eq_some_iff.mp kept
    exact ⟨fact, member, rfl, own⟩
  · rintro ⟨fact, member, same, own⟩
    refine ⟨fact, member, ?_⟩
    rw [own, Option.map_some, same]

theorem removedEntries_ids_sublist (written : List Planned) :
    ((removedEntries written).map fst).Sublist (written.map (·.id)) := by
  unfold removedEntries
  induction written with
  | nil => exact List.Sublist.slnil
  | cons fact written ih =>
    rw [filterMap_cons, map_cons]
    cases fact.previous with
    | none => exact ih.cons _
    | some old => exact ih.cons₂ _

theorem Writes.storedAs (writes : Writes documents written) : Index.StoredAs documents (removedEntries written) := by
  intro entry listed
  obtain ⟨fact, member, same, own⟩ := (mem_removedEntries entry).mp listed
  rw [writes.previous fact member, same] at own
  obtain ⟨parts, found, stamped⟩ := Option.bind_eq_some_iff.mp own
  exact ⟨parts, found, by rw [stamped]; rfl⟩

theorem Writes.removed_of_tracked (writes : Writes documents written) {id : String} (own : id ∈ written.map (·.id))
    (tracked : trackedStamp documents id = some stamp) : id ∈ (removedEntries written).map fst := by
  obtain ⟨fact, member, rfl⟩ := mem_map.mp own
  obtain ⟨⟨parts, found, stamped⟩, -⟩ := Index.trackedStamp_eq_some.mp tracked
  refine mem_map.mpr ⟨(fact.id, stamp), (mem_removedEntries _).mpr ⟨fact, member, rfl, ?_⟩, rfl⟩
  rw [writes.previous fact member, found]
  exact stamped

theorem Writes.unlinked (writes : Writes documents written) (mirrors : index.Mirrors documents)
    (free : written.any (replacesLinked index) = false) (linked : index.Links old by_) :
    by_ ∉ written.map (·.id) ∧ (old ∈ written.map (·.id) → documents[old]? = none) := by
  have unlinked : ∀ fact ∈ written, documents[fact.id]?.isSome = true →
      index.edges fact.id = [] ∧ index.directPredecessors fact.id = [] := by
    intro fact member stored
    have own := any_eq_false.mp free fact member
    rw [← writes.replaces fact member] at stored
    simpa [replacesLinked, stored] using own
  constructor
  · intro own
    obtain ⟨fact, member, rfl⟩ := mem_map.mp own
    have known : ∃ stamp, trackedStamp documents fact.id = some stamp := by
      rcases (mirrors.links old fact.id).mp linked with ⟨stamp, tracked, -⟩ | ⟨-, -, -, known⟩
      · exact ⟨stamp, tracked⟩
      · exact Option.isSome_iff_exists.mp known
    obtain ⟨stamp, tracked⟩ := known
    obtain ⟨⟨parts, found, -⟩, -⟩ := Index.trackedStamp_eq_some.mp tracked
    have none := (unlinked fact member (by rw [found]; rfl)).2
    have inside := (mirrors.coherent.mirrored fact.id old).mpr linked
    rw [none] at inside
    exact absurd inside not_mem_nil
  · intro own
    obtain ⟨fact, member, rfl⟩ := mem_map.mp own
    rw [← Option.not_isSome_iff_eq_none]
    intro stored
    obtain ⟨edge, inside, -⟩ := linked
    rw [(unlinked fact member stored).1] at inside
    exact absurd inside not_mem_nil

/-- The times a hint is inserted with: of another written fact, else of the stored one. -/
def hintTimes (documents : Documents) (written : List Planned) (by_ : String) : Option (Millis × Millis) :=
  match written.find? fun other => other.id == by_ with
  | some other => some other.stamp.times
  | none => Index.known documents by_

theorem find?_written_none (by_ : String) :
    (written.find? fun other => other.id == by_) = none ↔ by_ ∉ written.map (·.id) := by
  rw [find?_eq_none]
  constructor
  · intro apart own
    obtain ⟨fact, member, rfl⟩ := mem_map.mp own
    exact apart fact member (beq_self_eq_true _)
  · intro apart fact member same
    exact apart (mem_map.mpr ⟨fact, member, beq_iff_eq.mp same⟩)

theorem find?_written_some (found : (written.find? fun other => other.id == by_) = some other) :
    other ∈ written ∧ other.id = by_ :=
  ⟨mem_of_find?_eq_some found, beq_iff_eq.mp (find?_some (p := fun other : Planned => other.id == by_) found)⟩

theorem insert_congr (index : Index) (id : String) (stamp : Stamp)
    (same : ∀ by_ ∈ stamp.supersededBy, first by_ = second by_) :
    index.insert id stamp first = index.insert id stamp second := by
  unfold Index.insert Index.addHints
  have folded : ∀ hints : List String, (∀ by_ ∈ hints, first by_ = second by_) → ∀ index : Index,
      hints.foldl (Index.addHint first id) index = hints.foldl (Index.addHint second id) index := by
    intro hints agree
    induction hints with
    | nil => exact fun _ => rfl
    | cons hint hints ih =>
      intro index
      have own : Index.addHint first id index hint = Index.addHint second id index hint := by
        unfold Index.addHint
        rw [agree hint mem_cons_self]
      rw [foldl_cons, foldl_cons, own]
      exact ih (forall_mem_cons.mp agree).2 _
  rw [folded stamp.supersededBy same]

theorem member_eq_known {current : Index} (mirrors : index.Mirrors documents)
    (outside : ∀ subject, ∀ member : Member, member.id ∉ written.map (·.id) → (member ∈ current.group subject ↔ member ∈ index.group subject))
    {stamp : Stamp} (apart : by_ ∉ written.map (·.id)) (tracked : trackedStamp documents by_ = some stamp)
    (about : stamp.subject = some subject) : current.member subject by_ = Index.known documents by_ := by
  have known : Index.known documents by_ = some stamp.times := by simp [Index.known, tracked]
  have inside : (⟨by_, stamp.effectiveFrom, stamp.ingest⟩ : Member) ∈ current.group subject :=
    (outside subject _ apart).mpr ((mirrors.group subject _).mpr ⟨stamp, tracked, about, rfl⟩)
  unfold Index.member
  cases found : (current.group subject).find? fun member => member.id == by_ with
  | none =>
    have absent := find?_eq_none.mp found _ inside
    simp at absent
  | some member =>
    have same : member.id = by_ := beq_iff_eq.mp (find?_some (p := fun member : Member => member.id == by_) found)
    have listed := (outside subject member (same ▸ apart)).mp (mem_of_find?_eq_some found)
    obtain ⟨other, own, -, times⟩ := (mirrors.group subject member).mp listed
    rw [same, tracked, Option.some.injEq] at own
    rw [known, own, times]
    rfl

theorem foldl_insert_eq_insertAll (mirrors : index.Mirrors documents) (writes : Writes documents written)
    {facts : List Planned} (part : ∀ fact ∈ facts, fact ∈ written) {current : Index}
    (outside : ∀ subject, ∀ member : Member, member.id ∉ written.map (·.id) →
      (member ∈ current.group subject ↔ member ∈ index.group subject)) :
    facts.foldl (fun index fact => index.insert fact.id fact.stamp (settleLookup written fact index)) current =
      current.insertAll (fun _ => hintTimes documents written) (facts.map fun fact => (fact.id, fact.stamp)) := by
  induction facts generalizing current with
  | nil => rfl
  | cons fact facts ih =>
    have own := part fact mem_cons_self
    have same : ∀ by_ ∈ fact.stamp.supersededBy, settleLookup written fact current by_ = hintTimes documents written by_ := by
      intro by_ hint
      unfold settleLookup hintTimes
      cases found : written.find? fun other => other.id == by_ with
      | some other => rfl
      | none =>
        have apart := (find?_written_none by_).mp found
        rcases writes.hinted fact own by_ hint with inside | ⟨subject, stamp, about, tracked, same⟩
        · exact absurd inside apart
        · simp only [about, Option.bind_some]
          exact member_eq_known mirrors outside apart tracked same
    rw [foldl_cons, insert_congr current fact.id fact.stamp same]
    refine ih (forall_mem_cons.mp part).2 ?_
    intro subject member apart
    rw [Index.mem_group_insert, ← outside subject member apart]
    have different : member.id ≠ fact.id := fun equal => apart (equal ▸ mem_map_of_mem own)
    constructor
    · rintro (⟨inside, -⟩ | ⟨-, rfl⟩)
      · exact inside
      · exact absurd rfl different
    · exact fun inside => .inl ⟨inside, fun both => different both.2⟩

/-- The part of the index that the removals leave, before the new stamps go in. -/
theorem Writes.removed (writes : Writes documents written) (mirrors : index.Mirrors documents)
    (free : written.any (replacesLinked index) = false) :
    (∀ old by_, (index.removeAll (removedEntries written)).Links old by_ ↔ index.Links old by_) ∧
      (∀ subject member, member ∈ (index.removeAll (removedEntries written)).group subject ↔
        member ∈ index.group subject ∧ member.id ∉ written.map (·.id)) ∧
      (∀ entity id, id ∈ (index.removeAll (removedEntries written)).entityIds entity ↔
        id ∈ index.entityIds entity ∧ id ∉ written.map (·.id)) ∧
      (index.removeAll (removedEntries written)).windowed =
        (windowedIds documents \ (written.map (·.id)).toFinset).card := by
  have within {id : String} (removed : id ∈ (removedEntries written).map fst) : id ∈ written.map (·.id) :=
    (removedEntries_ids_sublist written).subset removed
  have tracked_apart {id : String} {stamp : Stamp} (tracked : trackedStamp documents id = some stamp) :
      id ∉ (removedEntries written).map fst ↔ id ∉ written.map (·.id) :=
    not_congr ⟨within, fun own => writes.removed_of_tracked own tracked⟩
  refine ⟨?_, ?_, ?_, ?_⟩
  · intro old by_
    rw [mirrors.coherent.links_removeAll]
    constructor
    · exact fun both => both.1
    · intro linked
      obtain ⟨byApart, oldAbsent⟩ := writes.unlinked mirrors free linked
      refine ⟨linked, fun removed => ?_, fun removed => byApart (within removed)⟩
      obtain ⟨entry, listed, rfl⟩ := mem_map.mp removed
      obtain ⟨parts, found, -⟩ := writes.storedAs entry listed
      rw [oldAbsent (within removed)] at found
      simp at found
  · intro subject member
    rw [mirrors.mem_group_removeAll writes.storedAs.own]
    constructor
    · rintro ⟨inside, apart⟩
      obtain ⟨stamp, tracked, -⟩ := (mirrors.group subject member).mp inside
      exact ⟨inside, (tracked_apart tracked).mp apart⟩
    · rintro ⟨inside, apart⟩
      exact ⟨inside, fun removed => apart (within removed)⟩
  · intro entity id
    rw [mirrors.mem_entityIds_removeAll writes.storedAs.own]
    constructor
    · rintro ⟨inside, apart⟩
      obtain ⟨stamp, tracked, -⟩ := (mirrors.entities entity id).mp inside
      exact ⟨inside, (tracked_apart tracked).mp apart⟩
    · rintro ⟨inside, apart⟩
      exact ⟨inside, fun removed => apart (within removed)⟩
  · rw [mirrors.windowed_removeAll (writes.distinct.sublist (removedEntries_ids_sublist written)) writes.storedAs.own
      writes.storedAs.windowed]
    congr 1
    ext id
    simp only [Finset.mem_sdiff, mem_toFinset, Index.mem_windowedIds]
    constructor
    · rintro ⟨⟨stamp, tracked, windowed⟩, apart⟩
      exact ⟨⟨stamp, tracked, windowed⟩, (tracked_apart tracked).mp apart⟩
    · rintro ⟨⟨stamp, tracked, windowed⟩, apart⟩
      exact ⟨⟨stamp, tracked, windowed⟩, fun removed => apart (within removed)⟩

theorem settleWritten_eq_some {index' : Index} (mirrors : index.Mirrors documents) (writes : Writes documents written)
    (applied : settleWritten written index = some index') :
    written.any (replacesLinked index) = false ∧
      index' = (index.removeAll (removedEntries written)).insertAll (fun _ => hintTimes documents written)
        (written.map fun fact => (fact.id, fact.stamp)) := by
  unfold settleWritten at applied
  split at applied
  · simp at applied
  next linked =>
  have free : written.any (replacesLinked index) = false := by simpa using linked
  obtain ⟨-, group, -, -⟩ := writes.removed mirrors free
  rw [Option.some.injEq, foldl_removePrevious, foldl_insert_eq_insertAll mirrors writes (fun _ member => member)] at applied
  · exact ⟨free, applied.symm⟩
  · intro subject member apart
    rw [group]
    exact ⟨fun both => both.1, fun inside => ⟨inside, apart⟩⟩

theorem With.hintTimes (now : With documents documents' written) (writes : Writes documents written)
    (tracked : ∀ fact ∈ written, ∀ by_ ∈ fact.stamp.supersededBy, ∀ other ∈ written, other.id = by_ →
      other.stamp.tracked = true) :
    ∀ fact ∈ written, ∀ by_ ∈ fact.stamp.supersededBy, hintTimes documents written by_ = Index.known documents' by_ := by
  intro fact member by_ hint
  unfold Memory.hintTimes Index.known
  cases found : written.find? fun other => other.id == by_ with
  | some other =>
    obtain ⟨inside, rfl⟩ := find?_written_some found
    rw [now.trackedStamp_written writes inside, if_pos (tracked fact member _ hint other inside rfl)]
    rfl
  | none => rw [now.trackedStamp_other ((find?_written_none by_).mp found)]

section

variable {index' : Index} (mirrors : index.Mirrors documents) (writes : Writes documents written)
include mirrors writes

/-- The links after the incremental update, with the times of their superseders: those from before, those of the written
facts and those of their hints. -/
theorem settleWritten_links
    (tracked : ∀ fact ∈ written, ∀ by_ ∈ fact.stamp.supersededBy, ∀ other ∈ written, other.id = by_ →
      other.stamp.tracked = true) (now : With documents documents' written)
    (applied : settleWritten written index = some index') :
    index'.Coherent (Index.known documents') ∧ ∀ old by_, index'.Links old by_ ↔ index.Links old by_ ∨
      ∃ fact ∈ written, (old ∈ fact.stamp.supersedes ∧ by_ = fact.id) ∨
        (old = fact.id ∧ by_ ∈ fact.stamp.supersededBy ∧ (Index.known documents' by_).isSome) := by
  obtain ⟨free, rfl⟩ := settleWritten_eq_some mirrors writes applied
  obtain ⟨links, -⟩ := writes.removed mirrors free
  have hintKnown := now.hintTimes writes tracked
  have ownKnown : ∀ fact ∈ written, fact.stamp.tracked = true → Index.known documents' fact.id = some fact.stamp.times := by
    intro fact member tracked
    unfold Index.known
    rw [now.trackedStamp_written writes member, if_pos tracked]
    rfl
  constructor
  · apply Index.Coherent.insertAll
    · have before := mirrors.coherent.removeAll (removedEntries written)
      refine ⟨fun id edge member => ?_, before.mirrored⟩
      have timed := before.timed id edge member
      obtain ⟨apart, -⟩ := writes.unlinked mirrors free ((links id edge.by_).mp ⟨edge, member, rfl⟩)
      unfold Index.known at timed ⊢
      rw [now.trackedStamp_other apart]
      exact timed
    · intro entry listed some
      obtain ⟨fact, member, rfl⟩ := mem_map.mp listed
      refine ownKnown fact member ?_
      simp only at some
      simp [Stamp.tracked, some]
    · intro entry listed by_ hint times found
      obtain ⟨fact, member, rfl⟩ := mem_map.mp listed
      rw [← hintKnown fact member by_ hint]
      exact found
  · intro old by_
    rw [Index.links_insertAll, links]
    refine or_congr_right ⟨?_, ?_⟩
    · rintro ⟨entry, listed, superseded | ⟨own, hint, known⟩⟩
      · obtain ⟨fact, member, rfl⟩ := mem_map.mp listed
        exact ⟨fact, member, .inl superseded⟩
      · obtain ⟨fact, member, rfl⟩ := mem_map.mp listed
        exact ⟨fact, member, .inr ⟨own, hint, hintKnown fact member by_ hint ▸ known⟩⟩
    · rintro ⟨fact, member, superseded | ⟨own, hint, known⟩⟩
      · exact ⟨_, mem_map_of_mem member, .inl superseded⟩
      · exact ⟨_, mem_map_of_mem member, .inr ⟨own, hint, (hintKnown fact member by_ hint).symm ▸ known⟩⟩

/-- Where the incremental update applies and can follow the call, it leaves what a rebuild of the new documents holds. -/
theorem settleWritten_mirrors
    (followable : Followable documents written) (now : With documents documents' written)
    (applied : settleWritten written index = some index') : index'.Mirrors documents' := by
  obtain ⟨coherent, links'⟩ := settleWritten_links mirrors writes followable.tracked now applied
  obtain ⟨free, rfl⟩ := settleWritten_eq_some mirrors writes applied
  obtain ⟨links, group, entities, windowed⟩ := writes.removed mirrors free
  have ids : ((written.map fun fact => (fact.id, fact.stamp)).map fst) = written.map (·.id) := by
    rw [map_map]
    rfl
  have tracked' := now.trackedStamp_eq_some writes
  refine ⟨coherent, ?_, ?_, ?_, ?_⟩
  · intro old by_
    rw [links', mirrors.links]
    constructor
    · rintro (before | ⟨fact, member, ⟨superseded, rfl⟩ | ⟨rfl, hint, known⟩⟩)
      · obtain ⟨byApart, oldAbsent⟩ := writes.unlinked mirrors free ((mirrors.links old by_).mpr before)
        rcases before with ⟨stamp, tracked, superseded⟩ | ⟨stamp, tracked, hint, known⟩
        · exact .inl ⟨stamp, (tracked' by_ stamp).mpr (.inr ⟨byApart, tracked⟩), superseded⟩
        · have oldApart : old ∉ written.map (·.id) := by
            intro own
            obtain ⟨⟨parts, found, -⟩, -⟩ := Index.trackedStamp_eq_some.mp tracked
            rw [oldAbsent own] at found
            simp at found
          refine .inr ⟨stamp, (tracked' old stamp).mpr (.inr ⟨oldApart, tracked⟩), hint, ?_⟩
          rw [now.trackedStamp_other byApart]
          exact known
      · have some : fact.stamp.tracked = true := by
          have filled : fact.stamp.supersedes.isEmpty = false :=
            isEmpty_eq_false_iff_exists_mem.mpr ⟨old, superseded⟩
          simp [Stamp.tracked, filled]
        exact .inl ⟨fact.stamp, (tracked' _ _).mpr (.inl ⟨fact, member, rfl, rfl, some⟩), superseded⟩
      · have some : fact.stamp.tracked = true := by
          have filled : fact.stamp.supersededBy.isEmpty = false :=
            isEmpty_eq_false_iff_exists_mem.mpr ⟨by_, hint⟩
          simp [Stamp.tracked, filled]
        refine .inr ⟨fact.stamp, (tracked' _ _).mpr (.inl ⟨fact, member, rfl, rfl, some⟩), hint, ?_⟩
        simpa [Index.known] using known
    · rintro (⟨stamp, tracked, superseded⟩ | ⟨stamp, tracked, hint, known⟩)
      · rcases (tracked' by_ stamp).mp tracked with ⟨fact, member, rfl, rfl, -⟩ | ⟨-, before⟩
        · exact .inr ⟨fact, member, .inl ⟨superseded, rfl⟩⟩
        · exact .inl (.inl ⟨stamp, before, superseded⟩)
      · rcases (tracked' old stamp).mp tracked with ⟨fact, member, rfl, rfl, -⟩ | ⟨oldApart, before⟩
        · exact .inr ⟨fact, member, .inr ⟨rfl, hint, by simpa [Index.known] using known⟩⟩
        · obtain ⟨other, found⟩ := Option.isSome_iff_exists.mp known
          rcases (tracked' by_ other).mp found with ⟨fact, member, rfl, rfl, some⟩ | ⟨-, byBefore⟩
          · -- the hinted fact is written by the call: it was tracked before, and then it is linked
            cases earlier : trackedStamp documents fact.id with
            | none => exact absurd hint (followable.unhinted fact member some earlier old stamp before oldApart)
            | some previous =>
              have linked : index.Links old fact.id :=
                (mirrors.links old fact.id).mpr (.inr ⟨stamp, before, hint, by rw [earlier]; rfl⟩)
              exact absurd (mem_map_of_mem member) (writes.unlinked mirrors free linked).1
          · exact .inl (.inr ⟨stamp, before, hint, by rw [byBefore]; rfl⟩)
  · intro subject entry
    rw [Index.mem_group_insertAll _ _ (ids ▸ writes.distinct)
      (fun subject member inside => ids ▸ ((group subject member).mp inside).2), group, mirrors.group]
    constructor
    · rintro (⟨⟨stamp, tracked, about, times⟩, apart⟩ | ⟨⟨id, stamp⟩, listed, about, rfl⟩)
      · exact ⟨stamp, (tracked' _ _).mpr (.inr ⟨apart, tracked⟩), about, times⟩
      · obtain ⟨fact, member, same⟩ := mem_map.mp listed
        obtain ⟨rfl, rfl⟩ := mk.inj same
        exact ⟨fact.stamp, (tracked' _ _).mpr (.inl ⟨fact, member, rfl, rfl, tracked_of_subject about⟩), about, rfl⟩
    · rintro ⟨stamp, tracked, about, times⟩
      rcases (tracked' _ _).mp tracked with ⟨fact, member, same, rfl, -⟩ | ⟨apart, before⟩
      · refine .inr ⟨(fact.id, fact.stamp), mem_map_of_mem member, about, ?_⟩
        obtain ⟨effective, ingest⟩ := mk.inj times
        rw [effective, ingest, same]
      · exact .inl ⟨⟨stamp, before, about, times⟩, apart⟩
  · intro entity id
    rw [Index.mem_entityIds_insertAll, entities, mirrors.entities]
    constructor
    · rintro (⟨⟨stamp, tracked, about⟩, apart⟩ | ⟨⟨key, stamp⟩, listed, rfl, about⟩)
      · exact ⟨stamp, (tracked' _ _).mpr (.inr ⟨apart, tracked⟩), about⟩
      · obtain ⟨fact, member, same⟩ := mem_map.mp listed
        obtain ⟨rfl, rfl⟩ := mk.inj same
        exact ⟨fact.stamp, (tracked' _ _).mpr (.inl ⟨fact, member, rfl, rfl, tracked_of_entity about⟩), about⟩
    · rintro ⟨stamp, tracked, about⟩
      rcases (tracked' _ _).mp tracked with ⟨fact, member, same, rfl, -⟩ | ⟨apart, before⟩
      · exact .inr ⟨(fact.id, fact.stamp), mem_map_of_mem member, same.symm, about⟩
      · exact .inl ⟨⟨stamp, before, about⟩, apart⟩
  · rw [Index.windowed_insertAll, windowed, Index.windowed_length _ (ids ▸ writes.distinct)]
    rw [← Finset.card_union_of_disjoint]
    · congr 1
      ext id
      simp only [Finset.mem_union, Finset.mem_sdiff, mem_toFinset, Index.mem_windowedIds, tracked']
      constructor
      · rintro (⟨⟨stamp, tracked, windowed⟩, apart⟩ | listed)
        · exact ⟨stamp, .inr ⟨apart, tracked⟩, windowed⟩
        · obtain ⟨entry, inside, rfl⟩ := mem_map.mp listed
          obtain ⟨source, windowed⟩ := mem_filter.mp inside
          obtain ⟨fact, member, rfl⟩ := mem_map.mp source
          exact ⟨fact.stamp, .inl ⟨fact, member, rfl, rfl, tracked_of_windowed windowed⟩, windowed⟩
      · rintro ⟨stamp, ⟨fact, member, rfl, rfl, -⟩ | ⟨apart, tracked⟩, windowed⟩
        · exact .inr (mem_map.mpr ⟨(fact.id, fact.stamp), mem_filter.mpr ⟨mem_map_of_mem member, windowed⟩, rfl⟩)
        · exact .inl ⟨⟨stamp, tracked, windowed⟩, apart⟩
    · rw [Finset.disjoint_left]
      intro id outside inside
      rw [Finset.mem_sdiff, mem_toFinset] at outside
      rw [mem_toFinset] at inside
      apply outside.2
      rw [← ids]
      exact (filter_sublist.map fst).subset inside

end

end Written

end Warm.Memory
