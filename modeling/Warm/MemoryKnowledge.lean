import Warm.MemoryRecall

/-! Knowledge time: what a fact was known to be at some time, by the links known then, is what it is in a store that
holds only the facts ingested by that time. -/
namespace Warm.Memory

/-- The facts ingested by a time; plain documents have no such time. -/
def knownBy (documents : Documents) (known : Millis) : Documents :=
  documents.filter fun _ parts => parts.stamp.all fun stamp => decide (stamp.ingest ≤ known)

variable {documents : Documents} {known : Millis} {id : String}

theorem getElem?_knownBy (documents : Documents) (known : Millis) (id : String) :
    (knownBy documents known)[id]? =
      documents[id]?.filter fun parts => parts.stamp.all fun stamp => decide (stamp.ingest ≤ known) := by
  rw [knownBy, Std.ExtTreeMap.getElem?_filter']

theorem trackedStamp_knownBy :
    trackedStamp (knownBy documents known) id = some stamp ↔ trackedStamp documents id = some stamp ∧ stamp.ingest ≤ known := by
  rw [Index.trackedStamp_eq_some, Index.trackedStamp_eq_some, getElem?_knownBy]
  simp only [Option.filter_eq_some_iff]
  constructor
  · rintro ⟨⟨parts, ⟨found, early⟩, own⟩, tracked⟩
    rw [own, Option.all_some, decide_eq_true_eq] at early
    exact ⟨⟨⟨parts, found, own⟩, tracked⟩, early⟩
  · rintro ⟨⟨⟨parts, found, own⟩, tracked⟩, early⟩
    exact ⟨⟨parts, ⟨found, by simp [own, early]⟩, own⟩, tracked⟩

theorem supersedes_knownBy (superseder : trackedStamp documents by_ = some stamp)
    (early : ∀ stamp, trackedStamp documents old = some stamp → stamp.ingest ≤ known) :
    Supersedes (knownBy documents known) old by_ ↔ Supersedes documents old by_ ∧ stamp.ingest ≤ known := by
  simp only [Supersedes, Option.isSome_iff_exists, trackedStamp_knownBy]
  constructor
  · rintro (⟨other, ⟨own, late⟩, linked⟩ | ⟨other, ⟨own, _⟩, hinted, found, ⟨tracked, late⟩⟩)
    · obtain rfl := Option.some.inj (superseder.symm.trans own)
      exact ⟨.inl ⟨stamp, own, linked⟩, late⟩
    · obtain rfl := Option.some.inj (superseder.symm.trans tracked)
      exact ⟨.inr ⟨other, own, hinted, stamp, tracked⟩, late⟩
  · rintro ⟨⟨other, own, linked⟩ | ⟨other, own, hinted, _⟩, late⟩
    · obtain rfl := Option.some.inj (superseder.symm.trans own)
      exact .inl ⟨stamp, ⟨own, late⟩, linked⟩
    · exact .inr ⟨other, ⟨own, early other own⟩, hinted, stamp, superseder, late⟩

theorem mem_edges_knownBy {index index' : Index} (mirrors : index.Mirrors documents)
    (mirrors' : index'.Mirrors (knownBy documents known))
    (early : ∀ stamp, trackedStamp documents id = some stamp → stamp.ingest ≤ known) (edge : Edge) :
    edge ∈ index'.edges id ↔ edge ∈ index.edges id ∧ edge.ingest ≤ known := by
  rw [mirrors.coherent.mem_edges, mirrors'.coherent.mem_edges, mirrors.links, mirrors'.links, Index.known, Index.known,
    Option.map_eq_some_iff, Option.map_eq_some_iff]
  constructor
  · rintro ⟨linked, stamp, tracked, times⟩
    obtain ⟨tracked, late⟩ := trackedStamp_knownBy.mp tracked
    have ingest := (Prod.mk.inj times).2
    exact ⟨⟨((supersedes_knownBy tracked early).mp linked).1, stamp, tracked, times⟩, ingest ▸ late⟩
  · rintro ⟨⟨linked, stamp, tracked, times⟩, late⟩
    have ingest := (Prod.mk.inj times).2
    have own : stamp.ingest ≤ known := ingest.symm ▸ late
    exact ⟨(supersedes_knownBy tracked early).mpr ⟨linked, own⟩, stamp, trackedStamp_knownBy.mpr ⟨tracked, own⟩, times⟩

/-- A fact at a time of knowledge: none before its ingest, and otherwise its status in a store of the facts that were
known then. -/
theorem evaluate_known_at {index : Index} {revision : Nat} (current : index.Same (Index.rebuild documents revision))
    {parts : DocumentParts} {stamp : Stamp} (found : documents[id]? = some parts) (stamped : parts.stamp = some stamp)
    (now known : Millis) (revision' : Nat) :
    evaluate (some stamp) (index.edges id) now (some known) =
      if known < stamp.ingest then none
      else evaluate (some stamp) ((Index.rebuild (knownBy documents known) revision').edges id) now none := by
  have mirrors := (Index.mirrors_iff index documents revision).mpr current
  by_cases late : known < stamp.ingest
  · rw [if_pos late, evaluate, Stamp.unknownAt, if_pos (decide_eq_true late)]
  · have early : ∀ other, trackedStamp documents id = some other → other.ingest ≤ known := by
      intro other tracked
      obtain ⟨⟨parts', found', own⟩, _⟩ := Index.trackedStamp_eq_some.mp tracked
      obtain rfl := Option.some.inj (found.symm.trans found')
      obtain rfl := Option.some.inj (stamped.symm.trans own)
      exact Int.not_lt.mp late
    have links := mem_edges_knownBy mirrors (Index.rebuild_mirrors (knownBy documents known) revision') early
    have superseded : (index.edges id).any (·.holds now (some known)) =
        ((Index.rebuild (knownBy documents known) revision').edges id).any (·.holds now none) := by
      rw [Bool.eq_iff_iff, List.any_eq_true, List.any_eq_true]
      simp only [links, Edge.holds, Option.all_some, Option.all_none, Bool.and_true, Bool.and_eq_true, decide_eq_true_eq]
      constructor
      · rintro ⟨edge, member, effective, ingest⟩
        exact ⟨edge, ⟨member, ingest⟩, effective⟩
      · rintro ⟨edge, ⟨member, ingest⟩, effective⟩
        exact ⟨edge, member, effective, ingest⟩
    rw [if_neg late, evaluate, evaluate, superseded]
    simp only [Stamp.unknownAt, late, decide_false, Bool.false_eq_true, if_false]

namespace Sample

/-- An older fact that arrives late names the fact that superseded it. -/
def lateFacts : Documents :=
  ((∅ : Documents).insert "new" ⟨some "lives in Oslo", none, .object ∅, none,
      some ⟨20, none, some 5, none, some "city", [], [], [], none⟩⟩).insert "old"
    ⟨some "lives in Rome", none, .object ∅, none, some ⟨30, some 1, none, none, some "city", [], ["new"], [], none⟩⟩

end Sample

theorem evaluate_known_at_late :
    evaluate (some ⟨30, some 1, none, none, some "city", [], ["new"], [], none⟩)
        ((Index.rebuild Sample.lateFacts 2).edges "old") 40 (some 35) =
      evaluate (some ⟨30, some 1, none, none, some "city", [], ["new"], [], none⟩)
        ((Index.rebuild (knownBy Sample.lateFacts 35) 0).edges "old") 40 none := by
  have current : (Index.rebuild Sample.lateFacts 2).Same (Index.rebuild Sample.lateFacts 2) :=
    ⟨rfl, fun _ _ => Iff.rfl, fun _ _ => Iff.rfl, fun _ _ => Iff.rfl, fun _ _ => Iff.rfl⟩
  have found : Sample.lateFacts["old"]? = some ⟨some "lives in Rome", none, .object ∅, none,
      some ⟨30, some 1, none, none, some "city", [], ["new"], [], none⟩⟩ := rfl
  exact (evaluate_known_at current found rfl 40 35 0).trans (if_neg (by decide))

end Warm.Memory
