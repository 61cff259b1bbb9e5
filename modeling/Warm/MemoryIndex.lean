import Mathlib.Algebra.BigOperators.Group.Finset.Basic
import Mathlib.Data.Finset.Card
import Mathlib.Data.List.Basic
import Warm.Document
import Warm.Reachability
import Warm.Table

/-! The memory API's index over fact stamps: supersession links both ways, subject groups and entity postings,
kept up by insertions and removals or rebuilt from the stored documents. -/
namespace Warm.Memory

open List

/-- Unix time in milliseconds. -/
abbrev Millis := Int

structure Stamp where
  ingest : Millis
  event : Option Millis
  validFrom : Option Millis
  validTo : Option Millis
  subject : Option String
  /-- Facts this one supersedes. -/
  supersedes : List String
  /-- Facts known at ingest to supersede this one. -/
  supersededBy : List String
  entities : List String
  /-- Hash of the caller's payload. -/
  hash : Option String
  deriving DecidableEq, Repr

def Stamp.default : Stamp :=
  ⟨0, none, none, none, none, [], [], [], none⟩

/-- When the fact takes effect on the valid-time axis. -/
def Stamp.effectiveFrom (stamp : Stamp) : Millis :=
  (stamp.validFrom.or stamp.event).getD stamp.ingest

def Stamp.windowed (stamp : Stamp) : Bool :=
  stamp.validFrom.isSome || stamp.validTo.isSome

/-- Whether a rebuild takes the stamp up. -/
def Stamp.tracked (stamp : Stamp) : Bool :=
  stamp.windowed || stamp.subject.isSome || !stamp.supersedes.isEmpty || !stamp.supersededBy.isEmpty ||
    !stamp.entities.isEmpty

/-- The time a fact takes effect and the time it was ingested. -/
def Stamp.times (stamp : Stamp) : Millis × Millis :=
  (stamp.effectiveFrom, stamp.ingest)

/-- A JSON value by its top level. -/
inductive Metadata where
  | object (entries : Table String Json)
  | other (value : Json)

/-- `Value::get` with a string key. -/
def Metadata.get : Metadata → String → Option Json
  | .object entries, key => entries[key]?
  | .other _, _ => none

/-- The parts of a stored document that the memory API reads; `stamp` is what `Stamp::from_parts` finds in its
version or metadata. -/
structure DocumentParts where
  text : Option String
  sourceUri : Option String
  metadata : Metadata
  embedding : Option (List UInt64)
  stamp : Option Stamp

abbrev Documents := Table String DocumentParts

/-- The stamp a rebuild takes up for an id. -/
def trackedStamp (documents : Documents) (id : String) : Option Stamp :=
  (documents[id]?.bind (·.stamp)).filter (·.tracked)

structure Edge where
  by_ : String
  /-- The superseding fact's effective-from. -/
  effective : Millis
  /-- When the superseding fact was ingested. -/
  ingest : Millis
  deriving DecidableEq, Repr

structure Member where
  id : String
  effective : Millis
  ingest : Millis
  deriving DecidableEq, Repr

structure Index where
  revision : Option Nat
  windowed : Nat
  supersededBy : Table String (List Edge)
  predecessors : Table String (List String)
  bySubject : Table String (List Member)
  byEntity : Table String (List String)

namespace Index

def empty : Index :=
  ⟨none, 0, ∅, ∅, ∅, ∅⟩

/-- Whether any fact has a validity window or a supersession link. -/
def constrained (index : Index) : Bool :=
  decide (0 < index.windowed) || !index.supersededBy.isEmpty

def edges (index : Index) (id : String) : List Edge :=
  index.supersededBy[id]?.getD []

/-- Facts `id` supersedes, directly. -/
def directPredecessors (index : Index) (id : String) : List String :=
  index.predecessors[id]?.getD []

def group (index : Index) (subject : String) : List Member :=
  index.bySubject[subject]?.getD []

/-- Whether the first member comes no later in the order by effect, ingest, id. -/
def Member.upTo (a b : Member) : Bool :=
  decide (a.effective < b.effective) || (a.effective == b.effective &&
    (decide (a.ingest < b.ingest) || (a.ingest == b.ingest && decide (a.id ≤ b.id))))

/-- Candidates of a subject group, ordered by effect, ingest, id. -/
def members (index : Index) (subject : String) : List Member :=
  (index.group subject).mergeSort Member.upTo

def member (index : Index) (subject id : String) : Option (Millis × Millis) :=
  ((index.group subject).find? fun member => member.id == id).map fun member => (member.effective, member.ingest)

def entityIds (index : Index) (entity : String) : List String :=
  index.byEntity[entity]?.getD []

def subjectIds (index : Index) (subject : String) : List String :=
  (index.group subject).map (·.id)

def addEdge (index : Index) (old by_ : String) (effective ingest : Millis) : Index :=
  if (index.edges old).any (fun edge => edge.by_ == by_) then index else
    { index with
      supersededBy := index.supersededBy.insert old (index.edges old ++ [⟨by_, effective, ingest⟩])
      predecessors :=
        if (index.directPredecessors by_).any (· == old) then index.predecessors
        else index.predecessors.insert by_ (index.directPredecessors by_ ++ [old]) }

def countWindow (index : Index) (stamp : Stamp) : Index :=
  if stamp.windowed then { index with windowed := index.windowed + 1 } else index

/-- The links of a stamp's `supersedes`. -/
def addSuperseded (index : Index) (id : String) (stamp : Stamp) : Index :=
  stamp.supersedes.foldl (fun index old => index.addEdge old id stamp.effectiveFrom stamp.ingest) index

/-- The link of one entry of a stamp's `superseded_by`, when its times are known. -/
def addHint (lookup : String → Option (Millis × Millis)) (id : String) (index : Index) (by_ : String) : Index :=
  match lookup by_ with
  | some (effective, ingest) => index.addEdge id by_ effective ingest
  | none => index

def addHints (index : Index) (id : String) (stamp : Stamp) (lookup : String → Option (Millis × Millis)) : Index :=
  stamp.supersededBy.foldl (addHint lookup id) index

def addMember (index : Index) (id : String) (stamp : Stamp) : Index :=
  match stamp.subject with
  | none => index
  | some subject =>
    { index with
      bySubject := index.bySubject.insert subject
        ((index.group subject).filter (fun member => member.id != id) ++ [⟨id, stamp.effectiveFrom, stamp.ingest⟩]) }

def addEntity (id : String) (index : Index) (entity : String) : Index :=
  { index with
    byEntity := index.byEntity.insert entity
      (if (index.entityIds entity).any (· == id) then index.entityIds entity else index.entityIds entity ++ [id]) }

/-- Adds a fact; a superseder that `lookup` does not know is ignored. -/
def insert (index : Index) (id : String) (stamp : Stamp) (lookup : String → Option (Millis × Millis)) : Index :=
  stamp.entities.foldl (addEntity id)
    ((((index.countWindow stamp).addSuperseded id stamp).addHints id stamp lookup).addMember id stamp)

/-- Keeps the entries of a list that pass, and no entry for an empty list. -/
def retain {α : Type} (table : Table String (List α)) (key : String) (keep : α → Bool) : Table String (List α) :=
  match table[key]? with
  | none => table
  | some items => if (items.filter keep).isEmpty then table.erase key else table.insert key (items.filter keep)

def dropWindow (index : Index) (stamp : Stamp) : Index :=
  if stamp.windowed then { index with windowed := index.windowed - 1 } else index

def dropSuperseded (index : Index) (id : String) : Index :=
  { index with
    predecessors := index.predecessors.erase id
    supersededBy := (index.directPredecessors id).foldl
      (fun table old => retain table old fun edge => edge.by_ != id) index.supersededBy }

def dropSuperseders (index : Index) (id : String) : Index :=
  { index with
    supersededBy := index.supersededBy.erase id
    predecessors := (index.edges id).foldl
      (fun table edge => retain table edge.by_ fun old => old != id) index.predecessors }

def dropMember (index : Index) (id : String) (stamp : Stamp) : Index :=
  match stamp.subject with
  | none => index
  | some subject => { index with bySubject := retain index.bySubject subject fun member => member.id != id }

def dropEntity (id : String) (index : Index) (entity : String) : Index :=
  { index with byEntity := retain index.byEntity entity fun existing => existing != id }

/-- Removes a fact with every link to and from it. -/
def remove (index : Index) (id : String) (stamp : Stamp) : Index :=
  stamp.entities.foldl (dropEntity id)
    ((((index.dropWindow stamp).dropSuperseded id).dropSuperseders id).dropMember id stamp)

/-- Every id the links name; the searches visit no other. -/
def linkedIds (index : Index) : List String :=
  index.predecessors.toList.flatMap (fun entry => entry.1 :: entry.2) ++
    index.supersededBy.toList.flatMap fun entry => entry.1 :: entry.2.map (·.by_)

/-- The facts reachable from `start` through `step`, excluding `start`. -/
def walk (index : Index) (start : String) (step : String → List String) : List String :=
  (Reachability.explore step (index.linkedIds.length + 1) [start] [start]).filter (· != start)

/-- Whether the first fact supersedes the second, directly or through a chain. -/
def supersedesTransitively (index : Index) (source target : String) : Bool :=
  (index.walk source index.directPredecessors).contains target

/-- A dead fact passes the search on to what it superseded. -/
def passOn (index : Index) (dead : String → Bool) (id : String) : List String :=
  if dead id then index.directPredecessors id else []

/-- The surviving facts `start` supersedes once the dead facts are gone: its direct predecessors, with each dead
one replaced by what it superseded, transitively. -/
def bridge (index : Index) (start : String) (dead : String → Bool) : List String :=
  (Reachability.drain (index.passOn dead)
    ((index.directPredecessors start).length + (index.predecessors.toList.map fun entry => entry.2.length).sum) []
    (index.directPredecessors start).reverse).filter fun id => !dead id

/-- The facts linked to `id` in either direction. -/
def neighbours (index : Index) (id : String) : List String :=
  index.directPredecessors id ++ (index.edges id).map (·.by_)

/-- `id` and every fact connected to it by supersession in either direction. -/
def component (index : Index) (id : String) : List String :=
  Reachability.explore index.neighbours (index.linkedIds.length + 1) [id] [id]

/-- The stamps a rebuild takes up, in the order of the documents. -/
def stamps (documents : Documents) : List (String × Stamp) :=
  documents.toList.filterMap fun entry => (trackedStamp documents entry.1).map fun stamp => (entry.1, stamp)

/-- The times of the facts a rebuild takes up. -/
def known (documents : Documents) (id : String) : Option (Millis × Millis) :=
  (trackedStamp documents id).map Stamp.times

def rebuild (documents : Documents) (revision : Nat) : Index :=
  { (stamps documents).foldl (fun index entry => index.insert entry.1 entry.2 (known documents)) empty with
    revision := some revision }

/-- Two indexes hold the same entries: the window count, and as sets the links, groups and postings. -/
structure Same (a b : Index) : Prop where
  windowed : a.windowed = b.windowed
  edges : ∀ id edge, edge ∈ a.edges id ↔ edge ∈ b.edges id
  predecessors : ∀ id old, old ∈ a.directPredecessors id ↔ old ∈ b.directPredecessors id
  group : ∀ subject member, member ∈ a.group subject ↔ member ∈ b.group subject
  entity : ∀ entity id, id ∈ a.entityIds entity ↔ id ∈ b.entityIds entity

section Links

variable {index : Index} {times : String → Option (Millis × Millis)}

/-- A link of the index: the second fact supersedes the first. -/
def Links (index : Index) (old by_ : String) : Prop :=
  ∃ edge ∈ index.edges old, edge.by_ = by_

/-- Every link carries the superseder's times and stands in both directions. -/
structure Coherent (index : Index) (times : String → Option (Millis × Millis)) : Prop where
  timed : ∀ id, ∀ edge ∈ index.edges id, times edge.by_ = some (edge.effective, edge.ingest)
  mirrored : ∀ id old, old ∈ index.directPredecessors id ↔ index.Links old id

theorem Coherent.mem_edges (coherent : index.Coherent times) (old : String) (edge : Edge) :
    edge ∈ index.edges old ↔ index.Links old edge.by_ ∧ times edge.by_ = some (edge.effective, edge.ingest) := by
  constructor
  · intro member
    exact ⟨⟨edge, member, rfl⟩, coherent.timed old edge member⟩
  · rintro ⟨⟨other, member, same⟩, known⟩
    have own := coherent.timed old other member
    rw [same, known] at own
    have equal : other = edge := by
      obtain ⟨by_, effective, ingest⟩ := other
      obtain ⟨by_', effective', ingest'⟩ := edge
      simp only [Option.some.injEq, Prod.mk.injEq] at own same
      obtain ⟨rfl, rfl⟩ := own
      subst same
      rfl
    rwa [equal] at member

theorem links_empty (old by_ : String) : ¬empty.Links old by_ := by
  rintro ⟨edge, member, -⟩
  simp [empty, edges] at member

theorem coherent_empty (times : String → Option (Millis × Millis)) : empty.Coherent times where
  timed := by
    intro id edge member
    simp [empty, edges] at member
  mirrored := by
    intro id old
    simp [empty, directPredecessors, Links, edges]

theorem links_congr {a b : Index} (same : ∀ id, a.edges id = b.edges id) (old by_ : String) :
    a.Links old by_ ↔ b.Links old by_ := by
  simp only [Links, same]

theorem links_of_edges {a b : Index} {id : String}
    (kept : ∀ edge, edge ∈ b.edges old ↔ edge ∈ a.edges old ∧ old ≠ id ∧ edge.by_ ≠ id) :
    b.Links old by_ ↔ a.Links old by_ ∧ old ≠ id ∧ by_ ≠ id := by
  simp only [Links, kept]
  grind

theorem Coherent.congr {a b : Index} (coherent : a.Coherent times) (edges : ∀ id, b.edges id = a.edges id)
    (predecessors : ∀ id, b.directPredecessors id = a.directPredecessors id) : b.Coherent times where
  timed := by
    intro id edge member
    exact coherent.timed id edge (edges id ▸ member)
  mirrored := by
    intro id old
    rw [predecessors, coherent.mirrored]
    exact (links_congr edges old id).symm

end Links

section AddEdge

variable {index : Index} {times : String → Option (Millis × Millis)} {old by_ : String} {effective ingest : Millis}

theorem any_edges : (index.edges old).any (fun edge => edge.by_ == by_) = true ↔ index.Links old by_ := by
  simp [Links]

theorem addEdge_of_links (linked : index.Links old by_) : index.addEdge old by_ effective ingest = index :=
  if_pos (any_edges.mpr linked)

theorem edges_addEdge (fresh : ¬index.Links old by_) (id : String) :
    (index.addEdge old by_ effective ingest).edges id =
      if id = old then index.edges old ++ [⟨by_, effective, ingest⟩] else index.edges id := by
  unfold addEdge
  rw [if_neg (mt any_edges.mp fresh)]
  simp only [edges, Table.getElem?_insert]
  split <;> simp

theorem directPredecessors_addEdge (fresh : ¬index.Links old by_) (id : String) :
    (index.addEdge old by_ effective ingest).directPredecessors id =
      if id = by_ ∧ old ∉ index.directPredecessors by_ then index.directPredecessors by_ ++ [old]
      else index.directPredecessors id := by
  unfold addEdge
  rw [if_neg (mt any_edges.mp fresh)]
  by_cases known : old ∈ index.directPredecessors by_
  · have found : (index.directPredecessors by_).any (· == old) = true :=
      any_eq_true.mpr ⟨old, known, beq_self_eq_true old⟩
    rw [if_pos found, if_neg fun both => both.2 known]
    rfl
  · have found : ¬(index.directPredecessors by_).any (· == old) = true := by
      intro any
      obtain ⟨other, member, same⟩ := any_eq_true.mp any
      exact known (beq_iff_eq.mp same ▸ member)
    rw [if_neg found]
    simp only [directPredecessors, Table.getElem?_insert]
    by_cases own : id = by_
    · subst own
      simp only [directPredecessors] at known
      simp [known]
    · simp [own]

theorem links_addEdge (a b : String) :
    (index.addEdge old by_ effective ingest).Links a b ↔ index.Links a b ∨ (a = old ∧ b = by_) := by
  by_cases linked : index.Links old by_
  · rw [addEdge_of_links linked]
    constructor
    · exact .inl
    · rintro (before | ⟨rfl, rfl⟩)
      · exact before
      · exact linked
  · unfold Links
    rw [edges_addEdge linked]
    split
    · next own =>
      subst own
      simp only [mem_append, mem_singleton]
      constructor
      · rintro ⟨edge, before | rfl, own⟩
        · exact .inl ⟨edge, before, own⟩
        · exact .inr ⟨trivial, own.symm⟩
      · rintro (⟨edge, before, own⟩ | ⟨-, rfl⟩)
        · exact ⟨edge, .inl before, own⟩
        · exact ⟨_, .inr rfl, rfl⟩
    · next apart =>
      simp [apart]

theorem Coherent.addEdge (coherent : index.Coherent times) (known : times by_ = some (effective, ingest)) :
    (index.addEdge old by_ effective ingest).Coherent times := by
  by_cases linked : index.Links old by_
  · rwa [addEdge_of_links linked]
  · constructor
    · intro id edge member
      rw [edges_addEdge linked] at member
      split at member
      · rcases mem_append.mp member with before | added
        · exact coherent.timed old edge before
        · rw [mem_singleton.mp added]
          exact known
      · exact coherent.timed id edge member
    · intro id other
      have absent : old ∉ index.directPredecessors by_ := fun member => linked ((coherent.mirrored by_ old).mp member)
      rw [links_addEdge, directPredecessors_addEdge linked]
      by_cases own : id = by_
      · subst own
        rw [if_pos ⟨rfl, absent⟩, mem_append, mem_singleton, coherent.mirrored]
        simp
      · rw [if_neg fun both => own both.1, coherent.mirrored]
        simp [own]

@[simp] theorem windowed_addEdge : (index.addEdge old by_ effective ingest).windowed = index.windowed := by
  unfold Index.addEdge
  split <;> rfl

@[simp] theorem group_addEdge (subject : String) :
    (index.addEdge old by_ effective ingest).group subject = index.group subject := by
  unfold Index.addEdge
  split <;> rfl

@[simp] theorem entityIds_addEdge (entity : String) :
    (index.addEdge old by_ effective ingest).entityIds entity = index.entityIds entity := by
  unfold Index.addEdge
  split <;> rfl

end AddEdge

section Insert

variable (index : Index) (id : String) (stamp : Stamp) (lookup : String → Option (Millis × Millis))
  {times : String → Option (Millis × Millis)}

/-- The parts of an index that links do not touch. -/
structure SameEntries (a b : Index) : Prop where
  windowed : a.windowed = b.windowed
  group : ∀ subject, a.group subject = b.group subject
  entityIds : ∀ entity, a.entityIds entity = b.entityIds entity

theorem SameEntries.trans {a b c : Index} (first : SameEntries a b) (second : SameEntries b c) : SameEntries a c :=
  ⟨first.windowed.trans second.windowed, fun subject => (first.group subject).trans (second.group subject),
    fun entity => (first.entityIds entity).trans (second.entityIds entity)⟩

theorem addEdge_sameEntries (old by_ : String) (effective ingest : Millis) :
    SameEntries (index.addEdge old by_ effective ingest) index :=
  ⟨windowed_addEdge, group_addEdge, entityIds_addEdge⟩

theorem links_addSuperseded (a b : String) :
    (index.addSuperseded id stamp).Links a b ↔ index.Links a b ∨ (a ∈ stamp.supersedes ∧ b = id) := by
  unfold addSuperseded
  generalize stamp.supersedes = olds
  induction olds generalizing index with
  | nil => simp
  | cons old olds ih =>
    rw [foldl_cons, ih, links_addEdge, mem_cons]
    tauto

theorem addSuperseded_sameEntries : SameEntries (index.addSuperseded id stamp) index := by
  unfold addSuperseded
  generalize stamp.supersedes = olds
  induction olds generalizing index with
  | nil => exact ⟨rfl, fun _ => rfl, fun _ => rfl⟩
  | cons old olds ih => exact (ih _).trans (addEdge_sameEntries index old id _ _)

theorem Coherent.addSuperseded {index : Index} {id : String} {stamp : Stamp} (coherent : index.Coherent times)
    (known : stamp.supersedes ≠ [] → times id = some stamp.times) : (index.addSuperseded id stamp).Coherent times := by
  unfold Index.addSuperseded
  revert known
  generalize stamp.supersedes = olds
  intro known
  induction olds generalizing index with
  | nil => exact coherent
  | cons old olds ih =>
    refine ih (coherent.addEdge (known (by simp))) ?_
    intro
    exact known (by simp)

theorem links_addHints (a b : String) :
    (index.addHints id stamp lookup).Links a b ↔
      index.Links a b ∨ (a = id ∧ b ∈ stamp.supersededBy ∧ (lookup b).isSome) := by
  unfold addHints
  generalize stamp.supersededBy = hints
  induction hints generalizing index with
  | nil => simp
  | cons hint hints ih =>
    rw [foldl_cons, ih, mem_cons]
    unfold addHint
    cases found : lookup hint with
    | none =>
      constructor
      · rintro (before | ⟨own, later, known⟩)
        · exact .inl before
        · exact .inr ⟨own, .inr later, known⟩
      · rintro (before | ⟨own, rfl | later, known⟩)
        · exact .inl before
        · simp [found] at known
        · exact .inr ⟨own, later, known⟩
    | some known =>
      simp only [links_addEdge]
      constructor
      · rintro ((before | ⟨own, rfl⟩) | ⟨own, later, known⟩)
        · exact .inl before
        · exact .inr ⟨own, .inl rfl, by simp [found]⟩
        · exact .inr ⟨own, .inr later, known⟩
      · rintro (before | ⟨own, rfl | later, known⟩)
        · exact .inl (.inl before)
        · exact .inl (.inr ⟨own, rfl⟩)
        · exact .inr ⟨own, later, known⟩

theorem addHints_sameEntries : SameEntries (index.addHints id stamp lookup) index := by
  unfold addHints
  generalize stamp.supersededBy = hints
  induction hints generalizing index with
  | nil => exact ⟨rfl, fun _ => rfl, fun _ => rfl⟩
  | cons hint hints ih =>
    refine (ih _).trans ?_
    unfold addHint
    split
    · exact addEdge_sameEntries index id hint _ _
    · exact ⟨rfl, fun _ => rfl, fun _ => rfl⟩

theorem Coherent.addHints {index : Index} {id : String} {stamp : Stamp} (coherent : index.Coherent times)
    (known : ∀ by_ ∈ stamp.supersededBy, ∀ found, lookup by_ = some found → times by_ = some found) :
    (index.addHints id stamp lookup).Coherent times := by
  unfold Index.addHints
  revert known
  generalize stamp.supersededBy = hints
  intro known
  induction hints generalizing index with
  | nil => exact coherent
  | cons hint hints ih =>
    refine ih ?_ (forall_mem_cons.mp known).2
    unfold addHint
    split
    · next effective ingest found => exact coherent.addEdge (known hint mem_cons_self _ found)
    · exact coherent

theorem countWindow_edges (old : String) : (index.countWindow stamp).edges old = index.edges old := by
  unfold countWindow
  split <;> rfl

theorem countWindow_directPredecessors (by_ : String) :
    (index.countWindow stamp).directPredecessors by_ = index.directPredecessors by_ := by
  unfold countWindow
  split <;> rfl

theorem addMember_edges (old : String) : (index.addMember id stamp).edges old = index.edges old := by
  unfold addMember
  split <;> rfl

theorem addMember_directPredecessors (by_ : String) :
    (index.addMember id stamp).directPredecessors by_ = index.directPredecessors by_ := by
  unfold addMember
  split <;> rfl

section

variable (entities : List String)
include entities

theorem foldl_kept (change : Index → String → Index) (shown : Index → α)
    (kept : ∀ index entity, shown (change index entity) = shown index) (index : Index) :
    shown (entities.foldl change index) = shown index := by
  induction entities generalizing index with
  | nil => rfl
  | cons entity entities ih => exact (ih (change index entity)).trans (kept index entity)

theorem addEntities_edges (old : String) : (entities.foldl (addEntity id) index).edges old = index.edges old :=
  foldl_kept entities (addEntity id) (edges · old) (fun _ _ => rfl) index

theorem addEntities_directPredecessors (by_ : String) :
    (entities.foldl (addEntity id) index).directPredecessors by_ = index.directPredecessors by_ :=
  foldl_kept entities (addEntity id) (directPredecessors · by_) (fun _ _ => rfl) index

theorem addEntities_group (subject : String) :
    (entities.foldl (addEntity id) index).group subject = index.group subject :=
  foldl_kept entities (addEntity id) (group · subject) (fun _ _ => rfl) index

theorem addEntities_windowed : (entities.foldl (addEntity id) index).windowed = index.windowed :=
  foldl_kept entities (addEntity id) windowed (fun _ _ => rfl) index

theorem mem_addEntities (entity other : String) :
    other ∈ (entities.foldl (addEntity id) index).entityIds entity ↔
      other ∈ index.entityIds entity ∨ (other = id ∧ entity ∈ entities) := by
  induction entities generalizing index with
  | nil => simp
  | cons head entities ih =>
    have one : other ∈ (addEntity id index head).entityIds entity ↔
        other ∈ index.entityIds entity ∨ (other = id ∧ entity = head) := by
      simp only [addEntity, entityIds, Table.getElem?_insert]
      by_cases own : entity = head
      · subst own
        by_cases known : id ∈ index.byEntity[entity]?.getD []
        · have found : (index.byEntity[entity]?.getD []).any (· == id) = true :=
            any_eq_true.mpr ⟨id, known, beq_self_eq_true id⟩
          simp only [found, if_true, Option.getD_some]
          constructor
          · exact .inl
          · rintro (before | ⟨rfl, -⟩)
            · exact before
            · exact known
        · simp [known]
      · simp [own]
    rw [foldl_cons, ih, one, mem_cons]
    tauto

end

theorem links_insert (a b : String) :
    (index.insert id stamp lookup).Links a b ↔
      index.Links a b ∨ (a ∈ stamp.supersedes ∧ b = id) ∨
        (a = id ∧ b ∈ stamp.supersededBy ∧ (lookup b).isSome) := by
  unfold insert
  rw [links_congr (fun old => (addEntities_edges _ _ _ old).trans (addMember_edges _ _ _ old)), links_addHints,
    links_addSuperseded, links_congr (countWindow_edges index stamp), or_assoc]

theorem Coherent.insert {index : Index} {id : String} {stamp : Stamp} (coherent : index.Coherent times)
    (own : stamp.supersedes ≠ [] → times id = some stamp.times)
    (known : ∀ by_ ∈ stamp.supersededBy, ∀ found, lookup by_ = some found → times by_ = some found) :
    (index.insert id stamp lookup).Coherent times := by
  have counted := coherent.congr (countWindow_edges index stamp) (countWindow_directPredecessors index stamp)
  exact ((counted.addSuperseded own).addHints lookup known).congr
    (fun old => (addEntities_edges _ _ _ old).trans (addMember_edges _ _ _ old))
    (fun by_ => (addEntities_directPredecessors _ _ _ by_).trans (addMember_directPredecessors _ _ _ by_))

theorem linked_sameEntries :
    SameEntries (((index.countWindow stamp).addSuperseded id stamp).addHints id stamp lookup)
      (index.countWindow stamp) :=
  (addHints_sameEntries _ id stamp lookup).trans (addSuperseded_sameEntries _ id stamp)

theorem windowed_insert :
    (index.insert id stamp lookup).windowed = index.windowed + if stamp.windowed then 1 else 0 := by
  have same := (linked_sameEntries index id stamp lookup).windowed
  have member (index : Index) : (index.addMember id stamp).windowed = index.windowed := by
    unfold addMember
    split <;> rfl
  unfold insert
  rw [addEntities_windowed, member, same]
  unfold countWindow
  split <;> simp_all

theorem mem_group_insert (subject : String) (entry : Member) :
    entry ∈ (index.insert id stamp lookup).group subject ↔
      (entry ∈ index.group subject ∧ ¬(stamp.subject = some subject ∧ entry.id = id)) ∨
        (stamp.subject = some subject ∧ entry = ⟨id, stamp.effectiveFrom, stamp.ingest⟩) := by
  have same := (linked_sameEntries index id stamp lookup).group
  have counted (subject : String) : (index.countWindow stamp).group subject = index.group subject := by
    unfold countWindow
    split <;> rfl
  unfold insert
  rw [addEntities_group]
  unfold addMember
  cases own : stamp.subject with
  | none => simp [same, counted]
  | some mine =>
    have content : Option.getD ((((index.countWindow stamp).addSuperseded id stamp).addHints id stamp
        lookup).bySubject[subject]?) [] = Option.getD (index.bySubject[subject]?) [] :=
      (same subject).trans (counted subject)
    simp only [group, Table.getElem?_insert]
    by_cases equal : subject = mine
    · subst equal
      simp [content]
    · simp [equal, Ne.symm equal, content]

theorem mem_entityIds_insert (entity other : String) :
    other ∈ (index.insert id stamp lookup).entityIds entity ↔
      other ∈ index.entityIds entity ∨ (other = id ∧ entity ∈ stamp.entities) := by
  have same := (linked_sameEntries index id stamp lookup).entityIds entity
  have counted : (index.countWindow stamp).entityIds entity = index.entityIds entity := by
    unfold countWindow
    split <;> rfl
  have member (index : Index) : (index.addMember id stamp).entityIds entity = index.entityIds entity := by
    unfold addMember
    split <;> rfl
  unfold insert
  rw [mem_addEntities, member, same, counted]

end Insert

section Remove

variable (index : Index) (id : String) (stamp : Stamp) {times : String → Option (Millis × Millis)}

theorem getD_retain (table : Table String (List α)) (key other : String) (keep : α → Bool) :
    (retain table key keep)[other]?.getD [] =
      if other = key then (table[key]?.getD []).filter keep else table[other]?.getD [] := by
  unfold retain
  cases found : table[key]? with
  | none =>
    by_cases own : other = key
    · subst own
      simp [found]
    · simp [own]
  | some items =>
    by_cases none : (items.filter keep).isEmpty
    · simp only [none, if_true, Table.getElem?_erase]
      by_cases own : other = key
      · subst own
        simpa using (List.isEmpty_iff.mp none).symm
      · simp [own]
    · simp only [if_neg none, Table.getElem?_insert]
      by_cases own : other = key
      · simp [own]
      · simp [own]

theorem getD_foldl_retain (keep : α → Bool) (keys : List String) (table : Table String (List α)) (other : String) :
    (keys.foldl (fun table key => retain table key keep) table)[other]?.getD [] =
      if other ∈ keys then (table[other]?.getD []).filter keep else table[other]?.getD [] := by
  induction keys generalizing table with
  | nil => simp
  | cons key keys ih =>
    rw [foldl_cons, ih, getD_retain]
    by_cases own : other = key
    · subst own
      by_cases again : other ∈ keys
      · simp [again, filter_filter]
      · simp [again]
    · simp [own]

theorem edges_dropSuperseded (old : String) :
    (index.dropSuperseded id).edges old =
      if old ∈ index.directPredecessors id then (index.edges old).filter (fun edge => edge.by_ != id)
      else index.edges old :=
  getD_foldl_retain _ _ _ old

theorem directPredecessors_dropSuperseded (by_ : String) :
    (index.dropSuperseded id).directPredecessors by_ = if by_ = id then [] else index.directPredecessors by_ := by
  simp only [directPredecessors, dropSuperseded, Table.getElem?_erase]
  split <;> simp

theorem edges_dropSuperseders (old : String) :
    (index.dropSuperseders id).edges old = if old = id then [] else index.edges old := by
  simp only [edges, dropSuperseders, Table.getElem?_erase]
  split <;> simp

theorem directPredecessors_dropSuperseders (by_ : String) :
    (index.dropSuperseders id).directPredecessors by_ =
      if by_ ∈ (index.edges id).map (·.by_) then (index.directPredecessors by_).filter (fun old => old != id)
      else index.directPredecessors by_ := by
  have folded : (index.edges id).foldl (fun table edge => retain table edge.by_ fun old => old != id)
      index.predecessors = ((index.edges id).map (·.by_)).foldl (fun table key => retain table key fun old => old != id)
      index.predecessors := by
    rw [foldl_map]
  simp only [directPredecessors, dropSuperseders, folded]
  exact getD_foldl_retain _ _ _ by_

theorem Coherent.mem_edges_drop {index : Index} (coherent : index.Coherent times) (id old : String) (edge : Edge) :
    edge ∈ ((index.dropSuperseded id).dropSuperseders id).edges old ↔
      edge ∈ index.edges old ∧ old ≠ id ∧ edge.by_ ≠ id := by
  rw [edges_dropSuperseders, edges_dropSuperseded]
  by_cases own : old = id
  · simp [own]
  · rw [if_neg own]
    split
    · simp [own]
    · next unlinked =>
      constructor
      · intro member
        exact ⟨member, own, fun same => unlinked ((coherent.mirrored id old).mpr ⟨edge, member, same⟩)⟩
      · exact fun both => both.1

theorem Coherent.drop {index : Index} (coherent : index.Coherent times) (id : String) :
    ((index.dropSuperseded id).dropSuperseders id).Coherent times where
  timed := by
    intro old edge member
    exact coherent.timed old edge ((coherent.mem_edges_drop id old edge).mp member).1
  mirrored := by
    intro by_ old
    have links : ((index.dropSuperseded id).dropSuperseders id).Links old by_ ↔
        index.Links old by_ ∧ old ≠ id ∧ by_ ≠ id := links_of_edges (coherent.mem_edges_drop id old)
    rw [links, ← coherent.mirrored, directPredecessors_dropSuperseders, directPredecessors_dropSuperseded]
    by_cases own : by_ = id
    · simp [own]
    · rw [if_neg own]
      split
      · simp [own]
      · next unlinked =>
        have apart : old ∈ index.directPredecessors by_ → old ≠ id := by
          rintro member rfl
          obtain ⟨edge, before, same⟩ := (coherent.mirrored by_ old).mp member
          apply unlinked
          refine mem_map.mpr ⟨edge, ?_, same⟩
          rw [edges_dropSuperseded]
          split
          · exact mem_filter.mpr ⟨before, by simpa [same] using own⟩
          · exact before
        constructor
        · exact fun member => ⟨member, apart member, own⟩
        · exact fun both => both.1

theorem dropMember_edges (old : String) : (index.dropMember id stamp).edges old = index.edges old := by
  unfold dropMember
  split <;> rfl

theorem dropMember_directPredecessors (by_ : String) :
    (index.dropMember id stamp).directPredecessors by_ = index.directPredecessors by_ := by
  unfold dropMember
  split <;> rfl

theorem dropWindow_edges (old : String) : (index.dropWindow stamp).edges old = index.edges old := by
  unfold dropWindow
  split <;> rfl

theorem dropWindow_directPredecessors (by_ : String) :
    (index.dropWindow stamp).directPredecessors by_ = index.directPredecessors by_ := by
  unfold dropWindow
  split <;> rfl

section

variable (entities : List String)
include entities

theorem dropEntities_edges (old : String) : (entities.foldl (dropEntity id) index).edges old = index.edges old :=
  foldl_kept entities (dropEntity id) (edges · old) (fun _ _ => rfl) index

theorem dropEntities_directPredecessors (by_ : String) :
    (entities.foldl (dropEntity id) index).directPredecessors by_ = index.directPredecessors by_ :=
  foldl_kept entities (dropEntity id) (directPredecessors · by_) (fun _ _ => rfl) index

theorem dropEntities_group (subject : String) :
    (entities.foldl (dropEntity id) index).group subject = index.group subject :=
  foldl_kept entities (dropEntity id) (group · subject) (fun _ _ => rfl) index

theorem dropEntities_windowed : (entities.foldl (dropEntity id) index).windowed = index.windowed :=
  foldl_kept entities (dropEntity id) windowed (fun _ _ => rfl) index

theorem mem_dropEntities (entity other : String) :
    other ∈ (entities.foldl (dropEntity id) index).entityIds entity ↔
      other ∈ index.entityIds entity ∧ ¬(entity ∈ entities ∧ other = id) := by
  induction entities generalizing index with
  | nil => simp
  | cons head entities ih =>
    have one : other ∈ (dropEntity id index head).entityIds entity ↔
        other ∈ index.entityIds entity ∧ ¬(entity = head ∧ other = id) := by
      simp only [dropEntity, entityIds, getD_retain]
      by_cases own : entity = head
      · subst own
        simp
      · simp [own]
    rw [foldl_cons, ih, one, mem_cons]
    tauto

end

theorem Coherent.mem_edges_remove {index : Index} (coherent : index.Coherent times) (id : String) (stamp : Stamp)
    (old : String) (edge : Edge) :
    edge ∈ (index.remove id stamp).edges old ↔ edge ∈ index.edges old ∧ old ≠ id ∧ edge.by_ ≠ id := by
  have dropped := coherent.congr (dropWindow_edges index stamp) (dropWindow_directPredecessors index stamp)
  unfold remove
  rw [dropEntities_edges, dropMember_edges, dropped.mem_edges_drop, dropWindow_edges]

theorem Coherent.remove {index : Index} (coherent : index.Coherent times) (id : String) (stamp : Stamp) :
    (index.remove id stamp).Coherent times := by
  have dropped := coherent.congr (dropWindow_edges index stamp) (dropWindow_directPredecessors index stamp)
  exact (dropped.drop id).congr
    (fun old => (dropEntities_edges _ _ _ old).trans (dropMember_edges _ _ _ old))
    (fun by_ => (dropEntities_directPredecessors _ _ _ by_).trans (dropMember_directPredecessors _ _ _ by_))

theorem Coherent.links_remove {index : Index} (coherent : index.Coherent times) (id : String) (stamp : Stamp)
    (old by_ : String) :
    (index.remove id stamp).Links old by_ ↔ index.Links old by_ ∧ old ≠ id ∧ by_ ≠ id :=
  links_of_edges (coherent.mem_edges_remove id stamp old)

theorem windowed_remove :
    (index.remove id stamp).windowed = index.windowed - if stamp.windowed then 1 else 0 := by
  have member (index : Index) : (index.dropMember id stamp).windowed = index.windowed := by
    unfold dropMember
    split <;> rfl
  unfold remove
  rw [dropEntities_windowed, member]
  simp only [dropSuperseders, dropSuperseded, dropWindow]
  split <;> simp

theorem mem_group_remove (subject : String) (entry : Member) :
    entry ∈ (index.remove id stamp).group subject ↔
      entry ∈ index.group subject ∧ ¬(stamp.subject = some subject ∧ entry.id = id) := by
  have content : (((index.dropWindow stamp).dropSuperseded id).dropSuperseders id).bySubject = index.bySubject := by
    simp only [dropSuperseders, dropSuperseded, dropWindow]
    split <;> rfl
  unfold remove
  rw [dropEntities_group]
  unfold dropMember
  cases own : stamp.subject with
  | none => simp [group, content]
  | some mine =>
    simp only [group, content, getD_retain]
    by_cases equal : subject = mine
    · subst equal
      simp
    · simp [equal, Ne.symm equal]

theorem mem_entityIds_remove (entity other : String) :
    other ∈ (index.remove id stamp).entityIds entity ↔
      other ∈ index.entityIds entity ∧ ¬(entity ∈ stamp.entities ∧ other = id) := by
  have content : ((((index.dropWindow stamp).dropSuperseded id).dropSuperseders id).dropMember id stamp).entityIds entity =
      index.entityIds entity := by
    simp only [dropMember, dropSuperseders, dropSuperseded, dropWindow]
    split <;> split <;> rfl
  unfold remove
  rw [mem_dropEntities, content]

end Remove

end Index

end Warm.Memory
