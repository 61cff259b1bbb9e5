import Mathlib.Data.Finset.Sort
import Warm.MemoryRebuild

/-! Recall over one snapshot of a store: which documents a search is allowed to return, and what the search's hits
become. Document search itself is the engine's. -/
namespace Warm.Memory

open List
open Option (isNone_iff_eq_none isSome_eq_false_iff map_some)

variable {id : String} {stamp : Stamp}

inductive FactStatus where
  | current
  | superseded
  | expired
  | notYetValid
  deriving DecidableEq, Repr

inductive HistoryMode where
  | current
  | all
  | historical
  deriving DecidableEq, Repr

def HistoryMode.keeps : HistoryMode → FactStatus → Bool
  | .all, _ => true
  | .current, status => status == .current
  | .historical, status => status != .current

/-- Whether a link has taken effect and is known. -/
def Edge.holds (edge : Edge) (now : Millis) (knownAt : Option Millis) : Bool :=
  decide (edge.effective ≤ now) && knownAt.all fun known => decide (edge.ingest ≤ known)

/-- Whether a fact was ingested after the time of knowledge. -/
def Stamp.unknownAt (stamp : Option Stamp) (knownAt : Option Millis) : Bool :=
  match knownAt, stamp with
  | some known, some stamp => decide (known < stamp.ingest)
  | _, _ => false

/-- A fact's status at `now`, or none when `known_at` predates its ingest. -/
def evaluate (stamp : Option Stamp) (edges : List Edge) (now : Millis) (knownAt : Option Millis) : Option FactStatus :=
  if Stamp.unknownAt stamp knownAt then none
  else if edges.any (·.holds now knownAt) then some .superseded
  else match stamp with
    | none => some .current
    | some stamp =>
      if stamp.validTo.any (fun limit => decide (limit ≤ now)) then some .expired
      else if stamp.validFrom.any (fun start => decide (now < start)) then some .notYetValid
      else some .current

/-- The characters Rust's `trim` removes. -/
def whitespace (c : Char) : Bool :=
  let n := c.toNat
  (9 ≤ n && n ≤ 13) || n == 0x20 || n == 0x85 || n == 0xA0 || n == 0x1680 || (0x2000 ≤ n && n ≤ 0x200A) ||
    n == 0x2028 || n == 0x2029 || n == 0x202F || n == 0x205F || n == 0x3000

def trim (text : String) : String :=
  String.ofList (((text.toList.dropWhile whitespace).reverse.dropWhile whitespace).reverse)

/-- The options of a recall; `ranking` is what document search takes besides `k`, the filter and the allowed ids. -/
structure RecallOptions (R : Type) where
  k : Option Nat
  asOf : Option Millis
  knownAt : Option Millis
  history : Option HistoryMode
  subject : Option String
  entities : Option (List String)
  filter : Option Metadata
  candidateLimit : Option Nat
  ranking : R

structure Hit (S : Type) where
  documentId : String
  score : S

/-- What a recency policy sees of a fact. -/
structure RecencyContext where
  now : Millis
  eventTime : Option Millis
  validFrom : Option Millis
  ingestTime : Option Millis
  status : FactStatus

structure Recency (S : Type) where
  isIdentity : Bool
  factor : RecencyContext → S

structure RecallSettings (S : Type) where
  defaultK : Nat
  defaultHistory : HistoryMode
  historicalWeight : S
  recency : Recency S
  /-- The clock's reading. -/
  now : Millis

/-- The engine's document search: a check of the options, and the hits of a query over a set of documents. -/
structure Engine (R S : Type) where
  validate : String → RecallOptions R → Nat → Except String Unit
  scalarKey : Json → Option String
  hits : String → R → Nat → Finset String → List (Hit S)

/-- A memory's store and index as one recall finds them. -/
structure Store where
  documents : Documents
  revision : Nat
  index : Index

section Scan

/-- `filter.and_then(Value::as_object)`. -/
def filterEntries : Option Metadata → List (String × Json)
  | some (.object entries) => entries.toList
  | _ => []

def matchesMetadata (metadata : Metadata) (filter : Option Metadata) : Bool :=
  (filterEntries filter).all fun entry => metadata.get entry.1 == some entry.2

variable (scalarKey : Json → Option String) (documents : Documents)

def scalarPostings (key value : String) : List String :=
  (documents.toList.filter fun entry => (entry.2.metadata.get key).bind scalarKey == some value).map Prod.fst

/-- The smallest postings of a filter's scalar entries. -/
def smallestPostings : List (String × Json) → Option (List String) → Option (List String)
  | [], best => best
  | (key, value) :: rest, best =>
    match scalarKey value with
    | none => smallestPostings rest best
    | some scalar =>
      if (scalarPostings scalarKey documents key scalar).isEmpty then some []
      else smallestPostings rest
        (if best.all (fun ids => decide ((scalarPostings scalarKey documents key scalar).length < ids.length))
          then some (scalarPostings scalarKey documents key scalar) else best)

def metadataCandidates (filter : Option Metadata) : Option (List String) :=
  smallestPostings scalarKey documents (filterEntries filter) none

def scanCandidates (ids : Option (List String)) (filter : Option Metadata) : List String :=
  match ids, metadataCandidates scalarKey documents filter with
  | some ids, some found => if found.length < ids.length then found else ids
  | some ids, none => ids
  | none, some found => found
  | none, none => documents.toList.map Prod.fst

/-- The ids of the documents a scan visits and `keep` accepts. -/
def scanDocuments (ids : Option (List String)) (filter : Option Metadata) (keep : String → DocumentParts → Bool) :
    List String :=
  (scanCandidates scalarKey documents ids filter).filter fun id =>
    match documents[id]? with
    | none => false
    | some parts => ids.all (·.contains id) && matchesMetadata parts.metadata filter && keep id parts

end Scan

/-- A set of ids in order, as a `BTreeSet` holds it. -/
def orderedIds (ids : List String) : List String :=
  ids.dedup.mergeSort fun a b => decide (a ≤ b)

section Recall

variable {R S : Type}

def RecallOptions.aboutSubject (options : RecallOptions R) (stamp : Option Stamp) : Bool :=
  options.subject.all fun subject => stamp.bind (·.subject) == some (trim subject)

def RecallOptions.mentions (options : RecallOptions R) (stamp : Option Stamp) : Bool :=
  options.entities.all fun entities => stamp.any fun stamp => entities.any fun entity => stamp.entities.contains (trim entity)

def RecallOptions.scoped (options : RecallOptions R) : Bool :=
  options.subject.isSome || options.entities.isSome

/-- Whether the filter is a non-empty object. -/
def RecallOptions.filtered (options : RecallOptions R) : Bool :=
  !(filterEntries options.filter).isEmpty

def restriction (index : Index) (options : RecallOptions R) : Option (List String) :=
  let subject := options.subject.map fun subject => orderedIds (index.subjectIds (trim subject))
  match options.entities with
  | none => subject
  | some entities =>
    let union := orderedIds (entities.flatMap fun entity => index.entityIds (trim entity))
    match subject with
    | none => some union
    | some existing => some (existing.filter fun id => union.contains id)

/-- `index.constrained() || options.known_at.is_some()`. -/
def needsStatus (index : Index) (options : RecallOptions R) : Bool :=
  index.constrained || options.knownAt.isSome

def temporal (index : Index) (options : RecallOptions R) (history : HistoryMode) : Bool :=
  needsStatus index options && (history != .all || options.knownAt.isSome)

/-- The ids the subject, entities and filter leave, or none for all documents: a scan of the metadata when a filter
meets another restriction, the postings otherwise. -/
def restrict (engine : Engine R S) (store : Store) (options : RecallOptions R) (history : HistoryMode) :
    Option (List String) :=
  if options.filtered && (temporal store.index options history || options.scoped) then
    some (scanDocuments engine.scalarKey store.documents none options.filter fun _ parts =>
      !options.scoped || (options.aboutSubject parts.stamp && options.mentions parts.stamp))
  else restriction store.index options

/-- The ids among these, or among all documents, whose status the history mode returns. -/
def eligibleIds (engine : Engine R S) (store : Store) (options : RecallOptions R) (history : HistoryMode) (now : Millis)
    (scope : Option (List String)) : List String :=
  scanDocuments engine.scalarKey store.documents (scope.map orderedIds) none fun id parts =>
    (evaluate parts.stamp (store.index.edges id) now options.knownAt).any history.keeps

/-- The documents a search with these options is over. -/
def admitted (documents : Documents) (ids : Option (List String)) (filter : Option Metadata) : Finset String :=
  ((documents.toList.filter fun entry => ids.all (·.contains entry.1) && matchesMetadata entry.2.metadata filter).map
    Prod.fst).toFinset

structure Ranked (S : Type) where
  hit : Hit S
  stamp : Option Stamp
  status : FactStatus
  recency : S
  historical : S
  score : S

variable [Mul S] [One S] [DecidableEq S]

/-- Whether recency or the weight of history changes the order of the hits. -/
def reorders (settings : RecallSettings S) (index : Index) (options : RecallOptions R) : Bool :=
  !settings.recency.isIdentity || (needsStatus index options && settings.historicalWeight != 1)

def rank (settings : RecallSettings S) (now : Millis) (reorder : Bool) (hit : Hit S) (stamp : Option Stamp)
    (status : FactStatus) : Ranked S :=
  let recency := if settings.recency.isIdentity then 1 else
    settings.recency.factor ⟨now, stamp.bind (·.event), stamp.bind (·.validFrom), stamp.map (·.ingest), status⟩
  let historical := if status = .current then 1 else settings.historicalWeight
  ⟨hit, stamp, status, recency, historical, if reorder then hit.score * recency * historical else hit.score⟩

/-- The loop over the evaluated hits: the first hit of each document the history mode returns. -/
def collect (settings : RecallSettings S) (now : Millis) (history : HistoryMode) (reorder wide : Bool) (k : Nat) :
    List (Hit S × Option Stamp × FactStatus) → List String → List (Ranked S) → List (Ranked S)
  | [], _, ranked => ranked
  | (hit, stamp, status) :: rest, seen, ranked =>
    if !reorder && !wide && decide (k ≤ ranked.length) then ranked
    else if hit.documentId ∈ seen then collect settings now history reorder wide k rest seen ranked
    else if history.keeps status then
      collect settings now history reorder wide k rest (hit.documentId :: seen)
        (ranked ++ [rank settings now reorder hit stamp status])
    else collect settings now history reorder wide k rest (hit.documentId :: seen) ranked

def evaluated (store : Store) (options : RecallOptions R) (now : Millis) (hits : List (Hit S)) :
    List (Hit S × Option Stamp × FactStatus) :=
  hits.filterMap fun hit =>
    let stamp := store.documents[hit.documentId]?.bind (·.stamp)
    (evaluate stamp (store.index.edges hit.documentId) now options.knownAt).map fun status => (hit, stamp, status)

variable (upTo : S → S → Bool)

/-- The number of hits asked of the search. -/
def fetchCount (options : RecallOptions R) (wide : Bool) (k : Nat) : Nat :=
  if wide then min (max k (options.candidateLimit.getD (max 100 k))) 1000 else k

def searchRanked (engine : Engine R S) (settings : RecallSettings S) (store : Store) (query : String)
    (options : RecallOptions R) (history : HistoryMode) (k : Nat) (forceWide : Bool) (now : Millis)
    (ids : Option (List String)) : List (Ranked S) :=
  let reorder := reorders settings store.index options
  let hits := engine.hits query options.ranking (fetchCount options (reorder || forceWide) k)
    (admitted store.documents ids options.filter)
  let ranked := collect settings now history reorder forceWide k (evaluated store options now hits) [] []
  let sorted := if reorder then ranked.mergeSort fun a b => upTo b.score a.score else ranked
  if forceWide then sorted else sorted.take k

/-- One search and evaluation, none when no fact can qualify, and whether the index matched the revision searched. -/
def runOnce (engine : Engine R S) (settings : RecallSettings S) (store : Store) (query : String)
    (options : RecallOptions R) (history : HistoryMode) (k : Nat) (forceWide : Bool) :
    Option (List (Ranked S)) × Bool :=
  let now := options.asOf.getD settings.now
  let indexed := store.index.revision == some store.revision
  let ids := restrict engine store options history
  if ids == some [] then (none, indexed)
  else if history == .historical && !needsStatus store.index options && !forceWide then (none, indexed)
  else if temporal store.index options history then
    let eligible := eligibleIds engine store options history now ids
    if eligible.isEmpty then (none, indexed)
    else (some (searchRanked upTo engine settings store query options history k forceWide now (some eligible)), indexed)
  else (some (searchRanked upTo engine settings store query options history k forceWide now ids), indexed)

/-- Brings the index up to the store's revision. -/
def Store.ensureFresh (store : Store) : Store :=
  if store.index.revision = some store.revision then store
  else { store with index := Index.rebuild store.documents store.revision }

/-- Repeats the search until the index matched what was searched. -/
def run (engine : Engine R S) (settings : RecallSettings S) (query : String) (options : RecallOptions R)
    (history : HistoryMode) (k : Nat) (forceWide : Bool) :
    Nat → Store → Except String (Option (List (Ranked S)))
  | 0, _ => .error "memory changed during recall; retry the operation"
  | attempts + 1, store =>
    match runOnce upTo engine settings store query options history k forceWide with
    | (found, true) => .ok found
    | (_, false) => run engine settings query options history k forceWide attempts store.ensureFresh

def SNAPSHOT_ATTEMPTS : Nat := 4

/-- Facts relevant to a query, best first, over a store no other call changes meanwhile. -/
def «recall» (engine : Engine R S) (settings : RecallSettings S) (store : Store) (query : String)
    (options : RecallOptions R) : Except String (List (Ranked S)) := do
  let k := options.k.getD settings.defaultK
  engine.validate query options k
  let found ← run upTo engine settings query options (options.history.getD settings.defaultHistory) k false
    SNAPSHOT_ATTEMPTS store.ensureFresh
  return found.getD []

end Recall

section ScanResults

variable (scalarKey : Json → Option String) (documents : Documents)

theorem mem_scalarPostings (key value id : String) :
    id ∈ scalarPostings scalarKey documents key value ↔
      ∃ parts, documents[id]? = some parts ∧ (parts.metadata.get key).bind scalarKey = some value := by
  unfold scalarPostings
  rw [mem_map]
  constructor
  · rintro ⟨⟨key', parts⟩, member, rfl⟩
    obtain ⟨inside, scalar⟩ := mem_filter.mp member
    exact ⟨parts, (Table.mem_toList documents key' parts).mp inside, beq_iff_eq.mp scalar⟩
  · rintro ⟨parts, found, scalar⟩
    exact ⟨(id, parts), mem_filter.mpr ⟨(Table.mem_toList documents id parts).mpr found, beq_iff_eq.mpr scalar⟩, rfl⟩

theorem smallestPostings_covers (entries : List (String × Json)) (best : Option (List String)) (id : String)
    (parts : DocumentParts) (found : documents[id]? = some parts)
    (matching : ∀ entry ∈ entries, parts.metadata.get entry.1 = some entry.2)
    (covered : ∀ ids, best = some ids → id ∈ ids) :
    ∀ ids, smallestPostings scalarKey documents entries best = some ids → id ∈ ids := by
  induction entries generalizing best with
  | nil => exact covered
  | cons entry entries ih =>
    obtain ⟨key, value⟩ := entry
    have own := matching (key, value) mem_cons_self
    have rest : ∀ entry ∈ entries, parts.metadata.get entry.1 = some entry.2 :=
      (forall_mem_cons.mp matching).2
    simp only [smallestPostings]
    cases scalar : scalarKey value with
    | none => exact ih best rest covered
    | some text =>
      have inside : id ∈ scalarPostings scalarKey documents key text := by
        rw [mem_scalarPostings]
        exact ⟨parts, found, by simp [own, scalar]⟩
      have filled : (scalarPostings scalarKey documents key text).isEmpty = false := by
        rw [isEmpty_eq_false_iff_exists_mem]
        exact ⟨id, inside⟩
      simp only [filled]
      refine ih _ rest ?_
      intro ids chosen
      split at chosen
      · rw [← Option.some.inj chosen]
        exact inside
      · exact covered ids chosen

theorem matchesMetadata_iff (metadata : Metadata) (filter : Option Metadata) :
    matchesMetadata metadata filter = true ↔ ∀ entry ∈ filterEntries filter, metadata.get entry.1 = some entry.2 := by
  simp [matchesMetadata, all_eq_true]

theorem mem_scanDocuments (ids : Option (List String)) (filter : Option Metadata)
    (keep : String → DocumentParts → Bool) (id : String) :
    id ∈ scanDocuments scalarKey documents ids filter keep ↔
      ∃ parts, documents[id]? = some parts ∧ (∀ scope, ids = some scope → id ∈ scope) ∧
        matchesMetadata parts.metadata filter = true ∧ keep id parts = true := by
  unfold scanDocuments
  rw [mem_filter]
  constructor
  · rintro ⟨-, kept⟩
    cases found : documents[id]? with
    | none => simp [found] at kept
    | some parts =>
      simp only [found, Bool.and_eq_true] at kept
      refine ⟨parts, rfl, ?_, kept.1.2, kept.2⟩
      rintro scope rfl
      simpa using kept.1.1
  · rintro ⟨parts, found, inScope, matching, kept⟩
    constructor
    · unfold scanCandidates
      have covered := smallestPostings_covers scalarKey documents (filterEntries filter) none id parts found
        ((matchesMetadata_iff parts.metadata filter).mp matching) (fun ids absent => by simp at absent)
      split
      · next scope postings chosen =>
        split
        · exact covered postings chosen
        · exact inScope scope rfl
      · next scope _ => exact inScope scope rfl
      · next postings chosen => exact covered postings chosen
      · exact mem_map.mpr ⟨(id, parts), (Table.mem_toList documents id parts).mpr found, rfl⟩
    · simp only [found, matching, kept, Bool.and_true]
      cases ids with
      | none => rfl
      | some scope => simpa using inScope scope rfl

theorem mem_orderedIds (ids : List String) (id : String) : id ∈ orderedIds ids ↔ id ∈ ids := by
  simp [orderedIds]

theorem mem_admitted (ids : Option (List String)) (filter : Option Metadata) (id : String) :
    id ∈ admitted documents ids filter ↔ ∃ parts, documents[id]? = some parts ∧
      (∀ scope, ids = some scope → id ∈ scope) ∧ matchesMetadata parts.metadata filter = true := by
  unfold admitted
  rw [mem_toFinset, mem_map]
  constructor
  · rintro ⟨⟨key, parts⟩, member, rfl⟩
    obtain ⟨inside, kept⟩ := mem_filter.mp member
    rw [Bool.and_eq_true] at kept
    refine ⟨parts, (Table.mem_toList documents key parts).mp inside, ?_, kept.2⟩
    rintro scope rfl
    simpa using kept.1
  · rintro ⟨parts, found, inScope, matching⟩
    refine ⟨(id, parts), mem_filter.mpr ⟨(Table.mem_toList documents id parts).mpr found, ?_⟩, rfl⟩
    simp only [matching, Bool.and_true]
    cases ids with
    | none => rfl
    | some scope => simpa using inScope scope rfl

end ScanResults

section Eligibility

variable {R : Type}

/-- The documents a recall is about: their status by the rebuilt links is one the history mode returns, and they match
the subject, the entities and the filter. -/
def eligible (documents : Documents) (revision : Nat) (options : RecallOptions R) (history : HistoryMode) (now : Millis) :
    Finset String :=
  ((documents.toList.filter fun entry =>
    (evaluate entry.2.stamp ((Index.rebuild documents revision).edges entry.1) now options.knownAt).any history.keeps &&
      options.aboutSubject entry.2.stamp && options.mentions entry.2.stamp &&
      matchesMetadata entry.2.metadata options.filter).map Prod.fst).toFinset

theorem mem_eligible (documents : Documents) (revision : Nat) (options : RecallOptions R) (history : HistoryMode)
    (now : Millis) (id : String) :
    id ∈ eligible documents revision options history now ↔ ∃ parts, documents[id]? = some parts ∧
      (evaluate parts.stamp ((Index.rebuild documents revision).edges id) now options.knownAt).any history.keeps = true ∧
      options.aboutSubject parts.stamp = true ∧ options.mentions parts.stamp = true ∧
      matchesMetadata parts.metadata options.filter = true := by
  unfold eligible
  rw [mem_toFinset, mem_map]
  constructor
  · rintro ⟨⟨key, parts⟩, member, rfl⟩
    obtain ⟨inside, kept⟩ := mem_filter.mp member
    simp only [Bool.and_eq_true] at kept
    exact ⟨parts, (Table.mem_toList documents key parts).mp inside, kept.1.1.1, kept.1.1.2, kept.1.2, kept.2⟩
  · rintro ⟨parts, found, status, subject, entities, matching⟩
    refine ⟨(id, parts), mem_filter.mpr ⟨(Table.mem_toList documents id parts).mpr found, ?_⟩, rfl⟩
    simp [status, subject, entities, matching]

theorem evaluate_congr (same : ∀ edge, edge ∈ a ↔ edge ∈ b) (stamp : Option Stamp) (now : Millis)
    (knownAt : Option Millis) : evaluate stamp a now knownAt = evaluate stamp b now knownAt := by
  have any : a.any (·.holds now knownAt) = b.any (·.holds now knownAt) := by
    rw [Bool.eq_iff_iff, List.any_eq_true, List.any_eq_true]
    simp only [same]
  unfold evaluate
  rw [any]

theorem tracked_of_subject (own : stamp.subject = some subject) : stamp.tracked = true := by
  simp [Stamp.tracked, own]

theorem tracked_of_entity (own : entity ∈ stamp.entities) : stamp.tracked = true := by
  have filled : stamp.entities.isEmpty = false := isEmpty_eq_false_iff_exists_mem.mpr ⟨entity, own⟩
  simp [Stamp.tracked, filled]

theorem tracked_of_windowed (windowed : stamp.windowed = true) : stamp.tracked = true := by
  simp [Stamp.tracked, windowed]

theorem trackedStamp_of {parts : DocumentParts} (found : documents[id]? = some parts)
    (own : parts.stamp = some stamp) (tracked : stamp.tracked = true) : trackedStamp documents id = some stamp :=
  Index.trackedStamp_eq_some.mpr ⟨⟨parts, found, own⟩, tracked⟩

namespace Index

variable {index : Index} {documents : Documents}

theorem Mirrors.mem_subjectIds (mirrors : index.Mirrors documents) (subject id : String) :
    id ∈ index.subjectIds subject ↔
      ∃ parts, documents[id]? = some parts ∧ parts.stamp.bind (·.subject) = some subject := by
  unfold subjectIds
  rw [mem_map]
  constructor
  · rintro ⟨entry, member, rfl⟩
    obtain ⟨stamp, tracked, own, -⟩ := (mirrors.group subject entry).mp member
    obtain ⟨⟨parts, found, stamped⟩, -⟩ := trackedStamp_eq_some.mp tracked
    exact ⟨parts, found, by simp [stamped, own]⟩
  · rintro ⟨parts, found, own⟩
    obtain ⟨stamp, stamped, subject'⟩ := Option.bind_eq_some_iff.mp own
    exact ⟨⟨id, stamp.effectiveFrom, stamp.ingest⟩, (mirrors.group subject _).mpr
      ⟨stamp, trackedStamp_of found stamped (tracked_of_subject subject'), subject', rfl⟩, rfl⟩

theorem Mirrors.mem_entityIds (mirrors : index.Mirrors documents) (entity id : String) :
    id ∈ index.entityIds entity ↔
      ∃ parts, documents[id]? = some parts ∧ ∃ stamp, parts.stamp = some stamp ∧ entity ∈ stamp.entities := by
  rw [mirrors.entities]
  constructor
  · rintro ⟨stamp, tracked, own⟩
    obtain ⟨⟨parts, found, stamped⟩, -⟩ := trackedStamp_eq_some.mp tracked
    exact ⟨parts, found, stamp, stamped, own⟩
  · rintro ⟨parts, found, stamp, stamped, own⟩
    exact ⟨stamp, trackedStamp_of found stamped (tracked_of_entity own), own⟩

theorem Mirrors.current_of_unconstrained (mirrors : index.Mirrors documents) (free : index.constrained = false)
    (found : documents[id]? = some parts) (now : Millis) :
    evaluate parts.stamp (index.edges id) now none = some .current := by
  unfold constrained at free
  rw [Bool.or_eq_false_iff] at free
  have noLinks : index.edges id = [] := by
    have empty : index.supersededBy = ∅ := by
      have isEmpty : index.supersededBy.isEmpty = true := by simpa using free.2
      exact Std.ExtTreeMap.isEmpty_iff.mp isEmpty
    simp [edges, empty]
  have noWindow : ∀ stamp, parts.stamp = some stamp → stamp.windowed = false := by
    intro stamp stamped
    by_contra windowed
    rw [Bool.not_eq_false] at windowed
    have member : id ∈ windowedIds documents :=
      (mem_windowedIds documents id).mpr ⟨stamp, trackedStamp_of found stamped (tracked_of_windowed windowed), windowed⟩
    have positive := Finset.card_pos.mpr ⟨id, member⟩
    rw [← mirrors.windowed] at positive
    simp [positive] at free
  unfold evaluate
  rw [noLinks]
  cases stamped : parts.stamp with
  | none => simp [Stamp.unknownAt]
  | some stamp =>
    have open' := noWindow stamp stamped
    unfold Stamp.windowed at open'
    rw [Bool.or_eq_false_iff, isSome_eq_false_iff, isSome_eq_false_iff, isNone_iff_eq_none,
      isNone_iff_eq_none] at open'
    simp [Stamp.unknownAt, open'.1, open'.2]

end Index

end Eligibility

section Allowed

variable {R S : Type} {engine : Engine R S} {store : Store} {options : RecallOptions R} {history : HistoryMode}

def allowed (engine : Engine R S) (store : Store) (options : RecallOptions R) (history : HistoryMode) (now : Millis) :
    Finset String :=
  let ids := restrict engine store options history
  if ids == some [] then ∅
  else if history == .historical && !needsStatus store.index options then ∅
  else if temporal store.index options history then
    admitted store.documents (some (eligibleIds engine store options history now ids)) options.filter
  else admitted store.documents ids options.filter

theorem aboutSubject_mentions_of_unscoped (free : options.scoped = false) (stamp : Option Stamp) :
    options.aboutSubject stamp = true ∧ options.mentions stamp = true := by
  unfold RecallOptions.scoped at free
  rw [Bool.or_eq_false_iff, isSome_eq_false_iff, isSome_eq_false_iff, isNone_iff_eq_none,
    isNone_iff_eq_none] at free
  simp [RecallOptions.aboutSubject, RecallOptions.mentions, free.1, free.2]

theorem restriction_spec {documents : Documents} (mirrors : index.Mirrors documents)
    {parts : DocumentParts} (found : documents[id]? = some parts) :
    (∀ scope, restriction index options = some scope → id ∈ scope) ↔
      options.aboutSubject parts.stamp = true ∧ options.mentions parts.stamp = true := by
  have subjects (subject : String) : id ∈ orderedIds (index.subjectIds (trim subject)) ↔
      parts.stamp.bind (·.subject) = some (trim subject) := by
    rw [mem_orderedIds, mirrors.mem_subjectIds]
    simp [found]
  have unions (entities : List String) : id ∈ orderedIds (entities.flatMap fun entity => index.entityIds (trim entity)) ↔
      (parts.stamp.any fun stamp => entities.any fun entity => stamp.entities.contains (trim entity)) = true := by
    rw [mem_orderedIds, mem_flatMap]
    simp only [mirrors.mem_entityIds, found, Option.some.injEq, exists_eq_left']
    cases parts.stamp with
    | none => simp
    | some stamp => simp
  unfold restriction RecallOptions.aboutSubject RecallOptions.mentions
  cases options.entities with
  | none =>
    cases options.subject with
    | none => simp
    | some subject => simp [subjects]
  | some entities =>
    cases options.subject with
    | none => simpa using unions entities
    | some subject =>
      simp only [map_some, Option.some.injEq, forall_eq', mem_filter, contains_iff_mem, subjects, unions,
        Option.all_some, beq_iff_eq]

section

variable (mirrors : store.index.Mirrors store.documents)
include mirrors

theorem restrict_spec
    (found : store.documents[id]? = some parts) (matching : matchesMetadata parts.metadata options.filter = true) :
    (∀ scope, restrict engine store options history = some scope → id ∈ scope) ↔
      options.aboutSubject parts.stamp = true ∧ options.mentions parts.stamp = true := by
  unfold restrict
  split
  · simp only [Option.some.injEq, forall_eq', mem_scanDocuments, found, exists_eq_left', matching, reduceCtorEq,
      false_implies, implies_true, true_and, Bool.or_eq_true, Bool.not_eq_true', Bool.and_eq_true]
    constructor
    · rintro (free | both)
      · exact aboutSubject_mentions_of_unscoped free parts.stamp
      · exact both
    · exact .inr
  · exact restriction_spec mirrors found

theorem edges_rebuild (id : String) (edge : Edge) :
    edge ∈ store.index.edges id ↔ edge ∈ (Index.rebuild store.documents store.revision).edges id :=
  (mirrors.same (Index.rebuild_mirrors store.documents store.revision)).edges id edge

theorem current_of_needless
    (needless : needsStatus store.index options = false) (found : store.documents[id]? = some parts)
    (now : Millis) :
    evaluate parts.stamp ((Index.rebuild store.documents store.revision).edges id) now options.knownAt =
      some .current := by
  unfold needsStatus at needless
  rw [Bool.or_eq_false_iff, isSome_eq_false_iff, isNone_iff_eq_none] at needless
  rw [← evaluate_congr (edges_rebuild mirrors id), needless.2]
  exact mirrors.current_of_unconstrained needless.1 found now

end

theorem keeps_all_of_known (stamp : Option Stamp) (edges : List Edge) (now : Millis) :
    (evaluate stamp edges now none).any HistoryMode.all.keeps = true := by
  have present : ∃ status, evaluate stamp edges now none = some status := by
    unfold evaluate Stamp.unknownAt
    repeat' split
    all_goals first | exact ⟨_, rfl⟩ | contradiction
  obtain ⟨status, own⟩ := present
  rw [own]
  rfl

theorem keeps_of_not_temporal (mirrors : store.index.Mirrors store.documents)
    (timeless : temporal store.index options history = false)
    (shown : (history == .historical && !needsStatus store.index options) = false)
    (found : store.documents[id]? = some parts) (now : Millis) :
    (evaluate parts.stamp ((Index.rebuild store.documents store.revision).edges id) now options.knownAt).any
      history.keeps = true := by
  cases needed : needsStatus store.index options with
  | false =>
    rw [current_of_needless mirrors needed found now]
    cases history with
    | current => rfl
    | all => rfl
    | historical => simp [needed] at shown
  | true =>
    unfold temporal at timeless
    rw [needed, Bool.true_and, Bool.or_eq_false_iff, isSome_eq_false_iff, isNone_iff_eq_none] at timeless
    have all : history = .all := by simpa using timeless.1
    rw [all, timeless.2]
    exact keeps_all_of_known _ _ now

/-- The unconstrained shortcut, the postings and the metadata scan all leave the eligible documents. -/
theorem allowed_eq_eligible (mirrors : store.index.Mirrors store.documents) (now : Millis) :
    allowed engine store options history now = eligible store.documents store.revision options history now := by
  unfold allowed
  ext id
  rw [mem_eligible]
  by_cases none : (restrict engine store options history == some []) = true
  · -- an empty restriction excludes every document that matches the filter
    simp only [none, if_true]
    constructor
    · intro member
      exact absurd member (Finset.notMem_empty id)
    · rintro ⟨parts, found, -, subject, entities, matching⟩
      have inside := (restrict_spec mirrors found matching).mpr ⟨subject, entities⟩ [] (beq_iff_eq.mp none)
      exact absurd inside not_mem_nil
  · simp only [none, if_false, Bool.false_eq_true]
    by_cases shown : (history == .historical && !needsStatus store.index options) = true
    · simp only [shown, if_true]
      constructor
      · intro member
        exact absurd member (Finset.notMem_empty id)
      · rintro ⟨parts, found, kept, -⟩
        rw [Bool.and_eq_true, Bool.not_eq_true', beq_iff_eq] at shown
        rw [current_of_needless mirrors shown.2 found now, shown.1] at kept
        simp [HistoryMode.keeps] at kept
    · simp only [shown, if_false, Bool.false_eq_true]
      by_cases timed : temporal store.index options history = true
      · simp only [timed, if_true, mem_admitted, Option.some.injEq, forall_eq', eligibleIds, mem_scanDocuments]
        constructor
        · rintro ⟨parts, found, ⟨other, own, inScope, -, kept⟩, matching⟩
          rw [found, Option.some.injEq] at own
          subst own
          rw [evaluate_congr (edges_rebuild mirrors id)] at kept
          have inside : ∀ scope, restrict engine store options history = some scope → id ∈ scope := by
            intro scope chosen
            exact (mem_orderedIds scope id).mp (inScope _ (by rw [chosen]; rfl))
          obtain ⟨subject, entities⟩ := (restrict_spec mirrors found matching).mp inside
          exact ⟨parts, found, kept, subject, entities, matching⟩
        · rintro ⟨parts, found, kept, subject, entities, matching⟩
          refine ⟨parts, found, ⟨parts, found, ?_, by simp [matchesMetadata, filterEntries], ?_⟩, matching⟩
          · intro scope chosen
            obtain ⟨ids, own, rfl⟩ := Option.map_eq_some_iff.mp chosen
            rw [mem_orderedIds]
            exact (restrict_spec mirrors found matching).mpr ⟨subject, entities⟩ ids own
          · rw [evaluate_congr (edges_rebuild mirrors id)]
            exact kept
      · simp only [timed, if_false, Bool.false_eq_true, mem_admitted]
        constructor
        · rintro ⟨parts, found, inScope, matching⟩
          obtain ⟨subject, entities⟩ := (restrict_spec mirrors found matching).mp inScope
          refine ⟨parts, found, ?_, subject, entities, matching⟩
          exact keeps_of_not_temporal mirrors (by simpa using timed) (by simpa using shown) found now
        · rintro ⟨parts, found, -, subject, entities, matching⟩
          exact ⟨parts, found, (restrict_spec mirrors found matching).mpr ⟨subject, entities⟩, matching⟩

end Allowed

section Collect

variable {S : Type} [Mul S] [One S] [DecidableEq S]

def firstHits : List String → List (Hit S) → List (Hit S)
  | _, [] => []
  | seen, hit :: rest =>
    if hit.documentId ∈ seen then firstHits seen rest else hit :: firstHits (hit.documentId :: seen) rest

theorem collect_hits (settings : RecallSettings S) (now : Millis) (history : HistoryMode) (k : Nat)
    (items : List (Hit S × Option Stamp × FactStatus)) (kept : ∀ item ∈ items, history.keeps item.2.2 = true)
    (seen : List String) (ranked : List (Ranked S)) (short : ranked.length ≤ k) :
    (collect settings now history false false k items seen ranked).map (·.hit) =
      ranked.map (·.hit) ++ (firstHits seen (items.map (·.1))).take (k - ranked.length) := by
  induction items generalizing seen ranked with
  | nil => simp [collect, firstHits]
  | cons item items ih =>
    obtain ⟨hit, stamp, status⟩ := item
    have own := kept _ mem_cons_self
    have rest : ∀ item ∈ items, history.keeps item.2.2 = true := (forall_mem_cons.mp kept).2
    simp only [collect, Bool.not_false, Bool.true_and, decide_eq_true_eq]
    by_cases full : k ≤ ranked.length
    · rw [if_pos full, Nat.sub_eq_zero_of_le full]
      simp
    · rw [if_neg full]
      by_cases again : hit.documentId ∈ seen
      · rw [if_pos again, ih rest seen ranked short]
        simp [firstHits, again]
      · rw [if_neg again, if_pos own, ih rest _ _ (by simp; omega)]
        have room : k - ranked.length = (k - (ranked.length + 1)) + 1 := by omega
        simp [firstHits, again, rank, room]

theorem evaluated_hits (mirrors : store.index.Mirrors store.documents) (hits : List (Hit S))
    (inside : ∀ hit ∈ hits, hit.documentId ∈ eligible store.documents store.revision options history now) :
    (evaluated store options now hits).map (·.1) = hits ∧
      ∀ item ∈ evaluated store options now hits, history.keeps item.2.2 = true := by
  induction hits with
  | nil => simp [evaluated]
  | cons hit hits ih =>
    obtain ⟨same, kept⟩ := ih (forall_mem_cons.mp inside).2
    obtain ⟨parts, found, status, -⟩ := (mem_eligible _ _ _ _ _ _).mp (inside hit mem_cons_self)
    rw [← evaluate_congr (edges_rebuild mirrors hit.documentId)] at status
    obtain ⟨own, evaluates, keeps⟩ := (Option.any_eq_true _ _).mp status
    have stamp : store.documents[hit.documentId]?.bind (·.stamp) = parts.stamp := by rw [found]; rfl
    have head : evaluated store options now (hit :: hits) = (hit, parts.stamp, own) :: evaluated store options now hits := by
      simp only [evaluated, filterMap_cons, stamp, evaluates, map_some]
    rw [head]
    refine ⟨by rw [map_cons, same], ?_⟩
    exact forall_mem_cons.mpr ⟨keeps, kept⟩

end Collect

section Recalled

variable {R S : Type} [Mul S] [One S] [DecidableEq S] {upTo : S → S → Bool} {engine : Engine R S}
  {settings : RecallSettings S} {store : Store} {options : RecallOptions R}

theorem searchRanked_hits (mirrors : store.index.Mirrors store.documents)
    (bounded : ∀ query ranking k documents, ∀ hit ∈ engine.hits query ranking k documents, hit.documentId ∈ documents)
    (inOrder : reorders settings store.index options = false) (query : String) (history : HistoryMode) (k : Nat)
    (now : Millis) (ids : Option (List String))
    (atop : admitted store.documents ids options.filter = eligible store.documents store.revision options history now) :
    (searchRanked upTo engine settings store query options history k false now ids).map (·.hit) =
      (firstHits [] (engine.hits query options.ranking k
        (eligible store.documents store.revision options history now))).take k := by
  obtain ⟨same, kept⟩ := evaluated_hits mirrors _ (bounded query options.ranking k
    (eligible store.documents store.revision options history now))
  have collected := collect_hits settings now history k _ kept [] [] (Nat.zero_le k)
  simp only [searchRanked, inOrder, atop, fetchCount, Bool.or_false, Bool.false_eq_true, if_false, map_take,
    collected, same, map_nil, nil_append, length_nil, Nat.sub_zero, take_take, Nat.min_self]

variable (upTo) in
theorem runOnce_hits (mirrors : store.index.Mirrors store.documents)
    (bounded : ∀ query ranking k documents, ∀ hit ∈ engine.hits query ranking k documents, hit.documentId ∈ documents)
    (inOrder : reorders settings store.index options = false) (query : String) (history : HistoryMode) (k : Nat) :
    ((runOnce upTo engine settings store query options history k false).1.getD []).map (·.hit) =
      (firstHits [] (engine.hits query options.ranking k
        (eligible store.documents store.revision options history (options.asOf.getD settings.now)))).take k := by
  have atop : allowed engine store options history (options.asOf.getD settings.now) =
      eligible store.documents store.revision options history (options.asOf.getD settings.now) :=
    allowed_eq_eligible mirrors _
  -- no hit comes from an empty set of documents
  have nothing (empty : eligible store.documents store.revision options history (options.asOf.getD settings.now) = ∅) :
      (firstHits [] (engine.hits query options.ranking k
        (eligible store.documents store.revision options history (options.asOf.getD settings.now)))).take k = [] := by
    have noHits : engine.hits query options.ranking k ∅ = [] := by
      rw [eq_nil_iff_forall_not_mem]
      intro hit member
      exact absurd (bounded _ _ _ _ hit member) (Finset.notMem_empty _)
    rw [empty, noHits]
    simp [firstHits]
  unfold allowed at atop
  unfold runOnce
  simp only [Bool.not_false, Bool.and_true]
  split
  · next blocked =>
    rw [if_pos blocked] at atop
    rw [nothing atop.symm]
    rfl
  · next open' =>
    rw [if_neg open'] at atop
    split
    · next hidden =>
      rw [if_pos hidden] at atop
      rw [nothing atop.symm]
      rfl
    · next shown =>
      rw [if_neg shown] at atop
      split
      · next timed =>
        rw [if_pos timed] at atop
        split
        · next drained =>
          rw [List.isEmpty_iff.mp drained] at atop
          have empty : admitted store.documents (some []) options.filter = ∅ := by
            ext id
            simp [mem_admitted]
          rw [nothing (atop.symm.trans empty)]
          rfl
        · exact searchRanked_hits mirrors bounded inOrder query history k _ _ atop
      · next timeless =>
        rw [if_neg timeless] at atop
        exact searchRanked_hits mirrors bounded inOrder query history k _ _ atop

/-- Where nothing reorders the hits, recall over a store whose index matches its revision returns document search's hits
over exactly the eligible documents, the first of each document, and each way of restricting the search leaves exactly
these documents. -/
theorem recall_hits_eligible (fresh : store.index.revision = some store.revision)
    (current : store.index.Same (Index.rebuild store.documents store.revision))
    (bounded : ∀ query ranking k documents, ∀ hit ∈ engine.hits query ranking k documents, hit.documentId ∈ documents)
    (inOrder : reorders settings store.index options = false) (query : String)
    (valid : engine.validate query options (options.k.getD settings.defaultK) = .ok ()) :
    (∃ ranked, Memory.recall upTo engine settings store query options = .ok ranked ∧
      ranked.map (·.hit) = (firstHits [] (engine.hits query options.ranking (options.k.getD settings.defaultK)
        (eligible store.documents store.revision options (options.history.getD settings.defaultHistory)
          (options.asOf.getD settings.now)))).take (options.k.getD settings.defaultK)) ∧
    ∀ history now, allowed engine store options history now =
      eligible store.documents store.revision options history now := by
  have mirrors := (Index.mirrors_iff store.index store.documents store.revision).mpr current
  refine ⟨?_, fun history now => allowed_eq_eligible mirrors now⟩
  have settled : store.ensureFresh = store := if_pos fresh
  have consistent : (runOnce upTo engine settings store query options (options.history.getD settings.defaultHistory)
      (options.k.getD settings.defaultK) false).2 = true := by
    have indexed : (store.index.revision == some store.revision) = true := beq_iff_eq.mpr fresh
    unfold runOnce
    simp only [indexed]
    repeat' split
    all_goals rfl
  refine ⟨_, ?_, runOnce_hits upTo mirrors bounded inOrder query _ _⟩
  simp only [Memory.recall, valid, settled, SNAPSHOT_ATTEMPTS, run, bind, Except.bind]
  generalize runOnce upTo engine settings store query options (options.history.getD settings.defaultHistory)
    (options.k.getD settings.defaultK) false = result at consistent
  obtain ⟨found, ok⟩ := result
  simp only at consistent
  subst consistent
  rfl

end Recalled

namespace Sample

/-- A fact of a subject, and one that supersedes it from time 20. -/
def facts : Documents :=
  ((∅ : Documents).insert "old" ⟨some "lives in Rome", none, .object ∅, none,
      some ⟨10, none, none, none, some "city", [], [], [], none⟩⟩).insert "new"
    ⟨some "lives in Oslo", none, .object ∅, none, some ⟨20, none, none, none, some "city", ["old"], [], [], none⟩⟩

def store : Store :=
  ⟨facts, 2, Index.rebuild facts 2⟩

/-- A search that returns every document it may, by id. -/
def engine : Engine Unit Nat :=
  ⟨fun _ _ _ => .ok (), fun _ => none, fun _ _ k documents => ((documents.sort (· ≤ ·)).take k).map fun id => ⟨id, 1⟩⟩

def settings : RecallSettings Nat :=
  ⟨10, .current, 1, ⟨true, fun _ => 1⟩, 25⟩

def options : RecallOptions Unit :=
  ⟨none, none, none, none, some "city", none, none, none, ()⟩

end Sample

theorem recall_hits_city :
    ∃ ranked, Memory.recall (fun a b => decide (a ≤ b)) Sample.engine Sample.settings Sample.store "where" Sample.options =
      .ok ranked ∧ ranked.map (·.hit) = (firstHits [] (Sample.engine.hits "where" () 10
        (eligible Sample.facts 2 Sample.options .current 25))).take 10 := by
  refine (recall_hits_eligible rfl ⟨rfl, fun _ _ => Iff.rfl, fun _ _ => Iff.rfl, fun _ _ => Iff.rfl, fun _ _ => Iff.rfl⟩
    ?_ ?_ "where" rfl).1
  · intro query ranking k documents hit member
    obtain ⟨id, inside, rfl⟩ := mem_map.mp member
    exact (Finset.mem_sort _).mp (mem_of_mem_take inside)
  · simp [reorders, Sample.settings]

end Warm.Memory
