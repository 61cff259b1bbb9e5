import Warm.EngineReload

/-! Everything a live state holds passes the checks of the mutation that would store it again. -/
namespace Warm.Engine

open List hiding after count length

open Binary Audit
open RelationStore (connects snapshot)
open Function (update update_of_ne update_self)

variable {id : String} {config : Config} {view : View} {meaning : MeaningView}

def SameEdge (relation other : Relation) : Prop :=
  connects relation.sourceId relation.relationType relation.targetId other = true

theorem sameEdge_iff (relation other : Relation) :
    SameEdge relation other ↔ other.sourceId = relation.sourceId ∧ other.relationType = relation.relationType ∧
      other.targetId = relation.targetId := by
  simp [SameEdge, connects, and_assoc]

theorem not_sameEdge_of_mem_eraseP {relations : List Relation}
    (edges : relations.Pairwise fun r other => ¬SameEdge r other)
    (member : other ∈ relations.eraseP (connects relation.sourceId relation.relationType relation.targetId)) :
    ¬SameEdge relation other := by
  induction relations with
  | nil => contradiction
  | cons first relations ih =>
    rw [pairwise_cons] at edges
    by_cases own : SameEdge relation first
    · rw [eraseP_cons_of_pos own] at member
      intro same
      rw [sameEdge_iff] at own same
      exact edges.1 other member ((sameEdge_iff first other).mpr
        ⟨same.1.trans own.1.symm, same.2.1.trans own.2.1.symm, same.2.2.trans own.2.2.symm⟩)
    · rw [eraseP_cons_of_neg own] at member
      rcases mem_cons.mp member with rfl | later
      · exact own
      · exact ih edges.2 later

structure MeaningView.Valid (config : Config) (meaning : MeaningView) : Prop where
  atoms : ∀ id vector, meaning.atoms id = some vector →
    validateId id = true ∧ vector.valid config.dimensions = true
  triples : ∀ triple ∈ meaning.triples, validateMutation config (.storedTriple triple) = .ok () ∧ triple.deleted = false
  rules : ∀ rule ∈ meaning.rules, validateMutation config (.rule rule) = .ok ()
  named : (meaning.rules.map CompositionRule.name).Nodup

structure View.Valid (config : Config) (view : View) : Prop where
  enabled : view.meaning.isSome = config.meaningEnabled
  vectors : ∀ id vector, view.vectors id = some vector →
    validateId id = true ∧ vector.valid config.dimensions = true ∧ isChunk id = false
  meaning : ∀ meaning, view.meaning = some meaning → meaning.Valid config
  composites : ∀ meaning, view.meaning = some meaning → ∀ id vector, meaning.composites id = some vector →
    view.vectors id = some vector
  derived : ∀ id children, view.derived id = some children → validateMutation config (.derived id children) = .ok ()
  relations : ∀ relation ∈ view.relations, validateMutation config (.relation relation) = .ok ()
  edges : view.relations.Pairwise fun relation other => ¬SameEdge relation other
  types : ∀ name relationType, view.types name = some relationType →
    relationType.name = name ∧ validateMutation config (.relationType relationType) = .ok ()
  documents : ∀ id document, view.documents id = some document →
    document.id = id ∧ validateMutation config (.document document) = .ok () ∧ Named document
  audits : ∀ intent ∈ view.auditPending, validateMutation config (.auditPending intent) = .ok ()

theorem ensure_ok : ensure condition error = .ok () ↔ condition = true := by
  cases condition <;> simp [ensure]

theorem update_eq_some [DecidableEq κ] {k a : κ} {v w : α} (found : update f k (some v) a = some w) :
    a = k ∧ w = v ∨ a ≠ k ∧ f a = some w := by
  by_cases same : a = k
  · subst same
    rw [update_self] at found
    exact .inl ⟨rfl, (Option.some.inj found).symm⟩
  · rw [update_of_ne same] at found
    exact .inr ⟨same, found⟩

theorem update_none_eq_some [DecidableEq κ] {k a : κ} {w : α} (found : update f k none a = some w) :
    a ≠ k ∧ f a = some w := by
  by_cases same : a = k
  · subst same
    rw [update_self] at found
    contradiction
  · rw [update_of_ne same] at found
    exact ⟨same, found⟩

section

variable (valid : meaning.Valid config)
include valid

theorem MeaningView.Valid.forget (ids : List String) : (meaning.forget ids).Valid config where
  atoms id vector found := by
    rw [MeaningView.forget] at found
    dsimp only at found
    split at found
    · contradiction
    · exact valid.atoms id vector found
  triples triple member := valid.triples triple (mem_of_mem_filter member)
  rules := valid.rules
  named := valid.named

theorem MeaningView.Valid.put {vector : VectorRecord} (named : validateId id = true)
    (shaped : vector.valid config.dimensions = true) :
    MeaningView.Valid config { meaning with atoms := update meaning.atoms id (some vector) } where
  atoms a v found := by
    rcases update_eq_some found with ⟨rfl, rfl⟩ | ⟨_, old⟩
    · exact ⟨named, shaped⟩
    · exact valid.atoms a v old
  __ := valid

theorem MeaningView.Valid.recompose (composites : String → Option VectorRecord) :
    MeaningView.Valid config { meaning with composites } := { valid with }

theorem MeaningView.Valid.addRule
    (checked : validateMutation config (.rule rule) = .ok ()) : (meaning.addRule rule).Valid config where
  __ := valid
  rules other member := by
    change other ∈ putRule meaning.rules rule at member
    rw [putRule] at member
    split at member
    · rcases mem_append.mp member with old | new
      · exact valid.rules other old
      · rw [mem_singleton.mp new]
        exact checked
    · rcases mem_or_eq_of_mem_set member with old | rfl
      · exact valid.rules other old
      · exact checked
  named := by
    change ((putRule meaning.rules rule).map CompositionRule.name).Nodup
    rw [names_putRule]
    split
    · exact valid.named
    next fresh => exact nodup_append.mpr ⟨valid.named, nodup_singleton _, by
        intro a old b new same
        rw [mem_singleton.mp new] at same
        exact fresh (same ▸ old)⟩

end

theorem MeaningView.Valid.learn {atoms : String → Option VectorRecord} (encoder : Encoder config.dimensions)
    (valid : ∀ id vector, atoms id = some vector → validateId id = true ∧ vector.valid config.dimensions = true)
    (named : validateId name = true) :
    (MeaningView.atom encoder atoms name).valid config.dimensions = true ∧
      ∀ id vector, MeaningView.learn encoder atoms name id = some vector →
        validateId id = true ∧ vector.valid config.dimensions = true := by
  have shaped : (MeaningView.atom encoder atoms name).valid config.dimensions = true := by
    rw [MeaningView.atom]
    cases found : atoms name with
    | none => exact encoder.encodeText_valid name
    | some vector => exact (valid name vector found).2
  refine ⟨shaped, ?_⟩
  intro id vector found
  rcases update_eq_some found with ⟨rfl, rfl⟩ | ⟨_, old⟩
  · exact ⟨named, shaped⟩
  · exact valid id vector old

theorem MeaningView.Valid.triplet (valid : meaning.Valid config) (encoder : Encoder config.dimensions)
    {subject relation object : String}
    (checked : validateMutation config (.triplet id subject relation object) = .ok ()) :
    (meaning.triplet encoder id subject relation object).1.Valid config ∧
      (meaning.triplet encoder id subject relation object).2.valid config.dimensions = true := by
  rw [validateMutation, ensure_bind_ok, ensure_ok] at checked
  obtain ⟨ids, enabled⟩ := checked
  have each := ids
  simp only [all_cons, all_nil, Bool.and_true, Bool.and_eq_true] at each
  obtain ⟨own, first, second, third⟩ := each
  obtain ⟨s, known⟩ := learn encoder valid.atoms first
  obtain ⟨r, known⟩ := learn encoder known second
  obtain ⟨o, known⟩ := learn encoder known third
  refine ⟨⟨known, ?_, valid.rules, valid.named⟩, encoder.composeTriple_valid _ _ _ s r o⟩
  intro triple member
  rcases mem_append.mp member with old | new
  · exact valid.triples triple (mem_of_mem_filter old)
  · rw [mem_singleton.mp new]
    refine ⟨?_, rfl⟩
    rw [validateMutation, ensure_bind_ok, ensure_ok]
    refine ⟨enabled, ?_⟩
    simp only [all_cons, all_nil, Bool.and_true, Bool.and_eq_true]
    exact ⟨first, second, third, own⟩

namespace View.Valid

section

variable (valid : view.Valid config)
include valid

theorem remean (vectors : String → Option VectorRecord) (change : MeaningView → MeaningView)
    (shaped : ∀ id vector, vectors id = some vector →
      validateId id = true ∧ vector.valid config.dimensions = true ∧ isChunk id = false)
    (meaning : ∀ meaning, view.meaning = some meaning → (change meaning).Valid config)
    (composites : ∀ meaning, view.meaning = some meaning → ∀ id vector, (change meaning).composites id = some vector →
      vectors id = some vector) :
    View.Valid config { view with vectors, meaning := view.meaning.map change } where
  enabled := by rw [Option.isSome_map]; exact valid.enabled
  vectors := shaped
  meaning after changed := by
    obtain ⟨before, found, rfl⟩ := Option.map_eq_some_iff.mp changed
    exact meaning before found
  composites after changed := by
    obtain ⟨before, found, rfl⟩ := Option.map_eq_some_iff.mp changed
    exact composites before found
  __ := valid

theorem withMeaning
    (meaning : ∀ meaning, view.meaning = some meaning → (change meaning).Valid config)
    (composites : ∀ meaning, view.meaning = some meaning → ∀ id vector, (change meaning).composites id = some vector → meaning.composites id = some vector) :
    (view.withMeaning change).Valid config :=
  valid.remean view.vectors change valid.vectors meaning fun before found id vector own =>
    valid.composites before found id vector (composites before found id vector own)

theorem rederive {derived : String → Option (List String)}
    (checked : ∀ id children, derived id = some children → validateMutation config (.derived id children) = .ok ()) :
    View.Valid config { view with derived } :=
  { valid with derived := checked }

theorem clear (id : String) : (view.clear id).Valid config := by
  refine rederive (remean valid (fun a => if a ∈ (view.derived id).getD [] then none else view.vectors a)
    (·.forget ((view.derived id).getD [])) ?_ ?_ ?_) ?_
  · intro a vector found
    split at found
    · contradiction
    · exact valid.vectors a vector found
  · intro meaning found
    exact (valid.meaning meaning found).forget _
  · intro meaning found a vector composed
    rw [MeaningView.forget] at composed
    dsimp only at composed ⊢
    split at composed
    · contradiction
    next kept =>
      rw [if_neg kept]
      exact valid.composites meaning found a vector composed
  · intro a children found
    exact valid.derived a children (update_none_eq_some found).2

theorem put {vector : VectorRecord} (named : validateId id = true)
    (shaped : vector.valid config.dimensions = true) (plain : isChunk id = false) (change : MeaningView → MeaningView)
    (meaning : ∀ meaning, view.meaning = some meaning → (change meaning).Valid config)
    (composites : ∀ meaning, view.meaning = some meaning → ∀ a v, (change meaning).composites a = some v →
      a = id ∧ v = vector ∨ a ≠ id ∧ meaning.composites a = some v) :
    View.Valid config
      { view with vectors := update view.vectors id (some vector), meaning := view.meaning.map change } := by
  refine valid.remean _ change ?_ meaning ?_
  · intro a v found
    rcases update_eq_some found with ⟨rfl, rfl⟩ | ⟨_, old⟩
    · exact ⟨named, shaped, plain⟩
    · exact valid.vectors a v old
  · intro before found a v composed
    rcases composites before found a v composed with ⟨rfl, rfl⟩ | ⟨other, old⟩
    · rw [update_self]
    · rw [update_of_ne other]
      exact valid.composites before found a v old

theorem rewrite {documents : String → Option StoredDocument}
    (checked : ∀ id document, documents id = some document →
      document.id = id ∧ validateMutation config (.document document) = .ok () ∧ Named document) :
    View.Valid config { view with documents } :=
  { valid with documents := checked }

theorem relate {relations : List Relation}
    (checked : ∀ relation ∈ relations, validateMutation config (.relation relation) = .ok ())
    (edges : relations.Pairwise fun relation other => ¬SameEdge relation other) :
    View.Valid config { view with relations } :=
  { valid with relations := checked, edges }

theorem audit {auditPending : List AuditIntent}
    (checked : ∀ intent ∈ auditPending, validateMutation config (.auditPending intent) = .ok ()) :
    View.Valid config { view with auditPending } :=
  { valid with audits := checked }

end

end View.Valid

theorem validate_encodeChunk (checked : validateChunk config count chunk = .ok ())
    (shaped : vector.valid config.dimensions = true) :
    validateChunk config count (encodeChunk chunk vector) = .ok () := by
  rw [encodeChunk]
  split
  next pending =>
    have bound : (VectorState.pending == VectorState.lexical) = (VectorState.encoded == VectorState.lexical) := rfl
    rw [validateChunk, ensure_bind_ok] at checked ⊢
    refine ⟨checked.1, ?_⟩
    have rest := checked.2
    rw [pending, bound] at rest
    dsimp only
    split at rest
    · contradiction
    next limit fits =>
      rw [ensure_bind_ok] at rest ⊢
      refine ⟨?_, rest.2⟩
      simp only [Bool.and_eq_true] at rest ⊢
      obtain ⟨⟨⟨⟨⟨_, order⟩, bound⟩, length⟩, text⟩, _⟩ := rest
      exact ⟨⟨⟨⟨shaped, order⟩, bound⟩, length⟩, text⟩
  next => exact checked

theorem validate_encodedDocument (checked : validateMutation config (.document document) = .ok ())
    (length : document.chunks.length = vectors.length) (shaped : vectors.all (·.valid config.dimensions) = true) :
    validateMutation config (.document (encodedDocument document vectors)) = .ok () := by
  rw [validateMutation, ensure_bind_ok, ensure_bind_ok, forM_ok_iff] at checked ⊢
  have size := length_encodedDocument length
  have empty : (encodedDocument document vectors).chunks.isEmpty = document.chunks.isEmpty := by
    rw [Bool.eq_iff_iff, isEmpty_iff_length_eq_zero, isEmpty_iff_length_eq_zero, size]
  rw [size, empty]
  refine ⟨checked.1, checked.2.1, ?_⟩
  intro chunk member
  obtain ⟨i, found⟩ := getElem?_of_mem member
  rw [getElem?_encodedDocument, Option.bind_eq_some_iff] at found
  obtain ⟨old, inside, taken⟩ := found
  obtain ⟨vector, given, rfl⟩ := Option.map_eq_some_iff.mp taken
  exact validate_encodeChunk (checked.2.2 old (mem_of_getElem? inside))
    (all_eq_true.mp shaped vector (mem_of_getElem? given))

namespace View.Valid

theorem apply (valid : view.Valid config) (encoder : Encoder config.dimensions) {mutation : Mutation}
    (checked : validateMutation config mutation = .ok ()) (issued : Issued mutation) :
    (view.apply encoder mutation).Valid config := by
  cases mutation with
  | auditPending intent =>
    refine valid.audit fun other member => ?_
    rcases mem_append.mp member with old | new
    · exact valid.audits other old
    · rw [mem_singleton.mp new]
      exact checked
  | auditAcknowledged id =>
    rw [View.apply]
    split
    · exact valid.audit fun other member => valid.audits other (mem_of_mem_tail member)
    · exact valid
  | vector id vector =>
    have shape := checked
    rw [validateMutation, ensure_bind_ok, ensure_ok] at shape
    refine (valid.clear id).put shape.1 shape.2 issued
      (fun meaning => { meaning.forget [id] with atoms := update meaning.atoms id (some vector) }) ?_ ?_
    · intro meaning found
      have put := ((valid.clear id).meaning meaning found).put shape.1 shape.2
      have gone := ((valid.clear id).meaning meaning found).forget [id]
      exact ⟨put.atoms, gone.triples, gone.rules, gone.named⟩
    · intro meaning found a v composed
      change (if a ∈ [id] then none else meaning.composites a) = some v at composed
      split at composed
      · contradiction
      next other => exact .inr ⟨fun same => other (mem_singleton.mpr same), composed⟩
  | atom id vector =>
    have shape := checked
    rw [validateMutation, ensure_bind_ok, ensure_ok] at shape
    exact valid.withMeaning (fun meaning found => (valid.meaning meaning found).put shape.1 shape.2)
      fun meaning found a v composed => composed
  | composite id vector =>
    have shape := checked
    rw [validateMutation, ensure_bind_ok, ensure_ok] at shape
    exact valid.put shape.1 shape.2 issued
      (fun meaning => { meaning with composites := update meaning.composites id (some vector) })
      (fun meaning found => (valid.meaning meaning found).recompose _) fun meaning found a v composed => update_eq_some composed
  | deleteAtom id =>
    refine valid.withMeaning ?_ fun meaning found a v composed => composed
    intro meaning found
    have kept := valid.meaning meaning found
    exact ⟨fun a v atom => kept.atoms a v (update_none_eq_some atom).2, kept.triples, kept.rules, kept.named⟩
  | deleteComposite id =>
    exact valid.withMeaning (fun meaning found => (valid.meaning meaning found).recompose _)
      fun meaning found a v composed => (update_none_eq_some composed).2
  | refreshMeaningIndices => exact valid
  | storedTriple record =>
    refine valid.withMeaning ?_ fun meaning found a v composed => composed
    intro meaning found
    have kept := valid.meaning meaning found
    refine ⟨kept.atoms, ?_, kept.rules, kept.named⟩
    exact forall_mem_append.mpr ⟨kept.triples, forall_mem_singleton.mpr ⟨checked, rfl⟩⟩
  | document document =>
    refine valid.rewrite fun a d found => ?_
    rcases update_eq_some found with ⟨rfl, rfl⟩ | ⟨_, old⟩
    · exact ⟨rfl, checked, issued⟩
    · exact valid.documents a d old
  | encodeDocument id version fingerprint vectors =>
    have shape := checked
    rw [validateMutation, ensure_bind_ok, ensure_ok] at shape
    simp only [Bool.and_eq_true] at shape
    rw [View.apply]
    split
    next => exact valid
    next document stored =>
      split
      next fits =>
        obtain ⟨own, whole, named⟩ := valid.documents id document stored
        refine valid.rewrite fun a d found => ?_
        rcases update_eq_some found with ⟨rfl, rfl⟩ | ⟨_, old⟩
        · exact ⟨own, validate_encodedDocument whole (length_of_applicable fits) shape.2.2, named.encodedDocument vectors⟩
        · exact valid.documents a d old
      next => exact valid
  | derived id children =>
    refine valid.rederive fun a c found => ?_
    rcases update_eq_some found with ⟨rfl, rfl⟩ | ⟨_, old⟩
    · exact checked
    · exact valid.derived a c old
  | deleteDocument id =>
    exact valid.rewrite fun a d found => valid.documents a d (update_none_eq_some found).2
  | delete id =>
    refine (valid.clear id).remean _ (·.forget [id]) ?_ ?_ ?_
    · intro a v found
      exact (valid.clear id).vectors a v (update_none_eq_some found).2
    · intro meaning found
      exact ((valid.clear id).meaning meaning found).forget [id]
    · intro meaning found a v composed
      change (if a ∈ [id] then none else meaning.composites a) = some v at composed
      split at composed
      · contradiction
      next other =>
        rw [update_of_ne fun same => other (mem_singleton.mpr same)]
        exact (valid.clear id).composites meaning found a v composed
  | triplet id subject relation object =>
    have cleared := valid.clear id
    rw [View.apply]
    split
    next => exact cleared
    next meaning found =>
      obtain ⟨shaped, composed⟩ := (cleared.meaning meaning found).triplet encoder checked
      have named := checked
      rw [validateMutation, ensure_bind_ok] at named
      have own : validateId id = true := all_eq_true.mp named.1 id mem_cons_self
      have put := cleared.put own composed issued (fun meaning => (meaning.triplet encoder id subject relation object).1)
        (fun meaning found => ((cleared.meaning meaning found).triplet encoder checked).1) ?_
      · rw [found] at put
        exact put
      · intro other same a v composite
        rw [found, Option.some.injEq] at same
        subst same
        exact update_eq_some composite
  | relation r =>
    have kept : ∀ other ∈ view.relations.eraseP (connects r.sourceId r.relationType r.targetId),
        other ∈ view.relations := fun other member => mem_of_mem_eraseP member
    refine valid.relate ?_ ?_
    · exact forall_mem_append.mpr
        ⟨fun other old => valid.relations other (kept other old), forall_mem_singleton.mpr checked⟩
    · rw [pairwise_append]
      refine ⟨valid.edges.sublist eraseP_sublist, pairwise_singleton .., ?_⟩
      intro other old new member same
      rw [mem_singleton.mp member, sameEdge_iff] at same
      exact not_sameEdge_of_mem_eraseP valid.edges old
        ((sameEdge_iff r other).mpr ⟨same.1.symm, same.2.1.symm, same.2.2.symm⟩)
  | removeRelation source relation target =>
    exact valid.relate (fun other member => valid.relations other (mem_of_mem_eraseP member))
      (valid.edges.sublist eraseP_sublist)
  | relationType r =>
    refine { valid with types := ?_ }
    intro name relationType found
    rcases update_eq_some found with ⟨rfl, rfl⟩ | ⟨_, old⟩
    · exact ⟨rfl, checked⟩
    · exact valid.types name relationType old
  | rule rule =>
    exact valid.withMeaning (fun meaning found => (valid.meaning meaning found).addRule checked)
      fun meaning found a v composed => composed

theorem applyAll (valid : view.Valid config) (encoder : Encoder config.dimensions)
    (committed : Committed config mutations) : (mutations.foldl (View.apply encoder) view).Valid config := by
  induction mutations generalizing view with
  | nil => exact valid
  | cons mutation mutations ih =>
    obtain ⟨checked, issued⟩ := committed mutation mem_cons_self
    exact ih (valid.apply encoder checked issued) (forall_mem_cons.mp committed).2

end View.Valid

/-- The checkpoint's documents passed their check when they were committed. -/
def CheckedImage (config : Config) (checkpoint : Option ServingImage) : Prop :=
  ∀ image, checkpoint = some image → ∀ entry ∈ image.documents, validateMutation config (.document entry.1) = .ok ()

theorem valid_opened (named : NamedImage checkpoint) (checked : CheckedImage config checkpoint) :
    (opened config 0 checkpoint).view.Valid config := by
  have meaning (meaning : MeaningView) (found : (opened config 0 checkpoint).view.meaning = some meaning) :
      meaning = Meaning.empty.view := by
    simp only [opened, WarmCore.view] at found
    split at found
    · exact (Option.some.inj found).symm
    · contradiction
  refine
    { enabled := ?_
      vectors := ?_
      meaning := ?_
      composites := ?_
      derived := ?_
      relations := ?_
      edges := ?_
      types := ?_
      documents := ?_
      audits := ?_ }
  · simp only [opened, WarmCore.view]
    cases config.meaningEnabled <;> rfl
  · intro id vector found
    simp [opened, WarmCore.view] at found
  · intro after found
    rw [meaning after found]
    exact ⟨by simp [Meaning.view, Meaning.empty], by simp [Meaning.view, Meaning.empty, TripleStore.snapshot],
      by simp [Meaning.view, Meaning.empty, RuleStore.empty], nodup_nil⟩
  · intro after found id vector composed
    rw [meaning after found] at composed
    simp [Meaning.view, Meaning.empty] at composed
  · intro id children found
    simp [opened, WarmCore.view] at found
  · intro relation member
    simp [opened, WarmCore.view, RelationStore.empty, snapshot] at member
  · exact List.Pairwise.nil
  · intro name relationType found
    simp [opened, WarmCore.view, RelationStore.empty] at found
  · intro id document found
    cases checkpoint with
    | none => exact absurd ((DocumentStore.get_empty id).symm.trans found) (by simp)
    | some image =>
      obtain ⟨entry, inside, rfl⟩ := Option.map_eq_some_iff.mp found
      have member := mem_of_find?_eq_some inside
      have own := find?_some inside
      exact ⟨of_decide_eq_true own, checked image rfl entry member, named image rfl entry member⟩
  · intro intent member
    simp [opened, WarmCore.view] at member

end Warm.Engine
