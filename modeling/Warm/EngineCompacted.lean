import Warm.EngineCompaction

/-! A compacted generation describes the live state: its snapshot replays to the state it was
taken from, and the transactions behind it do what they did. -/
namespace Warm.Engine

open Binary Audit List

variable {config : Config} {core : WarmCore}

section Snapshot

variable {types : List RelationType} {mutations : List Mutation}

theorem committed_append (first : Committed config front) (second : Committed config back) :
    Committed config (front ++ back) := forall_mem_append.mpr ⟨first, second⟩

theorem committed_map {items : List α} {make : α → Mutation}
    (each : ∀ item ∈ items, validateMutation config (make item) = .ok () ∧ Issued (make item)) :
    Committed config (items.map make) := by
  intro mutation member
  obtain ⟨item, inside, rfl⟩ := mem_map.mp member
  exact each item inside

theorem committed_snapshotVector (valid : core.view.Valid config) (member : entry ∈ standaloneVectors core)
    (taken : snapshotVector config core entry = some written) : Committed config written := by
  obtain ⟨id, vector⟩ := entry
  rw [mem_standaloneVectors] at member
  split at member
  · contradiction
  next other =>
    rw [not_or] at other
    have shown : core.view.vectors id = some vector := by
      change (if isChunk id = true then none else core.shards.getVector id) = some vector
      rw [if_neg other.1, member]
    obtain ⟨named, shaped, plain⟩ := valid.vectors id vector shown
    have put : validateMutation config (.vector id vector) = .ok () := by
      rw [validateMutation, ensure_bind_ok, ensure_ok]
      exact ⟨named, shaped⟩
    have one : Committed config [.vector id vector] := by
      intro mutation own
      rw [mem_singleton.mp own]
      exact ⟨put, plain⟩
    rw [snapshotVector] at taken
    split at taken
    next => exact Option.some.inj taken ▸ one
    next meaning on =>
      split at taken
      · exact Option.some.inj taken ▸ one
      · split at taken
        next schema =>
          obtain rfl := Option.some.inj taken
          have enabled : config.meaningEnabled = true := by
            rw [← valid.enabled, WarmCore.view, on]
            rfl
          refine committed_append one ?_
          intro mutation own
          rw [mem_singleton.mp own]
          refine ⟨?_, trivial⟩
          rw [validateMutation, ensure_bind_ok, ensure_bind_ok, ensure_ok]
          exact ⟨named, decide_eq_true schema, enabled⟩
        · contradiction

theorem forall_mapM {entries : List (String × VectorRecord)} {holds : Mutation → Prop}
    (each : ∀ entry ∈ entries, ∀ written, snapshotVector config core entry = some written → ∀ m ∈ written, holds m)
    (listed : entries.mapM (snapshotVector config core) = some written) :
    ∀ mutation ∈ written.flatten, holds mutation := by
  induction entries generalizing written with
  | nil =>
    obtain rfl := Option.some.inj listed
    intro mutation member
    contradiction
  | cons entry entries ih =>
    rw [mapM_cons, Option.bind_eq_bind, Option.bind_eq_some_iff] at listed
    obtain ⟨first, taken, rest⟩ := listed
    rw [Option.bind_eq_bind, Option.bind_eq_some_iff] at rest
    obtain ⟨later, others, done⟩ := rest
    obtain rfl := Option.some.inj done
    exact forall_mem_append.mpr
      ⟨each entry mem_cons_self first taken, ih (forall_mem_cons.mp each).2 others⟩

theorem committed_snapshotMeaning (valid : core.view.Valid config) {meaning : Meaning} (on : core.meaning = some meaning) :
    Committed config (snapshotMeaning meaning) := by
  have shown : core.view.meaning = some meaning.view := by rw [WarmCore.view, on, Option.map_some]
  have kept := valid.meaning meaning.view shown
  refine committed_append (committed_append (committed_append ?_ ?_) ?_) ?_
  · refine committed_map fun entry member => ⟨?_, trivial⟩
    obtain ⟨named, shaped⟩ := kept.atoms entry.1 entry.2 ((meaning.atoms.mem_allVectors entry.1 entry.2).mp member)
    rw [validateMutation, ensure_bind_ok, ensure_ok]
    exact ⟨named, shaped⟩
  · refine committed_map fun entry member => ?_
    have vector := valid.composites meaning.view shown entry.1 entry.2
      ((meaning.composites.mem_allVectors entry.1 entry.2).mp member)
    obtain ⟨named, shaped, plain⟩ := valid.vectors entry.1 entry.2 vector
    refine ⟨?_, plain⟩
    rw [validateMutation, ensure_bind_ok, ensure_ok]
    exact ⟨named, shaped⟩
  · exact committed_map fun triple member => ⟨(kept.triples triple member).1, trivial⟩
  · exact committed_map fun rule member => ⟨kept.rules rule member, trivial⟩

theorem committed_snapshotMutations (valid : core.view.Valid config) (listing : types.Perm core.graph.typeSnapshot)
    (written : snapshotMutations config core types = some mutations) : Committed config mutations := by
  rw [snapshotMutations, Option.bind_eq_bind, Option.bind_eq_some_iff] at written
  obtain ⟨vectors, listed, done⟩ := written
  obtain rfl := Option.some.inj done
  refine committed_append (committed_append (committed_append (committed_append (committed_append ?_ ?_) ?_) ?_) ?_) ?_
  · exact forall_mapM (fun entry member written taken => committed_snapshotVector valid member taken) listed
  · exact committed_map fun relation member => ⟨valid.relations relation member, trivial⟩
  · refine committed_map fun relationType member => ⟨?_, trivial⟩
    obtain ⟨⟨name, _⟩, stored, rfl⟩ := mem_map.mp (listing.mem_iff.mp member)
    exact (valid.types name _ ((Table.mem_toList core.graph.types name _).mp stored)).2
  · cases on : core.meaning with
    | none =>
      intro mutation member
      contradiction
    | some meaning => exact committed_snapshotMeaning valid on
  · exact committed_map fun entry member =>
      ⟨valid.derived entry.1 entry.2 ((Table.mem_toList core.derived entry.1 entry.2).mp member), trivial⟩
  · exact committed_map fun intent member => ⟨valid.audits intent member, trivial⟩

theorem not_audit_snapshotVector (taken : snapshotVector config core entry = some written) :
    ∀ mutation ∈ written, isAudit mutation = false := by
  have shape : written = [.vector entry.1 entry.2] ∨ written = [.vector entry.1 entry.2, .deleteAtom entry.1] := by
    rw [snapshotVector] at taken
    split at taken
    · exact .inl (Option.some.inj taken).symm
    · split at taken
      · exact .inl (Option.some.inj taken).symm
      · split at taken
        · exact .inr (Option.some.inj taken).symm
        · contradiction
  rcases shape with rfl | rfl
  · intro mutation member
    rw [mem_singleton.mp member]
    rfl
  · intro mutation member
    rcases mem_pair.mp member with rfl | rfl <;> rfl

theorem advance_snapshotMutations (queue : Queue core.auditPending)
    (written : snapshotMutations config core types = some mutations) :
    mutations.foldlM advance [] = some core.auditPending := by
  rw [snapshotMutations, Option.bind_eq_bind, Option.bind_eq_some_iff] at written
  obtain ⟨vectors, listed, done⟩ := written
  obtain rfl := Option.some.inj done
  have plain := forall_mapM (fun entry _ written taken => not_audit_snapshotVector taken) listed
  have meaning : ((core.meaning.map snapshotMeaning).getD []).any isAudit = false := by
    cases core.meaning with
    | none => rfl
    | some meaning =>
      rw [any_eq_false]
      intro mutation member
      simp only [Option.map_some, Option.getD_some, snapshotMeaning, mem_append, mem_map] at member
      rcases member with ((⟨_, _, rfl⟩ | ⟨_, _, rfl⟩) | ⟨_, _, rfl⟩) | ⟨_, _, rfl⟩ <;> exact Bool.false_ne_true
  rw [foldlM_append, advance_all_of_not_audit]
  · exact Queue.rebuild queue
  · simp only [any_append, Bool.or_eq_false_iff, meaning, and_true]
    refine ⟨⟨⟨?_, ?_⟩, ?_⟩, ?_⟩
    · rw [any_eq_false]
      intro mutation member
      rw [plain mutation member]
      decide
    all_goals
      rw [any_eq_false]
      intro mutation member
      obtain ⟨_, _, rfl⟩ := mem_map.mp member
      exact Bool.false_ne_true

end Snapshot

/-- The states agree but for documents under the ids given. -/
def AgreeOff (ids : String → Prop) (view other : View) : Prop :=
  other = { view with documents := other.documents } ∧ ∀ id, ¬ids id → other.documents id = view.documents id

theorem apply_framed (encoder : Encoder dimensions) (view : View) (documents : String → Option StoredDocument)
    (plain : isDocumentOrAudit mutation = false ∨ isAudit mutation = true) :
    View.apply encoder { view with documents } mutation = { view.apply encoder mutation with documents } ∧
      (view.apply encoder mutation).documents = view.documents := by
  cases mutation with
  | document _ | encodeDocument _ _ _ _ | deleteDocument _ =>
    simp [isDocumentOrAudit, isAudit, intentOf, acknowledgementOf] at plain
  | auditAcknowledged id =>
    simp only [View.apply]
    split <;> exact ⟨rfl, rfl⟩
  | triplet id subject relation object =>
    simp only [View.apply, View.clear]
    cases view.meaning <;> exact ⟨rfl, rfl⟩
  | _ => exact ⟨rfl, rfl⟩

theorem rewrites_of_plain (plain : isDocumentOrAudit mutation = false ∨ isAudit mutation = true) (id : String) :
    rewrites id mutation = false := by
  cases mutation with
  | document _ | deleteDocument _ => simp [isDocumentOrAudit, isAudit, intentOf, acknowledgementOf] at plain
  | _ => rfl

theorem document_cases (mutation : Mutation) :
    (isDocumentOrAudit mutation = false ∨ isAudit mutation = true) ∨ (∃ document, mutation = .document document) ∨
      (∃ id, mutation = .deleteDocument id) ∨
        ∃ id version fingerprint vectors, mutation = .encodeDocument id version fingerprint vectors := by
  cases mutation with
  | document document => exact .inr (.inl ⟨document, rfl⟩)
  | deleteDocument id => exact .inr (.inr (.inl ⟨id, rfl⟩))
  | encodeDocument id version fingerprint vectors => exact .inr (.inr (.inr ⟨id, version, fingerprint, vectors, rfl⟩))
  | auditPending intent => exact .inl (.inr rfl)
  | auditAcknowledged id => exact .inl (.inr rfl)
  | _ => exact .inl (.inl rfl)

theorem apply_encodeDocument (encoder : Encoder dimensions) (view : View) (id version : String) (fingerprint : UInt64)
    (vectors : List VectorRecord) :
    view.apply encoder (.encodeDocument id version fingerprint vectors) =
      { view with
        documents := Function.update view.documents id ((view.documents id).map fun document =>
          if applicable document version fingerprint vectors then encodedDocument document vectors else document) } := by
  rw [View.apply]
  split
  next absent =>
    rw [absent, Option.map_none, ← absent, Function.update_eq_self]
  next document found =>
    rw [found, Option.map_some]
    split
    · rfl
    · rw [← found, Function.update_eq_self]

namespace AgreeOff

variable {ids : String → Prop} {view other : View} {encoder : Encoder dimensions}

theorem apply (agree : AgreeOff ids view other) (encoder : Encoder dimensions) (mutation : Mutation) :
    AgreeOff (fun id => ids id ∧ rewrites id mutation = false) (view.apply encoder mutation)
      (other.apply encoder mutation) := by
  obtain ⟨same, agree⟩ := agree
  generalize documents : other.documents = own at same agree
  subst same
  rcases document_cases mutation with plain | ⟨document, rfl⟩ | ⟨id, rfl⟩ | ⟨id, version, fingerprint, vectors, rfl⟩
  · obtain ⟨framed, kept⟩ := apply_framed encoder view own plain
    rw [framed]
    refine ⟨rfl, fun id off => ?_⟩
    rw [kept]
    exact agree id fun listed => off ⟨listed, rewrites_of_plain plain id⟩
  · refine ⟨rfl, fun a off => ?_⟩
    simp only [View.apply, Function.update_apply]
    split
    · rfl
    next apart => exact agree a fun listed => off ⟨listed, beq_false_of_ne (Ne.symm apart)⟩
  · refine ⟨rfl, fun a off => ?_⟩
    simp only [View.apply, Function.update_apply]
    split
    · rfl
    next apart => exact agree a fun listed => off ⟨listed, beq_false_of_ne (Ne.symm apart)⟩
  · rw [apply_encodeDocument, apply_encodeDocument]
    refine ⟨rfl, fun a off => ?_⟩
    have here : own a = view.documents a := agree a fun listed => off ⟨listed, rfl⟩
    simp only [Function.update_apply]
    split
    next own => rw [← own, here]
    next => exact here

theorem foldl (agree : AgreeOff ids view other) (encoder : Encoder dimensions) (mutations : List Mutation) :
    AgreeOff (fun id => ids id ∧ ∀ mutation ∈ mutations, rewrites id mutation = false)
      (mutations.foldl (View.apply encoder) view) (mutations.foldl (View.apply encoder) other) := by
  induction mutations generalizing ids view other with
  | nil => exact ⟨agree.1, fun id off => agree.2 id fun listed => off ⟨listed, by simp⟩⟩
  | cons mutation mutations ih =>
    have later := ih (agree.apply encoder mutation)
    refine ⟨later.1, fun id off => later.2 id ?_⟩
    rintro ⟨⟨listed, first⟩, rest⟩
    exact off ⟨listed, forall_mem_cons.mpr ⟨first, rest⟩⟩

theorem eq (agree : AgreeOff ids view other) (encoder : Encoder dimensions) {mutations : List Mutation}
    (rewritten : ∀ id, ids id → mutations.any (rewrites id) = true) :
    mutations.foldl (View.apply encoder) other = mutations.foldl (View.apply encoder) view := by
  obtain ⟨same, documents⟩ := agree.foldl encoder mutations
  have all : (mutations.foldl (View.apply encoder) other).documents = (mutations.foldl (View.apply encoder) view).documents := by
    funext id
    apply documents
    rintro ⟨listed, unwritten⟩
    obtain ⟨mutation, member, wrote⟩ := any_eq_true.mp (rewritten id listed)
    rw [unwritten mutation member] at wrote
    contradiction
  rw [same, all]

end AgreeOff

theorem isSome_of_unwritten (encoder : Encoder dimensions) (view : View) {id : String} {mutations : List Mutation}
    (unwritten : ∀ mutation ∈ mutations, rewrites id mutation = false) :
    ((mutations.foldl (View.apply encoder) view).documents id).isSome = (view.documents id).isSome := by
  induction mutations generalizing view with
  | nil => rfl
  | cons mutation mutations ih =>
    rw [foldl_cons, ih _ (forall_mem_cons.mp unwritten).2]
    have first := unwritten mutation mem_cons_self
    rcases document_cases mutation with plain | ⟨document, rfl⟩ | ⟨other, rfl⟩ | ⟨other, version, fingerprint, vectors, rfl⟩
    · rw [(apply_framed encoder view view.documents plain).2]
    · simp only [View.apply]
      rw [Function.update_of_ne (Ne.symm (ne_of_beq_false first))]
    · simp only [View.apply]
      rw [Function.update_of_ne (Ne.symm (ne_of_beq_false first))]
    · rw [apply_encodeDocument]
      simp only [Function.update_apply]
      split
      next own => rw [own, Option.isSome_map]
      next => rfl

end Warm.Engine
