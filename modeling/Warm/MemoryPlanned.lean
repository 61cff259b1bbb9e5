import Warm.MemoryReads

/-! What a plan that succeeds has found, when all its reads come from one state. -/
namespace Warm.Memory

open Interleaving List

namespace Plan

variable {α β : Type} (view : (query : Query) → query.Reply)

@[simp] theorem eval_pure (value : α) : (pure value : Plan α).eval view = .ok value :=
  rfl

@[simp] theorem eval_ask (query : Query) : (ask query).eval view = .ok (view query) :=
  rfl

@[simp] theorem eval_lift (result : Except MemoryError α) : (lift result).eval view = result :=
  rfl

@[simp] theorem eval_throw (error : MemoryError) : (throw error : Plan α).eval view = .error error :=
  rfl

theorem eval_bind (plan : Plan α) (rest : α → Plan β) :
    (plan >>= rest).eval view = (plan.eval view).bind fun value => (rest value).eval view := by
  simp only [eval, ExceptT.run_bind, Program.eval_bind]
  cases Program.eval view (ExceptT.run plan) with
  | error error => rfl
  | ok value => rfl

theorem eval_bind_eq_ok {rest : α → Plan β} {result : β} :
    (plan >>= rest).eval view = .ok result ↔
      ∃ value, plan.eval view = .ok value ∧ (rest value).eval view = .ok result := by
  rw [eval_bind]
  cases plan.eval view with
  | error error => simp [Except.bind]
  | ok value => simp [Except.bind]

theorem eval_require_eq_ok : (require condition message).eval view = .ok unit ↔ condition = true := by
  unfold require check
  rw [eval_lift]
  cases condition <;> simp

end Plan

section PlanOne

variable {documents : Documents} {index : Index} {settings : WriteSettings} {earlier : List Planned}
  {input : RememberInput} {now : Millis}

theorem planExisting_ok {existing : Existing}
    (planned : (planExisting settings checked).eval (answer documents index) = .ok existing) :
    match existing with
    | .nothing => documents[checked.id]? = none
    | .identical stamp => (∃ parts, documents[checked.id]? = some parts ∧ parts.stamp = some stamp) ∧
        stamp.hash = some checked.hash
    | .replaced previous => settings.onIdConflict = .replace ∧
        ∃ parts, documents[checked.id]? = some parts ∧ parts.stamp = previous := by
  unfold planExisting at planned
  obtain ⟨found, asked, rest⟩ := (Plan.eval_bind_eq_ok _).mp planned
  rw [Plan.eval_ask, Except.ok.injEq] at asked
  simp only [answer] at asked
  cases found with
  | none =>
    rw [Plan.eval_pure, Except.ok.injEq] at rest
    subst rest
    exact asked
  | some parts =>
    simp only at rest
    cases stamped : parts.stamp with
    | some stamp =>
      simp only [stamped] at rest
      split at rest
      · next same =>
        rw [Plan.eval_pure, Except.ok.injEq] at rest
        subst rest
        exact ⟨⟨parts, asked, stamped⟩, same⟩
      · split at rest
        · next replaces =>
          rw [Plan.eval_pure, Except.ok.injEq] at rest
          subst rest
          exact ⟨replaces, parts, asked, stamped⟩
        · simp at rest
    | none =>
      simp only [stamped] at rest
      split at rest
      · next replaces =>
        obtain ⟨linked, -, rest⟩ := (Plan.eval_bind_eq_ok _).mp rest
        obtain ⟨_, -, rest⟩ := (Plan.eval_bind_eq_ok _).mp rest
        rw [Plan.eval_pure, Except.ok.injEq] at rest
        subst rest
        exact ⟨replaces, parts, asked, stamped⟩
      · simp at rest

theorem checkEach_eq_ok (passed : checkEach condition message ids = .ok unit) : ∀ id ∈ ids, condition id = true := by
  induction ids with
  | nil => exact forall_mem_nil _
  | cons head ids ih =>
    unfold checkEach check at passed
    split at passed
    · next own =>
      exact forall_mem_cons.mpr ⟨own, ih passed⟩
    · simp [bind, Except.bind] at passed

theorem mem_subjectGroup {subject id : String} {view : FactView}
    (member : view ∈ subjectGroup members earlier subject id) :
    (view.id ≠ id ∧ ∃ stored ∈ members, stored.id = view.id) ∨
      ∃ fact ∈ earlier, fact.id = view.id ∧ fact.stamp.subject = some subject := by
  unfold subjectGroup at member
  rw [mem_mergeSort] at member
  have folded : ∀ (facts : List Planned) (group : List FactView),
      view ∈ facts.foldl (fun group fact => group.filter (fun view => view.id != fact.id) ++
        [⟨fact.id, some subject, fact.stamp.effectiveFrom, fact.stamp.ingest⟩]) group →
      view ∈ group ∨ ∃ fact ∈ facts, fact.id = view.id := by
    intro facts
    induction facts with
    | nil => exact fun group inside => .inl inside
    | cons fact facts ih =>
      intro group inside
      rcases ih _ inside with before | ⟨other, listed, same⟩
      · rcases mem_append.mp before with kept | added
        · exact .inl (mem_filter.mp kept).1
        · rw [mem_singleton.mp added]
          exact .inr ⟨fact, mem_cons_self, rfl⟩
      · exact .inr ⟨other, mem_cons_of_mem fact listed, same⟩
  rcases folded _ _ member with stored | ⟨fact, listed, same⟩
  · obtain ⟨entry, inside, rfl⟩ := mem_map.mp stored
    obtain ⟨listed, other⟩ := mem_filter.mp inside
    exact .inl ⟨by simpa using other, entry, listed, rfl⟩
  · obtain ⟨inside, about⟩ := mem_filter.mp listed
    exact .inr ⟨fact, inside, same, beq_iff_eq.mp about⟩

theorem mem_foldl_pushUnique (start values : List String) (id : String) :
    id ∈ values.foldl pushUnique start ↔ id ∈ start ∨ id ∈ values := by
  induction values generalizing start with
  | nil => simp
  | cons value values ih =>
    rw [foldl_cons, ih, mem_cons]
    unfold pushUnique
    split
    · next known =>
      have inside : value ∈ start := contains_iff_mem.mp known
      constructor
      · rintro (before | later)
        · exact .inl before
        · exact .inr (.inr later)
      · rintro (before | rfl | later)
        · exact .inl before
        · exact .inl inside
        · exact .inr later
    · simp only [mem_append, mem_singleton, or_assoc]

theorem mem_sortIds (ids : List String) (id : String) : id ∈ sortIds ids ↔ id ∈ ids := by
  simp [sortIds]

/-- A fact a policy may link to: a stored fact of the subject, or one the call planned before. -/
def Linkable (index : Index) (earlier : List Planned) (checked : Checked) (id : String) : Prop :=
  ∃ subject, checked.subject = some subject ∧
    ((id ≠ checked.id ∧ id ∈ index.subjectIds subject) ∨
      ∃ fact ∈ earlier, fact.id = id ∧ fact.stamp.subject = some subject)

/-- The links of a fact are those its caller names and linkable ones. -/
theorem planLinks_ok {links : Resolution}
    (planned : (planLinks settings earlier input checked now).eval (answer documents index) = .ok links) :
    (∀ id ∈ links.supersedes, id ∈ checked.explicit ∨ Linkable index earlier checked id) ∧
      (∀ id ∈ links.supersededBy, Linkable index earlier checked id) ∧ ∀ id ∈ checked.explicit, id ∈ links.supersedes := by
  unfold planLinks at planned
  split at planned
  · next subject active about =>
    obtain ⟨members, asked, rest⟩ := (Plan.eval_bind_eq_ok _).mp planned
    rw [Plan.eval_ask, Except.ok.injEq] at asked
    simp only [answer] at asked
    subst asked
    obtain ⟨_, passed, rest⟩ := (Plan.eval_bind_eq_ok _).mp rest
    rw [Plan.eval_lift] at passed
    rw [Plan.eval_pure, Except.ok.injEq] at rest
    subst rest
    have linkable : ∀ id ∈ (settings.policy ⟨checked.id, some subject, (input.validFrom.or input.eventTime).getD now, now⟩
          (subjectGroup (index.members subject) earlier subject checked.id)).supersedes ++
        (settings.policy ⟨checked.id, some subject, (input.validFrom.or input.eventTime).getD now, now⟩
          (subjectGroup (index.members subject) earlier subject checked.id)).supersededBy,
        Linkable index earlier checked id := by
      intro id member
      obtain ⟨view, inside, same⟩ := any_eq_true.mp (checkEach_eq_ok passed id member)
      rw [beq_iff_eq] at same
      refine ⟨subject, about, ?_⟩
      rcases mem_subjectGroup inside with ⟨other, stored, listed, own⟩ | ⟨fact, listed, own, about'⟩
      · refine .inl ⟨same ▸ other, ?_⟩
        unfold Index.members at listed
        exact mem_map.mpr ⟨stored, mem_mergeSort.mp listed, own.trans same⟩
      · exact .inr ⟨fact, listed, own.trans same, about'⟩
    refine ⟨fun id member => ?_, fun id member => ?_, fun id member => ?_⟩
    · rw [mem_sortIds, mem_foldl_pushUnique] at member
      rcases member with explicit | resolved
      · exact .inl explicit
      · exact .inr (linkable id (mem_append_left _ resolved))
    · rw [mem_sortIds, mem_foldl_pushUnique] at member
      rcases member with none | resolved
      · exact absurd none not_mem_nil
      · exact linkable id (mem_append_right _ resolved)
    · rw [mem_sortIds, mem_foldl_pushUnique]
      exact .inl member
  · rw [Plan.eval_pure, Except.ok.injEq] at planned
    subst planned
    exact ⟨fun id member => .inl member, forall_mem_nil _, fun id member => member⟩

theorem planKnown_ok {unit : Unit} (planned : (planKnown settings earlier ids).eval (answer documents index) = .ok unit) :
    ∀ id ∈ ids, documents.contains id = true ∨ ∃ fact ∈ earlier, fact.id = id := by
  induction ids with
  | nil => exact forall_mem_nil _
  | cons head ids ih =>
    unfold planKnown at planned
    obtain ⟨stored, asked, rest⟩ := (Plan.eval_bind_eq_ok _).mp planned
    rw [Plan.eval_ask, Except.ok.injEq] at asked
    obtain ⟨_, passed, rest⟩ := (Plan.eval_bind_eq_ok _).mp rest
    rw [Plan.eval_require_eq_ok] at passed
    intro id member
    rcases mem_cons.mp member with rfl | later
    · rcases Bool.or_eq_true _ _ ▸ passed with found | found
      · exact .inl (asked.trans found)
      · obtain ⟨fact, listed, same⟩ := any_eq_true.mp found
        exact .inr ⟨fact, listed, beq_iff_eq.mp same⟩
    · exact ih rest id later

theorem planNoChain_ok {ids : List String} {unit : Unit}
    (planned : (planNoChain message source target ids).eval (answer documents index) = .ok unit) :
    ∀ id ∈ ids, index.supersedesTransitively (source id) (target id) = false := by
  induction ids with
  | nil => exact forall_mem_nil _
  | cons head ids ih =>
    unfold planNoChain at planned
    obtain ⟨reaches, asked, rest⟩ := (Plan.eval_bind_eq_ok _).mp planned
    rw [Plan.eval_ask, Except.ok.injEq] at asked
    obtain ⟨_, passed, rest⟩ := (Plan.eval_bind_eq_ok _).mp rest
    rw [Plan.eval_require_eq_ok, Bool.not_eq_true'] at passed
    exact forall_mem_cons.mpr ⟨asked.trans passed, ih rest⟩

/-- A fact the call finds stored with the same content. -/
structure KeptFact (documents : Documents) (fact : Planned) : Prop where
  idempotent : fact.idempotent = true
  document : fact.document = none
  stored : ∃ parts, documents[fact.id]? = some parts ∧ parts.stamp = some fact.stamp

/-- A fact the call is to write, with the checks it passed. -/
structure NewFact (documents : Documents) (index : Index) (settings : WriteSettings) (earlier : List Planned)
    (input : RememberInput) (now : Millis) (checked : Checked) (fact : Planned) : Prop where
  idempotent : fact.idempotent = false
  document : ∃ parts, fact.document = some parts ∧ parts.stamp = some fact.stamp
  previous : fact.previous = documents[fact.id]?.bind (·.stamp)
  replaces : fact.replaces = documents[fact.id]?.isSome
  reject : settings.onIdConflict = .reject → documents[fact.id]? = none
  stamp : ∃ links, (planLinks settings earlier input checked now).eval (answer documents index) = .ok links ∧
    fact.stamp = ⟨now, input.eventTime, input.validFrom, input.validTo, checked.subject, links.supersedes,
      links.supersededBy, checked.entities, some checked.hash⟩
  known : ∀ id ∈ checked.explicit, documents.contains id = true ∨ ∃ fact ∈ earlier, fact.id = id
  lower : ∀ old ∈ fact.stamp.supersedes, index.supersedesTransitively old fact.id = false
  upper : ∀ newer ∈ fact.stamp.supersededBy, index.supersedesTransitively fact.id newer = false

theorem planFact_ok {replaces : Bool} {previous : Option Stamp} {fact : Planned}
    (planned : (planOne.planFact settings earlier input now checked replaces previous).eval (answer documents index) = .ok fact)
    (before : previous = documents[checked.id]?.bind (·.stamp)) (stored : replaces = documents[checked.id]?.isSome)
    (reject : settings.onIdConflict = .reject → documents[checked.id]? = none) :
    fact.id = checked.id ∧ NewFact documents index settings earlier input now checked fact := by
  unfold planOne.planFact at planned
  obtain ⟨_, known, rest⟩ := (Plan.eval_bind_eq_ok _).mp planned
  obtain ⟨links, linked, rest⟩ := (Plan.eval_bind_eq_ok _).mp rest
  obtain ⟨_, acyclic, rest⟩ := (Plan.eval_bind_eq_ok _).mp rest
  obtain ⟨document, written, rest⟩ := (Plan.eval_bind_eq_ok _).mp rest
  rw [Plan.eval_pure, Except.ok.injEq] at rest
  unfold planAcyclic at acyclic
  obtain ⟨_, lower, upper⟩ := (Plan.eval_bind_eq_ok _).mp acyclic
  have stamped : document.stamp = some ⟨now, input.eventTime, input.validFrom, input.validTo, checked.subject,
      links.supersedes, links.supersededBy, checked.entities, some checked.hash⟩ := by
    rw [Plan.eval_lift] at written
    simp only [planDocument] at written
    split at written
    · simp [throw, throwThe, MonadExceptOf.throw] at written
    · unfold check at written
      split at written
      · simp only [bind, Except.bind, pure, Except.pure, Except.ok.injEq] at written
        rw [← written]
      · simp [bind, Except.bind] at written
  subst rest
  exact ⟨rfl, rfl, ⟨document, rfl, stamped⟩, before, stored, reject, ⟨links, linked, rfl⟩, planKnown_ok known,
    planNoChain_ok lower, planNoChain_ok upper⟩

theorem planOne_ok {fact : Planned}
    (planned : (planOne settings earlier input now).eval (answer documents index) = .ok fact) :
    ∃ checked, checkInput settings input = .ok checked ∧ fact.id = checked.id ∧ fact.stamp.hash = some checked.hash ∧
      (KeptFact documents fact ∨ NewFact documents index settings earlier input now checked fact) := by
  have hashed {fact : Planned} {checked : Checked} (new : NewFact documents index settings earlier input now checked fact) :
      fact.stamp.hash = some checked.hash := by
    obtain ⟨links, -, stamp⟩ := new.stamp
    rw [stamp]
  unfold planOne at planned
  obtain ⟨checked, passed, rest⟩ := (Plan.eval_bind_eq_ok _).mp planned
  rw [Plan.eval_lift] at passed
  obtain ⟨existing, found, rest⟩ := (Plan.eval_bind_eq_ok _).mp rest
  have meets := planExisting_ok found
  refine ⟨checked, passed, ?_⟩
  cases existing with
  | identical stamp =>
    rw [Plan.eval_pure, Except.ok.injEq] at rest
    subst rest
    exact ⟨rfl, meets.2, .inl ⟨rfl, rfl, meets.1⟩⟩
  | nothing =>
    simp only at meets
    obtain ⟨same, new⟩ := planFact_ok rest (by rw [meets]; rfl) (by rw [meets]; rfl) (fun _ => meets)
    exact ⟨same, hashed new, .inr new⟩
  | replaced previous =>
    obtain ⟨replaces, parts, stored, stamped⟩ := meets
    obtain ⟨same, new⟩ := planFact_ok rest (by rw [stored]; exact stamped.symm) (by rw [stored]; rfl)
      (fun reject => by rw [reject] at replaces; simp at replaces)
    exact ⟨same, hashed new, .inr new⟩

end PlanOne

section PlanAll

variable {documents : Documents} {index : Index} {settings : WriteSettings} {now : Millis}

/-- A call's facts, each planned with those before it known. -/
inductive PlannedFrom (documents : Documents) (index : Index) (settings : WriteSettings) (now : Millis) :
    List RememberInput → List Planned → Prop where
  | nil : PlannedFrom documents index settings now [] []
  | snoc {inputs : List RememberInput} {planned : List Planned} {input : RememberInput} {fact : Planned}
    {checked : Checked} : PlannedFrom documents index settings now inputs planned →
    checkInput settings input = .ok checked → fact.id = checked.id →
    (KeptFact documents fact ∨ NewFact documents index settings planned input now checked fact) →
    fact.id ∉ planned.map (·.id) →
    PlannedFrom documents index settings now (inputs ++ [input]) (planned ++ [fact])

theorem planAll_forall (result : (planAll settings now inputs earlier).eval (answer documents index) = .ok planned) :
    ∃ added, planned = earlier ++ added ∧ List.Forall₂ (fun input fact => ∃ earlier,
      (planOne settings earlier input now).eval (answer documents index) = .ok fact) inputs added := by
  induction inputs generalizing earlier with
  | nil =>
    unfold planAll at result
    rw [Plan.eval_pure, Except.ok.injEq] at result
    exact ⟨[], by rw [result, append_nil], .nil⟩
  | cons input inputs ih =>
    unfold planAll at result
    obtain ⟨fact, own, rest⟩ := (Plan.eval_bind_eq_ok _).mp result
    obtain ⟨_, -, rest⟩ := (Plan.eval_bind_eq_ok _).mp rest
    obtain ⟨added, rfl, each⟩ := ih rest
    exact ⟨fact :: added, by rw [append_assoc, singleton_append], .cons ⟨earlier, own⟩ each⟩

theorem planAll_ok {earlier planned : List Planned} (before : PlannedFrom documents index settings now done earlier)
    (result : (planAll settings now inputs earlier).eval (answer documents index) = .ok planned) :
    PlannedFrom documents index settings now (done ++ inputs) planned := by
  induction inputs generalizing done earlier with
  | nil =>
    unfold planAll at result
    rw [Plan.eval_pure, Except.ok.injEq] at result
    subst result
    rwa [append_nil]
  | cons input inputs ih =>
    unfold planAll at result
    obtain ⟨fact, own, rest⟩ := (Plan.eval_bind_eq_ok _).mp result
    obtain ⟨_, fresh, rest⟩ := (Plan.eval_bind_eq_ok _).mp rest
    rw [Plan.eval_require_eq_ok, Bool.not_eq_true', any_eq_false] at fresh
    obtain ⟨checked, passed, same, -, found⟩ := planOne_ok own
    have apart : fact.id ∉ earlier.map (·.id) := by
      intro again
      obtain ⟨other, listed, equal⟩ := mem_map.mp again
      exact fresh other listed (beq_iff_eq.mpr equal)
    have grown := ih (before.snoc passed same found apart) rest
    rwa [append_assoc] at grown

theorem PlannedFrom.distinct (from_ : PlannedFrom documents index settings now inputs planned) : (planned.map (·.id)).Nodup := by
  induction from_ with
  | nil => exact nodup_nil
  | snoc _ _ _ _ apart ih =>
    rw [map_append, map_singleton, ← concat_eq_append, nodup_concat]
    exact ⟨apart, ih⟩

theorem PlannedFrom.fact {planned : List Planned} (from_ : PlannedFrom documents index settings now inputs planned)
    {fact : Planned} (member : fact ∈ planned) :
    KeptFact documents fact ∨ ∃ earlier input checked, (∀ other ∈ earlier, other ∈ planned) ∧
      checkInput settings input = .ok checked ∧ fact.id = checked.id ∧
      NewFact documents index settings earlier input now checked fact := by
  induction from_ with
  | nil => exact absurd member not_mem_nil
  | @snoc inputs planned input last checked _ passed same found _ ih =>
    rcases mem_append.mp member with old | new
    · rcases ih old with kept | ⟨earlier, input, checked, inside, rest⟩
      · exact .inl kept
      · exact .inr ⟨earlier, input, checked, fun other listed => mem_append_left _ (inside other listed), rest⟩
    · rw [mem_singleton.mp new]
      rcases found with kept | new
      · exact .inl kept
      · exact .inr ⟨planned, input, checked, fun other listed => mem_append_left _ listed, passed, same, new⟩

/-- The facts of a call that it writes. -/
def writtenFacts (planned : List Planned) : List Planned :=
  planned.filter fun fact => !fact.idempotent

theorem PlannedFrom.writes (mirrors : index.Mirrors documents) {planned : List Planned}
    (from_ : PlannedFrom documents index settings now inputs planned) : Writes documents (writtenFacts planned) := by
  have new : ∀ fact ∈ writtenFacts planned, ∃ earlier input checked, (∀ other ∈ earlier, other ∈ planned) ∧
      NewFact documents index settings earlier input now checked fact := by
    intro fact member
    obtain ⟨inside, written⟩ := mem_filter.mp member
    rcases from_.fact inside with kept | ⟨earlier, input, checked, part, -, -, new⟩
    · simp [kept.idempotent] at written
    · exact ⟨earlier, input, checked, part, new⟩
  refine ⟨from_.distinct.sublist (filter_sublist.map _), fun fact member => ?_, fun fact member => ?_,
    fun fact member => ?_, fun fact member by_ hint => ?_⟩
  · obtain ⟨_, _, _, _, new⟩ := new fact member
    exact new.document
  · obtain ⟨_, _, _, _, new⟩ := new fact member
    exact new.previous
  · obtain ⟨_, _, _, _, new⟩ := new fact member
    exact new.replaces
  · obtain ⟨earlier, input, checked, part, new⟩ := new fact member
    obtain ⟨links, linked, stamp⟩ := new.stamp
    rw [stamp] at hint
    obtain ⟨subject, about, known⟩ := (planLinks_ok linked).2.1 by_ hint
    have own : fact.stamp.subject = some subject := by rw [stamp]; exact about
    rcases known with ⟨-, listed⟩ | ⟨other, listed, rfl, about'⟩
    · obtain ⟨parts, found, subject'⟩ := (mirrors.mem_subjectIds subject by_).mp listed
      obtain ⟨stamp', stamped, about'⟩ := Option.bind_eq_some_iff.mp subject'
      exact .inr ⟨subject, stamp', own, trackedStamp_of found stamped (tracked_of_subject about'), about'⟩
    · rcases from_.fact (part other listed) with kept | ⟨_, _, _, _, _, _, new'⟩
      · obtain ⟨parts, found, stamped⟩ := kept.stored
        exact .inr ⟨subject, other.stamp, own, trackedStamp_of found stamped (tracked_of_subject about'), about'⟩
      · refine .inl (mem_map_of_mem (mem_filter.mpr ⟨part other listed, ?_⟩))
        rw [new'.idempotent]
        rfl

end PlanAll

end Warm.Memory
