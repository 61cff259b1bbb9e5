import Warm.MemoryPayload
import Warm.MemoryRemember

/-! Retries of a remember: an input whose hash is already stored under its id is reported as stored, and a call that
follows its own success finds every fact so. -/
namespace Warm.Memory

open List hiding after

open Interleaving
open Binary (utf8)

section Again

variable {documents : Documents} {index : Index} {settings : WriteSettings} {earlier : List Planned}
  {input : RememberInput} {now : Millis}

/-- The identical fact is stored under the id of an input. -/
def StoredAs (documents : Documents) (checked : Checked) (stamp : Stamp) : Prop :=
  ∃ parts, documents[checked.id]? = some parts ∧ parts.stamp = some stamp ∧ stamp.hash = some checked.hash

theorem planOne_again (passed : checkInput settings input = .ok checked) (stored : StoredAs documents checked stamp) :
    (planOne settings earlier input now).eval (answer documents index) =
      .ok ⟨checked.id, stamp, true, false, none, none⟩ := by
  obtain ⟨parts, found, stamped, same⟩ := stored
  have meets : (planExisting settings checked).eval (answer documents index) = .ok (.identical stamp) := by
    unfold planExisting
    refine (Plan.eval_bind_eq_ok _).mpr ⟨some parts, ?_, ?_⟩
    · rw [Plan.eval_ask]
      exact congrArg Except.ok found
    · simp only [stamped, same, if_true]
      rfl
  unfold planOne
  refine (Plan.eval_bind_eq_ok _).mpr ⟨checked, ?_, (Plan.eval_bind_eq_ok _).mpr ⟨.identical stamp, meets, rfl⟩⟩
  rw [Plan.eval_lift]
  exact passed

/-- Every input of a call is planned under its own id and with the hash of its own payload. -/
def PlansEach (settings : WriteSettings) (input : RememberInput) (fact : Planned) : Prop :=
  ∃ checked, checkInput settings input = .ok checked ∧ fact.id = checked.id ∧ fact.stamp.hash = some checked.hash

theorem planAll_each (result : (planAll settings now inputs earlier).eval (answer documents index) = .ok planned) :
    ∃ added, planned = earlier ++ added ∧ List.Forall₂ (PlansEach settings) inputs added := by
  obtain ⟨added, split, each⟩ := planAll_forall result
  exact ⟨added, split, each.imp fun _ _ ⟨_, own⟩ => (planOne_ok own).imp fun _ facts => ⟨facts.1, facts.2.1, facts.2.2.1⟩⟩

/-- The plan of a fact that is stored already. -/
def Planned.again (fact : Planned) : Planned :=
  ⟨fact.id, fact.stamp, true, false, none, none⟩

theorem planAll_again (each : List.Forall₂ (PlansEach settings) inputs planned)
    (stored : ∀ fact ∈ planned, ∃ parts, documents[fact.id]? = some parts ∧ parts.stamp = some fact.stamp)
    (distinct : (planned.map (·.id)).Nodup) (apart : ∀ fact ∈ planned, fact.id ∉ earlier.map (·.id)) :
    (planAll settings now inputs earlier).eval (answer documents index) = .ok (earlier ++ planned.map Planned.again) := by
  induction each generalizing earlier with
  | nil =>
    unfold planAll
    rw [map_nil, append_nil]
    rfl
  | @cons input fact inputs planned plans each ih =>
    obtain ⟨checked, passed, same, hashed⟩ := plans
    obtain ⟨parts, found, stamped⟩ := stored fact mem_cons_self
    rw [map_cons, nodup_cons] at distinct
    have own : (planOne settings earlier input now).eval (answer documents index) = .ok fact.again := by
      rw [planOne_again passed ⟨parts, same ▸ found, stamped, hashed⟩, Planned.again, same]
    have fresh : (earlier.any fun other => other.id == fact.again.id) = false := by
      rw [any_eq_false]
      intro other member equal
      exact apart fact mem_cons_self (mem_map.mpr ⟨other, member, beq_iff_eq.mp equal⟩)
    unfold planAll
    refine (Plan.eval_bind_eq_ok _).mpr ⟨fact.again, own, (Plan.eval_bind_eq_ok _).mpr ⟨(), ?_, ?_⟩⟩
    · rw [Plan.eval_require_eq_ok, fresh]
      rfl
    · rw [ih (forall_mem_cons.mp stored).2 distinct.2, map_cons,
        append_assoc, singleton_append]
      intro other member again
      rw [map_append, mem_append] at again
      rcases again with old | new
      · exact apart other (mem_cons_of_mem _ member) old
      · rw [map_singleton, mem_singleton] at new
        exact distinct.1 (mem_map.mpr ⟨other, member, new⟩)

end Again

section Repeat

variable {settings : WriteSettings} {memory : Nat} {inputs : List RememberInput} {now : Millis} {fault : Fault} {world : World}

theorem PlannedFrom.stored (mirrors : index.Mirrors documents)
    (from_ : PlannedFrom documents index settings now inputs planned) :
    ∀ fact ∈ planned, ∃ parts,
      ((Transaction.remember (planned.filterMap Planned.entry)).apply (fun _ => true) documents)[fact.id]? = some parts ∧
        parts.stamp = some fact.stamp := by
  have kept : ∀ fact ∈ planned, fact.idempotent = true → fact.document = none := by
    intro fact member idempotent
    rcases from_.fact member with kept | ⟨_, _, _, _, _, _, new⟩
    · exact kept.document
    · rw [new.idempotent] at idempotent
      simp at idempotent
  obtain ⟨written, others⟩ := apply_remember_with (from_.writes mirrors) kept
  intro fact member
  rcases from_.fact member with old | ⟨_, _, _, _, _, _, new⟩
  · obtain ⟨parts, found, stamped⟩ := old.stored
    refine ⟨parts, ?_, stamped⟩
    rw [others fact.id, found]
    intro listed
    obtain ⟨other, inside, same⟩ := mem_map.mp listed
    obtain ⟨inside, fresh⟩ := mem_filter.mp inside
    obtain rfl := inj_on_of_nodup_map from_.distinct inside member same
    simp [old.idempotent] at fresh
  · obtain ⟨parts, document, stamped⟩ := new.document
    refine ⟨parts, ?_, stamped⟩
    rw [written fact (mem_filter.mpr ⟨member, by rw [new.idempotent]; rfl⟩), document]

theorem rememberMany_again (sound : world.Sound)
    (ran : (rememberMany settings memory inputs now).run execute fault world = (.ok outcomes, after)) (now' : Millis)
    (fault' : Fault) :
    ∃ again, (rememberMany settings memory inputs now').run execute fault' after = (.ok again, refreshed after memory) ∧
      ∀ outcome ∈ again, outcome.created = false := by
  obtain ⟨batch, planned, plan, rfl, documents⟩ := run_rememberMany_ok ran
  have describes := sound.describes_refreshed memory
  have from_ : PlannedFrom world.documents ((refreshed world memory).index memory) settings now inputs planned := by
    simpa using planAll_ok .nil plan
  obtain ⟨_, rfl, each⟩ := planAll_each plan
  have stored := from_.stored describes.mirrors
  rw [← documents] at stored
  refine ⟨(planned.map Planned.again).map Planned.outcome, run_rememberMany_idle batch ?_ ?_, ?_⟩
  · exact planAll_again each stored from_.distinct fun fact _ => not_mem_nil
  · intro fact member
    obtain ⟨old, -, rfl⟩ := mem_map.mp member
    exact ⟨rfl, rfl⟩
  · intro outcome member
    obtain ⟨fact, inside, rfl⟩ := mem_map.mp member
    obtain ⟨old, -, rfl⟩ := mem_map.mp inside
    rfl

end Repeat

section Retry

variable {settings : WriteSettings} {p q : RememberInput} {a b : Payload}

def PlannedAs (settings : WriteSettings) (input : RememberInput) (documents : Documents) (fact : Planned) : Prop :=
  ∃ index earlier now, (planOne settings earlier input now).eval (answer documents index) = .ok fact

theorem PlannedAs.hash (planned : PlannedAs settings p documents fact) (given : payload settings p = .ok a) :
    fact.stamp.hash = some (settings.stableHash (a.parts settings)) ∧
      (p.id = none → fact.id = "mem:" ++ settings.stableHash (a.parts settings)) := by
  obtain ⟨index, earlier, now, planned⟩ := planned
  obtain ⟨checked, passed, same, hashed, -⟩ := planOne_ok planned
  obtain ⟨checked', passed', rfl⟩ := payload_ok given
  obtain rfl : checked = checked' := by rw [passed] at passed'; exact Except.ok.inj passed'
  obtain ⟨-, hash, -, -, id⟩ := checkInput_ok passed
  exact ⟨by rw [hashed, hash], fun none => by rw [same, id, none, Option.getD_none, hash]⟩

/-- What a remember hides. The hash is fed two payloads alike only if they are the same, exactly when they are not
conflated. Then, unless the lanes of the hash collide, a retry reported as stored meets a fact of its own payload, and
one content-derived id stands for one payload. Repeating a call that succeeded writes nothing. -/
theorem remember_hides_iff (hashing : settings.stableHash = stableHash) (first : payload settings p = .ok a)
    (second : payload settings q = .ok b)
    (faithful : settings.metadataBytes a.metadata = settings.metadataBytes b.metadata → a.metadata = b.metadata)
    (small : ∀ part ∈ a.parts settings, part.length < 2 ^ 64) (small' : ∀ part ∈ b.parts settings, part.length < 2 ^ 64) :
    ((framed (a.parts settings) = framed (b.parts settings) → a = b) ↔ ¬a.Conflated b) ∧
    (¬a.Conflated b → (hashLanes (a.parts settings) = hashLanes (b.parts settings) →
        framed (a.parts settings) = framed (b.parts settings)) →
      ∀ documents documents' fact fact', PlannedAs settings p documents fact → PlannedAs settings q documents' fact' →
        (fact.idempotent = true → documents[fact.id]?.bind (·.stamp) = some fact'.stamp → a = b) ∧
        (p.id = none → q.id = none → fact.id = fact'.id → a = b)) ∧
    (∀ memory inputs now fault (world : World) outcomes after, world.Sound →
      (rememberMany settings memory inputs now).run execute fault world = (.ok outcomes, after) → ∀ now' fault',
      ∃ again after', (rememberMany settings memory inputs now').run execute fault' after = (.ok again, after') ∧
        after'.revision = after.revision ∧ after'.history = after.history ∧
        ∀ outcome ∈ again, outcome.created = false) := by
  have apart := framed_tells_apart_iff (payload_valid first) (payload_valid second) faithful small small'
  refine ⟨apart, ?_, ?_⟩
  · intro conflated collides documents documents' fact fact' planned planned'
    obtain ⟨hashed, named⟩ := planned.hash first
    obtain ⟨hashed', named'⟩ := planned'.hash second
    rw [hashing] at hashed hashed' named named'
    have same (equal : stableHash (a.parts settings) = stableHash (b.parts settings)) : a = b :=
      apart.mpr conflated (collides (stableHash_inj.mp equal))
    constructor
    · intro idempotent stored
      have kept : documents[fact.id]?.bind (·.stamp) = some fact.stamp := by
        obtain ⟨index, earlier, now, planned⟩ := planned
        obtain ⟨checked, -, -, -, kept | new⟩ := planOne_ok planned
        · obtain ⟨parts, found, stamped⟩ := kept.stored
          rw [found, Option.bind_some, stamped]
        · rw [new.idempotent] at idempotent
          simp at idempotent
      rw [kept, Option.some.injEq] at stored
      rw [stored] at hashed
      exact same (Option.some.inj (hashed.symm.trans hashed'))
    · intro none none' equal
      rw [named none, named' none'] at equal
      have chars := congrArg String.toList equal
      rw [String.toList_append, String.toList_append] at chars
      exact same (String.toList_injective (append_cancel_left chars))
  · intro memory inputs now fault world outcomes after sound ran now' fault'
    obtain ⟨again, repeated, kept⟩ := rememberMany_again sound ran now' fault'
    exact ⟨again, _, repeated, refreshed_revision _ _, refreshed_history _ _, kept⟩

/-- Settings that hash as the source does and refuse a conflict; caller metadata is empty. -/
def Sample.hashing : WriteSettings :=
  ⟨.reject, none, false, explicitOnly, stableHash, fun _ => utf8 "\x7b\x7d", fun _ => .ok 1, fun text => text⟩

/-- A fact about tea with the entities given. -/
def Sample.tea (entities : List String) : RememberInput :=
  ⟨none, "tea is hot", none, none, none, none, none, some entities, none, none, none⟩

def Sample.teaPayload (entities : List String) : Payload :=
  ⟨"tea is hot", ∅, none, none, none, none, [], entities, none, none⟩

theorem Sample.tea_payload (entities : List String)
    (kept : (collectEntities hashing (Sample.tea entities)).toOption = some entities) :
    payload hashing (Sample.tea entities) = .ok (teaPayload entities) := by
  unfold payload checkInput
  cases named : collectEntities hashing (Sample.tea entities) with
  | error error => simp [named, Except.toOption] at kept
  | ok found =>
    rw [named] at kept
    obtain rfl : found = entities := Option.some.inj kept
    have text : (!(trim "tea is hot").toList.isEmpty && decide ("tea is hot".utf8ByteSize ≤ MAX_TEXT_BYTES)) = true := by
      decide
    have explicit : collectExplicit (Sample.tea found) = .ok [] := by
      simp [collectExplicit, Sample.tea, check, sortIds]
    have reserved : (!(∅ : Table String Json).contains KEY) = true := by simp
    rw [show (Sample.tea found).text = "tea is hot" from rfl, text, explicit, show userMetadata (Sample.tea found).metadata = .ok ∅ from rfl]
    simp only [check, if_true, bind, Except.bind]
    rw [reserved]
    rfl

theorem remember_hides_iff_tea :
    (framed ((Sample.teaPayload ["cup"]).parts Sample.hashing) = framed ((Sample.teaPayload ["pot"]).parts Sample.hashing) →
      Sample.teaPayload ["cup"] = Sample.teaPayload ["pot"]) ↔
      ¬(Sample.teaPayload ["cup"]).Conflated (Sample.teaPayload ["pot"]) :=
  (@remember_hides_iff Sample.hashing _ _ _ _ rfl (Sample.tea_payload ["cup"] (by decide))
    (Sample.tea_payload ["pot"] (by decide)) (fun _ => rfl) (by decide) (by decide)).1

theorem Sample.tea_planned (entities : List String)
    (planned : ((planOne hashing [] (tea entities) 10).eval (answer ∅ Index.empty)).toOption.isSome = true) :
    ∃ fact, PlannedAs hashing (tea entities) ∅ fact := by
  cases plan : (planOne hashing [] (tea entities) 10).eval (answer ∅ Index.empty) with
  | error error => simp [plan, Except.toOption] at planned
  | ok fact => exact ⟨fact, _, _, _, plan⟩

/-- What a call made, by its last fact. -/
def Sample.lastCreated (result : Except MemoryError (List Remembered)) : Option Bool :=
  result.toOption.bind fun outcomes => outcomes.getLast?.map (·.created)

/-- One entity that holds the joining character is hashed as the two it joins: the second of two different facts is
reported as stored. -/
theorem remember_hides_entities : ∃ a b fact fact', payload Sample.hashing (Sample.tea ["a\x01b"]) = .ok a ∧
    payload Sample.hashing (Sample.tea ["a", "b"]) = .ok b ∧
    PlannedAs Sample.hashing (Sample.tea ["a\x01b"]) ∅ fact ∧ PlannedAs Sample.hashing (Sample.tea ["a", "b"]) ∅ fact' ∧
    framed (a.parts Sample.hashing) = framed (b.parts Sample.hashing) ∧ a.entities ≠ b.entities ∧
    Sample.lastCreated ((rememberMany Sample.hashing 0 [Sample.tea ["a", "b"]] 20).run execute .none
      ((rememberMany Sample.hashing 0 [Sample.tea ["a\x01b"]] 10).run execute .none World.empty).2).1 = some false := by
  obtain ⟨fact, planned⟩ := Sample.tea_planned ["a\x01b"] (by decide +kernel)
  obtain ⟨fact', planned'⟩ := Sample.tea_planned ["a", "b"] (by decide +kernel)
  exact ⟨_, _, fact, fact', Sample.tea_payload ["a\x01b"] (by decide +kernel), Sample.tea_payload ["a", "b"] (by decide +kernel),
    planned, planned', by decide +kernel, by decide +kernel, by decide +kernel⟩

end Retry

end Warm.Memory
