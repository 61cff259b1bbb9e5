import Warm.MemoryWorld

/-! What a forget selects: the documents of its scope, on request with everything linked to them, and the rewrites of the
facts that survive. -/
namespace Warm.Memory

open Interleaving List
open Plan (eval_ask eval_bind_eq_ok eval_pure)
open Prod (fst)
open Except (ok.injEq)

def InScope (documents : Documents) : ForgetScope → String → Prop
  | .ids ids, id => id ∈ ids
  | .subject subject, id => ∃ parts, documents[id]? = some parts ∧ parts.stamp.bind (·.subject) = some (trim subject)
  | .entity entity, id => ∃ parts, documents[id]? = some parts ∧
      ∃ stamp, parts.stamp = some stamp ∧ trim entity ∈ stamp.entities
  | .ingestedBefore time, id => ∃ parts, documents[id]? = some parts ∧ ∃ stamp, parts.stamp = some stamp ∧ stamp.ingest < time
  | .eventBefore time, id => ∃ parts, documents[id]? = some parts ∧
      ∃ stamp, parts.stamp = some stamp ∧ (stamp.event.or stamp.validFrom).getD stamp.ingest < time
  | .matching filter, id => ∃ parts, documents[id]? = some parts ∧ parts.stamp.isSome = true ∧
      matchesMetadata parts.metadata (some filter) = true

/-- Supersession in either direction. -/
def Linked (documents : Documents) (a b : String) : Prop :=
  Supersedes documents b a ∨ Supersedes documents a b

/-- The ids a forget is to remove: those of its scope, on request with all that supersession connects to them. -/
def Selected (documents : Documents) (scope : ForgetScope) (options : ForgetOptions) (id : String) : Prop :=
  if options.includeChain then ∃ first, InScope documents scope first ∧ Relation.ReflTransGen (Linked documents) first id
  else InScope documents scope id

section Scope

variable {documents : Documents} {index : Index}

theorem orderedIds_nodup (ids : List String) : (orderedIds ids).Nodup :=
  (mergeSort_perm _ _).nodup_iff.mpr (nodup_dedup ids)

theorem mem_scan (keep : DocumentParts → Bool) (id : String) :
    id ∈ answer documents index (.scan keep) ↔ ∃ parts, documents[id]? = some parts ∧ keep parts = true := by
  simp only [answer]
  rw [mem_map]
  constructor
  · rintro ⟨entry, member, rfl⟩
    obtain ⟨listed, kept⟩ := mem_filter.mp member
    exact ⟨entry.2, (Table.mem_toList documents entry.1 entry.2).mp listed, kept⟩
  · rintro ⟨parts, found, kept⟩
    exact ⟨(id, parts), mem_filter.mpr ⟨(Table.mem_toList documents id parts).mpr found, kept⟩, rfl⟩

theorem scan_nodup (keep : DocumentParts → Bool) : (answer documents index (.scan keep)).Nodup :=
  (Table.toList_keys_nodup documents).sublist (filter_sublist.map _)

theorem resolveScope_ok (mirrors : index.Mirrors documents)
    (resolved : (resolveScope scope).eval (answer documents index) = .ok ids) :
    ids.Nodup ∧ ∀ id, id ∈ ids ↔ InScope documents scope id := by
  cases scope with
  | ids listed =>
    obtain ⟨_, -, rest⟩ := (eval_bind_eq_ok _).mp resolved
    rw [eval_pure, ok.injEq] at rest
    subst rest
    exact ⟨orderedIds_nodup _, fun id => mem_orderedIds listed id⟩
  | subject subject =>
    rw [resolveScope, eval_ask, ok.injEq] at resolved
    subst resolved
    simp only [answer]
    refine ⟨orderedIds_nodup _, fun id => ?_⟩
    rw [mem_orderedIds, mirrors.mem_subjectIds]
    rfl
  | entity entity =>
    rw [resolveScope, eval_ask, ok.injEq] at resolved
    subst resolved
    simp only [answer]
    refine ⟨orderedIds_nodup _, fun id => ?_⟩
    rw [mem_orderedIds, mirrors.mem_entityIds]
    rfl
  | ingestedBefore time | eventBefore time =>
    rw [resolveScope, eval_ask, ok.injEq] at resolved
    subst resolved
    refine ⟨scan_nodup _, fun id => (mem_scan _ id).trans ?_⟩
    simp only [InScope, Option.any_eq_true, decide_eq_true_eq]
  | matching filter =>
    obtain ⟨_, -, rest⟩ := (eval_bind_eq_ok _).mp resolved
    obtain ⟨_, -, rest⟩ := (eval_bind_eq_ok _).mp rest
    rw [eval_ask, ok.injEq] at rest
    subst rest
    refine ⟨scan_nodup _, fun id => (mem_scan _ id).trans ?_⟩
    simp only [InScope, Bool.and_eq_true]

theorem Index.Mirrors.arrow_neighbours (mirrors : index.Mirrors documents) :
    Reachability.Arrow index.neighbours = Linked documents := by
  funext a b
  apply propext
  unfold Reachability.Arrow Index.neighbours Linked
  rw [mem_append, mirrors.coherent.mirrored, mirrors.links, mem_map, ← mirrors.links a b]
  rfl

theorem planComponents_ok (mirrors : index.Mirrors documents)
    (planned : (planComponents ids).eval (answer documents index) = .ok found) (id : String) :
    id ∈ found ↔ ∃ first ∈ ids, Relation.ReflTransGen (Linked documents) first id := by
  induction ids generalizing found with
  | nil =>
    unfold planComponents at planned
    rw [eval_pure, ok.injEq] at planned
    subst planned
    simp
  | cons first ids ih =>
    unfold planComponents at planned
    obtain ⟨component, asked, rest⟩ := (eval_bind_eq_ok _).mp planned
    obtain ⟨later, others, rest⟩ := (eval_bind_eq_ok _).mp rest
    rw [eval_ask, ok.injEq] at asked
    rw [eval_pure, ok.injEq] at rest
    subst asked rest
    simp only [answer]
    rw [mem_append, mem_orderedIds, index.mem_component_iff, mirrors.arrow_neighbours, ih others,
      exists_mem_cons_iff]

theorem planStamps_ok (planned : (planStamps ids).eval (answer documents index) = .ok stamps) :
    (stamps.map fst).Sublist ids ∧ Index.StoredAs documents stamps ∧
      ∀ id ∈ ids, documents[id]?.isSome = true → id ∈ stamps.map fst := by
  induction ids generalizing stamps with
  | nil =>
    unfold planStamps at planned
    rw [eval_pure, ok.injEq] at planned
    subst planned
    exact ⟨List.Sublist.slnil, forall_mem_nil _,
      forall_mem_nil _⟩
  | cons first ids ih =>
    unfold planStamps at planned
    obtain ⟨found, asked, rest⟩ := (eval_bind_eq_ok _).mp planned
    rw [eval_ask, ok.injEq] at asked
    simp only [answer] at asked
    cases found with
    | none =>
      obtain ⟨sublist, stored, complete⟩ := ih rest
      refine ⟨sublist.cons first, stored, fun id member some => ?_⟩
      rcases mem_cons.mp member with rfl | later
      · rw [asked] at some
        simp at some
      · exact complete id later some
    | some parts =>
      obtain ⟨later, others, rest⟩ := (eval_bind_eq_ok _).mp rest
      rw [eval_pure, ok.injEq] at rest
      subst rest
      obtain ⟨sublist, stored, complete⟩ := ih others
      refine ⟨sublist.cons_cons first, fun entry member => ?_, fun id member some => ?_⟩
      · rcases mem_cons.mp member with rfl | later
        · exact ⟨parts, asked, rfl⟩
        · exact stored entry later
      · rcases mem_cons.mp member with rfl | later
        · exact mem_cons_self
        · exact mem_cons_of_mem _ (complete id later some)

structure Removes (documents : Documents) (scope : ForgetScope) (options : ForgetOptions)
    (stamps : List (String × Stamp)) : Prop where
  distinct : (stamps.map fst).Nodup
  stored : Index.StoredAs documents stamps
  selected : ∀ id, id ∈ stamps.map fst ↔ documents[id]?.isSome = true ∧ Selected documents scope options id

theorem planForgotten_ok (mirrors : index.Mirrors documents)
    (planned : (planForgotten scope options).eval (answer documents index) = .ok stamps) :
    Removes documents scope options stamps := by
  unfold planForgotten at planned
  obtain ⟨resolved, scoped', rest⟩ := (eval_bind_eq_ok _).mp planned
  obtain ⟨distinct, within⟩ := resolveScope_ok mirrors scoped'
  have finish {ids : List String} (once : ids.Nodup) (selects : ∀ id, id ∈ ids ↔ Selected documents scope options id)
      (rest : (planStamps ids).eval (answer documents index) = .ok stamps) : Removes documents scope options stamps := by
    obtain ⟨sublist, stored, complete⟩ := planStamps_ok rest
    refine ⟨once.sublist sublist, stored, fun id => ⟨fun member => ?_, fun both => ?_⟩⟩
    · obtain ⟨entry, listed, rfl⟩ := mem_map.mp member
      obtain ⟨parts, found, -⟩ := stored entry listed
      exact ⟨by rw [found]; rfl, (selects _).mp (sublist.subset member)⟩
    · exact complete id ((selects id).mpr both.2) both.1
  split at rest
  · next chain =>
    obtain ⟨ids, widened, rest⟩ := (eval_bind_eq_ok _).mp rest
    obtain ⟨components, found, same⟩ := (eval_bind_eq_ok _).mp widened
    rw [eval_pure, ok.injEq] at same
    subst same
    refine finish (orderedIds_nodup _) (fun id => ?_) rest
    unfold Selected
    rw [if_pos chain, mem_orderedIds, planComponents_ok mirrors found]
    simp only [within]
  · next alone =>
    refine finish distinct (fun id => ?_) rest
    unfold Selected
    rw [if_neg alone, within]

end Scope

section Rewrites

variable {documents : Documents} {index : Index} {dead : List String}

theorem planSuperseders_ok (mirrors : index.Mirrors documents)
    (planned : (planSuperseders ids).eval (answer documents index) = .ok found) (by_ : String) :
    by_ ∈ found ↔ ∃ old ∈ ids, Supersedes documents old by_ := by
  induction ids generalizing found with
  | nil =>
    unfold planSuperseders at planned
    rw [eval_pure, ok.injEq] at planned
    subst planned
    simp
  | cons first ids ih =>
    unfold planSuperseders at planned
    obtain ⟨superseders, asked, rest⟩ := (eval_bind_eq_ok _).mp planned
    obtain ⟨later, others, rest⟩ := (eval_bind_eq_ok _).mp rest
    rw [eval_ask, ok.injEq] at asked
    rw [eval_pure, ok.injEq] at rest
    subst asked rest
    simp only [answer]
    rw [mem_append, mem_orderedIds, mem_map, ih others, exists_mem_cons_iff, ← mirrors.links first by_]
    rfl

/-- A stored survivor with its links through dead facts rewritten. -/
structure Relinked (documents : Documents) (dead : List String) (entry : String × DocumentParts) : Prop where
  survives : entry.1 ∉ dead
  stored : ∃ parts stamp bridged, documents[entry.1]? = some parts ∧ parts.stamp = some stamp ∧
    (∀ id ∈ bridged, id ∉ dead ∧ Relation.TransGen (fun a b => Supersedes documents b a) entry.1 id) ∧
    entry.2 = { parts with text := some (parts.text.getD ""), stamp := some (relinkedStamp stamp dead bridged) }

theorem mem_bridge_chain (mirrors : index.Mirrors documents) {survivor id : String}
    (member : id ∈ orderedIds (index.bridge survivor dead.contains)) :
    id ∉ dead ∧ Relation.TransGen (fun a b => Supersedes documents b a) survivor id := by
  rw [mem_orderedIds, index.mem_bridge_iff] at member
  obtain ⟨alive, first, direct, chain⟩ := member
  refine ⟨by simpa using alive, ?_⟩
  have start : Supersedes documents first survivor :=
    (mirrors.links first survivor).mp ((mirrors.coherent.mirrored survivor first).mp direct)
  refine Relation.TransGen.head' start (Relation.ReflTransGen.mono (fun a b arrow => ?_) first id chain)
  unfold Reachability.Arrow Index.passOn at arrow
  split at arrow
  · exact (mirrors.links b a).mp ((mirrors.coherent.mirrored a b).mp arrow)
  · exact absurd arrow not_mem_nil

theorem planRewrites_ok (mirrors : index.Mirrors documents) (alive : ∀ id ∈ survivors, id ∉ dead)
    (planned : (planRewrites dead survivors).eval (answer documents index) = .ok rewrites) :
    (rewrites.map fst).Sublist survivors ∧ (∀ entry ∈ rewrites, Relinked documents dead entry) ∧
      ∀ survivor ∈ survivors, survivor ∉ rewrites.map fst → ∀ stamp, trackedStamp documents survivor = some stamp →
        ∀ old ∈ stamp.supersedes, old ∉ dead := by
  induction survivors generalizing rewrites with
  | nil =>
    unfold planRewrites at planned
    rw [eval_pure, ok.injEq] at planned
    subst planned
    exact ⟨List.Sublist.slnil, forall_mem_nil _,
      forall_mem_nil _⟩
  | cons survivor survivors ih =>
    have others : ∀ id ∈ survivors, id ∉ dead := (forall_mem_cons.mp alive).2
    -- a survivor that is not rewritten, before the others
    have skipped (plain : ∀ stamp, trackedStamp documents survivor = some stamp → ∀ old ∈ stamp.supersedes, old ∉ dead)
        (rest : (planRewrites dead survivors).eval (answer documents index) = .ok rewrites) :
        (rewrites.map fst).Sublist (survivor :: survivors) ∧ (∀ entry ∈ rewrites, Relinked documents dead entry) ∧
          ∀ id ∈ survivor :: survivors, id ∉ rewrites.map fst → ∀ stamp, trackedStamp documents id = some stamp →
            ∀ old ∈ stamp.supersedes, old ∉ dead := by
      obtain ⟨sublist, relinked, kept⟩ := ih others rest
      refine ⟨sublist.cons survivor, relinked, fun id member apart => ?_⟩
      rcases mem_cons.mp member with rfl | later
      · exact plain
      · exact kept id later apart
    unfold planRewrites at planned
    obtain ⟨found, asked, rest⟩ := (eval_bind_eq_ok _).mp planned
    rw [eval_ask, ok.injEq] at asked
    simp only [answer] at asked
    cases found with
    | none =>
      refine skipped (fun stamp tracked => ?_) rest
      obtain ⟨⟨parts, own, -⟩, -⟩ := Index.trackedStamp_eq_some.mp tracked
      rw [asked] at own
      simp at own
    | some parts =>
      have tracked {stamp : Stamp} (own : trackedStamp documents survivor = some stamp) : parts.stamp = some stamp := by
        obtain ⟨⟨other, again, stamped⟩, -⟩ := Index.trackedStamp_eq_some.mp own
        rw [asked, Option.some.injEq] at again
        rw [again]
        exact stamped
      simp only at rest
      split at rest
      · next none =>
        refine skipped (fun stamp own => ?_) rest
        have stamped := tracked own
        rw [none] at stamped
        simp at stamped
      · next stamp stamped =>
        obtain ⟨bridged, asked', rest⟩ := (eval_bind_eq_ok _).mp rest
        rw [eval_ask, ok.injEq] at asked'
        simp only [answer] at asked'
        obtain ⟨later, planned', rest⟩ := (eval_bind_eq_ok _).mp rest
        have chains : ∀ id ∈ bridged, id ∉ dead ∧ Relation.TransGen (fun a b => Supersedes documents b a) survivor id := by
          intro id member
          rw [← asked'] at member
          exact mem_bridge_chain mirrors member
        split at rest
        · next same =>
          rw [eval_pure, ok.injEq] at rest
          subst rest
          refine skipped (fun other own => ?_) planned'
          have equal : stamp = other := by simpa [stamped] using tracked own
          subst equal
          intro old member
          have inside : old ∈ (relinkedStamp stamp dead bridged).supersedes := by
            rw [same.1, mem_sortIds]
            exact member
          unfold relinkedStamp at inside
          rw [mem_orderedIds, mem_append, mem_filter] at inside
          rcases inside with ⟨-, apart⟩ | bridge
          · simpa using apart
          · exact (chains old bridge).1
        · rw [eval_pure, ok.injEq] at rest
          subst rest
          obtain ⟨sublist, relinked, kept⟩ := ih others planned'
          refine ⟨sublist.cons_cons survivor, fun entry member => ?_, fun id member apart => ?_⟩
          · rcases mem_cons.mp member with rfl | later
            · exact ⟨alive survivor mem_cons_self, parts, stamp, bridged, asked, stamped, chains, rfl⟩
            · exact relinked entry later
          · rcases mem_cons.mp member with rfl | later
            · exact absurd mem_cons_self apart
            · exact kept id later fun listed => apart (mem_cons_of_mem _ listed)

/-- The rewrites before dead facts go. -/
structure Rewrites (documents : Documents) (dead : List String) (rewrites : List (String × DocumentParts)) : Prop where
  distinct : (rewrites.map fst).Nodup
  relinked : ∀ entry ∈ rewrites, Relinked documents dead entry
  superseder : ∀ entry ∈ rewrites, ∃ old ∈ dead, Supersedes documents old entry.1
  /-- Every survivor that names a dead fact as superseded is rewritten. -/
  complete : ∀ survivor, survivor ∉ dead → survivor ∉ rewrites.map fst → ∀ stamp,
    trackedStamp documents survivor = some stamp → ∀ old ∈ stamp.supersedes, old ∉ dead

theorem bridgeSurvivors_ok (mirrors : index.Mirrors documents)
    (planned : (bridgeSurvivors dead).eval (answer documents index) = .ok rewrites) : Rewrites documents dead rewrites := by
  unfold bridgeSurvivors at planned
  obtain ⟨superseders, found, rest⟩ := (eval_bind_eq_ok _).mp planned
  have survivors (id : String) : id ∈ orderedIds (superseders.filter fun by_ => !dead.contains by_) ↔
      (∃ old ∈ dead, Supersedes documents old id) ∧ id ∉ dead := by
    rw [mem_orderedIds, mem_filter, planSuperseders_ok mirrors found]
    simp
  obtain ⟨sublist, relinked, kept⟩ := planRewrites_ok mirrors (fun id member => ((survivors id).mp member).2) rest
  refine ⟨(orderedIds_nodup _).sublist sublist, relinked, fun entry member => ?_, fun survivor alive apart stamp tracked old own => ?_⟩
  · exact ((survivors entry.1).mp (sublist.subset (mem_map_of_mem member))).1
  · intro removed
    have listed := (survivors survivor).mpr ⟨⟨old, removed, .inl ⟨stamp, tracked, own⟩⟩, alive⟩
    exact kept survivor listed apart stamp tracked old own removed

end Rewrites

end Warm.Memory
