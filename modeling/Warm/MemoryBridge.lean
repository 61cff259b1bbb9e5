import Warm.MemoryForget

/-! What a forget plans to rewrite, in closed form, and the chains between surviving facts while its rewrites and removals
come in: a rewritten survivor links to all it reaches through dead facts. -/
namespace Warm.Memory

open Interleaving World List

variable {index : Index}

section Plans

variable {documents : Documents} {index : Index} {dead : List String}

def rewriteOf (documents : Documents) (index : Index) (dead : List String) (survivor : String) :
    Option (String × DocumentParts) :=
  documents[survivor]?.bind fun parts => parts.stamp.bind fun stamp =>
    let relinked := relinkedStamp stamp dead (orderedIds (index.bridge survivor dead.contains))
    if relinked.supersedes = sortIds stamp.supersedes ∧ relinked.supersededBy = stamp.supersededBy then none
    else some (survivor, { parts with text := some (parts.text.getD ""), stamp := some relinked })

/-- The survivors that supersede one of the dead facts. -/
def affected (index : Index) (dead : List String) : List String :=
  orderedIds ((dead.flatMap fun id => orderedIds ((index.edges id).map (·.by_))).filter fun by_ => !dead.contains by_)

/-- The rewrites a forget of the dead facts plans over some documents. -/
def rewritesOf (documents : Documents) (dead : List String) : List (String × DocumentParts) :=
  (affected (Index.rebuild documents 0) dead).filterMap (rewriteOf documents (Index.rebuild documents 0) dead)

end Plans

section Bridges

variable {documents : Documents} {dead : List String}

/-- The first fact is dead and supersedes the second. -/
def DeadStep (documents : Documents) (dead : List String) (newer old : String) : Prop :=
  newer ∈ dead ∧ Supersedes documents old newer

/-- The first fact supersedes the second directly or through dead facts alone. -/
def Reaches (documents : Documents) (dead : List String) (newer old : String) : Prop :=
  ∃ first, Supersedes documents first newer ∧ Relation.ReflTransGen (DeadStep documents dead) first old

section

variable (mirrors : index.Mirrors documents)
include mirrors

theorem mem_bridge (survivor id : String) :
    id ∈ orderedIds (index.bridge survivor dead.contains) ↔ id ∉ dead ∧ Reaches documents dead survivor id := by
  have link (a b : String) : b ∈ index.directPredecessors a ↔ Supersedes documents b a := by
    rw [mirrors.coherent.mirrored, mirrors.links]
  have arrows : Reachability.Arrow (index.passOn dead.contains) = DeadStep documents dead := by
    funext a b
    apply propext
    unfold Reachability.Arrow Index.passOn DeadStep
    rw [← link]
    by_cases gone : a ∈ dead
    · simp [gone]
    · simp [gone]
  rw [mem_orderedIds, index.mem_bridge_iff, arrows]
  simp only [link, Reaches]
  simp

theorem rewriteOf_some {entry : String × DocumentParts}
    (rewrite : rewriteOf documents index dead survivor = some entry) :
    entry.1 = survivor ∧ ∃ parts stamp stamp', documents[survivor]? = some parts ∧ parts.stamp = some stamp ∧
      entry.2 = { parts with text := some (parts.text.getD ""), stamp := some stamp' } ∧
      (∃ bridged, stamp' = relinkedStamp stamp dead bridged) ∧
      (∀ id, id ∈ stamp'.supersedes ↔ id ∉ dead ∧ (id ∈ stamp.supersedes ∨ Reaches documents dead survivor id)) ∧
      ∀ id, id ∈ stamp'.supersededBy ↔ id ∉ dead ∧ id ∈ stamp.supersededBy := by
  unfold rewriteOf at rewrite
  obtain ⟨parts, found, rest⟩ := Option.bind_eq_some_iff.mp rewrite
  obtain ⟨stamp, stamped, rest⟩ := Option.bind_eq_some_iff.mp rest
  simp only at rest
  split at rest
  · simp at rest
  · obtain rfl := Option.some.inj rest
    refine ⟨rfl, parts, stamp, _, found, stamped, rfl, ⟨_, rfl⟩, fun id => ?_, fun id => ?_⟩
    · simp only [relinkedStamp]
      rw [mem_orderedIds, mem_append, mem_filter, mem_bridge mirrors]
      simp only [contains_eq_mem, Bool.not_eq_true', decide_eq_false_iff_not]
      tauto
    · simp only [relinkedStamp]
      rw [mem_filter]
      simp only [contains_eq_mem, Bool.not_eq_true', decide_eq_false_iff_not]
      tauto

theorem rewriteOf_none
    (kept : rewriteOf documents index dead survivor = none) {parts : DocumentParts} {stamp : Stamp}
    (found : documents[survivor]? = some parts) (stamped : parts.stamp = some stamp) :
    (∀ id ∉ dead, Reaches documents dead survivor id → id ∈ stamp.supersedes) ∧ (∀ id ∈ stamp.supersedes, id ∉ dead) ∧
      ∀ id ∈ stamp.supersededBy, id ∉ dead := by
  unfold rewriteOf at kept
  rw [found, Option.bind_some, stamped, Option.bind_some] at kept
  simp only at kept
  split at kept
  · next same =>
    have named (id : String) : id ∈ stamp.supersedes ↔
        (id ∈ stamp.supersedes ∧ id ∉ dead) ∨ id ∉ dead ∧ Reaches documents dead survivor id := by
      have both := congrArg (fun ids => id ∈ ids) same.1
      simp only [relinkedStamp, mem_orderedIds, mem_append, mem_bridge mirrors, mem_filter, mem_sortIds] at both
      rw [eq_comm, eq_iff_iff] at both
      simpa using both
    refine ⟨fun id alive reached => (named id).mpr (.inr ⟨alive, reached⟩), fun id member => ?_, ?_⟩
    · rcases (named id).mp member with own | bridge
      · exact own.2
      · exact bridge.1
    · intro id hint
      rw [← same.2] at hint
      simp only [relinkedStamp, mem_filter] at hint
      simpa using hint.2
  · simp at kept

theorem mem_affected (id : String) :
    id ∈ affected index dead ↔ (∃ old ∈ dead, Supersedes documents old id) ∧ id ∉ dead := by
  unfold affected
  rw [mem_orderedIds, mem_filter, mem_flatMap]
  simp only [mem_orderedIds, mem_map, ← mirrors.links, Index.Links]
  simp

end

end Bridges

section Partway

variable {documents now : Documents} {dead gone : List String} {linked : List (String × DocumentParts)}

/-- The first fact supersedes the second. -/
def Newer (documents : Documents) (newer old : String) : Prop :=
  Supersedes documents old newer

/-- The documents of a forget under way: some of its rewrites are in, and some of its removals once all rewrites are. -/
structure Partway (documents : Documents) (dead : List String) (linked : List (String × DocumentParts)) (gone : List String)
    (now : Documents) : Prop where
  distinct : (linked.map Prod.fst).Nodup
  within : ∀ entry ∈ linked, entry ∈ rewritesOf documents dead
  removed : ∀ id ∈ gone, id ∈ dead
  order : gone = [] ∨ ∀ entry ∈ rewritesOf documents dead, entry ∈ linked
  now : ∀ id, now[id]? = if id ∈ gone then none else
    ((linked.find? fun entry => decide (entry.1 = id)).map Prod.snd).or documents[id]?

/-- A rewritten survivor does not alone, by its hint, hold the end of a chain of dead facts that begins at a survivor
still to be rewritten. -/
def Steady (documents : Documents) (dead : List String) (linked : List (String × DocumentParts)) : Prop :=
  ∀ entry ∈ linked, ∀ later ∈ rewritesOf documents dead, later ∉ linked → ∀ id ∈ dead, Reaches documents dead later.1 id →
    (∃ stamp, trackedStamp documents entry.1 = some stamp ∧ id ∈ stamp.supersededBy) →
      ∃ stamp, trackedStamp documents id = some stamp ∧ entry.1 ∈ stamp.supersedes

theorem mem_rewritesOf (member : entry ∈ rewritesOf documents dead) :
    (∃ old ∈ dead, Supersedes documents old entry.1) ∧ entry.1 ∉ dead ∧
      rewriteOf documents (Index.rebuild documents 0) dead entry.1 = some entry := by
  obtain ⟨survivor, listed, rewrite⟩ := mem_filterMap.mp member
  have mirrors := Index.rebuild_mirrors documents 0
  obtain ⟨superseder, alive⟩ := (mem_affected mirrors survivor).mp listed
  obtain ⟨rfl, -⟩ := rewriteOf_some mirrors rewrite
  exact ⟨superseder, alive, rewrite⟩

theorem Supersedes.tracked (supersedes : Supersedes documents old newer) :
    ∃ stamp, trackedStamp documents newer = some stamp := by
  rcases supersedes with ⟨stamp, tracked, -⟩ | ⟨-, -, -, tracked⟩
  · exact ⟨stamp, tracked⟩
  · exact Option.isSome_iff_exists.mp tracked

section

variable (state : Partway documents dead linked gone now)
include state

theorem Partway.found (member : entry ∈ linked) :
    now[entry.1]? = some entry.2 := by
  have alive : entry.1 ∉ gone := fun gone' => (mem_rewritesOf (state.within entry member)).2.1 (state.removed _ gone')
  have first := (find?_key_eq_some state.distinct entry.1 entry).mpr ⟨member, rfl⟩
  rw [state.now, if_neg alive, first]
  rfl

theorem Partway.unlinked {id : String} (apart : id ∉ linked.map Prod.fst)
    (stays : id ∉ gone) : trackedStamp now id = trackedStamp documents id := by
  have absent : (linked.find? fun entry => decide (entry.1 = id)) = none := by
    rw [find?_eq_none]
    intro entry member same
    exact apart (mem_map.mpr ⟨entry, member, of_decide_eq_true same⟩)
  unfold trackedStamp
  rw [state.now, if_neg stays, absent]
  rfl

theorem Partway.relinked (member : entry ∈ linked) :
    ∃ stamp stamp', trackedStamp documents entry.1 = some stamp ∧
      (trackedStamp now entry.1 = if stamp'.tracked then some stamp' else none) ∧
      (∀ id, id ∈ stamp'.supersedes ↔ id ∉ dead ∧ (id ∈ stamp.supersedes ∨ Reaches documents dead entry.1 id)) ∧
      ∀ id, id ∈ stamp'.supersededBy ↔ id ∉ dead ∧ id ∈ stamp.supersededBy := by
  obtain ⟨⟨old, -, supersedes⟩, -, rewrite⟩ := mem_rewritesOf (state.within entry member)
  obtain ⟨-, parts, stamp, stamp', found, stamped, new, -, olds, hints⟩ :=
    rewriteOf_some (Index.rebuild_mirrors documents 0) rewrite
  obtain ⟨own, tracked⟩ := supersedes.tracked
  obtain ⟨⟨parts', found', stamped'⟩, -⟩ := Index.trackedStamp_eq_some.mp tracked
  rw [found, Option.some.injEq] at found'
  subst found'
  rw [stamped, Option.some.injEq] at stamped'
  subst stamped'
  refine ⟨stamp, stamp', tracked, ?_, olds, hints⟩
  unfold trackedStamp
  rw [state.found member, new]
  simp [Option.filter]

end

theorem tracked_of_supersedes {stamp : Stamp} (member : old ∈ stamp.supersedes) : stamp.tracked = true := by
  have some : stamp.supersedes.isEmpty = false := by
    cases own : stamp.supersedes with
    | nil => simp [own] at member
    | cons => rfl
  simp [Stamp.tracked, some]

theorem tracked_of_supersededBy {stamp : Stamp} (member : by_ ∈ stamp.supersededBy) : stamp.tracked = true := by
  have some : stamp.supersededBy.isEmpty = false := by
    cases own : stamp.supersededBy with
    | nil => simp [own] at member
    | cons => rfl
  simp [Stamp.tracked, some]

theorem Partway.sound (state : Partway documents dead linked gone now) (link : Newer now newer old) :
    Relation.TransGen (Newer documents) newer old := by
  have present {id : String} {stamp : Stamp} (tracked : trackedStamp now id = some stamp) : id ∉ gone := by
    intro member
    obtain ⟨⟨parts, found, -⟩, -⟩ := Index.trackedStamp_eq_some.mp tracked
    rw [state.now, if_pos member] at found
    simp at found
  have was {id : String} {stamp : Stamp} (tracked : trackedStamp now id = some stamp) :
      ∃ stamp, trackedStamp documents id = some stamp := by
    by_cases inside : id ∈ linked.map Prod.fst
    · obtain ⟨entry, member, rfl⟩ := mem_map.mp inside
      obtain ⟨own, -, before, -⟩ := state.relinked member
      exact ⟨own, before⟩
    · exact ⟨stamp, state.unlinked inside (present tracked) ▸ tracked⟩
  rcases link with ⟨stamp, tracked, named⟩ | ⟨stamp, tracked, hint, superseder⟩
  · by_cases inside : newer ∈ linked.map Prod.fst
    · obtain ⟨entry, member, rfl⟩ := mem_map.mp inside
      obtain ⟨own, own', before, after, olds, -⟩ := state.relinked member
      rw [after] at tracked
      split at tracked
      · obtain rfl := Option.some.inj tracked
        rcases ((olds old).mp named).2 with direct | ⟨first, start, path⟩
        · exact .single (.inl ⟨own, before, direct⟩)
        · refine Relation.TransGen.head' start ?_
          exact Relation.ReflTransGen.mono (fun _ _ step => step.2) first old path
      · simp at tracked
    · exact .single (.inl ⟨stamp, state.unlinked inside (present tracked) ▸ tracked, named⟩)
  · obtain ⟨other, tracked'⟩ := Option.isSome_iff_exists.mp superseder
    obtain ⟨_, before'⟩ := was tracked'
    by_cases inside : old ∈ linked.map Prod.fst
    · obtain ⟨entry, member, rfl⟩ := mem_map.mp inside
      obtain ⟨own, own', before, after, -, hints⟩ := state.relinked member
      rw [after] at tracked
      split at tracked
      · obtain rfl := Option.some.inj tracked
        exact .single (.inr ⟨own, before, ((hints newer).mp hint).2, by rw [before']; rfl⟩)
      · simp at tracked
    · exact .single (.inr ⟨stamp, state.unlinked inside (present tracked) ▸ tracked, hint, by rw [before']; rfl⟩)

theorem chain_of_stretches (alive : newer ∉ dead) (alive' : old ∉ dead)
    (chain : Relation.TransGen (Newer documents) newer old) :
    Relation.TransGen (fun a b => a ∉ dead ∧ b ∉ dead ∧ Reaches documents dead a b) newer old := by
  -- from a dead fact the chain first comes to a survivor
  have claim : ∀ start, Relation.TransGen (Newer documents) start old →
      (start ∉ dead → Relation.TransGen (fun a b => a ∉ dead ∧ b ∉ dead ∧ Reaches documents dead a b) start old) ∧
      (start ∈ dead → ∃ next, next ∉ dead ∧ Relation.ReflTransGen (DeadStep documents dead) start next ∧
        (next = old ∨ Relation.TransGen (fun a b => a ∉ dead ∧ b ∉ dead ∧ Reaches documents dead a b) next old)) := by
    intro start chain
    induction chain using Relation.TransGen.head_induction_on with
    | single link =>
      exact ⟨fun alive => .single ⟨alive, alive', _, link, .refl⟩, fun gone => ⟨old, alive', .single ⟨gone, link⟩, .inl rfl⟩⟩
    | @head start middle link _ ih =>
      by_cases between : middle ∈ dead
      · obtain ⟨next, stays, path, rest⟩ := ih.2 between
        refine ⟨fun alive => ?_, fun gone => ⟨next, stays, .head ⟨gone, link⟩ path, rest⟩⟩
        have stretch : Reaches documents dead start next := ⟨middle, link, path⟩
        rcases rest with rfl | rest
        · exact .single ⟨alive, stays, stretch⟩
        · exact .head ⟨alive, stays, stretch⟩ rest
      · exact ⟨fun alive => .head ⟨alive, between, middle, link, .refl⟩ (ih.1 between),
          fun gone => ⟨middle, between, .single ⟨gone, link⟩, .inr (ih.1 between)⟩⟩
  exact (claim newer chain).1 alive

section

variable (state : Partway documents dead linked gone now) (steady : Steady documents dead linked)
include state steady

theorem Partway.stretch
    {newer old : String} (alive : newer ∉ dead) (alive' : old ∉ dead) (reaches : Reaches documents dead newer old) :
    Relation.TransGen (Newer now) newer old := by
  have stays {id : String} (alive : id ∉ dead) : id ∉ gone := fun gone' => alive (state.removed id gone')
  obtain ⟨first, start, path⟩ := reaches
  by_cases inside : newer ∈ linked.map Prod.fst
  · -- a rewritten survivor names all it reaches
    obtain ⟨entry, member, rfl⟩ := mem_map.mp inside
    obtain ⟨_, own, -, after, olds, -⟩ := state.relinked member
    have named : old ∈ own.supersedes := (olds old).mpr ⟨alive', .inr ⟨first, start, path⟩⟩
    rw [if_pos (tracked_of_supersedes named)] at after
    exact .single (.inl ⟨own, after, named⟩)
  obtain ⟨stamp, tracked⟩ := start.tracked
  have tracked' : trackedStamp now newer = some stamp := by rw [state.unlinked inside (stays alive), tracked]
  by_cases between : first ∈ dead
  · cases rewrite : rewriteOf documents (Index.rebuild documents 0) dead newer with
    | none =>
      -- it named all it reaches before
      obtain ⟨⟨parts, found, stamped⟩, -⟩ := Index.trackedStamp_eq_some.mp tracked
      have named := (rewriteOf_none (Index.rebuild_mirrors documents 0) rewrite found stamped).1 old alive' ⟨first, start, path⟩
      exact .single (.inl ⟨stamp, tracked', named⟩)
    | some later =>
      -- it is still to be rewritten: the stretch stands as long as no hint that ends it is dropped
      obtain ⟨rfl, -⟩ := rewriteOf_some (Index.rebuild_mirrors documents 0) rewrite
      have planned : later ∈ rewritesOf documents dead :=
        mem_filterMap.mpr ⟨later.1, (mem_affected (Index.rebuild_mirrors documents 0) _).mpr ⟨⟨first, between, start⟩, alive⟩,
          rewrite⟩
      have waits : later ∉ linked := fun member => inside (mem_map_of_mem member)
      have none : gone = [] := by
        rcases state.order with none | all
        · exact none
        · exact absurd (all later planned) waits
      have untouched {id : String} (gone' : id ∈ dead) : trackedStamp now id = trackedStamp documents id := by
        refine state.unlinked (fun listed => ?_) (by rw [none]; exact not_mem_nil)
        obtain ⟨entry, member, rfl⟩ := mem_map.mp listed
        exact (mem_rewritesOf (state.within entry member)).2.1 gone'
      have still : Newer now later.1 first := by
        rcases start with ⟨own, own', named⟩ | ⟨own, own', hint, -⟩
        · exact .inl ⟨own, by rw [state.unlinked inside (stays alive), own'], named⟩
        · exact .inr ⟨own, by rw [untouched between, own'], hint, by rw [tracked']; rfl⟩
      clear alive'
      have claim : ∀ end_, Relation.ReflTransGen (DeadStep documents dead) first end_ →
          Relation.TransGen (Newer now) later.1 end_ := by
        intro end_ path
        induction path with
        | refl => exact .single still
        | @tail middle end_ before step ih =>
          refine ih.tail ?_
          obtain ⟨dead', step⟩ := step
          rcases step with ⟨own, own', named⟩ | ⟨own, own', hint, superseder⟩
          · exact .inl ⟨own, by rw [untouched dead', own'], named⟩
          · by_cases moved : end_ ∈ linked.map Prod.fst
            · obtain ⟨entry, member, rfl⟩ := mem_map.mp moved
              obtain ⟨own, own', named⟩ := steady entry member later planned waits middle dead' ⟨first, start, before⟩
                ⟨own, own', hint⟩
              exact .inl ⟨own, by rw [untouched dead', own'], named⟩
            · refine .inr ⟨own, ?_, hint, by rw [untouched dead']; exact superseder⟩
              rw [state.unlinked moved (by rw [none]; exact not_mem_nil), own']
      exact claim old path
  · -- a link between survivors
    have end_ : first = old := by
      cases path.cases_head with
      | inl same => exact same
      | inr step =>
        obtain ⟨_, ⟨gone', -⟩, -⟩ := step
        exact absurd gone' between
    subst end_
    rcases start with ⟨own, own', named⟩ | ⟨own, own', hint, -⟩
    · exact .single (.inl ⟨own, by rw [state.unlinked inside (stays alive), own'], named⟩)
    · refine .single (.inr ?_)
      by_cases moved : first ∈ linked.map Prod.fst
      · obtain ⟨entry, member, rfl⟩ := mem_map.mp moved
        obtain ⟨before, after, was, is_, -, hints⟩ := state.relinked member
        rw [own', Option.some.injEq] at was
        subst was
        have kept := (hints newer).mpr ⟨alive, hint⟩
        rw [if_pos (tracked_of_supersededBy kept)] at is_
        exact ⟨after, is_, kept, by rw [tracked']; rfl⟩
      · exact ⟨own, by rw [state.unlinked moved (stays alive'), own'], hint, by rw [tracked']; rfl⟩

theorem Partway.chains
    (alive : newer ∉ dead) (alive' : old ∉ dead) :
    Relation.TransGen (Newer documents) newer old ↔ Relation.TransGen (Newer now) newer old := by
  constructor
  · intro chain
    refine Relation.TransGen.closed (fun a b stretch => ?_) _ _ (chain_of_stretches alive alive' chain)
    exact state.stretch steady stretch.1 stretch.2.1 stretch.2.2
  · intro chain
    exact Relation.TransGen.closed (fun a b link => state.sound link) _ _ chain

end

theorem Steady.whole (all : ∀ entry ∈ rewritesOf documents dead, entry ∈ linked) : Steady documents dead linked :=
  fun _ _ later planned waits => absurd (all later planned) waits

theorem Partway.stored (state : Partway documents dead linked gone now) {id : String} (found : now[id]? = some parts') :
    ∃ parts, documents[id]? = some parts ∧ (parts' = parts ∨ SameButLinks parts parts') := by
  rw [state.now] at found
  split at found
  · simp at found
  · cases own : linked.find? fun entry => decide (entry.1 = id) with
    | none =>
      rw [own] at found
      exact ⟨parts', found, .inl rfl⟩
    | some entry =>
      rw [own] at found
      simp only [Option.map_some, Option.some_or, Option.some.injEq] at found
      subst found
      have member := mem_of_find?_eq_some own
      have same : entry.1 = id := by
        simpa using find?_some (p := fun entry : String × DocumentParts => decide (entry.1 = id)) own
      obtain ⟨-, -, rewrite⟩ := mem_rewritesOf (state.within entry member)
      obtain ⟨-, parts, stamp, stamp', found, stamped, new, ⟨bridged, relinked⟩, -⟩ :=
        rewriteOf_some (Index.rebuild_mirrors documents 0) rewrite
      refine ⟨parts, same ▸ found, .inr ⟨stamp, stamp'.supersedes, stamp'.supersededBy, stamped, ?_⟩⟩
      rw [new, relinked]
      rfl

end Partway

end Warm.Memory
