import Warm.MemoryRemember

/-! Forgetting among other calls: a forget that returns has removed what its scope selected at the revision it planned at,
one transaction after another with no other writer between, and reports exactly what its transactions removed. -/
namespace Warm.Memory

open List hiding after length

open Interleaving World

variable {trace trace' : List (Event Command Command.Reply World)} {id : String} {transaction : Transaction}

section Batches

variable {α : Type}

theorem batchesOf_flatten (fuel : Nat) (items : List α) (enough : items.length ≤ fuel) :
    (batchesOf fuel items).flatten = items := by
  induction fuel generalizing items with
  | zero =>
    rw [eq_nil_of_length_eq_zero (Nat.le_zero.mp enough)]
    rfl
  | succ fuel ih =>
    cases items with
    | nil => rfl
    | cons item items =>
      have fewer : ((item :: items).drop MAX_BATCH).length ≤ fuel := by
        rw [length_drop]
        have positive : 0 < MAX_BATCH := by decide
        omega
      rw [batchesOf, flatten_cons, ih _ fewer, take_append_drop]

theorem batches_flatten (items : List α) : (batches items).flatten = items :=
  batchesOf_flatten _ items (le_refl _)

theorem batches_sized (items : List α) : ∀ batch ∈ batches items, batch ≠ [] ∧ batch.length ≤ MAX_BATCH := by
  have folded : ∀ (fuel : Nat) (items : List α), ∀ batch ∈ batchesOf fuel items, batch ≠ [] ∧ batch.length ≤ MAX_BATCH := by
    intro fuel
    induction fuel with
    | zero => exact fun items batch member => absurd member not_mem_nil
    | succ fuel ih =>
      intro items batch member
      cases items with
      | nil => exact absurd member not_mem_nil
      | cons item items =>
        rcases mem_cons.mp member with rfl | later
        · rw [length_take]
          exact ⟨cons_ne_nil _ _, Nat.min_le_left _ _⟩
        · exact ih _ batch later
  exact folded _ items

theorem batches_nonempty (items : List α) (batch : List α) (member : batch ∈ batches items) : batch ≠ [] :=
  (batches_sized items batch member).1

theorem batches_eq_nil (none' : batches items = []) : items = [] := by
  rw [← batches_flatten items, none']
  rfl

end Batches

section Apply

variable (documents : Documents)

theorem apply_relink (distinct : (entries.map Prod.fst).Nodup) (id : String) :
    ((Transaction.relink entries).apply (fun _ => true) documents)[id]? =
      ((entries.find? fun entry => decide (entry.1 = id)).map Prod.snd).or documents[id]? := by
  simp only [Transaction.apply, Transaction.inputs, Transaction.deleted, filter_true, filter_nil, foldl_nil]
  exact Table.getElem?_foldl_insert Prod.fst Prod.snd distinct documents id

theorem apply_delete (ids : List String) (id : String) :
    ((Transaction.delete ids).apply (fun _ => true) documents)[id]? = if id ∈ ids then none else documents[id]? := by
  simp only [Transaction.apply, Transaction.inputs, Transaction.deleted, filter_true, filter_nil, foldl_nil]
  induction ids generalizing documents with
  | nil => simp
  | cons first ids ih =>
    rw [foldl_cons, ih, Table.getElem?_erase]
    by_cases own : id = first
    · simp [own]
    · simp [own]

theorem relink_now {documents now : Documents} {linked batch : List (String × DocumentParts)}
    (before : ∀ id, now[id]? = ((linked.find? fun entry => decide (entry.1 = id)).map Prod.snd).or documents[id]?)
    (distinct : ((linked ++ batch).map Prod.fst).Nodup) (id : String) :
    ((Transaction.relink batch).apply (fun _ => true) now)[id]? =
      (((linked ++ batch).find? fun entry => decide (entry.1 = id)).map Prod.snd).or documents[id]? := by
  rw [map_append] at distinct
  rw [apply_relink _ (nodup_append.mp distinct).2.1, find?_append, before]
  cases new : batch.find? fun entry => decide (entry.1 = id) with
  | none => simp
  | some entry =>
    have same : entry.1 = id := by
      simpa using find?_some (p := fun entry : String × DocumentParts => decide (entry.1 = id)) new
    have inside : id ∈ batch.map Prod.fst := same ▸ mem_map_of_mem (mem_of_find?_eq_some new)
    have absent : (linked.find? fun entry => decide (entry.1 = id)) = none := by
      rw [find?_eq_none]
      intro other member equal
      exact (nodup_append.mp distinct).2.2 id (mem_map.mpr ⟨other, member, of_decide_eq_true equal⟩) id inside rfl
    simp [absent]

theorem delete_now {gone : List String} {found : String → Option DocumentParts}
    (before : ∀ id, now[id]? = if id ∈ gone then none else found id) (batch : List String) (id : String) :
    ((Transaction.delete batch).apply (fun _ => true) now)[id]? = if id ∈ gone ++ batch then none else found id := by
  rw [apply_delete, before]
  by_cases new : id ∈ batch
  · simp [new]
  · simp [new]

end Apply

/-- The ids a call's transactions removed. -/
def removedIds (trace : List (Event Command Command.Reply World)) : List String :=
  (ownCommits trace).flatMap fun own => own.1.deleted

section Underway

variable {scope : ForgetScope} {options : ForgetOptions}

/-- A forget under way at a revision: some of the planned rewrites are in, and some of the planned removals. -/
structure Underway (scope : ForgetScope) (options : ForgetOptions) (history : Nat → Documents) (before revision : Nat)
    (stamps : List (String × Stamp)) (rewrites linked : List (String × DocumentParts)) (gone : List String) : Prop where
  removes : Removes (history before) scope options stamps
  relinks : Rewrites (history before) (stamps.map Prod.fst) rewrites
  within : ∀ entry ∈ linked, entry ∈ rewrites
  removed : ∀ id ∈ gone, id ∈ stamps.map Prod.fst
  now : ∀ id, (history revision)[id]? = if id ∈ gone then none else
    ((linked.find? fun entry => decide (entry.1 = id)).map Prod.snd).or (history before)[id]?

variable {history : Nat → Documents} {before revision : Nat} {stamps : List (String × Stamp)}
  {rewrites linked : List (String × DocumentParts)} {gone : List String}

theorem Underway.start (removes : Removes (history before) scope options stamps)
    (planned : Rewrites (history before) (stamps.map Prod.fst) rewrites) :
    Underway scope options history before before stamps rewrites [] [] :=
  ⟨removes, planned, forall_mem_nil _, forall_mem_nil _,
    fun id => by simp⟩

section

variable (underway : Underway scope options history before revision stamps rewrites linked gone)
include underway

theorem Underway.congr
    (first : history' before = history before) (second : history' revision = history revision) :
    Underway scope options history' before revision stamps rewrites linked gone where
  removes := first.symm ▸ underway.removes
  relinks := first.symm ▸ underway.relinks
  within := underway.within
  removed := underway.removed
  now := by
    intro id
    rw [first, second]
    exact underway.now id

theorem Underway.stored
    (found : (history revision)[id]? = some parts) :
    (history before)[id]? = some parts ∨ (id, parts) ∈ rewrites := by
  rw [underway.now] at found
  split at found
  · simp at found
  · cases own : linked.find? fun entry => decide (entry.1 = id) with
    | none =>
      rw [own] at found
      exact .inl found
    | some entry =>
      rw [own] at found
      simp only [Option.map_some, Option.some_or, Option.some.injEq] at found
      have same : entry.1 = id := by
        simpa using find?_some (p := fun entry : String × DocumentParts => decide (entry.1 = id)) own
      right
      rw [← found, ← same]
      exact underway.within entry (mem_of_find?_eq_some own)

end

theorem Underway.unlinked (underway : Underway scope options history before revision stamps rewrites linked [])
    (apart : id ∉ linked.map Prod.fst) : (history revision)[id]? = (history before)[id]? := by
  have absent : (linked.find? fun entry => decide (entry.1 = id)) = none := by
    rw [find?_eq_none]
    intro entry member same
    exact apart (mem_map.mpr ⟨entry, member, of_decide_eq_true same⟩)
  rw [underway.now, absent]
  simp

theorem Underway.present (underway : Underway scope options history before revision stamps rewrites linked gone)
    (planned : id ∈ stamps.map Prod.fst) (apart : id ∉ gone) : (history revision)[id]?.isSome = true := by
  rw [underway.now, if_neg apart]
  have stored := ((underway.removes.selected id).mp planned).1
  cases linked.find? fun entry => decide (entry.1 = id) with
  | none => exact stored
  | some entry => rfl

theorem Underway.relink (underway : Underway scope options history before revision stamps rewrites linked [])
    {batch : List (String × DocumentParts)} {history' : Nat → Documents} (planned : ∀ entry ∈ batch, entry ∈ rewrites)
    (distinct : ((linked ++ batch).map Prod.fst).Nodup)
    (past : history' before = history before)
    (written : history' (revision + 1) = (Transaction.relink batch).apply (fun _ => true) (history revision)) :
    Underway scope options history' before (revision + 1) stamps rewrites (linked ++ batch) [] where
  removes := past.symm ▸ underway.removes
  relinks := past.symm ▸ underway.relinks
  within := forall_mem_append.mpr ⟨underway.within, planned⟩
  removed := forall_mem_nil _
  now := by
    intro id
    rw [written, past, if_neg not_mem_nil]
    refine relink_now (fun id => ?_) distinct id
    rw [underway.now, if_neg not_mem_nil]

section

variable (underway : Underway scope options history before revision stamps rewrites linked gone)
include underway

theorem Underway.delete
    (planned : ∀ id ∈ batch, id ∈ stamps.map Prod.fst) (past : history' before = history before)
    (written : history' (revision + 1) = (Transaction.delete batch).apply (fun _ => true) (history revision)) :
    Underway scope options history' before (revision + 1) stamps rewrites linked (gone ++ batch) where
  removes := past.symm ▸ underway.removes
  relinks := past.symm ▸ underway.relinks
  within := underway.within
  removed := forall_mem_append.mpr ⟨underway.removed, planned⟩
  now := by
    intro id
    rw [written, past]
    exact delete_now underway.now batch id

theorem Underway.chain
    (chain : options.includeChain = true) : rewrites = [] := by
  rw [eq_nil_iff_forall_not_mem]
  intro entry member
  obtain ⟨survives, parts, stamp, bridged, stored, -⟩ := underway.relinks.relinked entry member
  obtain ⟨old, dead, supersedes⟩ := underway.relinks.superseder entry member
  obtain ⟨-, selected⟩ := (underway.removes.selected old).mp dead
  apply survives
  rw [underway.removes.selected, stored]
  refine ⟨rfl, ?_⟩
  unfold Selected at selected ⊢
  rw [if_pos chain] at selected ⊢
  obtain ⟨first, inside, path⟩ := selected
  exact ⟨first, inside, path.tail (.inr supersedes)⟩

end

end Underway

section Commits

variable {scope : ForgetScope} {options : ForgetOptions} {began : Nat} {world world' : World}
  {own : Transaction × World}

def SameButLinks (parts parts' : DocumentParts) : Prop :=
  ∃ stamp supersedes supersededBy, parts.stamp = some stamp ∧
    parts' = { parts with
      text := some (parts.text.getD "")
      stamp := some { stamp with supersedes := supersedes, supersededBy := supersededBy } }

theorem Relinked.sameButLinks {documents : Documents} {entry : String × DocumentParts}
    (relinked : Relinked documents dead entry) : ∃ parts, documents[entry.1]? = some parts ∧ SameButLinks parts entry.2 := by
  obtain ⟨-, parts, stamp, bridged, found, stamped, -, same⟩ := relinked
  exact ⟨parts, found, stamp, _, _, stamped, same⟩

/-- A forget commits only because something it selects was stored since it began. -/
def Selects (scope : ForgetScope) (options : ForgetOptions) (began : Nat) (world : World) (own : Transaction × World) : Prop :=
  ∃ before, began ≤ before ∧ before ≤ own.2.revision ∧ before ≤ world.revision ∧
    ∃ id, (world.history before)[id]?.isSome = true ∧ Selected (world.history before) scope options id

structure ForgetCommit (scope : ForgetScope) (options : ForgetOptions) (began : Nat) (world : World)
    (own : Transaction × World) : Prop where
  selects : Selects scope options began world own
  reached : own.2.revision + 1 ≤ world.revision
  past : world.history own.2.revision = own.2.documents
  written : world.history (own.2.revision + 1) = own.1.apply (fun _ => true) own.2.documents
  stored : ∀ id ∈ own.1.deleted, own.2.documents[id]?.isSome = true
  relinked : ∀ entry ∈ own.1.inputs, ∃ parts, own.2.documents[entry.1]? = some parts ∧ SameButLinks parts entry.2
  distinct : (own.1.inputs.map Prod.fst).Nodup
  chain : options.includeChain = true → own.1.inputs = []

theorem Selects.later (selects : Selects scope options began world own) (moved : Later world world') :
    Selects scope options began world' own := by
  obtain ⟨before, since, until_, bound, found⟩ := selects
  refine ⟨before, since, until_, bound.trans moved.revision, ?_⟩
  rw [moved.history before bound]
  exact found

theorem ForgetCommit.later (commit : ForgetCommit scope options began world own) (moved : Later world world') :
    ForgetCommit scope options began world' own where
  __ := commit
  selects := commit.selects.later moved
  reached := commit.reached.trans moved.revision
  past := (moved.history _ (Nat.le_of_succ_le commit.reached)).trans commit.past
  written := (moved.history _ commit.reached).trans commit.written

def Effects (scope : ForgetScope) (options : ForgetOptions) (began : Nat)
    (trace : List (Event Command Command.Reply World)) (world : World) : Prop :=
  ∀ own ∈ ownCommits trace, ForgetCommit scope options began world own

section

variable (effects : Effects scope options began trace world)
include effects

theorem Effects.selects :
    ∀ own ∈ ownCommits trace, Selects scope options began world own :=
  fun own member => (effects own member).selects

theorem Effects.later (moved : Later world world')
    (same : ownCommits trace' = ownCommits trace) : Effects scope options began trace' world' := by
  intro own member
  rw [same] at member
  exact (effects own member).later moved

section

variable {state : World} (moved : Later world world') (same : ownCommits trace' = ownCommits trace ++ [(transaction, state)])
include moved same

theorem Effects.snoc
    (commit : ForgetCommit scope options began world' (transaction, state)) : Effects scope options began trace' world' := by
  intro own member
  rw [same] at member
  rcases mem_append.mp member with old | new
  · exact (effects own old).later moved
  · rw [mem_singleton.mp new]
    exact commit

theorem Selects.snoc
    (commit : Selects scope options began world' (transaction, state)) :
    ∀ own ∈ ownCommits trace', Selects scope options began world' own := by
  intro own member
  rw [same] at member
  rcases mem_append.mp member with old | new
  · exact (effects.selects own old).later moved
  · rw [mem_singleton.mp new]
    exact commit

end

end

/-- The transactions of a forget that expects to find a revision: those of earlier attempts lie apart from the revision it
planned at, and none comes after the one it expects. -/
def Ordered (before revision : Nat) (trace : List (Event Command Command.Reply World)) : Prop :=
  ∀ own ∈ ownCommits trace, (before ≤ own.2.revision ∨ own.2.revision + 1 < before) ∧ own.2.revision + 1 ≤ revision

/-- Another writer has committed since the transactions of a forget. -/
def Overtaken (trace : List (Event Command Command.Reply World)) (world : World) : Prop :=
  ∀ own ∈ ownCommits trace, own.2.revision + 1 < world.revision

theorem Ordered.overtaken {before revision : Nat} (ordered : Ordered before revision trace)
    (same : ownCommits trace' = ownCommits trace) (reached : revision ≤ world.revision)
    (late : world.revision ≠ revision) : Overtaken trace' world := by
  intro own member
  rw [same] at member
  have := (ordered own member).2
  omega

theorem Ordered.snoc {before : Nat}
    {state : World} (ordered : Ordered before state.revision trace) (start : before ≤ state.revision)
    (same : ownCommits trace' = ownCommits trace ++ [(transaction, state)]) :
    Ordered before (state.revision + 1) trace' := by
  intro own member
  rw [same] at member
  rcases mem_append.mp member with old | new
  · exact ⟨(ordered own old).1, Nat.le_succ_of_le (ordered own old).2⟩
  · rw [mem_singleton.mp new]
    exact ⟨.inl start, le_refl _⟩

theorem removedIds_of_same (same : ownCommits trace' = ownCommits trace) : removedIds trace' = removedIds trace := by
  unfold removedIds
  rw [same]

theorem removedIds_snoc (same : ownCommits trace' = ownCommits trace ++ [(transaction, state)]) :
    removedIds trace' = removedIds trace ++ transaction.deleted := by
  unfold removedIds
  rw [same, flatMap_append]
  simp

end Commits

section Committing

variable {admits : Command → World → Prop} {property : World → Prop} {scope : ForgetScope} {options : ForgetOptions}
  {began before revision memory : Nat} {stamps : List (String × Stamp)} {rewrites : List (String × DocumentParts)}
  {world : World} {trace : List (Event Command Command.Reply World)}

theorem Underway.at
    (underway : world.revision ≤ revision → Underway scope options world.history before revision stamps rewrites linked gone)
    (start : before ≤ revision) (reached : revision ≤ world.revision) (moved : Later world state)
    (same : state.revision = revision) :
    Underway scope options state.history before state.revision stamps rewrites linked gone := by
  rw [same]
  refine (underway (same ▸ moved.revision)).congr ?_ ?_
  · exact moved.history before (start.trans reached)
  · exact moved.history revision reached

theorem Underway.selects
    (underway : Underway scope options state.history before state.revision stamps rewrites linked gone)
    (filled : stamps ≠ []) (since : began ≤ before) (start : before ≤ state.revision) :
    Selects scope options began state (transaction, state) := by
  obtain ⟨entry, stamps', rfl⟩ := exists_cons_of_ne_nil filled
  exact ⟨before, since, start, start, entry.1, (underway.removes.selected entry.1).mp mem_cons_self⟩

theorem Underway.forgetStep
    (underway : Underway scope options state.history before state.revision stamps rewrites linked gone)
    (start : before ≤ state.revision) (planned : ∀ entry ∈ transaction.inputs, entry ∈ rewrites) :
    ForgetStep state transaction :=
  ⟨before, stamps.map Prod.fst, rewrites, start, underway.relinks, fun _ _ found => underway.stored found, planned⟩

def RelinkPost (scope : ForgetScope) (options : ForgetOptions) (began before last : Nat) (stamps : List (String × Stamp))
    (rewrites : List (String × DocumentParts)) (removed : List String) (result : Except MemoryError (Option Nat))
    (trace : List (Event Command Command.Reply World)) (world : World) : Prop :=
  removedIds trace = removed ∧
    match result with
    | .error _ => ∀ own ∈ ownCommits trace, Selects scope options began world own
    | .ok none => Effects scope options began trace world ∧ Overtaken trace world
    | .ok (some revision) => Effects scope options began trace world ∧ Ordered before revision trace ∧ revision = last ∧
        revision ≤ world.revision ∧
        (world.revision ≤ revision → Underway scope options world.history before revision stamps rewrites rewrites [])

theorem relinkEach_follows (kept : Kept admits property) {batches : List (List (String × DocumentParts))}
    (whole : linked ++ batches.flatten = rewrites) (each : ∀ batch ∈ batches, batch ≠ []) (filled : stamps ≠ [])
    (since : began ≤ before) (start : before ≤ revision) (reached : revision ≤ world.revision)
    (underway : world.revision ≤ revision → Underway scope options world.history before revision stamps rewrites linked [])
    (effects : Effects scope options began trace world) (ordered : Ordered before revision trace) :
    Follows execute Later (Keeping property) admits
      (RelinkPost scope options began before (revision + batches.length) stamps rewrites (removedIds trace))
      (relinkEach batches revision) trace world := by
  induction batches generalizing linked revision world trace with
  | nil =>
    rw [flatten_nil, append_nil] at whole
    subst whole
    exact ⟨rfl, effects, ordered, rfl, reached, underway⟩
  | cons batch batches ih =>
    have some' : ¬((Transaction.relink batch).inputs = [] ∧ (Transaction.relink batch).deleted = []) :=
      fun none' => each batch mem_cons_self none'.1
    have planned : ∀ entry ∈ batch, entry ∈ rewrites := by
      intro entry member
      rw [← whole, flatten_cons]
      exact mem_append_right _ (mem_append_left _ member)
    unfold relinkEach
    refine change_follows some' ?_ ?_ ?_ ?_ ?_
    · intro state moved holds same _ installed
      have here := Underway.at underway start reached moved same
      exact kept.forget installed holds.2 (here.forgetStep (same ▸ start) planned)
    · intro state trace' error moved same _
      exact ⟨removedIds_of_same same, (effects.later moved same).selects⟩
    · intro state trace' moved late same
      exact ⟨removedIds_of_same same, effects.later moved same,
        ordered.overtaken same (reached.trans moved.revision) late⟩
    · intro state trace' moved same _ own
      have here := Underway.at underway start reached moved same
      have after : Later world (state.commit (.relink batch) fun _ => true) := moved.trans (later_write state _)
      have distinct : ((linked ++ batch).map Prod.fst).Nodup := by
        refine here.relinks.distinct.sublist (List.Sublist.map _ ?_)
        rw [← whole, flatten_cons, ← append_assoc]
        exact sublist_append_left _ _
      have new := here.relink planned distinct (state.write_history_old _ (same ▸ start)) (state.write_history_new _)
      have commit : ForgetCommit scope options began (state.commit (.relink batch) fun _ => true) (.relink batch, state) := by
        refine ⟨(here.selects filled since (same ▸ start)).later (later_write state _), le_refl _,
          state.write_history_old _ (le_refl _), state.write_history_new _, forall_mem_nil _,
          fun entry member => ?_, ?_, fun chain => ?_⟩
        · obtain ⟨parts, found, linksOnly⟩ := (here.relinks.relinked entry (planned entry member)).sameButLinks
          refine ⟨parts, ?_, linksOnly⟩
          unfold World.documents
          rw [here.unlinked, found]
          intro again
          rw [map_append] at distinct
          exact (nodup_append.mp distinct).2.2 entry.1 again entry.1 (mem_map_of_mem member) rfl
        · rw [map_append] at distinct
          exact (nodup_append.mp distinct).2.1
        · rw [eq_nil_iff_forall_not_mem]
          intro entry member
          have inside := planned entry member
          rw [here.chain chain] at inside
          exact absurd inside not_mem_nil
      have length : revision + (batch :: batches).length = revision + 1 + batches.length := by
        rw [length_cons]
        omega
      have removed : removedIds trace = removedIds trace' := by
        rw [removedIds_snoc own]
        exact (append_nil _).symm
      have rest : (linked ++ batch) ++ batches.flatten = rewrites := by
        rw [← whole, flatten_cons, append_assoc]
      rw [length, removed]
      exact ih rest (forall_mem_cons.mp each).2 (Nat.le_succ_of_le start)
        (by rw [commit_eq_write, write_revision, same]) (fun _ => same ▸ new) (effects.snoc after own commit)
        (same ▸ Ordered.snoc (same ▸ ordered) (same ▸ start) own)
    · intro state trace' installed moved same _ own
      have here := Underway.at underway start reached moved same
      refine ⟨?_, Selects.snoc effects (moved.trans (later_write state _)) own
        ((here.selects filled since (same ▸ start)).later (later_write state _))⟩
      rw [removedIds_snoc own]
      exact append_nil _

/-- What committing removals has done. -/
def DeletePost (scope : ForgetScope) (options : ForgetOptions) (began before last : Nat) (stamps : List (String × Stamp))
    (rewrites : List (String × DocumentParts)) (result : Except MemoryError (Option Nat) × List String)
    (trace : List (Event Command Command.Reply World)) (world : World) : Prop :=
  match result.1 with
  | .error _ => ∀ own ∈ ownCommits trace, Selects scope options began world own
  | .ok none => Effects scope options began trace world ∧ Overtaken trace world ∧ result.2 = removedIds trace
  | .ok (some revision) => Effects scope options began trace world ∧ Ordered before revision trace ∧
      result.2 = removedIds trace ∧ revision = last ∧
      revision ≤ world.revision ∧
      Underway scope options world.history before revision stamps rewrites rewrites (stamps.map Prod.fst)

theorem deleteEach_follows (kept : Kept admits property) {batches : List (List String)}
    (whole : gone ++ batches.flatten = stamps.map Prod.fst) (each : ∀ batch ∈ batches, batch ≠ [])
    (filled : stamps ≠ []) (since : began ≤ before) (start : before ≤ revision) (reached : revision ≤ world.revision)
    (underway : (batches ≠ [] → world.revision ≤ revision) → Underway scope options world.history before revision stamps rewrites rewrites gone)
    (effects : Effects scope options began trace world) (ordered : Ordered before revision trace)
    (done : completed = removedIds trace) :
    Follows execute Later (Keeping property) admits
      (DeletePost scope options began before (revision + batches.length) stamps rewrites)
      (deleteEach batches revision completed) trace world := by
  induction batches generalizing gone revision world trace completed with
  | nil =>
    rw [flatten_nil, append_nil] at whole
    subst whole
    exact ⟨effects, ordered, done, rfl, reached, underway fun none' => absurd rfl none'⟩
  | cons batch batches ih =>
    have some' : ¬((Transaction.delete batch).inputs = [] ∧ (Transaction.delete batch).deleted = []) :=
      fun none' => each batch mem_cons_self none'.2
    have planned : ∀ id ∈ batch, id ∈ stamps.map Prod.fst := by
      intro id member
      rw [← whole, flatten_cons]
      exact mem_append_right _ (mem_append_left _ member)
    have underway' : world.revision ≤ revision →
        Underway scope options world.history before revision stamps rewrites rewrites gone :=
      fun bound => underway fun _ => bound
    have nothing : ∀ entry ∈ (Transaction.delete batch).inputs, entry ∈ rewrites :=
      forall_mem_nil _
    unfold deleteEach
    refine change_follows some' ?_ ?_ ?_ ?_ ?_
    · intro state moved holds same _ installed
      have here := Underway.at underway' start reached moved same
      exact kept.forget installed holds.2 (here.forgetStep (same ▸ start) nothing)
    · intro state trace' error moved same _
      exact (effects.later moved same).selects
    · intro state trace' moved late same
      exact ⟨effects.later moved same, ordered.overtaken same (reached.trans moved.revision) late,
        done.trans (removedIds_of_same same).symm⟩
    · intro state trace' moved same _ own
      have here := Underway.at underway' start reached moved same
      have after : Later world (state.commit (.delete batch) fun _ => true) := moved.trans (later_write state _)
      have new := here.delete planned (state.write_history_old _ (same ▸ start)) (state.write_history_new _)
      have fresh : ∀ id ∈ batch, id ∉ gone := by
        intro id member again
        have distinct := here.removes.distinct
        rw [← whole, flatten_cons] at distinct
        exact (nodup_append.mp distinct).2.2 id again id (mem_append_left _ member) rfl
      have commit : ForgetCommit scope options began (state.commit (.delete batch) fun _ => true) (.delete batch, state) :=
        ⟨(here.selects filled since (same ▸ start)).later (later_write state _), le_refl _,
          state.write_history_old _ (le_refl _), state.write_history_new _,
          fun id member => here.present (planned id member) (fresh id member),
          forall_mem_nil _, nodup_nil, fun _ => rfl⟩
      have length : revision + (batch :: batches).length = revision + 1 + batches.length := by
        rw [length_cons]
        omega
      have rest : (gone ++ batch) ++ batches.flatten = stamps.map Prod.fst := by
        rw [← whole, flatten_cons, append_assoc]
      rw [length]
      refine ih rest (forall_mem_cons.mp each).2 (Nat.le_succ_of_le start)
        (by rw [commit_eq_write, write_revision, same]) (fun _ => same ▸ new) (effects.snoc after own commit)
        (same ▸ Ordered.snoc (same ▸ ordered) (same ▸ start) own) ?_
      rw [done, removedIds_snoc own]
      rfl
    · intro state trace' installed moved same _ own
      have here := Underway.at underway' start reached moved same
      exact Selects.snoc effects (moved.trans (later_write state _)) own
        ((here.selects filled since (same ▸ start)).later (later_write state _))

end Committing

section Clear

variable {scope : ForgetScope} {options : ForgetOptions} {documents documents' : Documents}

theorem inScope_iff (found : documents[id]? = some parts) (found' : documents'[id]? = some parts')
    (same : parts = parts' ∨ SameButLinks parts parts') : InScope documents scope id ↔ InScope documents' scope id := by
  rcases same with rfl | ⟨stamp, supersedes, supersededBy, stamped, rfl⟩
  · cases scope <;> simp [InScope, found, found']
  · cases scope <;> simp [InScope, found, found', stamped]

section

variable (part : ∀ (id : String) parts, documents'[id]? = some parts → documents[id]? = some parts)
include part

theorem Supersedes.of_part
    (supersedes : Supersedes documents' old by_) : Supersedes documents old by_ := by
  have tracked {id : String} {stamp : Stamp} (own : trackedStamp documents' id = some stamp) :
      trackedStamp documents id = some stamp := by
    obtain ⟨⟨parts, found, stamped⟩, yes⟩ := Index.trackedStamp_eq_some.mp own
    exact trackedStamp_of (part id parts found) stamped yes
  rcases supersedes with ⟨stamp, own, named⟩ | ⟨stamp, own, hinted, known⟩
  · exact .inl ⟨stamp, tracked own, named⟩
  · obtain ⟨other, known⟩ := Option.isSome_iff_exists.mp known
    exact .inr ⟨stamp, tracked own, hinted, by rw [tracked known]; rfl⟩

theorem InScope.of_part
    (inside : InScope documents' scope id) : InScope documents scope id := by
  cases scope with
  | ids ids => exact inside
  | _ =>
    obtain ⟨parts, found, rest⟩ := inside
    exact ⟨parts, part id parts found, rest⟩

end

variable {history : Nat → Documents} {before revision : Nat} {stamps : List (String × Stamp)}
  {rewrites : List (String × DocumentParts)}

theorem Underway.clear
    (underway : Underway scope options history before revision stamps rewrites rewrites (stamps.map Prod.fst))
    (id : String) (stored : (history revision)[id]?.isSome = true) : ¬Selected (history revision) scope options id := by
  obtain ⟨parts, found⟩ := Option.isSome_iff_exists.mp stored
  -- whatever is stored was stored before the removals, so it must not have been selected then
  suffices earlier : Selected (history revision) scope options id →
      (history before)[id]?.isSome = true ∧ Selected (history before) scope options id by
    intro selected
    have gone := (underway.removes.selected id).mpr (earlier selected)
    rw [underway.now, if_pos gone] at found
    simp at found
  unfold Selected
  split
  · next chain =>
    have part : ∀ (id : String) parts, (history revision)[id]? = some parts → (history before)[id]? = some parts := by
      intro id parts found
      rcases underway.stored found with same | rewritten
      · exact same
      · rw [underway.chain chain] at rewritten
        exact absurd rewritten not_mem_nil
    rintro ⟨first, inside, path⟩
    refine ⟨by rw [part id parts found]; rfl, first, InScope.of_part part inside,
      Relation.ReflTransGen.mono (fun a b linked => ?_) first id path⟩
    exact linked.imp (Supersedes.of_part part) (Supersedes.of_part part)
  · intro inside
    rcases underway.stored found with same | rewritten
    · exact ⟨by rw [same]; rfl, (inScope_iff same found (.inl rfl)).mpr inside⟩
    · obtain ⟨parts', found', linksOnly⟩ := (underway.relinks.relinked _ rewritten).sameButLinks
      exact ⟨by rw [found']; rfl, (inScope_iff found' found (.inr linksOnly)).mpr inside⟩

end Clear

section Forgetting

variable {admits : Command → World → Prop} {property : World → Prop} {scope : ForgetScope} {options : ForgetOptions}
  {began before memory : Nat} {stamps : List (String × Stamp)} {rewrites : List (String × DocumentParts)}
  {completed : List String} {world : World} {trace : List (Event Command Command.Reply World)}

/-- What a forget that is not a preview has done when it returns: it planned at one revision, by a later one all that it
planned to remove is gone and nothing stored is selected, and it reports what its transactions removed. -/
structure ForgetDone (scope : ForgetScope) (options : ForgetOptions) (began : Nat) (report : ForgetReport)
    (trace : List (Event Command Command.Reply World)) (world : World) (before after : Nat)
    (stamps : List (String × Stamp)) : Prop where
  reported : report.forgotten = orderedIds (removedIds trace)
  since : began ≤ before
  order : before ≤ after
  reached : after ≤ world.revision
  ordered : Ordered before after trace
  removes : Removes (world.history before) scope options stamps
  gone : ∀ id ∈ stamps.map Prod.fst, (world.history after)[id]? = none
  clear : ∀ id, (world.history after)[id]?.isSome = true → ¬Selected (world.history after) scope options id

theorem ForgetDone.later (done : ForgetDone scope options began report trace world before after stamps)
    (moved : Later world world') (same : ownCommits trace' = ownCommits trace) :
    ForgetDone scope options began report trace' world' before after stamps where
  reported := by
    rw [removedIds_of_same same]
    exact done.reported
  since := done.since
  order := done.order
  reached := done.reached.trans moved.revision
  ordered := by
    intro own member
    rw [same] at member
    exact done.ordered own member
  removes := by
    rw [moved.history _ (done.order.trans done.reached)]
    exact done.removes
  gone := by
    rw [moved.history _ done.reached]
    exact done.gone
  clear := by
    rw [moved.history _ done.reached]
    exact done.clear

/-- What a forget has done when it returns; of an error only that its transactions had something to remove. -/
def ForgetPost (scope : ForgetScope) (options : ForgetOptions) (began : Nat) (result : Except MemoryError ForgetReport)
    (trace : List (Event Command Command.Reply World)) (world : World) : Prop :=
  match result with
  | .error _ => ∀ own ∈ ownCommits trace, Selects scope options began world own
  | .ok report => Effects scope options began trace world ∧ (options.dryRun = false →
      ∃ before after stamps, ForgetDone scope options began report trace world before after stamps)

theorem ForgetPost.later (post : ForgetPost scope options began result trace world) (moved : Later world world')
    (same : ownCommits trace' = ownCommits trace) : ForgetPost scope options began result trace' world' := by
  cases result with
  | error error =>
    intro own member
    rw [same] at member
    exact (post own member).later moved
  | ok report =>
    refine ⟨post.1.later moved same, fun wet => ?_⟩
    obtain ⟨before, after, stamps, done⟩ := post.2 wet
    exact ⟨before, after, stamps, done.later moved same⟩

def ForgetAttempt (scope : ForgetScope) (options : ForgetOptions) (began : Nat)
    (result : Except MemoryError (Option ForgetReport) × List String) (trace : List (Event Command Command.Reply World))
    (world : World) : Prop :=
  match result.1 with
  | .error error => ForgetPost scope options began (.error error) trace world
  | .ok none => Effects scope options began trace world ∧ Overtaken trace world ∧ result.2 = removedIds trace
  | .ok (some report) => ForgetPost scope options began (.ok report) trace world

theorem afterCommit_follows {effect : String} {next : Except MemoryError Unit → Code α}
    {post : α → List (Event Command Command.Reply World) → World → Prop}
    (failed : ∀ state trace' error, Later world state → ownCommits trace' = ownCommits trace → Follows execute Later (Keeping property) admits post (next (.error error)) trace' state)
    (done : ∀ state trace', Later world state → ownCommits trace' = ownCommits trace → Follows execute Later (Keeping property) admits post (next (.ok ())) trace' state) :
    Follows execute Later (Keeping property) admits post (perform (.afterCommit effect) >>= next) trace world := by
  intro state moved holds _ fault
  have same (found : Except MemoryError Unit) :
      ownCommits (trace ++ [⟨.afterCommit effect, found, state⟩]) = ownCommits trace := by
    rw [ownCommits_append]
    exact append_nil _
  cases fault with
  | none => exact ⟨holds, Later.refl state, done state _ moved (same _)⟩
  | refused message | unpublished installed => exact ⟨holds, Later.refl state, failed state _ _ moved (same _)⟩

theorem syncAndPurge_follows :
    Follows execute Later (Keeping property) admits (fun _ trace' world' => ReadOnly world trace trace' world')
      (syncAndPurge options) trace world := by
  unfold syncAndPurge
  apply afterCommit_follows
  · intro state trace' error moved same
    exact ⟨moved, same⟩
  · intro state trace' moved same
    simp only
    split
    · show Follows execute Later (Keeping property) admits _ (perform (.afterCommit purgeEffect) >>= pure) trace' state
      apply afterCommit_follows
      · intro state' trace'' error moved' same'
        exact ⟨moved.trans moved', same'.trans same⟩
      · intro state' trace'' moved' same'
        exact ⟨moved.trans moved', same'.trans same⟩
    · exact ⟨moved, same⟩

theorem revisionMatches_follows {next}
    (rest : ∀ state trace', Later world state → ownCommits trace' = ownCommits trace → Follows execute Later (Keeping property) admits post (next (state.revision == before)) trace' state) :
    Follows execute Later (Keeping property) admits post (perform (.revisionMatches before) >>= next) trace world := by
  refine Follows.reads (fun _ _ => rfl) fun state moved _ _ => rest state _ moved ?_
  rw [ownCommits_append]
  exact append_nil _

theorem finishForget_follows (since : began ≤ before) (reached : before ≤ world.revision)
    (plan : world.revision ≤ before → Removes (world.history before) scope options stamps)
    (nothing : options.dryRun = true ∨ stamps = []) (effects : Effects scope options began trace world)
    (apart : ∀ own ∈ ownCommits trace, own.2.revision + 1 < before) (done : completed = removedIds trace) :
    Follows execute Later (Keeping property) admits
      (fun result trace' world' => ForgetAttempt scope options began (result, completed) trace' world')
      (finishForget options before (stamps.map Prod.fst) completed) trace world := by
  unfold finishForget
  apply revisionMatches_follows
  intro state trace' moved same
  split
  · have past : before ≤ state.revision := reached.trans moved.revision
    refine ⟨effects.later moved same, fun own member => ?_, done.trans (removedIds_of_same same).symm⟩
    rw [same] at member
    exact (apart own member).trans_le past
  next current =>
  have here : state.revision = before := by simpa using current
  split
  · next dry => exact ⟨effects.later moved same, fun wet => by rw [dry] at wet; simp at wet⟩
  next wet =>
  have none' : stamps = [] := nothing.resolve_left wet
  subst none'
  have removes := plan (here ▸ moved.revision)
  -- nothing is selected at the revision of the plan, and nothing was written since
  have finished (report : ForgetReport) (reports : report.forgotten = orderedIds completed) (trace' : _) (world' : World)
      (reads : ReadOnly world trace trace' world') : ForgetPost scope options began (.ok report) trace' world' := by
    refine ⟨effects.later reads.1 reads.2, fun _ => ⟨before, before, [], ?_⟩⟩
    refine ForgetDone.later ⟨by rw [reports, done], since, le_refl _, reached, fun own member => ?_, removes,
      forall_mem_nil _, fun id stored selected => ?_⟩ reads.1 reads.2
    · have := apart own member
      exact ⟨.inr this, Nat.le_of_lt this⟩
    · exact absurd ((removes.selected id).mpr ⟨stored, selected⟩) not_mem_nil
  split
  · next empty =>
    rw [List.isEmpty_iff] at empty
    exact finished _ (by simp [empty, orderedIds]) _ _ ⟨moved, same⟩
  · apply Follows.bind
    refine syncAndPurge_follows.mono ?_
    rintro (error | _) trace' state' ⟨moved', same'⟩
    · exact (effects.later (moved.trans moved') (same'.trans same)).selects
    · exact finished _ rfl _ _ ⟨moved.trans moved', same'.trans same⟩

section

variable (kept : Kept admits property)
include kept

theorem settleForget_follows {revision : Nat} (start : before < revision)
    (reached : revision ≤ world.revision)
    (underway : Underway scope options world.history before revision stamps rewrites rewrites (stamps.map Prod.fst)) :
    Follows execute Later (Keeping property) admits (fun _ trace' world' => ReadOnly world trace trace' world')
      (settleForget memory before (revision - before) stamps (!rewrites.isEmpty)) trace world := by
  unfold settleForget
  split
  · intro state moved holds _ fault
    refine ⟨⟨holds.1.unsettle memory, kept.index _ _ _ holds.2⟩, later_unsettle state memory, ?_⟩
    exact ReadOnly.start.step (moved.trans (later_unsettle state memory)) rfl
  next plain =>
  have none' : rewrites = [] := by simpa using plain
  subst none'
  apply coreRevision_follows
  intro first moved _ second moved' holds _ fault
  have whole := moved.trans moved'
  have positive : 0 < revision - before := Nat.sub_pos_of_lt start
  have settles : (second.setIndex memory (settled (second.index memory) before first.revision (revision - before) fun index =>
      some (stamps.foldl (fun index entry => index.remove entry.1 entry.2) index))).Sound := by
    apply holds.1.settle moved'.revision
    intro own index updated describes applied
    rw [Option.some.injEq] at applied
    have same : first.revision = revision := by omega
    rw [same, whole.history revision reached, ← applied]
    rw [whole.history before ((Nat.le_of_lt start).trans reached)] at describes
    refine ⟨describes.mirrors.removeAll underway.removes.distinct underway.removes.stored ?_ ?_,
      describes.tidy.removeAll stamps⟩
    · intro id
      rw [underway.now]
      simp
    · intro by_ stamp tracked alive
      exact underway.relinks.complete by_ alive not_mem_nil stamp tracked
  refine ⟨⟨settles, kept.index _ _ _ holds.2⟩, later_settle second _ positive moved'.revision, ?_⟩
  exact (ReadOnly.start.step moved rfl).step (moved'.trans (later_settle second _ positive moved'.revision)) rfl

theorem commitForget_follows (filled : stamps ≠ []) (since : began ≤ before)
    (reached : before ≤ world.revision)
    (plan : world.revision ≤ before → Removes (world.history before) scope options stamps ∧
      Rewrites (world.history before) (stamps.map Prod.fst) rewrites)
    (effects : Effects scope options began trace world)
    (apart : ∀ own ∈ ownCommits trace, own.2.revision + 1 < before) (done : completed = removedIds trace) :
    Follows execute Later (Keeping property) admits (ForgetAttempt scope options began)
      (commitForget memory options before stamps rewrites completed) trace world := by
  unfold commitForget
  apply Follows.bind
  refine (relinkEach_follows kept (show [] ++ _ = _ from batches_flatten rewrites) (batches_nonempty rewrites) filled since
    (le_refl before) reached (fun bound => Underway.start (plan bound).1 (plan bound).2) effects
    (fun own member => ⟨.inr (apart own member), Nat.le_of_lt (apart own member)⟩)).mono ?_
  rintro (error | _ | revision) trace' first ⟨same, linked⟩
  · exact linked
  · exact ⟨linked.1, linked.2, done.trans same.symm⟩
  obtain ⟨effects, ordered, last, reached, underway⟩ := linked
  have some' : batches (stamps.map Prod.fst) ≠ [] :=
    fun none' => filled (map_eq_nil_iff.mp (batches_eq_nil none'))
  apply Follows.bind
  refine (deleteEach_follows kept (show [] ++ _ = _ from batches_flatten (stamps.map Prod.fst)) (batches_nonempty _) filled since
    (by omega) reached (fun bound => underway (bound some')) effects ordered (done.trans same.symm)).mono ?_
  rintro ⟨error | _ | revision', completed'⟩ trace'' second deleted
  · exact deleted
  · exact deleted
  obtain ⟨effects, ordered, counted, last', reached', underway⟩ := deleted
  simp only at counted
  subst counted
  have later' : before < revision' := by
    have := length_pos_iff.mpr some'
    omega
  have finished (report : ForgetReport) (reports : report.forgotten = orderedIds (removedIds trace'')) (trace' : _)
      (world' : World) (reads : ReadOnly second trace'' trace' world') :
      ForgetPost scope options began (.ok report) trace' world' := by
    refine ⟨effects.later reads.1 reads.2, fun _ => ⟨before, revision', stamps, ?_⟩⟩
    refine ForgetDone.later ⟨reports, since, Nat.le_of_lt later', reached', ordered, underway.removes, fun id member => ?_,
      underway.clear⟩ reads.1 reads.2
    rw [underway.now, if_pos member]
  apply afterCommit_follows
  · intro third trace3 error moved same
    exact (effects.later moved same).selects
  intro third trace3 moved same
  apply Follows.bind
  refine (settleForget_follows kept later' (reached'.trans moved.revision)
    (underway.congr (moved.history _ ((Nat.le_of_lt later').trans reached')) (moved.history _ reached'))).mono ?_
  rintro _ trace4 fourth ⟨moved', same'⟩
  split
  · apply afterCommit_follows
    · intro fifth trace5 error moved'' same''
      exact (effects.later ((moved.trans moved').trans moved'') (same''.trans (same'.trans same))).selects
    · intro fifth trace5 moved'' same'' sixth more holds _ fault
      refine ⟨⟨holds.1.unsettle memory, kept.index _ _ _ holds.2⟩, later_unsettle sixth memory, ?_⟩
      have reads : ReadOnly second trace'' trace5 fifth :=
        ⟨(moved.trans moved').trans moved'', same''.trans (same'.trans same)⟩
      exact finished _ rfl _ _ (reads.step (more.trans (later_unsettle sixth memory)) rfl)
  · exact finished _ rfl _ _ ⟨moved.trans moved', same'.trans same⟩

theorem forgetAtRevision_follows (anchored : Anchored memory before world)
    (since : began ≤ before) (effects : Effects scope options began trace world)
    (apart : ∀ own ∈ ownCommits trace, own.2.revision + 1 < before) (done : completed = removedIds trace) :
    Follows execute Later (Keeping property) admits (ForgetAttempt scope options began)
      (forgetAtRevision memory scope options before completed) trace world := by
  unfold forgetAtRevision
  have mirrors := Index.rebuild_mirrors (world.history before) before
  apply Follows.bind
  refine (readPlan_follows anchored (planForgotten scope options)).mono ?_
  rintro (error | stamps) trace' first ⟨⟨moved, same⟩, plan⟩
  · exact (effects.later moved same).selects
  have anchored' := anchored.later moved
  have apart' : ∀ own ∈ ownCommits trace', own.2.revision + 1 < before := by
    rw [same]
    exact apart
  have removes : first.revision ≤ before → Removes (first.history before) scope options stamps := by
    intro bound
    rw [moved.history before anchored.1]
    exact planForgotten_ok mirrors (plan bound).symm
  dsimp only
  split
  · next nothing =>
    apply Follows.bind
    rw [Bool.or_eq_true, List.isEmpty_iff] at nothing
    exact finishForget_follows since anchored'.1 removes nothing (effects.later moved same) apart'
      (done.trans (removedIds_of_same same).symm)
  next some' =>
  have filled : stamps ≠ [] := by
    rintro rfl
    simp at some'
  apply Follows.bind
  refine (readPlan_follows anchored' (bridgeSurvivors (stamps.map Prod.fst))).mono ?_
  rintro (error | rewrites) trace'' second ⟨⟨moved', same'⟩, plan'⟩
  · exact (effects.later (moved.trans moved') (same'.trans same)).selects
  refine commitForget_follows kept filled since (anchored'.later moved').1 (fun bound => ?_)
    (effects.later (moved.trans moved') (same'.trans same)) (same'.symm ▸ apart')
    (done.trans (removedIds_of_same (same'.trans same)).symm)
  rw [moved'.history before anchored'.1]
  refine ⟨removes (moved'.revision.trans bound), bridgeSurvivors_ok ?_ (plan' bound).symm⟩
  exact Index.rebuild_mirrors (first.history before) before

theorem forgetAttempts_follows (attempts : Nat) (since : began ≤ world.revision)
    (effects : Effects scope options began trace world) (overtaken : Overtaken trace world)
    (done : completed = removedIds trace) :
    Follows execute Later (Keeping property) admits (ForgetPost scope options began)
      (forgetAttempts memory scope options attempts completed) trace world := by
  induction attempts generalizing trace world completed with
  | zero => exact effects.selects
  | succ attempts ih =>
    unfold forgetAttempts
    apply Follows.bind
    refine (planningRevision_follows kept).mono ?_
    rintro (_ | before) trace' first ⟨⟨moved, same⟩, anchored⟩
    · refine ih (since.trans moved.revision) (effects.later moved same) (fun own member => ?_)
        (done.trans (removedIds_of_same same).symm)
      rw [same] at member
      exact (overtaken own member).trans_le moved.revision
    obtain ⟨newer, anchored⟩ := anchored before rfl
    apply Follows.bind
    refine (forgetAtRevision_follows kept anchored (since.trans newer) (effects.later moved same) (fun own member => ?_)
      (done.trans (removedIds_of_same same).symm)).moved.mono ?_
    · rw [same] at member
      exact (overtaken own member).trans_le newer
    rintro ⟨error | _ | report, completed'⟩ trace'' second ⟨post, moved'⟩
    · exact post
    · exact ih (since.trans (moved.trans moved').revision) post.1 post.2.1 post.2.2
    · exact post

theorem forget_follows :
    Follows execute Later (Keeping property) admits (ForgetPost scope options world.revision) (forget memory scope options) []
      world :=
  forgetAttempts_follows kept _ (le_refl _) (forall_mem_nil _)
    (forall_mem_nil _) rfl

end

end Forgetting

end Warm.Memory
