import Warm.VectorIndexRuns
import Warm.PlainCodec

/-! A maintenance pass keeps files and memory in agreement at every step, also where the process stops
between two of them, and so does every step of a clean run. -/
namespace Warm.Server.VectorIndex

open Bytes BitPacking Binary
open Function (update update_of_ne update_self)

variable {build : Build}

section Maintain

variable {crc : Bytes → UInt32} {dim : Nat} {disk disk' : Disk} {memory memory' : Memory} {served : Map}

theorem loadSnapshot_congr (current : disk'.current = disk.current)
    (files : ∀ manifest, disk.current = some manifest → disk'.rows manifest.epoch = disk.rows manifest.epoch ∧
      disk'.ids manifest.epoch = disk.ids manifest.epoch ∧ disk'.graphs manifest.epoch = disk.graphs manifest.epoch) :
    loadSnapshot crc dim disk' = loadSnapshot crc dim disk := by
  rw [loadSnapshot, loadSnapshot, current]
  cases own : disk.current.filter (·.dim = dim) with
  | none => rfl
  | some manifest =>
    have published := (Option.filter_eq_some_iff.mp own).1
    obtain ⟨rows, ids, graphs⟩ := files manifest published
    dsimp only
    rw [loadBase, loadBase, rows, ids, graphs]

theorem Stored.files (stored : Stored crc dim disk epoch covered tail torn served) (log : disk'.log = disk.log)
    (current : disk'.current = disk.current)
    (files : ∀ manifest, disk.current = some manifest → disk'.rows manifest.epoch = disk.rows manifest.epoch ∧ disk'.ids manifest.epoch = disk.ids manifest.epoch ∧ disk'.graphs manifest.epoch = disk.graphs manifest.epoch) :
    Stored crc dim disk' epoch covered tail torn served := by
  have same : loadSnapshot crc dim disk' = loadSnapshot crc dim disk := loadSnapshot_congr current files
  refine ⟨log.trans stored.log, stored.fit, stored.ends, ?_, ?_, ?_, ?_, stored.epoch_lt⟩
  · rw [same, stored.reads, current]
  · rw [same]
    exact stored.base
  · rw [current]
    exact stored.start
  · rw [current]
    exact stored.epoch_le

theorem capture_some (captured : capture memory graphMinRows force = some build) :
    build = ⟨memory.state.liveRows, memory.log.len, memory.log.epoch, (epochOf memory.manifest + 1) % 2 ^ 64,
      .captured⟩ := by
  rw [capture] at captured
  split at captured
  next => cases captured
  split at captured
  next => cases captured
  cases captured
  rfl

theorem begin_keeps (named : Named served) (opened : Opened crc dim disk memory covered tail left served)
    (manifest : memory.manifest = disk.current) (room : epochOf memory.manifest + 1 < 2 ^ 64)
    (captured : capture memory graphMinRows force = some build) :
    Sound crc dim ⟨disk, some { memory with build := some build }⟩ served := by
  have same := capture_some captured
  rw [Nat.mod_eq_of_lt room] at same
  subst same
  obtain ⟨distinct, rows⟩ := listed_liveRows opened.serving.agrees
  refine .ready named (.inl ⟨covered, tail, left, ⟨opened.serving, opened.stored, opened.attached, opened.len⟩,
    .building _ (covered ++ tail) [] rfl manifest trivial (by rw [manifest]) ⟨fun early => absurd rfl early,
      fun early => absurd rfl early⟩ (List.append_nil _).symm ⟨opened.len, rfl, ?_, room, distinct, ?_⟩⟩)
  · have bound := opened.stored.epoch_le
    change memory.log.epoch < epochOf memory.manifest + 1
    rw [manifest]
    omega
  · exact opened.serving.serves.symm.trans rows.symm

theorem epoch_ne (epoch : build.epoch = epochOf disk.current + 1)
    (current : disk.current = some manifest) : manifest.epoch ≠ build.epoch := by
  rw [epoch, current]
  exact Nat.ne_of_lt (Nat.lt_succ_self _)

theorem building_keeps (named : Named served) (opened : Opened crc dim disk memory covered tail left served)
    (manifest : memory.manifest = disk.current) (epoch : build.epoch = epochOf disk.current + 1)
    (split : covered ++ tail = first ++ rest) (captured : Captured crc dim build memory.log.epoch first rest served)
    (early : phase.unpublished) (log : disk'.log = disk.log) (current : disk'.current = disk.current)
    (files : ∀ other, other ≠ build.epoch → disk'.rows other = disk.rows other ∧ disk'.ids other = disk.ids other ∧ disk'.graphs other = disk.graphs other)
    (written : Written disk' { build with phase }) :
    Sound crc dim ⟨disk', some { memory with build := some { build with phase } }⟩ served := by
  have stored := opened.stored.files log current fun published own => files _ (epoch_ne epoch own)
  refine .ready named (.inl ⟨covered, tail, left, ⟨opened.serving, stored, opened.attached, opened.len⟩,
    .building { build with phase } first rest rfl (manifest.trans current.symm) early ?_ written split
      { captured with }⟩)
  rw [current]
  exact epoch

theorem matrix_length (build : Build) : build.matrix.length = build.rows.length := List.length_map _

theorem loadSnapshot_published (current : disk.current = some (build.manifest crc dim))
    (rows : disk.rows build.epoch = some build.matrix) (ids : disk.ids build.epoch = some build.ids) :
    loadSnapshot crc dim disk = (some (build.manifest crc dim), .ofBase dim
      ⟨disk.graphs build.epoch, build.rows.map fun row => row.2.2, build.rows.length⟩ (build.rows.map Prod.fst)
      (build.rows.map fun row => row.2.1)) := by
  have own : disk.current.filter (·.dim = dim) = some (build.manifest crc dim) := by
    rw [current]
    exact Option.filter_some_pos (decide_eq_true rfl)
  have base : loadBase crc dim disk (build.manifest crc dim) = .ok (.ofBase dim
      ⟨disk.graphs build.epoch, build.rows.map fun row => row.2.2, build.rows.length⟩ (build.rows.map Prod.fst)
      (build.rows.map fun row => row.2.1)) := by
    have crcs : ((build.manifest crc dim).rowsCrc.any (· ≠ crc (rowsBytes dim build.matrix))) = false := by
      simp [Build.manifest]
    have idRows : build.ids.length = build.rows.length := List.length_map _
    rw [loadBase]
    rw [show disk.rows (build.manifest crc dim).epoch = some build.matrix from rows]
    dsimp only
    have rowCount : ¬ build.matrix.length ≠ (build.manifest crc dim).rows := not_not.mpr (matrix_length build)
    rw [if_neg rowCount, crcs, if_neg Bool.false_ne_true]
    rw [show disk.ids (build.manifest crc dim).epoch = some build.ids from ids]
    dsimp only
    have idCount : ¬ build.ids.length ≠ (build.manifest crc dim).rows := not_not.mpr idRows
    rw [if_neg idCount, Build.ids, List.map_map, List.map_map]
    rfl
  rw [loadSnapshot, own]
  dsimp only
  rw [base]

theorem publish_keeps (named : Named served) (opened : Opened crc dim disk memory covered tail left served)
    (manifest : memory.manifest = disk.current) (phase : build.phase = .graph)
    (epoch : build.epoch = epochOf disk.current + 1) (written : Written disk build)
    (split : covered ++ tail = first ++ rest) (captured : Captured crc dim build memory.log.epoch first rest served) :
    Sound crc dim ⟨{ disk with current := some (build.manifest crc dim) },
      some { memory with build := some { build with phase := .published } }⟩ served := by
  have rows := written.1 (by simp [phase])
  have ids := written.2 (by simp [phase]) (by simp [phase])
  have loaded : loadSnapshot crc dim { disk with current := some (build.manifest crc dim) } = _ :=
    loadSnapshot_published rfl rows ids
  have stored : Stored crc dim { disk with current := some (build.manifest crc dim) } memory.log.epoch first rest left
      served := by
    refine ⟨?_, ?_, opened.stored.ends, ?_, ⟨listed build.rows, ?_, captured.map⟩, ?_, ?_, opened.stored.epoch_lt⟩
    · rw [← split]
      exact opened.stored.log
    · rw [← split]
      exact opened.stored.fit
    · rw [loaded]
    · rw [loaded]
      exact serving_ofBase dim _ captured.distinct
    · change (if build.logEpoch = memory.log.epoch then max build.covered LOG_HEADER else LOG_HEADER) = _
      rw [if_pos captured.logEpoch, captured.offset]
      omega
    · exact Nat.le_of_lt captured.above
  refine .ready named (.inl ⟨first, rest, left, ⟨opened.serving, stored, opened.attached, ?_⟩,
    .published { build with phase := .published } rfl rfl rfl ?_ ?_⟩)
  · rw [← split]
    exact opened.len
  · rw [manifest]
    exact epoch.symm
  · exact { captured with }

theorem build_state (dim : Nat) (distinct : (build.rows.map Prod.fst).Nodup) :
    Serving dim (build.state dim) (listed build.rows) := by
  have serving := serving_ofBase dim true distinct
  rw [Build.state, Build.ids, List.map_map, List.map_map]
  exact serving

theorem Opened.tail_eq (opened : Opened crc dim disk memory covered tail left served)
    (offset : start = LOG_HEADER + (logBytes crc dim covered).length) :
    slice (logFile disk memory) start (memory.log.len - start) = logBytes crc dim tail := by
  have file := opened.file.1
  have len := opened.len
  rw [logBytes_append, List.length_append] at len
  rw [logBytes_append] at file
  refine slice_middle (logHeader dim memory.log.epoch ++ logBytes crc dim covered) _ left ?_ ?_ ?_
  · rw [file, List.append_assoc, List.append_assoc, List.append_assoc]
  · rw [List.length_append, logHeader_length, offset]
  · rw [len, offset]
    omega

theorem rotate_keeps (named : Named served) (opened : Opened crc dim disk memory covered tail left served)
    (pass : memory.build = some build) (phase : build.phase = .published)
    (current : disk.current = some (build.manifest crc dim)) (epoch : epochOf memory.manifest + 1 = build.epoch)
    (captured : Captured crc dim build memory.log.epoch covered tail served) :
    ∃ disk' memory', maintain crc dim disk memory .rotate = some (disk', memory') ∧
      Sound crc dim ⟨disk', some memory'⟩ served := by
  have tail_eq := opened.tail_eq captured.offset
  have fit : ∀ frame ∈ tail, frame.Fits dim :=
    (List.forall_mem_append.mp opened.stored.fit).2
  have replayed := applyFrames_logBytes fit (readFrame_nil crc dim) (build.state dim)
  rw [List.append_nil] at replayed
  have next : Serving dim (tail.foldl applyFrame (build.state dim)) served := by
    rw [captured.map]
    exact serving_foldl (build_state dim captured.distinct) fit
  obtain ⟨first, base, same⟩ := opened.stored.base
  unfold maintain
  rw [pass]
  dsimp only
  rw [phase]
  rw [tail_eq, replayed]
  rw [if_neg (not_not.mpr rfl)]
  refine ⟨_, _, rfl, .rotated { build with phase := _ } _ tail named rfl rfl epoch (Option.some_ne_none _) opened.serving
    (serving_mutations next _) ?_ current⟩
  refine ⟨?_, fit, readFrame_nil crc dim, opened.stored.reads, ⟨first, base, same⟩, ?_, ?_, captured.small⟩
  · rw [List.append_nil]
    rfl
  · have apart : build.logEpoch ≠ build.epoch := by
      rw [captured.logEpoch]
      exact Nat.ne_of_lt captured.above
    rw [current]
    exact if_neg apart
  · change build.epoch ≤ epochOf disk.current
    rw [current]
    exact Nat.le_refl _

theorem swap_keeps (named : Named served) {fresh : State} (next : Serving dim fresh served)
    (stored : Stored crc dim disk build.epoch [] tail [] served)
    (current : disk.current = some (build.manifest crc dim)) :
    Sound crc dim ⟨disk, some { memory with
      build := some { build with phase := .swapped }
      state := fresh
      log := ⟨(disk.log.getD []).length, build.epoch, none⟩
      manifest := some (build.manifest crc dim) }⟩ served := by
  refine .ready named (.inl ⟨[], tail, [], ⟨next, stored, rfl, ?_⟩,
    .swapped { build with phase := .swapped } rfl rfl current.symm ?_⟩)
  · change (disk.log.getD []).length = _
    rw [stored.log, Option.getD_some, List.length_append, logHeader_length, List.append_nil]
  · rw [current]
    rfl

theorem sweep_keeps {left : Bytes} (named : Named served) (opened : Opened crc dim disk memory covered tail left served)
    (manifest : memory.manifest = disk.current) (epoch : build.epoch = epochOf disk.current)
    (log : disk'.log = disk.log) (current : disk'.current = disk.current)
    (files : ∀ other, ¬ (1 < build.epoch ∧ other = build.epoch - 1) → disk'.rows other = disk.rows other ∧ disk'.ids other = disk.ids other ∧ disk'.graphs other = disk.graphs other) :
    Sound crc dim ⟨disk', some { memory with build := none }⟩ served := by
  have stored := opened.stored.files log current fun published own => files _ (by
    rintro ⟨above, old⟩
    rw [own] at epoch
    change build.epoch = published.epoch at epoch
    omega)
  exact .ready named (.inl ⟨covered, tail, left, ⟨opened.serving, stored, opened.attached, opened.len⟩,
    .idle rfl (manifest.trans current.symm)⟩)

/-- What a step of a pass under way is. -/
inductive Ran (crc : Bytes → UInt32) (dim : Nat) (disk : Disk) (memory : Memory) (build : Build) :
    Step → Disk → Memory → Prop where
  | failed (early : build.phase ≠ .swapped) : Ran crc dim disk memory build .fail disk { memory with build := none }
  | rows (phase : build.phase = .captured) : Ran crc dim disk memory build .writeRows
    { disk with rows := update disk.rows build.epoch (some build.matrix) }
    { memory with build := some { build with phase := .rows } }
  | ids (phase : build.phase = .rows) : Ran crc dim disk memory build .writeIds
    { disk with ids := update disk.ids build.epoch (some build.ids) }
    { memory with build := some { build with phase := .ids } }
  | graph (phase : build.phase = .ids) : Ran crc dim disk memory build .writeGraph
    { disk with graphs := update disk.graphs build.epoch true }
    { memory with build := some { build with phase := .graph } }
  | published (phase : build.phase = .graph) : Ran crc dim disk memory build .publish
    { disk with current := some (build.manifest crc dim) } { memory with build := some { build with phase := .published } }
  | rotated {disk' : Disk} {memory' : Memory} (phase : build.phase = .published)
    (ran : maintain crc dim disk memory .rotate = some (disk', memory')) :
    Ran crc dim disk memory build .rotate disk' memory'
  | swapped {fresh : State} (phase : build.phase = .rotated fresh) : Ran crc dim disk memory build .swap disk
    { memory with
      build := some { build with phase := .swapped }
      state := fresh
      log := ⟨(disk.log.getD []).length, build.epoch, none⟩
      manifest := some (build.manifest crc dim) }
  | swept {disk' : Disk} {rows ids graph : Bool} (phase : build.phase = .swapped) (log : disk'.log = disk.log)
    (current : disk'.current = disk.current)
    (files : ∀ other, ¬ (1 < build.epoch ∧ other = build.epoch - 1) → disk'.rows other = disk.rows other ∧
      disk'.ids other = disk.ids other ∧ disk'.graphs other = disk.graphs other) :
    Ran crc dim disk memory build (.sweep rows ids graph) disk' { memory with build := none }

theorem maintain_ran (pass : memory.build = some build)
    (ran : maintain crc dim disk memory step = some (disk', memory')) :
    Ran crc dim disk memory build step disk' memory' := by
  have whole := ran
  unfold maintain at ran
  rw [pass] at ran
  cases step with
  | begin => cases phase : build.phase <;> simp [phase] at ran
  | writeRows =>
    cases phase : build.phase <;> simp [phase] at ran
    obtain ⟨rfl, rfl⟩ := ran
    exact .rows phase
  | writeIds =>
    cases phase : build.phase <;> simp [phase] at ran
    obtain ⟨rfl, rfl⟩ := ran
    exact .ids phase
  | writeGraph =>
    cases phase : build.phase <;> simp [phase] at ran
    obtain ⟨rfl, rfl⟩ := ran
    exact .graph phase
  | publish =>
    cases phase : build.phase <;> simp [phase] at ran
    obtain ⟨rfl, rfl⟩ := ran
    exact .published phase
  | rotate =>
    cases phase : build.phase <;> simp only [phase, reduceCtorEq] at ran
    exact .rotated phase whole
  | swap =>
    cases phase : build.phase <;> simp [phase] at ran
    obtain ⟨rfl, rfl⟩ := ran
    exact .swapped phase
  | sweep rows ids graph =>
    cases phase : build.phase <;> simp only [phase, reduceCtorEq] at ran
    cases ran
    refine .swept phase rfl rfl fun other kept => ?_
    have same {α : Type} (removed : Bool) (files : Nat → α) (absent : α) :
        (if removed && decide (1 < build.epoch) then update files (build.epoch - 1) absent else files) other =
          files other := by
      split
      next gone =>
        rw [Bool.and_eq_true, decide_eq_true_eq] at gone
        exact update_of_ne (fun own => kept ⟨gone.2, own⟩) _ _
      next => rfl
    exact ⟨same .., same .., same ..⟩
  | fail =>
    dsimp only at ran
    split at ran
    next => cases ran
    next early =>
      cases ran
      exact .failed early

theorem captured_of_begin (pass : memory.build = none)
    (ran : maintain crc dim disk memory (.begin graphMinRows force) = some (disk', memory')) :
    disk' = disk ∧ ∃ build, capture memory graphMinRows force = some build ∧
      memory' = { memory with build := some build } := by
  unfold maintain at ran
  rw [pass] at ran
  obtain ⟨build, captured, same⟩ := Option.map_eq_some_iff.mp ran
  cases same
  exact ⟨rfl, build, captured, rfl⟩

theorem behind_keeps (behind : Behind disk memory) (clean : Clean crc dim ⟨disk, some memory⟩ (.maintain step))
    (ran : maintain crc dim disk memory step = some (disk', memory')) :
    disk' = disk ∧ Behind disk memory' ∧ ∃ build, memory' = { memory with build } := by
  obtain ⟨epoch, early⟩ := behind
  cases pass : memory.build with
  | none =>
    cases step with
    | begin graphMinRows force =>
      obtain ⟨rfl, build, captured, rfl⟩ := captured_of_begin pass ran
      refine ⟨rfl, ⟨epoch, fun other own => ?_⟩, some build, rfl⟩
      cases own
      rw [capture_some captured, ← epoch]
      exact ⟨rfl, Nat.mod_eq_of_lt clean⟩
    | _ =>
      unfold maintain at ran
      rw [pass] at ran
      cases ran
  | some build =>
    obtain ⟨phase, own⟩ := early build pass
    cases maintain_ran pass ran with
    | failed =>
      refine ⟨rfl, ⟨epoch, fun other some => ?_⟩, none, rfl⟩
      cases some
    | rows => exact absurd own (clean build pass)
    | rotated late => cases phase.symm.trans late
    | swept late => cases phase.symm.trans late
    | _ late => cases phase.symm.trans late

theorem inPass_keeps (named : Named served) (opened : Opened crc dim disk memory covered tail left served)
    (pass : InPass crc dim disk memory covered tail served) (clean : Clean crc dim ⟨disk, some memory⟩ (.maintain step))
    (ran : maintain crc dim disk memory step = some (disk', memory')) : Sound crc dim ⟨disk', some memory'⟩ served := by
  have kept {build : Option Build} (next : InPass crc dim disk { memory with build } covered tail served) :
      Sound crc dim ⟨disk, some { memory with build }⟩ served :=
    .ready named (.inl ⟨covered, tail, left, ⟨opened.serving, opened.stored, opened.attached, opened.len⟩, next⟩)
  cases pass with
  | idle pass manifest =>
    cases step with
    | begin graphMinRows force =>
      obtain ⟨rfl, build, captured, rfl⟩ := captured_of_begin pass ran
      exact begin_keeps named opened manifest clean captured
    | _ =>
      unfold maintain at ran
      rw [pass] at ran
      cases ran
  | building build first rest pass manifest phase epoch written split captured =>
    have other_files {other : Nat} (apart : other ≠ build.epoch) {α : Type} (files : Nat → α) (value : α) :
        update files build.epoch value other = files other := update_of_ne apart _ _
    cases maintain_ran pass ran with
    | failed early => exact kept (.idle rfl manifest)
    | rows own =>
      exact building_keeps named opened manifest epoch split captured trivial rfl rfl
        (fun other apart => ⟨other_files apart _ _, rfl, rfl⟩) ⟨fun _ => update_self .., fun _ late => absurd rfl late⟩
    | ids own =>
      exact building_keeps named opened manifest epoch split captured trivial rfl rfl
        (fun other apart => ⟨rfl, other_files apart _ _, rfl⟩)
        ⟨fun _ => written.1 (by simp [own]), fun _ _ => update_self ..⟩
    | graph own =>
      exact building_keeps named opened manifest epoch split captured trivial rfl rfl
        (fun other apart => ⟨rfl, rfl, other_files apart _ _⟩)
        ⟨fun _ => written.1 (by simp [own]), fun _ _ => written.2 (by simp [own]) (by simp [own])⟩
    | published own => exact publish_keeps named opened manifest own epoch written split captured
    | rotated own | swapped own | swept own => exact absurd phase (by simp [own, Phase.unpublished])
  | published build pass phase current epoch captured =>
    cases maintain_ran pass ran with
    | failed =>
      refine kept (.behind ⟨?_, fun other some => ?_⟩)
      · rw [current]
        exact epoch
      · cases some
    | rotated _ ran =>
      obtain ⟨disk'', memory'', same, next⟩ := rotate_keeps named opened pass phase current epoch captured
      cases ran.symm.trans same
      exact next
    | swept own => cases phase.symm.trans own
    | _ own => cases phase.symm.trans own
  | swapped build pass phase manifest epoch =>
    cases maintain_ran pass ran with
    | failed early => exact absurd phase early
    | swept own log current files => exact sweep_keeps named opened manifest epoch log current files
    | rotated own => cases phase.symm.trans own
    | _ own => cases phase.symm.trans own
  | behind behind =>
    obtain ⟨rfl, next, build, rfl⟩ := behind_keeps behind clean ran
    exact kept (.behind next)

theorem maintain_keeps (sound : Sound crc dim ⟨disk, some memory⟩ served)
    (clean : Clean crc dim ⟨disk, some memory⟩ (.maintain step))
    (ran : maintain crc dim disk memory step = some (disk', memory')) : Sound crc dim ⟨disk', some memory'⟩ served := by
  cases sound with
  | ready named ready =>
    rcases ready with ⟨covered, tail, left, opened, pass⟩ | out
    · exact inPass_keeps named opened pass clean ran
    · obtain ⟨rfl, next, build, rfl⟩ := behind_keeps out.behind clean ran
      exact .ready named (.inr ⟨next, out.serving, out.stored, out.unlinked⟩)
  | rotated build fresh tail named pass phase epoch unlinked serving next stored current =>
    cases maintain_ran pass ran with
    | failed =>
      refine .ready named (.inr ⟨⟨?_, fun other some => ?_⟩, serving, ⟨_, tail, stored⟩, unlinked⟩)
      · rw [current]
        exact epoch
      · cases some
    | swapped own =>
      cases phase.symm.trans own
      exact swap_keeps named next stored current
    | rotated own => cases phase.symm.trans own
    | swept own => cases phase.symm.trans own
    | _ own => cases phase.symm.trans own

end Maintain

section Runs

variable {crc : Bytes → UInt32} {dim : Nat}

theorem accounts_cons (first : Accounts served [outcome] next) (rest : Accounts next outcomes last) :
    Accounts served (outcome :: outcomes) last := by
  cases first with
  | quiet done => cases done; exact .quiet rest
  | done done => cases done; exact .done rest
  | failed done => cases done; exact .failed rest
  | interrupted count done => cases done; exact .interrupted count rest

theorem quiet_keeps (sound : Sound crc dim world served) :
    ∃ next, Accounts served [.quiet] next ∧ Sound crc dim world next :=
  ⟨served, .quiet .nil, sound⟩

theorem openIndex_keeps (named : Named served) (closed : Closed crc dim disk served) (fault : Option OpenFault) :
    Sound crc dim (openIndex crc dim fault disk) served := by
  rcases closed with fresh | ⟨epoch, covered, tail, torn, stored⟩
  · exact openIndex_fresh named fresh fault
  · exact openIndex_stored named stored fault

theorem call_keeps (named : Named served) (ready : Ready crc dim disk memory served) (request : Call)
    (fault : Option AppendFault)
    (clean : request.appends dim memory.state → CleanCall crc dim disk memory request fault) :
    ∃ disk' memory' done next, runCall dim crc disk memory request fault = (disk', memory', done) ∧
      Accounts served [if done then .done request else .failed request] next ∧ Named next ∧
      Ready crc dim disk' memory' next := by
  obtain ⟨disk', memory', done, ran, named', ready'⟩ := runCall_keeps named ready request clean
  refine ⟨disk', memory', done, _, ran, ?_, named', ready'⟩
  cases done with
  | true => exact .done .nil
  | false => exact .failed .nil

theorem reconcile_keeps (named : Named served) (ready : Ready crc dim disk memory served)
    (keep : String → UInt64 → Bool) (fault : Option AppendFault) (cleared : Option ClearFault)
    (clean : Call.appends dim memory.state (.remove (stale memory.state keep)) → CleanCall crc dim disk memory (.remove (stale memory.state keep)) fault) :
    ∃ next, Accounts served [(reconcile crc dim disk memory keep fault cleared).2] next ∧
      Sound crc dim (reconcile crc dim disk memory keep fault cleared).1 next := by
  obtain ⟨disk', memory', done, next, ran, accounts, named', ready'⟩ := call_keeps named ready _ fault clean
  refine ⟨next, ?_⟩
  rw [reconcile, ran]
  cases done with
  | false => exact ⟨accounts, .closed named' ready'.closed⟩
  | true =>
    have marked := clearDirty_keeps ready' cleared
    refine ⟨accounts, ?_⟩
    rcases cleared with _ | fault
    · exact .ready named' marked
    · exact .closed named' marked.closed

theorem holdsLog_of_ready (ready : Ready crc dim disk memory served) : memory.build.any (·.holdsLog) = false := by
  have free {build : Build} (pass : memory.build = some build) (phase : ∀ fresh, build.phase ≠ .rotated fresh) :
      memory.build.any (·.holdsLog) = false := by
    rw [pass, Option.any_some, Build.holdsLog]
    cases own : build.phase with
    | rotated fresh => exact absurd own (phase fresh)
    | _ => rfl
  have behind (behind : Behind disk memory) : memory.build.any (·.holdsLog) = false := by
    cases pass : memory.build with
    | none => rfl
    | some build =>
      rw [← pass]
      exact free pass fun fresh own => by cases (behind.2 build pass).1.symm.trans own
  rcases ready with ⟨_, _, _, _, pass⟩ | out
  · cases pass with
    | idle none => rw [none]; rfl
    | building build _ _ own _ phase =>
      refine free own fun fresh late => ?_
      rw [late] at phase
      exact phase
    | published build own phase | swapped build own phase =>
      exact free own fun fresh late => by cases phase.symm.trans late
    | behind own => exact behind own
  · exact behind out.behind

/-- Every clean step keeps memory and files in agreement on a map its outcome accounts for. -/
theorem step_keeps (sound : Sound crc dim world served) (clean : Clean crc dim world event) :
    ∃ next, Accounts served [(world.step crc dim event).2] next ∧ Sound crc dim (world.step crc dim event).1 next := by
  cases sound with
  | closed named closed =>
    cases event with
    | opened fault => exact quiet_keeps (openIndex_keeps named closed fault)
    | _ => exact quiet_keeps (.closed named closed)
  | @ready disk memory served named ready =>
    have free := holdsLog_of_ready ready
    cases event with
    | opened fault => exact quiet_keeps (.ready named ready)
    | call request fault =>
      obtain ⟨disk', memory', done, next, ran, accounts, named', ready'⟩ := call_keeps named ready request fault clean
      unfold World.step
      dsimp only
      rw [free, if_neg Bool.false_ne_true, ran]
      exact ⟨next, accounts, .ready named' ready'⟩
    | crash request written =>
      obtain ⟨count, sound⟩ := crashCall_keeps named ready request written clean
      unfold World.step
      dsimp only
      rw [free, if_neg Bool.false_ne_true]
      exact ⟨_, .interrupted count .nil, sound⟩
    | reconcile keep fault cleared =>
      unfold World.step
      dsimp only
      split
      next => exact quiet_keeps (.ready named ready)
      next => exact reconcile_keeps named ready keep fault cleared clean
    | close cleared => exact quiet_keeps (.ready named (clearDirty_keeps ready cleared))
    | maintain step =>
      unfold World.step
      dsimp only
      cases ran : VectorIndex.maintain crc dim disk memory step with
      | none => exact quiet_keeps (.ready named ready)
      | some next => exact quiet_keeps (maintain_keeps (.ready named ready) clean ran)
    | stop => exact quiet_keeps (.closed named ready.closed)
  | @rotated disk memory served build fresh tail named pass phase epoch unlinked serving next stored current =>
    have held : memory.build.any (·.holdsLog) = true := by
      rw [pass, Option.any_some, Build.holdsLog, phase]
    have same : Sound crc dim ⟨disk, some memory⟩ served :=
      .rotated build fresh tail named pass phase epoch unlinked serving next stored current
    have closed : Sound crc dim ⟨disk, none⟩ served := .closed named (.inr ⟨_, _, _, _, stored⟩)
    cases event with
    | opened fault => exact quiet_keeps same
    | call request fault =>
      unfold World.step
      dsimp only
      rw [held, if_pos rfl]
      exact quiet_keeps same
    | crash request written =>
      unfold World.step
      dsimp only
      rw [held, if_pos rfl]
      exact quiet_keeps closed
    | reconcile keep fault cleared =>
      unfold World.step
      dsimp only
      rw [held, Bool.true_or, if_pos rfl]
      exact quiet_keeps same
    | close cleared =>
      have cleaned (dirty : Bool) : Sound crc dim ⟨{ disk with dirty := false }, some { memory with dirty }⟩ served :=
        .rotated build fresh tail named pass phase epoch unlinked serving next (stored.marked false) current
      rcases cleared with _ | _ | _
      · exact quiet_keeps (cleaned false)
      · exact quiet_keeps same
      · exact quiet_keeps (cleaned memory.dirty)
    | maintain step =>
      unfold World.step
      dsimp only
      cases ran : VectorIndex.maintain crc dim disk memory step with
      | none => exact quiet_keeps same
      | some next => exact quiet_keeps (maintain_keeps same clean ran)
    | stop => exact quiet_keeps closed

theorem run_keeps (sound : Sound crc dim world served) (clean : CleanRun crc dim world events) :
    ∃ last, Accounts served (world.run crc dim events).2 last ∧ Sound crc dim (world.run crc dim events).1 last := by
  induction events generalizing world served with
  | nil => exact ⟨served, .nil, sound⟩
  | cons event events ih =>
    obtain ⟨next, first, sound'⟩ := step_keeps sound clean.1
    obtain ⟨last, rest, sound''⟩ := ih sound' clean.2
    exact ⟨last, accounts_cons first rest, sound''⟩

theorem sound_empty (crc : Bytes → UInt32) (dim : Nat) : Sound crc dim .empty fun _ => none := by
  refine .closed (fun id held => ?_) (.inl ⟨rfl, Nat.zero_lt_succ _, rfl⟩)
  cases held

theorem Sound.serving (sound : Sound crc dim world served) (opened : world.memory = some memory) :
    Serving dim memory.state served := by
  cases sound with
  | closed => cases opened
  | ready named ready =>
    cases opened
    exact ready.serving
  | rotated build fresh tail named pass phase epoch unlinked serving =>
    cases opened
    exact serving

end Runs

/-- CRC-32 as the server takes it. -/
def Sample.crc (data : Bytes) : UInt32 := UInt32.ofNat (PlainCodec.crc32 data)

/-- The row `[1.0]` of the document `a`. -/
def Sample.staged : Call := .stage [("a", 1, [0x3F800000])]

end Warm.Server.VectorIndex
