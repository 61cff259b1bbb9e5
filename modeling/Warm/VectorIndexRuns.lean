import Warm.VectorIndexDurable

/-! Every step of a clean run keeps the files and the memory of the index in agreement with the map
that the outcomes account for. -/
namespace Warm.Server.VectorIndex

open Bytes BitPacking Binary List

/-- The pass has not replaced `CURRENT` yet. -/
def Phase.unpublished : Phase → Prop
  | .captured | .rows | .ids | .graph => True
  | .published | .rotated _ | .swapped => False

/-- An open index whose log handle is of the log file; behind the end of its frames there may be bytes
of appends that failed. -/
structure Opened (crc : Bytes → UInt32) (dim : Nat) (disk : Disk) (memory : Memory) (covered tail : List Frame)
    (left : Bytes) (served : Map) : Prop where
  serving : Serving dim memory.state served
  stored : Stored crc dim disk memory.log.epoch covered tail left served
  attached : memory.log.unlinked = none
  len : memory.log.len = LOG_HEADER + (logBytes crc dim (covered ++ tail)).length

/-- What a pass captured, and the frames appended since. -/
structure Captured (crc : Bytes → UInt32) (dim : Nat) (build : Build) (epoch : Nat) (first rest : List Frame)
    (served : Map) : Prop where
  offset : build.covered = LOG_HEADER + (logBytes crc dim first).length
  logEpoch : build.logEpoch = epoch
  above : epoch < build.epoch
  small : build.epoch < 2 ^ 64
  distinct : (build.rows.map Prod.fst).Nodup
  map : served = rest.foldl Frame.applyTo (listed build.rows)

/-- The files a pass has written by its phase. -/
def Written (disk : Disk) (build : Build) : Prop :=
  (build.phase ≠ .captured → disk.rows build.epoch = some build.matrix) ∧
    (build.phase ≠ .captured → build.phase ≠ .rows → disk.ids build.epoch = some build.ids)

/-- A pass published a snapshot and failed before the index took it; a pass begun since has written no
file. -/
def Behind (disk : Disk) (memory : Memory) : Prop :=
  epochOf memory.manifest + 1 = epochOf disk.current ∧
    ∀ build, memory.build = some build → build.phase = .captured ∧ build.epoch = epochOf disk.current

/-- The pass under way next to an index whose log is in place. -/
inductive InPass (crc : Bytes → UInt32) (dim : Nat) (disk : Disk) (memory : Memory) (covered tail : List Frame)
    (served : Map) : Prop where
  | idle (pass : memory.build = none) (manifest : memory.manifest = disk.current)
  | building (build : Build) (first rest : List Frame) (pass : memory.build = some build)
    (manifest : memory.manifest = disk.current) (phase : build.phase.unpublished)
    (epoch : build.epoch = epochOf disk.current + 1) (written : Written disk build)
    (split : covered ++ tail = first ++ rest) (captured : Captured crc dim build memory.log.epoch first rest served)
  | published (build : Build) (pass : memory.build = some build) (phase : build.phase = .published)
    (current : disk.current = some (build.manifest crc dim)) (epoch : epochOf memory.manifest + 1 = build.epoch)
    (captured : Captured crc dim build memory.log.epoch covered tail served)
  | swapped (build : Build) (pass : memory.build = some build) (phase : build.phase = .swapped)
    (manifest : memory.manifest = disk.current) (epoch : build.epoch = epochOf disk.current)
  | behind (behind : Behind disk memory)

/-- A pass failed between the rotation of the log and the swap: the handle is of the old log. -/
structure Unlinked (crc : Bytes → UInt32) (dim : Nat) (disk : Disk) (memory : Memory) (served : Map) : Prop where
  behind : Behind disk memory
  serving : Serving dim memory.state served
  stored : ∃ epoch tail, Stored crc dim disk epoch [] tail [] served
  unlinked : memory.log.unlinked ≠ none

/-- The ids of the map fit a frame. -/
def Named (served : Map) : Prop := ∀ id, (served id).isSome = true → (utf8 id).length < 2 ^ 16

/-- The state of an index next to its files, no pass holding the log lock. -/
def Ready (crc : Bytes → UInt32) (dim : Nat) (disk : Disk) (memory : Memory) (served : Map) : Prop :=
  (∃ covered tail left, Opened crc dim disk memory covered tail left served ∧
    InPass crc dim disk memory covered tail served) ∨ Unlinked crc dim disk memory served

/-- Memory and files agree on the map. -/
inductive Sound (crc : Bytes → UInt32) (dim : Nat) : World → Map → Prop where
  | closed {disk : Disk} {served : Map} (named : Named served) (closed : Closed crc dim disk served) :
    Sound crc dim ⟨disk, none⟩ served
  | ready {disk : Disk} {memory : Memory} {served : Map} (named : Named served)
    (ready : Ready crc dim disk memory served) : Sound crc dim ⟨disk, some memory⟩ served
  | rotated {disk : Disk} {memory : Memory} {served : Map} (build : Build) (fresh : State) (tail : List Frame)
    (named : Named served) (pass : memory.build = some build) (phase : build.phase = .rotated fresh)
    (epoch : epochOf memory.manifest + 1 = build.epoch) (unlinked : memory.log.unlinked ≠ none)
    (serving : Serving dim memory.state served) (next : Serving dim fresh served)
    (stored : Stored crc dim disk build.epoch [] tail [] served)
    (current : disk.current = some (build.manifest crc dim)) : Sound crc dim ⟨disk, some memory⟩ served

section Calls

variable {crc : Bytes → UInt32} {dim : Nat} {disk : Disk} {memory : Memory} {covered tail : List Frame} {left : Bytes}
  {served : Map}

theorem known_eq (serving : Serving dim state served) : known state = fun id => (served id).isSome := by
  funext id
  rw [known, ← serving.serves, State.serves, Option.isSome_map]

theorem apply_eq (state : State) (call : Call) : call.apply state = (call.frames (known state)).foldl applyFrame state := by
  cases call with
  | stage docs | remove ids =>
    rw [Call.apply, Call.frames, foldl_map]
    rfl

theorem frames_fit (named : Named served) {call : Call} (valid : call.valid dim = true) :
    ∀ frame ∈ call.framesOn served, frame.Fits dim := by
  intro frame member
  cases call with
  | stage docs =>
    obtain ⟨doc, own, rfl⟩ := mem_map.mp member
    have checked := all_eq_true.mp valid doc own
    rw [Bool.and_eq_true, decide_eq_true_eq, decide_eq_true_eq] at checked
    exact ⟨.inl ⟨rfl, checked.1⟩, by change (utf8 doc.1).length < _; omega⟩
  | remove ids =>
    obtain ⟨id, own, rfl⟩ := mem_map.mp member
    exact ⟨.inr ⟨rfl, rfl⟩, named id (mem_filter.mp own).2⟩

theorem named_foldl (named : Named served) {frames : List Frame} (fit : ∀ frame ∈ frames, frame.Fits dim) :
    Named (frames.foldl Frame.applyTo served) := by
  induction frames generalizing served with
  | nil => exact named
  | cons frame frames ih =>
    refine ih (fun id held => ?_) (forall_mem_cons.mp fit).2
    rw [Frame.applyTo] at held
    split at held
    next own =>
      rw [own]
      exact (fit frame (by simp)).id
    next => exact named id held

theorem write_behind (front left written : Bytes) :
    Bytes.write (front ++ left) front.length written = front ++ overwritten left written := by
  rw [Bytes.write, take_left, overwritten, drop_append, drop_eq_nil_of_le (by omega), nil_append,
    Nat.add_sub_cancel_left]

section

variable (opened : Opened crc dim disk memory covered tail left served)
include opened

theorem Opened.file :
    logFile disk memory = logHeader dim memory.log.epoch ++ logBytes crc dim (covered ++ tail) ++ left ∧
      memory.log.len = (logHeader dim memory.log.epoch ++ logBytes crc dim (covered ++ tail)).length := by
  refine ⟨?_, ?_⟩
  · rw [logFile, opened.attached, opened.stored.log, append_assoc]
    rfl
  · rw [length_append, logHeader_length, opened.len]

theorem Opened.remains : remains disk memory = left := by
  obtain ⟨file, len⟩ := opened.file
  rw [VectorIndex.remains, file, len, drop_left]

theorem Opened.writeLog (written : Bytes)
    (dirty dirty' : Bool) :
    writeLog { disk with dirty } { memory with dirty := dirty' } written =
      ({ disk with
        log := some (logHeader dim memory.log.epoch ++ (logBytes crc dim (covered ++ tail) ++ overwritten left written))
        dirty }, { memory with dirty := dirty' }) := by
  have same : logFile { disk with dirty } { memory with dirty := dirty' } = logFile disk memory := rfl
  obtain ⟨file, len⟩ := opened.file
  rw [VectorIndex.writeLog, same]
  rw [opened.attached, len, file, write_behind, append_assoc]

end

theorem Stored.append (stored : Stored crc dim disk epoch covered tail left served)
    (fit : ∀ frame ∈ more, frame.Fits dim) (ends : readFrame crc dim torn = none) (dirty : Bool) :
    Stored crc dim { disk with
      log := some (logHeader dim epoch ++ (logBytes crc dim (covered ++ tail) ++ (logBytes crc dim more ++ torn)))
      dirty } epoch covered (tail ++ more) torn (more.foldl Frame.applyTo served) where
  log := by
    rw [← append_assoc covered, logBytes_append crc dim (covered ++ tail), append_assoc (logBytes _ _ _)]
  fit frame member := by
    rw [← append_assoc, mem_append] at member
    exact member.elim (stored.fit frame) (fit frame)
  ends := ends
  base := by
    obtain ⟨first, serving, same⟩ := stored.base
    exact ⟨first, serving, by rw [foldl_append, ← same]⟩
  __ := stored

theorem Stored.retorn (stored : Stored crc dim disk epoch covered tail left served)
    (ends : readFrame crc dim torn = none) (dirty : Bool) :
    Stored crc dim { disk with
      log := some (logHeader dim epoch ++ (logBytes crc dim (covered ++ tail) ++ torn))
      dirty } epoch covered tail torn served := by
  have none : ∀ frame ∈ ([] : List Frame), frame.Fits dim := by simp
  have same := stored.append none ends dirty
  rw [append_nil] at same
  exact same

theorem InPass.append (pass : InPass crc dim disk memory covered tail served) (more : List Frame)
    (current : disk'.current = disk.current) (rows : disk'.rows = disk.rows) (ids : disk'.ids = disk.ids)
    (build : memory'.build = memory.build) (manifest : memory'.manifest = memory.manifest)
    (epoch : memory'.log.epoch = memory.log.epoch) :
    InPass crc dim disk' memory' covered (tail ++ more) (more.foldl Frame.applyTo served) := by
  cases pass with
  | idle none own => exact .idle (build.trans none) (by rw [manifest, own, current])
  | building pass first rest own own' phase number written split captured =>
    refine .building pass first (rest ++ more) (build.trans own) (by rw [manifest, own', current]) phase
      (by rw [current]; exact number) ?_ ?_ ?_
    · rw [Written, rows, ids]
      exact written
    · rw [← append_assoc, split, append_assoc]
    · rw [epoch]
      exact { captured with map := by rw [foldl_append, ← captured.map] }
  | published pass own phase own' number captured =>
    refine .published pass (build.trans own) phase (current.trans own') (by rw [manifest]; exact number) ?_
    rw [epoch]
    exact { captured with map := by rw [foldl_append, ← captured.map] }
  | swapped pass own phase own' number =>
    exact .swapped pass (build.trans own) phase (by rw [manifest, own', current]) (by rw [current]; exact number)
  | behind behind =>
    refine .behind ?_
    rw [Behind, manifest, current, build]
    exact behind

theorem InPass.same (pass : InPass crc dim disk memory covered tail served) (current : disk'.current = disk.current)
    (rows : disk'.rows = disk.rows) (ids : disk'.ids = disk.ids) (build : memory'.build = memory.build)
    (manifest : memory'.manifest = memory.manifest) (epoch : memory'.log.epoch = memory.log.epoch) :
    InPass crc dim disk' memory' covered tail served := by
  have more : InPass crc dim disk' memory' covered (tail ++ []) served :=
    pass.append [] current rows ids build manifest epoch
  rwa [append_nil] at more

section

variable (opened : Opened crc dim disk memory covered tail left served)
include opened

theorem Opened.marked (dirty : Bool) :
    Opened crc dim { disk with dirty } memory covered tail left served :=
  ⟨opened.serving, opened.stored.marked dirty, opened.attached, opened.len⟩

theorem append_done
    (pass : InPass crc dim disk memory covered tail served) (fit : ∀ frame ∈ more, frame.Fits dim)
    (ends : readFrame crc dim (left.drop (logBytes crc dim more).length) = none) :
    ∃ disk' memory', append disk memory (logBytes crc dim more) none = (disk', memory', true) ∧
      memory'.state = memory.state ∧
      Ready crc dim disk' { memory' with state := more.foldl applyFrame memory.state }
        (more.foldl Frame.applyTo served) := by
  refine ⟨{ disk with
      log := some (logHeader dim memory.log.epoch ++
        (logBytes crc dim (covered ++ tail) ++ overwritten left (logBytes crc dim more)))
      dirty := disk.dirty || !memory.dirty },
    { memory with
      dirty := true
      log := { memory.log with len := memory.log.len + (logBytes crc dim more).length } }, ?_, rfl,
    .inl ⟨covered, tail ++ more, left.drop (logBytes crc dim more).length, ?_, ?_⟩⟩
  · rw [VectorIndex.append, VectorIndex.marked, opened.writeLog]
  · refine ⟨serving_foldl opened.serving fit, opened.stored.append fit ends _, opened.attached, ?_⟩
    rw [opened.len, ← append_assoc, logBytes_append crc dim (covered ++ tail), length_append, Nat.add_assoc]
  · exact pass.append more rfl rfl rfl rfl rfl rfl

theorem append_undone
    (pass : InPass crc dim disk memory covered tail served) (data : Bytes)
    (ends : ∀ count, fault = .written count → readFrame crc dim (overwritten left (data.take count)) = none) :
    ∃ disk' memory', append disk memory data (some fault) = (disk', memory', false) ∧
      Ready crc dim disk' memory' served := by
  cases fault with
  | unmarked created => exact ⟨_, memory, rfl, .inl ⟨covered, tail, left, opened.marked _, pass.same rfl rfl rfl rfl rfl rfl⟩⟩
  | written count =>
    rw [VectorIndex.append, VectorIndex.marked, opened.writeLog]
    refine ⟨_, _, rfl, .inl ⟨covered, tail, overwritten left (data.take count),
      ⟨opened.serving, opened.stored.retorn (ends count rfl) _, opened.attached, opened.len⟩, ?_⟩⟩
    exact pass.same rfl rfl rfl rfl rfl rfl

end

theorem Unlinked.same (out : Unlinked crc dim disk memory served) (dirty : Bool) (state : memory'.state = memory.state)
    (build : memory'.build = memory.build) (manifest : memory'.manifest = memory.manifest)
    (unlinked : memory'.log.unlinked ≠ none) : Unlinked crc dim { disk with dirty } memory' served := by
  obtain ⟨epoch, tail, stored⟩ := out.stored
  refine ⟨?_, state ▸ out.serving, ⟨epoch, tail, stored.marked dirty⟩, unlinked⟩
  rw [Behind, manifest, build]
  exact out.behind

theorem append_unlinked (out : Unlinked crc dim disk memory served) (data : Bytes) (fault : AppendFault) :
    ∃ disk' memory', append disk memory data (some fault) = (disk', memory', false) ∧
      Ready crc dim disk' memory' served := by
  cases fault with
  | unmarked created => exact ⟨_, memory, rfl, .inr (out.same _ rfl rfl rfl out.unlinked)⟩
  | written count =>
    obtain ⟨file, unlinked⟩ := Option.ne_none_iff_exists'.mp out.unlinked
    rw [VectorIndex.append, VectorIndex.writeLog]
    rw [unlinked]
    exact ⟨_, _, rfl, .inr (out.same (disk.dirty || !memory.dirty) rfl rfl rfl (Option.some_ne_none _))⟩

section

variable (ready : Ready crc dim disk memory served)
include ready

theorem Ready.closed : Closed crc dim disk served := by
  rcases ready with ⟨covered, tail, left, opened, _⟩ | out
  · exact .inr ⟨_, _, _, _, opened.stored⟩
  · obtain ⟨epoch, tail, stored⟩ := out.stored
    exact .inr ⟨_, _, _, _, stored⟩

theorem Ready.marked (dirty dirty' : Bool) :
    Ready crc dim { disk with dirty } { memory with dirty := dirty' } served := by
  rcases ready with ⟨covered, tail, left, opened, pass⟩ | out
  · exact .inl ⟨covered, tail, left, ⟨opened.serving, opened.stored.marked dirty, opened.attached, opened.len⟩,
      pass.same rfl rfl rfl rfl rfl rfl⟩
  · exact .inr (out.same dirty rfl rfl rfl out.unlinked)

theorem Ready.serving : Serving dim memory.state served := by
  rcases ready with ⟨_, _, _, opened, _⟩ | out
  · exact opened.serving
  · exact out.serving

end

theorem effect_of_idle (serving : Serving dim state served) {call : Call} (idle : call.idle state = true) :
    call.effect served = served := by
  cases call with
  | stage docs => cases idle
  | remove ids =>
    rw [Call.idle, known_eq serving, List.isEmpty_iff] at idle
    rw [Call.effect, Call.framesOn, Call.frames, idle]
    rfl

theorem bytes_eq (serving : Serving dim state served) (call : Call) :
    call.bytes crc state = logBytes crc dim (call.framesOn served) := by
  rw [Call.bytes, known_eq serving]
  rfl

/-- A call on an open index applies all of its frames, or it fails and changes nothing. -/
theorem runCall_keeps (named : Named served) (ready : Ready crc dim disk memory served) (call : Call)
    {fault : Option AppendFault}
    (clean : call.appends dim memory.state → CleanCall crc dim disk memory call fault) :
    ∃ disk' memory' done, runCall dim crc disk memory call fault = (disk', memory', done) ∧
      Named (if done then call.effect served else served) ∧
      Ready crc dim disk' memory' (if done then call.effect served else served) := by
  rw [runCall]
  split
  next => exact ⟨disk, memory, false, rfl, named, ready⟩
  next valid =>
    split
    next idle =>
      refine ⟨disk, memory, true, rfl, ?_⟩
      rw [if_pos rfl, effect_of_idle ready.serving idle]
      exact ⟨named, ready⟩
    next busy =>
      have valid : call.valid dim = true := by simpa using valid
      have clean := clean ⟨valid, Bool.not_eq_true _ ▸ busy⟩
      have fit := frames_fit named valid
      have bytes : call.bytes crc memory.state = logBytes crc dim (call.framesOn served) := bytes_eq ready.serving call
      rcases ready with ⟨covered, tail, left, opened, pass⟩ | out
      · cases fault with
        | some fault =>
          have ends (count : Nat) (same : fault = .written count) :
              readFrame crc dim (overwritten left ((call.bytes crc memory.state).take count)) = none := by
            subst same
            have behind := clean opened.attached
            rwa [opened.remains] at behind
          obtain ⟨disk', memory', failed, ready'⟩ := append_undone opened pass (call.bytes crc memory.state) ends
          rw [failed]
          exact ⟨disk', memory', false, rfl, named, ready'⟩
        | none =>
          have behind := clean.2
          rw [opened.remains, bytes] at behind
          obtain ⟨disk', memory', appended, state, ready'⟩ := append_done opened pass fit behind
          rw [bytes, appended]
          refine ⟨_, _, true, rfl, named_foldl named fit, ?_⟩
          rw [apply_eq, state, known_eq opened.serving]
          exact ready'
      · cases fault with
        | some fault =>
          obtain ⟨disk', memory', failed, ready'⟩ := append_unlinked out (call.bytes crc memory.state) fault
          rw [failed]
          exact ⟨disk', memory', false, rfl, named, ready'⟩
        | none => exact absurd clean.1 out.unlinked

theorem crashCall_keeps (named : Named served) (ready : Ready crc dim disk memory served) (call : Call) (written : Nat)
    (clean : call.appends dim memory.state → CleanCrash crc dim disk memory call written) :
    ∃ count, Sound crc dim ⟨crashCall dim crc disk memory call written, none⟩
      (((call.framesOn served).take count).foldl Frame.applyTo served) := by
  rw [crashCall]
  split
  next => exact ⟨0, .closed named ready.closed⟩
  next begun =>
    rw [Bool.or_eq_true, not_or, Bool.not_eq_true', Bool.not_eq_false, Bool.not_eq_true] at begun
    have fit := frames_fit named begun.1
    have clean := clean begun
    have bytes : call.bytes crc memory.state = logBytes crc dim (call.framesOn served) := bytes_eq ready.serving call
    rcases ready with ⟨covered, tail, left, opened, _⟩ | out
    · obtain ⟨count, torn, cut, ends⟩ :=
        FrameFormat.take_encodeAll (frameFormat_lawful crc dim) (readFrame_nil crc dim) fit written
      have part : ∀ frame ∈ (call.framesOn served).take count, frame.Fits dim :=
        fun frame member => fit frame (mem_of_mem_take member)
      have cut' : (call.bytes crc memory.state).take written =
          logBytes crc dim ((call.framesOn served).take count) ++ torn := by
        rw [bytes]
        exact cut
      have whole := congrArg Prod.snd (applyFrames_logBytes part ends (.empty dim))
      have behind := clean opened.attached
      rw [opened.remains, cut', whole, overwritten, append_assoc, drop_left] at behind
      have stored := opened.stored.append part behind (disk.dirty || !memory.dirty)
      have wrote := opened.writeLog ((call.bytes crc memory.state).take written) (disk.dirty || !memory.dirty) memory.dirty
      rw [VectorIndex.marked, wrote, cut', overwritten, append_assoc (logBytes _ _ _)]
      exact ⟨count, .closed (named_foldl named part) (.inr ⟨_, _, _, _, stored⟩)⟩
    · refine ⟨0, .closed named ?_⟩
      obtain ⟨epoch, tail, stored⟩ := out.stored
      obtain ⟨file, unlinked⟩ := Option.ne_none_iff_exists'.mp out.unlinked
      rw [VectorIndex.writeLog, unlinked]
      exact .inr ⟨_, _, _, _, stored.marked _⟩

theorem clearDirty_keeps (ready : Ready crc dim disk memory served) (cleared : Option ClearFault) :
    Ready crc dim (clearDirty disk memory cleared).1 (clearDirty disk memory cleared).2 served := by
  rcases cleared with _ | _ | _
  · exact ready.marked false false
  · exact ready
  · exact ready.marked false memory.dirty

end Calls

section Open

variable {crc : Bytes → UInt32} {dim : Nat} {disk : Disk} {covered tail : List Frame} {served : Map}

theorem stored_header (crc : Bytes → UInt32) (dim : Nat) (current : disk.current = none) :
    Stored crc dim { disk with log := some (logHeader dim 0) } 0 [] [] [] fun _ => none := by
  have loaded : loadSnapshot crc dim disk = (none, .empty dim) := by
    rw [loadSnapshot, current]
    rfl
  refine ⟨?_, ?_, rfl, ?_, ⟨fun _ => none, ?_, rfl⟩, ?_, Nat.zero_le _, by decide⟩
  · change some (logHeader dim 0) = some (logHeader dim 0 ++ ([] ++ []))
    rw [append_nil, append_nil]
  · intro frame member
    cases member
  · change (loadSnapshot crc dim disk).1 = disk.current
    rw [loaded, current]
  · change Serving dim (loadSnapshot crc dim disk).2 _
    rw [loaded]
    exact serving_empty dim
  · change skipTo disk.current 0 = _
    rw [current]
    rfl

theorem openIndex_fresh (named : Named served) (fresh : Fresh disk served) (fault : Option OpenFault) :
    Sound crc dim (openIndex crc dim fault disk) served := by
  have same := fresh.served
  subst same
  have short : headerOk dim (disk.log.getD []) = false := by
    rw [headerOk, decide_eq_false (Nat.not_le_of_lt fresh.log)]
    rfl
  have loaded : loadSnapshot crc dim disk = (none, .empty dim) := by
    rw [loadSnapshot, fresh.current]
    rfl
  have new := stored_header crc dim fresh.current
  rw [openIndex]
  split
  next => exact .closed named (.inl fresh)
  next =>
    rw [loaded]
    dsimp only
    rw [if_neg (by rw [short]; exact Bool.false_ne_true)]
    split
    next =>
      split
      next => exact .closed named (.inl fresh)
      next => exact .closed named (.inl ⟨fresh.current, Nat.zero_lt_succ _, rfl⟩)
    next written _ =>
      refine .closed named ?_
      by_cases whole : LOG_HEADER ≤ written
      · rw [take_of_length_le (by rw [logHeader_length]; exact whole)]
        exact .inr ⟨_, _, _, _, new⟩
      · refine .inl ⟨fresh.current, ?_, rfl⟩
        change ((logHeader dim 0).take written).length < LOG_HEADER
        rw [length_take]
        omega
    next =>
      have rest : (logHeader dim 0).drop LOG_HEADER = [] := by
        rw [drop_eq_nil_of_le]
        rw [logHeader_length]
      refine .ready named (.inl ⟨[], [], [], ⟨?_, new, rfl, rfl⟩, .idle rfl fresh.current.symm⟩)
      change Serving dim { (applyFrames crc (.empty dim) ((logHeader dim 0).drop LOG_HEADER) dim).1 with mutations := _ } _
      rw [rest]
      exact serving_mutations (serving_empty dim) _

theorem openIndex_stored (named : Named served) (stored : Stored crc dim disk epoch covered tail torn served)
    (fault : Option OpenFault) : Sound crc dim (openIndex crc dim fault disk) served := by
  have header : headerOk dim (disk.log.getD []) = true := by
    rw [stored.log, Option.getD_some]
    exact headerOk_logHeader dim epoch _
  have number : number (slice (disk.log.getD []) 12 8) = epoch := by
    rw [stored.log, Option.getD_some]
    exact epoch_logHeader stored.epoch_lt _
  have fit : ∀ frame ∈ tail, frame.Fits dim := (forall_mem_append.mp stored.fit).2
  have replayed := applyFrames_logBytes fit stored.ends (loadSnapshot crc dim disk).2
  have cut : Stored crc dim { disk with
      log := some (logHeader dim epoch ++ (logBytes crc dim (covered ++ tail) ++ [])) } epoch covered tail [] served :=
    { stored with log := rfl, ends := readFrame_nil crc dim }
  obtain ⟨first, base, same⟩ := stored.base
  rw [openIndex]
  split
  next => exact .closed named (.inr ⟨_, _, _, _, stored⟩)
  next =>
    dsimp only
    rw [header, if_pos rfl, number, stored.reads, stored.skip, stored.behind, replayed]
    rw [stored.before]
    split
    next => exact .closed named (.inr ⟨_, _, _, _, cut⟩)
    next =>
      refine .ready named (.inl ⟨covered, tail, [], ⟨?_, cut, rfl, ?_⟩, .idle rfl rfl⟩)
      · rw [same]
        exact serving_mutations (serving_foldl base fit) _
      · change LOG_HEADER + (logBytes crc dim covered).length + (logBytes crc dim tail).length = _
        rw [logBytes_append, length_append, Nat.add_assoc]

end Open

end Warm.Server.VectorIndex
