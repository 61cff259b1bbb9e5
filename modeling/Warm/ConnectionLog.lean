import Warm.ConnectionGraph
import Warm.FramedLog
import Warm.Binary

/-! The durable connection graph: its events in an append-only log that is replayed when the graph is
opened. A crash leaves a part of the record being appended, and the next process appends behind it. -/
namespace Warm.ConnectionGraph

open List hiding after all count head length tail

open Binary (utf8 putBytes Reader)
open Bytes (word ofWord slice)

def MAX_EVENT_BYTES : Nat := 16 * 2 ^ 20

/-- The serializer: it reads back what it wrote of an event that the log accepts. -/
structure Codec where
  encode : Event → Bytes
  decode : Bytes → Option Event
  decode_encode : ∀ event, (encode event).length ≤ MAX_EVENT_BYTES → decode (encode event) = some event

structure World where
  graph : Option Graph
  disk : Bytes
  completed : List Event

inductive Action where
  | call (made : Call)
  | crash (made : Call) (whole part : Nat)
  | reopen

section Source

variable (dim : Nat) (cfg : GraphConfig) (entityVec : String → List Nat) (codec : Codec)

def fits (event : Event) : Bool := decide ((codec.encode event).length ≤ MAX_EVENT_BYTES)

/-- The bytes appended for an event, none for one over the limit. -/
def appendEvent (event : Event) : Bytes :=
  if fits codec event then ofWord (codec.encode event).length ++ codec.encode event else []

def readEvent (buf : Bytes) : Option (Event × Nat) :=
  if buf.length < 4 then none
  else
    let len := word buf 0
    if MAX_EVENT_BYTES < len ∨ buf.length < 4 + len then none
    else (codec.decode (slice buf 4 len)).map fun event => (event, 4 + len)

def log : FrameFormat Event := ⟨appendEvent codec, readEvent codec⟩

/-- A record takes four bytes at least, so the fuel is never used up. -/
def readEvents (buf : Bytes) : List Event := ((log codec).scan (buf.length + 1) buf).1

def openGraph (disk : Bytes) : Option Graph :=
  (replay dim cfg entityVec (readEvents codec disk)).map fun (field, chain) =>
    ⟨field, readEvents codec disk, chain, 0⟩

/-- A query with the events it recorded, also those from before a failure. -/
def queryLogged (graph : Graph) (s r o : String) : List Event × Option Graph :=
  let idx := edgeIndices dim entityVec s r o
  match scoreIndices graph.field idx, isPresent graph.field idx with
  | some _, some present =>
    if cfg.strengthenOnRead ∧ present then
      match foldEdge idx W_STRENGTHEN graph.field with
      | some field =>
        let strengthened := record graph (.strengthen s r o) field
        let counted := countQuery cfg strengthened
        (.strengthen s r o :: counted.elim [] fun after => after.events.drop strengthened.events.length, counted)
      | none => ([], none)
    else ([], some graph)
  | _, _ => ([], none)

def logged (graph : Graph) : Call → List Event × Option Graph
  | .store s r o => (store dim entityVec graph s r o).elim ([], none) fun after => ([.store s r o], some after)
  | .query s r o => queryLogged dim cfg entityVec graph s r o
  | .score s r o => ([], call dim cfg entityVec graph (.score s r o))
  | .replay events => ([], call dim cfg entityVec graph (.replay events))

def World.append (world : World) (events : List Event) (torn : Bytes) (graph : Option Graph) : World :=
  ⟨graph, world.disk ++ (log codec).encodeAll events ++ torn, world.completed ++ events.filter (fits codec)⟩

/-- A call without a process does nothing. A crash comes while the call appends the record behind
its first `whole` ones, of which it leaves at most `part` bytes and never all. -/
def step (world : World) : Action → World
  | .reopen => { world with graph := openGraph dim cfg entityVec codec world.disk }
  | .call made =>
    match world.graph with
    | none => world
    | some graph =>
      let (events, after) := logged dim cfg entityVec graph made
      world.append codec events [] after
  | .crash made whole part =>
    match world.graph with
    | none => world
    | some graph =>
      let events := (logged dim cfg entityVec graph made).1
      world.append codec (events.take whole) ((events[whole]?.elim [] (appendEvent codec)).dropLast.take part) none

def reach (actions : List Action) : World := actions.foldl (step dim cfg entityVec codec) ⟨none, [], []⟩

/-- What a call leaves behind: events that apply, at the end of those of the graph if it still is one. -/
structure Extends (graph : Graph) (left : List Event × Option Graph) : Prop where
  applies : ∀ event ∈ left.1, Applies dim cfg entityVec event
  events : ∀ after, left.2 = some after → after.events = graph.events ++ left.1
  folded : ∀ after, left.2 = some after → Folded dim cfg entityVec after

/-- The file is the records of the completed events and a tail that is no record. -/
structure Kept (world : World) : Prop where
  fit : ∀ event ∈ world.completed, fits codec event = true
  applies : ∀ event ∈ world.completed, Applies dim cfg entityVec event
  disk : ∃ torn, world.disk = (log codec).encodeAll world.completed ++ torn ∧ readEvent codec torn = none
  folded : ∀ graph, world.graph = some graph → Folded dim cfg entityVec graph

/-- A step that writes finds the file without a torn record at its end. -/
def Whole (world : World) (action : Action) : Prop :=
  (step dim cfg entityVec codec world action).disk = world.disk ∨
    world.disk = (log codec).encodeAll world.completed

/-- Each step of the run meets the condition in the world before it. -/
def Along (condition : World → Action → Prop) (actions : List Action) : Prop :=
  ∀ made action, made ++ [action] <+: actions → condition (reach dim cfg entityVec codec made) action

/-- A reopen finds no query counted towards the next decay and no event that the log refused. -/
def Settled (world : World) : Action → Prop
  | .reopen => ∀ graph, world.graph = some graph →
      graph.queriesSinceDecay = 0 ∧ ∀ event ∈ graph.events, fits codec event = true
  | _ => True

def Action.calls : Action → List Call
  | .call made => [made]
  | _ => []

def Action.isCrash : Action → Bool
  | .crash .. => true
  | _ => false

/-- Opening the file gives the events whose append completed. -/
def Recovers (actions : List Action) : Prop :=
  ∃ graph, openGraph dim cfg entityVec codec (reach dim cfg entityVec codec actions).disk = some graph ∧
    graph.events = (reach dim cfg entityVec codec actions).completed

/-- The graph is that of the same calls made in one process. -/
def Resumes (actions : List Action) : Prop :=
  ∀ plain, run dim cfg entityVec (actions.flatMap Action.calls) = some plain →
    ∃ graph, (reach dim cfg entityVec codec (.reopen :: actions)).graph = some graph ∧
      graph.events = plain.events ∧ graph.field = plain.field ∧ graph.chain = plain.chain

end Source

section Records

variable {codec : Codec}

theorem encodeAll_filter (events : List Event) :
    (log codec).encodeAll (events.filter (fits codec)) = (log codec).encodeAll events := by
  induction events with
  | nil => rfl
  | cons event events ih =>
    rw [filter_cons, FrameFormat.encodeAll_cons, ← ih]
    split
    · rw [FrameFormat.encodeAll_cons]
    · next large => simp [log, appendEvent, large]

theorem appendEvent_length (fit : fits codec event = true) :
    (appendEvent codec event).length = 4 + (codec.encode event).length := by
  rw [appendEvent, if_pos fit, length_append, Bytes.ofWord_length]

theorem word_appendEvent (fit : fits codec event = true) (rest : Bytes) :
    word (appendEvent codec event ++ rest) 0 = (codec.encode event).length := by
  rw [appendEvent, if_pos fit, append_assoc, Bytes.word_ofWord_append]
  exact Nat.mod_eq_of_lt ((of_decide_eq_true fit).trans_lt (by decide))

theorem log_lawful (codec : Codec) : (log codec).Lawful fun event => fits codec event = true where
  read_encode event fit rest := by
    have bound : (codec.encode event).length ≤ MAX_EVENT_BYTES := of_decide_eq_true fit
    have payload : slice (appendEvent codec event ++ rest) 4 (codec.encode event).length = codec.encode event := by
      rw [appendEvent, if_pos fit, append_assoc]
      exact (Bytes.slice_append_right (ofWord _) _ 0 _).trans (Bytes.slice_whole _ _)
    change readEvent codec (appendEvent codec event ++ rest) = some (event, (appendEvent codec event).length)
    rw [readEvent, word_appendEvent fit, length_append, appendEvent_length fit, if_neg (by omega)]
    simp only [payload, codec.decode_encode event bound, Option.map_some]
    exact if_neg (by omega)
  read_cut event fit n short := by
    have size := appendEvent_length fit
    change n < (appendEvent codec event).length at short
    change readEvent codec ((appendEvent codec event).take n) = none
    rw [readEvent, length_take_of_le short.le]
    by_cases head : n < 4
    · exact if_pos head
    · have len : word ((appendEvent codec event).take n) 0 = (codec.encode event).length := by
        have whole := word_appendEvent fit []
        rwa [append_nil, ← take_append_drop n (appendEvent codec event),
          Bytes.word_append_left _ _ 0 (by rw [length_take_of_le short.le]; omega)] at whole
      rw [if_neg head, len]
      exact if_pos (.inr (by omega))
  encode_pos event fit := by
    have size := appendEvent_length fit
    change 0 < (appendEvent codec event).length
    omega

theorem readEvent_torn (event : Option Event) (part : Nat) :
    readEvent codec ((event.elim [] (appendEvent codec)).dropLast.take part) = none := by
  match event with
  | none => simp [readEvent]
  | some event =>
    by_cases fit : fits codec event = true
    · have pos := (log_lawful codec).encode_pos event fit
      change 0 < (appendEvent codec event).length at pos
      rw [Option.elim_some, dropLast_eq_take, take_take]
      exact (log_lawful codec).read_cut event fit _ (by change _ < (appendEvent codec event).length; omega)
    · simp [appendEvent, fit, readEvent]

end Records

section Runs

variable {dim : Nat} {cfg : GraphConfig} {entityVec : String → List Nat} {codec : Codec}

theorem foldEdge_inside (folded : foldEdge indices w field = some after) : ∀ i ∈ indices, i < field.length := by
  induction indices generalizing field with
  | nil => simp
  | cons i indices ih =>
    rw [foldEdge, foldlM_cons] at folded
    obtain ⟨next, stepped, rest⟩ := Option.bind_eq_some_iff.mp folded
    split at stepped
    · next inside =>
      obtain rfl := Option.some.inj stepped
      have others := ih rest
      rw [length_modify] at others
      simpa [inside] using others
    · cases stepped

theorem apply_applies (length : field.length = dim) (applied : apply dim cfg entityVec field event = some after) :
    Applies dim cfg entityVec event := by
  intro other same
  cases event with
  | store s r o | strengthen s r o =>
    have inside := foldEdge_inside applied
    refine (foldEdge_total _ _ other fun i member => ?_).imp fun folded next => ⟨next.1, next.2.trans same⟩
    rw [same, ← length]
    exact inside i member
  | decay =>
    rw [apply, applyDecay] at applied
    split at applied
    · cases applied
    · next divisor => exact ⟨_, if_neg divisor, by simpa using same⟩

theorem record_folded (folded : Folded dim cfg entityVec graph)
    (applied : apply dim cfg entityVec graph.field event = some field) :
    Folded dim cfg entityVec (record graph event field) := by
  obtain ⟨again, same, length⟩ := apply_applies folded.length applied graph.field folded.length
  obtain rfl := Option.some.inj (applied.symm.trans same)
  exact folded_record folded applied length

theorem Extends.none (graph : Graph) : Extends dim cfg entityVec graph ([], none) :=
  ⟨by simp, by simp, by simp⟩

section

variable (folded : Folded dim cfg entityVec graph)
include folded

theorem Extends.same : Extends dim cfg entityVec graph ([], some graph) := by
  refine ⟨by simp, ?_, ?_⟩ <;> rintro after ⟨⟩
  · simp
  · exact folded

theorem countQuery_extends :
    Extends dim cfg entityVec graph
      ((countQuery cfg graph).elim [] fun after => after.events.drop graph.events.length, countQuery cfg graph) := by
  rw [countQuery]
  split_ifs
  · simpa using Extends.same folded
  · refine ⟨by simp, ?_, ?_⟩ <;> rintro after ⟨⟩
    · simp
    · exact ⟨folded.length, folded.replayed⟩
  · cases done : applyDecay cfg graph.field with
    | none => exact Extends.none graph
    | some field =>
      have applied : apply dim cfg entityVec graph.field .decay = some field := done
      have recorded := record_folded folded applied
      refine ⟨?_, ?_, ?_⟩
      · simpa [record] using apply_applies folded.length applied
      · rintro after ⟨⟩
        simp [record]
      · rintro after ⟨⟩
        exact ⟨recorded.length, recorded.replayed⟩

theorem Extends.behind
    (applied : apply dim cfg entityVec graph.field event = some field)
    (rest : Extends dim cfg entityVec (record graph event field) left) :
    Extends dim cfg entityVec graph (event :: left.1, left.2) where
  applies := by
    rintro other (_ | ⟨_, member⟩)
    · exact apply_applies folded.length applied
    · exact rest.applies other member
  events after same := by
    rw [rest.events after same]
    simp [record]
  folded := rest.folded

theorem queryLogged_extends (s r o : String) :
    Extends dim cfg entityVec graph (queryLogged dim cfg entityVec graph s r o) := by
  rw [queryLogged]
  split
  · split_ifs
    · split
      · next field applied =>
        have applied : apply dim cfg entityVec graph.field (.strengthen s r o) = some field := applied
        exact (countQuery_extends (record_folded folded applied)).behind folded applied
      · exact Extends.none graph
    · exact Extends.same folded
  · exact Extends.none graph

theorem logged_extends (made : Call) :
    Extends dim cfg entityVec graph (logged dim cfg entityVec graph made) := by
  cases made with
  | store s r o =>
    rw [logged, store]
    cases done : foldEdge (edgeIndices dim entityVec s r o) W_STORE graph.field with
    | none => exact Extends.none graph
    | some field =>
      have applied : apply dim cfg entityVec graph.field (.store s r o) = some field := done
      exact (Extends.same (record_folded folded applied)).behind folded applied
  | query s r o => exact queryLogged_extends folded s r o
  | score s r o =>
    rw [logged, call]
    cases score dim entityVec graph s r o with
    | none => exact Extends.none graph
    | some value => exact Extends.same folded
  | replay events =>
    rw [logged, call]
    cases replay dim cfg entityVec events with
    | none => exact Extends.none graph
    | some state => exact Extends.same folded

end

theorem logged_call (graph : Graph) (made : Call) :
    (logged dim cfg entityVec graph made).2 = call dim cfg entityVec graph made := by
  cases made with
  | store s r o =>
    rw [logged, call]
    cases store dim entityVec graph s r o <;> rfl
  | query s r o =>
    simp only [logged, queryLogged, call, query]
    cases scoreIndices graph.field (edgeIndices dim entityVec s r o) with
    | none => rfl
    | some value =>
      cases isPresent graph.field (edgeIndices dim entityVec s r o) with
      | none => rfl
      | some present =>
        simp only [Option.bind_eq_bind, Option.bind_some]
        split_ifs
        · cases foldEdge (edgeIndices dim entityVec s r o) W_STRENGTHEN graph.field with
          | none => rfl
          | some field => cases done : countQuery cfg (record graph (.strengthen s r o) field) <;> simp [done]
        · rfl
  | score s r o => rfl
  | replay events => rfl

section

variable (kept : Kept dim cfg entityVec codec world)
include kept

theorem Kept.opens (positive : 0 < dim) :
    ∃ graph, openGraph dim cfg entityVec codec world.disk = some graph ∧ graph.events = world.completed ∧
      graph.queriesSinceDecay = 0 ∧ Folded dim cfg entityVec graph := by
  obtain ⟨torn, disk, ends⟩ := kept.disk
  have short := FrameFormat.length_le_encodeAll (log_lawful codec) kept.fit
  have read : readEvents codec world.disk = world.completed := by
    rw [readEvents, disk, FrameFormat.scan_encodeAll (log_lawful codec) kept.fit ends]
    rw [length_append]
    omega
  obtain ⟨⟨field, chain⟩, ran, length⟩ := replay_applies positive world.completed kept.applies
  refine ⟨⟨field, world.completed, chain, 0⟩, ?_, rfl, rfl, length, ran⟩
  rw [openGraph, read, ran]
  rfl

theorem Kept.append
    (applies : ∀ event ∈ events, Applies dim cfg entityVec event) (ends : readEvent codec torn = none)
    (folded : ∀ graph, left = some graph → Folded dim cfg entityVec graph)
    (whole : (world.append codec events torn left).disk = world.disk ∨
      world.disk = (log codec).encodeAll world.completed) :
    Kept dim cfg entityVec codec (world.append codec events torn left) where
  fit := forall_mem_append.mpr ⟨kept.fit, fun _ new => (mem_filter.mp new).2⟩
  applies := forall_mem_append.mpr ⟨kept.applies, fun event new => applies event (mem_filter.mp new).1⟩
  disk := by
    simp only [World.append, FrameFormat.encodeAll_append, encodeAll_filter] at whole ⊢
    rcases whole with same | exact
    · obtain ⟨tail, disk, ended⟩ := kept.disk
      have nothing := congrArg List.length same
      rw [length_append, length_append] at nothing
      have events_nil : (log codec).encodeAll events = [] := eq_nil_of_length_eq_zero (by omega)
      exact ⟨tail, by rw [same, disk, events_nil, append_nil], ended⟩
    · exact ⟨torn, by rw [exact], ends⟩
  folded := folded

theorem Kept.step (positive : 0 < dim) (action : Action)
    (whole : Whole dim cfg entityVec codec world action) :
    Kept dim cfg entityVec codec (step dim cfg entityVec codec world action) := by
  rw [Whole] at whole
  cases action with
  | reopen =>
    obtain ⟨graph, opened, -, -, folded⟩ := kept.opens positive
    refine ⟨kept.fit, kept.applies, kept.disk, fun other same => ?_⟩
    obtain rfl := Option.some.inj (opened.symm.trans same)
    exact folded
  | call made =>
    rw [ConnectionGraph.step] at whole ⊢
    split at whole
    · exact kept
    · next graph held =>
      have left := logged_extends (kept.folded graph held) made
      exact kept.append left.applies (by simp [readEvent]) left.folded whole
  | crash made count part =>
    rw [ConnectionGraph.step] at whole ⊢
    split at whole
    · exact kept
    · next graph held =>
      have left := logged_extends (kept.folded graph held) made
      exact kept.append (fun event member => left.applies event (mem_of_mem_take member)) (readEvent_torn _ part)
        (by simp) whole

end

theorem along_append : Along dim cfg entityVec codec condition (actions ++ [action]) ↔
    Along dim cfg entityVec codec condition actions ∧ condition (reach dim cfg entityVec codec actions) action := by
  constructor
  · intro along
    exact ⟨fun made next part => along made next (part.trans (prefix_append _ _)), along _ _ prefix_rfl⟩
  · rintro ⟨early, last⟩ made next part
    rcases prefix_concat_iff.mp part with same | part
    · obtain ⟨rfl, rfl⟩ := append_singleton_inj.mp same
      exact last
    · exact early made next part

theorem along_nil : Along dim cfg entityVec codec condition [] := by
  intro made action part
  simp at part

theorem reach_append (actions : List Action) (action : Action) : reach dim cfg entityVec codec (actions ++ [action]) =
    step dim cfg entityVec codec (reach dim cfg entityVec codec actions) action := by
  simp [reach]

theorem kept_reach (positive : 0 < dim) (actions : List Action)
    (whole : Along dim cfg entityVec codec (Whole dim cfg entityVec codec) actions) :
    Kept dim cfg entityVec codec (reach dim cfg entityVec codec actions) := by
  induction actions using List.reverseRecOn with
  | nil => exact ⟨by simp [reach], by simp [reach], ⟨[], rfl, by simp [readEvent]⟩, by simp [reach]⟩
  | append_singleton actions action ih =>
    rw [reach_append]
    obtain ⟨early, last⟩ := along_append.mp whole
    exact (ih early).step positive action last

theorem clean_reach (positive : 0 < dim) (actions : List Action) (clean : ∀ action ∈ actions, action.isCrash = false)
    (settled : Along dim cfg entityVec codec (Settled codec) (.reopen :: actions))
    (ran : run dim cfg entityVec (actions.flatMap Action.calls) = some plain) :
    let world := reach dim cfg entityVec codec (.reopen :: actions)
    world.graph = some plain ∧ world.disk = (log codec).encodeAll world.completed ∧
      world.completed = plain.events.filter (fits codec) ∧ Kept dim cfg entityVec codec world := by
  induction actions using List.reverseRecOn generalizing plain with
  | nil =>
    have kept := @kept_reach dim cfg entityVec codec positive [.reopen] (along_append.mpr ⟨along_nil, .inl rfl⟩)
    rw [run, withConfig, if_pos positive] at ran
    obtain rfl := Option.some.inj ran
    exact ⟨by simp [reach, step, openGraph, readEvents, FrameFormat.scan, log, readEvent, replay, withConfig, positive],
      rfl, rfl, kept⟩
  | append_singleton actions action ih =>
    rw [← cons_append] at settled ⊢
    obtain ⟨settled, last⟩ := along_append.mp settled
    have early := fun {plain} => @ih plain (forall_mem_append.mp clean).1 settled
    rw [reach_append]
    cases action with
    | crash made count part => cases clean (.crash made count part) (by simp)
    | call made =>
      obtain ⟨fresh, started, ran⟩ := Option.bind_eq_some_iff.mp ran
      rw [flatMap_append, foldlM_append] at ran
      obtain ⟨before, prior, own⟩ := Option.bind_eq_some_iff.mp ran
      obtain ⟨held, exact, all, kept⟩ := @early before (by rw [run, started]; exact prior)
      have called : call dim cfg entityVec before made = some plain := by simpa [Action.calls] using own
      have left := logged_extends (kept.folded before held) made
      rw [← logged_call] at called
      have next := kept.step positive (.call made) (.inr exact)
      simp only [step, held] at next ⊢
      refine ⟨called, ?_, ?_, next⟩
      · simp [World.append, exact, FrameFormat.encodeAll_append, encodeAll_filter]
      · simp [World.append, all, left.events plain called]
    | reopen =>
      obtain ⟨held, exact, all, kept⟩ := @early plain (by simpa [Action.calls] using ran)
      obtain ⟨counted, fit⟩ := last plain held
      obtain ⟨graph, opened, events, fresh, folded⟩ := kept.opens positive
      have same : graph.events = plain.events := by
        rw [events, all]
        exact filter_eq_self.mpr fit
      have state := folded.replayed.symm.trans (same ▸ (kept.folded plain held).replayed)
      rw [Option.some.injEq, Prod.mk.injEq] at state
      obtain rfl : graph = plain := by
        cases graph
        cases plain
        simp_all
      exact ⟨opened, exact, all, kept.step positive .reopen (.inr exact)⟩

end Runs

theorem durable_of_whole_settled (cfg : GraphConfig) (entityVec : String → List Nat) (codec : Codec) (positive : 0 < dim)
    (actions : List Action) :
    (Along dim cfg entityVec codec (Whole dim cfg entityVec codec) actions →
      Recovers dim cfg entityVec codec actions) ∧
    ((∀ action ∈ actions, action.isCrash = false) →
      Along dim cfg entityVec codec (Settled codec) (.reopen :: actions) →
      Resumes dim cfg entityVec codec actions) := by
  constructor
  · intro whole
    obtain ⟨graph, opened, events, -⟩ := (kept_reach positive actions whole).opens positive
    exact ⟨graph, opened, events⟩
  · intro clean settled plain ran
    exact ⟨plain, (clean_reach positive actions clean settled ran).1, rfl, rfl, rfl⟩

section Sample

def texts (make : String → String → String → Event) : Reader Event := do
  return make (← Reader.str) (← Reader.str) (← Reader.str)

def plainCodec : Codec where
  encode
    | .store s r o => 0 :: (putBytes (utf8 s) ++ (putBytes (utf8 r) ++ putBytes (utf8 o)))
    | .strengthen s r o => 1 :: (putBytes (utf8 s) ++ (putBytes (utf8 r) ++ putBytes (utf8 o)))
    | .decay => [2]
  decode
    | 0 :: rest => ((texts .store).run rest).toOption.map Prod.fst
    | 1 :: rest => ((texts .strengthen).run rest).toOption.map Prod.fst
    | _ => some .decay
  decode_encode event fit := by
    have read (make : String → String → String → Event) (s r o : String)
        (fit : (putBytes (utf8 s) ++ (putBytes (utf8 r) ++ putBytes (utf8 o))).length < MAX_EVENT_BYTES) :
        ((texts make).run (putBytes (utf8 s) ++ (putBytes (utf8 r) ++ putBytes (utf8 o)))).toOption.map Prod.fst =
          some (make s r o) := by
      simp only [putBytes, length_append, MAX_EVENT_BYTES] at fit
      have last := Reader.str_putBytes o [] (by omega)
      rw [append_nil] at last
      rw [StateT.run, texts, Reader.bind_ok (Reader.str_putBytes s _ (by omega)),
        Reader.bind_ok (Reader.str_putBytes r _ (by omega)), Reader.bind_ok last]
      rfl
    cases event with
    | store s r o => exact read .store s r o fit
    | strengthen s r o => exact read .strengthen s r o fit
    | decay => rfl

def stored : Action := .call (.store "a" "r" "b")

/-- The process dies one byte into the record of its first call. -/
def torn : List Action := [.reopen, .crash (.store "a" "r" "b") 0 1]

theorem durable_of_whole_settled_sample :
    Recovers 2 ⟨true, 16, 7, 8⟩ (fun _ => [0]) plainCodec (torn ++ [.reopen]) ∧
      Resumes 2 ⟨true, 16, 7, 8⟩ (fun _ => [0]) plainCodec [.reopen, stored] := by
  constructor
  · refine (durable_of_whole_settled _ _ _ (by decide) _).1 ?_
    exact along_append.mpr ⟨along_append.mpr ⟨along_append.mpr ⟨along_nil, .inl rfl⟩, .inr rfl⟩, .inl rfl⟩
  · refine (durable_of_whole_settled _ _ _ (by decide) _).2 (by simp [stored, Action.isCrash]) ?_
    refine along_append.mpr ⟨along_append.mpr ⟨along_append.mpr ⟨along_nil, ?_⟩, ?_⟩, trivial⟩
    · rintro graph ⟨⟩
    · rintro graph ⟨⟩
      exact ⟨rfl, fun event member => by cases member⟩

theorem torn_record_hides_store :
    ¬Recovers 2 ⟨true, 16, 7, 8⟩ (fun _ => [0]) plainCodec (torn ++ [.reopen, stored]) := by
  have fresh (disk : Bytes) (nothing : readEvents plainCodec disk = []) :
      openGraph 2 ⟨true, 16, 7, 8⟩ (fun _ => [0]) plainCodec disk = some ⟨[0, 0], [], 0, 0⟩ := by
    rw [openGraph, nothing]
    rfl
  have edge : InRange 2 (fun _ => [0]) [("a", "r", "b")] := by
    intro edge member i listed
    have small (seed : UInt64) : 0 ^^^ mask 2 seed < 2 :=
      xor_lt_of_closed (closed_two_pow (k := 1) seed (by decide)) (mask_lt seed) (by decide) (by decide)
    rcases (mem_edgeIndices ..).mp listed with ⟨j, own, rfl⟩ | ⟨j, own, rfl⟩ <;>
      exact mem_singleton.mp own ▸ small _
  obtain ⟨after, called, -⟩ := @call_total 2 ⟨true, 16, 7, 8⟩ (fun _ => [0]) ⟨[0, 0], [], 0, 0⟩ (by decide) (by decide)
    ⟨rfl, rfl⟩ (.store "a" "r" "b") edge
  have left : logged 2 ⟨true, 16, 7, 8⟩ (fun _ => [0]) ⟨[0, 0], [], 0, 0⟩ (.store "a" "r" "b") =
      ([.store "a" "r" "b"], some after) := by
    rw [call] at called
    rw [logged, called]
    rfl
  have bytes : appendEvent plainCodec (.store "a" "r" "b") = [7, 0, 0, 0, 0, 1, 97, 1, 114, 1, 98] := by decide
  rintro ⟨graph, opened, events⟩
  have world : reach 2 ⟨true, 16, 7, 8⟩ (fun _ => [0]) plainCodec (torn ++ [.reopen, stored]) =
      ⟨some after, [7, 7, 0, 0, 0, 0, 1, 97, 1, 114, 1, 98], [.store "a" "r" "b"]⟩ := by
    have fit : fits plainCodec (.store "a" "r" "b") = true := by decide
    simp [reach, torn, stored, step, fresh [] rfl, fresh [7] (by decide), left, World.append, FrameFormat.encodeAll, log,
      bytes, fit]
  rw [world] at opened events
  have hidden := fresh [7, 7, 0, 0, 0, 0, 1, 97, 1, 114, 1, 98] (by decide)
  obtain rfl := Option.some.inj (hidden.symm.trans opened)
  cases events

end Sample

end Warm.ConnectionGraph
