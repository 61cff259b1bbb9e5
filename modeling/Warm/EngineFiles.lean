import Warm.EngineHistory
import Warm.FailedCommit
import Warm.JournalRoundTrip

/-! An engine over the files of its journal, down to their bytes: whatever commits and reopens there are and
whichever of them fail, the files load into the live state that the acknowledged transactions made. -/
namespace Warm.Engine

open Binary Audit List

variable {codec : Codec} {format : Format} {encoder : Encoder dimensions} {encrypt : Bytes → Option Bytes}

theorem Settled.ready (settled : Settled config encoder store) {mutations : List Mutation}
    (ready : hydrateUnlessAccepted store.core mutations = .ok core) : Settled config encoder { store with core } := by
  rw [hydrateUnlessAccepted] at ready
  split at ready
  · cases ready
    exact settled
  · have kept : Settled config encoder (Engine.act config encoder store .read) := settled.act trivial trivial
    rw [Engine.act, ready] at kept
    exact kept

theorem arenaWrite_holds (lawful : codec.Lawful) (holds : Arena.Holds codec format arena data)
    (encrypted : Option Bytes) (faults : Arena.Faults) :
    Arena.Holds codec format (arenaWrite codec format arena encrypted faults).1
      (data ++ if (arenaWrite codec format arena encrypted faults).2 then encrypted.toList else []) := by
  cases encrypted with
  | none => simpa [arenaWrite] using holds
  | some payload =>
    have kept := Arena.writeFrame_holds codec lawful holds payload true faults
    rw [arenaWrite]
    rcases written : Arena.writeFrame codec format arena payload true faults with ⟨next, error | offset⟩
    · rw [written] at kept
      exact kept
    · rw [written] at kept
      exact kept

theorem commitSerialized_acknowledged {next}
    (done : commitSerialized codec format encoder encrypt config journaled seen mutations payload revision faults =
      (next, .ok true)) :
    validateTransaction config mutations = .ok () ∧
      arenaWrite codec format journaled.arena (encrypt payload) faults = (next.arena, true) ∧
      commitPayload encoder journaled.core seen revision true mutations = .ok (next.core, true, none) := by
  rw [commitSerialized] at done
  split at done
  · cases done
  next checked =>
    rw [commitPayloadAtRevision] at done
    split at done
    · cases done
    next current =>
      split at done
      · cases done
      next valid =>
        split at done
        · cases done
        next arena taken =>
          dsimp only at done
          split at done
          next silent =>
            cases done
            refine ⟨checked, taken, ?_⟩
            rw [commitPayload, if_neg current, valid]
            simp [silent, Except.mapError, bind, Except.bind]
          next => cases done

/-- A serialized transaction, the documents it was prepared against and the revision it asks for. -/
structure Submission (serde : Serde) where
  seen : DocumentStore
  expected : Option Nat
  mutations : List Mutation
  payload : Bytes
  written : binaryPayload serde mutations = some payload
  fits : payload.length < 2 ^ 64

/-- What a submission needs to be replayed from its payload. -/
structure Submission.Readable (submission : Submission serde) : Prop where
  issued : ∀ mutation ∈ submission.mutations, Issued mutation
  lossless : ∀ mutation ∈ submission.mutations, carriedAsJson mutation = true →
    serde.fromSlice (serde.toVec mutation) = some mutation
  decodable : Decodable serde submission.mutations

/-- What an engine over files is made with. -/
structure Site (dimensions : Nat) where
  codec : Codec
  format : Format
  serde : Serde
  encrypt : Bytes → Option Bytes
  decrypt : Bytes → Option Bytes
  config : Config
  encoder : Encoder dimensions

namespace Site

structure Lawful (site : Site dimensions) : Prop where
  codec : site.codec.Lawful
  decrypts : ∀ data sealed, site.encrypt data = some sealed → site.decrypt sealed = some data
  values : ∀ json : Json, site.serde.value json.text = some json

section

variable (site : Site dimensions)

/-- `commit_serialized_if_revision`; `commit_serialized` and `commit` ask for no revision. -/
def commit (journaled : Journaled) (submission : Submission site.serde) (faults : Arena.Faults) :
    Journaled × Except EngineError Bool :=
  match hydrateUnlessAccepted journaled.core submission.mutations with
  | .error error => (journaled, .error error)
  | .ok core =>
    commitSerialized site.codec site.format site.encoder site.encrypt site.config { journaled with core }
      submission.seen submission.mutations submission.payload submission.expected faults

def readTransaction (data : Bytes) : Option (List Mutation) :=
  (site.decrypt data).bind fun payload => (decode site.serde payload).toOption

/-- The loop of `load_from_log`. -/
def loadFrom (arena : Arena) : Nat → Nat → WarmCore → Option WarmCore
  | 0, _, _ => none
  | fuel + 1, offset, core =>
    if offset < Arena.usedBytes site.format arena then do
      let (data, _) ← (Arena.readFrame site.codec site.format arena offset).toOption
      let mutations ← site.readTransaction data
      let core ← (replayFrame site.config site.encoder core mutations).toOption
      let next ← (Arena.nextOffset site.format arena offset).toOption
      loadFrom arena fuel next core
    else some core

def openFiles (files : List Bytes) (more : Nat) : Option Journaled := do
  let arena ← (Arena.openArena site.codec site.format files).toOption
  let core ← site.loadFrom arena (Arena.usedBytes site.format arena + 1) 0 (opened site.config more none)
  some ⟨core, arena⟩

/-- The states of an engine that starts without files, with the transactions it acknowledged. -/
inductive Reached : Journaled → List (List Mutation) → Prop where
  | start (success : site.openFiles [] more = some journaled) : Reached journaled []
  | acknowledged {next} (reached : Reached journaled frames) (readable : submission.Readable)
      (done : site.commit journaled submission faults = (next, .ok true)) : Reached next (frames ++ [submission.mutations])
  | refused {next} (reached : Reached journaled frames) (done : site.commit journaled submission faults = (next, result))
      (refused : result ≠ .ok true) : Reached next frames
  | reopen {next} (reached : Reached journaled frames) (success : site.openFiles journaled.arena.files more = some next) :
      Reached next frames

/-- The files hold the transactions that made the live state. -/
structure Stored (journaled : Journaled) (frames : List (List Mutation)) : Prop where
  settled : Settled site.config site.encoder ⟨journaled.core, ⟨none, frames⟩⟩
  files : ∃ data, Arena.Holds site.codec site.format journaled.arena data ∧
    Forall₂ (fun data mutations => site.readTransaction data = some mutations) data frames

end

variable {site : Site dimensions}

theorem loadFrom_replay (walk : Arena.replayFrom site.codec site.format arena fuel offset = .ok data)
    (reads : Forall₂ (fun data mutations => site.readTransaction data = some mutations) data frames)
    (replayed : frames.foldlM (replayFrame site.config site.encoder) core = .ok done) :
    site.loadFrom arena fuel offset core = some done := by
  induction fuel generalizing offset core data frames with
  | zero => cases walk
  | succ fuel ih =>
    rw [Arena.replayFrom] at walk
    rw [loadFrom]
    split at walk
    next below =>
      obtain ⟨⟨first, version⟩, read, walk⟩ := bind_eq_ok.mp walk
      obtain ⟨next, onward, walk⟩ := bind_eq_ok.mp walk
      obtain ⟨rest, later, walk⟩ := bind_eq_ok.mp walk
      cases walk
      cases reads with
      | cons one others =>
        rw [foldlM_cons] at replayed
        obtain ⟨middle, applied, replayed⟩ := bind_eq_ok.mp replayed
        have last := ih later others replayed
        simp [below, read, one, applied, onward, Except.toOption, last]
    next past =>
      cases walk
      cases reads
      cases replayed
      rw [if_neg past]

section

variable (lawful : site.Lawful)
include lawful

theorem readTransaction_payload {submission : Submission site.serde} (readable : submission.Readable)
    (checked : validateTransaction site.config submission.mutations = .ok ())
    (sealed : site.encrypt submission.payload = some bytes) : site.readTransaction bytes = some submission.mutations := by
  have carried := carried_of_valid site.serde site.config _ lawful.values readable.lossless checked
  have payload : payloadBytes site.serde submission.mutations = submission.payload :=
    Option.some.inj ((binaryPayload_eq _ _).symm.trans submission.written)
  have decoded := (decode_payloadBytes_iff _ _ carried (payload ▸ submission.fits)).mpr readable.decodable
  rw [readTransaction, lawful.decrypts _ _ sealed, Option.bind_some, ← payload, decoded]
  rfl

theorem Stored.reopen (stored : site.Stored journaled frames) (more : Nat) :
    ∃ next, site.openFiles journaled.arena.files more = some next ∧ site.Stored next frames ∧
      next.core.liveState = journaled.core.liveState ∧
      loadFromLog site.config site.encoder more ⟨none, frames⟩ = .ok next.core := by
  obtain ⟨data, holds, reads⟩ := stored.files
  obtain ⟨arena, success, kept⟩ := Arena.openArena_holds site.codec lawful.codec holds
  obtain ⟨core, loaded, recorded, live⟩ := stored.settled.load more
  have walked := loadFrom_replay (Arena.replay_holds site.codec lawful.codec kept) reads loaded
  refine ⟨⟨core, arena⟩, ?_, ⟨⟨recorded, stored.settled.steady, stored.settled.checked⟩, data, kept, reads⟩, live, loaded⟩
  simp [openFiles, success, walked, Except.toOption]

theorem openFiles_new (more : Nat) : ∃ arena, site.openFiles [] more = some ⟨opened site.config more none, arena⟩ ∧
    Arena.Holds site.codec site.format arena [] := by
  obtain ⟨arena, opens, holds⟩ := Arena.openArena_new site.codec lawful.codec site.format
  have walked : site.loadFrom arena (Arena.usedBytes site.format arena + 1) 0 (opened site.config more none) =
      some (opened site.config more none) :=
    loadFrom_replay (Arena.replay_holds site.codec lawful.codec holds) .nil (foldlM_nil ..)
  exact ⟨arena, by simp [openFiles, opens, walked, Except.toOption], holds⟩

theorem Reached.stored (reached : site.Reached journaled frames) : site.Stored journaled frames := by
  induction reached with
  | @start more journaled success =>
    obtain ⟨arena, same, holds⟩ := openFiles_new lawful more
    obtain rfl := Option.some.inj (success.symm.trans same)
    exact ⟨.start .., [], holds, .nil⟩
  | @acknowledged journaled frames submission faults next _ readable done ih =>
    obtain ⟨data, holds, reads⟩ := ih.files
    have settled : Settled site.config site.encoder (act site.config site.encoder ⟨journaled.core, ⟨none, frames⟩⟩
        (.commit submission.seen submission.expected true submission.mutations)) :=
      ih.settled.act readable.issued (.inl rfl)
    rw [commit] at done
    split at done
    next => cases done
    next core ready =>
      obtain ⟨checked, taken, installed⟩ := commitSerialized_acknowledged done
      rw [act, Store.commit, ready] at settled
      dsimp only at settled
      rw [checked] at settled
      rw [installed] at settled
      refine ⟨settled, ?_⟩
      have kept := arenaWrite_holds lawful.codec holds (site.encrypt submission.payload) faults
      dsimp only at taken
      rw [taken, if_pos rfl] at kept
      cases sealed : site.encrypt submission.payload with
      | none =>
        rw [sealed] at taken
        exact absurd (congrArg Prod.snd taken) Bool.false_ne_true
      | some bytes =>
        rw [sealed] at kept
        exact ⟨_, kept, rel_append reads (.cons (readTransaction_payload lawful readable checked sealed) .nil)⟩
  | @refused journaled frames submission faults result next _ done refused ih =>
    obtain ⟨data, holds, reads⟩ := ih.files
    rw [commit] at done
    split at done
    next =>
      cases done
      exact ih
    next core ready =>
      have settled := ih.settled.ready ready
      obtain rfl : _ = next := congrArg Prod.fst done
      obtain rfl : _ = result := congrArg Prod.snd done
      rcases commitSerialized_refused refused with same | ⟨same, failed⟩
      · rw [same]
        exact ⟨settled, data, holds, reads⟩
      · rw [same]
        have kept := arenaWrite_holds lawful.codec holds (site.encrypt submission.payload) faults
        rw [failed, if_neg Bool.false_ne_true, append_nil] at kept
        exact ⟨settled, data, kept, reads⟩
  | reopen _ success ih =>
    obtain ⟨next, same, stored, _⟩ := ih.reopen lawful _
    obtain rfl := Option.some.inj (success.symm.trans same)
    exact stored

/-- The files of an engine, in every state it reaches, load into the live state, and into what the
acknowledged transactions make in their order. -/
theorem openFiles_reached (reached : site.Reached journaled frames) (shards : Nat) :
    ∃ reopened, site.openFiles journaled.arena.files shards = some reopened ∧
      reopened.core.liveState = journaled.core.liveState ∧
      loadFromLog site.config site.encoder shards ⟨none, frames⟩ = .ok reopened.core := by
  obtain ⟨reopened, success, _, live, log⟩ := (reached.stored lawful).reopen lawful shards
  exact ⟨reopened, success, live, log⟩

end

/-- Files that are not encrypted. -/
def plain : Site 64 := ⟨PlainCodec.codec, ⟨3, true⟩, sampleSerde, some, some, plainConfig, plainEncoder⟩

theorem lawful_plain : plain.Lawful := ⟨PlainCodec.lawful, fun _ _ same => same.symm, fun _ => rfl⟩

theorem payload_small : (payloadBytes sampleSerde [.delete "v"]).length ≤ 100 := by
  rw [payloadBytes, frameTerms_of_no_terms _ rfl]
  decide

theorem payload_fits : (payloadBytes sampleSerde [.delete "v"]).length < 2 ^ 64 := payload_small.trans_lt (by decide)

def deleting : Submission sampleSerde :=
  ⟨.empty, none, [.delete "v"], payloadBytes sampleSerde [.delete "v"], binaryPayload_eq _ _, payload_fits⟩

theorem openFiles_reached_delete : ∃ journaled, plain.Reached journaled [[.delete "v"]] ∧
    ∃ reopened, plain.openFiles journaled.arena.files 2 = some reopened ∧
      reopened.core.liveState = journaled.core.liveState ∧
      loadFromLog plainConfig plainEncoder 2 ⟨none, [[.delete "v"]]⟩ = .ok reopened.core := by
  obtain ⟨arena, start, holds⟩ := openFiles_new lawful_plain 0
  have unlisted : isChunk "v" = false := by decide
  have readable : deleting.Readable := ⟨forall_mem_singleton.mpr unlisted, by decide, by decide,
    fun before document after split => by
      have member : Mutation.document document ∈ deleting.mutations := by simp [split]
      simp [deleting] at member⟩
  have appended : (arenaWrite PlainCodec.codec ⟨3, true⟩ arena (some deleting.payload) .none).2 = true := by
    obtain ⟨segments, layout, -⟩ := Arena.holds_iff.mp holds
    obtain ⟨_, _, _, ⟨_, _, _, _, _, _, done⟩ | ⟨_, faulty, _⟩⟩ :=
      Arena.writeFrame_layout PlainCodec.lawful layout deleting.payload true .none
    · rw [arenaWrite]
      split
      next => rfl
      next found =>
        cases (congrArg Prod.snd found).symm.trans done
    · exact absurd ⟨rfl, by decide, payload_small.trans (by decide)⟩ faulty
  have done : (plain.commit ⟨opened plainConfig 0 none, arena⟩ deleting .none).2 = .ok true := by
    exact (commitSerialized_append (by decide) (by exact Bool.false_ne_true) rfl).2.trans (if_pos appended)
  have reached := Reached.acknowledged (.start start) readable (Prod.ext rfl done)
  exact ⟨_, reached, openFiles_reached lawful_plain reached 2⟩

end Site

end Warm.Engine
