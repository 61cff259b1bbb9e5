import Warm.Bytes

/-! The audit effect stream: a magic and records of one size, appended one at a time. Delivery
first cuts a torn tail, then writes the record unless the last record already is it. A failed
call may leave part of a record behind, and what has not been synced may not survive a crash. -/
namespace Warm.Audit

open Bytes List

/-- A byte array of fixed length. -/
abbrev Octets (n : Nat) := { bytes : Bytes // bytes.length = n }

inductive AuditOp where
  | memorize
  | delete
  | compact
  deriving DecidableEq, Repr

namespace AuditOp

def toU8 : AuditOp → UInt8
  | memorize => 1
  | delete => 2
  | compact => 3

def fromU8 (v : UInt8) : Option AuditOp :=
  if v = 1 then some memorize else if v = 2 then some delete else if v = 3 then some compact else none

theorem fromU8_toU8 (op : AuditOp) : fromU8 op.toU8 = some op := by
  cases op <;> rfl

end AuditOp

structure AuditEntry where
  timestampMs : UInt64
  op : AuditOp
  idHash : Octets 32
  signature : Octets 64
  effectId : Option (Octets 16)
  deriving DecidableEq

def ENTRY_SIZE : Nat := 8 + 1 + 32 + 64
def RECORD_SIZE : Nat := 16 + ENTRY_SIZE + 4
/-- `WARMAU02`. -/
def MAGIC : Bytes := [87, 65, 82, 77, 65, 85, 48, 50]
def MAX_PENDING : Nat := 1024

/-- `u64::to_le_bytes`. -/
def u64Bytes (n : UInt64) : Bytes := ofWord n.toNat ++ ofWord (n.toNat / 2 ^ 32)

def readU64 (data : Bytes) : UInt64 := UInt64.ofNat (word data 0 + 2 ^ 32 * word data 4)

namespace AuditEntry

def toBytes (entry : AuditEntry) : Bytes :=
  u64Bytes entry.timestampMs ++ (entry.op.toU8 :: (entry.idHash.1 ++ entry.signature.1))

/-- The slice of `len` bytes at `i`, if the buffer has it. -/
def octets (data : Bytes) (i len : Nat) : Option (Octets len) :=
  if inside : i + len ≤ data.length then some ⟨slice data i len, slice_length data i len inside⟩ else none

def fromBytes (data : Bytes) : Option AuditEntry := do
  let op ← AuditOp.fromU8 (octet data 8)
  let idHash ← octets data 9 32
  let signature ← octets data 41 64
  some ⟨readU64 data, op, idHash, signature, none⟩

end AuditEntry

/-- An audit record a transaction commits and the drainer delivers. -/
structure AuditIntent where
  entry : AuditEntry
  deriving DecidableEq

inductive StreamError where
  | header
  | unsupportedFormat
  | checksum (index : Nat)
  | invalidOperation (index : Nat)
  | truncatedWhileOpen
  | noIdentity
  | conflictingPayloads
  | lengthOverflow
  | repair
  | append
  | sync
  deriving DecidableEq, Repr

variable (crc32 : Bytes → UInt32)

namespace AuditIntent

def id (intent : AuditIntent) : Option (Octets 16) := intent.entry.effectId

def encode (intent : AuditIntent) : Option Bytes := do
  let id ← intent.id
  let body := id.1 ++ intent.entry.toBytes
  some (body ++ ofWord (crc32 body).toNat)

/-- Decodes the record `bytes`; `index` is its place in the file, for the error. -/
def decode (index : Nat) (bytes : Bytes) : Except StreamError AuditIntent :=
  if (crc32 (bytes.take (RECORD_SIZE - 4))).toNat ≠ word bytes (RECORD_SIZE - 4) then
    .error (.checksum index)
  else
    match AuditEntry.fromBytes (slice bytes 16 ENTRY_SIZE), AuditEntry.octets bytes 0 16 with
    | some entry, some id => .ok ⟨{ entry with effectId := some id }⟩
    | _, _ => .error (.invalidOperation index)

end AuditIntent

/-- A file with the length up to which its content is known to be on disk. -/
structure StreamFile where
  bytes : Bytes
  synced : Nat
  deriving DecidableEq, Repr

structure AuditEffectStream where
  file : StreamFile
  publishedLen : Nat
  deriving DecidableEq, Repr

/-- The length of a file without the bytes after its last whole record. -/
def wholeLength (length : Nat) : Nat := length - (length - MAGIC.length) % RECORD_SIZE

/-- The record at `index`. -/
def recordAt (file : Bytes) (index : Nat) : Bytes := slice file (MAGIC.length + index * RECORD_SIZE) RECORD_SIZE

/-- Every whole record of the file up to `length`, in order. -/
def decodeRecords (file : Bytes) (length : Nat) : Except StreamError (List AuditIntent) :=
  (List.range ((length - MAGIC.length) / RECORD_SIZE)).mapM fun i =>
    AuditIntent.decode crc32 i (recordAt file i)

/-- Checks the header and every whole record; the number of trailing bytes. -/
def inspect (file : Bytes) : Except StreamError Nat :=
  if file.length < MAGIC.length then .error .header
  else if file.take MAGIC.length ≠ MAGIC then .error .unsupportedFormat
  else do
    let _ ← decodeRecords crc32 file file.length
    .ok ((file.length - MAGIC.length) % RECORD_SIZE)

/-- The system calls of one delivery that may fail: the truncation of a torn tail, the sync after
it, the append after some bytes of the record, and the sync of the record. -/
structure Faults where
  truncate : Bool
  repairSync : Bool
  append : Option Nat
  sync : Bool
  deriving DecidableEq, Repr

def Faults.none : Faults := ⟨false, false, Option.none, false⟩

def StreamFile.sync (file : StreamFile) : StreamFile := { file with synced := file.bytes.length }

namespace AuditEffectStream

def repairTail (stream : AuditEffectStream) (faults : Faults) : AuditEffectStream × Except StreamError Nat :=
  let length := stream.file.bytes.length
  let whole := wholeLength length
  if length < stream.publishedLen then (stream, .error .truncatedWhileOpen)
  else if whole = length then (stream, .ok whole)
  else if faults.truncate then (stream, .error .repair)
  else
    let file := { stream.file with bytes := stream.file.bytes.take whole }
    if faults.repairSync then ({ stream with file }, .error .sync)
    else ({ stream with file := file.sync }, .ok whole)

def last (stream : AuditEffectStream) (length : Nat) : Except StreamError (Option AuditIntent) :=
  if length = MAGIC.length then .ok none
  else
    let index := (length - MAGIC.length) / RECORD_SIZE - 1
    (AuditIntent.decode crc32 index (recordAt stream.file.bytes index)).map some

/-- Syncs and publishes a file that ends with the delivered record. -/
def publish (stream : AuditEffectStream) (syncFails : Bool) (length : Nat) :
    AuditEffectStream × Except StreamError Unit :=
  if syncFails then (stream, .error .sync)
  else ({ file := stream.file.sync, publishedLen := length }, .ok ())

def append (stream : AuditEffectStream) (bytes : Bytes) (length : Nat) (faults : Faults) :
    AuditEffectStream × Except StreamError Unit :=
  if length + RECORD_SIZE ≥ 2 ^ 64 then (stream, .error .lengthOverflow)
  else
    match faults.append with
    | some written =>
      let file := { stream.file with bytes := write stream.file.bytes length (bytes.take written) }
      ({ stream with file }, .error .append)
    | none =>
      let file := { stream.file with bytes := write stream.file.bytes length bytes }
      publish { stream with file } faults.sync (length + RECORD_SIZE)

def deliver (stream : AuditEffectStream) (intent : AuditIntent) (faults : Faults) :
    AuditEffectStream × Except StreamError Unit :=
  match intent.encode crc32 with
  | none => (stream, .error .noIdentity)
  | some bytes =>
    match stream.repairTail faults with
    | (stream, .error e) => (stream, .error e)
    | (stream, .ok length) =>
      match stream.last crc32 length with
      | .error e => (stream, .error e)
      | .ok none => stream.append bytes length faults
      | .ok (some last) =>
        if last.id = intent.id then
          if last = intent then stream.publish faults.sync length
          else (stream, .error .conflictingPayloads)
        else stream.append bytes length faults

/-- `from_file` without failing calls: the file must be intact up to its torn tail. -/
def fromFile (file : StreamFile) : Except StreamError AuditEffectStream := do
  let _ ← inspect crc32 file.bytes
  match (AuditEffectStream.mk file MAGIC.length).repairTail Faults.none with
  | (_, .error e) => .error e
  | (stream, .ok length) =>
    let _ ← stream.last crc32 length
    .ok { stream with publishedLen := length }

/-- `entries_since`: the published entries from a time on. -/
def entriesSince (stream : AuditEffectStream) (timestampMs : UInt64) : Except StreamError (List AuditEntry) := do
  let intents ← decodeRecords crc32 stream.file.bytes stream.publishedLen
  .ok ((intents.map (·.entry)).filter fun entry => decide (timestampMs ≤ entry.timestampMs))

end AuditEffectStream

theorem recordSize_eq : RECORD_SIZE = 125 := rfl

theorem readU64_u64Bytes (n : UInt64) (rest : Bytes) : readU64 (u64Bytes n ++ rest) = n := by
  have low : word (u64Bytes n ++ rest) 0 = n.toNat % 2 ^ 32 := by
    rw [u64Bytes, append_assoc, word_ofWord_append]
  have high : word (u64Bytes n ++ rest) 4 = n.toNat / 2 ^ 32 := by
    have bound := n.toNat_lt
    rw [u64Bytes, append_assoc]
    refine (word_append_right (ofWord n.toNat) _ 0).trans ?_
    rw [word_ofWord_append, Nat.mod_eq_of_lt (by omega)]
  rw [readU64, low, high, Nat.mod_add_div]
  exact UInt64.ofNat_toNat

namespace AuditEntry

@[simp] theorem toBytes_length (entry : AuditEntry) : entry.toBytes.length = ENTRY_SIZE := by
  simp [toBytes, u64Bytes, entry.idHash.2, entry.signature.2, ENTRY_SIZE]

theorem octets_append (front : Bytes) (part : Octets len) (rest : Bytes) (at_ : front.length = i) :
    octets (front ++ (part.1 ++ rest)) i len = some part := by
  subst at_
  have inside : front.length + len ≤ (front ++ (part.1 ++ rest)).length := by
    simp [part.2]
  have whole : slice (front ++ (part.1 ++ rest)) front.length len = part.1 := by
    have start := slice_append_right front (part.1 ++ rest) 0 len
    rw [Nat.add_zero] at start
    rw [start]
    have taken := slice_whole part.1 rest
    rwa [part.2] at taken
  rw [octets, dif_pos inside]
  exact congrArg some (Subtype.ext whole)

theorem fromBytes_toBytes (entry : AuditEntry) :
    fromBytes entry.toBytes = some { entry with effectId := none } := by
  have op : octet entry.toBytes 8 = entry.op.toU8 :=
    octet_append_right (u64Bytes entry.timestampMs) (entry.op.toU8 :: (entry.idHash.1 ++ entry.signature.1)) 0
  have hash : octets entry.toBytes 9 32 = some entry.idHash := by
    have front : (u64Bytes entry.timestampMs ++ [entry.op.toU8]).length = 9 := rfl
    have found := octets_append (u64Bytes entry.timestampMs ++ [entry.op.toU8]) entry.idHash
      entry.signature.1 front
    simpa [toBytes] using found
  have signature : octets entry.toBytes 41 64 = some entry.signature := by
    have front : (u64Bytes entry.timestampMs ++ entry.op.toU8 :: entry.idHash.1).length = 41 := by
      simp [u64Bytes, entry.idHash.2]
    have found := octets_append (u64Bytes entry.timestampMs ++ entry.op.toU8 :: entry.idHash.1)
      entry.signature [] front
    simpa [toBytes] using found
  rw [fromBytes, op, AuditOp.fromU8_toU8, hash, signature, toBytes, readU64_u64Bytes]
  rfl

end AuditEntry

namespace AuditIntent

theorem encode_length (encoded : encode crc32 intent = some bytes) : bytes.length = RECORD_SIZE := by
  simp only [encode, Option.bind_eq_bind, Option.bind_eq_some_iff, Option.some.injEq] at encoded
  obtain ⟨id, _, rfl⟩ := encoded
  simp [id.2, RECORD_SIZE, Nat.add_assoc]

theorem decode_encode (encoded : encode crc32 intent = some bytes) (index : Nat) :
    decode crc32 index bytes = .ok intent := by
  simp only [encode, Option.bind_eq_bind, Option.bind_eq_some_iff, Option.some.injEq] at encoded
  obtain ⟨id, identified, rfl⟩ := encoded
  have bodyLength : (id.1 ++ intent.entry.toBytes).length = RECORD_SIZE - 4 := by
    simp [id.2, RECORD_SIZE]
  have body (rest : Bytes) : (id.1 ++ intent.entry.toBytes ++ rest).take (RECORD_SIZE - 4) =
      id.1 ++ intent.entry.toBytes := by
    rw [← bodyLength, take_left]
  have checksum (crc : UInt32) : word (id.1 ++ intent.entry.toBytes ++ ofWord crc.toNat) (RECORD_SIZE - 4) =
      crc.toNat := by
    rw [← bodyLength]
    refine (word_append_right (id.1 ++ intent.entry.toBytes) _ 0).trans ?_
    rw [word_ofWord, Nat.mod_eq_of_lt crc.toNat_lt]
  have entryBytes (rest : Bytes) : slice (id.1 ++ intent.entry.toBytes ++ rest) 16 ENTRY_SIZE =
      intent.entry.toBytes := by
    have start := slice_append_right id.1 (intent.entry.toBytes ++ rest) 0 ENTRY_SIZE
    rw [id.2] at start
    rw [append_assoc, start, ← intent.entry.toBytes_length, slice_whole]
  have idBytes (rest : Bytes) : AuditEntry.octets (id.1 ++ intent.entry.toBytes ++ rest) 0 16 = some id := by
    have found := AuditEntry.octets_append [] id (intent.entry.toBytes ++ rest) rfl
    simpa using found
  rw [decode, body, checksum, if_neg (fun differ => differ rfl), entryBytes,
    AuditEntry.fromBytes_toBytes, idBytes]
  have same : intent.entry.effectId = some id := identified
  rcases intent with ⟨⟨_, _, _, _, _⟩⟩
  simp_all

end AuditIntent

/-- The record of an intent that has an identity. -/
def encoded (intent : AuditIntent) : Bytes := (intent.encode crc32).getD []

theorem encode_eq (identified : intent.id.isSome = true) :
    intent.encode crc32 = some (encoded crc32 intent) := by
  obtain ⟨id, found⟩ := Option.isSome_iff_exists.mp identified
  simp [encoded, AuditIntent.encode, found]

theorem encoded_length (identified : intent.id.isSome = true) :
    (encoded crc32 intent).length = RECORD_SIZE :=
  AuditIntent.encode_length crc32 (encode_eq crc32 identified)

/-- A file that holds exactly these records, then less than one record of torn bytes. -/
structure Holds (file : Bytes) (records : List AuditIntent) (torn : Bytes) : Prop where
  shape : file = MAGIC ++ (records.flatMap (encoded crc32) ++ torn)
  short : torn.length < RECORD_SIZE
  identified : ∀ intent ∈ records, intent.id.isSome = true

theorem flatMap_encoded_length (identified : ∀ intent ∈ records, intent.id.isSome = true) :
    (List.flatMap (encoded crc32) records).length = records.length * RECORD_SIZE := by
  induction records with
  | nil => simp
  | cons intent records ih =>
    have first := encoded_length crc32 (identified intent (mem_cons_self ..))
    have rest := ih (forall_mem_cons.mp identified).2
    rw [flatMap_cons, length_append, first, rest, length_cons, Nat.add_mul, Nat.one_mul,
      Nat.add_comm]

namespace Holds

variable {crc32}

section

variable (holds : Holds crc32 file records torn)
include holds

theorem length :
    file.length = MAGIC.length + records.length * RECORD_SIZE + torn.length := by
  rw [holds.shape, length_append, length_append,
    flatMap_encoded_length crc32 holds.identified, Nat.add_assoc]

theorem whole :
    wholeLength file.length = MAGIC.length + records.length * RECORD_SIZE := by
  have torn_lt := holds.short
  have rest : (records.length * RECORD_SIZE + torn.length) % RECORD_SIZE = torn.length := by
    rw [Nat.mul_add_mod_self_right, Nat.mod_eq_of_lt torn_lt]
  rw [wholeLength, holds.length, Nat.add_assoc, Nat.add_sub_cancel_left, rest]
  omega

theorem count :
    (file.length - MAGIC.length) / RECORD_SIZE = records.length := by
  rw [holds.length, Nat.add_assoc, Nat.add_sub_cancel_left, Nat.mul_comm,
    Nat.mul_add_div (by decide), Nat.div_eq_of_lt holds.short, Nat.add_zero]

theorem take (n : Nat) (bound : n ≤ records.length) :
    Holds crc32 (file.take (MAGIC.length + n * RECORD_SIZE)) (records.take n) [] := by
  have kept (intent : AuditIntent) (member : intent ∈ records.take n) : intent.id.isSome = true :=
    holds.identified intent (mem_of_mem_take member)
  have front : (records.take n).flatMap (encoded crc32) = (records.flatMap (encoded crc32)).take (n * RECORD_SIZE) := by
    have size := flatMap_encoded_length crc32 kept
    rw [length_take, Nat.min_eq_left bound] at size
    conv_rhs => rw [← take_append_drop n records, flatMap_append, ← size, take_left]
  refine ⟨?_, by decide, kept⟩
  have inside : n * RECORD_SIZE ≤ (records.flatMap (encoded crc32)).length := by
    rw [flatMap_encoded_length crc32 holds.identified]
    exact Nat.mul_le_mul_right _ bound
  rw [holds.shape, take_length_add_append, take_append_of_le_length inside, front, append_nil]

end

theorem append (holds : Holds crc32 file records []) (identified : intent.id.isSome = true) :
    Holds crc32 (file ++ encoded crc32 intent) (records ++ [intent]) [] := by
  refine ⟨?_, by decide, ?_⟩
  · simp [holds.shape, flatMap_append]
  · exact forall_mem_append.mpr ⟨holds.identified, forall_mem_singleton.mpr identified⟩

theorem appendTorn (holds : Holds crc32 file records []) (short : torn.length < RECORD_SIZE) :
    Holds crc32 (file ++ torn) records torn := by
  refine ⟨?_, short, holds.identified⟩
  simp [holds.shape]

section

variable (holds : Holds crc32 file records torn)
include holds

theorem recordAt_eq (inside : i < records.length) :
    recordAt file i = encoded crc32 records[i] := by
  have front := flatMap_encoded_length crc32 fun intent member =>
    holds.identified intent (mem_of_mem_take (i := i) member)
  have split : records.flatMap (encoded crc32) = (records.take i).flatMap (encoded crc32) ++
      (encoded crc32 records[i] ++ (records.drop (i + 1)).flatMap (encoded crc32)) := by
    rw [← flatMap_cons, ← drop_eq_getElem_cons inside, ← flatMap_append, take_append_drop]
  have size := encoded_length crc32 (holds.identified records[i] (getElem_mem inside))
  rw [length_take, Nat.min_eq_left (Nat.le_of_lt inside)] at front
  rw [recordAt, holds.shape, slice_append_right, split, append_assoc, ← front, ← Nat.add_zero (List.length _),
    slice_append_right, append_assoc, ← size, slice_whole]

theorem decode_recordAt (inside : i < records.length) (index : Nat) :
    AuditIntent.decode crc32 index (recordAt file i) = .ok records[i] := by
  rw [holds.recordAt_eq inside]
  exact AuditIntent.decode_encode crc32 (encode_eq crc32 (holds.identified _ (getElem_mem inside))) index

theorem decodeRecords_eq :
    decodeRecords crc32 file file.length = .ok records := by
  have loop (n : Nat) (bound : n ≤ records.length) :
      (List.range n).mapM (fun i => AuditIntent.decode crc32 i (recordAt file i)) = .ok (records.take n) := by
    induction n with
    | zero => rfl
    | succ n ih =>
      have inside : n < records.length := bound
      rw [range_succ, mapM_append, ih (Nat.le_of_lt inside), take_add_one,
        getElem?_eq_getElem inside]
      simp only [mapM_cons, mapM_nil, holds.decode_recordAt inside]
      rfl
  rw [decodeRecords, holds.count, loop _ (Nat.le_refl _), take_length]

theorem inspect_eq : inspect crc32 file = .ok torn.length := by
  have long : ¬ file.length < MAGIC.length := by
    rw [holds.length]
    omega
  have magic : file.take MAGIC.length = MAGIC := by
    rw [holds.shape, take_left]
  have rest : (records.length * RECORD_SIZE + torn.length) % RECORD_SIZE = torn.length := by
    rw [Nat.mul_add_mod_self_right, Nat.mod_eq_of_lt holds.short]
  rw [inspect, if_neg long, if_neg (fun differ => differ magic), holds.decodeRecords_eq, holds.length,
    Nat.add_assoc, Nat.add_sub_cancel_left, rest]
  rfl

end

theorem last_eq (stream : AuditEffectStream) (holds : Holds crc32 stream.file.bytes records torn) :
    stream.last crc32 (MAGIC.length + records.length * RECORD_SIZE) = .ok records.getLast? := by
  rw [AuditEffectStream.last]
  rcases eq_nil_or_concat' records with rfl | ⟨front, intent, rfl⟩
  · rw [if_pos (by simp)]
    rfl
  · have some_record : ¬ MAGIC.length + (front ++ [intent]).length * RECORD_SIZE = MAGIC.length := by
      rw [length_append, length_singleton, recordSize_eq]
      omega
    have index : (MAGIC.length + (front ++ [intent]).length * RECORD_SIZE - MAGIC.length) / RECORD_SIZE - 1 =
        front.length := by
      rw [Nat.add_sub_cancel_left, Nat.mul_div_cancel _ (by decide), length_append]
      rfl
    have inside : front.length < (front ++ [intent]).length := by simp
    simp only [if_neg some_record, index, holds.decode_recordAt inside]
    simp [Except.map]

end Holds

/-- The records after a delivery: the intent is appended unless it already is the last one. -/
def delivered (records : List AuditIntent) (intent : AuditIntent) : List AuditIntent :=
  if records.getLast? = some intent then records else records ++ [intent]

/-- What a call on the stream may do to the file: `before` grows at most to `after`, and what was
synced stays synced. -/
structure Kept (file : StreamFile) (records : List AuditIntent) (torn : Bytes) (synced : Nat) : Prop where
  holds : Holds crc32 file.bytes records torn
  grown : synced ≤ file.synced
  bounded : file.synced ≤ MAGIC.length + records.length * RECORD_SIZE

namespace AuditEffectStream

variable {crc32}

section

variable (stream : AuditEffectStream)
include stream

theorem repairTail_kept (faults : Faults)
    (kept : Kept crc32 stream.file records torn synced) :
    ∃ left, Kept crc32 (stream.repairTail faults).1.file records left synced ∧
      ∀ length, (stream.repairTail faults).2 = .ok length →
        length = MAGIC.length + records.length * RECORD_SIZE ∧ left = [] := by
  have whole := kept.holds.whole
  have cut := kept.holds.take records.length (Nat.le_refl _)
  rw [take_length] at cut
  simp only [repairTail, whole]
  split
  · exact ⟨torn, kept, fun length h => nomatch h⟩
  · split
    next intact =>
      refine ⟨torn, kept, ?_⟩
      rintro length ⟨⟩
      have size := kept.holds.length
      exact ⟨rfl, length_eq_zero_iff.mp (by omega)⟩
    next =>
      split
      · exact ⟨torn, kept, fun length h => nomatch h⟩
      · split
        · exact ⟨[], ⟨cut, kept.grown, kept.bounded⟩, fun length h => nomatch h⟩
        · refine ⟨[], ⟨cut, ?_, ?_⟩, ?_⟩
          · have size := cut.length
            have grown := kept.grown
            have bounded := kept.bounded
            simp only [StreamFile.sync]
            rw [size, length_nil]
            omega
          · simp only [StreamFile.sync]
            rw [cut.length]
            rfl
          · rintro length ⟨⟩
            exact ⟨rfl, rfl⟩

theorem publish_kept (syncFails : Bool) (length : Nat)
    (kept : Kept crc32 stream.file records [] synced) :
    Kept crc32 (stream.publish syncFails length).1.file records [] synced ∧
      ((stream.publish syncFails length).2 = .ok () →
        (stream.publish syncFails length).1.file.synced = MAGIC.length + records.length * RECORD_SIZE) := by
  have size := kept.holds.length
  have grown := kept.grown
  have bounded := kept.bounded
  rw [length_nil] at size
  rw [publish]
  split
  · exact ⟨kept, fun h => nomatch h⟩
  · refine ⟨⟨kept.holds, ?_, ?_⟩, fun _ => ?_⟩
    all_goals
      simp only [StreamFile.sync]
      omega

theorem append_kept (identified : intent.id.isSome = true) (faults : Faults)
    (kept : Kept crc32 stream.file records [] synced) :
    let out := stream.append (encoded crc32 intent) (MAGIC.length + records.length * RECORD_SIZE) faults
    ∃ after left, Kept crc32 out.1.file after left synced ∧ (after = records ∨ after = records ++ [intent]) ∧
      (out.2 = .ok () → after = records ++ [intent] ∧
        out.1.file.synced = MAGIC.length + after.length * RECORD_SIZE) := by
  intro out
  have size := kept.holds.length
  rw [length_nil, Nat.add_zero] at size
  have written (bytes : Bytes) : write stream.file.bytes (MAGIC.length + records.length * RECORD_SIZE) bytes =
      stream.file.bytes ++ bytes := by
    have extended := write_append stream.file.bytes [] bytes
    rwa [append_nil, drop_nil, append_nil, size] at extended
  have longer : stream.file.synced ≤ MAGIC.length + (records ++ [intent]).length * RECORD_SIZE := by
    have bounded := kept.bounded
    rw [length_append, length_singleton, Nat.add_mul]
    omega
  have room := encoded_length crc32 identified
  simp only [out, append, written]
  split
  · exact ⟨records, [], kept, .inl rfl, fun h => nomatch h⟩
  · cases faults.append with
    | some count =>
      by_cases part : count < RECORD_SIZE
      · have short : ((encoded crc32 intent).take count).length < RECORD_SIZE := by
          rw [length_take]
          omega
        exact ⟨records, _, ⟨kept.holds.appendTorn short, kept.grown, kept.bounded⟩, .inl rfl, fun h => nomatch h⟩
      · have all : (encoded crc32 intent).take count = encoded crc32 intent :=
          take_of_length_le (by omega)
        simp only [all]
        exact ⟨records ++ [intent], [], ⟨kept.holds.append identified, kept.grown, longer⟩, .inr rfl,
          fun h => nomatch h⟩
    | none =>
      have next : Kept crc32 { stream.file with bytes := stream.file.bytes ++ encoded crc32 intent }
          (records ++ [intent]) [] synced := ⟨kept.holds.append identified, kept.grown, longer⟩
      obtain ⟨same, published⟩ := publish_kept
        { stream with file := { stream.file with bytes := stream.file.bytes ++ encoded crc32 intent } }
        faults.sync (MAGIC.length + records.length * RECORD_SIZE + RECORD_SIZE) next
      exact ⟨records ++ [intent], [], same, .inr rfl, fun ok => ⟨rfl, published ok⟩⟩

theorem deliver_kept (identified : intent.id.isSome = true) (faults : Faults)
    (kept : Kept crc32 stream.file records torn synced)
    (known : ∀ last, records.getLast? = some last → last.id = intent.id → last = intent) :
    let out := stream.deliver crc32 intent faults
    ∃ after left, Kept crc32 out.1.file after left synced ∧
      (after = records ∨ after = delivered records intent) ∧
      (out.2 = .ok () → after = delivered records intent ∧
        out.1.file.synced = MAGIC.length + after.length * RECORD_SIZE) := by
  intro out
  obtain ⟨left, repaired, ready⟩ := stream.repairTail_kept faults kept
  simp only [out, deliver, encode_eq crc32 identified]
  rcases result : stream.repairTail faults with ⟨stream', _ | length⟩
  · rw [result] at repaired
    exact ⟨records, left, repaired, .inl rfl, fun h => nomatch h⟩
  · rw [result] at repaired ready
    obtain ⟨rfl, rfl⟩ := ready length rfl
    simp only [Holds.last_eq stream' repaired.holds]
    cases final : records.getLast? with
    | none =>
      have new : delivered records intent = records ++ [intent] := by simp [delivered, final]
      rw [new]
      exact stream'.append_kept identified faults repaired
    | some last =>
      by_cases same : last.id = intent.id
      · obtain rfl := known last final same
        have again : delivered records last = records := by simp [delivered, final]
        simp only [if_true, again]
        obtain ⟨same, published⟩ := stream'.publish_kept faults.sync
          (MAGIC.length + records.length * RECORD_SIZE) repaired
        exact ⟨records, [], same, .inl rfl, fun ok => ⟨rfl, published ok⟩⟩
      · have new : delivered records intent = records ++ [intent] := by
          have apart : last ≠ intent := fun equal => same (by rw [equal])
          simp [delivered, final, apart]
        simp only [if_neg same, new]
        exact stream'.append_kept identified faults repaired

end

theorem fromFile_ok (file : StreamFile) (kept : Kept crc32 file records torn synced) :
    ∃ stream, fromFile crc32 file = .ok stream ∧ Kept crc32 stream.file records [] synced := by
  obtain ⟨left, repaired, ready⟩ := repairTail_kept ⟨file, MAGIC.length⟩ Faults.none kept
  have long : ¬ file.bytes.length < MAGIC.length := by
    rw [kept.holds.length]
    omega
  have succeeds : ∃ length, ((⟨file, MAGIC.length⟩ : AuditEffectStream).repairTail Faults.none).2 = .ok length := by
    simp only [repairTail, if_neg long, Faults.none]
    split
    · exact ⟨_, rfl⟩
    · exact ⟨_, rfl⟩
  rcases result : (⟨file, MAGIC.length⟩ : AuditEffectStream).repairTail Faults.none with ⟨stream, outcome⟩
  rw [result] at repaired ready succeeds
  obtain ⟨length, rfl⟩ := succeeds
  obtain ⟨rfl, rfl⟩ := ready length rfl
  refine ⟨{ stream with publishedLen := MAGIC.length + records.length * RECORD_SIZE }, ?_, repaired⟩
  rw [fromFile, kept.holds.inspect_eq, result]
  change (stream.last crc32 _ >>= _) = _
  rw [Holds.last_eq stream repaired.holds]
  rfl

end AuditEffectStream

end Warm.Audit
