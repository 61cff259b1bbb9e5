import Warm.Bytes
import Mathlib.Data.List.Nodup

/-! The files of an updatable vector index: the checkpoint manifest `CURRENT` and the update log,
whose frames each hold one committed batch. Coordinates are `f32` bit patterns. The checksum is
third-party code and float arithmetic has no kernel meaning, so both are parameters. -/
namespace Warm

open List

namespace Bytes

/-- The little-endian 64-bit word at `i`. -/
def word64 (data : Bytes) (i : Nat) : Nat := word data i + 2 ^ 32 * word data (i + 4)

def ofWord64 (n : Nat) : Bytes := ofWord n ++ ofWord (n / 2 ^ 32)

@[simp] theorem ofWord64_length (n : Nat) : (ofWord64 n).length = 8 := rfl

theorem word64_ofWord64_append (n : Nat) (rest : Bytes) : word64 (ofWord64 n ++ rest) 0 = n % 2 ^ 64 := by
  have low : word (ofWord64 n ++ rest) 0 = n % 2 ^ 32 := by
    rw [ofWord64, append_assoc, word_ofWord_append]
  have high : word (ofWord64 n ++ rest) (0 + 4) = n / 2 ^ 32 % 2 ^ 32 := by
    rw [ofWord64, append_assoc, Nat.zero_add]
    exact (word_append_right (ofWord n) _ 0).trans (word_ofWord_append _ _)
  rw [word64, low, high]
  omega

theorem drop_parts (front back : List Bytes) (offset : front.flatten.length = i) :
    (front ++ back).flatten.drop i = back.flatten := by
  rw [List.flatten_append, ← offset, drop_left]

theorem word_parts (front back : List Bytes) (n : Nat) (offset : front.flatten.length = i) :
    word (front ++ ofWord n :: back).flatten i = n % 2 ^ 32 := by
  have behind := word_drop (front ++ ofWord n :: back).flatten i 0
  rw [drop_parts front _ offset, Nat.add_zero] at behind
  rw [← behind, flatten_cons, word_ofWord_append]

theorem word64_drop (data : Bytes) (i j : Nat) : word64 (data.drop i) j = word64 data (i + j) := by
  simp only [word64, word_drop, Nat.add_assoc]

theorem word64_parts (front back : List Bytes) (n : Nat) (offset : front.flatten.length = i) :
    word64 (front ++ ofWord64 n :: back).flatten i = n % 2 ^ 64 := by
  have behind := word64_drop (front ++ ofWord64 n :: back).flatten i 0
  rw [drop_parts front _ offset, Nat.add_zero] at behind
  rw [← behind, flatten_cons, word64_ofWord64_append]

theorem slice_parts (front back : List Bytes) (part : Bytes) (offset : front.flatten.length = i)
    (size : part.length = len) : slice (front ++ part :: back).flatten i len = part := by
  rw [slice, drop_parts front _ offset, flatten_cons, ← size, take_left]

end Bytes

namespace Vector

open Bytes

/-- The coordinates of a vector, as `f32::to_bits` gives them. -/
abbrev Row := List UInt32

inductive Metric where
  | angular
  | euclidean
  deriving DecidableEq, Repr

def Metric.code : Metric → Nat
  | .angular => 0
  | .euclidean => 1

/-- `crc32fast`, the dot product kernel and `f32` division and square root. -/
structure Kernels where
  crc32 : Bytes → UInt32
  dot : Row → Row → UInt32
  div : UInt32 → UInt32 → UInt32
  sqrt : UInt32 → UInt32

def maxDim : Nat := 1048576
def maxPayload : Nat := 67108864
def maxOps : Nat := 65536
/-- `u32::MAX`, which is no id. -/
def reserved : UInt32 := 0xFFFFFFFF

inductive UpdateError where
  | unknownId (id : UInt32)
  | alreadyExists (id : UInt32)
  | duplicateIdInBatch (id : UInt32)
  | dimensionMismatch (expected actual : Nat)
  | invalidVector (reason : String)
  | idOutOfRange
  | capacity
  | corruptLog (offset : Nat) (reason : String)
  | corruptBase (reason : String)
  | unsupportedFormat (reason : String)
  | writerBusy
  | locked
  | recoveryRequired
  | io
  deriving DecidableEq, Repr

def UpdateError.message : UpdateError → String
  | .unknownId id => "unknown vector id " ++ toString id.toNat
  | .alreadyExists id => "vector id " ++ toString id.toNat ++ " already exists"
  | .duplicateIdInBatch id => "id " ++ toString id.toNat ++ " occurs twice in one batch"
  | .dimensionMismatch expected actual =>
    "expected dimension " ++ toString expected ++ ", got " ++ toString actual
  | .invalidVector reason => "invalid vector: " ++ reason
  | .idOutOfRange => "id u32::MAX is reserved"
  | .capacity => "vector index allocation or batch limit exceeded"
  | .corruptLog offset reason => "corrupt vector log at byte " ++ toString offset ++ ": " ++ reason
  | .corruptBase reason => "corrupt vector base: " ++ reason
  | .unsupportedFormat reason => "unsupported vector format: " ++ reason
  | .writerBusy => "another writer is active"
  | .locked => "index is already open by a writer"
  | .recoveryRequired => "write outcome uncertain; reopen the index before further writes"
  | .io => "input or output error"

/-- `f32::is_finite`: the exponent is not all ones. -/
def isFinite (v : UInt32) : Bool := v.toNat / 2 ^ 23 % 256 != 255

/-- `v == 0.0`, for either sign. -/
def isZero (v : UInt32) : Bool := v.toNat % 2 ^ 31 == 0

def validateVector (kernels : Kernels) (row : Row) (dim : Nat) (metric : Metric) : Except UpdateError Unit :=
  if row.length ≠ dim then .error (.dimensionMismatch dim row.length)
  else if row.any (!isFinite ·) then .error (.invalidVector "non-finite coordinate")
  else if !isFinite (kernels.dot row row) then .error (.invalidVector "squared norm overflows f32")
  else if metric = .angular ∧ row.all isZero then .error (.invalidVector "zero angular vector")
  else .ok ()

theorem length_of_validateVector (valid : validateVector kernels row dim metric = .ok ()) : row.length = dim := by
  unfold validateVector at valid
  split at valid
  · contradiction
  · rename_i same
    exact not_not.mp same

inductive Operation where
  | insert (id : UInt32) (row : Row)
  | delete (id : UInt32)
  | replace (id : UInt32) (row : Row)
  deriving DecidableEq, Repr

namespace Operation

def id : Operation → UInt32
  | .insert id _ => id
  | .delete id => id
  | .replace id _ => id

def tag : Operation → UInt8
  | .insert _ _ => 1
  | .delete _ => 2
  | .replace _ _ => 3

def vector : Operation → Option Row
  | .insert _ row => some row
  | .delete _ => none
  | .replace _ row => some row

/-- The bytes an operation takes of a batch: `5 + vector.map_or(0, |v| v.len() * 4)`. -/
def size (op : Operation) : Nat := 5 + match op.vector with
  | some row => row.length * 4
  | none => 0

end Operation

/-- The operations between two commits. -/
abbrev Batch := List Operation

structure Encoding where
  bits : UInt8
  residualBits : UInt8
  align : Bool
  reorder : Bool
  idBytes : UInt8
  screen : Bool
  blockBits : UInt8
  deriving DecidableEq, Repr

structure Manifest where
  identity : { bytes : Bytes // bytes.length = 16 }
  dim : Nat
  sequence : Nat
  metric : Metric
  degree : UInt64
  buildEf : UInt64
  /-- The bits of the pruning parameter. -/
  alpha : UInt32
  seed : UInt64
  quantizedSearch : Bool
  encoding : Encoding
  deriving DecidableEq

def order : Nat := 0x0102030405060708
def manifestMagic : Bytes := [72, 77, 83, 86, 85, 80, 48, 49]
def logMagic : Bytes := [72, 77, 83, 86, 76, 71, 48, 49]
def logHeaderSize : Nat := 60
def frameHeaderSize : Nat := 24

theorem frameHeaderSize_eq : frameHeaderSize = 24 := rfl

def floats (row : Row) : Bytes := row.flatMap fun v => ofWord v.toNat

variable (kernels : Kernels)

/-- The bytes followed by their checksum. -/
def sealed (out : Bytes) : Bytes := out ++ ofWord (kernels.crc32 out).toNat

def knownMagic (bytes magic : Bytes) : Except UpdateError Unit :=
  if bytes.length < 8 then .error (.corruptBase "short header")
  else if slice bytes 0 8 ≠ magic then
    .error (.unsupportedFormat "unknown magic or version newer than supported")
  else .ok ()

def check (bytes magic : Bytes) : Except UpdateError Unit := do
  knownMagic bytes magic
  if bytes.length < 20 then throw (.corruptBase "short header")
  if word64 bytes 8 ≠ order then throw (.unsupportedFormat "byte order mismatch")
  if (kernels.crc32 (bytes.take (bytes.length - 4))).toNat ≠ word bytes (bytes.length - 4) then
    throw (.corruptBase "header checksum mismatch")

theorem knownMagic_ok (magic rest : Bytes) (eight : magic.length = 8) : knownMagic (magic ++ rest) magic = .ok () := by
  have prefixed : slice (magic ++ rest) 0 8 = magic := by rw [← eight, slice_whole]
  have long : ¬ (magic ++ rest).length < 8 := by rw [length_append]; omega
  rw [knownMagic, if_neg long, if_neg (not_not.mpr prefixed)]

theorem check_sealed (magic rest : Bytes) (eight : magic.length = 8) :
    check kernels (sealed kernels (magic ++ (ofWord64 order ++ rest))) magic = .ok () := by
  let body := magic ++ (ofWord64 order ++ rest)
  have size : (sealed kernels body).length = body.length + 4 := by simp [sealed]
  have short : ¬ (sealed kernels body).length < 20 := by
    simp only [size, body, length_append, ofWord64_length, eight]
    omega
  have ordered : word64 (sealed kernels body) 8 = order := by
    have at_order := word64_parts [magic] [rest, ofWord (kernels.crc32 body).toNat] order (by simpa using eight)
    rw [Nat.mod_eq_of_lt (by decide)] at at_order
    simpa [sealed, body] using at_order
  have checksum : (kernels.crc32 ((sealed kernels body).take ((sealed kernels body).length - 4))).toNat =
      word (sealed kernels body) ((sealed kernels body).length - 4) := by
    have whole : (sealed kernels body).length - 4 = body.length := by omega
    have at_crc := word_append_right body (ofWord (kernels.crc32 body).toNat) 0
    rw [word_ofWord, Nat.mod_eq_of_lt (UInt32.toNat_lt _), Nat.add_zero] at at_crc
    rw [whole, sealed, take_left, at_crc]
  have magical : knownMagic (sealed kernels body) magic = .ok () := by
    rw [sealed, append_assoc]
    exact knownMagic_ok magic _ eight
  show check kernels (sealed kernels body) magic = _
  simp [check, magical, short, ordered, checksum, bind, Except.bind, pure, Except.pure]

/-- Both orders of the words of a header: written, and read back by eights. -/
def words : List Nat → Bytes
  | [] => []
  | n :: rest => ofWord64 n ++ words rest

def readWords (bytes : Bytes) : Nat → List Nat
  | 0 => []
  | count + 1 => word64 bytes 0 :: readWords (bytes.drop 8) count

theorem words_length (ns : List Nat) : (words ns).length = 8 * ns.length := by
  induction ns with
  | nil => rfl
  | cons n ns ih =>
    rw [words, length_append, ih, ofWord64_length, length_cons]
    omega

theorem readWords_words (ns : List Nat) (rest : Bytes) (small : ∀ n ∈ ns, n < 2 ^ 64) :
    readWords (words ns ++ rest) ns.length = ns := by
  induction ns with
  | nil => rfl
  | cons n ns ih =>
    rw [words, append_assoc, length_cons, readWords, word64_ofWord64_append,
      Nat.mod_eq_of_lt (small n mem_cons_self)]
    exact congrArg (n :: ·) (ih (forall_mem_cons.mp small).2)

namespace Manifest

def words (m : Manifest) : List Nat :=
  [m.dim, m.metric.code, m.sequence, m.degree.toNat, m.buildEf.toNat, m.alpha.toNat, m.seed.toNat,
    m.quantizedSearch.toNat, m.encoding.bits.toNat, m.encoding.residualBits.toNat,
    m.encoding.align.toNat, m.encoding.reorder.toNat, m.encoding.idBytes.toNat,
    m.encoding.screen.toNat, m.encoding.blockBits.toNat, 0]

def encode (m : Manifest) : Bytes :=
  sealed kernels (manifestMagic ++ (ofWord64 order ++ (m.identity.val ++ Vector.words m.words)))

/-- `!alpha.is_finite() || alpha < 1.0`, on the bits. -/
def alphaRejected (alpha : Nat) : Bool :=
  !isFinite (UInt32.ofNat alpha) || decide (2 ^ 31 ≤ alpha) || decide (alpha < 0x3F800000)

/-- The fields a header's words give, when each is in range. -/
def ofWords (identity : { bytes : Bytes // bytes.length = 16 }) : List Nat → Except UpdateError Manifest
  | [dim, metric, sequence, degree, buildEf, alpha, seed, quantized, bits, residual, align, reorder,
      idBytes, screen, blockBits, last] =>
    if dim = 0 ∨ dim > maxDim ∨ metric > 1 ∨ degree = 0 ∨ degree > 65536 ∨ degree % 2 ≠ 0 ∨ buildEf = 0 ∨
        buildEf > 1048576 ∨ alpha > 4294967295 ∨ quantized > 1 ∨ bits ∉ [4, 8] ∨ residual ∉ [0, 4, 8] ∨
        align > 1 ∨ reorder > 1 ∨ idBytes ∉ [0, 3, 4] ∨ screen > 1 ∨ blockBits ∉ [0, 1, 2, 4] ∨ last ≠ 0 then
      .error (.corruptBase "manifest parameter range")
    else if alphaRejected alpha ∨ (metric = 1 ∧ (screen ≠ 0 ∨ blockBits ≠ 0)) then
      .error (.corruptBase "manifest metric or alpha")
    else
      .ok {
        identity, dim, sequence
        metric := if metric = 0 then .angular else .euclidean
        degree := .ofNat degree
        buildEf := .ofNat buildEf
        alpha := .ofNat alpha
        seed := .ofNat seed
        quantizedSearch := quantized != 0
        encoding := {
          bits := .ofNat bits
          residualBits := .ofNat residual
          align := align != 0
          reorder := reorder != 0
          idBytes := .ofNat idBytes
          screen := screen != 0
          blockBits := .ofNat blockBits } }
  | _ => .error (.corruptBase "manifest length")

def decode (bytes : Bytes) : Except UpdateError Manifest := do
  knownMagic bytes manifestMagic
  if size : bytes.length = 164 then
    check kernels bytes manifestMagic
    ofWords ⟨slice bytes 16 16, slice_length bytes 16 16 (by omega)⟩ (readWords (bytes.drop 32) 16)
  else throw (.corruptBase "manifest length")

/-- `Manifest::read`, whose check of the length precedes `decode`. -/
def read (bytes : Bytes) : Except UpdateError Manifest := do
  if bytes.length < 8 then throw (.corruptBase "manifest length")
  knownMagic (bytes.take 8) manifestMagic
  if bytes.length ≠ 164 then throw (.corruptBase "manifest length")
  decode kernels bytes

/-- The values of a manifest that `decode` takes back. -/
structure Valid (m : Manifest) : Prop where
  small : m.sequence < 2 ^ 64
  accepted : ofWords m.identity m.words = .ok m

theorem words_small (m : Manifest) (dim : m.dim ≤ maxDim) (sequence : m.sequence < 2 ^ 64) :
    ∀ n ∈ m.words, n < 2 ^ 64 := by
  have flag (b : Bool) : b.toNat < 2 ^ 64 := by cases b <;> decide
  have code : m.metric.code < 2 ^ 64 := by cases m.metric <;> decide
  have byte (b : UInt8) : b.toNat < 2 ^ 64 := Nat.lt_trans b.toNat_lt (by decide)
  have alpha : m.alpha.toNat < 2 ^ 64 := Nat.lt_trans m.alpha.toNat_lt (by decide)
  have bounded : m.dim < 2 ^ 64 := Nat.lt_of_le_of_lt dim (by decide)
  simp only [words, forall_mem_cons, not_mem_nil, IsEmpty.forall_iff, implies_true, and_true]
  exact ⟨bounded, code, sequence, m.degree.toNat_lt, m.buildEf.toNat_lt, alpha, m.seed.toNat_lt, flag _,
    byte _, byte _, flag _, flag _, byte _, flag _, byte _, by decide⟩

theorem encode_length (m : Manifest) : (m.encode kernels).length = 164 := by
  simp [encode, sealed, manifestMagic, m.identity.2, words_length, words]

theorem decode_encode (m : Manifest) (dim : m.dim ≤ maxDim) (sequence : m.sequence < 2 ^ 64) :
    decode kernels (m.encode kernels) = ofWords m.identity m.words := by
  have size := encode_length kernels m
  have checked : check kernels (m.encode kernels) manifestMagic = .ok () :=
    check_sealed kernels manifestMagic _ rfl
  have magical : knownMagic (m.encode kernels) manifestMagic = .ok () := by
    rw [encode, sealed, append_assoc]
    exact knownMagic_ok manifestMagic _ rfl
  let crc := ofWord (kernels.crc32
    (manifestMagic ++ (ofWord64 order ++ (m.identity.val ++ Vector.words m.words)))).toNat
  have parts : m.encode kernels = ([manifestMagic, ofWord64 order] ++ [m.identity.val, Vector.words m.words, crc]).flatten := by
    simp [encode, sealed, crc]
  have identity : slice (m.encode kernels) 16 16 = m.identity.val := by
    rw [parts]
    exact slice_parts _ _ _ rfl m.identity.2
  have behind : readWords ((m.encode kernels).drop 32) 16 = m.words := by
    have dropped := drop_parts [manifestMagic, ofWord64 order, m.identity.val] [Vector.words m.words, crc]
      (i := 32) (by simp [manifestMagic, m.identity.2])
    have tail : (m.encode kernels).drop 32 = Vector.words m.words ++ crc := by
      rw [parts]
      simpa using dropped
    rw [tail]
    exact readWords_words m.words crc (m.words_small dim sequence)
  simp only [decode, magical, checked, size, identity, behind, bind, Except.bind, ↓reduceDIte]

theorem ofWords_words (taken : ofWords m.identity m.words = .ok other) : other = m := by
  have flag (b : Bool) : (b.toNat != 0) = b := by cases b <;> rfl
  have metric : (if m.metric.code = 0 then Metric.angular else .euclidean) = m.metric := by
    cases m.metric <;> rfl
  simp only [ofWords, words] at taken
  split at taken
  · contradiction
  split at taken
  · contradiction
  simp only [flag, metric, UInt64.ofNat_toNat, UInt32.ofNat_toNat, UInt8.ofNat_toNat, Except.ok.injEq] at taken
  exact taken.symm

theorem Valid.advance {m : Manifest} {sequence : Nat} (valid : m.Valid) (small : sequence < 2 ^ 64)
    (known : idBytes.toNat ∈ [0, 3, 4]) : Valid { m with sequence, encoding := { m.encoding with idBytes } } := by
  refine ⟨small, ?_⟩
  have accepted := valid.accepted
  have taken : ∃ other, ofWords m.identity
      { m with sequence, encoding := { m.encoding with idBytes } }.words = .ok other := by
    simp only [ofWords, words] at accepted ⊢
    split at accepted
    · contradiction
    rename_i range
    split at accepted
    · contradiction
    rename_i shape
    rw [if_neg shape, if_neg (by grind)]
    exact ⟨_, rfl⟩
  obtain ⟨other, taken⟩ := taken
  exact taken.trans (congrArg _ (ofWords_words taken))

theorem Valid.idBytes_known {m : Manifest} (valid : m.Valid) : m.encoding.idBytes.toNat ∈ [0, 3, 4] := by
  have accepted := valid.accepted
  simp only [ofWords, words] at accepted
  split at accepted
  · contradiction
  rename_i range
  by_contra unknown
  exact range (by simp [unknown])

theorem Valid.dim_le {m : Manifest} (valid : m.Valid) : 0 < m.dim ∧ m.dim ≤ maxDim := by
  have accepted := valid.accepted
  simp only [ofWords, words] at accepted
  split at accepted
  · contradiction
  rename_i range
  simp only [not_or, Nat.not_lt] at range
  exact ⟨Nat.pos_of_ne_zero range.1, range.2.1⟩

theorem Valid.read_encode {m : Manifest} (valid : m.Valid) : read kernels (m.encode kernels) = .ok m := by
  have size := encode_length kernels m
  have magical : knownMagic ((m.encode kernels).take 8) manifestMagic = .ok () := by
    have prefixed : (m.encode kernels).take 8 = manifestMagic := by
      rw [encode, sealed, append_assoc]
      rfl
    rw [prefixed]
    rfl
  simp [read, size, magical, decode_encode kernels m valid.dim_le.2 valid.small, valid.accepted,
    bind, Except.bind]

end Manifest

def logHeader (m : Manifest) : Bytes :=
  sealed kernels (logMagic ++ (ofWord64 order ++ (m.identity.val ++ words [m.dim, m.metric.code, m.sequence])))

namespace Operation

/-- One operation of a frame's payload. -/
def encode (op : Operation) : Bytes :=
  op.tag :: (ofWord op.id.toNat ++ match op.vector with
    | some row => floats row
    | none => [])

end Operation

def payload (ops : Batch) : Bytes := ops.flatMap Operation.encode

/-- The length `frame` computes: vectors count with the index's dimension. -/
def payloadSize (dim : Nat) (ops : Batch) : Nat :=
  (ops.map fun op => 5 + if op.vector.isSome then dim * 4 else 0).sum

/-- The first twenty bytes of a frame, which its checksum covers with the payload. -/
def frameHead (ops : Batch) (sequence len : Nat) : Bytes :=
  ofWord len ++ (ofWord (2 ^ 32 - 1 - len) ++ (ofWord64 sequence ++ ofWord ops.length))

def frameBytes (ops : Batch) (sequence len : Nat) : Bytes :=
  frameHead ops sequence len ++
    (ofWord (kernels.crc32 (frameHead ops sequence len ++ payload ops)).toNat ++ payload ops)

def frame (ops : Batch) (sequence dim : Nat) : Except UpdateError Bytes :=
  let len := payloadSize dim ops
  if len > maxPayload ∨ ops.length > maxOps then .error .capacity
  else .ok (frameBytes kernels ops sequence len)

def corrupt (offset : Nat) (reason : String) : Except UpdateError α := .error (.corruptLog offset reason)

def readFloats (bytes : Bytes) : Nat → Row
  | 0 => []
  | count + 1 => UInt32.ofNat (word bytes 0) :: readFloats (bytes.drop 4) count

/-- The operations of a payload, with what is left of it; `ids` are those seen before. -/
def parseOps (dim : Nat) (metric : Metric) (offset : Nat) :
    Nat → Bytes → List UInt32 → Except UpdateError (Batch × Bytes)
  | 0, rest, _ => .ok ([], rest)
  | count + 1, rest, ids =>
    if rest.length < 5 then corrupt offset "short operation"
    else
      let tag := octet rest 0
      let id := UInt32.ofNat (word rest 1)
      let body := rest.drop 5
      if id = reserved ∨ id ∈ ids then corrupt offset "invalid or duplicate id"
      else if tag = 1 ∨ tag = 3 then
        if body.length < dim * 4 then corrupt offset "short vector"
        else
          let row := readFloats body dim
          match validateVector kernels row dim metric with
          | .error e => corrupt offset e.message
          | .ok () =>
            match parseOps dim metric offset count (body.drop (dim * 4)) (id :: ids) with
            | .error e => .error e
            | .ok (ops, tail) => .ok ((if tag = 1 then .insert id row else .replace id row) :: ops, tail)
      else if tag = 2 then
        match parseOps dim metric offset count body (id :: ids) with
        | .error e => .error e
        | .ok (ops, tail) => .ok (.delete id :: ops, tail)
      else corrupt offset "unknown operation"

variable {σ : Type} (apply : σ → Batch → Except UpdateError σ)

/-- The frames of the log from `offset` on, of which `rest` is left to read: the state after
them, the last sequence and the end of the last whole frame. -/
def replayFrames (m : Manifest) (rest : Bytes) (offset sequence : Nat) (s : σ) :
    Except UpdateError (σ × Nat × Nat) :=
  if rest.length < frameHeaderSize then .ok (s, max sequence m.sequence, offset)
  else
    let len := word rest 0
    let count := word rest 16
    if word rest 4 ≠ 2 ^ 32 - 1 - len ∨ len > maxPayload ∨ count = 0 ∨ count > maxOps ∨ count > len / 5 then
      corrupt offset "invalid frame length or count"
    else if rest.length - frameHeaderSize < len then .ok (s, max sequence m.sequence, offset)
    else
      let body := slice rest frameHeaderSize len
      if (kernels.crc32 (slice rest 0 20 ++ body)).toNat ≠ word rest 20 then
        corrupt offset "frame checksum mismatch"
      else
        let next := word64 rest 8
        if sequence + 1 ≠ next then corrupt offset "nonconsecutive sequence"
        else
          match parseOps kernels m.dim m.metric offset count body [] with
          | .error e => .error e
          | .ok (ops, tail) =>
            if tail ≠ [] then corrupt offset "trailing frame data"
            else
              match if next > m.sequence then apply s ops else .ok s with
              | .error e => corrupt offset e.message
              | .ok s =>
                replayFrames m (rest.drop (frameHeaderSize + len)) (offset + (frameHeaderSize + len)) next s
termination_by rest.length
decreasing_by
  have := frameHeaderSize_eq
  rw [length_drop]
  omega

def replay (m : Manifest) (log : Bytes) (s : σ) : Except UpdateError (σ × Nat × Nat) :=
  if log.length < 8 then corrupt 0 "short log header"
  else
    match knownMagic (log.take 8) logMagic with
    | .error e => .error e
    | .ok () =>
      if log.length < logHeaderSize then corrupt 0 "short log header"
      else
        let header := log.take logHeaderSize
        match check kernels header logMagic with
        | .error (.unsupportedFormat reason) => .error (.unsupportedFormat reason)
        | .error e => corrupt 0 e.message
        | .ok () =>
          if slice header 16 16 ≠ m.identity.val ∨ word64 header 32 ≠ m.dim ∨ word64 header 40 ≠ m.metric.code then
            corrupt 0 "log identity or shape mismatch"
          else if word64 header 48 > m.sequence then corrupt 0 "log origin exceeds base checkpoint"
          else
            replayFrames kernels apply m (log.drop logHeaderSize) logHeaderSize (word64 header 48) s

section Frames

/-- An operation as `stage` lets it through, wherever its id is. -/
structure Operation.Sound (dim : Nat) (metric : Metric) (op : Operation) : Prop where
  id : op.id ≠ reserved
  vector : ∀ row, op.vector = some row → validateVector kernels row dim metric = .ok ()

/-- A batch that a frame can hold. -/
structure Batch.Sound (dim : Nat) (metric : Metric) (ops : Batch) : Prop where
  nonempty : ops ≠ []
  count : ops.length ≤ maxOps
  size : payloadSize dim ops ≤ maxPayload
  distinct : (ops.map Operation.id).Nodup
  each : ∀ op ∈ ops, op.Sound kernels dim metric

theorem floats_length (row : Row) : (floats row).length = row.length * 4 := by
  induction row with
  | nil => rfl
  | cons v row ih =>
    have step : floats (v :: row) = ofWord v.toNat ++ floats row := rfl
    rw [step, length_append, ih, ofWord_length, length_cons]
    omega

theorem readFloats_floats (row : Row) (rest : Bytes) : readFloats (floats row ++ rest) row.length = row := by
  induction row with
  | nil => rfl
  | cons v row ih =>
    have step : floats (v :: row) ++ rest = ofWord v.toNat ++ (floats row ++ rest) := by simp [floats]
    rw [step, length_cons, readFloats, word_ofWord_append, Nat.mod_eq_of_lt v.toNat_lt, UInt32.ofNat_toNat]
    exact congrArg (v :: ·) ih

variable {kernels} {dim : Nat} {metric : Metric}

theorem Operation.Sound.encode_length {op : Operation} (sound : op.Sound kernels dim metric) :
    op.encode.length = 5 + if op.vector.isSome then dim * 4 else 0 := by
  rw [Operation.encode, length_cons, length_append, ofWord_length]
  cases found : op.vector with
  | none => simp
  | some row =>
    simp only [floats_length, length_of_validateVector (sound.vector row found), Option.isSome_some, ↓reduceIte]
    omega

theorem payload_cons (op : Operation) (ops : Batch) : payload (op :: ops) = op.encode ++ payload ops := rfl

theorem payload_length {ops : Batch} (each : ∀ op ∈ ops, op.Sound kernels dim metric) :
    (payload ops).length = payloadSize dim ops := by
  induction ops with
  | nil => rfl
  | cons op ops ih =>
    rw [payload_cons, length_append, (each op mem_cons_self).encode_length,
      ih (forall_mem_cons.mp each).2]
    rfl

theorem payloadSize_ge (ops : Batch) : ops.length * 5 ≤ payloadSize dim ops := by
  induction ops with
  | nil => exact Nat.zero_le _
  | cons op ops ih =>
    rw [payloadSize, map_cons, sum_cons, length_cons]
    rw [payloadSize] at ih
    omega

theorem record_fields (op : Operation) (rest : Bytes) :
    ¬ (op.encode ++ rest).length < 5 ∧ octet (op.encode ++ rest) 0 = op.tag ∧
      UInt32.ofNat (word (op.encode ++ rest) 1) = op.id ∧
      (op.encode ++ rest).drop 5 = (match op.vector with | some row => floats row | none => []) ++ rest := by
  have parts : op.encode ++ rest = ([[op.tag]] ++ ofWord op.id.toNat ::
      [match op.vector with | some row => floats row | none => [], rest]).flatten := by
    simp [Operation.encode]
  refine ⟨?_, rfl, ?_, rfl⟩
  · simp [Operation.encode]
  · rw [parts, word_parts [[op.tag]] _ _ (i := 1) rfl, Nat.mod_eq_of_lt op.id.toNat_lt, UInt32.ofNat_toNat]

theorem parseOps_payload (offset : Nat) (rest : Bytes) (ids : List UInt32)
    (each : ∀ op ∈ ops, op.Sound kernels dim metric) (distinct : (ops.map Operation.id).Nodup)
    (fresh : ∀ op ∈ ops, op.id ∉ ids) :
    parseOps kernels dim metric offset ops.length (payload ops ++ rest) ids = .ok (ops, rest) := by
  induction ops generalizing ids with
  | nil => rfl
  | cons op ops ih =>
    rw [map_cons, nodup_cons] at distinct
    have sound := each op mem_cons_self
    have own : ¬ (op.id = reserved ∨ op.id ∈ ids) := not_or.mpr ⟨sound.id, fresh op mem_cons_self⟩
    have later := ih (op.id :: ids) (forall_mem_cons.mp each).2 distinct.2
      (fun other member seen => by
        rcases mem_cons.mp seen with same | before
        · exact distinct.1 (mem_map.mpr ⟨other, member, same⟩)
        · exact fresh other (mem_cons_of_mem op member) before)
    have split : payload (op :: ops) ++ rest = op.encode ++ (payload ops ++ rest) := by
      rw [payload_cons, append_assoc]
    obtain ⟨long, tag, id, body⟩ := record_fields op (payload ops ++ rest)
    -- The vector of an insertion or a replacement is read back whole.
    have vector (row : Row) (found : op.vector = some row) :
        readFloats (floats row ++ (payload ops ++ rest)) dim = row ∧
          (floats row ++ (payload ops ++ rest)).drop (dim * 4) = payload ops ++ rest ∧
          ¬ (floats row ++ (payload ops ++ rest)).length < dim * 4 := by
      have same := length_of_validateVector (sound.vector row found)
      refine ⟨by rw [← same, readFloats_floats], ?_, ?_⟩
      · rw [← same, ← floats_length, drop_left]
      · rw [length_append, floats_length, same]
        omega
    rw [length_cons, split, parseOps, if_neg long]
    simp only [tag, id, body, own, ↓reduceIte]
    cases op with
    | delete id => simp [Operation.tag, Operation.vector, later, Operation.id] at *
    | insert id row | replace id row =>
      obtain ⟨read, dropped, room⟩ := vector row rfl
      have valid := sound.vector row rfl
      simp only [Operation.tag, Operation.vector, read, dropped, room, valid, later, true_or, or_true, ↓reduceIte]
      rfl

variable (kernels)

theorem frameHead_length (ops : Batch) (sequence len : Nat) : (frameHead ops sequence len).length = 20 := rfl

theorem frameBytes_length (ops : Batch) (sequence len : Nat) :
    (frameBytes kernels ops sequence len).length = frameHeaderSize + (payload ops).length := by
  rw [frameBytes, length_append, length_append, frameHead_length, ofWord_length, ← Nat.add_assoc]
  rfl

/-- The words of a frame's header, in front of anything. -/
structure FrameFields (ops : Batch) (sequence len : Nat) (data : Bytes) : Prop where
  length : word data 0 = len
  complement : word data 4 = 2 ^ 32 - 1 - len
  number : word64 data 8 = sequence
  count : word data 16 = ops.length
  crc : word data 20 = (kernels.crc32 (frameHead ops sequence len ++ payload ops)).toNat

variable {sequence : Nat}

theorem frame_fields (sound : ops.Sound kernels dim metric) (next : sequence < 2 ^ 64) (rest : Bytes) :
    FrameFields kernels ops sequence (payloadSize dim ops) (frameBytes kernels ops sequence (payloadSize dim ops) ++ rest) := by
  let len := payloadSize dim ops
  have small : len < 2 ^ 32 := Nat.lt_of_le_of_lt sound.size (by decide)
  have count : ops.length < 2 ^ 32 := Nat.lt_of_le_of_lt sound.count (by decide)
  let crc := (kernels.crc32 (frameHead ops sequence len ++ payload ops)).toNat
  have parts : frameBytes kernels ops sequence len ++ rest =
      [ofWord len, ofWord (2 ^ 32 - 1 - len), ofWord64 sequence, ofWord ops.length, ofWord crc, payload ops,
        rest].flatten := by
    simp [frameBytes, frameHead, crc]
  rw [parts]
  exact {
    length := (word_parts [] _ len rfl).trans (Nat.mod_eq_of_lt small)
    complement := (word_parts [ofWord len] _ _ rfl).trans (Nat.mod_eq_of_lt (by omega))
    number := (word64_parts [ofWord len, ofWord (2 ^ 32 - 1 - len)] _ _ rfl).trans (Nat.mod_eq_of_lt next)
    count := (word_parts [ofWord len, ofWord (2 ^ 32 - 1 - len), ofWord64 sequence] _ _ rfl).trans
      (Nat.mod_eq_of_lt count)
    crc := (word_parts [ofWord len, ofWord (2 ^ 32 - 1 - len), ofWord64 sequence, ofWord ops.length] _ _ rfl).trans
      (Nat.mod_eq_of_lt (UInt32.toNat_lt _)) }

theorem FrameFields.sized (fields : FrameFields kernels ops sequence (payloadSize dim ops) data)
    (sound : ops.Sound kernels dim metric) :
    ¬ (word data 4 ≠ 2 ^ 32 - 1 - word data 0 ∨ word data 0 > maxPayload ∨ word data 16 = 0 ∨
      word data 16 > maxOps ∨ word data 16 > word data 0 / 5) := by
  have few : ops.length * 5 ≤ payloadSize dim ops := payloadSize_ge ops
  have some := length_pos_of_ne_nil sound.nonempty
  have size := sound.size
  have count := sound.count
  rw [fields.length, fields.complement, fields.count]
  omega

variable (m : Manifest)

theorem replayFrames_frame (sound : ops.Sound kernels m.dim m.metric) (rest : Bytes) (offset : Nat)
    (next : sequence + 1 < 2 ^ 64) (s : σ)
    (applied : (if sequence + 1 > m.sequence then apply s ops else .ok s) = .ok s') :
    replayFrames kernels apply m (frameBytes kernels ops (sequence + 1) (payloadSize m.dim ops) ++ rest)
        offset sequence s =
      replayFrames kernels apply m rest (offset + (frameHeaderSize + payloadSize m.dim ops)) (sequence + 1) s' := by
  let len := payloadSize m.dim ops
  have header := frameHeaderSize_eq
  have size : (payload ops).length = len := payload_length sound.each
  let data := frameBytes kernels ops (sequence + 1) len ++ rest
  have fields : FrameFields kernels ops (sequence + 1) len data := frame_fields kernels sound next rest
  have long : data.length = frameHeaderSize + len + rest.length := by
    rw [length_append, frameBytes_length, size]
  have parts : data = ([frameHead ops (sequence + 1) len,
      ofWord (kernels.crc32 (frameHead ops (sequence + 1) len ++ payload ops)).toNat] ++
        [payload ops, rest]).flatten := by
    simp [data, frameBytes]
  have body : slice data frameHeaderSize len = payload ops := by
    rw [parts]
    exact slice_parts _ _ _ rfl size
  have head : slice data 0 20 = frameHead ops (sequence + 1) len := by
    rw [parts]
    exact slice_parts [] _ _ rfl rfl
  have behind : data.drop (frameHeaderSize + len) = rest := by
    rw [← size, ← frameBytes_length kernels ops (sequence + 1) len, drop_left]
  have parsed := parseOps_payload offset [] [] sound.each sound.distinct
    fun _ _ => not_mem_nil
  rw [append_nil] at parsed
  have sized := fields.sized kernels sound
  show replayFrames kernels apply m data offset sequence s = _
  rw [replayFrames, if_neg (by omega)]
  simp only
  rw [if_neg sized, fields.length, if_neg (by omega), body, head, fields.crc, if_neg (not_not.mpr rfl),
    fields.number, if_neg (not_not.mpr rfl), fields.count, parsed]
  simp only [ne_eq, not_true, ↓reduceIte, applied, behind]
  rfl

theorem replayFrames_torn (sound : ops.Sound kernels m.dim m.metric) (next : sequence < 2 ^ 64) (torn missing : Bytes)
    (cut : frameBytes kernels ops sequence (payloadSize m.dim ops) = torn ++ missing) (lost : missing ≠ [])
    (offset last : Nat) (s : σ) :
    replayFrames kernels apply m torn offset last s = .ok (s, max last m.sequence, offset) := by
  let len := payloadSize m.dim ops
  have header := frameHeaderSize_eq
  have size : (payload ops).length = len := payload_length sound.each
  rw [replayFrames]
  by_cases short : torn.length < frameHeaderSize
  · rw [if_pos short]
  · rw [if_neg short]
    have whole := frame_fields kernels sound next []
    rw [append_nil, cut] at whole
    have fields : FrameFields kernels ops sequence len torn := {
      length := (word_append_left torn missing 0 (by omega)).symm.trans whole.length
      complement := (word_append_left torn missing 4 (by omega)).symm.trans whole.complement
      number := by
        have read := whole.number
        rw [word64, word_append_left torn missing 8 (by omega), word_append_left torn missing 12 (by omega)] at read
        exact read
      count := (word_append_left torn missing 16 (by omega)).symm.trans whole.count
      crc := (word_append_left torn missing 20 (by omega)).symm.trans whole.crc }
    have total := congrArg List.length cut
    rw [frameBytes_length, length_append, size] at total
    have gap := length_pos_of_ne_nil lost
    simp only
    rw [if_neg (fields.sized kernels sound), fields.length, if_pos (by omega)]

/-- The frames of consecutive batches, the first of them after `sequence`. -/
def frames (dim : Nat) : Nat → List Batch → Bytes
  | _, [] => []
  | sequence, ops :: rest =>
    frameBytes kernels ops (sequence + 1) (payloadSize dim ops) ++ frames dim (sequence + 1) rest

/-- Replaying the batches after `sequence` into a base that has those up to `checkpoint`. -/
def loadAll (apply : σ → Batch → Except UpdateError σ) (checkpoint : Nat) :
    Nat → List Batch → σ → Except UpdateError σ
  | _, [], s => .ok s
  | sequence, ops :: rest, s =>
    match if sequence + 1 > checkpoint then apply s ops else .ok s with
    | .error e => .error e
    | .ok s => loadAll apply checkpoint (sequence + 1) rest s

/-- The end of a log: nothing, or the beginning of one more frame. -/
inductive Torn (sequence : Nat) : Bytes → Prop
  | clean : Torn sequence []
  | cut (ops : Batch) (sound : ops.Sound kernels m.dim m.metric) (next : sequence + 1 < 2 ^ 64) (missing : Bytes)
      (whole : frameBytes kernels ops (sequence + 1) (payloadSize m.dim ops) = torn ++ missing)
      (lost : missing ≠ []) : Torn sequence torn

theorem frames_append (dim sequence : Nat) (batches more : List Batch) :
    frames kernels dim sequence (batches ++ more) =
      frames kernels dim sequence batches ++ frames kernels dim (sequence + batches.length) more := by
  induction batches generalizing sequence with
  | nil => rfl
  | cons ops batches ih =>
    have shift : sequence + 1 + batches.length = sequence + (batches.length + 1) := by omega
    rw [cons_append, frames, frames, ih, append_assoc, length_cons, shift]

theorem replayFrames_frames (batches : List Batch) (sound : ∀ ops ∈ batches, ops.Sound kernels m.dim m.metric)
    (torn : Bytes) (offset : Nat) (bounded : sequence + batches.length < 2 ^ 64)
    (tail : Torn kernels m (sequence + batches.length) torn) (s : σ)
    (loaded : loadAll apply m.sequence sequence batches s = .ok s') :
    replayFrames kernels apply m (frames kernels m.dim sequence batches ++ torn) offset sequence s =
      .ok (s', max (sequence + batches.length) m.sequence,
        offset + (frames kernels m.dim sequence batches).length) := by
  induction batches generalizing sequence offset s with
  | nil =>
    cases loaded
    cases tail with
    | clean =>
      have empty : (frames kernels m.dim sequence [] ++ []).length < frameHeaderSize := Nat.succ_pos 23
      rw [replayFrames, if_pos empty]
      rfl
    | cut ops whole_sound next missing whole lost =>
      exact replayFrames_torn kernels apply m whole_sound next torn missing whole lost offset _ _
  | cons ops batches ih =>
    rw [loadAll] at loaded
    split at loaded
    · contradiction
    rename_i middle applied
    rw [length_cons, Nat.add_comm batches.length, ← Nat.add_assoc] at bounded tail ⊢
    have own := sound ops mem_cons_self
    rw [frames, append_assoc, replayFrames_frame kernels apply m own _ _ (by omega) s applied,
      ih (forall_mem_cons.mp sound).2 _ bounded tail middle loaded,
      length_append, frameBytes_length, payload_length own.each, Nat.add_assoc, Nat.add_assoc]

theorem logHeader_length : (logHeader kernels m).length = logHeaderSize := by
  simp [logHeader, sealed, logMagic, m.identity.2, words_length, logHeaderSize]

/-- A log of whole frames, perhaps with part of one more, replays into a base of its index that
is not older than the log. -/
theorem replay_log (origin : Nat) (older : origin ≤ m.sequence) (valid : m.Valid) (batches : List Batch)
    (sound : ∀ ops ∈ batches, ops.Sound kernels m.dim m.metric) (torn : Bytes)
    (bounded : origin + batches.length < 2 ^ 64) (tail : Torn kernels m (origin + batches.length) torn) (s : σ)
    (loaded : loadAll apply m.sequence origin batches s = .ok s') :
    replay kernels apply m
        (logHeader kernels { m with sequence := origin } ++ (frames kernels m.dim origin batches ++ torn)) s =
      .ok (s', max (origin + batches.length) m.sequence,
        logHeaderSize + (frames kernels m.dim origin batches).length) := by
  let started : Manifest := { m with sequence := origin }
  let header := logHeader kernels started
  let log := header ++ (frames kernels m.dim origin batches ++ torn)
  have size : header.length = logHeaderSize := logHeader_length kernels started
  have sixty : logHeaderSize = 60 := rfl
  have long : ¬ log.length < 60 := by
    rw [length_append, size]
    omega
  have front : log.take logHeaderSize = header := by rw [← size, take_left]
  have behind : log.drop logHeaderSize = frames kernels m.dim origin batches ++ torn := by
    rw [← size, drop_left]
  have magical : knownMagic (log.take 8) logMagic = .ok () := rfl
  have checked : check kernels header logMagic = .ok () := check_sealed kernels logMagic _ rfl
  let crc := ofWord (kernels.crc32
    (logMagic ++ (ofWord64 order ++ (m.identity.val ++ words [m.dim, m.metric.code, origin])))).toNat
  have parts : header = [logMagic, ofWord64 order, m.identity.val, ofWord64 m.dim, ofWord64 m.metric.code,
      ofWord64 origin, crc].flatten := by
    simp [header, logHeader, sealed, crc, started, words]
  have identity : slice header 16 16 = m.identity.val := by
    rw [parts]
    exact slice_parts [logMagic, ofWord64 order] _ _ rfl m.identity.2
  have dim_small : m.dim < 2 ^ 64 := Nat.lt_of_le_of_lt valid.dim_le.2 (by decide)
  have code_small : m.metric.code < 2 ^ 64 := by cases m.metric <;> decide
  have dim : word64 header 32 = m.dim := by
    rw [parts]
    exact (word64_parts [logMagic, ofWord64 order, m.identity.val] _ _ (by simp [logMagic, m.identity.2])).trans
      (Nat.mod_eq_of_lt dim_small)
  have metric : word64 header 40 = m.metric.code := by
    rw [parts]
    exact (word64_parts [logMagic, ofWord64 order, m.identity.val, ofWord64 m.dim] _ _
      (by simp [logMagic, m.identity.2])).trans (Nat.mod_eq_of_lt code_small)
  have sequence : word64 header 48 = origin := by
    rw [parts]
    exact (word64_parts [logMagic, ofWord64 order, m.identity.val, ofWord64 m.dim, ofWord64 m.metric.code] _ _
      (by simp [logMagic, m.identity.2])).trans (Nat.mod_eq_of_lt (by omega))
  show replay kernels apply m log s = _
  rw [replay, if_neg (by omega), magical]
  simp only
  rw [if_neg (by omega), front, checked]
  simp only
  rw [identity, dim, metric, sequence, if_neg (by simp), if_neg (by omega), behind]
  exact replayFrames_frames kernels apply m batches sound torn logHeaderSize bounded tail s loaded

end Frames

end Vector

end Warm
