import Warm.BitPacking
import Warm.Checked
import Warm.Document
import Warm.MemoryAlone

/-! The payload hash of a fact: what it is fed tells the parts apart, but the parts are flattened first. Two payloads are
fed alike exactly when they differ only in what flattening loses. -/
namespace Warm.Memory

open Interleaving List
open BitPacking (leBytes leBytes_length number_leBytes)
open Binary (utf8)

section StableHash

def PRIME : UInt64 := 0x00000100000001b3

/-- One byte into both lanes. -/
def feed (lanes : UInt64 × UInt64) (byte : UInt8) : UInt64 × UInt64 :=
  ((lanes.1 ^^^ (byte ^^^ 0).toUInt64) * PRIME, (lanes.2 ^^^ (byte ^^^ 0x5a).toUInt64) * PRIME)

/-- The lanes once every part is fed after its length. -/
def hashLanes (parts : List Bytes) : UInt64 × UInt64 :=
  parts.foldl (fun lanes part => part.foldl feed ((leBytes part.length 8).foldl feed lanes))
    (0xcbf29ce484222325, 0x84222325cbf29ce4)

/-- `{:016x}`. -/
def hex16 (lane : UInt64) : String :=
  String.ofList ((List.range 16).map fun i => Nat.digitChar (lane.toNat / 16 ^ (15 - i) % 16))

def stableHash (parts : List Bytes) : String :=
  hex16 (hashLanes parts).1 ++ hex16 (hashLanes parts).2

/-- The byte string the parts are fed as. -/
def framed (parts : List Bytes) : Bytes :=
  parts.flatMap fun part => leBytes part.length 8 ++ part

theorem framed_injective (small : ∀ part ∈ a, part.length < 2 ^ 64) (small' : ∀ part ∈ b, part.length < 2 ^ 64)
    (same : framed a = framed b) : a = b := by
  have filled (part : Bytes) (rest : Bytes) : leBytes part.length 8 ++ part ++ rest ≠ [] := by
    intro none
    have length := congrArg List.length none
    simp [leBytes_length] at length
  induction a generalizing b with
  | nil =>
    cases b with
    | nil => rfl
    | cons other b => exact absurd same.symm (filled other _)
  | cons part a ih =>
    cases b with
    | nil => exact absurd same (filled part _)
    | cons other b =>
      rw [framed, flatMap_cons, append_assoc, framed, flatMap_cons, append_assoc] at same
      obtain ⟨lengths, rest⟩ := append_inj same (by rw [leBytes_length, leBytes_length])
      have size : part.length = other.length := by
        have numbers := congrArg BitPacking.number lengths
        rw [number_leBytes, number_leBytes, show 256 ^ 8 = 2 ^ 64 by norm_num, Nat.mod_eq_of_lt (small part mem_cons_self),
          Nat.mod_eq_of_lt (small' other mem_cons_self)] at numbers
        exact numbers
      obtain ⟨own, rest⟩ := append_inj rest size
      rw [own, ih (forall_mem_cons.mp small).2
        (forall_mem_cons.mp small').2 rest]

theorem digitChar_injective : ∀ a < 16, ∀ b < 16, Nat.digitChar a = Nat.digitChar b → a = b := by
  decide

theorem hex16_injective : Function.Injective hex16 := by
  intro a b same
  have digits : ∀ i < 16, a.toNat / 16 ^ (15 - i) % 16 = b.toNat / 16 ^ (15 - i) % 16 := by
    intro i bound
    have chars := map_inj_left.mp (String.ofList_injective same) i (mem_range.mpr bound)
    exact digitChar_injective _ (Nat.mod_lt _ (by decide)) _ (Nat.mod_lt _ (by decide)) chars
  have low : ∀ k ≤ 16, a.toNat % 16 ^ k = b.toNat % 16 ^ k := by
    intro k bound
    induction k with
    | zero => simp [Nat.mod_one]
    | succ k ih =>
      have digit := digits (15 - k) (by omega)
      rw [show 15 - (15 - k) = k by omega] at digit
      rw [Nat.mod_pow_succ, Nat.mod_pow_succ, ih (by omega), digit]
  apply UInt64.toNat_inj.mp
  have whole := low 16 le_rfl
  rwa [show 16 ^ 16 = 2 ^ 64 by norm_num, Nat.mod_eq_of_lt a.toNat_lt, Nat.mod_eq_of_lt b.toNat_lt] at whole

theorem hex16_length (lane : UInt64) : (hex16 lane).toList.length = 16 := by
  simp [hex16]

theorem stableHash_inj : stableHash a = stableHash b ↔ hashLanes a = hashLanes b := by
  constructor
  · intro same
    have chars := congrArg String.toList same
    simp only [stableHash, String.toList_append] at chars
    obtain ⟨first, second⟩ := append_inj chars (by rw [hex16_length, hex16_length])
    exact Prod.ext (hex16_injective (String.toList_injective first)) (hex16_injective (String.toList_injective second))
  · intro same
    rw [stableHash, stableHash, same]

end StableHash

section Payload

/-- What a caller says of a fact, as it is stored. -/
structure Payload where
  text : String
  metadata : Table String Json
  eventTime : Option Millis
  validFrom : Option Millis
  validTo : Option Millis
  subject : Option String
  explicit : List String
  entities : List String
  sourceUri : Option String
  embedding : Option (List UInt64)

def Payload.of (input : RememberInput) (checked : Checked) : Payload :=
  ⟨input.text, checked.metadata, input.eventTime, input.validFrom, input.validTo, checked.subject, checked.explicit,
    checked.entities, input.sourceUri, input.embedding⟩

def payload (settings : WriteSettings) (input : RememberInput) : Except MemoryError Payload :=
  (checkInput settings input).map (Payload.of input)

/-- The bits of an embedding, lowest byte first. -/
def embeddingBytes (embedding : List UInt64) : Bytes :=
  embedding.flatMap fun value => (List.range 8).map fun i => (value >>> (8 * i).toUInt64).toUInt8

def Payload.parts (settings : WriteSettings) (payload : Payload) : List Bytes :=
  [utf8 payload.text, settings.metadataBytes payload.metadata, timePart payload.eventTime, timePart payload.validFrom,
    timePart payload.validTo, utf8 (payload.subject.getD ""), joined payload.explicit, joined payload.entities,
    utf8 (payload.sourceUri.getD ""), embeddingBytes (payload.embedding.getD [])]

/-- The stretches of the entities between the characters that join them in the hash. -/
def Payload.pieces (payload : Payload) : List (List Char) :=
  payload.entities.flatMap fun entity => entity.toList.splitOn '\x01'

/-- Payloads that differ at most in how their entities divide into joined stretches, or in an empty source URI or an
empty embedding where the other has none. -/
structure Payload.Alike (a b : Payload) : Prop where
  text : a.text = b.text
  metadata : a.metadata = b.metadata
  eventTime : a.eventTime = b.eventTime
  validFrom : a.validFrom = b.validFrom
  validTo : a.validTo = b.validTo
  subject : a.subject = b.subject
  explicit : a.explicit = b.explicit
  pieces : a.pieces = b.pieces
  sourceUri : a.sourceUri.getD "" = b.sourceUri.getD ""
  embedding : a.embedding.getD [] = b.embedding.getD []

/-- Different payloads that flattening makes alike. -/
def Payload.Conflated (a b : Payload) : Prop :=
  a ≠ b ∧ a.Alike b

/-- What the checks on an input give its payload. -/
structure Payload.Valid (payload : Payload) : Prop where
  subject : payload.subject ≠ some ""
  explicit : ∀ id ∈ payload.explicit, validId id = true
  entities : ∀ entity ∈ payload.entities, entity ≠ ""

theorem check_eq_ok : check condition message = .ok unit ↔ condition = true := by
  unfold check
  cases condition <;> simp

theorem label_ne_empty (passed : label value what = .ok found) : found ≠ "" := by
  unfold label at passed
  obtain ⟨_, checked, rest⟩ := bind_eq_ok.mp passed
  obtain rfl := Except.ok.inj rest
  rw [check_eq_ok, Bool.and_eq_true, Bool.and_eq_true] at checked
  rintro empty
  rw [empty] at checked
  simp at checked

theorem foldlM_keeps {ε α β : Type} (property : β → Prop) {step : β → α → Except ε β}
    (kept : ∀ state item after, property state → step state item = .ok after → property after) {items : List α} {start last : β}
    (initial : property start) (ran : items.foldlM step start = .ok last) : property last := by
  induction items generalizing start with
  | nil =>
    rw [foldlM_nil] at ran
    exact Except.ok.inj ran ▸ initial
  | cons item items ih =>
    rw [foldlM_cons] at ran
    obtain ⟨after, own, rest⟩ := bind_eq_ok.mp ran
    exact ih (kept start item after initial own) rest

theorem mem_pushUnique (member : other ∈ pushUnique values value) : other ∈ values ∨ other = value := by
  unfold pushUnique at member
  split at member
  · exact .inl member
  · simpa using member

variable {settings : WriteSettings} {input : RememberInput}

theorem collectEntities_ne_empty {entities : List String} (collected : collectEntities settings input = .ok entities) :
    ∀ entity ∈ entities, entity ≠ "" := by
  unfold collectEntities at collected
  obtain ⟨named, first, rest⟩ := bind_eq_ok.mp collected
  obtain ⟨_, -, rest⟩ := bind_eq_ok.mp rest
  obtain rfl := Except.ok.inj rest
  have added : ∀ (values : List String) (value : String), (∀ entity ∈ values, entity ≠ "") → value ≠ "" →
      ∀ entity ∈ pushUnique values value, entity ≠ "" := by
    intro values value before filled entity member
    rcases mem_pushUnique member with old | rfl
    · exact before entity old
    · exact filled
  have own : ∀ entity ∈ named, entity ≠ "" := by
    refine foldlM_keeps (fun values => ∀ entity ∈ values, entity ≠ "") (fun state item after before step => ?_)
      (forall_mem_nil _) first
    obtain ⟨value, labelled, step⟩ := bind_eq_ok.mp step
    obtain rfl := Except.ok.inj step
    exact added state value before (label_ne_empty labelled)
  refine List.foldlRecOn (motive := fun values => ∀ entity ∈ values, entity ≠ "") _ _ own ?_
  intro state before item _
  split
  · next value labelled => exact added state value before (label_ne_empty labelled)
  · exact before

theorem collectExplicit_valid {explicit : List String} (collected : collectExplicit input = .ok explicit) :
    ∀ id ∈ explicit, validId id = true := by
  unfold collectExplicit at collected
  obtain ⟨named, first, rest⟩ := bind_eq_ok.mp collected
  obtain ⟨_, -, rest⟩ := bind_eq_ok.mp rest
  obtain rfl := Except.ok.inj rest
  intro id member
  rw [mem_sortIds] at member
  have all : ∀ id ∈ named, validId id = true := by
    refine foldlM_keeps (fun values => ∀ id ∈ values, validId id = true) (fun state item after before step => ?_)
      (forall_mem_nil _) first
    obtain ⟨_, valid, step⟩ := bind_eq_ok.mp step
    obtain rfl := Except.ok.inj step
    intro id member
    rcases mem_pushUnique member with old | rfl
    · exact before id old
    · exact check_eq_ok.mp valid
  exact all id member

theorem checkInput_ok (passed : checkInput settings input = .ok checked) :
    (Payload.of input checked).Valid ∧ checked.hash = settings.stableHash ((Payload.of input checked).parts settings) ∧
      checked.subject = input.subject.map trim ∧ collectExplicit input = .ok checked.explicit ∧
      checked.id = input.id.getD ("mem:" ++ checked.hash) := by
  unfold checkInput at passed
  obtain ⟨_, -, rest⟩ := bind_eq_ok.mp passed
  dsimp only at rest
  split at rest
  on_goal 1 => obtain ⟨_, -, rest⟩ := bind_eq_ok.mp rest
  all_goals
    obtain ⟨metadata, -, rest⟩ := bind_eq_ok.mp rest
    obtain ⟨_, -, rest⟩ := bind_eq_ok.mp rest
    obtain ⟨subject, about, rest⟩ := bind_eq_ok.mp rest
    obtain ⟨entities, named, rest⟩ := bind_eq_ok.mp rest
    obtain ⟨explicit, listed, rest⟩ := bind_eq_ok.mp rest
    obtain ⟨filled, trimmed⟩ : subject ≠ some "" ∧ subject = input.subject.map trim := by
      cases given : input.subject with
      | none =>
        rw [given] at about
        obtain rfl := Except.ok.inj about
        exact ⟨by simp, rfl⟩
      | some text =>
        rw [given] at about
        obtain ⟨value, labelled, done⟩ := bind_eq_ok.mp about
        obtain rfl := Except.ok.inj done
        refine ⟨by simpa using label_ne_empty labelled, ?_⟩
        unfold label at labelled
        obtain ⟨_, -, trimmed⟩ := bind_eq_ok.mp labelled
        obtain rfl := Except.ok.inj trimmed
        rfl
    have valid (hash id : String) : (Payload.of input ⟨metadata, subject, entities, explicit, hash, id⟩).Valid :=
      ⟨filled, collectExplicit_valid listed, collectEntities_ne_empty named⟩
    cases own : input.id with
    | none =>
      simp only [own] at rest
      obtain ⟨_, given, rest⟩ := bind_eq_ok.mp rest
      obtain rfl := Except.ok.inj given
      obtain ⟨_, -, rest⟩ := bind_eq_ok.mp rest
      obtain rfl := Except.ok.inj rest
      exact ⟨valid _ _, rfl, trimmed, listed, rfl⟩
    | some id =>
      simp only [own] at rest
      obtain ⟨_, -, rest⟩ := bind_eq_ok.mp rest
      obtain ⟨_, given, rest⟩ := bind_eq_ok.mp rest
      obtain rfl := Except.ok.inj given
      obtain ⟨_, -, rest⟩ := bind_eq_ok.mp rest
      obtain rfl := Except.ok.inj rest
      exact ⟨valid _ _, rfl, trimmed, listed, rfl⟩

theorem payload_ok (given : payload settings input = .ok found) :
    ∃ checked, checkInput settings input = .ok checked ∧ found = Payload.of input checked := by
  unfold payload at given
  cases passed : checkInput settings input with
  | error error => simp [passed, Except.map] at given
  | ok checked =>
    rw [passed] at given
    exact ⟨checked, rfl, (Except.ok.inj given).symm⟩

theorem payload_valid (given : payload settings input = .ok found) : found.Valid := by
  obtain ⟨checked, passed, rfl⟩ := payload_ok given
  exact (checkInput_ok passed).1

end Payload

section Flattening

theorem timePart_injective : Function.Injective timePart := by
  have digits (n : Nat) : ∀ c ∈ n.repr.toList, c.isDigit = true := by
    intro c member
    rw [Nat.toList_repr] at member
    exact Nat.isDigit_of_mem_toDigits (by decide) (by decide) member
  have filled (n : Nat) : n.repr.toList ≠ [] := by
    rw [Nat.toList_repr]
    exact Nat.toDigits_ne_nil
  have decimal (m n : Nat) (same : m.repr.toList = n.repr.toList) : m = n :=
    decimal_injective (String.toList_injective same)
  have dash (n : Nat) (rest : List Char) : n.repr.toList ≠ '-' :: rest := by
    intro same
    have digit := digits n '-' (same ▸ mem_cons_self)
    simp at digit
  have text (value : Int) : (toString value).toList =
      if 0 ≤ value then value.toNat.repr.toList else '-' :: (-value).toNat.repr.toList := by
    rw [Int.toString_eq_repr, Int.repr_eq_if]
    split
    · rfl
    · rw [String.toList_append]
      rfl
  intro a b same
  cases a with
  | none =>
    cases b with
    | none => rfl
    | some value =>
      have chars := congrArg String.toList (utf8_injective same)
      rw [text, show "-".toList = ['-'] from rfl] at chars
      split at chars
      · exact absurd chars.symm (dash _ _)
      · exact absurd (List.cons.inj chars).2.symm (filled _)
  | some value =>
    cases b with
    | none =>
      have chars := congrArg String.toList (utf8_injective same)
      rw [text, show "-".toList = ['-'] from rfl] at chars
      split at chars
      · exact absurd chars (dash _ _)
      · exact absurd (List.cons.inj chars).2 (filled _)
    | some other =>
      have chars := congrArg String.toList (utf8_injective same)
      rw [text, text] at chars
      congr 1
      split at chars <;> split at chars
      · have same := decimal _ _ chars
        exact show @Eq Int value other by omega
      · exact absurd chars (dash _ _)
      · exact absurd chars.symm (dash _ _)
      · have same := decimal _ _ (List.cons.inj chars).2
        exact show @Eq Int value other by omega

theorem splitOn_intercalate_flatMap (c : Char) (some : texts ≠ []) :
    ([c].intercalate texts).splitOn c = texts.flatMap fun text => text.splitOn c := by
  induction texts with
  | nil => exact absurd rfl some
  | cons text texts ih =>
    by_cases last : texts = []
    · subst last
      simp
    · rw [intercalate_cons_of_ne_nil last, append_assoc, singleton_append, splitOn_append_cons_self,
        ih last, flatMap_cons]

theorem intercalate_ne_nil (c : Char) (some : texts ≠ []) (filled : ∀ text ∈ texts, text ≠ []) :
    [c].intercalate texts ≠ [] := by
  cases texts with
  | nil => exact absurd rfl some
  | cons text texts =>
    intro none
    by_cases last : texts = []
    · subst last
      rw [intercalate_singleton] at none
      exact filled text mem_cons_self none
    · rw [intercalate_cons_of_ne_nil last] at none
      simp at none

theorem joined_inj (filled : ∀ text ∈ a, text ≠ "") (filled' : ∀ text ∈ b, text ≠ "") :
    joined a = joined b ↔
      (a.flatMap fun text => text.toList.splitOn '\x01') = b.flatMap fun text => text.toList.splitOn '\x01' := by
  have chars (texts : List String) : ("\x01".intercalate texts).toList = ['\x01'].intercalate (texts.map String.toList) := by
    rw [String.toList_intercalate]
    rfl
  have cut (texts : List String) (some : texts ≠ []) : ("\x01".intercalate texts).toList.splitOn '\x01' =
      texts.flatMap fun text => text.toList.splitOn '\x01' := by
    rw [chars, splitOn_intercalate_flatMap _ (by simpa using some), flatMap_map]
  have occupied (texts : List String) (some : texts ≠ []) (filled : ∀ text ∈ texts, text ≠ "") :
      ("\x01".intercalate texts).toList ≠ [] := by
    rw [chars]
    exact intercalate_ne_nil _ (by simpa using some) (by simpa using filled)
  rw [joined, joined, utf8_injective.eq_iff, ← String.toList_inj]
  by_cases none : a = [] <;> by_cases none' : b = []
  · simp [none, none']
  · subst none
    refine ⟨fun same => absurd same.symm (occupied b none' filled'), fun same => ?_⟩
    rw [← cut b none'] at same
    exact absurd same.symm (splitOn_ne_nil _ _)
  · subst none'
    refine ⟨fun same => absurd same (occupied a none filled), fun same => ?_⟩
    rw [← cut a none] at same
    exact absurd same (splitOn_ne_nil _ _)
  · rw [← cut a none, ← cut b none']
    refine ⟨fun same => by rw [same], fun same => ?_⟩
    have whole := congrArg ['\x01'].intercalate same
    rwa [intercalate_splitOn, intercalate_splitOn] at whole

theorem valueBytes_eq (value : UInt64) :
    ((List.range 8).map fun i => (value >>> (8 * i).toUInt64).toUInt8) = leBytes value.toNat 8 := by
  simp only [range_succ, range_zero, nil_append, cons_append, map_cons, map_nil, leBytes,
    List.cons.injEq]
  refine ⟨?_, ?_, ?_, ?_, ?_, ?_, ?_, ?_, trivial⟩ <;> apply UInt8.toNat_inj.mp <;>
    simp [Nat.shiftRight_eq_div_pow, Nat.div_div_eq_div_mul]

theorem embeddingBytes_injective : Function.Injective embeddingBytes := by
  intro a b same
  unfold embeddingBytes at same
  simp only [valueBytes_eq] at same
  induction a generalizing b with
  | nil =>
    cases b with
    | nil => rfl
    | cons other b => simp [leBytes] at same
  | cons value a ih =>
    cases b with
    | nil => simp [leBytes] at same
    | cons other b =>
      rw [flatMap_cons, flatMap_cons] at same
      obtain ⟨own, rest⟩ := append_inj same (by rw [leBytes_length, leBytes_length])
      have numbers := congrArg BitPacking.number own
      rw [number_leBytes, number_leBytes, show 256 ^ 8 = 2 ^ 64 by norm_num, Nat.mod_eq_of_lt value.toNat_lt,
        Nat.mod_eq_of_lt other.toNat_lt] at numbers
      rw [UInt64.toNat_inj.mp numbers, ih rest]

theorem splitOn_id {id : String} (valid : validId id = true) : id.toList.splitOn '\x01' = [id.toList] := by
  apply splitOn_eq_singleton
  intro member
  unfold validId at valid
  simp only [Bool.and_eq_true, Bool.not_eq_true', any_eq_false] at valid
  exact valid.1.2 _ member (by decide)

theorem validId_ne_empty {id : String} (valid : validId id = true) : id ≠ "" := by
  rintro rfl
  simp [validId] at valid

theorem joined_ids_inj {a b : List String} (valid : ∀ id ∈ a, validId id = true) (valid' : ∀ id ∈ b, validId id = true) :
    joined a = joined b ↔ a = b := by
  have single (ids : List String) (valid : ∀ id ∈ ids, validId id = true) :
      (ids.flatMap fun id => id.toList.splitOn '\x01') = ids.map String.toList := by
    rw [map_eq_flatMap]
    exact flatMap_congr fun id member => splitOn_id (valid id member)
  rw [joined_inj (fun id member => validId_ne_empty (valid id member))
    (fun id member => validId_ne_empty (valid' id member)), single a valid, single b valid']
  exact (map_injective_iff.mpr fun _ _ => String.toList_injective).eq_iff

variable {settings : WriteSettings} {a b : Payload}

section

variable (valid : a.Valid) (valid' : b.Valid) (faithful : settings.metadataBytes a.metadata = settings.metadataBytes b.metadata → a.metadata = b.metadata)
include valid valid' faithful

theorem parts_eq_iff :
    a.parts settings = b.parts settings ↔ a.Alike b := by
  constructor
  · intro same
    simp only [Payload.parts, List.cons.injEq, and_true] at same
    obtain ⟨text, metadata, eventTime, validFrom, validTo, subject, explicit, entities, sourceUri, embedding⟩ := same
    refine ⟨utf8_injective text, faithful metadata, timePart_injective eventTime, timePart_injective validFrom,
      timePart_injective validTo, ?_, (joined_ids_inj valid.explicit valid'.explicit).mp explicit,
      (joined_inj valid.entities valid'.entities).mp entities, utf8_injective sourceUri, embeddingBytes_injective embedding⟩
    have about := utf8_injective subject
    cases first : a.subject <;> cases second : b.subject
    · rfl
    · rw [first, second, Option.getD_none, Option.getD_some] at about
      exact absurd (about ▸ second) valid'.subject
    · rw [first, second, Option.getD_none, Option.getD_some] at about
      exact absurd (about ▸ first) valid.subject
    · rw [first, second, Option.getD_some, Option.getD_some] at about
      rw [about]
  · intro alike
    rw [Payload.parts, Payload.parts, alike.text, alike.metadata, alike.eventTime, alike.validFrom, alike.validTo,
      alike.subject, alike.explicit, (joined_inj valid.entities valid'.entities).mpr alike.pieces, alike.sourceUri,
      alike.embedding]

theorem framed_tells_apart_iff
    (small : ∀ part ∈ a.parts settings, part.length < 2 ^ 64) (small' : ∀ part ∈ b.parts settings, part.length < 2 ^ 64) :
    (framed (a.parts settings) = framed (b.parts settings) → a = b) ↔ ¬a.Conflated b := by
  have alike : framed (a.parts settings) = framed (b.parts settings) ↔ a.Alike b :=
    ⟨fun same => (parts_eq_iff valid valid' faithful).mp (framed_injective small small' same),
      fun alike => by rw [(parts_eq_iff valid valid' faithful).mpr alike]⟩
  rw [alike, Payload.Conflated]
  tauto

end

end Flattening

end Warm.Memory
