import Warm.ConversationCanonical
import Mathlib.Logic.Equiv.List

/-! The frame of a context: the JSON text `serde_json` writes, and sources whose texts fit the limit
while their frame does not, since control characters are escaped. -/
namespace Warm.Conversation

open Bytes Binary Provenance List

/-! ### The JSON text -/

/-- The escapes of `serde_json`. -/
def escapeChar (c : Char) : List Char :=
  if c = '"' then ['\\', '"']
  else if c = '\\' then ['\\', '\\']
  else if c = '\n' then ['\\', 'n']
  else if c = '\r' then ['\\', 'r']
  else if c = '\t' then ['\\', 't']
  else if c = Char.ofNat 8 then ['\\', 'b']
  else if c = Char.ofNat 12 then ['\\', 'f']
  else if c.toNat < 0x20 then ['\\', 'u', '0', '0', hexDigit (c.toNat / 16), hexDigit (c.toNat % 16)]
  else [c]

def quoted (text : String) : List Char := '"' :: text.toList.flatMap escapeChar ++ ['"']

def listed (items : List (List Char)) : List Char := '[' :: List.intercalate [','] items ++ [']']

def roleText : ConversationRole → List Char
  | .user => quoted "user"
  | .assistant => quoted "assistant"

def natText (value : Nat) : List Char := (toString value).toList

def intText (value : Int) : List Char := (toString value).toList

def premiseText : ContextPremise → List Char
  | .localOrdinal ordinal => natText ordinal
  | .unresolved id => quoted id

def turnText (turn : ContextTurn) : List Char :=
  listed [natText turn.session, natText turn.index, quoted turn.id, roleText turn.role, intText turn.time,
    quoted turn.text, listed (turn.premises.map premiseText)]

def contextText (context : ConversationContext) : List Char :=
  "\x7b\"schemaVersion\":".toList ++ natText context.schemaVersion ++
    ",\"sufficiency\":\"unverified\",\"sourcesSha256\":".toList ++ quoted context.sourcesSha256 ++
    ",\"sessions\":".toList ++ listed (context.sessions.map fun session => listed [quoted session.1, quoted session.2]) ++
    ",\"turns\":".toList ++ listed (context.turns.map turnText) ++ ['\x7d']

def sourceText (source : ConversationSource) : List Char :=
  "\x7b\"recordId\":".toList ++ quoted source.recordId ++ ",\"sourceId\":".toList ++ quoted source.sourceId ++
    ",\"sessionId\":".toList ++ quoted source.sessionId ++ ",\"version\":".toList ++ quoted source.version ++
    ",\"turnIndex\":".toList ++ natText source.turnIndex ++ ",\"role\":".toList ++ roleText source.role ++
    ",\"observationTime\":".toList ++ intText source.observationTime ++ ",\"text\":".toList ++ quoted source.text ++
    ",\"premiseRecordIds\":".toList ++ listed (source.premiseRecordIds.map quoted) ++ ['\x7d']

def identityText (session version : String) (index : Nat) (source : String) : Bytes :=
  utf8 (String.ofList ("[1,\"source\",".toList ++
    listed [quoted session, quoted version, natText index, quoted source] ++ [']']))

/-! ### Plain turns -/

/-- Turns of one session without premises. -/
def plainTurns (text : String) (items : List (Nat × String)) : List ContextTurn :=
  items.map fun item => ⟨0, item.1, item.2, .user, 0, text, []⟩

def plainSource (codec : ContextCodec) (text : String) (item : Nat × String) : ConversationSource :=
  ⟨sourceId codec "s" "v" item.1 item.2, item.2, "s", "v", item.1, .user, 0, text, []⟩

theorem decode_plainTurns (codec : ContextCodec) (items : List (Nat × String)) (state : Decoded)
    (short : (utf8 text).length ≤ MAX_CONVERSATION_METADATA_BYTES)
    (room : state.bytes + items.length * (utf8 text).length ≤ MAX_CONVERSATION_BYTES)
    (bounded : ∀ item ∈ items, item.1 < MAX_CONVERSATION_RECORDS ∧ label item.2 = true)
    (ascends : items.Pairwise fun a b => a.1 < b.1 ∧ a.2 ≠ b.2)
    (fresh : ∀ item ∈ items, (0, item.2) ∉ state.identities ∧ state.previous.all (fun position => before position (0, item.1)) = true) :
    ∃ after, (plainTurns text items).foldlM (decodeTurn codec [("s", "v")]) state = .ok after ∧
      after.sources = state.sources ++ items.map (plainSource codec text) ∧
      after.used = if items = [] then state.used else if 0 ∈ state.used then state.used else 0 :: state.used := by
  induction items generalizing state with
  | nil => exact ⟨state, rfl, by simp, rfl⟩
  | cons item items ih =>
    rw [forall_mem_cons] at bounded fresh
    rw [pairwise_cons] at ascends
    rw [length_cons, Nat.succ_mul] at room
    have fits : state.bytes + (utf8 text).length ≤ MAX_CONVERSATION_BYTES := by omega
    have checks := And.intro bounded.1.1 (And.intro bounded.1.2 (And.intro short (And.intro (Nat.zero_le 4)
      (And.intro fresh.1.1 fresh.1.2))))
    have one : decodeTurn codec [("s", "v")] state ⟨0, item.1, item.2, .user, 0, text, []⟩ = .ok
        ⟨state.sources ++ [plainSource codec text item], (0, item.2) :: state.identities,
          if 0 ∈ state.used then state.used else 0 :: state.used, state.bytes + (utf8 text).length,
          some (0, item.1)⟩ := by
      simp only [decodeTurn, ensure, getElem?_cons_zero, if_pos fits, length_nil, if_pos checks,
        decodePremises, nodup_nil, if_true, bind, Except.bind, plainSource]
    obtain ⟨after, folded, sources, used⟩ := ih ⟨state.sources ++ [plainSource codec text item],
      (0, item.2) :: state.identities, if 0 ∈ state.used then state.used else 0 :: state.used,
      state.bytes + (utf8 text).length, some (0, item.1)⟩ (by dsimp only; omega) bounded.2 ascends.2 (by
        intro other member
        obtain ⟨later, apart⟩ := ascends.1 other member
        refine ⟨?_, by simp [before, later]⟩
        rw [mem_cons, not_or]
        refine ⟨?_, (fresh.2 other member).1⟩
        simp only [Prod.mk.injEq, not_and]
        intro _ same
        exact apart same.symm)
    refine ⟨after, ?_, by rw [sources]; simp, ?_⟩
    · simp only [plainTurns, map_cons, foldlM_cons]
      rw [one]
      exact folded
    · rw [used]
      by_cases known : 0 ∈ state.used <;> by_cases last : items = [] <;> simp [known, last]

/-! ### A frame over the limit -/

namespace Sample

instance instEncodableChar : Encodable Char := Encodable.ofLeftInverse Char.toNat Char.ofNat Char.ofNat_toNat
instance instEncodableString : Encodable String := Encodable.ofLeftInverse String.toList String.ofList fun text => by simp

instance : Encodable ConversationRole :=
  Encodable.ofLeftInverse (fun role => match role with | .user => true | .assistant => false)
    (fun user => if user then .user else .assistant) fun role => by cases role <;> rfl

instance : Encodable ContextPremise :=
  Encodable.ofLeftInverse
    (fun premise : ContextPremise => match premise with
      | .localOrdinal ordinal => (Sum.inl ordinal : Nat ⊕ String)
      | .unresolved id => .inr id)
    (fun
      | .inl ordinal => .localOrdinal ordinal
      | .inr id => .unresolved id)
    fun premise => by cases premise <;> rfl

instance : Encodable ContextTurn :=
  Encodable.ofLeftInverse (fun t => (t.session, t.index, t.id, t.role, t.time, t.text, t.premises))
    (fun (a, b, c, d, e, f, g) => ⟨a, b, c, d, e, f, g⟩) fun _ => rfl

instance : Encodable ConversationContext :=
  Encodable.ofLeftInverse (fun c => (c.schemaVersion, c.sourcesSha256, c.sessions, c.turns))
    (fun (a, b, c, d) => ⟨a, .unverified, b, c, d⟩) fun context => by
      obtain ⟨_, sufficiency, _, _, _⟩ := context
      cases sufficiency
      rfl

/-- The digests of the six identities, and of the six sources. -/
def digest (bytes : Bytes) : Array32 :=
  if bytes = identityText "s" "v" 0 "a" then
    ⟨[0x60, 0x49, 0x80, 0xf4, 0xc9, 0xe8, 0x6e, 0x39, 0x3d, 0x8a, 0x48, 0x18, 0x2d, 0xad, 0x65, 0xa0,
      0xd2, 0xd3, 0x6f, 0xae, 0xbd, 0x67, 0x2e, 0xd5, 0x9e, 0x99, 0x5b, 0x7f, 0x1a, 0x2f, 0x5e, 0x5f], by decide⟩
  else if bytes = identityText "s" "v" 1 "b" then
    ⟨[0x8b, 0x9c, 0x7f, 0x37, 0x51, 0x2b, 0xf6, 0x68, 0x91, 0x99, 0xd1, 0xab, 0x94, 0xae, 0xaf, 0xdc,
      0x6b, 0x67, 0x10, 0x17, 0x30, 0x09, 0xcb, 0xbc, 0x20, 0xfb, 0x74, 0x0c, 0xaa, 0xae, 0x8b, 0x2e], by decide⟩
  else if bytes = identityText "s" "v" 2 "c" then
    ⟨[0x52, 0x7e, 0xc3, 0xce, 0x5a, 0xd5, 0x03, 0x7e, 0x4e, 0xfc, 0x9b, 0xec, 0xfa, 0xbf, 0x66, 0xfe,
      0xbe, 0x22, 0xff, 0x70, 0xaf, 0x12, 0xde, 0xe3, 0xeb, 0x6e, 0xf4, 0x40, 0x25, 0x25, 0x0e, 0xfa], by decide⟩
  else if bytes = identityText "s" "v" 3 "d" then
    ⟨[0x51, 0xdb, 0x85, 0xe0, 0xa5, 0x73, 0x8a, 0x0a, 0x4b, 0xb8, 0x58, 0x9f, 0x47, 0x54, 0x6f, 0xab,
      0x64, 0xa9, 0xba, 0x48, 0xc2, 0xf0, 0x29, 0xba, 0x77, 0x20, 0x6d, 0x4e, 0x29, 0x7c, 0x29, 0xbf], by decide⟩
  else if bytes = identityText "s" "v" 4 "e" then
    ⟨[0x93, 0x37, 0xc3, 0xf7, 0xc4, 0xfb, 0xb5, 0x62, 0xd4, 0x4f, 0xc1, 0x49, 0x44, 0x11, 0x3b, 0x7a,
      0xc6, 0x53, 0x56, 0x22, 0xe2, 0x00, 0x53, 0xbe, 0x57, 0x81, 0x6c, 0xda, 0x58, 0x22, 0xd7, 0xe7], by decide⟩
  else if bytes = identityText "s" "v" 5 "f" then
    ⟨[0x74, 0xeb, 0x79, 0xbf, 0xd2, 0x06, 0xc4, 0x1d, 0xf4, 0xd0, 0xe9, 0x15, 0x7b, 0x20, 0x7d, 0x30,
      0xcb, 0x2b, 0xc6, 0x18, 0x03, 0x8f, 0x7e, 0x2d, 0x13, 0x34, 0x75, 0x36, 0xd6, 0x39, 0xe3, 0xf5], by decide⟩
  else
    ⟨[0xa8, 0xe6, 0x32, 0x87, 0x08, 0xe9, 0x44, 0xa1, 0xb6, 0x97, 0x29, 0xb2, 0x24, 0x31, 0x8f, 0x55,
      0x52, 0x8d, 0xca, 0xe1, 0x20, 0xb1, 0x1f, 0x3f, 0x89, 0x3c, 0x21, 0x15, 0xc0, 0xbc, 0xda, 0xe7], by decide⟩

def items : List (Nat × String) := [(0, "a"), (1, "b"), (2, "c"), (3, "d"), (4, "e"), (5, "f")]

/-- The parts of the codec that the context is made with. -/
def hashing : ContextCodec :=
  ⟨digest, identityText, fun sources => utf8 (String.ofList (listed (sources.map sourceText))), fun _ => [], fun _ => none⟩

def sources (text : String) : List ConversationSource := items.map (plainSource hashing text)

def context (text : String) : ConversationContext :=
  ⟨1, .unverified, sha256 hashing (hashing.sources (sources text)), [("s", "v")], plainTurns text items⟩

def frame (text : String) : Bytes := utf8 (String.ofList (contextText (context text)))

/-- serde's text of the sample's context, and a code for all other contexts. -/
def codec (text : String) : ContextCodec :=
  { hashing with
    toVec := fun own => if own = context text then frame text else List.replicate (Encodable.encode own) 120
    fromSlice := fun bytes =>
      if bytes = frame text then some (context text)
      else if bytes.all (· = 120) then Encodable.decode bytes.length
      else none }

/-- As many control characters as one source may have. -/
def controls : String := String.ofList (List.replicate MAX_CONVERSATION_METADATA_BYTES (Char.ofNat 1))

theorem utf8_replicate (count : Nat) :
    (utf8 (String.ofList (List.replicate count (Char.ofNat 1)))).length = count := by
  have coded : String.utf8EncodeChar (Char.ofNat 1) = [1] := by decide
  rw [utf8_ofList, flatMap_replicate, coded]
  simp

theorem utf8_controls : (utf8 controls).length = MAX_CONVERSATION_METADATA_BYTES := utf8_replicate _

theorem length_le_utf8 (letters : List Char) : letters.length ≤ (utf8 (String.ofList letters)).length := by
  rw [utf8_ofList]
  induction letters with
  | nil => exact le_rfl
  | cons letter letters ih =>
    have one : 1 ≤ (String.utf8EncodeChar letter).length := by
      rw [String.length_utf8EncodeChar]
      exact letter.utf8Size_pos
    rw [flatMap_cons, length_append, length_cons]
    omega

theorem length_quoted_replicate (count : Nat) :
    6 * count ≤ (quoted (String.ofList (List.replicate count (Char.ofNat 1)))).length := by
  have escaped : (escapeChar (Char.ofNat 1)).length = 6 := by decide
  unfold quoted
  rw [String.toList_ofList, flatMap_replicate]
  simp [escaped]
  omega

theorem length_quoted_controls : 6 * MAX_CONVERSATION_METADATA_BYTES ≤ (quoted controls).length :=
  length_quoted_replicate _

theorem length_listed (items : List (List Char)) : (items.map List.length).sum ≤ (listed items).length := by
  have joined : (items.map List.length).sum ≤ (List.intercalate [','] items).length := by
    induction items with
    | nil => simp
    | cons item items ih =>
      cases items with
      | nil => simp
      | cons next items =>
        rw [map_cons, sum_cons, intercalate_cons_cons]
        simp only [length_append]
        omega
  unfold listed
  simp only [cons_append, length_cons, length_append]
  omega

theorem length_turnText (turn : ContextTurn) : (quoted turn.text).length ≤ (turnText turn).length := by
  have whole : _ ≤ (turnText turn).length := length_listed _
  simp only [map_cons, sum_cons] at whole
  omega

theorem length_frame (text : String) : 6 * (quoted text).length ≤ (frame text).length := by
  have turns := length_listed ((context text).turns.map turnText)
  have each : 6 * (quoted text).length ≤ (((context text).turns.map turnText).map List.length).sum := by
    have a := length_turnText ⟨0, 0, "a", .user, 0, text, []⟩
    have b := length_turnText ⟨0, 1, "b", .user, 0, text, []⟩
    have c := length_turnText ⟨0, 2, "c", .user, 0, text, []⟩
    have d := length_turnText ⟨0, 3, "d", .user, 0, text, []⟩
    have e := length_turnText ⟨0, 4, "e", .user, 0, text, []⟩
    have f := length_turnText ⟨0, 5, "f", .user, 0, text, []⟩
    simp only [context, plainTurns, items, map_cons, map_nil, sum_cons, sum_nil]
    dsimp only at a b c d e f
    omega
  have inside : (listed ((context text).turns.map turnText)).length ≤ (contextText (context text)).length := by
    unfold contextText
    simp only [length_append]
    omega
  have bytes := length_le_utf8 (contextText (context text))
  unfold frame
  omega

theorem codec_lossless (text : String) : (codec text).Lossless := by
  intro own
  have brace : (frame text).all (· = 120) = false := by
    have first : (frame text).head? = some 123 := by
      have coded : String.utf8EncodeChar '\x7b' = [123] := by decide
      unfold frame contextText
      rw [utf8_ofList]
      have opening : "\x7b\"schemaVersion\":".toList = '\x7b' :: "\"schemaVersion\":".toList := by decide
      rw [opening]
      simp only [cons_append, flatMap_cons, coded, head?_cons]
    cases split : frame text with
    | nil => simp [split] at first
    | cons byte rest =>
      rw [split, head?_cons, Option.some.injEq] at first
      simp [first]
  by_cases same : own = context text
  · simp [codec, same]
  · have other : List.replicate (Encodable.encode own) 120 ≠ frame text := by
      intro equal
      rw [← equal] at brace
      simp at brace
    simp [codec, same, other]

theorem plainSource_codec (text : String) : plainSource (codec text) = plainSource hashing := by
  have digest : (codec text).digest = hashing.digest := by simp only [codec]
  have identity : (codec text).identity = hashing.identity := by simp only [codec]
  funext own item
  unfold plainSource sourceId sha256
  rw [digest, identity]

theorem context_sources (short : (utf8 text).length ≤ MAX_CONVERSATION_METADATA_BYTES) :
    (context text).sources (codec text) = .ok (sources text) := by
  have room : 0 + items.length * (utf8 text).length ≤ MAX_CONVERSATION_BYTES := by
    have six : items.length = 6 := rfl
    have limit : 6 * MAX_CONVERSATION_METADATA_BYTES ≤ MAX_CONVERSATION_BYTES := by decide
    rw [six]
    omega
  obtain ⟨after, folded, decoded, used⟩ := decode_plainTurns (codec text) items {} short room (by decide)
    (by decide) (by simp)
  have turns : (context text).turns = plainTurns text items := rfl
  have sessions : (context text).sessions = [("s", "v")] := rfl
  have read : (context text).turns.foldlM (decodeTurn (codec text) (context text).sessions) {} = .ok after := by
    rw [turns, sessions]
    exact folded
  have same : after.sources = sources text := by
    rw [decoded, plainSource_codec]
    rfl
  have metadata : (context text).schemaVersion = 1 ∧ isHexText (context text).sourcesSha256 = true ∧
      (context text).turns.length ≤ MAX_CONVERSATION_RECORDS ∧
      (context text).sessions.length ≤ (context text).turns.length ∧
      ((context text).sessions.all fun session => label session.1 && label session.2) = true ∧
      ascending (context text).sessions = true := by
    have hex : isHexText (context text).sourcesSha256 = true := by
      unfold context sha256
      exact isHexText_hexEncode _
    refine ⟨rfl, hex, ?_, ?_, ?_, ?_⟩
    · simp only [context, plainTurns, length_map]
      decide
    · simp only [context, plainTurns, length_map]
      decide
    · simp only [context]
      decide
    · simp only [context]
      decide
  have absent : ∀ turn ∈ (context text).turns, ∀ id ∈ turn.premises.filterMap unresolvedOf,
      id ∉ (sources text).map (·.recordId) := by
    intro turn member
    obtain ⟨item, -, rfl⟩ := mem_map.mp member
    simp
  have final : after.used.length = (context text).sessions.length ∧
      sha256 (codec text) ((codec text).sources (sources text)) = (context text).sourcesSha256 := by
    have digest : (codec text).digest = hashing.digest := by simp only [codec]
    have printed : (codec text).sources = hashing.sources := by simp only [codec]
    refine ⟨by simp [used, items, context], ?_⟩
    simp only [sha256, digest, printed, context]
  simp only [ConversationContext.sources, ensure, if_pos metadata, read, same, if_pos absent, if_pos final, bind,
    Except.bind]

theorem sources_distinct (text : String) : ((sources text).map (·.recordId)).Nodup := by
  have ids : (sources text).map (·.recordId) = items.map fun item => sourceId hashing "s" "v" item.1 item.2 := by
    simp [sources, plainSource]
  rw [ids]
  decide

theorem fromSourcesInner_sources (short : (utf8 text).length ≤ MAX_CONVERSATION_METADATA_BYTES) :
    fromSourcesInner (codec text) (sources text) = .ok (context text) :=
  fromSourcesInner_of_sources (context_sources short) (sources_distinct text) (.refl _)

theorem codec_toVec (text : String) : (codec text).toVec (context text) = frame text := by
  simp only [codec, if_true]

theorem fromJson_frame (long : MAX_CONVERSATION_BYTES < (frame text).length) :
    fromJson (codec text) ((codec text).toVec (context text)) ≠ .ok (context text) := by
  rw [codec_toVec]
  simp [fromJson, ensure, if_neg (Nat.not_le.mpr long), bind, Except.bind]

theorem frame_controls : MAX_CONVERSATION_BYTES < (frame controls).length := by
  have limit : MAX_CONVERSATION_BYTES < 6 * (6 * MAX_CONVERSATION_METADATA_BYTES) := by decide
  exact lt_of_lt_of_le limit (le_trans (Nat.mul_le_mul_left 6 length_quoted_controls) (length_frame controls))

end Sample

/-- Six sources of control characters are accepted, and their frame is refused. -/
theorem context_over_limit :
    (Sample.codec Sample.controls).Lossless ∧
      fromSourcesInner (Sample.codec Sample.controls) (Sample.sources Sample.controls) =
        .ok (Sample.context Sample.controls) ∧
      fromJson (Sample.codec Sample.controls)
        ((Sample.codec Sample.controls).toVec (Sample.context Sample.controls)) ≠ .ok (Sample.context Sample.controls) :=
  ⟨Sample.codec_lossless _, Sample.fromSourcesInner_sources (le_of_eq Sample.utf8_controls),
    Sample.fromJson_frame Sample.frame_controls⟩

/-- The hypothesis holds of six sources with short texts. -/
theorem context_canonical_short :
    fromSourcesInner (Sample.codec "t") (Sample.sources "t") = .ok (Sample.context "t") ∧
      (Sample.context "t").sources (Sample.codec "t") = .ok (canonicalOrder (Sample.sources "t")) := by
  have accepted : fromSourcesInner (Sample.codec "t") (Sample.sources "t") = .ok (Sample.context "t") :=
    Sample.fromSourcesInner_sources (by decide)
  exact ⟨accepted, ((context_canonical (Sample.codec_lossless "t")).1 _ _ accepted).1⟩

end Warm.Conversation
