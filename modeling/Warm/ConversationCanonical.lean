import Warm.ConversationContext
import Warm.Checked
import Mathlib.Data.List.Forall2
import Mathlib.Algebra.BigOperators.Group.List.Basic

/-! The context encoding is canonical: decoding what was encoded gives the sources in order, and a
context that decodes is the one its sources encode to. -/
namespace Warm.Conversation

open List hiding after all count length

open Bytes Binary Provenance

variable {codec : ContextCodec}

/-! ### Hex identities -/

theorem isHexText_hexEncode (hash : Array32) : isHexText (hexEncode hash.val) = true := by
  have digit : ∀ n < 16, ∃ byte, String.utf8EncodeChar (hexDigit n) = [byte] ∧ isHexDigit byte = true := by
    have each : ∀ n < 16, (String.utf8EncodeChar (hexDigit n)).length = 1 ∧
        (String.utf8EncodeChar (hexDigit n)).all isHexDigit = true := by decide
    intro n small
    obtain ⟨single, hex⟩ := each n small
    obtain ⟨byte, coded⟩ := length_eq_one_iff.mp single
    rw [coded] at hex
    exact ⟨byte, coded, by simpa using hex⟩
  have pairs (bytes : Bytes) : (utf8 (hexEncode bytes)).length = 2 * bytes.length ∧
      (utf8 (hexEncode bytes)).all isHexDigit = true := by
    unfold hexEncode
    rw [utf8_ofList]
    induction bytes with
    | nil => exact ⟨rfl, rfl⟩
    | cons byte bytes ih =>
      have small := byte.toNat_lt
      obtain ⟨high, highCoded, highHex⟩ := digit (byte.toNat / 16) (by omega)
      obtain ⟨low, lowCoded, lowHex⟩ := digit (byte.toNat % 16) (by omega)
      simp only [flatMap_cons, flatMap_append, flatMap_nil, append_nil, highCoded, lowCoded,
        length_append, all_append, length_cons, length_nil, ih, all_cons, all_nil,
        highHex, lowHex, Bool.and_true, and_true]
      omega
  obtain ⟨length, hex⟩ := pairs hash.val
  simp [isHexText, length, hex, hash.property]

theorem premiseId_sourceId (codec : ContextCodec) (session version : String) (index : Nat) (source : String) :
    premiseId (sourceId codec session version index source) = true := by
  unfold premiseId sourceId
  rw [stripStart_append, Option.any_some]
  exact isHexText_hexEncode _

/-! ### Paired lists -/

theorem pairwise_of_forall₂ {α β : Type} {R : α → β → Prop} {P : α → α → Prop} {Q : β → β → Prop}
    (carries : ∀ a a' b b', R a b → R a' b' → P a a' → Q b b') {as : List α} {bs : List β}
    (paired : List.Forall₂ R as bs) (pairwise : as.Pairwise P) : bs.Pairwise Q := by
  induction paired with
  | nil => exact .nil
  | cons own rest ih =>
    rw [pairwise_cons] at pairwise ⊢
    refine ⟨?_, ih pairwise.2⟩
    intro other member
    obtain ⟨a, given, related⟩ := mem_right_of_forall₂ rest member
    exact carries _ _ _ _ own related (pairwise.1 a given)

/-! ### What a decoded turn says -/

/-- A premise names `id` among the decoded sources. -/
def NamesPremise (sources : List ConversationSource) : ContextPremise → String → Prop
  | .localOrdinal ordinal, id => ∃ source, sources[ordinal]? = some source ∧ source.recordId = id
  | .unresolved own, id => own = id ∧ premiseId own = true

/-- The source a turn decodes to, its local premises looked up in `sources`. -/
structure Matches (codec : ContextCodec) (sessions : List (String × String)) (sources : List ConversationSource)
    (turn : ContextTurn) (source : ConversationSource) : Prop where
  session : sessions[turn.session]? = some (source.sessionId, source.version)
  recordId : source.recordId = sourceId codec source.sessionId source.version turn.index turn.id
  sourceId : source.sourceId = turn.id
  turnIndex : source.turnIndex = turn.index
  role : source.role = turn.role
  time : source.observationTime = turn.time
  text : source.text = turn.text
  premises : List.Forall₂ (NamesPremise sources) turn.premises source.premiseRecordIds
  bounded : turn.index < MAX_CONVERSATION_RECORDS
  labelled : label turn.id = true
  short : (utf8 turn.text).length ≤ MAX_CONVERSATION_METADATA_BYTES
  few : turn.premises.length ≤ 4

theorem NamesPremise.mono {premise : ContextPremise} {id : String} (names : NamesPremise sources premise id) :
    NamesPremise (sources ++ later) premise id := by
  cases premise with
  | localOrdinal ordinal =>
    obtain ⟨source, found, same⟩ := names
    refine ⟨source, ?_, same⟩
    rw [getElem?_append_left (List.getElem?_eq_some_iff.mp found).1, found]
  | unresolved own => exact names

theorem decodePremises_eq_ok (done : decodePremises sources session version index premises last = .ok ids) :
    List.Forall₂ (NamesPremise sources) premises ids := by
  induction premises generalizing last ids with
  | nil =>
    cases done
    exact .nil
  | cons premise premises ih =>
    cases premise with
    | unresolved id =>
      unfold decodePremises at done
      split at done
      · rename_i valid
        cases rest : decodePremises sources session version index premises last with
        | error message => simp [rest, Except.map] at done
        | ok others =>
          simp only [rest, Except.map, Except.ok.injEq] at done
          subst done
          exact .cons ⟨rfl, valid⟩ (ih rest)
      · cases done
    | localOrdinal ordinal =>
      unfold decodePremises at done
      split at done
      · cases done
      · rename_i source found
        split at done
        · cases done
        · cases rest : decodePremises sources session version index premises (some ordinal) with
          | error message => simp [rest, Except.map] at done
          | ok others =>
            simp only [rest, Except.map, Except.ok.injEq] at done
            subst done
            exact .cons ⟨source, found, rfl⟩ (ih rest)

theorem decodeTurn_eq_ok (done : decodeTurn codec sessions state turn = .ok after) :
    ∃ source, Matches codec sessions state.sources turn source ∧ after.sources = state.sources ++ [source] ∧
      after.used = (if turn.session ∈ state.used then state.used else turn.session :: state.used) ∧
      after.bytes = state.bytes + (utf8 turn.text).length ∧ after.bytes ≤ MAX_CONVERSATION_BYTES ∧
      after.previous = some (turn.session, turn.index) ∧
      state.previous.all (fun position => before position (turn.session, turn.index)) = true := by
  unfold decodeTurn at done
  split at done
  · rename_i session version found
    obtain ⟨_, room, done⟩ := bind_eq_ok.mp done
    obtain ⟨_, checked, done⟩ := bind_eq_ok.mp done
    obtain ⟨premises, read, done⟩ := bind_eq_ok.mp done
    obtain ⟨_, -, done⟩ := bind_eq_ok.mp done
    rw [ensure_eq_ok] at room checked
    obtain ⟨bounded, labelled, short, few, -, ordered⟩ := checked
    cases done
    exact ⟨_, ⟨found, rfl, rfl, rfl, rfl, rfl, rfl, decodePremises_eq_ok read, bounded, labelled, short, few⟩,
      rfl, rfl, rfl, room, rfl, ordered⟩
  · cases done

theorem Matches.mono (matched : Matches codec sessions sources turn source) (later : List ConversationSource) :
    Matches codec sessions (sources ++ later) turn source :=
  { matched with premises := matched.premises.imp fun _ _ names => names.mono }

theorem before_trans (first : before a b = true) (second : before b c = true) : before a c = true := by
  simp only [before, Bool.or_eq_true, Bool.and_eq_true, decide_eq_true_eq] at first second ⊢
  omega

/-- The turns decoded so far: each matches its source, they ascend, and the state counts them. -/
theorem decodeTurns (done : turns.foldlM (decodeTurn codec sessions) state = .ok after) (distinct : state.used.Nodup) :
    ∃ more, after.sources = state.sources ++ more ∧ List.Forall₂ (Matches codec sessions after.sources) turns more ∧
      after.bytes = state.bytes + (turns.map fun turn => (utf8 turn.text).length).sum ∧
      (state.bytes ≤ MAX_CONVERSATION_BYTES → after.bytes ≤ MAX_CONVERSATION_BYTES) ∧
      after.used.Nodup ∧ (∀ session, session ∈ after.used ↔ session ∈ state.used ∨ ∃ turn ∈ turns, turn.session = session) ∧
      (∀ turn ∈ turns, state.previous.all (fun position => before position (turn.session, turn.index)) = true) ∧
      turns.Pairwise fun a b => before (a.session, a.index) (b.session, b.index) = true := by
  induction turns generalizing state with
  | nil =>
    cases done
    exact ⟨[], by simp, .nil, by simp, id, distinct, by simp, by simp, .nil⟩
  | cons turn turns ih =>
    rw [foldlM_cons] at done
    obtain ⟨middle, one, rest⟩ := bind_eq_ok.mp done
    obtain ⟨source, matched, added, used, bytes, room, previous, above⟩ := decodeTurn_eq_ok one
    have distinct' : middle.used.Nodup := by
      rw [used]
      split
      · exact distinct
      · rename_i new
        exact nodup_cons.mpr ⟨new, distinct⟩
    obtain ⟨more, sources, matches', size, fits, distinct'', members, later, ascending⟩ := ih rest distinct'
    rw [added, append_assoc, singleton_append] at sources
    have next (other : ContextTurn) (member : other ∈ turns) :
        before (turn.session, turn.index) (other.session, other.index) = true := by
      have own := later other member
      rw [previous] at own
      simpa using own
    refine ⟨source :: more, sources, ?_, ?_, fun _ => fits room, distinct'', ?_, ?_, ?_⟩
    · refine .cons ?_ matches'
      rw [sources]
      exact matched.mono (source :: more)
    · rw [size, bytes, map_cons, sum_cons]
      omega
    · intro session
      rw [members, used, exists_mem_cons_iff]
      by_cases known : turn.session ∈ state.used
      · rw [if_pos known]
        constructor
        · rintro (old | new)
          · exact .inl old
          · exact .inr (.inr new)
        · rintro (old | rfl | new)
          · exact .inl old
          · exact .inl known
          · exact .inr new
      · rw [if_neg known, mem_cons]
        constructor
        · rintro ((rfl | old) | new)
          · exact .inr (.inl rfl)
          · exact .inl old
          · exact .inr (.inr new)
        · rintro (old | rfl | new)
          · exact .inl (.inr old)
          · exact .inl (.inl rfl)
          · exact .inr new
    · rw [forall_mem_cons]
      refine ⟨above, ?_⟩
      intro other member
      cases earlier : state.previous with
      | none => rfl
      | some position =>
        rw [earlier] at above
        exact before_trans (by simpa using above) (next other member)
    · exact pairwise_cons.mpr ⟨next, ascending⟩

/-! ### What a decoded context says -/

theorem pairwise_of_ascending (ascends : ascending sessions = true) :
    sessions.Pairwise fun a b => toLex a < toLex b := by
  have chain : sessions.IsChain fun a b => toLex a < toLex b := by
    induction sessions with
    | nil => exact .nil
    | cons first rest ih =>
      cases rest with
      | nil => exact .singleton _
      | cons second rest =>
        simp only [ascending, tail_cons, zip_cons_cons, all_cons, Bool.and_eq_true,
          decide_eq_true_eq] at ascends
        exact .cons_cons ascends.1 (ih ascends.2)
  have transitive : IsTrans (String × String) fun a b => toLex a < toLex b := ⟨fun _ _ _ => lt_trans⟩
  exact isChain_iff_pairwise.mp chain

structure Encodes (codec : ContextCodec) (context : ConversationContext) (sources : List ConversationSource) : Prop where
  version : context.schemaVersion = 1
  digest : sha256 codec (codec.sources sources) = context.sourcesSha256
  count : context.turns.length ≤ MAX_CONVERSATION_RECORDS
  labelled : ∀ session ∈ context.sessions, label session.1 = true ∧ label session.2 = true
  ascends : context.sessions.Pairwise fun a b => toLex a < toLex b
  turns : List.Forall₂ (Matches codec context.sessions sources) context.turns sources
  ordered : context.turns.Pairwise fun a b => before (a.session, a.index) (b.session, b.index) = true
  bytes : (context.turns.map fun turn => (utf8 turn.text).length).sum ≤ MAX_CONVERSATION_BYTES
  used : ∀ session < context.sessions.length, ∃ turn ∈ context.turns, turn.session = session
  absent : ∀ turn ∈ context.turns, ∀ id ∈ turn.premises.filterMap unresolvedOf, id ∉ sources.map (·.recordId)

theorem mem_of_nodup_of_length {used : List Nat} (distinct : used.Nodup) (bounded : ∀ index ∈ used, index < count)
    (all : used.length = count) {index : Nat} (small : index < count) : index ∈ used := by
  have subset : used ⊆ List.range count := fun index member => mem_range.mpr (bounded index member)
  have perm := (distinct.subperm subset).perm_of_length_le (by simp [all])
  exact perm.mem_iff.mpr (mem_range.mpr small)

theorem Matches.session_lt (matched : Matches codec sessions sources turn source) : turn.session < sessions.length :=
  (List.getElem?_eq_some_iff.mp matched.session).1

theorem sources_encodes {sources : List ConversationSource}
    (done : context.sources codec = .ok sources) : Encodes codec context sources := by
  unfold ConversationContext.sources at done
  obtain ⟨_, metadata, done⟩ := bind_eq_ok.mp done
  obtain ⟨decoded, read, done⟩ := bind_eq_ok.mp done
  obtain ⟨_, absent, done⟩ := bind_eq_ok.mp done
  obtain ⟨_, final, done⟩ := bind_eq_ok.mp done
  rw [ensure_eq_ok] at metadata absent final
  cases done
  obtain ⟨version, -, count, -, labelled, ascends⟩ := metadata
  obtain ⟨used, digest⟩ := final
  obtain ⟨more, whole, turns, size, fits, distinct, members, -, ordered⟩ := decodeTurns read (by simp)
  rw [nil_append] at whole
  rw [← whole] at turns
  refine ⟨version, digest, count, ?_, pairwise_of_ascending ascends, turns, ordered, ?_, ?_, absent⟩
  · intro session member
    have both := all_eq_true.mp labelled session member
    simpa using both
  · have total := fits (by decide)
    rw [size] at total
    simpa using total
  · intro session small
    have bounded : ∀ index ∈ decoded.used, index < context.sessions.length := by
      intro index member
      rcases (members index).mp member with none | ⟨turn, given, rfl⟩
      · cases none
      · obtain ⟨source, -, matched⟩ := mem_left_of_forall₂ turns given
        exact matched.session_lt
    have member := mem_of_nodup_of_length distinct bounded used small
    rcases (members session).mp member with none | found
    · cases none
    · exact found

/-! ### Encoding the sources of a context -/

theorem Encodes.pairwise_position {context : ConversationContext}
    {sources : List ConversationSource} (encodes : Encodes codec context sources) :
    sources.Pairwise fun a b => position a < position b := by
  refine pairwise_of_forall₂ ?_ encodes.turns encodes.ordered
  intro turn turn' source source' matched matched' earlier
  have small := matched.session_lt
  have small' := matched'.session_lt
  obtain ⟨_, first⟩ := List.getElem?_eq_some_iff.mp matched.session
  obtain ⟨_, second⟩ := List.getElem?_eq_some_iff.mp matched'.session
  simp only [before, Bool.or_eq_true, Bool.and_eq_true, decide_eq_true_eq] at earlier
  unfold position
  rw [Prod.Lex.toLex_lt_toLex, Prod.Lex.toLex_lt_toLex, matched.turnIndex, matched'.turnIndex]
  rcases earlier with less | ⟨same, less⟩
  · have sorted := pairwise_iff_getElem.mp encodes.ascends turn.session turn'.session small small' less
    rw [first, second, Prod.Lex.toLex_lt_toLex] at sorted
    rcases sorted with session | ⟨session, version⟩
    · exact .inl session
    · exact .inr ⟨session, .inl version⟩
  · simp only [same] at first
    rw [first] at second
    simp only [Prod.mk.injEq] at second
    exact .inr ⟨second.1, .inr ⟨second.2, less⟩⟩

theorem pairwise_canonicalOrder (sources : List ConversationSource) :
    (canonicalOrder sources).Pairwise fun a b => position a ≤ position b := by
  have sorted := @pairwise_mergeSort _ (fun a b : ConversationSource => decide (position a ≤ position b))
    (fun a b c first second => by simp only [decide_eq_true_eq] at first second ⊢; exact le_trans first second)
    (fun a b => by simp only [Bool.or_eq_true, decide_eq_true_eq]; exact le_total _ _) sources
  exact sorted.imp fun related => by simpa using related

theorem canonicalOrder_perm (sources : List ConversationSource) : (canonicalOrder sources).Perm sources :=
  mergeSort_perm sources _

theorem canonicalOrder_of_perm (perm : arranged.Perm sources)
    (ordered : sources.Pairwise fun a b => position a < position b) : canonicalOrder arranged = sources := by
  have same := (canonicalOrder_perm arranged).trans perm
  refine List.Perm.eq_of_pairwise ?_ (pairwise_canonicalOrder arranged) (ordered.imp le_of_lt) same
  intro a b left right ab ba
  have equal := le_antisymm ab ba
  have left' := same.mem_iff.mp left
  exact inj_on_of_nodup_map (f := position) (pairwise_map.mpr (ordered.imp ne_of_lt)) left' right equal

/-- The source checks of the encoder, apart from the total of the texts. -/
structure Valid (source : ConversationSource) : Prop where
  session : label source.sessionId = true
  version : label source.version = true
  identifier : label source.sourceId = true
  bounded : source.turnIndex < MAX_CONVERSATION_RECORDS
  short : (utf8 source.text).length ≤ MAX_CONVERSATION_METADATA_BYTES
  few : source.premiseRecordIds.length ≤ 4
  premises : source.premiseRecordIds.all premiseId = true

theorem foldlM_checkSource (sources : List ConversationSource) (valid : ∀ source ∈ sources, Valid source) (bytes : Nat)
    (room : bytes + (sources.map fun source => (utf8 source.text).length).sum ≤ MAX_CONVERSATION_BYTES) :
    ∃ total, sources.foldlM checkSource bytes = .ok total := by
  induction sources generalizing bytes with
  | nil => exact ⟨bytes, rfl⟩
  | cons source sources ih =>
    rw [forall_mem_cons] at valid
    obtain ⟨own, rest⟩ := valid
    rw [map_cons, sum_cons] at room
    have one : checkSource bytes source = .ok (bytes + (utf8 source.text).length) := by
      have fits : bytes + (utf8 source.text).length ≤ MAX_CONVERSATION_BYTES := by omega
      have checks := And.intro own.session (And.intro own.version (And.intro own.identifier (And.intro own.bounded
        (And.intro own.short (And.intro own.few own.premises)))))
      simp only [checkSource, ensure, if_pos fits, if_pos checks, bind, Except.bind]
    rw [foldlM_cons, one]
    exact ih rest _ (by omega)

theorem premises_length (matched : Matches codec sessions sources turn source) :
    source.premiseRecordIds.length ≤ 4 := by
  rw [← matched.premises.length_eq]
  exact matched.few

section

variable (encodes : Encodes codec context sources)
include encodes

theorem Encodes.valid : ∀ source ∈ sources, Valid source := by
  intro source member
  obtain ⟨turn, -, matched⟩ := mem_right_of_forall₂ encodes.turns member
  obtain ⟨session, version⟩ := encodes.labelled _ (mem_of_getElem? matched.session)
  refine ⟨session, version, by rw [matched.sourceId]; exact matched.labelled, by rw [matched.turnIndex]; exact
    matched.bounded, by rw [matched.text]; exact matched.short, premises_length matched, ?_⟩
  rw [all_eq_true]
  intro id given
  obtain ⟨premise, -, names⟩ := mem_right_of_forall₂ matched.premises given
  cases premise with
  | localOrdinal ordinal =>
    obtain ⟨other, found, rfl⟩ := names
    obtain ⟨turn', -, matched'⟩ := mem_right_of_forall₂ encodes.turns (mem_of_getElem? found)
    rw [matched'.recordId]
    exact premiseId_sourceId _ _ _ _ _
  | unresolved own =>
    obtain ⟨rfl, valid⟩ := names
    exact valid

theorem Encodes.total :
    (sources.map fun source => (utf8 source.text).length).sum ≤ MAX_CONVERSATION_BYTES := by
  have same : sources.map (fun source => (utf8 source.text).length) =
      context.turns.map fun turn => (utf8 turn.text).length := by
    have paired := encodes.turns
    generalize context.turns = turns at paired
    have go : ∀ {turns : List ContextTurn} {rest : List ConversationSource},
        List.Forall₂ (Matches codec context.sessions sources) turns rest →
        rest.map (fun source => (utf8 source.text).length) = turns.map fun turn => (utf8 turn.text).length := by
      intro turns rest paired
      induction paired with
      | nil => rfl
      | cons own _ ih => rw [map_cons, map_cons, ih, own.text]
    exact go paired
  rw [same]
  exact encodes.bytes

theorem Encodes.sessions :
    (sources.map identity).toFinset.sort (· ≤ ·) = context.sessions.map toLex := by
  have sorted : (context.sessions.map toLex).Pairwise (· < ·) := pairwise_map.mpr encodes.ascends
  have distinct : (context.sessions.map toLex).Nodup := sorted.imp ne_of_lt
  have same : (sources.map identity).toFinset = (context.sessions.map toLex).toFinset := by
    ext session
    simp only [mem_toFinset, mem_map]
    constructor
    · rintro ⟨source, member, rfl⟩
      obtain ⟨turn, -, matched⟩ := mem_right_of_forall₂ encodes.turns member
      exact ⟨_, mem_of_getElem? matched.session, rfl⟩
    · rintro ⟨pair, member, rfl⟩
      obtain ⟨index, small, rfl⟩ := mem_iff_getElem.mp member
      obtain ⟨turn, given, rfl⟩ := encodes.used index small
      obtain ⟨source, found, matched⟩ := mem_left_of_forall₂ encodes.turns given
      have session := (List.getElem?_eq_some_iff.mp matched.session).2
      exact ⟨source, found, by rw [session]; rfl⟩
  rw [same]
  exact (toFinset_sort _ distinct).mpr (sorted.imp le_of_lt)

end

theorem encodePremise_of_names (distinct : (sources.map (·.recordId)).Nodup) {premise : ContextPremise} {id : String}
    (names : NamesPremise sources premise id)
    (absent : ∀ own, unresolvedOf premise = some own → own ∉ sources.map (·.recordId)) :
    encodePremise sources id = premise := by
  unfold encodePremise
  cases premise with
  | localOrdinal ordinal =>
    obtain ⟨source, found, rfl⟩ := names
    obtain ⟨small, here⟩ := List.getElem?_eq_some_iff.mp found
    have first : (sources.findIdx? fun other => other.recordId = source.recordId) = some ordinal := by
      rw [findIdx?_eq_some_iff_getElem]
      refine ⟨small, by simp [here], ?_⟩
      intro earlier less
      have apart := pairwise_iff_getElem.mp (pairwise_map.mp distinct) earlier ordinal (by omega) small less
      simp only [here] at apart
      simpa using apart
    rw [first]
  | unresolved own =>
    obtain ⟨rfl, -⟩ := names
    have missing := absent own rfl
    have none : (sources.findIdx? fun source => source.recordId = own) = none := by
      rw [findIdx?_eq_none_iff]
      intro source member
      simp only [decide_eq_false_iff_not]
      rintro rfl
      exact missing (mem_map_of_mem member)
    rw [none]

theorem map_encodePremise (distinct : (sources.map (·.recordId)).Nodup)
    (names : List.Forall₂ (NamesPremise sources) premises ids)
    (absent : ∀ id ∈ premises.filterMap unresolvedOf, id ∉ sources.map (·.recordId)) :
    ids.map (encodePremise sources) = premises := by
  induction names with
  | nil => rfl
  | @cons premise id premises ids own _ ih =>
    have here : ∀ given, unresolvedOf premise = some given → given ∉ sources.map (·.recordId) := by
      intro given found
      exact absent given (mem_filterMap.mpr ⟨premise, mem_cons_self, found⟩)
    have later : ∀ id ∈ premises.filterMap unresolvedOf, id ∉ sources.map (·.recordId) := by
      intro given member
      obtain ⟨other, inside, found⟩ := mem_filterMap.mp member
      exact absent given (mem_filterMap.mpr ⟨other, mem_cons_of_mem _ inside, found⟩)
    rw [map_cons, encodePremise_of_names distinct own here, ih later]

theorem Encodes.mapM_encodeTurn (encodes : Encodes codec context sources) (distinct : (sources.map (·.recordId)).Nodup) :
    sources.mapM (encodeTurn codec (context.sessions.map toLex) sources) = .ok context.turns := by
  have sorted : (context.sessions.map toLex).Pairwise (· < ·) := pairwise_map.mpr encodes.ascends
  have unique : (context.sessions.map toLex).Nodup := sorted.imp ne_of_lt
  have each : ∀ turn ∈ context.turns, ∀ source, Matches codec context.sessions sources turn source →
      encodeTurn codec (context.sessions.map toLex) sources source = .ok turn := by
    intro turn member source matched
    have identified : source.recordId =
        sourceId codec source.sessionId source.version source.turnIndex source.sourceId := by
      rw [matched.turnIndex, matched.sourceId, matched.recordId]
    have interned : (context.sessions.map toLex).idxOf (identity source) = turn.session := by
      obtain ⟨small, here⟩ := List.getElem?_eq_some_iff.mp matched.session
      have within : turn.session < (context.sessions.map toLex).length := by simpa using small
      have placed : (context.sessions.map toLex)[turn.session] = identity source := by
        rw [getElem_map, here]
        rfl
      rw [← placed]
      exact unique.idxOf_getElem _ _
    have premises := map_encodePremise distinct matched.premises (encodes.absent turn member)
    unfold encodeTurn
    rw [ensure_eq_ok.mpr identified]
    simp only [bind, Except.bind, interned, premises, matched.turnIndex, matched.sourceId, matched.role, matched.time,
      matched.text]
  apply mapM_eq_ok.mpr
  apply List.Forall₂.flip
  have paired := encodes.turns
  have go : ∀ {turns : List ContextTurn} {rest : List ConversationSource}, (∀ turn ∈ turns, turn ∈ context.turns) →
      List.Forall₂ (Matches codec context.sessions sources) turns rest →
      List.Forall₂ (fun turn source => encodeTurn codec (context.sessions.map toLex) sources source = .ok turn)
        turns rest := by
    intro turns rest inside paired
    induction paired with
    | nil => exact .nil
    | cons own _ ih =>
      rw [forall_mem_cons] at inside
      exact .cons (each _ inside.1 _ own) (ih inside.2)
  exact go (fun _ member => member) paired

theorem fromSourcesInner_of_sources (done : context.sources codec = .ok sources)
    (distinct : (sources.map (·.recordId)).Nodup) (perm : arranged.Perm sources) :
    fromSourcesInner codec arranged = .ok context := by
  have encodes := sources_encodes done
  have count : arranged.length ≤ MAX_CONVERSATION_RECORDS := by
    rw [perm.length_eq, ← encodes.turns.length_eq]
    exact encodes.count
  have room : 0 + (arranged.map fun source => (utf8 source.text).length).sum ≤ MAX_CONVERSATION_BYTES := by
    rw [Nat.zero_add, (perm.map _).sum_eq]
    exact encodes.total
  obtain ⟨total, checked⟩ := foldlM_checkSource arranged
    (fun source member => encodes.valid source (perm.mem_iff.mp member)) 0 room
  have ordered : canonicalOrder arranged = sources := canonicalOrder_of_perm perm encodes.pairwise_position
  have turns := encodes.mapM_encodeTurn distinct
  have same : (⟨1, .unverified, sha256 codec (codec.sources sources), (context.sessions.map toLex).map ofLex,
      context.turns⟩ : ConversationContext) = context := by
    obtain ⟨version, sufficiency, digest, sessions, all⟩ := context
    cases sufficiency
    have one := encodes.version
    have hash := encodes.digest
    simp only at one hash
    simp [one, hash, Function.comp_def]
  simp only [fromSourcesInner, ensure, if_pos count, checked, ordered, encodes.sessions, if_pos distinct, turns, same,
    done, bind, Except.bind]

/-! ### Decoding what was encoded -/

theorem decodePremises_encoded (split : ordered = done ++ rest)
    (read : decodePremises done session version index (ids.map (encodePremise ordered)) last = .ok given) :
    given = ids := by
  have names := decodePremises_eq_ok read
  clear read
  rw [forall₂_map_left_iff] at names
  induction names with
  | nil => rfl
  | @cons id own ids given named _ ih =>
    rw [ih]
    congr 1
    unfold encodePremise at named
    split at named
    · rename_i ordinal found
      obtain ⟨source, here, rfl⟩ := named
      obtain ⟨small, matched, -⟩ := findIdx?_eq_some_iff_getElem.mp found
      have placed : ordered[ordinal]? = some source := by
        rw [split, getElem?_append_left (List.getElem?_eq_some_iff.mp here).1, here]
      rw [getElem?_eq_getElem small, Option.some.injEq] at placed
      rw [placed] at matched
      simpa using matched
    · exact named.1.symm

theorem decode_encoded (split : ordered = done ++ rest) (interned : ∀ source ∈ rest, identity source ∈ sessions)
    (encoded : List.Forall₂ (fun source turn => encodeTurn codec sessions ordered source = .ok turn) rest turns)
    (sofar : state.sources = done) (decoded : turns.foldlM (decodeTurn codec (sessions.map ofLex)) state = .ok after) :
    after.sources = ordered := by
  induction encoded generalizing done state with
  | nil =>
    cases decoded
    rw [sofar, split, append_nil]
  | @cons source turn rest turns own _ ih =>
    rw [foldlM_cons] at decoded
    obtain ⟨middle, one, later⟩ := bind_eq_ok.mp decoded
    rw [forall_mem_cons] at interned
    unfold encodeTurn at own
    obtain ⟨_, identified, own⟩ := bind_eq_ok.mp own
    rw [ensure_eq_ok] at identified
    cases own
    have session : (sessions.map ofLex)[sessions.idxOf (identity source)]? = some (source.sessionId, source.version) := by
      rw [getElem?_map, getElem?_idxOf interned.1]
      rfl
    have added : middle.sources = done ++ [source] := by
      unfold decodeTurn at one
      rw [session] at one
      obtain ⟨_, -, one⟩ := bind_eq_ok.mp one
      obtain ⟨_, -, one⟩ := bind_eq_ok.mp one
      obtain ⟨premises, read, one⟩ := bind_eq_ok.mp one
      obtain ⟨_, -, one⟩ := bind_eq_ok.mp one
      cases one
      rw [sofar] at read ⊢
      have same := decodePremises_encoded split read
      simp only [same, ← identified]
    exact ih (by rw [split, append_assoc, singleton_append]) interned.2 added later

theorem sources_of_fromSourcesInner (done : fromSourcesInner codec sources = .ok context) :
    context.sources codec = .ok (canonicalOrder sources) := by
  unfold fromSourcesInner at done
  iterate 3 obtain ⟨_, -, done⟩ := bind_eq_ok.mp done
  obtain ⟨turns, encoded, done⟩ := bind_eq_ok.mp done
  obtain ⟨decoded, read, done⟩ := bind_eq_ok.mp done
  cases done
  rw [read]
  congr 1
  unfold ConversationContext.sources at read
  obtain ⟨_, -, read⟩ := bind_eq_ok.mp read
  obtain ⟨state, folded, read⟩ := bind_eq_ok.mp read
  obtain ⟨_, -, read⟩ := bind_eq_ok.mp read
  obtain ⟨_, -, read⟩ := bind_eq_ok.mp read
  cases read
  have split : canonicalOrder sources = [] ++ canonicalOrder sources := rfl
  refine decode_encoded split ?_ (mapM_eq_ok.mp encoded) rfl folded
  intro source member
  rw [Finset.mem_sort, mem_toFinset]
  exact mem_map_of_mem member

theorem fromJson_eq_ok (done : fromJson codec bytes = .ok context) : ∃ sources, context.sources codec = .ok sources := by
  unfold fromJson at done
  obtain ⟨_, -, done⟩ := bind_eq_ok.mp done
  split at done
  · obtain ⟨sources, read, done⟩ := bind_eq_ok.mp done
    cases done
    exact ⟨sources, read⟩
  · cases done

theorem fromJson_toVec (lossless : codec.Lossless) (read : context.sources codec = .ok sources)
    (fits : (codec.toVec context).length ≤ MAX_CONVERSATION_BYTES) :
    fromJson codec (codec.toVec context) = .ok context := by
  simp only [fromJson, ensure, if_pos fits, lossless context, read, bind, Except.bind]

/-- The encoding is canonical: an accepted list decodes to itself in order, and its frame reads back
when it fits the limit; an accepted frame is the one encoding of its sources, however arranged, when
no two of them hash to one record id. -/
theorem context_canonical (lossless : codec.Lossless) :
    (∀ sources context, fromSourcesInner codec sources = .ok context →
      context.sources codec = .ok (canonicalOrder sources) ∧ (canonicalOrder sources).Perm sources ∧
        (canonicalOrder sources).Pairwise (fun a b => position a < position b) ∧
        ((codec.toVec context).length ≤ MAX_CONVERSATION_BYTES → fromJson codec (codec.toVec context) = .ok context)) ∧
    ∀ bytes context, fromJson codec bytes = .ok context → ∃ sources, context.sources codec = .ok sources ∧
      ((sources.map (·.recordId)).Nodup → fromSourcesInner codec sources = .ok context ∧
        ∀ bytes' context' sources', fromJson codec bytes' = .ok context' → context'.sources codec = .ok sources' →
          sources'.Perm sources → context' = context) := by
  constructor
  · intro sources context done
    have read := sources_of_fromSourcesInner done
    exact ⟨read, canonicalOrder_perm sources, (sources_encodes read).pairwise_position, fromJson_toVec lossless read⟩
  · intro bytes context done
    obtain ⟨sources, read⟩ := fromJson_eq_ok done
    refine ⟨sources, read, ?_⟩
    intro distinct
    refine ⟨fromSourcesInner_of_sources read distinct (.refl sources), ?_⟩
    intro bytes' context' sources' _ read' perm
    have distinct' : (sources'.map (·.recordId)).Nodup := (perm.map _).nodup_iff.mpr distinct
    have own := fromSourcesInner_of_sources read distinct perm
    have other := fromSourcesInner_of_sources read' distinct' (.refl sources')
    rw [own] at other
    cases other
    rfl

end Warm.Conversation
