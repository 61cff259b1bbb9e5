import Warm.Ingest
import Warm.Checked

/-! The chunks of a document as windows of words: the scan for words over the bytes of an ASCII text or the
characters of any other, and the loop that cuts the words into overlapping windows. -/
namespace Warm.Ingest

open List hiding after all head length min span

open Binary
open Option (getD_none getD_some)

/-! ### The scan -/

/-- The closure over the scan's state: where the word under way starts, and the words so far. -/
def boundary (state : Option Nat × List (Nat × Nat)) (event : Nat × Bool) : Option Nat × List (Nat × Nat) :=
  if event.2 then
    match state.1 with
    | some s => (none, state.2 ++ [(s, event.1)])
    | none => state
  else
    match state.1 with
    | some _ => state
    | none => (some event.1, state.2)

/-- The words between the events' boundaries, the last of which ends with the text. -/
def scan (events : List (Nat × Bool)) (length : Nat) : List (Nat × Nat) :=
  let (start, words) := events.foldl boundary (none, [])
  match start with
  | some s => words ++ [(s, length)]
  | none => words

/-- Each byte with whether it is ASCII whitespace. -/
def byteEvents (text : String) : List (Nat × Bool) :=
  (utf8 text).zipIdx.map fun (b, i) => (i, b == 0x20 || (decide (0x09 ≤ b) && decide (b ≤ 0x0D)))

/-- `char_indices`, from byte `i` on. -/
def charIndices (i : Nat) : List Char → List (Nat × Char)
  | [] => []
  | c :: chars => (i, c) :: charIndices (i + c.utf8Size) chars

def charEvents (text : String) : List (Nat × Bool) := (charIndices 0 text.toList).map fun (i, c) => (i, isWhitespace c)

def isAscii (text : String) : Bool := (utf8 text).all fun b => decide (b < 0x80)

def scanWords (text : String) : List (Nat × Nat) :=
  if isAscii text then scan (byteEvents text) text.utf8ByteSize else scan (charEvents text) text.utf8ByteSize

/-- `chunk_spans`, with the scan as it branches on the text. -/
def chunkSpansScanned (input : DocumentInput) : Except String (List (UInt32 × UInt32)) := do
  validateDocumentSource input
  let size := (input.chunkWords.map UInt32.toNat).getD 256
  let overlap := (input.overlapWords.map UInt32.toNat).getD (min 32 (size - 1))
  if bounds : (size ≥ 1 ∧ size ≤ 4096) ∧ overlap < size then do
    let words := scanWords input.text
    ensure (words ≠ []) "document must contain text"
    cutChunks words size overlap bounds.2 0 0
  else .error "chunkWords must be 1..=4096 and overlapWords smaller than chunkWords"

def byteSize (chars : List Char) : Nat := (chars.map Char.utf8Size).sum

theorem scan_charIndices (start : Option Nat) (words : List (Nat × Nat)) (i : Nat) (chars : List Char) :
    (match ((charIndices i chars).map fun (i, c) => (i, isWhitespace c)).foldl boundary (start, words) with
      | (some s, words) => words ++ [(s, i + byteSize chars)]
      | (none, words) => words) = words ++ wordSpans start i chars := by
  induction chars generalizing start words i with
  | nil => cases start <;> simp [charIndices, wordSpans, byteSize]
  | cons c chars ih =>
    have total : i + byteSize (c :: chars) = i + c.utf8Size + byteSize chars := by
      rw [byteSize, map_cons, sum_cons, Nat.add_assoc]
      rfl
    rw [charIndices, map_cons, foldl_cons, wordSpans, total]
    cases space : isWhitespace c <;> cases start <;> simp [boundary, ih, space]

theorem utf8_toList (text : String) : utf8 text = text.toList.flatMap String.utf8EncodeChar := by
  conv_lhs => rw [← String.ofList_toList (s := text), utf8_ofList]

theorem utf8ByteSize_eq (text : String) : text.utf8ByteSize = byteSize text.toList := by
  rw [← utf8_length, utf8_toList, length_flatMap, byteSize]
  exact congrArg List.sum (map_congr_left fun c _ => String.length_utf8EncodeChar c)

theorem scan_charEvents (text : String) : scan (charEvents text) text.utf8ByteSize = wordSpans none 0 text.toList := by
  have found := scan_charIndices none [] 0 text.toList
  rw [Nat.zero_add, ← utf8ByteSize_eq, nil_append] at found
  rw [← found, scan, charEvents]
  generalize List.foldl boundary (none, []) _ = state
  rcases state with ⟨_ | s, words⟩
  · rfl
  · rfl

theorem encode_of_ascii (ascii : ∀ b ∈ String.utf8EncodeChar c, b < 0x80) :
    c.toNat ≤ 0x7f ∧ String.utf8EncodeChar c = [UInt8.ofNat c.toNat] := by
  unfold String.utf8EncodeChar at ascii ⊢
  dsimp only at ascii ⊢
  split at ascii
  next small =>
    rw [if_pos small]
    exact ⟨small, rfl⟩
  next =>
    exfalso
    split at ascii
    · have first := UInt8.lt_iff_toNat_lt.mp (ascii _ mem_cons_self)
      rw [UInt8.toNat_ofNat'] at first
      change _ < 128 at first
      omega
    · split at ascii
      · have first := UInt8.lt_iff_toNat_lt.mp (ascii _ mem_cons_self)
        rw [UInt8.toNat_ofNat'] at first
        change _ < 128 at first
        omega
      · have first := UInt8.lt_iff_toNat_lt.mp (ascii _ mem_cons_self)
        rw [UInt8.toNat_ofNat'] at first
        change _ < 128 at first
        omega

theorem isWhitespace_ascii (small : c.toNat ≤ 0x7f) :
    (UInt8.ofNat c.toNat == 0x20 || (decide (0x09 ≤ UInt8.ofNat c.toNat) && decide (UInt8.ofNat c.toNat ≤ 0x0D))) =
      isWhitespace c := by
  have each : ∀ n < 128, (UInt8.ofNat n == 0x20 || (decide (0x09 ≤ UInt8.ofNat n) && decide (UInt8.ofNat n ≤ 0x0D))) =
      ((9 ≤ n && n ≤ 13) || n == 0x20 || n == 0x85 || n == 0xA0 || n == 0x1680 || (0x2000 ≤ n && n ≤ 0x200A) ||
        n == 0x2028 || n == 0x2029 || n == 0x202F || n == 0x205F || n == 0x3000) := by decide
  exact each c.toNat (by omega)

theorem byteEvents_from (i : Nat) (ascii : ∀ b ∈ chars.flatMap String.utf8EncodeChar, b < 0x80) :
    ((chars.flatMap String.utf8EncodeChar).zipIdx i).map
        (fun (b, i) => (i, b == 0x20 || (decide (0x09 ≤ b) && decide (b ≤ 0x0D)))) =
      (charIndices i chars).map fun (i, c) => (i, isWhitespace c) := by
  induction chars generalizing i with
  | nil => rfl
  | cons c chars ih =>
    rw [flatMap_cons, forall_mem_append] at ascii
    obtain ⟨small, encoded⟩ := encode_of_ascii ascii.1
    have one : c.utf8Size = 1 := by
      rw [← String.length_utf8EncodeChar, encoded]
      rfl
    rw [flatMap_cons, encoded, singleton_append, zipIdx_cons, map_cons, ih (i + 1) ascii.2,
      charIndices, map_cons, one]
    dsimp only
    rw [isWhitespace_ascii small]

theorem byteEvents_eq (ascii : isAscii text = true) : byteEvents text = charEvents text := by
  rw [isAscii, all_eq_true] at ascii
  rw [byteEvents, charEvents, utf8_toList]
  refine byteEvents_from 0 fun b member => ?_
  rw [← utf8_toList] at member
  exact of_decide_eq_true (ascii b member)

theorem scanWords_eq (text : String) : scanWords text = wordSpans none 0 text.toList := by
  unfold scanWords
  split
  next ascii => rw [byteEvents_eq ascii, scan_charEvents]
  next => exact scan_charEvents text

/-! ### Words -/

/-- A byte offset between two characters. -/
def IsBoundary (chars : List Char) (at_ : Nat) : Prop := ∃ front back, chars = front ++ back ∧ at_ = byteSize front

/-- A longest run of characters that are not whitespace, as its bytes. -/
def IsWord (chars : List Char) (span : Nat × Nat) : Prop :=
  ∃ before own after, chars = before ++ own ++ after ∧ own ≠ [] ∧ (∀ c ∈ own, isWhitespace c = false) ∧
    (∀ c, before.getLast? = some c → isWhitespace c = true) ∧ (∀ c, after.head? = some c → isWhitespace c = true) ∧
    span = (byteSize before, byteSize (before ++ own))

theorem byteSize_append (front back : List Char) : byteSize (front ++ back) = byteSize front + byteSize back := by
  rw [byteSize, map_append, sum_append, byteSize, byteSize]

theorem byteSize_singleton (c : Char) : byteSize [c] = c.utf8Size := Nat.add_zero _

/-- The scan stands behind `done` and the word under way. -/
structure Under (start : Option Nat) (done opened : List Char) : Prop where
  apart : ∀ c, done.getLast? = some c → isWhitespace c = true
  own : ∀ c ∈ opened, isWhitespace c = false
  start : start = if opened = [] then none else some (byteSize done)

theorem Under.isWord {start : Option Nat} (under : Under start done opened)
    (ended : ∀ c, after.head? = some c → isWhitespace c = true) :
    ∀ span ∈ (start.map fun s => (s, byteSize (done ++ opened))).toList, IsWord (done ++ opened ++ after) span := by
  intro span member
  rw [under.start] at member
  split at member
  · cases member
  next some_ =>
    obtain rfl := mem_singleton.mp member
    exact ⟨done, opened, after, rfl, some_, under.own, under.apart, ended, rfl⟩

theorem wordSpans_isWord {start : Option Nat} (under : Under start done opened) (chars : List Char) :
    ∀ span ∈ wordSpans start (byteSize (done ++ opened)) chars, IsWord (done ++ opened ++ chars) span := by
  induction chars generalizing start done opened with
  | nil => exact under.isWord fun c none => by cases none
  | cons c chars ih =>
    rw [wordSpans]
    have size : byteSize (done ++ opened) + c.utf8Size = byteSize (done ++ opened ++ [c]) := by
      rw [byteSize_append _ [c], byteSize_singleton]
    have whole : done ++ opened ++ c :: chars = done ++ opened ++ [c] ++ chars := by
      rw [append_assoc _ [c], singleton_append]
    split
    next space =>
      intro span member
      rcases mem_append.mp member with member | member
      · have ended : ∀ d, (c :: chars).head? = some d → isWhitespace d = true := fun d head => Option.some.inj head ▸ space
        exact under.isWord ended span member
      · have next : Under none (done ++ opened ++ [c]) [] :=
          ⟨fun d last => by
            rw [getLast?_concat] at last
            exact Option.some.inj last ▸ space, forall_mem_nil _, rfl⟩
        have found := ih next span (by rw [append_nil, ← size]; exact member)
        rwa [append_nil, ← whole] at found
    next letter =>
      intro span member
      have next : Under (some (start.getD (byteSize (done ++ opened)))) done (opened ++ [c]) := by
        refine ⟨under.apart, fun d member => ?_, ?_⟩
        · rcases mem_append.mp member with member | member
          · exact under.own d member
          · rw [mem_singleton.mp member]
            simpa using letter
        · rw [if_neg (by simp), under.start]
          split
          next none => rw [none, append_nil, getD_none]
          next => rfl
      have found := ih next span (by rw [← append_assoc, ← size]; exact member)
      rwa [← append_assoc, ← whole] at found

theorem wordSpans_ordered (before : ∀ s, start = some s → s < i) (chars : List Char) :
    (wordSpans start i chars).Pairwise (fun a b => a.2 < b.1) ∧
      ∀ span ∈ wordSpans start i chars, start.getD i ≤ span.1 ∧ span.1 < span.2 := by
  induction chars generalizing start i with
  | nil =>
    cases start with
    | none => exact ⟨.nil, forall_mem_nil _⟩
    | some s =>
      refine ⟨pairwise_singleton _ _, fun span member => ?_⟩
      rw [mem_singleton.mp member]
      exact ⟨le_rfl, before s rfl⟩
  | cons c chars ih =>
    have positive := c.utf8Size_pos
    rw [wordSpans]
    split
    · obtain ⟨ordered, bounds⟩ := @ih none (i + c.utf8Size) fun _ none => by cases none
      rw [getD_none] at bounds
      cases start with
      | none => exact ⟨ordered, fun span member => ⟨(Nat.le_add_right i _).trans (bounds span member).1,
          (bounds span member).2⟩⟩
      | some s =>
        have less := before s rfl
        refine ⟨pairwise_cons.mpr ⟨fun span member => ?_, ordered⟩, fun span member => ?_⟩
        · exact Nat.lt_of_lt_of_le (by dsimp only; omega) (bounds span member).1
        · rcases mem_cons.mp member with rfl | member
          · exact ⟨le_rfl, less⟩
          · have := bounds span member
            rw [getD_some]
            exact ⟨by omega, this.2⟩
    · have next : ∀ s, some (start.getD i) = some s → s < i + c.utf8Size := by
        rintro s same
        cases same
        cases start with
        | none => rw [getD_none]; omega
        | some s =>
          have := before s rfl
          rw [getD_some]
          omega
      exact ih next

theorem wordSpans_opened (s i : Nat) (chars : List Char) : ∃ e, (s, e) ∈ wordSpans (some s) i chars ∧ i ≤ e := by
  induction chars generalizing i with
  | nil => exact ⟨i, mem_singleton_self _, le_rfl⟩
  | cons c chars ih =>
    rw [wordSpans]
    split
    · exact ⟨i, mem_append_left _ (mem_singleton_self _), le_rfl⟩
    · obtain ⟨e, member, later⟩ := ih (i + c.utf8Size)
      exact ⟨e, member, by omega⟩

theorem wordSpans_cover {start : Option Nat} {i : Nat} (before : ∀ s, start = some s → s ≤ i) {front back : List Char}
    {c : Char} (letter : isWhitespace c = false) :
    ∃ span ∈ wordSpans start i (front ++ c :: back),
      span.1 ≤ i + byteSize front ∧ i + byteSize front + c.utf8Size ≤ span.2 := by
  induction front generalizing start i with
  | nil =>
    obtain ⟨e, member, later⟩ := wordSpans_opened (start.getD i) (i + c.utf8Size) back
    refine ⟨(start.getD i, e), ?_, ?_, later⟩
    · rw [nil_append, wordSpans, if_neg (by rw [letter]; decide)]
      exact member
    · cases start with
      | none => exact le_rfl
      | some s => exact before s rfl
  | cons d front ih =>
    have total : i + byteSize (d :: front) = i + d.utf8Size + byteSize front := by
      rw [byteSize, map_cons, sum_cons, ← Nat.add_assoc]
      rfl
    rw [total, cons_append, wordSpans]
    split
    · obtain ⟨span, member, place⟩ := @ih none (i + d.utf8Size) fun _ none => by cases none
      exact ⟨span, mem_append_right _ member, place⟩
    · refine ih ?_
      rintro s same
      cases same
      cases start with
      | none => rw [getD_none]; omega
      | some s =>
        have := before s rfl
        rw [getD_some]
        omega

/-! ### Windows -/

/-- The spans of the windows of `size` words that start every `step` words from `word` on, up to the first that
reaches the last word. -/
structure Windows (words : List (Nat × Nat)) (size step word : Nat) (spans : List (UInt32 × UInt32)) : Prop where
  some_ : 0 < spans.length
  each : ∀ i span, spans[i]? = some span → word + i * step < words.length ∧
    span = (.ofNat (words.getD (word + i * step) (0, 0)).1,
      .ofNat (words.getD (min (word + i * step + size) words.length - 1) (0, 0)).2)
  more : ∀ i, i + 1 < spans.length → word + i * step + size < words.length
  last : words.length ≤ word + (spans.length - 1) * step + size

theorem cutChunks_windows (advances : overlap < size)
    (made : cutChunks words size overlap advances cut word = .ok spans) (inside : word < words.length) :
    Windows words size (size - overlap) word spans := by
  induction left : words.length - word using Nat.strongRecOn generalizing cut word spans with
  | ind left ih =>
    rw [cutChunks, dif_pos inside] at made
    obtain ⟨_, _, made⟩ := bind_eq_ok.mp made
    obtain ⟨_, _, made⟩ := bind_eq_ok.mp made
    split at made
    next reached =>
      cases made
      refine ⟨Nat.one_pos, fun i span found => ?_, fun i more => absurd more (by simp), ?_⟩
      · cases i with
        | zero =>
          cases found
          rw [Nat.zero_mul, Nat.add_zero]
          exact ⟨inside, rfl⟩
        | succ i => cases found
      · rw [length_singleton, Nat.sub_self, Nat.zero_mul]
        omega
    next short =>
      obtain ⟨rest, own, same⟩ := bind_eq_ok.mp made
      cases same
      have further : word + size < words.length := by omega
      have windows := ih (words.length - (word + (size - overlap))) (by omega) own (by omega) rfl
      have shift (i : Nat) : word + (i + 1) * (size - overlap) = word + (size - overlap) + i * (size - overlap) := by
        rw [Nat.succ_mul]
        omega
      have positive := windows.some_
      refine ⟨Nat.succ_pos _, fun i span found => ?_, fun i more => ?_, ?_⟩
      · cases i with
        | zero =>
          cases found
          rw [Nat.zero_mul, Nat.add_zero]
          exact ⟨inside, rfl⟩
        | succ i =>
          rw [shift]
          exact windows.each i span found
      · cases i with
        | zero =>
          rw [Nat.zero_mul, Nat.add_zero]
          exact further
        | succ i =>
          rw [shift]
          exact windows.more i (Nat.lt_of_succ_lt_succ more)
      · have final := windows.last
        rw [← shift, Nat.sub_add_cancel positive] at final
        exact final

theorem Windows.covered (windows : Windows words size step 0 spans) (advances : 0 < step) (within : step ≤ size)
    (inside : w < words.length) : ∃ i < spans.length, i * step ≤ w ∧ w < i * step + size := by
  have some_ := windows.some_
  have final := windows.last
  rw [Nat.zero_add] at final
  have start := Nat.div_mul_le_self w step
  have behind := Nat.lt_div_mul_add advances (a := w)
  rcases Nat.lt_or_ge (w / step) spans.length with early | late
  · exact ⟨w / step, early, start, by omega⟩
  · refine ⟨spans.length - 1, by omega, ?_, by omega⟩
    exact (Nat.mul_le_mul_right step (by omega : spans.length - 1 ≤ w / step)).trans start

/-- The chunks of a text: windows of its words as byte ranges between characters. -/
structure Chunked (chars : List Char) (words : List (Nat × Nat)) (size overlap : Nat) (spans : List (UInt32 × UInt32)) :
    Prop where
  some_ : 0 < spans.length
  each : ∀ i span, spans[i]? = some span → ∃ first last, words[i * (size - overlap)]? = some first ∧
    words[min (i * (size - overlap) + size) words.length - 1]? = some last ∧
      span.1.toNat = first.1 ∧ span.2.toNat = last.2
  more : ∀ i, i + 1 < spans.length → i * (size - overlap) + size < words.length
  last : words.length ≤ (spans.length - 1) * (size - overlap) + size
  boundaries : ∀ span ∈ spans, IsBoundary chars span.1.toNat ∧ IsBoundary chars span.2.toNat ∧ span.1 < span.2
  covered : ∀ word ∈ words, ∃ span ∈ spans, span.1.toNat ≤ word.1 ∧ word.2 ≤ span.2.toNat
  increasing : (spans.map Prod.fst).Pairwise (· < ·)

/-- The words of a text are its longest runs of characters that are not whitespace, in order and all of them. -/
structure Words (text : String) (words : List (Nat × Nat)) : Prop where
  each : ∀ word ∈ words, IsWord text.toList word
  ordered : words.Pairwise fun a b => a.2 < b.1
  all : ∀ front c back, text.toList = front ++ c :: back → isWhitespace c = false →
    ∃ word ∈ words, word.1 ≤ byteSize front ∧ byteSize front + c.utf8Size ≤ word.2

theorem words_wordSpans (text : String) : Words text (wordSpans none 0 text.toList) where
  each := by
    have under : Under none [] [] := ⟨fun _ none => (by cases none), forall_mem_nil _, rfl⟩
    have found := wordSpans_isWord under text.toList
    rwa [append_nil, nil_append] at found
  ordered := (wordSpans_ordered (fun _ none => by cases none) text.toList).1
  all front c back whole letter := by
    have found := @wordSpans_cover none 0 (fun _ none => by cases none) front back c letter
    rwa [← whole, Nat.zero_add] at found

theorem IsWord.boundaries (own : IsWord chars word) :
    IsBoundary chars word.1 ∧ IsBoundary chars word.2 ∧ word.1 < word.2 ∧ word.2 ≤ byteSize chars := by
  obtain ⟨before, letters, after, rfl, some_, _, _, _, rfl⟩ := own
  obtain ⟨c, rest, rfl⟩ := exists_cons_of_ne_nil some_
  refine ⟨⟨before, c :: rest ++ after, append_assoc _ _ _, rfl⟩, ⟨before ++ c :: rest, after, rfl, rfl⟩, ?_, ?_⟩
  · have positive := c.utf8Size_pos
    rw [byteSize_append, byteSize, byteSize, map_cons, sum_cons]
    omega
  · dsimp only
    rw [byteSize_append (before ++ c :: rest)]
    exact Nat.le_add_right _ _

theorem Words.monotone {words : List (Nat × Nat)} (own : Words text words) {i j : Nat} {a b : Nat × Nat}
    (first : words[i]? = some a) (second : words[j]? = some b) (le : i ≤ j) : a.1 ≤ b.1 ∧ a.2 ≤ b.2 := by
  rcases Nat.lt_or_eq_of_le le with less | rfl
  · obtain ⟨insideI, rfl⟩ := List.getElem?_eq_some_iff.mp first
    obtain ⟨insideJ, rfl⟩ := List.getElem?_eq_some_iff.mp second
    have apart := pairwise_iff_getElem.mp own.ordered i j insideI insideJ less
    have widthI := (own.each _ (getElem_mem insideI)).boundaries.2.2.1
    have widthJ := (own.each _ (getElem_mem insideJ)).boundaries.2.2.1
    omega
  · cases first.symm.trans second
    exact ⟨le_rfl, le_rfl⟩

theorem Windows.span_eq (own : Words text words) (small : text.utf8ByteSize ≤ MAX_DOCUMENT_BYTES)
    (windows : Windows words size step 0 spans) (found : spans[i]? = some span) :
    ∃ first last, words[i * step]? = some first ∧ words[min (i * step + size) words.length - 1]? = some last ∧
      span.1.toNat = first.1 ∧ span.2.toNat = last.2 := by
  have limit : MAX_DOCUMENT_BYTES < 2 ^ 32 := by decide
  rw [utf8ByteSize_eq] at small
  obtain ⟨inside, rfl⟩ := windows.each i span found
  rw [Nat.zero_add] at inside
  have inside' : min (i * step + size) words.length - 1 < words.length := by omega
  have bound {word : Nat × Nat} (member : word ∈ words) : word.1 < 2 ^ 32 ∧ word.2 < 2 ^ 32 := by
    have place := (own.each word member).boundaries
    omega
  refine ⟨words[i * step], words[min (i * step + size) words.length - 1], getElem?_eq_getElem inside,
    getElem?_eq_getElem inside', ?_, ?_⟩
  · dsimp only
    rw [Nat.zero_add, getD_eq_getElem?_getD, getElem?_eq_getElem inside, getD_some]
    exact UInt32.toNat_ofNat_of_lt' (bound (getElem_mem inside)).1
  · dsimp only
    rw [Nat.zero_add, getD_eq_getElem?_getD, getElem?_eq_getElem inside', getD_some]
    exact UInt32.toNat_ofNat_of_lt' (bound (getElem_mem inside')).2

theorem Windows.chunked {words : List (Nat × Nat)} {size overlap : Nat} {spans : List (UInt32 × UInt32)}
    (own : Words text words) (advances : overlap < size) (small : text.utf8ByteSize ≤ MAX_DOCUMENT_BYTES)
    (windows : Windows words size (size - overlap) 0 spans) : Chunked text.toList words size overlap spans where
  some_ := windows.some_
  each i span found := windows.span_eq own small found
  more i next := by
    have short := windows.more i next
    rwa [Nat.zero_add] at short
  last := by
    have final := windows.last
    rwa [Nat.zero_add] at final
  boundaries span member := by
    obtain ⟨i, found⟩ := getElem?_of_mem member
    obtain ⟨first, last, start, stop, same, same'⟩ := windows.span_eq own small found
    have inside := (List.getElem?_eq_some_iff.mp start).1
    have ordered := own.monotone start stop (by omega)
    have front := (own.each first (mem_of_getElem? start)).boundaries
    have back := (own.each last (mem_of_getElem? stop)).boundaries
    rw [UInt32.lt_iff_toNat_lt, same, same']
    exact ⟨front.1, back.2.1, by omega⟩
  covered word member := by
    obtain ⟨w, found⟩ := getElem?_of_mem member
    have inside := (List.getElem?_eq_some_iff.mp found).1
    obtain ⟨i, within, lower, upper⟩ := windows.covered (by omega) (Nat.sub_le _ _) inside
    obtain ⟨first, last, start, stop, same, same'⟩ :=
      windows.span_eq own small (getElem?_eq_getElem within)
    refine ⟨spans[i], getElem_mem within, ?_, ?_⟩
    · rw [same]
      exact (own.monotone start found lower).1
    · rw [same']
      exact (own.monotone found stop (by omega)).2
  increasing := by
    rw [pairwise_map, pairwise_iff_getElem]
    intro i j insideI insideJ less
    obtain ⟨first, _, start, _, same, _⟩ :=
      windows.span_eq own small (getElem?_eq_getElem insideI)
    obtain ⟨second, _, start', _, same', _⟩ :=
      windows.span_eq own small (getElem?_eq_getElem insideJ)
    obtain ⟨placeI, rfl⟩ := List.getElem?_eq_some_iff.mp start
    obtain ⟨placeJ, rfl⟩ := List.getElem?_eq_some_iff.mp start'
    have further : i * (size - overlap) < j * (size - overlap) := Nat.mul_lt_mul_of_pos_right less (by omega)
    have apart := pairwise_iff_getElem.mp own.ordered _ _ placeI placeJ further
    have width := (own.each _ (getElem_mem placeI)).boundaries.2.2.1
    rw [UInt32.lt_iff_toNat_lt, same, same']
    omega

/-- Whatever the chunk size and the overlap, the chunks are the windows of the text's words, found by either scan. -/
theorem chunkSpans_windows (input : DocumentInput) (spans : List (UInt32 × UInt32))
    (accepted : chunkSpansScanned input = .ok spans) :
    Words input.text (scanWords input.text) ∧
      Chunked input.text.toList (scanWords input.text) ((input.chunkWords.map UInt32.toNat).getD 256)
        ((input.overlapWords.map UInt32.toNat).getD (min 32 ((input.chunkWords.map UInt32.toNat).getD 256 - 1))) spans ∧
      (isAscii input.text = true →
        scan (byteEvents input.text) input.text.utf8ByteSize = scan (charEvents input.text) input.text.utf8ByteSize) := by
  refine ⟨by rw [scanWords_eq]; exact words_wordSpans input.text, ?_, fun ascii => by rw [byteEvents_eq ascii]⟩
  unfold chunkSpansScanned at accepted
  obtain ⟨_, sourced, accepted⟩ := bind_eq_ok.mp accepted
  obtain ⟨_, _, sourced⟩ := bind_eq_ok.mp sourced
  have small : input.text.utf8ByteSize ≤ MAX_DOCUMENT_BYTES := by
    by_contra large
    rw [ensure, if_neg large] at sourced
    cases sourced
  dsimp only at accepted
  split at accepted
  next bounds =>
    obtain ⟨_, some_, made⟩ := bind_eq_ok.mp accepted
    have words : scanWords input.text ≠ [] := by
      intro none
      rw [ensure, if_neg (not_not.mpr none)] at some_
      cases some_
    have windows := cutChunks_windows bounds.2 made (length_pos_iff.mpr words)
    exact windows.chunked (by rw [scanWords_eq]; exact words_wordSpans input.text) bounds.2 small
  next => cases accepted

def threeWords : DocumentInput :=
  ⟨"note", "a b c", none, none, none, some 2, some 1, none, none, none⟩

theorem chunkSpansScanned_threeWords : chunkSpansScanned threeWords = .ok [(0, 3), (2, 5)] := by
  have words : scanWords threeWords.text = [(0, 1), (2, 3), (4, 5)] := by decide
  have second : cutChunks [(0, 1), (2, 3), (4, 5)] 2 1 (by decide) 1 1 = .ok [(2, 5)] := by
    rw [cutChunks]
    rfl
  have first : cutChunks [(0, 1), (2, 3), (4, 5)] 2 1 (by decide) 0 0 = .ok [(0, 3), (2, 5)] := by
    rw [cutChunks, dif_pos (by decide)]
    rw [second]
    rfl
  rw [chunkSpansScanned, words]
  exact first

theorem chunkSpans_windows_threeWords :
    chunkSpansScanned threeWords = .ok [(0, 3), (2, 5)] ∧
      Chunked threeWords.text.toList (scanWords threeWords.text) 2 1 [(0, 3), (2, 5)] :=
  ⟨chunkSpansScanned_threeWords, (chunkSpans_windows threeWords _ chunkSpansScanned_threeWords).2.1⟩

end Warm.Ingest
