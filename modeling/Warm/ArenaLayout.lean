import Warm.ArenaReplay
import Warm.Checked

/-! Where the frames of an arena lie, and which of them lie between two offsets. -/
namespace Warm.Arena

open Bytes Journal List

variable {codec : Codec} {format : Format} {arena : Arena} {segments : List (List Frame)}

def placedSegment (codec : Codec) (start : Nat) : List Frame → List (Nat × Frame)
  | [] => []
  | frame :: frames => (start, frame) :: placedSegment codec (start + (frame.encode codec).length) frames

def placedFrom (codec : Codec) (format : Format) (index : Nat) : List (List Frame) → List (Nat × Frame)
  | [] => []
  | frames :: later => placedSegment codec (index * format.segmentSize) frames ++ placedFrom codec format (index + 1) later

/-- The payloads of the frames that lie in `[cursor, stop)`, in order. -/
def framesIn (codec : Codec) (format : Format) (segments : List (List Frame)) (cursor stop : Nat) : List Bytes :=
  ((placedFrom codec format 0 segments).filter (fun placed => decide (cursor ≤ placed.1 ∧ placed.1 < stop))).map (·.2.data)

/-- A place in a log: behind the frames `before` of a segment. -/
structure Place (codec : Codec) (format : Format) (segments : List (List Frame)) (passed : List (List Frame))
    (before after : List Frame) (later : List (List Frame)) (offset : Nat) : Prop where
  segments : segments = passed ++ (before ++ after) :: later
  offset : offset = passed.length * format.segmentSize + (logBytes codec before).length

def Boundary (codec : Codec) (format : Format) (segments : List (List Frame)) (offset : Nat) : Prop :=
  ∃ passed before after later, Place codec format segments passed before after later offset

section Placed

variable {codec : Codec}

theorem logBytes_cons (frame : Frame) (frames : List Frame) :
    (logBytes codec (frame :: frames)).length = (frame.encode codec).length + (logBytes codec frames).length := by
  simp [logBytes]

theorem logBytes_append (before after : List Frame) :
    (logBytes codec (before ++ after)).length = (logBytes codec before).length + (logBytes codec after).length := by
  simp [logBytes]

theorem placedSegment_append (start : Nat) (before after : List Frame) :
    placedSegment codec start (before ++ after) =
      placedSegment codec start before ++ placedSegment codec (start + (logBytes codec before).length) after := by
  induction before generalizing start with
  | nil => rfl
  | cons frame before ih => rw [cons_append, placedSegment, placedSegment, ih, cons_append, logBytes_cons, Nat.add_assoc]

theorem placedSegment_bounds (lawful : codec.Lawful) (start : Nat) (frames : List Frame) (placed : Nat × Frame)
    (member : placed ∈ placedSegment codec start frames) :
    start ≤ placed.1 ∧ placed.1 < start + (logBytes codec frames).length := by
  induction frames generalizing start with
  | nil => cases member
  | cons frame frames ih =>
    have := encode_pos codec lawful frame
    rw [logBytes_cons]
    rcases mem_cons.mp member with rfl | later
    · dsimp only
      omega
    · have := ih _ later
      omega

theorem placedSegment_frames (start : Nat) (frames : List Frame) : (placedSegment codec start frames).map Prod.snd = frames := by
  induction frames generalizing start with
  | nil => rfl
  | cons frame frames ih => rw [placedSegment, map_cons, ih]

theorem placedFrom_append (index : Nat) (passed later : List (List Frame)) :
    placedFrom codec format index (passed ++ later) =
      placedFrom codec format index passed ++ placedFrom codec format (index + passed.length) later := by
  induction passed generalizing index with
  | nil => rfl
  | cons frames passed ih =>
    have shifted : index + 1 + passed.length = index + (frames :: passed).length := by
      rw [length_cons]
      omega
    rw [cons_append, placedFrom, placedFrom, ih, append_assoc, shifted]

theorem placedFrom_frames (index : Nat) (segments : List (List Frame)) :
    (placedFrom codec format index segments).map Prod.snd = segments.flatten := by
  induction segments generalizing index with
  | nil => rfl
  | cons frames later ih => rw [placedFrom, map_append, placedSegment_frames, ih, flatten_cons]

theorem placedFrom_lower (lawful : codec.Lawful) (index : Nat) (segments : List (List Frame)) (placed : Nat × Frame)
    (member : placed ∈ placedFrom codec format index segments) : index * format.segmentSize ≤ placed.1 := by
  induction segments generalizing index with
  | nil => cases member
  | cons frames later ih =>
    rcases mem_append.mp member with here | behind
    · exact (placedSegment_bounds lawful _ _ _ here).1
    · have := ih _ behind
      rw [Nat.succ_mul] at this
      omega

theorem placedFrom_upper (lawful : codec.Lawful) (index : Nat) (segments : List (List Frame))
    (short : ∀ frames ∈ segments, (logBytes codec frames).length ≤ format.segmentSize) (placed : Nat × Frame)
    (member : placed ∈ placedFrom codec format index segments) :
    placed.1 < (index + segments.length) * format.segmentSize := by
  induction segments generalizing index with
  | nil => cases member
  | cons frames later ih =>
    rw [length_cons]
    rcases mem_append.mp member with here | behind
    · have := (placedSegment_bounds lawful _ _ _ here).2
      have := short frames mem_cons_self
      have := Nat.mul_le_mul_right format.segmentSize (Nat.le_add_right (index + 1) later.length)
      rw [Nat.succ_mul] at this
      rw [Nat.add_comm later.length, ← Nat.add_assoc]
      omega
    · have := ih _ (forall_mem_cons.mp short).2 behind
      rwa [Nat.add_comm later.length, ← Nat.add_assoc]

/-- Every segment's frames fit in it. -/
def Short (codec : Codec) (format : Format) (segments : List (List Frame)) : Prop :=
  ∀ frames ∈ segments, (logBytes codec frames).length ≤ format.segmentSize

section Place

variable {passed later : List (List Frame)} {before after : List Frame} {offset cursor middle stop : Nat}

def placedBefore (codec : Codec) (format : Format) (passed : List (List Frame)) (before : List Frame) : List (Nat × Frame) :=
  placedFrom codec format 0 passed ++ placedSegment codec (passed.length * format.segmentSize) before

/-- The frames behind a place. -/
def placedAfter (codec : Codec) (format : Format) (passed : List (List Frame)) (after : List Frame) (later : List (List Frame))
    (offset : Nat) : List (Nat × Frame) :=
  placedSegment codec offset after ++ placedFrom codec format (passed.length + 1) later

theorem Place.split (place : Place codec format segments passed before after later offset) :
    placedFrom codec format 0 segments =
      placedBefore codec format passed before ++ placedAfter codec format passed after later offset := by
  rw [place.segments, placedFrom_append, placedFrom, placedSegment_append, Nat.zero_add, ← place.offset, placedBefore,
    placedAfter, append_assoc, append_assoc]

theorem Place.before_lt (lawful : codec.Lawful) (place : Place codec format segments passed before after later offset)
    (short : Short codec format segments) (placed : Nat × Frame) (member : placed ∈ placedBefore codec format passed before) :
    placed.1 < offset := by
  have offset := place.offset
  rcases mem_append.mp member with front | here
  · have := placedFrom_upper lawful 0 passed
      (fun frames member => short frames (place.segments ▸ mem_append_left _ member)) placed front
    rw [Nat.zero_add] at this
    omega
  · have := (placedSegment_bounds lawful _ _ _ here).2
    omega

theorem Place.offset_le (place : Place codec format segments passed before after later offset)
    (short : Short codec format segments) : offset ≤ (passed.length + 1) * format.segmentSize := by
  have := short (before ++ after) (place.segments ▸ mem_append_right _ mem_cons_self)
  rw [logBytes_append] at this
  rw [place.offset, Nat.succ_mul]
  omega

section

variable (lawful : codec.Lawful) (place : Place codec format segments passed before after later offset) (short : Short codec format segments)
include lawful place short

theorem Place.le_after (placed : Nat × Frame)
    (member : placed ∈ placedAfter codec format passed after later offset) : offset ≤ placed.1 := by
  rcases mem_append.mp member with here | behind
  · exact (placedSegment_bounds lawful _ _ _ here).1
  · exact Nat.le_trans (place.offset_le short) (placedFrom_lower lawful _ _ _ behind)

theorem Place.framesIn_from :
    framesIn codec format segments offset stop =
      ((placedAfter codec format passed after later offset).filter (fun placed => decide (placed.1 < stop))).map (·.2.data) := by
  rw [framesIn, place.split, filter_append]
  have none : (placedBefore codec format passed before).filter
      (fun placed => decide (offset ≤ placed.1 ∧ placed.1 < stop)) = [] := by
    rw [filter_eq_nil_iff]
    intro placed member
    have := place.before_lt lawful short placed member
    rw [decide_eq_true_eq]
    omega
  rw [none, nil_append]
  refine congrArg (List.map _) (filter_congr fun placed member => decide_eq_decide.mpr ?_)
  have := place.le_after lawful short placed member
  omega

theorem Place.framesIn_upto (ordered : stop ≤ offset) :
    framesIn codec format segments cursor stop =
      ((placedBefore codec format passed before).filter
        (fun placed => decide (cursor ≤ placed.1 ∧ placed.1 < stop))).map (·.2.data) := by
  rw [framesIn, place.split, filter_append]
  have none : (placedAfter codec format passed after later offset).filter
      (fun placed => decide (cursor ≤ placed.1 ∧ placed.1 < stop)) = [] := by
    rw [filter_eq_nil_iff]
    intro placed member
    have := place.le_after lawful short placed member
    rw [decide_eq_true_eq]
    omega
  rw [none, append_nil]

end

theorem Place.framesIn_append (lawful : codec.Lawful) (place : Place codec format segments passed before after later middle)
    (short : Short codec format segments) (first : cursor ≤ middle) (second : middle ≤ stop) :
    framesIn codec format segments cursor middle ++ framesIn codec format segments middle stop =
      framesIn codec format segments cursor stop := by
  have front : (placedBefore codec format passed before).filter (fun placed => decide (cursor ≤ placed.1 ∧ placed.1 < middle)) =
      (placedBefore codec format passed before).filter (fun placed => decide (cursor ≤ placed.1 ∧ placed.1 < stop)) :=
    filter_congr fun placed member => by
      have := place.before_lt lawful short placed member
      rw [decide_eq_decide]
      omega
  have back : (placedAfter codec format passed after later middle).filter (fun placed => decide (placed.1 < stop)) =
      (placedAfter codec format passed after later middle).filter
        (fun placed => decide (cursor ≤ placed.1 ∧ placed.1 < stop)) :=
    filter_congr fun placed member => by
      have := place.le_after lawful short placed member
      rw [decide_eq_decide]
      omega
  rw [place.framesIn_upto lawful short (Nat.le_refl _), place.framesIn_from lawful short, front, back, ← map_append,
    ← filter_append, ← place.split, framesIn]

theorem framesIn_empty (segments : List (List Frame)) (offset : Nat) : framesIn codec format segments offset offset = [] := by
  rw [framesIn, map_eq_nil_iff, filter_eq_nil_iff]
  intro placed _
  rw [decide_eq_true_eq]
  omega

theorem Place.next (place : Place codec format segments passed before (frame :: after) later offset) :
    Place codec format segments passed (before ++ [frame]) after later (offset + (frame.encode codec).length) := by
  refine ⟨by rw [place.segments, append_assoc]; rfl, ?_⟩
  rw [logBytes_append, logBytes_cons, place.offset]
  exact Nat.add_assoc _ _ _

theorem Place.framesIn_frame (lawful : codec.Lawful)
    (place : Place codec format segments passed before (frame :: after) later offset)
    (short : Short codec format segments) (below : offset < stop) :
    framesIn codec format segments offset stop =
      frame.data :: framesIn codec format segments (offset + (frame.encode codec).length) stop := by
  rw [place.framesIn_from lawful short, place.next.framesIn_from lawful short, placedAfter, placedSegment, cons_append]
  simp only [filter_cons, below, decide_true, ↓reduceIte, map_cons, placedAfter]

theorem Place.following (place : Place codec format segments passed before [] (frames :: later) offset) :
    Place codec format segments (passed ++ [before]) [] frames later ((passed.length + 1) * format.segmentSize) := by
  refine ⟨by rw [place.segments, append_nil, append_assoc]; rfl, ?_⟩
  rw [length_append]
  rfl

theorem Place.framesIn_following (lawful : codec.Lawful)
    (place : Place codec format segments passed before [] (frames :: later) offset)
    (short : Short codec format segments) :
    framesIn codec format segments offset stop =
      framesIn codec format segments ((passed.length + 1) * format.segmentSize) stop := by
  have length : (passed ++ [before]).length = passed.length + 1 := length_append
  rw [place.framesIn_from lawful short, place.following.framesIn_from lawful short, placedAfter, placedAfter, placedFrom,
    length]
  rfl

theorem Place.extends (place : Place codec format segments passed before after later offset)
    (extended : Extends segments new) :
    ∃ more later', Place codec format new passed before (after ++ more) later' offset ∧ (later ≠ [] → more = [] ∧ later' ≠ []) := by
  obtain ⟨front, last, behind, rest, same, rfl⟩ := extended
  have segments := place.segments
  rw [same] at segments
  rcases eq_nil_or_concat later with rfl | ⟨between, final, rfl⟩
  · obtain ⟨rfl, tail⟩ := append_inj' segments rfl
    cases tail
    exact ⟨behind, rest, ⟨by rw [append_assoc], place.offset⟩, fun sealed => absurd rfl sealed⟩
  · have regroup : passed ++ (before ++ after) :: (between ++ [final]) = (passed ++ (before ++ after) :: between) ++ [final] := by
      rw [append_assoc, cons_append]
    rw [concat_eq_append, regroup] at segments
    obtain ⟨rfl, tail⟩ := append_inj' segments rfl
    cases tail
    refine ⟨[], between ++ (last ++ behind) :: rest, ⟨?_, place.offset⟩, fun _ => ⟨rfl, by simp⟩⟩
    rw [append_nil, append_assoc, cons_append]

theorem Boundary.extends (boundary : Boundary codec format segments offset) (more : Extends segments new) :
    Boundary codec format new offset := by
  obtain ⟨passed, before, after, later, place⟩ := boundary
  obtain ⟨further, later', kept, _⟩ := place.extends more
  exact ⟨passed, before, after ++ further, later', kept⟩

theorem Boundary.framesIn_extends (lawful : codec.Lawful) (boundary : Boundary codec format segments stop)
    (short : Short codec format segments) (shortNew : Short codec format new) (more : Extends segments new) :
    framesIn codec format new cursor stop = framesIn codec format segments cursor stop := by
  obtain ⟨passed, before, after, later, place⟩ := boundary
  obtain ⟨_, _, kept, _⟩ := place.extends more
  rw [kept.framesIn_upto lawful shortNew (Nat.le_refl _), place.framesIn_upto lawful short (Nat.le_refl _)]

theorem Place.after_nil (lawful : codec.Lawful) (place : Place codec format segments passed before after later offset)
    (short : Short codec format segments) (whole : offset = (passed.length + 1) * format.segmentSize) : after = [] := by
  cases after with
  | nil => rfl
  | cons frame after =>
    have fits := short (before ++ frame :: after) (place.segments ▸ mem_append_right _ mem_cons_self)
    have offset := place.offset
    have := encode_pos codec lawful frame
    rw [logBytes_append, logBytes_cons] at fits
    rw [whole, Nat.succ_mul] at offset
    omega

theorem Boundary.inside (lawful : codec.Lawful) (start : Boundary codec format segments cursor)
    (finish : Boundary codec format segments stop) (short : Short codec format segments) (below : cursor < stop) :
    ∃ passed before after later, Place codec format segments passed before after later cursor ∧
      cursor < (passed.length + 1) * format.segmentSize := by
  obtain ⟨passed, before, after, later, place⟩ := start
  obtain ⟨passed', before', after', later', there⟩ := finish
  have size := segmentSize_ge format
  have step : SEGMENT_SIZE = 67108864 := rfl
  rcases Nat.lt_or_eq_of_le (place.offset_le short) with inside | whole
  · exact ⟨passed, before, after, later, place, inside⟩
  -- The frames fill their segment: the place is also the start of the next one.
  have none := place.after_nil lawful short whole
  subst none
  cases later with
  | nil =>
    have counted := congrArg List.length (place.segments.symm.trans there.segments)
    simp only [length_append, length_cons, length_nil] at counted
    have := Nat.mul_le_mul_right format.segmentSize (by omega : passed'.length + 1 ≤ passed.length + 1)
    have := there.offset_le short
    omega
  | cons frames later =>
    refine ⟨_, _, _, _, whole ▸ place.following, ?_⟩
    rw [whole, length_append, length_singleton, Nat.succ_mul (passed.length + 1)]
    omega

theorem Place.compare (place : Place codec format segments passed before after later cursor)
    (there : Place codec format segments passed' before' after' later' stop) (short : Short codec format segments)
    (below : cursor < stop) :
    passed.length < passed'.length ∨ ∃ frame more, after = frame :: more ++ after' ∧ stop = cursor + (logBytes codec (frame :: more)).length := by
  have start := place.offset
  have finish := there.offset
  rcases Nat.lt_trichotomy passed.length passed'.length with beyond | same | earlier
  · exact .inl beyond
  · obtain ⟨rfl, tails⟩ := append_inj (place.segments.symm.trans there.segments) same
    obtain ⟨frames, rfl⟩ := List.cons.inj tails
    right
    rcases append_eq_append_iff.mp frames with ⟨more, rfl, rfl⟩ | ⟨more, rfl, rfl⟩
    · cases more with
      | nil =>
        rw [append_nil] at finish
        omega
      | cons frame more =>
        refine ⟨frame, more, rfl, ?_⟩
        rw [finish, start, logBytes_append, Nat.add_assoc]
    · rw [logBytes_append] at start
      omega
  · have := there.offset_le short
    have := Nat.mul_le_mul_right format.segmentSize (by omega : passed'.length + 1 ≤ passed.length)
    omega

theorem Place.frame_le (place : Place codec format segments passed before (frame :: after) later cursor)
    (finish : Boundary codec format segments stop) (short : Short codec format segments) (below : cursor < stop) :
    cursor + (frame.encode codec).length ≤ stop := by
  obtain ⟨passed', before', after', later', there⟩ := finish
  rcases place.compare there short below with beyond | ⟨frame', more, same, finish⟩
  · have := place.next.offset_le short
    have := Nat.mul_le_mul_right format.segmentSize (by omega : passed.length + 1 ≤ passed'.length)
    have := there.offset
    omega
  · cases same
    rw [finish, logBytes_cons]
    omega

theorem Place.segment_le (place : Place codec format segments passed before [] later cursor)
    (finish : Boundary codec format segments stop) (short : Short codec format segments) (below : cursor < stop) :
    later ≠ [] ∧ (passed.length + 1) * format.segmentSize ≤ stop := by
  obtain ⟨passed', before', after', later', there⟩ := finish
  rcases place.compare there short below with beyond | ⟨frame', more, same, finish⟩
  · constructor
    · rintro rfl
      have counted := congrArg List.length (place.segments.symm.trans there.segments)
      simp only [length_append, length_cons, length_nil] at counted
      omega
    · have := Nat.mul_le_mul_right format.segmentSize (by omega : passed.length + 1 ≤ passed'.length)
      have := there.offset
      omega
  · cases same

end Place

end Placed

theorem forall₂_middle {xs ys : List α} {x : α} {zs : List β} (paired : List.Forall₂ R (xs ++ x :: ys) zs) :
    ∃ us z vs, zs = us ++ z :: vs ∧ us.length = xs.length ∧ R x z := by
  induction xs generalizing zs with
  | nil =>
    cases paired with
    | cons own _ => exact ⟨[], _, _, rfl, rfl, own⟩
  | cons _ xs ih =>
    cases paired with
    | cons _ rest =>
      obtain ⟨us, z, vs, rfl, length, own⟩ := ih rest
      exact ⟨_ :: us, z, vs, rfl, congrArg Nat.succ length, own⟩

section

variable (layout : Layout codec format arena segments)
include layout

theorem Layout.short : Short codec format segments := by
  obtain ⟨logs, log, front, active, next, inv, rfl⟩ := layout
  intro frames member
  rcases mem_append.mp member with sealed | active
  · obtain ⟨file, _, segment⟩ := mem_left_of_forall₂ inv.sealed sealed
    obtain ⟨tail, _, bytes⟩ := segment.image
    rw [← segment.full, bytes, length_append]
    exact Nat.le_add_right _ _
  · rw [mem_singleton.mp active, ← inv.offset]
    exact Nat.le_trans inv.inside (Nat.le_trans inv.capacity.mapped inv.capacity.declared)

theorem Layout.mapped {frames : List Frame}
    (split : segments = passed ++ frames :: later) :
    ∃ rest, Mapped format arena passed.length (logBytes codec frames ++ rest) ∧
      (later ≠ [] → Tail rest ∧ (logBytes codec frames ++ rest).length = format.segmentSize) := by
  obtain ⟨logs, log, front, active, next, inv, rfl⟩ := layout
  rcases eq_nil_or_concat later with rfl | ⟨between, last, rfl⟩
  · obtain ⟨rfl, tail⟩ := append_inj' split rfl
    cases tail
    obtain ⟨rest, mapped, _⟩ := mapped_active codec inv
    exact ⟨rest, activeId_eq inv ▸ mapped, fun sealed => absurd rfl sealed⟩
  · have regroup : passed ++ frames :: (between ++ [last]) = (passed ++ frames :: between) ++ [last] := by
      rw [append_assoc, cons_append]
    rw [concat_eq_append, regroup] at split
    obtain ⟨rfl, tail⟩ := append_inj' split rfl
    cases tail
    obtain ⟨files, file, others, cut, length, segment⟩ := forall₂_middle inv.sealed
    obtain ⟨rest, isTail, rfl⟩ := segment.image
    have mapped := (mapped_sealed codec inv cut segment.full).2
    rw [length] at mapped
    exact ⟨rest, mapped, fun _ => ⟨isTail, segment.full⟩⟩

theorem Layout.usedBytes :
    ∃ front last, Place codec format segments front last [] [] (usedBytes format arena) := by
  obtain ⟨logs, log, front, active, next, inv, rfl⟩ := layout
  refine ⟨logs, log, by rw [append_nil], ?_⟩
  rw [Arena.usedBytes, inv.offset, activeId_eq inv]

theorem Layout.boundary_le
    (boundary : Boundary codec format segments offset) : offset ≤ Arena.usedBytes format arena := by
  obtain ⟨front, last, place⟩ := layout.usedBytes
  obtain ⟨passed, before, after, later, there⟩ := boundary
  by_contra beyond
  rcases place.compare there layout.short (Nat.not_le.mp beyond) with further | ⟨frame, more, none, _⟩
  · have counted := congrArg List.length (place.segments.symm.trans there.segments)
    simp only [length_append, length_cons, length_nil] at counted
    omega
  · cases none

theorem Layout.boundary_zero : Boundary codec format segments 0 := by
  obtain ⟨logs, log, _, _, _, _, rfl⟩ := layout
  cases logs with
  | nil => exact ⟨[], [], log, [], rfl, by simp [logBytes]⟩
  | cons first logs => exact ⟨[], [], first, logs ++ [log], rfl, by simp [logBytes]⟩

end

theorem Layout.framesIn_all (lawful : codec.Lawful) (layout : Layout codec format arena segments) :
    framesIn codec format segments 0 (Arena.usedBytes format arena) = segments.flatten.map Frame.data := by
  obtain ⟨front, last, place⟩ := layout.usedBytes
  have all : (placedBefore codec format front last).filter
      (fun placed => decide (0 ≤ placed.1 ∧ placed.1 < Arena.usedBytes format arena)) = placedBefore codec format front last := by
    rw [filter_eq_self]
    intro placed member
    exact decide_eq_true ⟨Nat.zero_le _, place.before_lt lawful layout.short placed member⟩
  have split := place.split
  rw [placedAfter, placedSegment, placedFrom, append_nil, append_nil] at split
  rw [place.framesIn_upto lawful layout.short (Nat.le_refl _), all, ← split, ← placedFrom_frames 0 segments, map_map]
  rfl

end Warm.Arena
