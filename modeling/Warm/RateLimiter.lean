import Mathlib.Data.List.Induction
import Mathlib.Data.Rat.Floor
import Warm.Table

/-! The token buckets of the tenants. A caller reads the clock before it takes the lock, so that the
times come in any order; a bucket takes over the time of the last caller, also an earlier one. -/
namespace Warm.Server

open List

structure Bucket where
  tokens : ℚ
  last : ℚ
deriving DecidableEq

structure RateLimiter where
  rate : ℚ
  burst : ℚ
  positive : 0 < rate
  whole : 1 ≤ burst

structure RateState where
  entries : Table String Bucket
  nextSweep : Option ℚ

def RateState.put (state : RateState) (tenant : String) (bucket : Bucket) : RateState :=
  { state with entries := state.entries.insert tenant bucket }

def MAX_BUCKETS : Nat := 10000

structure RateCall where
  tenant : String
  now : ℚ

/-- `saturating_duration_since`. -/
def since (now last : ℚ) : ℚ := max (now - last) 0

namespace RateLimiter

def new (rps : ℚ) (burst : Nat) : Option RateLimiter :=
  if positive : 0 < rps then
    some ⟨rps, if burst = 0 then max ⌈rps⌉ 1 else burst, positive, by
      split
      · exact le_max_right _ _
      · exact_mod_cast Nat.one_le_iff_ne_zero.mpr ‹_›⟩
  else none

variable (limiter : RateLimiter)

def refilled (bucket : Bucket) (now : ℚ) : ℚ := bucket.tokens + since now bucket.last * limiter.rate

/-- The buckets that are full again are dropped, at most once a second. -/
def sweep (state : RateState) (now : ℚ) : RateState :=
  if state.nextSweep.all fun next => next ≤ now then
    ⟨state.entries.filter fun _ bucket => limiter.refilled bucket now < limiter.burst, some (now + 1)⟩
  else state

def place (state : RateState) (call : RateCall) : RateState × Bool :=
  if state.entries.contains call.tenant then (state, true)
  else
    let state := if MAX_BUCKETS ≤ state.entries.size then limiter.sweep state call.now else state
    (state, state.entries.size < MAX_BUCKETS)

def checkAt (state : RateState) (call : RateCall) : RateState × Except Nat Unit :=
  let (state, free) := limiter.place state call
  if !free then (state, .error 1)
  else
    let bucket := state.entries[call.tenant]?.getD ⟨limiter.burst, call.now⟩
    let tokens := min (limiter.refilled bucket call.now) limiter.burst
    if 1 ≤ tokens then (state.put call.tenant ⟨tokens - 1, call.now⟩, .ok ())
    else
      (state.put call.tenant ⟨tokens, call.now⟩, .error (min (max ⌈(1 - tokens) / limiter.rate⌉₊ 1) (2 ^ 64 - 1)))

def after (state : RateState) (call : RateCall) : RateState := (limiter.checkAt state call).1

def run (calls : List RateCall) : RateState := calls.foldl limiter.after ⟨∅, none⟩

/-- The admitted calls of the tenant with times from `lo` to `hi`. -/
def admissions (tenant : String) (lo hi : ℚ) : RateState → List RateCall → Nat
  | _, [] => 0
  | state, call :: calls =>
    (if call.tenant = tenant ∧ lo ≤ call.now ∧ call.now ≤ hi ∧ (limiter.checkAt state call).2.isOk then 1 else 0) +
      admissions tenant lo hi (limiter.after state call) calls

structure Bounded (calls : List RateCall) : Prop where
  tokens : ∀ (tenant : String) bucket, (limiter.run calls).entries[tenant]? = some bucket →
    0 ≤ bucket.tokens ∧ bucket.tokens ≤ limiter.burst
  capped : (limiter.run calls).entries.size ≤ MAX_BUCKETS
  admitted : ∀ tenant lo hi, lo ≤ hi →
    (limiter.admissions tenant lo hi ⟨∅, none⟩ calls : ℚ) ≤ limiter.burst + limiter.rate * (hi - lo)
  waited : ∀ tenant now wait, tenant ∈ (limiter.run calls).entries →
    (limiter.checkAt (limiter.run calls) ⟨tenant, now⟩).2 = .error wait →
    (limiter.checkAt (limiter.after (limiter.run calls) ⟨tenant, now⟩) ⟨tenant, now + wait⟩).2.isOk

/-- The call sweeps the tenant's bucket away. -/
def Drops (state : RateState) (call : RateCall) (tenant : String) : Prop :=
  tenant ∈ state.entries ∧ tenant ∉ (limiter.after state call).entries

/-- No call has an earlier time than one before it of the same tenant, or one that dropped its bucket. -/
def Ordered : RateState → List RateCall → Prop
  | _, [] => True
  | state, call :: calls =>
    (∀ later ∈ calls, later.tenant = call.tenant ∨ limiter.Drops state call later.tenant → call.now ≤ later.now) ∧
      Ordered (limiter.after state call) calls

/-- The tokens a call at that time would find. -/
def available (state : RateState) (tenant : String) (now : ℚ) : ℚ :=
  (state.entries[tenant]?).elim limiter.burst fun bucket => min (limiter.refilled bucket now) limiter.burst

theorem since_nonneg (now last : ℚ) : 0 ≤ since now last := le_max_right _ _

theorem available_le (state : RateState) (tenant : String) (now : ℚ) :
    limiter.available state tenant now ≤ limiter.burst := by
  rw [available]
  cases state.entries[tenant]? with
  | none => exact le_refl _
  | some bucket => exact min_le_right _ _

theorem available_between (state : RateState) (tenant : String) (earlier : t ≤ t') :
    limiter.available state tenant t ≤ limiter.available state tenant t' ∧
      limiter.available state tenant t' ≤ limiter.available state tenant t + limiter.rate * (t' - t) := by
  have gain := mul_nonneg limiter.positive.le (sub_nonneg.mpr earlier)
  rw [available, available]
  cases state.entries[tenant]? with
  | none => exact ⟨le_refl _, by simpa using gain⟩
  | some bucket =>
    have low : since t bucket.last ≤ since t' bucket.last := max_le_max_right _ (by linarith)
    have high : since t' bucket.last ≤ since t bucket.last + (t' - t) := by
      rw [since, since, max_le_iff]
      constructor
      · linarith [le_max_left (t - bucket.last) 0]
      · linarith [le_max_right (t - bucket.last) 0]
    have below := mul_le_mul_of_nonneg_right low limiter.positive.le
    have above := mul_le_mul_of_nonneg_right high limiter.positive.le
    simp only [Option.elim_some, refilled]
    refine ⟨min_le_min_right _ (by linarith), ?_⟩
    rcases min_choice (bucket.tokens + since t bucket.last * limiter.rate) limiter.burst with least | least
    · rw [least]
      exact (min_le_left _ _).trans (by linarith)
    · rw [least]
      exact (min_le_right _ _).trans (by linarith)

section Step

variable (state : RateState) (call : RateCall)

theorem sweep_entries (tenant : String) (now : ℚ) :
    (limiter.sweep state now).entries[tenant]? = state.entries[tenant]? ∨
      ∃ bucket, state.entries[tenant]? = some bucket ∧ limiter.burst ≤ limiter.refilled bucket now ∧
        (limiter.sweep state now).entries[tenant]? = none := by
  rw [sweep]
  split
  · rw [Std.ExtTreeMap.getElem?_filter']
    cases state.entries[tenant]? with
    | none => exact .inl rfl
    | some bucket =>
      by_cases full : limiter.refilled bucket now < limiter.burst
      · exact .inl (by simp [full])
      · exact .inr ⟨bucket, rfl, not_lt.mp full, by simpa using full⟩
  · exact .inl rfl

theorem sweep_size (now : ℚ) : (limiter.sweep state now).entries.size ≤ state.entries.size := by
  rw [sweep]
  split
  · exact Std.ExtTreeMap.size_filter_le_size
  · exact le_refl _

theorem place_entries (tenant : String) :
    (limiter.place state call).1.entries[tenant]? = state.entries[tenant]? ∨
      tenant ≠ call.tenant ∧ ∃ bucket, state.entries[tenant]? = some bucket ∧
        limiter.burst ≤ limiter.refilled bucket call.now ∧ (limiter.place state call).1.entries[tenant]? = none := by
  rw [place]
  split
  · exact .inl rfl
  next unknown =>
    split
    · rcases limiter.sweep_entries state tenant call.now with same | ⟨bucket, held, full, gone⟩
      · exact .inl same
      · refine .inr ⟨?_, bucket, held, full, gone⟩
        rintro rfl
        simp [Std.ExtTreeMap.contains_eq_isSome_getElem?, held] at unknown
    · exact .inl rfl

theorem place_own : (limiter.place state call).1.entries[call.tenant]? = state.entries[call.tenant]? :=
  (limiter.place_entries state call call.tenant).resolve_right fun swept => swept.1 rfl

theorem place_size (capped : state.entries.size ≤ MAX_BUCKETS) (bucket : Bucket) :
    (limiter.place state call).1.entries.size ≤ MAX_BUCKETS ∧ ((limiter.place state call).2 = true →
      ((limiter.place state call).1.put call.tenant bucket).entries.size ≤ MAX_BUCKETS) := by
  rw [place]
  split
  next known => exact ⟨capped, fun _ => by simpa [RateState.put, Std.ExtTreeMap.size_insert, known] using capped⟩
  · have fewer : (if MAX_BUCKETS ≤ state.entries.size then limiter.sweep state call.now else state).entries.size ≤
        MAX_BUCKETS := by
      split
      · exact (limiter.sweep_size state call.now).trans capped
      · exact capped
    exact ⟨fewer, fun free => Std.ExtTreeMap.size_insert_le.trans (of_decide_eq_true free)⟩

theorem checkAt_cases :
    (limiter.place state call).2 = false ∧ state.entries[call.tenant]? = none ∧
        limiter.checkAt state call = ((limiter.place state call).1, .error 1) ∨
      (limiter.place state call).2 = true ∧ 1 ≤ limiter.available state call.tenant call.now ∧
        limiter.checkAt state call = ((limiter.place state call).1.put call.tenant
          ⟨limiter.available state call.tenant call.now - 1, call.now⟩, .ok ()) ∨
      (limiter.place state call).2 = true ∧ limiter.available state call.tenant call.now < 1 ∧
        limiter.checkAt state call = ((limiter.place state call).1.put call.tenant
          ⟨limiter.available state call.tenant call.now, call.now⟩,
          .error (min (max ⌈(1 - limiter.available state call.tenant call.now) / limiter.rate⌉₊ 1) (2 ^ 64 - 1))) := by
  have found : min (limiter.refilled ((limiter.place state call).1.entries[call.tenant]?.getD
      ⟨limiter.burst, call.now⟩) call.now) limiter.burst = limiter.available state call.tenant call.now := by
    rw [place_own, available]
    cases state.entries[call.tenant]? with
    | none => simp [refilled, since]
    | some bucket => rfl
  cases free : (limiter.place state call).2 with
  | false =>
    refine .inl ⟨rfl, ?_, by simp [checkAt, free]⟩
    rw [place] at free
    split at free
    · cases free
    next unknown => simpa using unknown
  | true =>
    by_cases enough : 1 ≤ limiter.available state call.tenant call.now
    · exact .inr (.inl ⟨rfl, enough, by simp only [checkAt, free, found, if_pos enough]; rfl⟩)
    · exact .inr (.inr ⟨rfl, not_le.mp enough, by simp only [checkAt, free, found, if_neg enough]; rfl⟩)

theorem after_other (other : a ≠ call.tenant) :
    (limiter.after state call).entries[a]? = state.entries[a]? ∨
      ∃ bucket, state.entries[a]? = some bucket ∧ limiter.burst ≤ limiter.refilled bucket call.now ∧
        (limiter.after state call).entries[a]? = none := by
  have kept : (limiter.after state call).entries[a]? = (limiter.place state call).1.entries[a]? := by
    rcases limiter.checkAt_cases state call with ⟨-, -, ran⟩ | ⟨-, -, ran⟩ | ⟨-, -, ran⟩
    · rw [after, ran]
    · rw [after, ran, RateState.put, Table.getElem?_insert, if_neg other]
    · rw [after, ran, RateState.put, Table.getElem?_insert, if_neg other]
  rw [kept]
  exact (limiter.place_entries state call a).imp_right And.right

theorem after_own : (limiter.after state call).entries[call.tenant]? = none ∧ state.entries[call.tenant]? = none ∧
      (limiter.checkAt state call).2 = .error 1 ∨
    (limiter.after state call).entries[call.tenant]? =
        some ⟨limiter.available state call.tenant call.now - 1, call.now⟩ ∧
      1 ≤ limiter.available state call.tenant call.now ∧ (limiter.checkAt state call).2 = .ok () ∨
    (limiter.after state call).entries[call.tenant]? = some ⟨limiter.available state call.tenant call.now, call.now⟩ ∧
      limiter.available state call.tenant call.now < 1 ∧ (limiter.checkAt state call).2 =
        .error (min (max ⌈(1 - limiter.available state call.tenant call.now) / limiter.rate⌉₊ 1) (2 ^ 64 - 1)) := by
  rcases limiter.checkAt_cases state call with ⟨-, none, ran⟩ | ⟨-, enough, ran⟩ | ⟨-, few, ran⟩
  · exact .inl ⟨by rw [after, ran, place_own, none], none, by rw [ran]⟩
  · exact .inr (.inl ⟨by rw [after, ran, RateState.put, Table.getElem?_insert, if_pos rfl], enough, by rw [ran]⟩)
  · exact .inr (.inr ⟨by rw [after, ran, RateState.put, Table.getElem?_insert, if_pos rfl], few, by rw [ran]⟩)

theorem available_after_own (behind : ∀ bucket, state.entries[call.tenant]? = some bucket → bucket.last ≤ call.now) :
    (∀ t ≥ call.now, limiter.available (limiter.after state call) call.tenant t ≤
        limiter.available state call.tenant t) ∧
      limiter.available (limiter.after state call) call.tenant call.now +
        (if (limiter.checkAt state call).2.isOk then 1 else 0) ≤ limiter.available state call.tenant call.now := by
  have later (tokens t : ℚ) (below : tokens ≤ limiter.available state call.tenant call.now) (t_ge : call.now ≤ t) :
      min (limiter.refilled ⟨tokens, call.now⟩ t) limiter.burst ≤ limiter.available state call.tenant t := by
    rw [available] at below ⊢
    cases held : state.entries[call.tenant]? with
    | none => exact min_le_right _ _
    | some bucket =>
      rw [held] at below
      have before := behind bucket held
      have gap : since t call.now = t - call.now := max_eq_left (by linarith)
      have first : since call.now bucket.last = call.now - bucket.last := max_eq_left (by linarith)
      have whole : since t bucket.last = t - bucket.last := max_eq_left (by linarith)
      have paid := below.trans (min_le_left _ _)
      rw [refilled, first] at paid
      simp only [Option.elim_some, refilled, gap, whole]
      exact min_le_min_right _ (by linarith)
  have now_le (tokens : ℚ) : min (limiter.refilled ⟨tokens, call.now⟩ call.now) limiter.burst ≤ tokens := by
    simp [refilled, since]
  rcases limiter.after_own state call with ⟨gone, none, answer⟩ | ⟨held, -, answer⟩ | ⟨held, -, answer⟩
  · have same (t : ℚ) : limiter.available (limiter.after state call) call.tenant t =
        limiter.available state call.tenant t := by rw [available, available, gone, none]
    exact ⟨fun t _ => (same t).le, by rw [answer, same]; exact (add_zero _).le⟩
  · constructor
    · intro t t_ge
      rw [available, held]
      exact later _ t (by linarith) t_ge
    · have := now_le (limiter.available state call.tenant call.now - 1)
      rw [answer, available, held]
      simp only [Option.elim_some, Except.isOk, Except.toBool, if_true]
      linarith
  · constructor
    · intro t t_ge
      rw [available, held]
      exact later _ t (le_refl _) t_ge
    · rw [answer, available, held]
      exact (add_zero _).le.trans (now_le _)

end Step

theorem admissions_congr (lo lo' : ℚ) (tenant : String) (state : RateState) (calls : List RateCall)
    (same : ∀ call ∈ calls, call.tenant = tenant → (lo ≤ call.now ↔ lo' ≤ call.now)) :
    limiter.admissions tenant lo hi state calls = limiter.admissions tenant lo' hi state calls := by
  induction calls generalizing state with
  | nil => rfl
  | cons call calls ih =>
    rw [admissions, admissions, ih _ (forall_mem_cons.mp same).2]
    by_cases own : call.tenant = tenant
    · simp [same call (by simp) own]
    · simp [own]

theorem admissions_late (tenant : String) (state : RateState) (calls : List RateCall)
    (late : ∀ call ∈ calls, call.tenant = tenant → hi < call.now) : limiter.admissions tenant lo hi state calls = 0 := by
  induction calls generalizing state with
  | nil => rfl
  | cons call calls ih =>
    rw [admissions, ih _ (forall_mem_cons.mp late).2, if_neg]
    rintro ⟨own, -, early, -⟩
    exact absurd (late call (by simp) own) (not_lt.mpr early)

/-- What holds of every state, in whatever order the times come. -/
structure Sound (state : RateState) : Prop where
  tokens : ∀ (tenant : String) bucket, state.entries[tenant]? = some bucket →
    0 ≤ bucket.tokens ∧ bucket.tokens ≤ limiter.burst
  capped : state.entries.size ≤ MAX_BUCKETS

variable {limiter}

theorem Sound.available_nonneg (sound : Sound limiter state) (tenant : String) (now : ℚ) :
    0 ≤ limiter.available state tenant now := by
  rw [available]
  cases held : state.entries[tenant]? with
  | none => exact zero_le_one.trans limiter.whole
  | some bucket =>
    have full := mul_nonneg (since_nonneg now bucket.last) limiter.positive.le
    exact le_min (add_nonneg (sound.tokens tenant bucket held).1 full) (zero_le_one.trans limiter.whole)

theorem Sound.after (sound : Sound limiter state) (call : RateCall) : Sound limiter (limiter.after state call) := by
  constructor
  · intro a bucket held
    by_cases own : a = call.tenant
    · subst own
      have low := sound.available_nonneg call.tenant call.now
      have high := limiter.available_le state call.tenant call.now
      rcases limiter.after_own state call with ⟨gone, -, -⟩ | ⟨paid, enough, -⟩ | ⟨kept, few, -⟩
      · simp [gone] at held
      · obtain rfl := Option.some.inj (paid.symm.trans held)
        exact ⟨sub_nonneg.mpr enough, by dsimp only; linarith⟩
      · obtain rfl := Option.some.inj (kept.symm.trans held)
        exact ⟨low, high⟩
    · rcases limiter.after_other state call own with same | ⟨-, -, -, gone⟩
      · exact sound.tokens a bucket (same.symm.trans held)
      · simp [gone] at held
  · have size := limiter.place_size state call sound.capped
    rw [RateLimiter.after]
    rcases limiter.checkAt_cases state call with ⟨-, -, ran⟩ | ⟨free, -, ran⟩ | ⟨free, -, ran⟩
    · rw [ran]
      exact (size ⟨0, 0⟩).1
    · rw [ran]
      exact (size _).2 free
    · rw [ran]
      exact (size _).2 free

/-- In an interval, a tenant's calls are paid from the tokens at its start and what it brings. -/
theorem admissions_le (tenant : String) (calls : List RateCall) (sound : Sound limiter state)
    (ordered : limiter.Ordered state calls) (behind : ∀ call ∈ calls, call.tenant = tenant →
      ∀ bucket, state.entries[tenant]? = some bucket → bucket.last ≤ call.now)
    (interval : lo ≤ hi) : (limiter.admissions tenant lo hi state calls : ℚ) ≤
      limiter.available state tenant lo + limiter.rate * (hi - lo) := by
  induction calls generalizing state lo with
  | nil =>
    simpa [admissions] using
      add_nonneg (sound.available_nonneg tenant lo) (mul_nonneg limiter.positive.le (sub_nonneg.mpr interval))
  | cons call calls ih =>
    obtain ⟨times, ordered⟩ := ordered
    have ih (lo : ℚ) := @ih (limiter.after state call) lo (sound.after call) ordered
    have start := sound.available_nonneg tenant lo
    have length := mul_nonneg limiter.positive.le (sub_nonneg.mpr interval)
    rw [admissions]
    push_cast
    by_cases own : call.tenant = tenant
    · subst own
      have times : ∀ later ∈ calls, later.tenant = call.tenant → call.now ≤ later.now :=
        fun later member same => times later member (.inl same)
      obtain ⟨less, paid⟩ := limiter.available_after_own state call (behind call (by simp) rfl)
      have behind : ∀ later ∈ calls, later.tenant = call.tenant →
          ∀ bucket, (limiter.after state call).entries[call.tenant]? = some bucket → bucket.last ≤ later.now := by
        intro later member same bucket held
        rcases limiter.after_own state call with ⟨gone, -, -⟩ | ⟨paid, -, -⟩ | ⟨kept, -, -⟩
        · simp [gone] at held
        · obtain rfl := Option.some.inj (paid.symm.trans held)
          exact times later member same
        · obtain rfl := Option.some.inj (kept.symm.trans held)
          exact times later member same
      rcases lt_or_ge call.now lo with early | reached
      · rw [if_neg fun inside => absurd inside.2.1 (not_le.mpr early), zero_add]
        exact (ih lo behind interval).trans (add_le_add_left (less lo early.le) _)
      rcases lt_or_ge hi call.now with late | inside
      · rw [if_neg fun inside => absurd inside.2.2.1 (not_le.mpr late),
          limiter.admissions_late _ _ _ fun later member same => late.trans_le (times later member same)]
        simpa using add_nonneg start length
      · have rest := ih call.now behind inside
        rw [limiter.admissions_congr call.now lo _ _ _ fun later member same =>
          iff_of_true (times later member same) (reached.trans (times later member same))] at rest
        have before := (limiter.available_between state call.tenant reached).2
        simp only [reached, inside, true_and]
        linarith
    · rw [if_neg fun inside => own inside.1, zero_add]
      rcases limiter.after_other state call (Ne.symm own) with same | ⟨bucket, held, full, gone⟩
      · have kept : limiter.available (limiter.after state call) tenant lo = limiter.available state tenant lo := by
          rw [available, available, same]
        rw [← kept]
        exact ih lo (fun later member mine => by rw [same]; exact behind later (by simp [member]) mine) interval
      · have dropped : limiter.Drops state call tenant := by
          rw [Drops, Std.ExtTreeMap.mem_iff_isSome_getElem?, Std.ExtTreeMap.mem_iff_isSome_getElem?, held, gone]
          simp
        have times : ∀ later ∈ calls, later.tenant = tenant → call.now ≤ later.now := by
          rintro later member rfl
          exact times later member (.inr dropped)
        have whole : limiter.available state tenant call.now = limiter.burst := by
          rw [available, held]
          exact min_eq_right full
        have ih (lo : ℚ) := ih lo (fun _ _ _ _ held => by rw [gone] at held; cases held)
        have fresh (t : ℚ) : limiter.available (limiter.after state call) tenant t = limiter.burst := by
          rw [available, gone]
          rfl
        rcases le_total call.now lo with early | reached
        · have grown := (limiter.available_between state tenant early).1
          refine (ih lo interval).trans (add_le_add_left ?_ _)
          rw [fresh, ← whole]
          exact grown
        rcases lt_or_ge hi call.now with late | inside
        · rw [limiter.admissions_late _ _ _ fun later member same => late.trans_le (times later member same)]
          simpa using add_nonneg start length
        · have rest := ih call.now inside
          rw [fresh, ← whole, limiter.admissions_congr call.now lo _ _ _ fun later member same =>
            iff_of_true (times later member same) (reached.trans (times later member same))] at rest
          have before := (limiter.available_between state tenant reached).2
          linarith

theorem sound_run (limiter : RateLimiter) (calls : List RateCall) : Sound limiter (limiter.run calls) := by
  induction calls using List.reverseRecOn with
  | nil => exact ⟨by simp [run], by simp [run]⟩
  | append_singleton calls call ih =>
    rw [run, foldl_append]
    exact ih.after call

theorem Ordered.of_prefix {calls : List RateCall} (ordered : limiter.Ordered state calls) (part : made <+: calls) :
    limiter.Ordered state made := by
  induction made generalizing state calls with
  | nil => trivial
  | cons call made ih =>
    obtain ⟨rest, rfl⟩ := part
    exact ⟨(forall_mem_append.mp ordered.1).1, ih ordered.2 (prefix_append _ _)⟩

theorem admits_after_wait (sound : Sound limiter state) (brisk : 1 ≤ limiter.rate * (2 ^ 64 - 1)) (call : RateCall)
    (known : call.tenant ∈ state.entries) (refused : (limiter.checkAt state call).2 = .error wait) :
    (limiter.checkAt (limiter.after state call) ⟨call.tenant, call.now + wait⟩).2.isOk := by
  have low := sound.available_nonneg call.tenant call.now
  rcases limiter.after_own state call with ⟨-, none, -⟩ | ⟨-, -, answer⟩ | ⟨held, few, answer⟩
  · simp [Std.ExtTreeMap.mem_iff_isSome_getElem?, none] at known
  · rw [answer] at refused
    cases refused
  · obtain rfl := Except.error.inj (answer.symm.trans refused)
    generalize available_def : limiter.available state call.tenant call.now = tokens at *
    have gain : 1 - tokens ≤
        ((min (max ⌈(1 - tokens) / limiter.rate⌉₊ 1) (2 ^ 64 - 1) : Nat) : ℚ) * limiter.rate := by
      rw [Nat.cast_min, min_mul_of_nonneg _ _ limiter.positive.le, le_min_iff]
      constructor
      · rw [← div_le_iff₀ limiter.positive, Nat.cast_max]
        exact (Nat.le_ceil _).trans (le_max_left _ _)
      · push_cast
        linarith
    rcases limiter.after_own (limiter.after state call) ⟨call.tenant, call.now +
        (min (max ⌈(1 - tokens) / limiter.rate⌉₊ 1) (2 ^ 64 - 1) : Nat)⟩ with ⟨-, none, -⟩ | ⟨-, -, ok⟩ | ⟨-, short, -⟩
    · simp [held] at none
    · rw [ok]
      rfl
    · exfalso
      rw [available, held] at short
      simp only [Option.elim_some, refilled, since, add_sub_cancel_left] at short
      rw [max_eq_left (Nat.cast_nonneg _)] at short
      exact absurd short (not_lt.mpr (le_min (by linarith) limiter.whole))

theorem bounded_of_ordered (calls : List RateCall) (ordered : limiter.Ordered ⟨∅, none⟩ calls)
    (brisk : 1 ≤ limiter.rate * (2 ^ 64 - 1)) (part : made <+: calls) : limiter.Bounded made := by
  have sound := limiter.sound_run made
  refine ⟨sound.tokens, sound.capped, fun tenant lo hi interval => ?_,
    fun tenant now wait known refused => admits_after_wait sound brisk ⟨tenant, now⟩ known refused⟩
  have start := limiter.sound_run []
  have paid := admissions_le tenant made start (ordered.of_prefix part) (fun _ _ _ _ held => by simp [run] at held) interval
  exact paid.trans (add_le_add_left (limiter.available_le _ _ _) _)

/-- One token a second, of which one is kept. -/
def single : RateLimiter := ⟨1, 1, one_pos, le_refl _⟩

theorem bounded_of_ordered_single : single.Bounded [⟨"a", 0⟩, ⟨"a", 0⟩, ⟨"a", 1⟩] := by
  refine bounded_of_ordered _ ?_ (by norm_num [single]) (prefix_refl _)
  simp [Ordered, single]

theorem bounded_reordered : ¬single.Bounded [⟨"a", 1⟩, ⟨"a", 0⟩, ⟨"a", 1⟩] := by
  intro bounded
  have admitted := bounded.admitted "a" 1 1 (le_refl _)
  have two : single.admissions "a" 1 1 ⟨∅, none⟩ [⟨"a", 1⟩, ⟨"a", 0⟩, ⟨"a", 1⟩] = 2 := by decide +kernel
  rw [two] at admitted
  norm_num [single] at admitted

end RateLimiter

end Warm.Server
