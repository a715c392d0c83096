import Mathlib.Algebra.BigOperators.Group.List.Basic
import Mathlib.Algebra.Order.Group.Int
import Mathlib.Tactic.Ring
import VillasNode.Hook.Model
import VillasNode.Lib.Ring

/-!
# The hook jitter_calc

`lib/hooks/jitter_calc.cpp`. The mean and the variance of the last delays come
from two sums that are carried along with a ring. The jitter is carried along
in another ring. Signed numbers that do not fit into 64 bits are undefined, and
so is an index behind a ring.
-/

namespace VillasNode.JitterCalcHook

/-- `GPS_NTP_DELAY_WIN_SIZE` -/
def winSize : Nat := 16

/-- From `INT64_MIN` to `INT64_MAX`. -/
def InRange (x : Int) : Prop := -9223372036854775808 ≤ x ∧ x ≤ 9223372036854775807

instance (x : Int) : Decidable (InRange x) := inferInstanceAs (Decidable (_ ∧ _))

/-- A result that has to be an `int64_t`. -/
def int64 (x : Int) : Option Int := if InRange x then some x else none

structure State where
  jitterVal : List Int
  delaySeries : List Int
  movingAvg : List Int
  movingVar : List Int
  delayMovSum : Int
  delayMovSumSqrd : Int
  currCount : Nat

structure Report where
  jitter : Int
  average : Int
  variance : Int
deriving DecidableEq

def initial : State :=
  { jitterVal := List.replicate winSize 0
    delaySeries := List.replicate winSize 0
    movingAvg := List.replicate winSize 0
    movingVar := List.replicate winSize 0
    delayMovSum := 0
    delayMovSumSqrd := 0
    currCount := 0 }

/-- `ring[i] = x` -/
def store (ring : List Int) (i : Nat) (x : Int) : Option (List Int) :=
  if i < ring.length then some (ring.set i x) else none

/-- `curr_delay_us`, for a sample that is processed at `now`. -/
def delay (now : Timespec) (smp : Payload) : Option Int := do
  let sec ← int64 (now.sec.toInt - smp.origin.sec.toInt)
  let nsec ← int64 (now.nsec.toInt - smp.origin.nsec.toInt)
  let us ← int64 (sec * 1000000)
  int64 (us + nsec.tdiv 1000)

/-- `delay_mov_sum`, the moving average and the sum of squares with the variance. -/
structure Statistics where
  sum : Int
  sumSqrd : Int
  average : Int
  variance : Int

def statistics (s : State) (d old : Int) : Option Statistics := do
  let sum ← int64 (s.delayMovSum + d)
  let sum ← int64 (sum - old)
  let square ← int64 (d * d)
  let sumSqrd ← int64 (s.delayMovSumSqrd + square)
  let square ← int64 (old * old)
  let sumSqrd ← int64 (sumSqrd - square)
  let square ← int64 (sum * sum)
  let difference ← int64 (sumSqrd - square.tdiv winSize)
  some ⟨sum, sumSqrd, sum.tdiv winSize, difference.tdiv (winSize - 1)⟩

def nextJitter (last d : Int) : Option Int := do
  let absolute ← int64 d.natAbs
  let change ← int64 (absolute - last)
  int64 (last + change.tdiv 16)

/-- The rest of `process`, with what it logs. -/
def update (s : State) (d : Int) : Option (State × Report) := do
  let old ← s.delaySeries[s.currCount]?
  let t ← statistics s d old
  let movingAvg ← store s.movingAvg s.currCount t.average
  let movingVar ← store s.movingVar s.currCount t.variance
  let delaySeries ← store s.delaySeries s.currCount d
  let last ← s.jitterVal[s.currCount]?
  let jitter ← nextJitter last d
  let jitterVal ← store s.jitterVal ((s.currCount + 1) % winSize) jitter
  some
    ({ jitterVal, delaySeries, movingAvg, movingVar
       delayMovSum := t.sum
       delayMovSumSqrd := t.sumSqrd
       currCount := if s.currCount + 1 ≥ winSize then 0 else s.currCount + 1 },
      ⟨jitter, t.average, t.variance⟩)

def process (s : State) (now : Timespec) (smp : Payload) : Option (State × Report) :=
  (delay now smp).bind fun d => update s d

/-- The states behind the samples of a run, and what is logged for each. -/
def trace : State → List (Timespec × Payload) → Option (List (State × Report))
  | _, [] => some []
  | s, (now, smp) :: inputs => do
    let (s, report) ← process s now smp
    let rest ← trace s inputs
    some ((s, report) :: rest)

/-! ## The specification -/

def sumSqrd (w : List Int) : Int := (w.map fun d => d * d).sum

def average (w : List Int) : Int := w.sum.tdiv 16

def variance (w : List Int) : Int := (sumSqrd w - (w.sum * w.sum).tdiv 16).tdiv 15

/-- No number is too large, when the delay follows the window `w`. -/
structure Fits (w : List Int) (d : Int) : Prop where
  absolute : InRange d.natAbs
  square : InRange (d * d)
  oldSquare : InRange (w.headD 0 * w.headD 0)
  added : InRange (w.sum + d)
  sum : InRange (w.sum + d - w.headD 0)
  addedSqrd : InRange (sumSqrd w + d * d)
  sumSqrd : InRange (sumSqrd w + d * d - w.headD 0 * w.headD 0)
  squaredSum : InRange ((w.sum + d - w.headD 0) * (w.sum + d - w.headD 0))
  difference : InRange (JitterCalcHook.sumSqrd w + d * d - w.headD 0 * w.headD 0 -
    ((w.sum + d - w.headD 0) * (w.sum + d - w.headD 0)).tdiv 16)

def lastDelays (ds : List Int) : List Int := Ring.window winSize 0 ds

def NoOverflow (ds : List Int) : Prop :=
  ∀ n d, ds[n]? = some d → Fits (lastDelays (ds.take n)) d

/-- The samples of a run have these delays. -/
def HasDelays (inputs : List (Timespec × Payload)) (ds : List Int) : Prop :=
  inputs.map (fun i => delay i.1 i.2) = ds.map some

/-- The sums and what is logged are those of the last delays. -/
structure Exact (ds : List Int) (s : State) (r : Report) : Prop where
  index : s.currCount < winSize
  sum : s.delayMovSum = (lastDelays ds).sum
  sumSqrd : s.delayMovSumSqrd = sumSqrd (lastDelays ds)
  average : r.average = average (lastDelays ds)
  variance : r.variance = variance (lastDelays ds)

/-! ## One sample -/

/-- No index is behind its ring. -/
structure Sized (s : State) : Prop where
  index : s.currCount < winSize
  jitter : s.jitterVal.length = winSize
  series : s.delaySeries.length = winSize
  average : s.movingAvg.length = winSize
  variance : s.movingVar.length = winSize

def next (s : State) (d : Int) (t : Statistics) (jitter : Int) : State :=
  { jitterVal := s.jitterVal.set ((s.currCount + 1) % winSize) jitter
    delaySeries := s.delaySeries.set s.currCount d
    movingAvg := s.movingAvg.set s.currCount t.average
    movingVar := s.movingVar.set s.currCount t.variance
    delayMovSum := t.sum
    delayMovSumSqrd := t.sumSqrd
    currCount := (s.currCount + 1) % winSize }

section
variable {s : State} {d : Int}

theorem int64_of_inRange {x : Int} (h : InRange x) : int64 x = some x := if_pos h

theorem int64_eq_some_iff {x y : Int} : int64 x = some y ↔ InRange x ∧ x = y := by
  unfold int64
  split
  · rename_i h
    rw [Option.some.injEq]
    exact (and_iff_right h).symm
  · rename_i h
    exact iff_of_false (by simp) fun h' => h h'.1

theorem store_of_lt {ring : List Int} {i : Nat} {x : Int} (hi : i < ring.length) :
    store ring i x = some (ring.set i x) := if_pos hi

theorem winSize_pos : 0 < winSize := by decide

theorem sized_initial : Sized initial := ⟨by decide, rfl, rfl, rfl, rfl⟩

theorem Sized.next (hs : Sized s) (d : Int) (t : Statistics) (jitter : Int) :
    Sized (next s d t jitter) where
  index := Nat.mod_lt _ winSize_pos
  jitter := (List.length_set ..).trans hs.jitter
  series := (List.length_set ..).trans hs.series
  average := (List.length_set ..).trans hs.average
  variance := (List.length_set ..).trans hs.variance

theorem next_count {count : Nat} (h : count < winSize) :
    (if count + 1 ≥ winSize then 0 else count + 1) = (count + 1) % winSize := by
  split
  · have : count + 1 = winSize := by omega
    rw [this, Nat.mod_self]
  · rw [Nat.mod_eq_of_lt (by omega)]

theorem update_eq (hs : Sized s) {old last : Int} (hold : s.delaySeries[s.currCount]? = some old)
    (hlast : s.jitterVal[s.currCount]? = some last) :
    update s d = (statistics s d old).bind fun t =>
      (nextJitter last d).map fun jitter => (next s d t jitter, ⟨jitter, t.average, t.variance⟩) := by
  have hmod : (s.currCount + 1) % winSize < s.jitterVal.length := by
    rw [hs.jitter]
    exact Nat.mod_lt _ winSize_pos
  unfold update
  simp only [hold, hlast, Option.bind_eq_bind, Option.bind_some, next_count hs.index,
    store_of_lt (hs.average.symm ▸ hs.index), store_of_lt (hs.variance.symm ▸ hs.index),
    store_of_lt (hs.series.symm ▸ hs.index), store_of_lt hmod]
  generalize statistics s d old = result
  generalize nextJitter last d = change
  cases result with
  | none => rfl
  | some t =>
    cases change with
    | none => rfl
    | some jitter => rfl

theorem Sized.old (hs : Sized s) : ∃ old, s.delaySeries[s.currCount]? = some old :=
  ⟨_, List.getElem?_eq_getElem (hs.series.symm ▸ hs.index)⟩

theorem Sized.last (hs : Sized s) : ∃ last, s.jitterVal[s.currCount]? = some last :=
  ⟨_, List.getElem?_eq_getElem (hs.jitter.symm ▸ hs.index)⟩

end

/-! ## The windows -/

section
variable {s : State} {ds : List Int} {d : Int}

theorem lastDelays_concat (ds : List Int) (d : Int) :
    lastDelays (ds ++ [d]) = (lastDelays ds).tail ++ [d] := Ring.window_concat winSize_pos

theorem lastDelays_cons (ds : List Int) :
    lastDelays ds = (lastDelays ds).headD 0 :: (lastDelays ds).tail := by
  have hlen : (lastDelays ds).length = winSize := Ring.length_window
  cases h : lastDelays ds with
  | nil =>
    rw [h] at hlen
    cases hlen
  | cons old rest => rfl

theorem sum_concat (ds : List Int) (d : Int) :
    (lastDelays (ds ++ [d])).sum = (lastDelays ds).sum + d - (lastDelays ds).headD 0 := by
  have hsum := congrArg List.sum (lastDelays_cons ds)
  rw [List.sum_cons] at hsum
  rw [lastDelays_concat, List.sum_append, List.sum_singleton, hsum]
  ring

theorem sumSqrd_concat (ds : List Int) (d : Int) :
    sumSqrd (lastDelays (ds ++ [d])) =
      sumSqrd (lastDelays ds) + d * d - (lastDelays ds).headD 0 * (lastDelays ds).headD 0 := by
  have hsum := congrArg sumSqrd (lastDelays_cons ds)
  unfold sumSqrd at hsum ⊢
  rw [List.map_cons, List.sum_cons] at hsum
  rw [lastDelays_concat, List.map_append, List.sum_append, List.map_singleton, List.sum_singleton,
    hsum]
  ring

structure Tracks (s : State) (ds : List Int) : Prop where
  index : s.currCount = ds.length % winSize
  series : s.delaySeries = Ring.writeAll (List.replicate winSize 0) ds
  sum : s.delayMovSum = (lastDelays ds).sum
  sumSqrd : s.delayMovSumSqrd = sumSqrd (lastDelays ds)

theorem tracks_initial : Tracks initial [] := ⟨rfl, rfl, rfl, rfl⟩

theorem Tracks.old (h : Tracks s ds) :
    s.delaySeries[s.currCount]? = some ((lastDelays ds).headD 0) := by
  have hrotate : (Ring.writeAll (List.replicate winSize (0 : Int)) ds).rotate ds.length =
      lastDelays ds := Ring.rotate_writeAll winSize_pos ds
  have hlen : (Ring.writeAll (List.replicate winSize (0 : Int)) ds).length = winSize := by
    rw [Ring.writeAll, Ring.length_storeAll, List.length_replicate]
  have hhead := congrArg (fun l => l[0]?) hrotate
  have hcons := congrArg (fun l => l[0]?) (lastDelays_cons ds)
  rw [List.getElem?_rotate (by rw [hlen]; exact winSize_pos), Nat.zero_add, hlen] at hhead
  rw [h.series, h.index, hhead]
  exact hcons

theorem statistics_eq (h : Tracks s ds) (hfits : Fits (lastDelays ds) d) :
    statistics s d ((lastDelays ds).headD 0) = some
      ⟨(lastDelays (ds ++ [d])).sum, sumSqrd (lastDelays (ds ++ [d])),
        average (lastDelays (ds ++ [d])), variance (lastDelays (ds ++ [d]))⟩ := by
  unfold statistics average variance
  rw [sum_concat, sumSqrd_concat, h.sum, h.sumSqrd]
  simp only [Option.bind_eq_bind, int64_of_inRange hfits.added, int64_of_inRange hfits.sum,
    int64_of_inRange hfits.square, int64_of_inRange hfits.addedSqrd,
    int64_of_inRange hfits.oldSquare, int64_of_inRange hfits.sumSqrd,
    int64_of_inRange hfits.squaredSum, Option.bind_some]
  have hdifference := int64_of_inRange hfits.difference
  rw [show ((winSize : Nat) : Int) = 16 from rfl, hdifference]
  rfl

theorem Tracks.next (h : Tracks s ds) (jitter : Int) :
    Tracks (next s d ⟨(lastDelays (ds ++ [d])).sum, JitterCalcHook.sumSqrd (lastDelays (ds ++ [d])),
      average (lastDelays (ds ++ [d])), variance (lastDelays (ds ++ [d]))⟩ jitter) (ds ++ [d]) where
  index := by
    show (s.currCount + 1) % winSize = (ds ++ [d]).length % winSize
    rw [h.index, Nat.mod_add_mod, List.length_append, List.length_singleton]
  series := by
    show s.delaySeries.set s.currCount d = _
    rw [h.series, h.index, Ring.writeAll, Ring.writeAll, Ring.storeAll_concat, Nat.zero_add,
      List.length_replicate]
  sum := rfl
  sumSqrd := rfl

end

/-! ## The jitter -/

/-- The jitter behind a delay, as it is calculated. -/
def approach (last x : Int) : Int := last + (x - last).tdiv 16

def jitter (ds : List Int) : Int := ds.foldl (fun last d => approach last d.natAbs) 0

section
variable {s s' : State} {ds : List Int} {d last x : Int} {r : Report}

theorem jitter_concat (ds : List Int) (d : Int) :
    jitter (ds ++ [d]) = approach (jitter ds) d.natAbs := by
  rw [jitter, List.foldl_append]
  rfl

theorem approach_between (last x : Int) :
    min last x ≤ approach last x ∧ approach last x ≤ max last x := by
  unfold approach
  obtain hle | hlt := le_or_gt last x
  · have hpos := Int.tdiv_eq_ediv_of_nonneg (b := 16) (sub_nonneg.mpr hle)
    rw [hpos]
    omega
  · have hneg : (x - last).tdiv 16 = -((last - x) / 16) := by
      rw [← Int.tdiv_eq_ediv_of_nonneg (by omega), ← Int.neg_tdiv, neg_sub]
    rw [hneg]
    omega

theorem approach_nonneg (hlast : 0 ≤ last) (hx : 0 ≤ x) : 0 ≤ approach last x := by
  have hbetween := approach_between last x
  omega

theorem jitter_nonneg (ds : List Int) : 0 ≤ jitter ds := by
  induction ds using List.reverseRecOn with
  | nil => exact le_refl 0
  | append_singleton ds d ih =>
    rw [jitter_concat]
    exact approach_nonneg ih (Int.natCast_nonneg _)

theorem nextJitter_eq_some (h : nextJitter last d = some x) : x = approach last d.natAbs := by
  unfold nextJitter at h
  simp only [Option.bind_eq_bind, Option.bind_eq_some_iff, int64_eq_some_iff] at h
  obtain ⟨absolute, ⟨-, rfl⟩, change, ⟨-, rfl⟩, -, rfl⟩ := h
  rfl

theorem nextJitter_eq (hd : InRange d.natAbs) (hlast : 0 ≤ last) (hrange : InRange last) :
    nextJitter last d = some (approach last d.natAbs) := by
  have hbetween := approach_between last d.natAbs
  have hchange : InRange ((d.natAbs : Int) - last) := by
    unfold InRange at *
    omega
  have hnext : InRange (approach last d.natAbs) := by
    unfold InRange at *
    omega
  unfold nextJitter
  simp only [Option.bind_eq_bind, int64_of_inRange hd, int64_of_inRange hchange, Option.bind_some]
  exact int64_of_inRange hnext

structure Jitters (s : State) (ds : List Int) : Prop where
  sized : Sized s
  jitter : s.jitterVal[s.currCount]? = some (jitter ds)

theorem jitters_initial : Jitters initial [] := ⟨sized_initial, rfl⟩

theorem Jitters.next (h : Jitters s ds) (d : Int) (t : Statistics) :
    Jitters (next s d t (JitterCalcHook.jitter (ds ++ [d]))) (ds ++ [d]) := by
  refine ⟨h.sized.next d t _, ?_⟩
  have hlt : (s.currCount + 1) % winSize < s.jitterVal.length := by
    rw [h.sized.jitter]
    exact Nat.mod_lt _ winSize_pos
  exact List.getElem?_set_self hlt

theorem Jitters.update (h : Jitters s ds) (hupdate : update s d = some (s', r)) :
    Jitters s' (ds ++ [d]) ∧ r.jitter = JitterCalcHook.jitter (ds ++ [d]) := by
  obtain ⟨old, hold⟩ := h.sized.old
  rw [update_eq h.sized hold h.jitter, Option.bind_eq_some_iff] at hupdate
  obtain ⟨t, -, hupdate⟩ := hupdate
  rw [Option.map_eq_some_iff] at hupdate
  obtain ⟨jitter', hjitter, heq⟩ := hupdate
  have hnext := nextJitter_eq_some hjitter
  rw [← jitter_concat] at hnext
  subst hnext
  cases heq
  exact ⟨h.next d t, rfl⟩

theorem jitter_inRange (hds : ∀ d ∈ ds, InRange d.natAbs) : InRange (jitter ds) := by
  induction ds using List.reverseRecOn with
  | nil => decide
  | append_singleton ds d ih =>
    have hbetween := approach_between (jitter ds) d.natAbs
    have hlast := ih fun d' hd' => hds d' (List.mem_append_left _ hd')
    have hd := hds d (List.mem_append_right _ (List.mem_singleton_self d))
    rw [jitter_concat]
    unfold InRange at *
    omega

end

/-! ## Runs -/

section
variable {s : State} {before ds : List Int} {inputs : List (Timespec × Payload)}
  {t : List (State × Report)}

theorem hasDelays_cons {now : Timespec} {smp : Payload} {inputs : List (Timespec × Payload)}
    (h : HasDelays ((now, smp) :: inputs) ds) :
    ∃ d rest, ds = d :: rest ∧ delay now smp = some d ∧ HasDelays inputs rest := by
  cases ds with
  | nil => cases h
  | cons d rest =>
    have hcons := List.cons_eq_cons.mp h
    exact ⟨d, rest, rfl, hcons.1, hcons.2⟩

theorem update_exact {d : Int} (hj : Jitters s before) (ht : Tracks s before)
    (hbefore : ∀ d ∈ before, InRange d.natAbs) (hfits : Fits (lastDelays before) d) :
    ∃ s' r, update s d = some (s', r) ∧ Jitters s' (before ++ [d]) ∧ Tracks s' (before ++ [d]) ∧
      Exact (before ++ [d]) s' r := by
  have hnext := nextJitter_eq hfits.absolute (jitter_nonneg before) (jitter_inRange hbefore)
  rw [← jitter_concat] at hnext
  have hstep := update_eq (d := d) hj.sized ht.old hj.jitter
  rw [statistics_eq ht hfits, Option.bind_some, hnext, Option.map_some] at hstep
  have hj' := hj.next d
    ⟨(lastDelays (before ++ [d])).sum, sumSqrd (lastDelays (before ++ [d])),
      average (lastDelays (before ++ [d])), variance (lastDelays (before ++ [d]))⟩
  exact ⟨_, _, hstep, hj', ht.next _, hj'.sized.index, rfl, rfl, rfl, rfl⟩

theorem trace_exact (hj : Jitters s before) (ht : Tracks s before)
    (hbefore : ∀ d ∈ before, InRange d.natAbs) (hdelays : HasDelays inputs ds)
    (hfits : ∀ n d, ds[n]? = some d → Fits (lastDelays (before ++ ds.take n)) d) :
    ∃ t, trace s inputs = some t ∧ t.length = ds.length ∧
      ∀ n s' r, t[n]? = some (s', r) → Exact (before ++ ds.take (n + 1)) s' r := by
  induction inputs generalizing s before ds with
  | nil =>
    obtain rfl : ds = [] := by
      rw [HasDelays, List.map_nil, eq_comm, List.map_eq_nil_iff] at hdelays
      exact hdelays
    refine ⟨[], rfl, rfl, fun n s' r hn => ?_⟩
    rw [List.getElem?_nil] at hn
    cases hn
  | cons input inputs ih =>
    obtain ⟨now, smp⟩ := input
    obtain ⟨d, rest, rfl, hd, hrest⟩ := hasDelays_cons hdelays
    have hfirst := hfits 0 d rfl
    rw [List.take_zero, List.append_nil] at hfirst
    obtain ⟨s', r, hupdate, hj', ht', hexact⟩ := update_exact hj ht hbefore hfirst
    have hbefore' : ∀ d' ∈ before ++ [d], InRange d'.natAbs := by
      intro d' hd'
      obtain hd' | hd' := List.mem_append.mp hd'
      · exact hbefore d' hd'
      · rw [List.mem_singleton.mp hd']
        exact hfirst.absolute
    obtain ⟨t, htrace, hlen, hall⟩ := ih hj' ht' hbefore' hrest fun n d' hn => by
      have hlater := hfits (n + 1) d' hn
      rwa [List.take_succ_cons, List.append_cons] at hlater
    refine ⟨(s', r) :: t, ?_, ?_, ?_⟩
    · rw [trace, process, hd, Option.bind_some, hupdate]
      simp only [Option.bind_eq_bind, Option.bind_some, htrace]
    · rw [List.length_cons, List.length_cons, hlen]
    · intro n s'' r' hn
      rw [List.take_succ_cons]
      cases n with
      | zero =>
        cases hn
        rw [List.take_zero]
        exact hexact
      | succ n =>
        have hlater := hall n s'' r' hn
        rwa [← List.append_cons] at hlater

/-- The sums, the average and the variance are those of the last delays, behind each sample of any
run. -/
theorem statistics_of_last_delays (hdelays : HasDelays inputs ds) (hfits : NoOverflow ds) :
    ∃ t, trace initial inputs = some t ∧ t.length = ds.length ∧
      ∀ n s r, t[n]? = some (s, r) → Exact (ds.take (n + 1)) s r :=
  trace_exact jitters_initial tracks_initial (fun _ hd => absurd hd List.not_mem_nil) hdelays hfits

theorem trace_jitter (hj : Jitters s before) (hdelays : HasDelays inputs ds)
    (htrace : trace s inputs = some t) {n : Nat} {s' : State} {r : Report}
    (hn : t[n]? = some (s', r)) : r.jitter = jitter (before ++ ds.take (n + 1)) := by
  induction inputs generalizing s before ds t n with
  | nil =>
    cases htrace
    rw [List.getElem?_nil] at hn
    cases hn
  | cons input inputs ih =>
    obtain ⟨now, smp⟩ := input
    obtain ⟨d, rest, rfl, hd, hrest⟩ := hasDelays_cons hdelays
    rw [trace, process, hd, Option.bind_some] at htrace
    simp only [Option.bind_eq_bind, Option.bind_eq_some_iff] at htrace
    obtain ⟨⟨s₁, r₁⟩, hupdate, later, hlater, heq⟩ := htrace
    cases heq
    obtain ⟨hj', hjitter⟩ := hj.update hupdate
    rw [List.take_succ_cons]
    cases n with
    | zero =>
      cases hn
      rw [List.take_zero]
      exact hjitter
    | succ n =>
      have hlast := ih hj' hrest hlater hn
      rwa [← List.append_cons] at hlast

end

/-! ## The recurrence of RFC 3550 -/

/-- `J(i) = J(i-1) + (|D(i-1,i)| - J(i-1)) / 16` behind the first sample, and what it says about a
delay that does not change. -/
structure FollowsRfc3550 (ds js : List Int) : Prop where
  recurrence : ∀ i d d' j j', ds[i]? = some d → ds[i + 1]? = some d' → js[i]? = some j →
    js[i + 1]? = some j' → j' = j + (((d' - d).natAbs : Int) - j).tdiv 16
  steady : ∀ c, (∀ d ∈ ds, d = c) → ∀ i j j', js[i]? = some j → js[i + 1]? = some j' → j' ≤ j

def logged (t : List (State × Report)) : List Int := t.map fun x => x.2.jitter

section
variable {ds : List Int} {inputs : List (Timespec × Payload)} {t : List (State × Report)}

theorem logged_getElem? (hdelays : HasDelays inputs ds) (htrace : trace initial inputs = some t)
    {i : Nat} {j : Int} (hj : (logged t)[i]? = some j) : j = jitter (ds.take (i + 1)) := by
  rw [logged, List.getElem?_map, Option.map_eq_some_iff] at hj
  obtain ⟨⟨s, r⟩, hi, rfl⟩ := hj
  exact trace_jitter jitters_initial hdelays htrace hi

theorem trace_length {s : State} (htrace : trace s inputs = some t) : t.length = inputs.length := by
  induction inputs generalizing s t with
  | nil =>
    cases htrace
    rfl
  | cons input inputs ih =>
    obtain ⟨now, smp⟩ := input
    rw [trace] at htrace
    simp only [Option.bind_eq_bind, Option.bind_eq_some_iff] at htrace
    obtain ⟨⟨s', r⟩, -, later, hlater, heq⟩ := htrace
    cases heq
    rw [List.length_cons, List.length_cons, ih hlater]

theorem follows_iff (hdelays : HasDelays inputs ds) (htrace : trace initial inputs = some t) :
    FollowsRfc3550 ds (logged t) ↔
      ∀ i d d', ds[i]? = some d → ds[i + 1]? = some d' →
        ((d'.natAbs : Int) - jitter (ds.take (i + 1))).tdiv 16 =
          (((d' - d).natAbs : Int) - jitter (ds.take (i + 1))).tdiv 16 := by
  have hlen : (logged t).length = ds.length := by
    have hsame := congrArg List.length hdelays
    rw [List.length_map, List.length_map] at hsame
    rw [logged, List.length_map, trace_length htrace, hsame]
  -- the next jitter, as it is calculated
  have hnext : ∀ {i d'}, ds[i + 1]? = some d' → jitter (ds.take (i + 1 + 1)) =
      jitter (ds.take (i + 1)) + ((d'.natAbs : Int) - jitter (ds.take (i + 1))).tdiv 16 := by
    intro i d' hd'
    rw [List.take_add_one, hd', Option.toList_some, jitter_concat]
    rfl
  constructor
  · intro hfollows i d d' hd hd'
    have hi := (List.getElem?_eq_some_iff.mp hd').1
    obtain ⟨j, hj⟩ : ∃ j, (logged t)[i]? = some j := ⟨_, List.getElem?_eq_getElem (by omega)⟩
    obtain ⟨j', hj'⟩ : ∃ j', (logged t)[i + 1]? = some j' :=
      ⟨_, List.getElem?_eq_getElem (by omega)⟩
    have hrec := hfollows.recurrence i d d' j j' hd hd' hj hj'
    rw [logged_getElem? hdelays htrace hj', logged_getElem? hdelays htrace hj, hnext hd'] at hrec
    exact add_left_cancel hrec
  · intro hcond
    have hrec : ∀ i d d' j j', ds[i]? = some d → ds[i + 1]? = some d' → (logged t)[i]? = some j →
        (logged t)[i + 1]? = some j' → j' = j + (((d' - d).natAbs : Int) - j).tdiv 16 := by
      intro i d d' j j' hd hd' hj hj'
      rw [logged_getElem? hdelays htrace hj', logged_getElem? hdelays htrace hj, hnext hd',
        hcond i d d' hd hd']
    refine ⟨hrec, fun c hc i j j' hj hj' => ?_⟩
    have hi := (List.getElem?_eq_some_iff.mp hj').1
    obtain ⟨d, hd⟩ : ∃ d, ds[i]? = some d := ⟨_, List.getElem?_eq_getElem (by omega)⟩
    obtain ⟨d', hd'⟩ : ∃ d', ds[i + 1]? = some d' := ⟨_, List.getElem?_eq_getElem (by omega)⟩
    have hstep := hrec i d d' j j' hd hd' hj hj'
    rw [hc d (List.mem_of_getElem? hd), hc d' (List.mem_of_getElem? hd'), sub_self] at hstep
    have hpos : 0 ≤ j := by
      rw [logged_getElem? hdelays htrace hj]
      exact jitter_nonneg _
    have hbetween := (approach_between j 0).2
    rw [hstep]
    exact hbetween.trans (max_le (le_refl j) hpos)

theorem near_of_tdiv_eq {x y : Int} (h : x.tdiv 16 = y.tdiv 16) : (x - y).natAbs ≤ 30 := by
  have hx := Int.mul_tdiv_add_tmod x 16
  have hy := Int.mul_tdiv_add_tmod y 16
  have hx' := Int.tmod_lt_of_pos x (show (0 : Int) < 16 by decide)
  have hy' := Int.tmod_lt_of_pos y (show (0 : Int) < 16 by decide)
  have hx'' := Int.lt_tmod_of_pos x (show (0 : Int) < 16 by decide)
  have hy'' := Int.lt_tmod_of_pos y (show (0 : Int) < 16 by decide)
  omega

/-- The recurrence is followed where the size of each change of the delay is that of the delay itself,
and nowhere that these are more than 30 microseconds apart. -/
theorem jitter_follows_where (hdelays : HasDelays inputs ds) (htrace : trace initial inputs = some t) :
    ((∀ i d d', ds[i]? = some d → ds[i + 1]? = some d' → (d' - d).natAbs = d'.natAbs) →
      FollowsRfc3550 ds (logged t)) ∧
    (FollowsRfc3550 ds (logged t) → ∀ i d d', ds[i]? = some d → ds[i + 1]? = some d' →
      ((d'.natAbs : Int) - (d' - d).natAbs).natAbs ≤ 30) := by
  rw [follows_iff hdelays htrace]
  refine ⟨fun hsame i d d' hd hd' => ?_, fun hquotients i d d' hd hd' => ?_⟩
  · rw [hsame i d d' hd hd']
  · have hnear := near_of_tdiv_eq (hquotients i d d' hd hd')
    rwa [sub_sub_sub_cancel_right] at hnear

end

/-! ## A delay of 160 microseconds -/

def blank : Payload := ⟨0, 0, 0, 0, ⟨0, 0⟩, ⟨0, 0⟩, fun _ => 0⟩

/-- A sample that takes this many nanoseconds. -/
def after (nsec : BitVec 64) : Timespec × Payload := (⟨0, nsec⟩, blank)

theorem after_delays : HasDelays [after 160000, after 160000] [160, 160] := rfl

theorem fits_first : NoOverflow [160, 160] := by
  intro n d hd
  have hn := (List.getElem?_eq_some_iff.mp hd).1
  match n, hn with
  | 0, _ =>
    cases hd
    exact ⟨by decide, by decide, by decide, by decide, by decide, by decide, by decide, by decide,
      by decide⟩
  | 1, _ =>
    cases hd
    exact ⟨by decide, by decide, by decide, by decide, by decide, by decide, by decide, by decide,
      by decide⟩

theorem statistics_of_two :
    ∃ t, trace initial [after 160000, after 160000] = some t ∧ t.length = 2 ∧
      ∀ n s r, t[n]? = some (s, r) → Exact ([160, 160].take (n + 1)) s r :=
  statistics_of_last_delays after_delays fits_first

theorem jitter_follows_halved :
    ∃ t, trace initial [after 320000, after 160000] = some t ∧
      FollowsRfc3550 [320, 160] (logged t) := by
  obtain ⟨t, htrace⟩ : ∃ t, trace initial [after 320000, after 160000] = some t := ⟨_, rfl⟩
  have hdelays : HasDelays [after 320000, after 160000] [320, 160] := rfl
  refine ⟨t, htrace, (jitter_follows_where hdelays htrace).1 fun i d d' hd hd' => ?_⟩
  have hi := (List.getElem?_eq_some_iff.mp hd').1
  obtain rfl : i = 0 := by
    rw [List.length_cons, List.length_cons, List.length_nil] at hi
    omega
  cases hd
  cases hd'
  decide

/-- Two samples with the same delay are logged with a jitter of 10 and then of 19. -/
theorem jitter_rises :
    ¬ ∀ inputs ds t, HasDelays inputs ds → trace initial inputs = some t →
      FollowsRfc3550 ds (logged t) := by
  intro hall
  obtain ⟨t, htrace, hlogged⟩ :
      ∃ t, trace initial [after 160000, after 160000] = some t ∧ logged t = [10, 19] :=
    ⟨_, rfl, rfl⟩
  have hfollows := hall _ _ t after_delays htrace
  rw [hlogged] at hfollows
  exact absurd (hfollows.recurrence 0 160 160 10 19 rfl rfl rfl rfl) (by decide)

end VillasNode.JitterCalcHook
