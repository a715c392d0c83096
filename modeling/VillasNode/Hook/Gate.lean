import Mathlib.Algebra.Order.Field.Rat
import Mathlib.Tactic.Linarith
import Mathlib.Tactic.NormNum
import VillasNode.Hook.Model
import VillasNode.Lib.Runs

/-!
# The hook gate

`lib/hooks/gate.cpp`. The gate is opened by its signal and stays open for some
time. `time_delta` gets its two timestamps in the wrong order, and the gate is
never closed again.
-/

namespace VillasNode.GateHook

open Runs

/-- In seconds. -/
def seconds (ts : Timespec) : ℚ := ts.sec.toInt + ts.nsec.toInt / 1000000000

/-- `time_delta(start, end)` is of the common submodule, and it is taken to be `end - start` in
seconds. -/
def timeDelta (start stop : Timespec) : ℚ := seconds stop - seconds start

inductive Mode where
  | above
  | below
  | risingEdge
  | fallingEdge
deriving DecidableEq

/-- The settings, and the comparisons of a `double`. -/
structure Gate where
  less : Value → Value → Bool
  isnan : Value → Bool
  mode : Mode
  threshold : Value
  duration : ℚ
  samples : Int
  signalIndex : Nat

structure State where
  previousValue : Value
  active : Bool
  startSequence : BitVec 64
  startTime : Timespec
deriving DecidableEq

variable (g : Gate)

/-- The `switch` over the mode. -/
def judge (previousValue value : Value) : Reason :=
  let passes : Bool :=
    match g.mode with
    | .above => g.less g.threshold value
    | .below => g.less value g.threshold
    | .risingEdge => !g.isnan previousValue && g.less previousValue value
    | .fallingEdge => !g.isnan previousValue && g.less value previousValue
  if passes then .ok else .skipSample

/-- What happens to a sample while the gate is closed. -/
def processClosed (s : State) (smp : Payload) : State × Reason :=
  let value := smp.data g.signalIndex
  match judge g s.previousValue value with
  | .ok => (⟨value, true, smp.sequence, smp.origin⟩, .ok)
  | reason => ({ s with previousValue := value, active := false }, reason)

/-- `GateHook::process` -/
def process (s : State) (smp : Payload) : State × Reason :=
  if s.active then
    if 0 < g.duration ∧ timeDelta smp.origin s.startTime < g.duration then
      ({ s with previousValue := smp.data g.signalIndex }, .ok)
    else if 0 < g.samples ∧ ((smp.sequence - s.startSequence).toNat : Int) < g.samples then
      ({ s with previousValue := smp.data g.signalIndex }, .ok)
    else processClosed g s smp
  else processClosed g s smp

/-! ## The specification -/

/-- The gate is open until `duration` has passed since the sample that opened it. -/
def windowProcess (s : State) (smp : Payload) : State × Reason :=
  if s.active ∧ timeDelta s.startTime smp.origin < g.duration then
    ({ s with previousValue := smp.data g.signalIndex }, .ok)
  else processClosed g s smp

/-- What a step function returns for the samples, and if the gate is open behind each, since when. -/
def trace (f : State → Payload → State × Reason) : State → List Payload → List (Reason × Option Timespec)
  | _, [] => []
  | s, smp :: smps =>
    let (s, reason) := f s smp
    (reason, if s.active then some s.startTime else none) :: trace f s smps

/-- The samples are passed and the gate is opened and closed as the window says. -/
def KeepsWindow (s : State) (smps : List Payload) : Prop :=
  trace (process g) s smps = trace (windowProcess g) s smps

instance (s : State) (smps : List Payload) : Decidable (KeepsWindow g s smps) :=
  inferInstanceAs (Decidable (_ = _))

/-! ## When it is met -/

def step (s : State) (smp : Payload) : Option State := some (process g s smp).1

/-- The gate is closed, or the sample comes before its end. -/
def InWindow (s : State) (smp : Payload) : Prop :=
  s.active → timeDelta s.startTime smp.origin < g.duration

/-- The timestamps do not go back. -/
def Ordered (smps : List Payload) : Prop :=
  smps.Pairwise fun a b => seconds a.origin ≤ seconds b.origin

section
variable {g} {s : State} {smp : Payload} {smps : List Payload}

theorem process_closed (h : s.active = false) : process g s smp = windowProcess g s smp := by
  unfold process windowProcess
  simp [h]

theorem process_active (hduration : 0 < g.duration) (h : s.active = true)
    (hle : seconds s.startTime ≤ seconds smp.origin) :
    process g s smp = ({ s with previousValue := smp.data g.signalIndex }, .ok) := by
  have hdelta : timeDelta smp.origin s.startTime < g.duration := by
    unfold timeDelta
    linarith
  unfold process
  rw [if_pos h, if_pos ⟨hduration, hdelta⟩]

theorem processClosed_active {s' : State} {reason : Reason}
    (h : processClosed g s smp = (s', reason)) (hactive : s'.active = true) :
    s'.startTime = smp.origin := by
  unfold processClosed at h
  dsimp only at h
  split at h
  · cases h
    rfl
  · cases h
    cases hactive

theorem process_startTime {s' : State} {reason : Reason} (h : process g s smp = (s', reason))
    (hactive : s'.active = true) :
    s'.startTime = smp.origin ∨ s.active = true ∧ s'.startTime = s.startTime := by
  unfold process at h
  split at h
  · rename_i hopen
    split at h
    · cases h
      exact .inr ⟨hopen, rfl⟩
    split at h
    · cases h
      exact .inr ⟨hopen, rfl⟩
    · exact .inl (processClosed_active h hactive)
  · exact .inl (processClosed_active h hactive)

theorem not_keepsWindow (hduration : 0 < g.duration) (h : s.active = true)
    (hlate : g.duration ≤ timeDelta s.startTime smp.origin) : ¬ KeepsWindow g s (smp :: smps) := by
  have hle : seconds s.startTime ≤ seconds smp.origin := by
    unfold timeDelta at hlate
    linarith
  have hne : smp.origin ≠ s.startTime := by
    intro heq
    unfold timeDelta at hlate
    rw [heq] at hlate
    linarith
  have hwindow : windowProcess g s smp = processClosed g s smp := by
    apply if_neg
    rintro ⟨-, hlt⟩
    linarith
  intro hkeeps
  unfold KeepsWindow trace at hkeeps
  rw [process_active hduration h hle, hwindow] at hkeeps
  rcases hclosed : processClosed g s smp with ⟨s', reason⟩
  rw [hclosed] at hkeeps
  dsimp only at hkeeps
  have hhead := congrArg Prod.snd (List.cons.inj hkeeps).1
  rw [if_pos h] at hhead
  by_cases hactive : s'.active = true
  · rw [if_pos hactive] at hhead
    have hstart := processClosed_active hclosed hactive
    exact hne (hstart.symm.trans (Option.some.inj hhead).symm)
  · rw [if_neg hactive] at hhead
    cases hhead

theorem keepsWindow_cons (h : process g s smp = windowProcess g s smp) :
    KeepsWindow g s (smp :: smps) ↔ KeepsWindow g (process g s smp).1 smps := by
  unfold KeepsWindow
  rw [trace, trace, ← h, List.cons.injEq, and_iff_right rfl]

theorem process_eq_window (hduration : 0 < g.duration) (hwindow : InWindow g s smp)
    (hle : s.active = true → seconds s.startTime ≤ seconds smp.origin) :
    process g s smp = windowProcess g s smp := by
  by_cases h : s.active = true
  · rw [process_active hduration h (hle h)]
    exact (if_pos ⟨h, hwindow h⟩).symm
  · exact process_closed (Bool.eq_false_iff.mpr h)

theorem keepsWindow_along (hduration : 0 < g.duration) (hordered : Ordered smps)
    (hle : s.active = true → ∀ smp ∈ smps, seconds s.startTime ≤ seconds smp.origin) :
    KeepsWindow g s smps ↔ Along (step g) (InWindow g) s smps := by
  induction smps generalizing s with
  | nil => exact iff_of_true rfl trivial
  | cons smp smps ih =>
    obtain ⟨hfirst, hordered⟩ := List.pairwise_cons.mp hordered
    have hstep : step g s smp = some (process g s smp).1 := rfl
    rw [along_cons_iff hstep]
    by_cases hwindow : InWindow g s smp
    · have hsame := process_eq_window hduration hwindow fun h => hle h smp (by simp)
      rw [keepsWindow_cons hsame, and_iff_right hwindow]
      apply ih hordered
      intro hactive later hlater
      obtain hstart | ⟨hopen, hstart⟩ := process_startTime (Prod.mk.eta).symm hactive
      · rw [hstart]
        exact hfirst later hlater
      · rw [hstart]
        exact hle hopen later (List.mem_cons_of_mem _ hlater)
    · obtain ⟨hactive, hlate⟩ := Classical.not_imp.mp hwindow
      refine iff_of_false (not_keepsWindow hduration hactive (not_lt.mp hlate)) ?_
      exact fun h => hwindow h.1

end

/-- For every mode and every sequence of samples that does not go back in time, from a closed gate: the
samples are passed as the window says if and only if none comes at its end or later. -/
theorem keepsWindow_iff {g : Gate} (hduration : 0 < g.duration) {s : State} (hclosed : s.active = false)
    {smps : List Payload} (hordered : Ordered smps) :
    KeepsWindow g s smps ↔ Along (step g) (InWindow g) s smps := by
  apply keepsWindow_along hduration hordered
  intro h
  rw [hclosed] at h
  cases h

/-! ## One second -/

/-- `above` with a threshold of 0.5. Only the value 1 is larger. -/
def exampleGate : Gate where
  less _ value := value = 0x3ff0000000000000
  isnan _ := false
  mode := .above
  threshold := 0x3fe0000000000000
  duration := 1
  samples := -1
  signalIndex := 0

def exampleState : State := ⟨0x7ff8000000000000, false, 0, ⟨0, 0⟩⟩

def exampleSmp (origin : Timespec) (value : Value) : Payload :=
  { sequence := 0, length := 1, flags := 0, signals := 0, origin, received := ⟨0, 0⟩
    data := fun _ => value }

/-- A value that is passed by and one that opens the gate. The last one comes half a second later. -/
def openingSmps : List Payload :=
  [exampleSmp ⟨1, 0⟩ 0, exampleSmp ⟨2, 0⟩ 0x3ff0000000000000, exampleSmp ⟨2, 500000000⟩ 0]

theorem keepsWindow_opened :
    KeepsWindow exampleGate exampleState openingSmps ↔
      Along (step exampleGate) (InWindow exampleGate) exampleState openingSmps := by
  apply keepsWindow_iff
  · exact one_pos
  · rfl
  · unfold Ordered
    decide +kernel

example : trace (process exampleGate) exampleState openingSmps =
    [(.skipSample, none), (.ok, some ⟨2, 0⟩), (.ok, some ⟨2, 0⟩)] := by
  decide +kernel

/-- The gate is opened for one second. The sample with the value 0 comes ten seconds later, and is
passed. -/
theorem never_closed :
    let smps := [exampleSmp ⟨1, 0⟩ 0x3ff0000000000000, exampleSmp ⟨11, 0⟩ 0]
    0 < exampleGate.duration ∧ exampleGate.samples ≤ 0 ∧ Ordered smps ∧
      trace (process exampleGate) exampleState smps = [(.ok, some ⟨1, 0⟩), (.ok, some ⟨1, 0⟩)] ∧
      ¬ KeepsWindow exampleGate exampleState smps := by
  refine ⟨one_pos, by decide, ?_, by decide +kernel, by decide +kernel⟩
  norm_num [Ordered, seconds, exampleSmp]
  decide

end VillasNode.GateHook
