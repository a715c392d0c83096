import Mathlib.Algebra.Order.Ring.Rat
import VillasNode.Hook.Model

/-!
# The hook skip_first

`lib/hooks/skip_first.cpp`. The hook has a state for normal operation, when all
samples were skipped, but never gets there: each sample is compared with the
end of the skipping again.
-/

namespace VillasNode.SkipFirstHook

/-- `time_add` and `time_delta`. -/
structure Clock where
  timeAdd : Timespec → Timespec → Timespec
  timeDelta : Timespec → Timespec → ℚ

inductive SkipState where
  | started
  | skipping
  | normal
deriving DecidableEq

inductive Mode where
  | seconds (wait : Timespec)
  | samples (wait : BitVec 32)
deriving DecidableEq

/-- The `until` of the mode is in use. -/
structure State where
  skipState : SkipState
  samplesUntil : BitVec 64
  secondsUntil : Timespec

inductive Event where
  | start
  | restart
  | sample (smp : Payload)

section
variable (c : Clock) (mode : Mode)

/-- The sequence number or timestamp of the first sample is remembered. -/
def remember (s : State) (smp : Payload) : State :=
  if s.skipState = .started then
    match mode with
    | .samples wait =>
      { s with skipState := .skipping, samplesUntil := smp.sequence + wait.signExtend 64 }
    | .seconds wait => { s with skipState := .skipping, secondsUntil := c.timeAdd smp.origin wait }
  else s

/-- `SkipFirstHook::process` -/
def process (s : State) (smp : Payload) : State × Reason :=
  let s := remember c mode s smp
  match mode with
  | .samples _ => if smp.sequence < s.samplesUntil then (s, .skipSample) else (s, .ok)
  | .seconds _ => if c.timeDelta s.secondsUntil smp.origin < 0 then (s, .skipSample) else (s, .ok)

/-- `start`, `restart` and `process`, which is the only one that returns a reason. -/
def handle (s : State) : Event → State × Option Reason
  | .start | .restart => ({ s with skipState := .started }, none)
  | .sample smp =>
    let (s, reason) := process c mode s smp
    (s, some reason)

def reasons : State → List Event → List (Option Reason)
  | _, [] => []
  | s, e :: es =>
    let (s, reason) := handle c mode s e
    reason :: reasons s es

end

/-! ## The specification -/

/-- No sample is skipped behind one that was passed, until the next start. `passed` says if one was. -/
def Settled : Bool → List (Option Reason) → Prop
  | _, [] => True
  | _, none :: rest => Settled false rest
  | passed, some reason :: rest =>
    (passed → reason = .ok) ∧ Settled (passed || reason = .ok) rest

/-! ## When it is met -/

/-- The sample is in the part to skip that begins with `first`. -/
def Early (c : Clock) (mode : Mode) (first smp : Payload) : Prop :=
  match mode with
  | .samples wait => smp.sequence < first.sequence + wait.signExtend 64
  | .seconds wait => c.timeDelta (c.timeAdd first.origin wait) smp.origin < 0

instance (c : Clock) (mode : Mode) (first smp : Payload) : Decidable (Early c mode first smp) := by
  cases mode <;> exact inferInstanceAs (Decidable (_ < _))

/-- The samples before the next start, and those of each start from there on. -/
def segments : List Event → List Payload × List (List Payload)
  | [] => ([], [])
  | .start :: es | .restart :: es => ([], (segments es).1 :: (segments es).2)
  | .sample smp :: es => (smp :: (segments es).1, (segments es).2)

/-- Behind a sample at the end of the part to skip or later, there is no early one. -/
def Steady (c : Clock) (mode : Mode) : List Payload → Prop
  | [] => True
  | first :: smps =>
    (first :: smps).Pairwise fun x y => ¬ Early c mode first x → ¬ Early c mode first y

/-- The samples before the next start, and those of every start behind it, are steady. -/
def AllSteady (c : Clock) (mode : Mode) (es : List Event) : Prop :=
  Steady c mode (segments es).1 ∧ ∀ smps ∈ (segments es).2, Steady c mode smps

section
variable {c : Clock} {mode : Mode} {s : State} {first smp : Payload}

/-! ## One sample -/

/-- The part to skip begins with `first`. -/
def Begun (c : Clock) (mode : Mode) (s : State) (first : Payload) : Prop :=
  s.skipState ≠ .started ∧
    match mode with
    | .samples wait => s.samplesUntil = first.sequence + wait.signExtend 64
    | .seconds wait => s.secondsUntil = c.timeAdd first.origin wait

theorem remember_begun (h : s.skipState = .started) (first : Payload) :
    Begun c mode (remember c mode s first) first := by
  unfold remember
  rw [if_pos h]
  cases mode with
  | seconds wait => exact ⟨by simp, rfl⟩
  | samples wait => exact ⟨by simp, rfl⟩

theorem Begun.remember (h : Begun c mode s first) (smp : Payload) : remember c mode s smp = s :=
  if_neg h.1

theorem Begun.process (h : Begun c mode s first) (smp : Payload) :
    process c mode s smp = (s, if Early c mode first smp then .skipSample else .ok) := by
  unfold SkipFirstHook.process
  rw [h.remember smp]
  obtain ⟨-, huntil⟩ := h
  cases mode with
  | seconds wait =>
    dsimp only at huntil ⊢
    rw [huntil, apply_ite (Prod.mk s)]
    rfl
  | samples wait =>
    dsimp only at huntil ⊢
    rw [huntil, apply_ite (Prod.mk s)]
    rfl

theorem process_started (h : s.skipState = .started) (smp : Payload) :
    process c mode s smp = process c mode (remember c mode s smp) smp := by
  have hbegun : Begun c mode (remember c mode s smp) smp := remember_begun h smp
  unfold process
  rw [hbegun.remember smp]

/-! ## All samples -/

/-- The rest of the samples of a start, behind one that was passed or not. -/
def SteadyFrom (c : Clock) (mode : Mode) (first : Payload) (passed : Bool) (smps : List Payload) : Prop :=
  (passed → ∀ y ∈ smps, ¬ Early c mode first y) ∧
    smps.Pairwise fun x y => ¬ Early c mode first x → ¬ Early c mode first y

theorem steadyFrom_cons {passed : Bool} {smps : List Payload} :
    SteadyFrom c mode first passed (smp :: smps) ↔
      (passed → ¬ Early c mode first smp) ∧
        SteadyFrom c mode first (passed || ¬ Early c mode first smp) smps := by
  unfold SteadyFrom
  rw [List.pairwise_cons, List.forall_mem_cons]
  cases passed with
  | true => simp; tauto
  | false => simp; tauto

theorem steady_iff (smps : List Payload) : Steady c mode (smp :: smps) ↔ SteadyFrom c mode smp false (smp :: smps) := by
  unfold Steady SteadyFrom
  simp

theorem settled_reasons_iff (es : List Event) :
    (∀ s first passed, Begun c mode s first → (Settled passed (reasons c mode s es) ↔
      SteadyFrom c mode first passed (segments es).1 ∧ ∀ smps ∈ (segments es).2, Steady c mode smps)) ∧
    ∀ s, s.skipState = .started → (Settled false (reasons c mode s es) ↔ AllSteady c mode es) := by
  induction es with
  | nil =>
    refine ⟨fun s first passed h => iff_of_true trivial ?_, fun s h => iff_of_true trivial ?_⟩
    · simp [SteadyFrom, segments]
    · simp [AllSteady, Steady, segments]
  | cons e es ih =>
    obtain ⟨hbegun, hstarted⟩ := ih
    have hrestarted (s : State) : Settled false (reasons c mode { s with skipState := .started } es) ↔
        AllSteady c mode es := hstarted _ rfl
    cases e with
    | start =>
      refine ⟨fun s first passed h => ?_, fun s h => ?_⟩
      · refine (hrestarted s).trans ?_
        simp [AllSteady, SteadyFrom, segments]
      · refine (hrestarted s).trans ?_
        simp [AllSteady, Steady, segments]
    | restart =>
      refine ⟨fun s first passed h => ?_, fun s h => ?_⟩
      · refine (hrestarted s).trans ?_
        simp [AllSteady, SteadyFrom, segments]
      · refine (hrestarted s).trans ?_
        simp [AllSteady, Steady, segments]
    | sample smp =>
      have hfirst : ∀ s first passed, Begun c mode s first →
          (Settled passed (reasons c mode s (.sample smp :: es)) ↔
            SteadyFrom c mode first passed (smp :: (segments es).1) ∧
              ∀ smps ∈ (segments es).2, Steady c mode smps) := by
        intro s first passed h
        rw [steadyFrom_cons, and_assoc, ← hbegun s first _ h, reasons, handle, h.process smp]
        by_cases hearly : Early c mode first smp
        · simp [Settled, hearly]
        · simp [Settled, hearly]
      refine ⟨hfirst, fun s h => ?_⟩
      have hsame : reasons c mode s (.sample smp :: es) =
          reasons c mode (remember c mode s smp) (.sample smp :: es) := by
        rw [reasons, handle, process_started h smp]
        rfl
      rw [hsame, hfirst _ smp false (remember_begun h smp), ← steady_iff]
      rfl

end

/-- For both modes, every setting and every run: no sample is skipped behind one that was passed if
and only if, for every start, no early sample comes behind one that is not early. -/
theorem settled_iff_steady (c : Clock) (mode : Mode) (s : State) (es : List Event) :
    Settled false (reasons c mode s (.start :: es)) ↔ AllSteady c mode es :=
  (settled_reasons_iff es).2 _ rfl

/-- Not in use with numbers of samples. -/
def exampleClock : Clock := ⟨fun origin _ => origin, fun _ _ => 0⟩

def exampleSmp (sequence : BitVec 64) : Event :=
  .sample
    { sequence, length := 0, flags := 0, signals := 0, origin := ⟨0, 0⟩, received := ⟨0, 0⟩
      data := fun _ => 0 }

/-- One sample is to be skipped, with the last but one number. The second sample is passed, and the
third one, behind the wrap, is skipped again. -/
theorem skipped_again :
    reasons exampleClock (.samples 1) ⟨.normal, 0, ⟨0, 0⟩⟩
        [.start, exampleSmp (-2), exampleSmp (-1), exampleSmp 0] =
        [none, some .skipSample, some .ok, some .skipSample] ∧
      ¬ ∀ c mode s es, Settled false (reasons c mode s (.start :: es)) := by
  have hreasons : reasons exampleClock (.samples 1) ⟨.normal, 0, ⟨0, 0⟩⟩
      [.start, exampleSmp (-2), exampleSmp (-1), exampleSmp 0] =
      [none, some .skipSample, some .ok, some .skipSample] := by decide
  refine ⟨hreasons, fun h => ?_⟩
  have hsettled := h exampleClock (.samples 1) ⟨.normal, 0, ⟨0, 0⟩⟩
    [exampleSmp (-2), exampleSmp (-1), exampleSmp 0]
  rw [hreasons] at hsettled
  exact absurd (hsettled.2.2.1 rfl) (by decide)

end VillasNode.SkipFirstHook
