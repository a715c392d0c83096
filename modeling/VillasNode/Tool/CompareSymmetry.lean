import VillasNode.Hook.Gate
import VillasNode.Tool.Compare

/-!
# Which pairs sample_cmp is symmetric on

Timestamps and values are exact here, and `time_delta`, which is of the common
submodule, is taken to be the exact difference. It is compared with the epsilon
with its sign.
-/

namespace VillasNode.Compare

open ByteOrder Line GateHook

/-- The numbers that the values are read as. -/
structure Reading where
  real : Value → ℚ
  re : Value → ℚ
  im : Value → ℚ

/-- What is too far apart for the epsilon. An absolute value is compared by its square. -/
def exactTolerance (v : Reading) (epsilon : ℚ) : Tolerance where
  later a b := epsilon < timeDelta a b
  real a b := epsilon < |v.real a - v.real b|
  complex a b := epsilon ^ 2 < (v.re a - v.re b) ^ 2 + (v.im a - v.im b) ^ 2

/-- The order of the samples does not matter, and no timestamps are compared equal that are too far
apart. -/
structure Symmetric (v : Reading) (epsilon : ℚ) (flags : BitVec 32) (a b : LineSample) : Prop where
  swap : sampleCmp (exactTolerance v epsilon) flags a b = 0 ↔
    sampleCmp (exactTolerance v epsilon) flags b a = 0
  near : sampleCmp (exactTolerance v epsilon) flags a b = 0 →
    hasFlag flags SampleFlags.hasTsOrigin → |timeDelta a.payload.origin b.payload.origin| ≤ epsilon

section
variable {v : Reading} {epsilon : ℚ} {flags : BitVec 32} {a b : LineSample}

theorem timeDelta_swap (x y : Timespec) : timeDelta y x = -timeDelta x y := by
  unfold timeDelta
  rw [neg_sub]

theorem differ_swap (x y : Value) (type : SignalType) :
    (exactTolerance v epsilon).differ x y type = (exactTolerance v epsilon).differ y x type := by
  cases type with
  | float =>
    simp only [Tolerance.differ, exactTolerance]
    rw [abs_sub_comm]
  | integer =>
    simp only [Tolerance.differ]
    rw [decide_eq_decide]
    exact ne_comm
  | boolean =>
    simp only [Tolerance.differ]
    rw [decide_eq_decide]
    exact ne_comm
  | complex =>
    simp only [Tolerance.differ, exactTolerance]
    rw [sub_sq_comm (v.re x), sub_sq_comm (v.im x)]
  | invalid => rfl

theorem EqualOtherwise.swap (h : EqualOtherwise (exactTolerance v epsilon) flags a b) :
    EqualOtherwise (exactTolerance v epsilon) flags b a where
  hasFlags := by
    rw [BitVec.and_comm b.payload.flags]
    exact h.hasFlags
  sequence hsequence := (h.sequence hsequence).symm
  length hdata := (h.length hdata).symm
  data hdata i hi := by
    rw [← h.length hdata] at hi
    obtain ⟨hformat, hsame⟩ := h.data hdata i hi
    rw [← hformat, differ_swap]
    exact ⟨rfl, hsame⟩

theorem later_eq_false_iff (x y : Timespec) :
    (exactTolerance v epsilon).later x y = false ↔ timeDelta x y ≤ epsilon := by
  simp only [exactTolerance, decide_eq_false_iff_not, not_lt]

theorem sampleCmp_exact_iff :
    sampleCmp (exactTolerance v epsilon) flags a b = 0 ↔
      EqualOtherwise (exactTolerance v epsilon) flags a b ∧
        (hasFlag flags SampleFlags.hasTsOrigin →
          timeDelta a.payload.origin b.payload.origin ≤ epsilon) := by
  rw [sampleCmp_eq_zero_iff]
  simp only [later_eq_false_iff]

/-- The comparison is symmetric on the pairs that have their timestamps within the epsilon, or whose
timestamps are not compared, or that differ in something else. -/
theorem sampleCmp_symmetric_iff (v : Reading) (hepsilon : 0 ≤ epsilon) (flags : BitVec 32)
    (a b : LineSample) :
    Symmetric v epsilon flags a b ↔
      (hasFlag flags SampleFlags.hasTsOrigin →
        EqualOtherwise (exactTolerance v epsilon) flags a b →
          |timeDelta a.payload.origin b.payload.origin| ≤ epsilon) := by
  have hswap := timeDelta_swap a.payload.origin b.payload.origin
  constructor
  · rintro ⟨hsym, hnear⟩ hts hequal
    rw [sampleCmp_exact_iff, sampleCmp_exact_iff, hswap] at hsym
    obtain hlate | hle := lt_or_ge epsilon (timeDelta a.payload.origin b.payload.origin)
    · have hother : sampleCmp (exactTolerance v epsilon) flags a b = 0 := by
        rw [sampleCmp_exact_iff]
        refine hsym.mpr ⟨hequal.swap, fun _ => ?_⟩
        linarith
      exact hnear hother hts
    · exact hnear (sampleCmp_exact_iff.2 ⟨hequal, fun _ => hle⟩) hts
  · intro hcond
    have hboth : sampleCmp (exactTolerance v epsilon) flags a b = 0 ↔
        EqualOtherwise (exactTolerance v epsilon) flags a b := by
      rw [sampleCmp_exact_iff]
      exact ⟨fun h => h.1, fun h => ⟨h, fun hts => (abs_le.mp (hcond hts h)).2⟩⟩
    refine ⟨?_, fun hcmp hts => hcond hts (hboth.mp hcmp)⟩
    rw [hboth, sampleCmp_exact_iff, hswap]
    constructor
    · intro h
      refine ⟨h.swap, fun hts => ?_⟩
      have hle := (abs_le.mp (hcond hts h)).1
      linarith
    · exact fun h => h.1.swap

end

/-! ## Timestamps two seconds apart -/

/-- A sample of that second, with no values. -/
def atSecond (sec : BitVec 64) : LineSample :=
  ⟨⟨0, 0, SampleFlags.hasTsOrigin, 0, ⟨sec, 0⟩, ⟨0, 0⟩, fun _ => 0⟩, []⟩

def integers : Reading := ⟨fun x => x.toInt, fun x => x.toInt, fun _ => 0⟩

theorem sampleCmp_symmetric_second :
    (0 : ℚ) ≤ 1 ∧ Symmetric integers 1 SampleFlags.hasTsOrigin (atSecond 1) (atSecond 2) := by
  refine ⟨by norm_num, (sampleCmp_symmetric_iff integers (by norm_num) _ _ _).mpr fun _ _ => ?_⟩
  decide +kernel

/-- In one order the samples are equal, in the other they are not. -/
theorem sampleCmp_not_symmetric :
    ¬ ∀ (v : Reading) (epsilon : ℚ), 0 ≤ epsilon → ∀ flags a b, Symmetric v epsilon flags a b := by
  intro hall
  have hsym := hall integers 1 (by norm_num) SampleFlags.hasTsOrigin (atSecond 3) (atSecond 1)
  have hcmp := hsym.swap.mp (by decide +kernel)
  exact absurd hcmp (by decide +kernel)

end VillasNode.Compare
