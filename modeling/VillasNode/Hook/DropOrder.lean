import Mathlib.Algebra.Group.Int.Defs
import Mathlib.Data.List.Chain
import VillasNode.Hook.Builtin
import VillasNode.Lib.Runs

/-!
# The order behind the hook drop

`DropHook` alone, from one restart to the next. The distance between two
sequence numbers is an `int`, so that numbers that are far apart compare the
wrong way.
-/

namespace VillasNode.DropHook

open Runs

/-- `DropHook::process`, with the number of the sample that the hook holds on to. -/
def process (prev : Option (BitVec 64)) (sequence : BitVec 64) : Option (BitVec 64) × Reason :=
  if prev.any fun prev => dropDist sequence prev ≤ 0 then (prev, .skipSample)
  else (some sequence, .ok)

/-- The numbers of the samples that are passed. -/
def passed : Option (BitVec 64) → List (BitVec 64) → List (BitVec 64)
  | _, [] => []
  | prev, sequence :: rest =>
    match process prev sequence with
    | (prev, .ok) => sequence :: passed prev rest
    | (prev, _) => passed prev rest

def step (prev : Option (BitVec 64)) (sequence : BitVec 64) : Option (Option (BitVec 64)) :=
  some (process prev sequence).1

/-! ## The specification -/

/-- If the number is dropped, it is not larger than the last one that was passed. -/
def DropsOld (last : Option (BitVec 64)) (sequence : BitVec 64) : Prop :=
  (process last sequence).2 = .skipSample → ∃ x, last = some x ∧ sequence ≤ x

/-- What the hook should do between two restarts. -/
structure Monotone (sequences : List (BitVec 64)) : Prop where
  increasing : (passed none sequences).Pairwise (· < ·)
  dropped : Along step DropsOld none sequences

/-! ## When it is met -/

/-- The difference modulo 2^32 is in the lower half, and not 0, exactly for a larger number. -/
def Comparable (x y : BitVec 64) : Prop :=
  let d : Int := (y.toNat - x.toNat : Int) % 2 ^ 32
  0 < d ∧ d < 2 ^ 31 ↔ x < y

/-- Each number can be compared with the largest one before. -/
def Near : Option (BitVec 64) → List (BitVec 64) → Prop
  | _, [] => True
  | none, y :: rest => Near (some y) rest
  | some x, y :: rest => Comparable x y ∧ Near (some (if x < y then y else x)) rest

/-! ## One sample -/

section
variable {x y : BitVec 64} {last : Option (BitVec 64)} {rest : List (BitVec 64)}

theorem dropDist_pos_iff :
    0 < dropDist y x ↔ 0 < (y.toNat - x.toNat : Int) % 2 ^ 32 ∧ (y.toNat - x.toNat : Int) % 2 ^ 32 < 2 ^ 31 := by
  have hx := x.isLt
  have hy := y.isLt
  unfold dropDist
  rw [BitVec.toInt_eq_toNat_cond, BitVec.toNat_setWidth, BitVec.toNat_sub]
  omega

theorem process_some : process (some x) y = if 0 < dropDist y x then (some y, .ok) else (some x, .skipSample) := by
  unfold process
  by_cases hpos : 0 < dropDist y x
  · rw [if_pos hpos, if_neg (by simp [hpos])]
  · rw [if_neg hpos, if_pos (by simp [Int.not_lt.mp hpos])]

theorem comparable_iff_of_pos (h : 0 < dropDist y x) : Comparable x y ↔ x < y := by
  rw [dropDist_pos_iff] at h
  unfold Comparable
  dsimp only
  rw [iff_true_left h]

theorem comparable_iff_of_not_pos (h : ¬ 0 < dropDist y x) : Comparable x y ↔ ¬ x < y := by
  rw [dropDist_pos_iff] at h
  unfold Comparable
  dsimp only
  rw [iff_false_left h]

theorem dropsOld_iff (h : ¬ 0 < dropDist y x) : DropsOld (some x) y ↔ ¬ x < y := by
  unfold DropsOld
  rw [process_some, if_neg h, forall_prop_of_true rfl, BitVec.not_lt]
  constructor
  · rintro ⟨_, ⟨⟩, hle⟩
    exact hle
  · intro hle
    exact ⟨x, rfl, hle⟩

/-! ## All samples -/

/-- The last passed number, with all that are passed behind it. The hook holds on to this number, and
as long as every number can be compared it is the largest one so far. -/
theorem ordered_iff (last : Option (BitVec 64)) (sequences : List (BitVec 64)) :
    (last.toList ++ passed last sequences).IsChain (· < ·) ∧ Along step DropsOld last sequences ↔
      Near last sequences := by
  induction sequences generalizing last with
  | nil =>
    refine iff_of_true ⟨?_, trivial⟩ (by cases last <;> trivial)
    cases last <;> simp [passed]
  | cons y rest ih =>
    rw [along_cons_iff rfl]
    cases last with
    | none =>
      have hold : DropsOld none y := fun h => by cases h
      have hnear := ih (some y)
      rw [and_iff_right hold]
      exact hnear
    | some x =>
      by_cases hpos : 0 < dropDist y x
      · have hprocess : process (some x) y = (some y, .ok) := by rw [process_some, if_pos hpos]
        have hpassed : passed (some x) (y :: rest) = y :: passed (some y) rest := by
          rw [passed, hprocess]
        have hold : DropsOld (some x) y := by
          intro h
          rw [hprocess] at h
          cases h
        have hchain : ((some x).toList ++ y :: passed (some y) rest).IsChain (· < ·) ↔
            x < y ∧ ((some y).toList ++ passed (some y) rest).IsChain (· < ·) :=
          List.isChain_cons_cons
        rw [hpassed, hchain, hprocess, Near, comparable_iff_of_pos hpos, and_iff_right hold, and_assoc]
        apply and_congr_right
        intro hlt
        rw [if_pos hlt]
        exact ih (some y)
      · have hprocess : process (some x) y = (some x, .skipSample) := by
          rw [process_some, if_neg hpos]
        have hpassed : passed (some x) (y :: rest) = passed (some x) rest := by
          rw [passed, hprocess]
        rw [hpassed, hprocess, Near, comparable_iff_of_not_pos hpos, dropsOld_iff hpos, and_left_comm]
        apply and_congr_right
        intro hle
        rw [if_neg hle]
        exact ih (some x)

end

/-- For every sequence of samples between two restarts: the passed numbers increase and only old
numbers are dropped exactly when each number can be compared with the largest one before. -/
theorem monotone_iff (sequences : List (BitVec 64)) : Monotone sequences ↔ Near none sequences := by
  rw [← ordered_iff]
  constructor
  · rintro ⟨hincreasing, hdropped⟩
    exact ⟨hincreasing.isChain, hdropped⟩
  · rintro ⟨hincreasing, hdropped⟩
    exact ⟨List.isChain_iff_pairwise.mp hincreasing, hdropped⟩

/-- A number that is larger by 2^31 is dropped, and a number that is smaller by 2^32 - 1 passed. -/
theorem far_apart : passed none [0, 0x80000000] = [0] ∧ passed none [0x100000000, 1] = [0x100000000, 1] ∧
    ¬ ∀ sequences, Monotone sequences := by
  refine ⟨by decide, by decide, fun h => ?_⟩
  have hlt := (h [0x100000000, 1]).increasing
  exact absurd hlt (by decide)

end VillasNode.DropHook
