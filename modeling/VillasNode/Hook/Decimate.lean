import Mathlib.Algebra.Group.Nat.Defs
import VillasNode.Hook.Model

/-!
# The hook decimate

`lib/hooks/decimate.cpp`. Samples are counted from the start of the hook, and
one in `ratio` of them is passed. The counter has 32 bits.
-/

namespace VillasNode

/-- `ratio` is an `int`, which the modulo converts to `unsigned`. -/
structure DecimateHook where
  ratio : BitVec 32
  counter : BitVec 32

namespace DecimateHook

def start (h : DecimateHook) : DecimateHook := { h with counter := 0 }

/-- `counter++ % ratio`. A ratio of zero passes each sample and counts none. -/
def process (h : DecimateHook) (_smp : Payload) : DecimateHook × Reason :=
  if h.ratio ≠ 0 then
    if h.counter % h.ratio ≠ 0 then ({ h with counter := h.counter + 1 }, .skipSample)
    else ({ h with counter := h.counter + 1 }, .ok)
  else (h, .ok)

def reasons : DecimateHook → List Payload → List Reason
  | _, [] => []
  | h, smp :: smps =>
    let (h, reason) := h.process smp
    reason :: reasons h smps

/-! ## The specification -/

/-- The samples with a multiple of the ratio as their index are passed, and no others. -/
def PassesMultiples (ratio : Nat) (reasons : List Reason) : Prop :=
  ∀ n r, reasons[n]? = some r → r = if ratio ∣ n then .ok else .skipSample

/-! ## The counter -/

variable {h : DecimateHook}

theorem process_of_pos (hratio : h.ratio ≠ 0) (smp : Payload) :
    h.process smp = ({ h with counter := h.counter + 1 },
      if h.ratio.toNat ∣ h.counter.toNat then .ok else .skipSample) := by
  have hzero : h.counter % h.ratio ≠ 0 ↔ ¬ h.ratio.toNat ∣ h.counter.toNat := by
    rw [Ne, ← BitVec.toNat_inj, BitVec.toNat_umod, Nat.dvd_iff_mod_eq_zero]
    rfl
  unfold process
  rw [if_pos hratio]
  by_cases hdvd : h.ratio.toNat ∣ h.counter.toNat
  · rw [if_neg (by rw [hzero]; exact not_not_intro hdvd), if_pos hdvd]
  · rw [if_pos (hzero.mpr hdvd), if_neg hdvd]

theorem reasons_length (h : DecimateHook) (smps : List Payload) :
    (h.reasons smps).length = smps.length := by
  induction smps generalizing h with
  | nil => rfl
  | cons smp smps ih => rw [reasons, List.length_cons, List.length_cons, ih]

theorem reasons_getElem (hratio : h.ratio ≠ 0) (smps : List Payload) {n : Nat}
    (hn : n < smps.length) :
    (h.reasons smps)[n]? = some
      (if h.ratio.toNat ∣ (h.counter.toNat + n) % 2 ^ 32 then .ok else .skipSample) := by
  induction smps generalizing h n with
  | nil => exact absurd hn (Nat.not_lt_zero n)
  | cons smp smps ih =>
    rw [reasons, process_of_pos hratio]
    cases n with
    | zero => rw [List.getElem?_cons_zero, Nat.add_zero, Nat.mod_eq_of_lt h.counter.isLt]
    | succ n =>
      have hcount :
          ((h.counter + 1).toNat + n) % 2 ^ 32 = (h.counter.toNat + (n + 1)) % 2 ^ 32 := by
        have hone : (1 : BitVec 32).toNat = 1 := rfl
        rw [BitVec.toNat_add, hone, Nat.mod_add_mod]
        congr 1
        omega
      rw [List.getElem?_cons_succ,
        ih (h := { h with counter := h.counter + 1 }) hratio (Nat.lt_of_succ_lt_succ hn)]
      simp only [hcount]

theorem reasons_start (hratio : h.ratio ≠ 0) (smps : List Payload) {n : Nat}
    (hn : n < smps.length) :
    (h.start.reasons smps)[n]? = some
      (if h.ratio.toNat ∣ n % 2 ^ 32 then .ok else .skipSample) := by
  have hat := reasons_getElem (h := h.start) hratio smps hn
  have hcounter : h.start.counter.toNat = 0 := rfl
  rw [hcounter, Nat.zero_add] at hat
  exact hat

theorem ne_zero_of_toInt_pos {r : BitVec 32} (hr : 0 < r.toInt) : r ≠ 0 := by
  intro heq
  rw [heq] at hr
  exact absurd hr (by decide)

/-- The phase of the decimation outlives the counter if and only if the counter wraps at a multiple
of the ratio. -/
theorem passes_multiples_iff (h : DecimateHook) (hratio : 0 < h.ratio.toInt)
    (smps : List Payload) :
    PassesMultiples h.ratio.toNat (h.start.reasons smps) ↔
      smps.length ≤ 2 ^ 32 ∨ h.ratio.toNat ∣ 2 ^ 32 := by
  have hne := ne_zero_of_toInt_pos hratio
  constructor
  · intro hpass
    obtain hshort | hlong := Nat.lt_or_ge (2 ^ 32) smps.length
    · right
      have hat := hpass (2 ^ 32) _ (reasons_start hne smps hshort)
      rw [Nat.mod_self, if_pos (Nat.dvd_zero _)] at hat
      by_contra hdvd
      rw [if_neg hdvd] at hat
      cases hat
    · exact .inl hlong
  · intro hcond n r hr
    have hn : n < smps.length := by
      rw [← reasons_length h.start smps]
      exact (List.getElem?_eq_some_iff.mp hr).1
    rw [reasons_start hne smps hn, Option.some.injEq] at hr
    have hphase : h.ratio.toNat ∣ n % 2 ^ 32 ↔ h.ratio.toNat ∣ n := by
      cases hcond with
      | inl hlen => rw [Nat.mod_eq_of_lt (by omega)]
      | inr hdvd => exact Nat.dvd_mod_iff hdvd
    rw [← hr]
    exact if_congr hphase rfl rfl

def blank : Payload := ⟨0, 0, 0, 0, ⟨0, 0⟩, ⟨0, 0⟩, fun _ => 0⟩

theorem passes_multiples_three :
    0 < (3 : BitVec 32).toInt ∧
      PassesMultiples 3 ((start ⟨3, 0⟩).reasons [blank, blank, blank, blank]) := by
  have hpass := (passes_multiples_iff ⟨3, 0⟩ (by decide) [blank, blank, blank, blank]).mpr
    (.inl (by decide))
  exact ⟨by decide, hpass⟩

/-- With a ratio of three the sample behind the wrap is passed, and `2 ^ 32` is no multiple. -/
theorem phase_is_lost :
    ¬ ∀ h : DecimateHook, 0 < h.ratio.toInt → ∀ smps,
      PassesMultiples h.ratio.toNat (h.start.reasons smps) := by
  intro hall
  have hlen : 2 ^ 32 < (List.replicate (2 ^ 32 + 1) blank).length := by
    rw [List.length_replicate]
    exact Nat.lt_succ_self _
  have hpass := hall ⟨3, 0⟩ (by decide) (List.replicate (2 ^ 32 + 1) blank)
  have hat := hpass (2 ^ 32) _ (reasons_start (h := ⟨3, 0⟩) (by decide) _ hlen)
  rw [if_pos (by decide), if_neg (by decide)] at hat
  cases hat

end DecimateHook

end VillasNode
