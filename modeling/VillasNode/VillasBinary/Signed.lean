import Mathlib.Algebra.Group.Int.Defs
import VillasNode.VillasBinary.RoundTrip

/-!
# Signed integers in villas.binary

The value of a signal of type INTEGER goes through `data[i].i` of a message,
which is a `uint32_t`, in both variants of the format.
-/

namespace VillasNode

open ByteOrder

namespace VillasBinaryFormat

variable (fmt : VillasBinaryFormat)

/-- The length of the sample and its integers have come back. -/
structure SameIntegers (smp smp' : Payload) : Prop where
  length : smp'.length = smp.length
  data : ∀ i < smp.length, (fmt.lists fmt.signals)[i]? = some .integer → smp'.data i = smp.data i

/-- `sscan` reads each sample that `sprint` has written, with its integers. -/
def CarriesIntegers (bytes : List Byte) (n : Nat) (smps : List Payload) (rxs : List Receiver) :
    Prop :=
  (∃ rbytes, (fmt.sscan bytes rxs).result = .ok (n, rbytes)) ∧
    ∀ k < n, ∀ smp, smps[k]? = some smp →
      ∃ rx : Receiver, (fmt.sscan bytes rxs).smps[k]? = some rx ∧ fmt.SameIntegers smp rx.payload

/-- The integers are between -2^31 and 2^31. -/
def FitsSigned (smp : Payload) : Prop :=
  ∀ i < smp.length, (fmt.lists fmt.signals)[i]? = some .integer →
    -2 ^ 31 ≤ (smp.data i).toInt ∧ (smp.data i).toInt < 2 ^ 31

/-- The number of values fits into a message, and no integer is negative. -/
structure Unsigned (smp : Payload) : Prop where
  length : smp.length ≤ 65535
  data : ∀ i < smp.length, (fmt.lists fmt.signals)[i]? = some .integer → 0 ≤ (smp.data i).toInt

/-! ## One value -/

theorem carried_integer_iff {conv : FloatConv} {v : Value} (hlo : -2 ^ 31 ≤ v.toInt)
    (hhi : v.toInt < 2 ^ 31) : carried conv .integer v = v ↔ 0 ≤ v.toInt := by
  have hlt := v.isLt
  rw [BitVec.toInt_eq_toNat_cond] at hlo hhi ⊢
  change (v.setWidth 32).setWidth 64 = v ↔ _
  rw [← BitVec.toNat_inj, BitVec.toNat_setWidth, BitVec.toNat_setWidth]
  split at hlo <;> split at hhi <;> omega

/-! ## One sample -/

section
variable {fmt}

theorem carries_iff {smp smp' : Payload} (hfits : fmt.FitsSigned smp)
    (hlength : smp'.length = smp.length)
    (hdata : ∀ i < smp.length, smp'.data i =
      carried fmt.conv ((fmt.lists fmt.signals).getD i .invalid) (smp.data i)) :
    fmt.SameIntegers smp smp' ↔
      ∀ i < smp.length, (fmt.lists fmt.signals)[i]? = some .integer → 0 ≤ (smp.data i).toInt := by
  have hvalue : ∀ i < smp.length, (fmt.lists fmt.signals)[i]? = some .integer →
      (smp'.data i = smp.data i ↔ 0 ≤ (smp.data i).toInt) := by
    intro i hi ht
    obtain ⟨hlo, hhi⟩ := hfits i hi ht
    rw [hdata i hi, List.getD_eq_getElem?_getD, ht, Option.getD_some]
    exact carried_integer_iff hlo hhi
  constructor
  · intro hsame i hi ht
    exact (hvalue i hi ht).mp (hsame.data i hi ht)
  · intro hpos
    exact ⟨hlength, fun i hi ht => (hvalue i hi ht).mpr (hpos i hi ht)⟩

theorem msgToSample_length {conv : FloatConv} {sigs : List SignalType} {m : Msg} {capacity : Nat}
    {smp : Payload} (h : (msgToSample conv sigs m capacity smp).2 = 0) :
    (msgToSample conv sigs m capacity smp).1.length ≤ 65535 := by
  have hlt := m.length.isLt
  unfold msgToSample at h ⊢
  split at h
  · rename_i hverify
    exact absurd h hverify
  rename_i hverify
  rw [if_neg hverify]
  dsimp only at h ⊢
  split at h
  · simp at h
  · dsimp only
    omega

theorem sscanLoop_cons_ok {rest : List Byte} {rx : Receiver} {rxs : List Receiver} {n rbytes : Nat}
    (h : (fmt.sscanLoop rest (rx :: rxs)).result = .ok (n, rbytes)) :
    n = 0 ∨ ∃ m rest' len, (fmt.decode m rx).2 = 0 ∧
      fmt.sscanLoop rest (rx :: rxs) =
        (fmt.sscanLoop rest' rxs).cons { rx with payload := (fmt.decode m rx).1 } len := by
  generalize hs : fmt.sscanLoop rest (rx :: rxs) = s at h ⊢
  unfold sscanLoop at hs
  dsimp only at hs
  by_cases hend : rest = []
  · rw [if_pos hend] at hs
    cases hs
    cases h
    exact .inl rfl
  rw [if_neg hend] at hs
  by_cases hheader : rest.length < msgLen 0
  · rw [if_pos hheader] at hs
    cases hs
    cases h
  rw [if_neg hheader] at hs
  generalize BitVec.toNat (if fmt.web = true then _ else _) = values at hs
  by_cases hvalues : rest.length < msgLen values
  · rw [if_pos hvalues] at hs
    cases hs
    cases h
  rw [if_neg hvalues] at hs
  generalize (if fmt.web = true then Msg.load fmt.host values rest else _) = m at hs
  change (if (fmt.decode m rx).2 ≠ 0 then _ else _) = s at hs
  by_cases hret : (fmt.decode m rx).2 = 0
  · rw [if_neg (not_not_intro hret)] at hs
    exact .inr ⟨m, _, _, hret, hs.symm⟩
  · rw [if_pos hret] at hs
    cases hs
    cases h

theorem cons_result_ok {s : Scanned} {smp : Receiver} {len n rbytes : Nat}
    (h : (s.cons smp len).result = .ok (n, rbytes)) :
    ∃ i rest, n = i + 1 ∧ s.result = .ok (i, rest) := by
  obtain ⟨smps, result⟩ := s
  cases result with
  | error ret => cases h
  | ok r =>
    cases h
    exact ⟨r.1, r.2, rfl, rfl⟩

theorem sscanLoop_lengths {rest : List Byte} {rxs : List Receiver} {n rbytes : Nat}
    (h : (fmt.sscanLoop rest rxs).result = .ok (n, rbytes)) :
    ∀ k < n, ∀ rx, (fmt.sscanLoop rest rxs).smps[k]? = some rx → rx.payload.length ≤ 65535 := by
  induction rxs generalizing rest n rbytes with
  | nil =>
    cases h
    intro k hk
    omega
  | cons rx rxs ih =>
    obtain rfl | ⟨m, rest', len, hret, heq⟩ := sscanLoop_cons_ok h
    · intro k hk
      omega
    rw [heq] at h ⊢
    obtain ⟨i, rbytes', rfl, hresult⟩ := cons_result_ok h
    intro k hk rx' hrx'
    cases k with
    | zero =>
      cases hrx'
      exact msgToSample_length hret
    | succ k => exact ih hresult k (by omega) rx' hrx'

/-! ## All samples -/

theorem sprintLoop_take {room : Nat} {smps : List Payload} {bytes : List Byte} {n : Nat}
    (h : fmt.sprintLoop room smps = .ok (bytes, n)) :
    n ≤ smps.length ∧ fmt.sprintLoop room (smps.take n) = .ok (bytes, n) := by
  induction smps generalizing room bytes n with
  | nil =>
    cases h
    exact ⟨Nat.le_refl 0, rfl⟩
  | cons smp smps ih =>
    unfold sprintLoop at h
    split at h
    · cases h
      exact ⟨Nat.zero_le _, rfl⟩
    rename_i hroom
    split at h
    · cases h
    rename_i m hm
    dsimp only at h
    split at h
    · cases h
    rename_i bytes' i hrest
    cases h
    obtain ⟨hle, htake⟩ := ih hrest
    refine ⟨Nat.succ_le_succ hle, ?_⟩
    rw [List.take_succ_cons, sprintLoop, if_neg hroom, hm]
    dsimp only
    rw [htake]

/-- The values of a sample that comes back. -/
def Returned (fmt : VillasBinaryFormat) (smp smp' : Payload) : Prop :=
  smp'.length = smp.length ∧ ∀ i < smp.length, smp'.data i =
    carried fmt.conv ((fmt.lists fmt.signals).getD i .invalid) (smp.data i)

theorem sscan_returned {len n : Nat} {smps : List Payload} {bytes : List Byte}
    {rxs : List Receiver} (hlists : ∀ smp ∈ smps, fmt.lists smp.signals = fmt.lists fmt.signals)
    (hprint : fmt.sprint len smps = .ok (bytes, n)) (hcnt : n ≤ rxs.length)
    (hcap : ∀ (k : Nat) (smp : Payload) (rx : Receiver),
      smps[k]? = some smp → rxs[k]? = some rx → smp.length ≤ rx.capacity)
    (hle : ∀ smp ∈ smps.take n, smp.length ≤ 65535) :
    (fmt.sscan bytes rxs).result = .ok (n, bytes.length) ∧
      ∀ k < n, ∀ smp, smps[k]? = some smp →
        ∃ rx : Receiver, (fmt.sscan bytes rxs).smps[k]? = some rx ∧ Returned fmt smp rx.payload := by
  obtain ⟨hn, htake⟩ := sprintLoop_take hprint
  have hlen : (smps.take n).length = n := List.length_take_of_le hn
  have hprefix : fmt.sprint len (smps.take n) = .ok (bytes, (smps.take n).length) := by
    rw [hlen]
    exact htake
  have hdecode : ∀ smp ∈ smps.take n, ∀ m rx, smp.length ≤ rx.capacity →
      msgFromSample fmt.conv (fmt.lists smp.signals) smp = some m →
      (fmt.decode m rx).2 = 0 ∧ fmt.Holds m rx ∧ Returned fmt smp (fmt.decode m rx).1 := by
    intro smp hsmp m rx hroom hm
    obtain ⟨hok, hholds, -, -, hlength, hdata⟩ := fmt.decode_carried
      (hlists smp (List.mem_of_mem_take hsmp)) (hle smp hsmp) hroom hm
    exact ⟨hok, hholds, hlength, hdata⟩
  have hroom : ∀ (k : Nat) (smp : Payload) (rx : Receiver),
      (smps.take n)[k]? = some smp → rxs[k]? = some rx → smp.length ≤ rx.capacity := by
    intro k smp rx hsmp hrx
    obtain ⟨hk, -⟩ := List.getElem?_eq_some_iff.mp hsmp
    rw [List.getElem?_take_of_lt (by omega)] at hsmp
    exact hcap k smp rx hsmp hrx
  have hmany : (smps.take n).length ≤ rxs.length := by omega
  obtain ⟨hresult, hsamples⟩ := fmt.sscan_sprinted hle hdecode hprefix hmany hroom
  rw [hlen] at hresult
  refine ⟨hresult, fun k hk smp hsmp => hsamples k smp ?_⟩
  rw [List.getElem?_take_of_lt hk, hsmp]

theorem CarriesIntegers.lengths {n : Nat} {smps : List Payload} {bytes : List Byte}
    {rxs : List Receiver} (h : fmt.CarriesIntegers bytes n smps rxs) {k : Nat} (hk : k < n)
    {smp : Payload} (hsmp : smps[k]? = some smp) : smp.length ≤ 65535 := by
  obtain ⟨⟨rbytes, hresult⟩, hsamples⟩ := h
  obtain ⟨rx, hrx, hsame⟩ := hsamples k hk smp hsmp
  unfold sscan at hresult hrx
  split at hresult
  · cases hresult
  · rename_i hmod
    rw [if_neg hmod] at hrx
    rw [← hsame.length]
    exact sscanLoop_lengths hresult k hk rx hrx

/-- For every list of samples whose integers are in the range of 32 bits with a sign, and any
samples with room for them: `sscan` reads what `sprint` has written, with the same integers, if and
only if no sample is too long for a message and no integer is negative. -/
theorem carriesIntegers_iff {len n : Nat} {smps : List Payload} {bytes : List Byte}
    {rxs : List Receiver} (hfits : ∀ smp ∈ smps, fmt.FitsSigned smp)
    (hlists : ∀ smp ∈ smps, fmt.lists smp.signals = fmt.lists fmt.signals)
    (hprint : fmt.sprint len smps = .ok (bytes, n)) (hcnt : n ≤ rxs.length)
    (hcap : ∀ (k : Nat) (smp : Payload) (rx : Receiver),
      smps[k]? = some smp → rxs[k]? = some rx → smp.length ≤ rx.capacity) :
    fmt.CarriesIntegers bytes n smps rxs ↔ ∀ smp ∈ smps.take n, fmt.Unsigned smp := by
  have hindex : ∀ smp ∈ smps.take n, ∃ k < n, smps[k]? = some smp := by
    intro smp hsmp
    obtain ⟨k, hget⟩ := List.mem_iff_getElem?.mp hsmp
    obtain ⟨hk, -⟩ := List.getElem?_eq_some_iff.mp hget
    rw [List.length_take] at hk
    rw [List.getElem?_take_of_lt (by omega)] at hget
    exact ⟨k, by omega, hget⟩
  constructor
  · intro hcarries smp hsmp
    have hle : ∀ smp ∈ smps.take n, smp.length ≤ 65535 := by
      intro smp hsmp
      obtain ⟨k, hk, hget⟩ := hindex smp hsmp
      exact hcarries.lengths hk hget
    obtain ⟨-, hsamples⟩ := sscan_returned hlists hprint hcnt hcap hle
    obtain ⟨k, hk, hget⟩ := hindex smp hsmp
    obtain ⟨rx, hrx, hlength, hdata⟩ := hsamples k hk smp hget
    obtain ⟨rx', hrx', hsame⟩ := hcarries.2 k hk smp hget
    cases hrx.symm.trans hrx'
    exact ⟨hle smp hsmp,
      (carries_iff (hfits smp (List.mem_of_mem_take hsmp)) hlength hdata).mp hsame⟩
  · intro hunsigned
    obtain ⟨hresult, hsamples⟩ := sscan_returned hlists hprint hcnt hcap
      fun smp hsmp => (hunsigned smp hsmp).length
    refine ⟨⟨_, hresult⟩, fun k hk smp hget => ?_⟩
    obtain ⟨rx, hrx, hlength, hdata⟩ := hsamples k hk smp hget
    have hmem : smp ∈ smps.take n := by
      apply List.mem_of_getElem?
      rw [List.getElem?_take_of_lt hk, hget]
    exact ⟨rx, hrx, (carries_iff (hfits smp (List.mem_of_mem_take hmem)) hlength hdata).mpr
      (hunsigned smp hmem).data⟩

end

end VillasBinaryFormat

/-! ## The number -1 -/

theorem exampleOut_fitsSigned (sequence : BitVec 64) {v : Value} (hlo : -2 ^ 31 ≤ v.toInt)
    (hhi : v.toInt < 2 ^ 31) : exampleFormat.FitsSigned (exampleOut sequence v) :=
  fun _ _ _ => ⟨hlo, hhi⟩

theorem carriesIntegers_seven :
    ∃ bytes, exampleFormat.sprint 64 [exampleOut 1 7] = .ok (bytes, 1) ∧
      (exampleFormat.CarriesIntegers bytes 1 [exampleOut 1 7] [exampleReceiver] ↔
        ∀ smp ∈ [exampleOut 1 7].take 1, exampleFormat.Unsigned smp) := by
  obtain ⟨bytes, hprint⟩ : ∃ bytes, exampleFormat.sprint 64 [exampleOut 1 7] = .ok (bytes, 1) :=
    ⟨_, rfl⟩
  refine ⟨bytes, hprint, VillasBinaryFormat.carriesIntegers_iff ?_ ?_ hprint (Nat.le_refl 1) ?_⟩
  · intro smp hsmp
    obtain rfl := List.mem_singleton.mp hsmp
    exact exampleOut_fitsSigned 1 (by decide) (by decide)
  · intro smp hsmp
    obtain rfl := List.mem_singleton.mp hsmp
    rfl
  · intro k smp rx hsmp hrx
    obtain rfl := List.mem_singleton.mp (List.mem_of_getElem? hsmp)
    obtain rfl := List.mem_singleton.mp (List.mem_of_getElem? hrx)
    exact Nat.le_refl 1

/-- The number -1 comes back as 2^32 - 1. -/
theorem sign_is_lost :
    exampleFormat.FitsSigned (exampleOut 1 (-1)) ∧
      ∃ bytes, exampleFormat.sprint 64 [exampleOut 1 (-1)] = .ok (bytes, 1) ∧
        (exampleFormat.sscan bytes [exampleReceiver]).smps.map (fun rx => rx.payload.data 0) =
          [4294967295] ∧
        ¬ exampleFormat.CarriesIntegers bytes 1 [exampleOut 1 (-1)] [exampleReceiver] := by
  refine ⟨exampleOut_fitsSigned 1 (by decide) (by decide), _, rfl, by decide, ?_⟩
  rintro ⟨-, hsamples⟩
  obtain ⟨rx, hrx, hsame⟩ := hsamples 0 (by decide) _ rfl
  cases hrx
  exact absurd (hsame.data 0 (by decide) rfl) (by decide)

end VillasNode
