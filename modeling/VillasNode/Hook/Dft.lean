import Mathlib.Data.Int.ModEq
import Mathlib.Data.Nat.Prime.Basic
import VillasNode.Hook.Model
import VillasNode.Lib.MachineInt
import VillasNode.Lib.Ring

/-!
# The hook dft

`lib/hooks/dft.cpp`, up to the samples of which the transform is taken. They
are stored in one ring for each signal, at a position of 64 bits. The
transform reads the rings from a position of 32 bits.
-/

namespace VillasNode.DftHook

/-- Times that are a `double` are in `τ`. -/
structure Config (τ : Type) where
  windowSize : BitVec 32
  signalIndices : List Nat
  sync : Bool
  /-- `smpNsec > nextCalc` -/
  due : Timespec → τ → Bool
  /-- `nextCalc` behind a sample, given `calcCount`. -/
  next : Timespec → BitVec 64 → τ

structure State (τ : Type) where
  smpMemory : List (List Value)
  smpMemPos : BitVec 64
  calcCount : BitVec 64
  nextCalc : τ

variable {τ : Type} (c : Config τ)

/-- What `prepare` leaves in a hook that was constructed. -/
def prepared (nextCalc : τ) : State τ :=
  { smpMemory := c.signalIndices.map fun _ => List.replicate c.windowSize.toNat 0
    smpMemPos := 0
    calcCount := 0
    nextCalc }

/-- `smpMemPos % windowSize` -/
def memorySlot (pos : BitVec 64) : Nat := (pos % c.windowSize.setWidth 64).toNat

def updateMemory (s : State τ) (smp : Payload) : State τ :=
  { s with
    smpMemory := List.zipWith
      (fun ring index => ring.set (memorySlot c s.smpMemPos) (smp.data index))
      s.smpMemory c.signalIndices
    smpMemPos := s.smpMemPos + 1 }

/-- `(i + ringBufferPos) % windowSize`, where all three are `unsigned`. -/
def windowSlot (ringBufferPos : BitVec 32) (i : Nat) : Nat :=
  ((BitVec.ofNat 32 i + ringBufferPos) % c.windowSize).toNat

/-- The samples `calculateDft` puts into its window. Each is then weighted with a coefficient that
belongs to its place. -/
def sampleWindow (ringBufferPos : BitVec 32) (ringBuffer : List Value) : List Value :=
  (List.range c.windowSize.toNat).map fun i => ringBuffer.getD (windowSlot c ringBufferPos i) 0

/-- The window of each signal comes with the outcome if the transform is calculated. -/
def process (s : State τ) (smp : Payload) : State τ × Option (List (List Value)) × Reason :=
  let s := updateMemory c s smp
  if c.sync && c.due smp.origin s.nextCalc then
    ({ s with nextCalc := c.next smp.origin s.calcCount, calcCount := s.calcCount + 1 },
      some (s.smpMemory.map (sampleWindow c (s.smpMemPos.setWidth 32))),
      if c.windowSize.setWidth 64 < s.smpMemPos then .ok else .skipSample)
  else (s, none, .skipSample)

def windows : State τ → List Payload → List (Option (List (List Value)))
  | _, [] => []
  | s, smp :: smps =>
    let (s, vectors, _) := process c s smp
    vectors :: windows s smps

/-- At which samples the transform is calculated, from their timestamps. -/
def calculates : τ → BitVec 64 → List Timespec → List Bool
  | _, _, [] => []
  | nextCalc, calcCount, origin :: origins =>
    if c.sync && c.due origin nextCalc then
      true :: calculates (c.next origin calcCount) (calcCount + 1) origins
    else false :: calculates nextCalc calcCount origins

/-! ## The specification -/

/-- The last values of each signal, oldest first. -/
def lastSamples (smps : List Payload) : List (List Value) :=
  c.signalIndices.map fun index =>
    Ring.window c.windowSize.toNat 0 (smps.map fun smp => smp.data index)

def HandsLastSamples (nextCalc : τ) (smps : List Payload) : Prop :=
  ∀ n vectors, (windows c (prepared c nextCalc) smps)[n]? = some (some vectors) →
    vectors = lastSamples c (smps.take (n + 1))

/-- The position wraps nowhere between the samples in the window, or at a multiple of its size. -/
def Clear (size n : Nat) : Prop :=
  size ∣ 2 ^ 32 ∨
    (n < 2 ^ 64 ∨ size ≤ n % 2 ^ 64) ∧ ∀ i < size, size ∣ 2 ^ 32 * ((n % 2 ^ 64 + i) / 2 ^ 32)

/-! ## Slots -/

section
variable {c}

theorem memorySlot_ofNat (k : Nat) :
    memorySlot c (BitVec.ofNat 64 k) = k % 2 ^ 64 % c.windowSize.toNat :=
  MachineInt.toNat_umod_unsigned k c.windowSize

theorem windowSlot_ofNat (n i : Nat) :
    windowSlot c ((BitVec.ofNat 64 n).setWidth 32) i = (n + i) % 2 ^ 32 % c.windowSize.toNat := by
  have hpos : n % 2 ^ 64 % 2 ^ 32 = n % 2 ^ 32 := Nat.mod_mod_of_dvd n (by decide)
  have hsum : (i % 2 ^ 32 + n % 2 ^ 32) % 2 ^ 32 = (n + i) % 2 ^ 32 := by
    rw [← Nat.add_mod, Nat.add_comm]
  rw [windowSlot, BitVec.toNat_umod, BitVec.toNat_add, BitVec.toNat_ofNat, BitVec.toNat_setWidth,
    BitVec.toNat_ofNat, hpos, hsum]

end

/-- The samples a window needs are in the slots it is read from. -/
def Reads (size n : Nat) : Prop :=
  ∀ i < size, size ≤ n + i → (n + i - size) % 2 ^ 64 % size = (n + i) % 2 ^ 32 % size

section
variable {size n : Nat}

theorem mod_eq_mod_iff_dvd {a b : Nat} (hle : a ≤ b) : a % size = b % size ↔ size ∣ b - a :=
  Nat.modEq_iff_dvd' hle

theorem mod_word_mod_iff (a : Nat) :
    a % 2 ^ 32 % size = a % size ↔ size ∣ 2 ^ 32 * (a / 2 ^ 32) := by
  have hcut : a - a % 2 ^ 32 = 2 ^ 32 * (a / 2 ^ 32) := by
    have := Nat.div_add_mod a (2 ^ 32)
    omega
  rw [mod_eq_mod_iff_dvd (Nat.mod_le _ _), hcut]

theorem dvd_word_of_dvd (hlt : size < 2 ^ 32) (hdvd : size ∣ 2 ^ 64) : size ∣ 2 ^ 32 := by
  obtain ⟨e, _, rfl⟩ := (Nat.dvd_prime_pow Nat.prime_two).mp hdvd
  have he : e < 32 := (Nat.pow_lt_pow_iff_right (by decide)).mp hlt
  exact Nat.pow_dvd_pow 2 he.le

theorem count_eq (n : Nat) : n = 2 ^ 64 * (n / 2 ^ 64) + n % 2 ^ 64 :=
  (Nat.div_add_mod n (2 ^ 64)).symm

theorem stored_slot {i : Nat} (hi : i < size) (hge : size ≤ n + i)
    (hturn : n < 2 ^ 64 ∨ size ≤ n % 2 ^ 64) :
    (n + i - size) % 2 ^ 64 % size = (n % 2 ^ 64 + i) % size := by
  have hcount := count_eq n
  have hmod : n % 2 ^ 64 < 2 ^ 64 := Nat.mod_lt _ (by decide)
  have hin : size ≤ n % 2 ^ 64 + i := by
    cases hturn with
    | inl hlt =>
      rw [Nat.mod_eq_of_lt hlt]
      exact hge
    | inr hle => omega
  have hturned : (n + i - size) % 2 ^ 64 = n % 2 ^ 64 + i - size := by
    rw [show n + i - size = n % 2 ^ 64 + i - size + 2 ^ 64 * (n / 2 ^ 64) by omega,
      Nat.add_mul_mod_self_left, Nat.mod_eq_of_lt (by omega)]
  rw [hturned, ← Nat.mod_eq_sub_mod hin]

theorem read_slot (n i : Nat) : (n + i) % 2 ^ 32 = (n % 2 ^ 64 + i) % 2 ^ 32 := by
  rw [Nat.add_mod, Nat.add_mod (n % 2 ^ 64), Nat.mod_mod_of_dvd n (by decide : 2 ^ 32 ∣ 2 ^ 64)]

/-- A window that lies across the wrap of the position is read from the slots it was stored in only
if its size is a power of two. -/
theorem turn_of_reads (hsize : 0 < size) (hlt : size < 2 ^ 32) (hreads : Reads size n)
    (hdvd : ¬ size ∣ 2 ^ 32) : n < 2 ^ 64 ∨ size ≤ n % 2 ^ 64 := by
  by_contra hturn
  obtain ⟨hn, hm⟩ : 2 ^ 64 ≤ n ∧ n % 2 ^ 64 < size := by omega
  apply hdvd
  apply dvd_word_of_dvd hlt
  have hcount := count_eq n
  have hpos : 0 < n / 2 ^ 64 := Nat.div_pos hn (by decide)
  have hslot := hreads 0 hsize (by omega)
  have hbefore : (n + 0 - size) % 2 ^ 64 = 2 ^ 64 + n % 2 ^ 64 - size := by
    rw [show n + 0 - size = 2 ^ 64 + n % 2 ^ 64 - size + 2 ^ 64 * (n / 2 ^ 64 - 1) by omega,
      Nat.add_mul_mod_self_left, Nat.mod_eq_of_lt (by omega)]
  rw [hbefore, read_slot, Nat.add_zero, Nat.mod_eq_of_lt (show n % 2 ^ 64 < 2 ^ 32 by omega),
    eq_comm, mod_eq_mod_iff_dvd (by omega)] at hslot
  have hwrap : size ∣ 2 ^ 64 + n % 2 ^ 64 - size - n % 2 ^ 64 + size :=
    Nat.dvd_add hslot (Nat.dvd_refl size)
  rwa [show 2 ^ 64 + n % 2 ^ 64 - size - n % 2 ^ 64 + size = 2 ^ 64 by omega] at hwrap

theorem reads_iff_clear (hsize : 0 < size) (hlt : size < 2 ^ 32) (n : Nat) :
    Reads size n ↔ Clear size n := by
  constructor
  · intro hreads
    by_cases hdvd : size ∣ 2 ^ 32
    · exact .inl hdvd
    · have hturn := turn_of_reads hsize hlt hreads hdvd
      refine .inr ⟨hturn, fun i hi => ?_⟩
      rw [← mod_word_mod_iff]
      obtain hshort | hge := Nat.lt_or_ge (n + i) size
      · have hle : n % 2 ^ 64 ≤ n := Nat.mod_le _ _
        rw [Nat.mod_eq_of_lt (show n % 2 ^ 64 + i < 2 ^ 32 by omega)]
      · rw [← read_slot, ← hreads i hi hge, stored_slot hi hge hturn]
  · intro hclear i hi hge
    obtain hdvd | ⟨hturn, hcut⟩ := hclear
    · have hdvd' : size ∣ 2 ^ 64 := hdvd.trans (by decide)
      rw [Nat.mod_mod_of_dvd _ hdvd', Nat.mod_mod_of_dvd _ hdvd, ← Nat.mod_eq_sub_mod hge]
    · rw [stored_slot hi hge hturn, read_slot, (mod_word_mod_iff _).mpr (hcut i hi)]

end

/-! ## One signal -/

def slot (size : Nat) (k : Nat) : Nat := k % 2 ^ 64 % size

def memory (size : Nat) (values : List Value) : List Value :=
  Ring.storeAll (slot size) (List.replicate size 0) 0 values

theorem memory_length (size : Nat) (values : List Value) : (memory size values).length = size := by
  rw [memory, Ring.length_storeAll, List.length_replicate]

section
variable {size n : Nat}

theorem slot_lt (hsize : 0 < size) (k : Nat) : slot size k < size := Nat.mod_lt _ hsize

theorem slots_differ (hclear : Clear size n) {i j : Nat} (hij : i < j)
    (hj : j < size) (hge : size ≤ n + i) :
    slot size (n + j - size) ≠ slot size (n + i - size) := by
  intro heq
  have hdvd : size ∣ j - i := by
    obtain hword | ⟨hturn, _⟩ := hclear
    · have hdvd' : size ∣ 2 ^ 64 := hword.trans (by decide)
      rw [slot, slot, Nat.mod_mod_of_dvd _ hdvd', Nat.mod_mod_of_dvd _ hdvd', eq_comm,
        mod_eq_mod_iff_dvd (by omega)] at heq
      rwa [show n + j - size - (n + i - size) = j - i by omega] at heq
    · rw [slot, slot, stored_slot hj (by omega) hturn,
        stored_slot (by omega) hge hturn, eq_comm, mod_eq_mod_iff_dvd (by omega)] at heq
      rwa [show n % 2 ^ 64 + j - (n % 2 ^ 64 + i) = j - i by omega] at heq
  have hle := Nat.le_of_dvd (by omega) hdvd
  omega

theorem memory_slot_of_short {values : List Value} {i : Nat} (hsize : size < 2 ^ 32)
    (hshort : values.length + i < size) : (memory size values)[values.length + i]? = some 0 := by
  have hlt : values.length + i < (memory size values).length := by
    rw [memory_length]
    exact hshort
  have hsome := List.getElem?_eq_getElem hlt
  have hzero := Ring.storeAll_replicate_slot (fun y => y = 0) rfl ?_ hsome
  · rw [hsome, hzero]
  · intro k y hk hslot
    have hk' := (List.getElem?_eq_some_iff.mp hk).1
    rw [Nat.zero_add, slot, Nat.mod_eq_of_lt (show k < 2 ^ 64 by omega),
      Nat.mod_eq_of_lt (show k < size by omega)] at hslot
    omega

theorem memory_slot_of_long {values : List Value} {i : Nat} (hsize : 0 < size)
    (hclear : Clear size values.length) (hi : i < size) (hge : size ≤ values.length + i) :
    (memory size values)[slot size (values.length + i - size)]? =
      values[values.length + i - size]? := by
  obtain ⟨x, hx⟩ : ∃ x, values[values.length + i - size]? = some x :=
    ⟨_, List.getElem?_eq_getElem (by omega)⟩
  have hlast := @Ring.storeAll_last _ (slot size) (List.replicate size 0) values 0 _ _ hx
    (by rw [List.length_replicate]; exact slot_lt hsize _) ?_
  · rw [Nat.zero_add] at hlast
    rw [memory, hlast, hx]
  · intro k hlt hk
    rw [Nat.zero_add, Nat.zero_add]
    have hdiff := slots_differ hclear (i := i) (j := k + size - values.length) (by omega)
      (by omega) hge
    rwa [show values.length + (k + size - values.length) - size = k by omega] at hdiff

end

/-! ## Runs -/

def readSamples (smps : List Payload) : List (List Value) :=
  c.signalIndices.map fun index =>
    sampleWindow c ((BitVec.ofNat 64 smps.length).setWidth 32)
      (memory c.windowSize.toNat (smps.map fun smp => smp.data index))

structure Stored (s : State τ) (smps : List Payload) : Prop where
  memory : s.smpMemory = c.signalIndices.map fun index =>
    memory c.windowSize.toNat (smps.map fun smp => smp.data index)
  pos : s.smpMemPos = BitVec.ofNat 64 smps.length

section
variable {c} {s : State τ} {smps : List Payload}

theorem stored_prepared (nextCalc : τ) : Stored c (prepared c nextCalc) [] := ⟨rfl, rfl⟩

theorem stored_updateMemory (hs : Stored c s smps) (smp : Payload) :
    Stored c (updateMemory c s smp) (smps ++ [smp]) where
  memory := by
    simp only [updateMemory, hs.memory, hs.pos, memorySlot_ofNat, List.zipWith_map_left,
      List.zipWith_self, List.map_append, List.map_singleton]
    apply List.map_congr_left
    intro index _
    rw [DftHook.memory, DftHook.memory, Ring.storeAll_concat, Nat.zero_add, List.length_map]
    rfl
  pos := by
    rw [List.length_append, List.length_singleton, BitVec.ofNat_add]
    simp only [updateMemory, hs.pos]
    rfl

theorem stored_process (hs : Stored c s smps) (smp : Payload) :
    Stored c (process c s smp).1 (smps ++ [smp]) := by
  have hnext := stored_updateMemory hs smp
  unfold process
  dsimp only
  split
  · exact ⟨hnext.memory, hnext.pos⟩
  · exact hnext

theorem process_vectors (hs : Stored c s smps) (smp : Payload) :
    (process c s smp).2.1 =
      if c.sync && c.due smp.origin s.nextCalc then some (readSamples c (smps ++ [smp]))
      else none := by
  have hnext := stored_updateMemory hs smp
  have hread : (updateMemory c s smp).smpMemory.map
      (sampleWindow c ((updateMemory c s smp).smpMemPos.setWidth 32)) =
        readSamples c (smps ++ [smp]) := by
    rw [hnext.memory, hnext.pos, List.map_map]
    rfl
  unfold process
  dsimp only
  rw [hread]
  have hsame : (updateMemory c s smp).nextCalc = s.nextCalc := rfl
  rw [hsame]
  split <;> rfl

theorem process_next (s : State τ) (smp : Payload) :
    (process c s smp).1.nextCalc =
        (if c.sync && c.due smp.origin s.nextCalc then c.next smp.origin s.calcCount
          else s.nextCalc) ∧
      (process c s smp).1.calcCount =
        if c.sync && c.due smp.origin s.nextCalc then s.calcCount + 1 else s.calcCount := by
  have hsame : (updateMemory c s smp).nextCalc = s.nextCalc := rfl
  unfold process
  dsimp only
  rw [hsame]
  split <;> exact ⟨rfl, rfl⟩

theorem calculates_cons (s : State τ) (smp : Payload) (origins : List Timespec) :
    calculates c s.nextCalc s.calcCount (smp.origin :: origins) =
      (c.sync && c.due smp.origin s.nextCalc) ::
        calculates c (process c s smp).1.nextCalc (process c s smp).1.calcCount origins := by
  obtain ⟨hnext, hcount⟩ := process_next (c := c) s smp
  rw [calculates, hnext, hcount]
  by_cases hdue : (c.sync && c.due smp.origin s.nextCalc) = true
  · rw [if_pos hdue, if_pos hdue, if_pos hdue, hdue]
  · rw [if_neg hdue, if_neg hdue, if_neg hdue, Bool.eq_false_iff.mpr hdue]

theorem calculates_length (c : Config τ) (nextCalc : τ) (calcCount : BitVec 64)
    (origins : List Timespec) :
    (calculates c nextCalc calcCount origins).length = origins.length := by
  induction origins generalizing nextCalc calcCount with
  | nil => rfl
  | cons origin origins ih =>
    rw [calculates]
    split <;> rw [List.length_cons, List.length_cons, ih]

/-- The windows of a run are what its rings hold at the samples where the transform is
calculated. -/
theorem windows_getElem? (hs : Stored c s smps) (later : List Payload) (n : Nat) :
    (windows c s later)[n]? =
      ((calculates c s.nextCalc s.calcCount (later.map (·.origin)))[n]?).map fun run =>
        if run then some (readSamples c (smps ++ later.take (n + 1))) else none := by
  induction later generalizing s smps n with
  | nil => rfl
  | cons smp later ih =>
    rw [windows, List.map_cons, calculates_cons]
    cases n with
    | zero =>
      rw [List.getElem?_cons_zero, List.getElem?_cons_zero, process_vectors hs]
      rfl
    | succ n =>
      rw [List.getElem?_cons_succ, List.getElem?_cons_succ, ih (stored_process hs smp) n,
        List.append_assoc]
      rfl

end

theorem sampleWindow_of_clear (values : List Value) (hsize : 0 < c.windowSize.toNat)
    (hclear : Clear c.windowSize.toNat values.length) :
    sampleWindow c ((BitVec.ofNat 64 values.length).setWidth 32)
      (memory c.windowSize.toNat values) = Ring.window c.windowSize.toNat 0 values := by
  have hlt : c.windowSize.toNat < 2 ^ 32 := c.windowSize.isLt
  have hreads := (reads_iff_clear hsize hlt _).mpr hclear
  apply List.ext_getElem?
  intro i
  obtain hi | hi := Nat.lt_or_ge i c.windowSize.toNat
  · rw [sampleWindow, List.getElem?_map, List.getElem?_range hi, Option.map_some,
      windowSlot_ofNat, List.getD_eq_getElem?_getD]
    obtain hshort | hge := Nat.lt_or_ge (values.length + i) c.windowSize.toNat
    · rw [Nat.mod_eq_of_lt (show values.length + i < 2 ^ 32 by omega), Nat.mod_eq_of_lt hshort,
        memory_slot_of_short hlt hshort, Ring.getElem?_window_of_lt hshort]
      rfl
    · have hslot := memory_slot_of_long hsize hclear hi hge
      rw [slot, hreads i hi hge] at hslot
      rw [hslot, Ring.getElem?_window_of_ge hge]
      have hin : values.length + i - c.windowSize.toNat < values.length := by omega
      rw [List.getElem?_eq_getElem hin]
      rfl
  · rw [List.getElem?_eq_none (by simpa [sampleWindow] using hi),
      List.getElem?_eq_none (by simpa using hi)]

theorem readSamples_of_clear {smps : List Payload} (hsize : 0 < c.windowSize.toNat)
    (hclear : Clear c.windowSize.toNat smps.length) : readSamples c smps = lastSamples c smps := by
  unfold readSamples lastSamples
  apply List.map_congr_left
  intro index _
  have hread := sampleWindow_of_clear c (smps.map fun smp => smp.data index) hsize
    (by rwa [List.length_map])
  rwa [List.length_map] at hread

/-! ## One sample that differs -/

/-- All values are zero, but those of one sample. -/
def marked (origins : List Timespec) (k : Nat) : List Payload :=
  origins.mapIdx fun n origin => ⟨0, 0, 0, 0, origin, ⟨0, 0⟩, fun _ => if n = k then 1 else 0⟩

theorem marked_origins (origins : List Timespec) (k : Nat) :
    (marked origins k).map (·.origin) = origins := by
  apply List.ext_getElem?
  intro i
  rw [List.getElem?_map, marked, List.getElem?_mapIdx]
  cases origins[i]? <;> rfl

theorem marked_values (origins : List Timespec) (k n index : Nat) {i : Nat} {y : Value}
    (hy : (((marked origins k).take n).map fun smp => smp.data index)[i]? = some y) :
    y = if i = k then 1 else 0 := by
  rw [List.getElem?_map, Option.map_eq_some_iff] at hy
  obtain ⟨smp, hsmp, rfl⟩ := hy
  have hat : (marked origins k)[i]? = some smp := by
    rw [List.getElem?_take] at hsmp
    split at hsmp
    · exact hsmp
    · cases hsmp
  rw [marked, List.getElem?_mapIdx, Option.map_eq_some_iff] at hat
  obtain ⟨origin, _, rfl⟩ := hat
  rfl

theorem handed (nextCalc : τ) {smps : List Payload} {n : Nat}
    (hall : HandsLastSamples c nextCalc smps)
    (hrun : (calculates c nextCalc 0 (smps.map (·.origin)))[n]? = some true) :
    readSamples c (smps.take (n + 1)) = lastSamples c (smps.take (n + 1)) := by
  refine hall n _ ?_
  have hwindows := windows_getElem? (stored_prepared (c := c) nextCalc) smps n
  have hstart : calculates c (prepared c nextCalc).nextCalc (prepared c nextCalc).calcCount
      (smps.map (·.origin)) = calculates c nextCalc 0 (smps.map (·.origin)) := rfl
  rw [hwindows, hstart, hrun]
  rfl

theorem reads_of_hands (nextCalc : τ) (origins : List Timespec) {n : Nat}
    (hall : ∀ smps, smps.map (·.origin) = origins → HandsLastSamples c nextCalc smps)
    (hsignals : c.signalIndices ≠ [])
    (hrun : (calculates c nextCalc 0 origins)[n]? = some true) :
    Reads c.windowSize.toNat (n + 1) := by
  intro i hi hge
  obtain ⟨index, hindex⟩ := List.exists_mem_of_ne_nil _ hsignals
  have hlen : n < origins.length := by
    rw [← calculates_length c nextCalc 0 origins]
    exact (List.getElem?_eq_some_iff.mp hrun).1
  -- the sample that the window has in place `i`
  generalize hk : n + 1 + i - c.windowSize.toNat = k
  generalize hvalues : (((marked origins k).take (n + 1)).map fun smp => smp.data index) = values
  have hcount : values.length = n + 1 := by
    rw [← hvalues, List.length_map, List.length_take, marked, List.length_mapIdx]
    omega
  have hmarked := hall (marked origins k) (marked_origins origins k)
  have hrun' : (calculates c nextCalc 0 ((marked origins k).map (·.origin)))[n]? = some true := by
    rw [marked_origins]
    exact hrun
  have hread := handed c nextCalc hmarked hrun'
  have hsame := List.map_inj_left.mp hread index hindex
  rw [hvalues] at hsame
  have hlength := congrArg List.length hvalues
  rw [List.length_map, hcount] at hlength
  rw [hlength] at hsame
  -- it is the only one that is not zero
  have hone : (Ring.window c.windowSize.toNat 0 values)[i]? = some 1 := by
    have hin : values.length + i - c.windowSize.toNat < values.length := by omega
    obtain ⟨y, hy⟩ : ∃ y, values[values.length + i - c.windowSize.toNat]? = some y :=
      ⟨_, List.getElem?_eq_getElem hin⟩
    have hmark := marked_values origins k (n + 1) index (by rw [hvalues]; exact hy)
    rw [if_pos (by omega)] at hmark
    rw [Ring.getElem?_window_of_ge (by omega), hy, hmark]
  rw [← hsame, sampleWindow, List.getElem?_map, List.getElem?_range hi, Option.map_some,
    Option.some.injEq, windowSlot_ofNat, List.getD_eq_getElem?_getD] at hone
  obtain ⟨y, hy⟩ : ∃ y, (memory c.windowSize.toNat values)[(n + 1 + i) % 2 ^ 32 %
      c.windowSize.toNat]? = some y := by
    refine ⟨_, List.getElem?_eq_getElem ?_⟩
    rw [memory_length]
    exact Nat.mod_lt _ (by omega)
  rw [hy] at hone
  -- the only value that is 1 was stored in the slot that is read
  refine Ring.storeAll_replicate_slot (fun y => y = 1 → slot c.windowSize.toNat k =
    (n + 1 + i) % 2 ^ 32 % c.windowSize.toNat) (fun hone => absurd hone (by decide)) ?_ hy hone
  intro k' y hk' hslot hy1
  rw [← hvalues] at hk'
  have hmark := marked_values origins k (n + 1) index hk'
  rw [hy1] at hmark
  split at hmark
  · next heq => rw [← heq, ← hslot, Nat.zero_add]
  · exact absurd hmark (by decide)

/-- The transform gets the last samples of each signal, whatever their values are, if and only if
each window it is calculated from is clear of a wrap of the position. -/
theorem hands_last_samples_iff (hsize : 0 < c.windowSize) (nextCalc : τ)
    (origins : List Timespec) :
    (∀ smps, smps.map (·.origin) = origins → HandsLastSamples c nextCalc smps) ↔
      c.signalIndices = [] ∨
        ∀ n, (calculates c nextCalc 0 origins)[n]? = some true →
          Clear c.windowSize.toNat (n + 1) := by
  have hpos : 0 < c.windowSize.toNat := hsize
  constructor
  · intro hall
    by_cases hsignals : c.signalIndices = []
    · exact .inl hsignals
    · refine .inr fun n hrun => ?_
      exact (reads_iff_clear hpos c.windowSize.isLt _).mp
        (reads_of_hands c nextCalc origins hall hsignals hrun)
  · intro hcond smps horigins n vectors hvectors
    have hwindows := windows_getElem? (stored_prepared (c := c) nextCalc) smps n
    have hstart : calculates c (prepared c nextCalc).nextCalc (prepared c nextCalc).calcCount
        (smps.map (·.origin)) = calculates c nextCalc 0 origins := by
      rw [horigins]
      rfl
    rw [hwindows, hstart, Option.map_eq_some_iff] at hvectors
    obtain ⟨run, hrun, hvectors⟩ := hvectors
    cases run with
    | false => cases hvectors
    | true =>
      cases hvectors
      rw [List.nil_append]
      cases hcond with
      | inl hnone => simp [readSamples, lastSamples, hnone]
      | inr hclear =>
        have hlen : n < origins.length := by
          rw [← calculates_length c nextCalc 0 origins]
          exact (List.getElem?_eq_some_iff.mp hrun).1
        apply readSamples_of_clear c hpos
        rw [← horigins, List.length_map] at hlen
        rw [List.length_take, Nat.min_eq_left (by omega)]
        exact hclear n hrun

/-! ## A window of three samples -/

def everySample : Config Unit := ⟨3, [0], true, fun _ _ => true, fun _ _ => ()⟩

theorem hands_last_samples_three :
    0 < everySample.windowSize ∧ ∀ smps, smps.map (·.origin) = [⟨0, 0⟩, ⟨1, 0⟩] →
      HandsLastSamples everySample () smps := by
  refine ⟨by decide, (hands_last_samples_iff everySample (by decide) () _).mpr (.inr ?_)⟩
  intro n hrun
  have hn : n < 2 := (List.getElem?_eq_some_iff.mp hrun).1
  refine .inr ⟨.inl (by omega), fun i hi => ?_⟩
  have hi' : i < 3 := hi
  rw [Nat.div_eq_of_lt (by omega), Nat.mul_zero]
  exact Nat.dvd_zero _

theorem calculates_everySample (calcCount : BitVec 64) (origins : List Timespec) {n : Nat}
    (hn : n < origins.length) : (calculates everySample () calcCount origins)[n]? = some true := by
  induction origins generalizing calcCount n with
  | nil => exact absurd hn (Nat.not_lt_zero n)
  | cons origin origins ih =>
    cases n with
    | zero => rfl
    | succ n => exact ih (calcCount + 1) (Nat.lt_of_succ_lt_succ hn)

/-- At the last of `2 ^ 32` samples the window is read from the wrong slot. -/
theorem window_is_torn :
    ¬ ∀ c : Config Unit, 0 < c.windowSize → ∀ smps, HandsLastSamples c () smps := by
  intro hall
  have hrun : (calculates everySample () 0 (List.replicate (2 ^ 32) ⟨0, 0⟩))[2 ^ 32 - 1]? =
      some true :=
    calculates_everySample 0 _ (by rw [List.length_replicate]; decide)
  have hreads := reads_of_hands everySample () _ (fun smps _ => hall everySample (by decide) smps)
    (by decide) hrun
  exact absurd (hreads 0 (by decide) (by decide)) (by decide)

end VillasNode.DftHook
