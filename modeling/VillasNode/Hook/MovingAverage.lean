import Mathlib.Algebra.BigOperators.Group.List.Basic
import Mathlib.Algebra.Order.Field.Rat
import Mathlib.Logic.Function.Basic
import VillasNode.Lib.MachineInt
import VillasNode.Lib.Ring

/-!
# The hooks ma and rms

`lib/hooks/ma.cpp` and `lib/hooks/rms.cpp` over exact numbers. Both carry a sum
along, to which each new value is added and from which an old one is taken.
There is one sum for all signals, and the value that is taken from it is not
the one that leaves the window.
-/

namespace VillasNode.MovingAverage

/-- What `process` does with a value, and with the sum divided by the size of the window. -/
structure Filter where
  newValue : ℚ → ℚ
  result : ℚ → ℚ
  newValue_eq_zero : ∀ x, newValue x = 0 ↔ x = 0
  result_eq_zero : ∀ x, result x = 0 ↔ x = 0

def movingAverageHook : Filter := ⟨fun x => x, fun x => x, fun _ => Iff.rfl, fun _ => Iff.rfl⟩

/-- `root` is the square root. -/
def rmsHook (root : ℚ → ℚ) (hroot : ∀ x, root x = 0 ↔ x = 0) : Filter :=
  ⟨fun x => x * x, root, fun _ => mul_self_eq_zero, hroot⟩

structure Config where
  filter : Filter
  windowSize : BitVec 32
  signalIndices : List Nat

structure State where
  smpMemory : List (List ℚ)
  accumulator : ℚ
  smpMemoryPosition : BitVec 64

abbrev Data := Nat → ℚ

variable (c : Config)

/-- `position % windowSize` -/
def slot (position : BitVec 64) : Nat := (position % c.windowSize.setWidth 64).toNat

/-- What the loop leaves, with the values it has used for each signal. -/
structure Loop where
  smpMemory : List (List ℚ)
  accumulator : ℚ
  data : Data
  used : List ℚ

def signalLoop (position : BitVec 64) : List Nat → List (List ℚ) → ℚ → Data → Loop
  | index :: indices, memory :: memories, accumulator, data =>
    let newValue := c.filter.newValue (data index)
    let memory := memory.set (slot c position) newValue
    let oldValue := memory.getD (slot c (position + 1)) 0
    let accumulator := accumulator + newValue - oldValue
    let used := accumulator / c.windowSize.toNat
    let l := signalLoop position indices memories accumulator
      (Function.update data index (c.filter.result used))
    { l with smpMemory := memory :: l.smpMemory, used := used :: l.used }
  | _, memories, accumulator, data => ⟨memories, accumulator, data, []⟩

def process (s : State) (data : Data) : State × Data × List ℚ :=
  let l := signalLoop c s.smpMemoryPosition c.signalIndices s.smpMemory s.accumulator data
  (⟨l.smpMemory, l.accumulator, s.smpMemoryPosition + 1⟩, l.data, l.used)

/-- What `prepare` leaves in a hook that was constructed. -/
def prepared : State :=
  ⟨c.signalIndices.map fun _ => List.replicate c.windowSize.toNat 0, 0, 0⟩

def after (s : State) (smps : List Data) : State := smps.foldl (fun s data => (process c s data).1) s

/-- The values used at each sample of a run. -/
def used : State → List Data → List (List ℚ)
  | _, [] => []
  | s, data :: smps => (process c s data).2.2 :: used (process c s data).1 smps

/-! ## The specification -/

/-- The last `size` values, or all if there are less. -/
def lastValues (size : Nat) (vs : List ℚ) : List ℚ := vs.drop (vs.length - size)

def values (index : Nat) (smps : List Data) : List ℚ :=
  smps.map fun data => c.filter.newValue (data index)

def windowSum (smps : List Data) (index : Nat) : ℚ :=
  (lastValues c.windowSize.toNat (values c index smps)).sum

/-- The mean of the last values of each signal. -/
def means (smps : List Data) : List ℚ :=
  c.signalIndices.map fun index => windowSum c smps index / c.windowSize.toNat

/-- At each sample the means are used that are due after it. -/
def UsesMeans (smps : List Data) : Prop :=
  ∀ n us, (used c (prepared c) smps)[n]? = some us → us = means c (smps.take (n + 1))

/-- The values that need not be zero: those of the last samples, one less than the window has, if
there is one signal, and that of the last signal in the last sample if there are more and the window
has at least two. -/
def Exempt (count k j : Nat) : Prop :=
  if c.signalIndices.length = 1 then count < k + c.windowSize.toNat
  else 2 ≤ c.windowSize.toNat ∧ k + 1 = count ∧ j + 1 = c.signalIndices.length

/-- All values are zero but these, behind which the position does not wrap. -/
def Quiet (smps : List Data) : Prop :=
  ∀ k j data index, smps[k]? = some data → c.signalIndices[j]? = some index → data index ≠ 0 →
    Exempt c smps.length k j ∧ k / 2 ^ 64 = smps.length / 2 ^ 64

/-! ## Silence -/

def Silent (indices : List Nat) (data : Data) : Prop := ∀ index ∈ indices, data index = 0

/-- The sum is zero, and so are all values in the memory. -/
structure Resting (s : State) (p : Nat) : Prop where
  memory : s.smpMemory = c.signalIndices.map fun _ => List.replicate c.windowSize.toNat 0
  accumulator : s.accumulator = 0
  position : s.smpMemoryPosition = BitVec.ofNat 64 p

section
variable {c} {s : State} {data : Data} {smps later : List Data} {p : Nat}

theorem resting_prepared : Resting c (prepared c) 0 := ⟨rfl, rfl, rfl⟩

theorem set_zero (size i : Nat) :
    (List.replicate size (0 : ℚ)).set i 0 = List.replicate size 0 := List.set_replicate_self

theorem getD_zero (size i : Nat) : (List.replicate size (0 : ℚ)).getD i 0 = 0 := by
  rw [List.getD_eq_getElem?_getD, List.getElem?_replicate]
  split <;> rfl

theorem newValue_zero : c.filter.newValue 0 = 0 := (c.filter.newValue_eq_zero 0).mpr rfl

theorem result_zero : c.filter.result 0 = 0 := (c.filter.result_eq_zero 0).mpr rfl

theorem signalLoop_silent {indices : List Nat} (hsilent : Silent indices data) (position : BitVec 64)
    (behind : List Nat) (memories : List (List ℚ)) :
    signalLoop c position (indices ++ behind)
        ((indices.map fun _ => List.replicate c.windowSize.toNat 0) ++ memories) 0 data =
      let l := signalLoop c position behind memories 0 data
      { l with smpMemory := (indices.map fun _ => List.replicate c.windowSize.toNat 0) ++ l.smpMemory
               used := indices.map (fun _ => 0) ++ l.used } := by
  induction indices with
  | nil => rfl
  | cons index indices ih =>
    have hzero : data index = 0 := hsilent index List.mem_cons_self
    have hrest : Silent indices data := fun i hi => hsilent i (List.mem_cons_of_mem _ hi)
    have hsame : Function.update data index 0 = data := by
      rw [← hzero, Function.update_eq_self]
    simp only [List.cons_append, List.map_cons, signalLoop, hzero, newValue_zero, set_zero, getD_zero,
      add_zero, sub_zero, zero_div, result_zero, hsame, ih hrest]

theorem Resting.process (hs : Resting c s p) (hsilent : Silent c.signalIndices data) :
    Resting c (process c s data).1 (p + 1) := by
  have hloop := signalLoop_silent (c := c) hsilent s.smpMemoryPosition [] []
  rw [List.append_nil, List.append_nil] at hloop
  unfold MovingAverage.process
  rw [hs.memory, hs.accumulator, hloop]
  refine ⟨List.append_nil _, rfl, ?_⟩
  rw [hs.position, BitVec.ofNat_add]
  rfl

theorem Resting.after (hs : Resting c s p) (hsilent : ∀ data ∈ smps, Silent c.signalIndices data) :
    Resting c (after c s smps) (p + smps.length) := by
  induction smps generalizing s p with
  | nil => exact hs
  | cons data smps ih =>
    have hnext := hs.process (hsilent data List.mem_cons_self)
    have hlast := ih hnext fun d hd => hsilent d (List.mem_cons_of_mem _ hd)
    rw [List.length_cons, Nat.add_comm smps.length, ← Nat.add_assoc]
    exact hlast

theorem resting_after (hsilent : ∀ data ∈ smps, Silent c.signalIndices data) :
    Resting c (after c (prepared c) smps) smps.length := by
  have hrest := resting_prepared.after hsilent
  rwa [Nat.zero_add] at hrest

theorem used_append : used c s (smps ++ later) = used c s smps ++ used c (after c s smps) later := by
  induction smps generalizing s with
  | nil => rfl
  | cons data smps ih =>
    rw [List.cons_append, used, ih, used]
    rfl

theorem used_length : (used c s smps).length = smps.length := by
  induction smps generalizing s with
  | nil => rfl
  | cons data smps ih => rw [used, List.length_cons, List.length_cons, ih]

theorem after_concat : after c s (smps ++ [data]) = (process c (after c s smps) data).1 := by
  rw [after, List.foldl_append]
  rfl

theorem usesMeans_concat :
    UsesMeans c (smps ++ [data]) ↔ UsesMeans c smps ∧
      (process c (after c (prepared c) smps) data).2.2 = means c (smps ++ [data]) := by
  have hlast : used c (prepared c) (smps ++ [data]) = used c (prepared c) smps ++
      [(process c (after c (prepared c) smps) data).2.2] := used_append
  have hlen : (used c (prepared c) smps).length = smps.length := used_length
  have hall : (smps ++ [data]).take (smps.length + 1) = smps ++ [data] :=
    List.take_of_length_le (by simp)
  unfold UsesMeans
  rw [hlast]
  refine ⟨fun hmeans => ⟨fun n us hn => ?_, ?_⟩, fun ⟨hbefore, hnow⟩ n us hn => ?_⟩
  · have hlt := (List.getElem?_eq_some_iff.mp hn).1
    have hmean := hmeans n us ((List.getElem?_append_left hlt).trans hn)
    rw [hlen] at hlt
    rwa [List.take_append_of_le_length hlt] at hmean
  · rw [← hall]
    apply hmeans
    rw [← hlen, List.getElem?_concat_length]
  · have hle := (List.getElem?_eq_some_iff.mp hn).1
    rw [List.length_append, List.length_singleton, hlen] at hle
    obtain hlt | heq := Nat.lt_succ_iff_lt_or_eq.mp hle
    · rw [List.getElem?_append_left (by rwa [hlen])] at hn
      rw [List.take_append_of_le_length hlt]
      exact hbefore n us hn
    · rw [heq, ← hlen, List.getElem?_concat_length] at hn
      cases hn
      rw [heq, hall, hnow]

theorem position_after :
    (after c (prepared c) smps).smpMemoryPosition = BitVec.ofNat 64 smps.length := by
  induction smps using List.reverseRecOn with
  | nil => rfl
  | append_singleton smps data ih =>
    rw [after_concat, List.length_append, BitVec.ofNat_add, ← ih]
    rfl

/-! ## Windows and slots -/

theorem sum_lastValues {size : Nat} {vs : List ℚ}
    (hzero : ∀ k v, vs[k]? = some v → k + size < vs.length → v = 0) :
    (lastValues size vs).sum = vs.sum := by
  have hdropped : (vs.take (vs.length - size)).sum = 0 := by
    apply List.sum_eq_zero
    intro v hv
    obtain ⟨k, hk⟩ := List.mem_iff_getElem?.mp hv
    rw [List.getElem?_take] at hk
    split at hk
    · exact hzero k v hk (by omega)
    · cases hk
  rw [← List.sum_take_add_sum_drop vs (vs.length - size), hdropped, zero_add, lastValues]

theorem getElem?_values {index k : Nat} {v : ℚ} (hk : (values c index smps)[k]? = some v) :
    ∃ data, smps[k]? = some data ∧ v = c.filter.newValue (data index) := by
  rw [values, List.getElem?_map, Option.map_eq_some_iff] at hk
  obtain ⟨data, hdata, rfl⟩ := hk
  exact ⟨data, hdata, rfl⟩

theorem values_concat {index : Nat} :
    values c index (smps ++ [data]) = values c index smps ++ [c.filter.newValue (data index)] := by
  rw [values, List.map_append]
  rfl

@[simp]
theorem length_values {index : Nat} : (values c index smps).length = smps.length :=
  List.length_map _

theorem slot_ofNat (k : Nat) : slot c (BitVec.ofNat 64 k) = k % 2 ^ 64 % c.windowSize.toNat :=
  MachineInt.toNat_umod_unsigned k c.windowSize

theorem slot_lt (hsize : 0 < c.windowSize.toNat) (k : Nat) :
    slot c (BitVec.ofNat 64 k) < c.windowSize.toNat := by
  rw [slot_ofNat]
  exact Nat.mod_lt _ hsize

theorem slot_ne {j k : Nat} (hlt : j < k) (hnear : k < j + c.windowSize.toNat)
    (hwrap : j / 2 ^ 64 = k / 2 ^ 64) :
    slot c (BitVec.ofNat 64 k) ≠ slot c (BitVec.ofNat 64 j) := by
  rw [slot_ofNat, slot_ofNat]
  exact Ring.mod_ne_mod (by omega) (by omega)

/-! ## One signal -/

variable {index : Nat} {memory : List ℚ}

theorem process_single (hone : c.signalIndices = [index]) (hmem : s.smpMemory = [memory]) :
    let stored := memory.set (slot c s.smpMemoryPosition) (c.filter.newValue (data index))
    let total := s.accumulator + c.filter.newValue (data index) -
      stored.getD (slot c (s.smpMemoryPosition + 1)) 0
    (process c s data).1.smpMemory = [stored] ∧ (process c s data).1.accumulator = total ∧
      (process c s data).2.2 = [total / c.windowSize.toNat] := by
  unfold process
  rw [hone, hmem]
  exact ⟨rfl, rfl, rfl⟩

variable (c) in
def history (index : Nat) (smps : List Data) : List ℚ :=
  Ring.storeAll (fun k => slot c (BitVec.ofNat 64 k)) (List.replicate c.windowSize.toNat 0) 0
    (values c index smps)

variable (c) in
/-- The value that is taken from the sum at the last of some samples. -/
def oldValue (index : Nat) (smps : List Data) : ℚ :=
  (history c index smps).getD (slot c (BitVec.ofNat 64 smps.length)) 0

theorem history_concat :
    (history c index smps).set (slot c (BitVec.ofNat 64 smps.length)) (c.filter.newValue (data index)) =
      history c index (smps ++ [data]) := by
  unfold history
  rw [values_concat, Ring.storeAll_concat, length_values, Nat.zero_add]

theorem memory_single (hone : c.signalIndices = [index]) :
    (after c (prepared c) smps).smpMemory = [history c index smps] := by
  induction smps using List.reverseRecOn with
  | nil =>
    change (prepared c).smpMemory = _
    rw [prepared, hone]
    rfl
  | append_singleton smps data ih =>
    rw [after_concat, (process_single hone ih).1, position_after, history_concat]

theorem process_after_single (hone : c.signalIndices = [index]) :
    let total := (after c (prepared c) smps).accumulator + c.filter.newValue (data index) -
      oldValue c index (smps ++ [data])
    (after c (prepared c) (smps ++ [data])).accumulator = total ∧
      (process c (after c (prepared c) smps) data).2.2 = [total / c.windowSize.toNat] := by
  have hold : oldValue c index (smps ++ [data]) =
      (history c index (smps ++ [data])).getD (slot c (BitVec.ofNat 64 smps.length + 1)) 0 := by
    rw [oldValue, List.length_append, BitVec.ofNat_add]
    rfl
  obtain ⟨-, htotal, hused⟩ := @process_single c _ data _ _ hone (@memory_single c smps _ hone)
  rw [position_after, history_concat, ← hold] at htotal hused
  rw [after_concat]
  exact ⟨htotal, hused⟩

theorem quiet_of_concat (hquiet : Quiet c (smps ++ [data])) : Quiet c smps := by
  intro k j data index hk hj hne
  have hlt := (List.getElem?_eq_some_iff.mp hk).1
  obtain ⟨hexempt, hwrap⟩ :=
    hquiet k j data index ((List.getElem?_append_left hlt).trans hk) hj hne
  rw [List.length_append, List.length_singleton] at hexempt hwrap
  refine ⟨?_, by omega⟩
  unfold Exempt at hexempt ⊢
  by_cases hone : c.signalIndices.length = 1
  · rw [if_pos hone] at hexempt ⊢
    omega
  · rw [if_neg hone] at hexempt
    omega

theorem quiet_single (hone : c.signalIndices = [index]) (hquiet : Quiet c smps) {k : Nat} {v : ℚ}
    (hk : (values c index smps)[k]? = some v) (hv : v ≠ 0) :
    smps.length < k + c.windowSize.toNat ∧ k / 2 ^ 64 = smps.length / 2 ^ 64 := by
  obtain ⟨data, hdata, rfl⟩ := getElem?_values hk
  have hne : data index ≠ 0 := fun hzero => hv ((c.filter.newValue_eq_zero _).mpr hzero)
  obtain ⟨hexempt, hwrap⟩ := hquiet k 0 data index hdata (by rw [hone]; rfl) hne
  rw [Exempt, if_pos (by rw [hone]; rfl)] at hexempt
  exact ⟨hexempt, hwrap⟩

theorem oldValue_quiet (hone : c.signalIndices = [index]) (hquiet : Quiet c smps) :
    oldValue c index smps = 0 := by
  rw [oldValue, List.getD_eq_getElem?_getD]
  cases hread : (history c index smps)[slot c (BitVec.ofNat 64 smps.length)]? with
  | none => rfl
  | some x =>
    refine Ring.storeAll_replicate_slot (fun y => y = 0) rfl ?_ hread
    intro k y hk hslot
    by_contra hne
    obtain ⟨hnear, hwrap⟩ := quiet_single hone hquiet hk hne
    have hlt := (List.getElem?_eq_some_iff.mp hk).1
    rw [length_values] at hlt
    rw [Nat.zero_add] at hslot
    exact slot_ne hlt hnear hwrap hslot.symm

theorem oldValue_mem (hsize : 0 < c.windowSize.toNat) (hwrap : smps.length < 2 ^ 64) {k : Nat} {v : ℚ}
    (hk : (values c index smps)[k]? = some v) (hfirst : k + c.windowSize.toNat = smps.length) :
    oldValue c index smps = v := by
  have hslot : slot c (BitVec.ofNat 64 smps.length) = slot c (BitVec.ofNat 64 k) := by
    have hk' : k < 2 ^ 64 := by omega
    rw [slot_ofNat, slot_ofNat, Nat.mod_eq_of_lt hwrap, Nat.mod_eq_of_lt hk', ← hfirst,
      Nat.add_mod_right]
  have hstored := @Ring.storeAll_last _ (fun k => slot c (BitVec.ofNat 64 k))
    (List.replicate c.windowSize.toNat 0) _ 0 _ _ hk
    (by rw [List.length_replicate]; exact slot_lt hsize _)
    fun k' hlt hk' => by
      rw [length_values] at hk'
      rw [Nat.zero_add, Nat.zero_add]
      exact slot_ne hlt (by omega) (by omega)
  rw [Nat.zero_add] at hstored
  rw [oldValue, hslot, List.getD_eq_getElem?_getD, history, hstored]
  rfl

theorem accumulator_quiet (hone : c.signalIndices = [index]) (hquiet : Quiet c smps) :
    (after c (prepared c) smps).accumulator = (values c index smps).sum := by
  induction smps using List.reverseRecOn with
  | nil => rfl
  | append_singleton smps data ih =>
    rw [(process_after_single hone).1, ih (quiet_of_concat hquiet), oldValue_quiet hone hquiet,
      values_concat, List.sum_append, List.sum_singleton, sub_zero]

theorem windowSum_quiet (hsize : 0 < c.windowSize.toNat) (hone : c.signalIndices = [index])
    (hquiet : Quiet c smps) :
    windowSum c (smps ++ [data]) index = (values c index (smps ++ [data])).sum := by
  refine sum_lastValues fun k v hk hold => ?_
  rw [length_values, List.length_append, List.length_singleton] at hold
  by_contra hne
  obtain hlt | hge := Nat.lt_or_ge k smps.length
  · rw [values_concat, List.getElem?_append_left (by rwa [length_values])] at hk
    have hnear := (quiet_single hone hquiet hk hne).1
    omega
  · have hlt := (List.getElem?_eq_some_iff.mp hk).1
    rw [length_values, List.length_append, List.length_singleton] at hlt
    omega

theorem used_single_iff (hsize : 0 < c.windowSize.toNat) (hone : c.signalIndices = [index])
    (hquiet : Quiet c smps) :
    (process c (after c (prepared c) smps) data).2.2 = means c (smps ++ [data]) ↔
      oldValue c index (smps ++ [data]) = 0 := by
  have hne : (c.windowSize.toNat : ℚ) ≠ 0 := Nat.cast_ne_zero.mpr hsize.ne'
  have hmeans : means c (smps ++ [data]) =
      [windowSum c (smps ++ [data]) index / c.windowSize.toNat] := by
    rw [means, hone]
    rfl
  rw [(process_after_single hone).2, accumulator_quiet hone hquiet, hmeans, List.singleton_inj,
    div_left_inj' hne, windowSum_quiet hsize hone hquiet, values_concat, List.sum_append,
    List.sum_singleton, sub_eq_self]

theorem quiet_concat_single (hsize : 0 < c.windowSize.toNat) (hone : c.signalIndices = [index])
    (hwrap : smps.length + 1 < 2 ^ 64) (hquiet : Quiet c smps)
    (hold : oldValue c index (smps ++ [data]) = 0) : Quiet c (smps ++ [data]) := by
  intro k j d i hk hj hne
  have hlen : (smps ++ [data]).length = smps.length + 1 := List.length_append
  have hlt := (List.getElem?_eq_some_iff.mp hk).1
  have hindex : i = index := by
    rw [hone, List.getElem?_singleton] at hj
    split at hj
    · exact (Option.some.inj hj).symm
    · cases hj
  have hvalue : (values c index (smps ++ [data]))[k]? = some (c.filter.newValue (d index)) := by
    rw [values, List.getElem?_map, hk]
    rfl
  have hvalue_ne : c.filter.newValue (d index) ≠ 0 := by
    rw [Ne, c.filter.newValue_eq_zero, ← hindex]
    exact hne
  rw [Exempt, if_pos (by rw [hone]; rfl), hlen]
  rw [hlen] at hlt
  refine ⟨?_, by omega⟩
  -- the value that leaves the window would be taken from the sum
  have hfirst : k + c.windowSize.toNat ≠ smps.length + 1 := by
    intro hfirst
    have hread := oldValue_mem hsize (by omega) hvalue (by omega)
    exact hvalue_ne (hread.symm.trans hold)
  obtain hbefore | hnow : k < smps.length ∨ k = smps.length := by omega
  · rw [values_concat, List.getElem?_append_left (by rwa [length_values])] at hvalue
    have hnear := (quiet_single hone hquiet hvalue hvalue_ne).1
    omega
  · omega

/-! ## Several signals -/

variable {front behind indices : List Nat} {last first : Nat} {memories : List (List ℚ)} {v : ℚ}

theorem old_of_two (hsize : 2 ≤ c.windowSize.toNat) (hwrap : p / 2 ^ 64 = (p + 1) / 2 ^ 64) (v : ℚ) :
    ((List.replicate c.windowSize.toNat 0).set (slot c (BitVec.ofNat 64 p)) v).getD
      (slot c (BitVec.ofNat 64 p + 1)) 0 = 0 := by
  have hne : slot c (BitVec.ofNat 64 p + 1) ≠ slot c (BitVec.ofNat 64 p) := by
    have hslots := slot_ne (c := c) (Nat.lt_succ_self p) (by omega) hwrap
    rwa [Nat.succ_eq_add_one, BitVec.ofNat_add] at hslots
  rw [List.getD_eq_getElem?_getD, List.getElem?_set_ne hne.symm, ← List.getD_eq_getElem?_getD,
    getD_zero]

theorem old_of_one (hsize : c.windowSize.toNat = 1) (v : ℚ) :
    ((List.replicate c.windowSize.toNat 0).set (slot c (BitVec.ofNat 64 p)) v).getD
      (slot c (BitVec.ofNat 64 p + 1)) 0 = v := by
  have hzero : ∀ k, slot c (BitVec.ofNat 64 k) = 0 := fun k => by
    rw [slot_ofNat, hsize, Nat.mod_one]
  have hnext : slot c (BitVec.ofNat 64 p + 1) = 0 := by
    rw [← hzero (p + 1), BitVec.ofNat_add]
    rfl
  rw [hzero, hnext, hsize]
  rfl

theorem windowSum_new (hsize : 0 < c.windowSize.toNat) (hbefore : ∀ d ∈ smps, d index = 0) :
    windowSum c (smps ++ [data]) index = c.filter.newValue (data index) := by
  have hvalues : (values c index smps).sum = 0 := by
    apply List.sum_eq_zero
    intro v hv
    obtain ⟨d, hd, rfl⟩ := List.mem_map.mp hv
    exact (c.filter.newValue_eq_zero _).mpr (hbefore d hd)
  rw [windowSum, sum_lastValues, values_concat, List.sum_append, List.sum_singleton, hvalues, zero_add]
  intro k v hk hold
  rw [length_values, List.length_append, List.length_singleton] at hold
  rw [values_concat, List.getElem?_append_left (by rw [length_values]; omega)] at hk
  obtain ⟨d, hd, rfl⟩ := getElem?_values hk
  exact (c.filter.newValue_eq_zero _).mpr (hbefore d (List.mem_of_getElem? hd))

theorem process_behind_silent (hs : Resting c s p) (hall : c.signalIndices = front ++ index :: behind)
    (hsilent : Silent front data) :
    let zeros := List.replicate c.windowSize.toNat (0 : ℚ)
    let v := c.filter.newValue (data index)
    let stored := zeros.set (slot c (BitVec.ofNat 64 p)) v
    let total := v - stored.getD (slot c (BitVec.ofNat 64 p + 1)) 0
    let l := signalLoop c (BitVec.ofNat 64 p) behind (behind.map fun _ => zeros) total
      (Function.update data index (c.filter.result (total / c.windowSize.toNat)))
    process c s data =
      (⟨(front.map fun _ => zeros) ++ stored :: l.smpMemory, l.accumulator, s.smpMemoryPosition + 1⟩,
        l.data, front.map (fun _ => 0) ++ total / c.windowSize.toNat :: l.used) := by
  unfold process
  rw [hs.memory, hs.accumulator, hs.position, hall, List.map_append, signalLoop_silent hsilent]
  simp only [List.map_cons, signalLoop, zero_add]

theorem silent_before (hmany : c.signalIndices.length ≠ 1) (hquiet : Quiet c (smps ++ [data])) :
    ∀ d ∈ smps, Silent c.signalIndices d := by
  intro d hd index hindex
  by_contra hne
  obtain ⟨k, hk⟩ := List.mem_iff_getElem?.mp hd
  obtain ⟨j, hj⟩ := List.mem_iff_getElem?.mp hindex
  have hlt := (List.getElem?_eq_some_iff.mp hk).1
  have hexempt := (hquiet k j d index ((List.getElem?_append_left hlt).trans hk) hj hne).1
  rw [Exempt, if_neg hmany, List.length_append, List.length_singleton] at hexempt
  omega

theorem silent_front (hmany : c.signalIndices.length ≠ 1) (hall : c.signalIndices = front ++ [last])
    (hquiet : Quiet c (smps ++ [data])) : Silent front data := by
  intro index hindex
  by_contra hne
  obtain ⟨j, hj⟩ := List.mem_iff_getElem?.mp hindex
  have hlt := (List.getElem?_eq_some_iff.mp hj).1
  have hexempt := (hquiet smps.length j data index List.getElem?_concat_length
    (by rw [hall, List.getElem?_append_left hlt, hj]) hne).1
  rw [Exempt, if_neg hmany, hall, List.length_append, List.length_append, List.length_singleton,
    List.length_singleton] at hexempt
  omega

theorem used_many (hsize : 0 < c.windowSize.toNat) (hmany : c.signalIndices.length ≠ 1)
    (hquiet : Quiet c (smps ++ [data])) :
    (process c (after c (prepared c) smps) data).2.2 = means c (smps ++ [data]) := by
  obtain hnone | ⟨front, last, hall⟩ := List.eq_nil_or_concat' c.signalIndices
  · rw [process, means, hnone]
    rfl
  have hbefore := silent_before hmany hquiet
  have hfront := silent_front hmany hall hquiet
  have hrest := resting_after hbefore
  have hold : ((List.replicate c.windowSize.toNat 0).set (slot c (BitVec.ofNat 64 smps.length))
      (c.filter.newValue (data last))).getD (slot c (BitVec.ofNat 64 smps.length + 1)) 0 = 0 := by
    by_cases hzero : data last = 0
    · rw [hzero, newValue_zero, set_zero, getD_zero]
    · obtain ⟨hexempt, hwrap⟩ := hquiet smps.length front.length data last
        List.getElem?_concat_length (by rw [hall, List.getElem?_concat_length]) hzero
      rw [Exempt, if_neg hmany] at hexempt
      rw [List.length_append, List.length_singleton] at hwrap
      exact old_of_two hexempt.1 hwrap _
  have hsums : ∀ index ∈ c.signalIndices,
      windowSum c (smps ++ [data]) index = c.filter.newValue (data index) :=
    fun index hindex => windowSum_new hsize fun d hd => hbefore d hd index hindex
  rw [process_behind_silent hrest hall hfront, hold, sub_zero, means, hall, List.map_append,
    List.map_singleton, hsums last (by rw [hall]; simp)]
  have hzeros : front.map (fun _ => (0 : ℚ)) =
      front.map fun index => windowSum c (smps ++ [data]) index / c.windowSize.toNat := by
    apply List.map_congr_left
    intro index hindex
    rw [hsums index (by rw [hall]; exact List.mem_append_left _ hindex), hfront index hindex,
      newValue_zero, zero_div]
  rw [hzeros]
  rfl

theorem process_first (hall : c.signalIndices = first :: indices)
    (hmem : s.smpMemory = memory :: memories) :
    (process c s data).2.2.head? = some ((s.accumulator + c.filter.newValue (data first) -
      (memory.set (slot c s.smpMemoryPosition) (c.filter.newValue (data first))).getD
        (slot c (s.smpMemoryPosition + 1)) 0) / c.windowSize.toNat) := by
  unfold process
  rw [hall, hmem]
  rfl

theorem exists_first_last (hmany : 2 ≤ indices.length) :
    ∃ first front last, indices = (first :: front) ++ [last] := by
  obtain rfl | ⟨front, last, rfl⟩ := List.eq_nil_or_concat' indices
  · cases hmany
  · cases front with
    | nil => exact absurd hmany (by simp)
    | cons first front => exact ⟨first, front, last, rfl⟩

theorem last_zero_of_used {d : Data} (hsize : 2 ≤ c.windowSize.toNat)
    (hwrap : smps.length + 2 < 2 ^ 64) (hbefore : ∀ d ∈ smps, Silent c.signalIndices d)
    (hall : c.signalIndices = (first :: front) ++ [last]) (hfront : Silent (first :: front) d)
    (hused : (process c (after c (prepared c) (smps ++ [d])) data).2.2 =
      means c (smps ++ [d] ++ [data])) : d last = 0 := by
  have hepoch : (smps.length + 1) / 2 ^ 64 = (smps.length + 1 + 1) / 2 ^ 64 := by omega
  have hstate : after c (prepared c) (smps ++ [d]) =
      (process c (after c (prepared c) smps) d).1 := after_concat
  rw [process_behind_silent (resting_after hbefore) hall hfront, old_of_two hsize (by omega),
    sub_zero] at hstate
  obtain ⟨memories, hmem⟩ : ∃ memories, (after c (prepared c) (smps ++ [d])).smpMemory =
      List.replicate c.windowSize.toNat 0 :: memories := by
    rw [hstate]
    exact ⟨_, rfl⟩
  have hsum : (after c (prepared c) (smps ++ [d])).accumulator = c.filter.newValue (d last) := by
    rw [hstate]
    rfl
  have hmean : (means c (smps ++ [d] ++ [data])).head? =
      some (c.filter.newValue (data first) / c.windowSize.toNat) := by
    have hwindow : windowSum c (smps ++ [d] ++ [data]) first = c.filter.newValue (data first) := by
      refine windowSum_new (by omega) fun d' hd' => ?_
      obtain hd' | hd' := List.mem_append.mp hd'
      · exact hbefore d' hd' first (by rw [hall]; exact List.mem_cons_self)
      · rw [List.mem_singleton.mp hd']
        exact hfront first List.mem_cons_self
    rw [← hwindow, means, hall]
    rfl
  have hscale : (c.windowSize.toNat : ℚ) ≠ 0 := Nat.cast_ne_zero.mpr (by omega)
  -- the value of the last signal is still in the sum when the first one is added
  have hhead := congrArg List.head? hused
  rw [process_first hall hmem, hmean, position_after, List.length_append, List.length_singleton,
    old_of_two hsize hepoch, sub_zero, hsum, Option.some_inj, div_left_inj' hscale, add_eq_right,
    c.filter.newValue_eq_zero] at hhead
  exact hhead

theorem silent_of_used (hmany : 2 ≤ c.signalIndices.length) (hwrap : smps.length + 1 < 2 ^ 64)
    (hquiet : Quiet c smps)
    (hused : (process c (after c (prepared c) smps) data).2.2 = means c (smps ++ [data])) :
    ∀ d ∈ smps, Silent c.signalIndices d := by
  obtain rfl | ⟨earlier, d, rfl⟩ := List.eq_nil_or_concat' smps
  · intro d hd
    cases hd
  obtain ⟨first, front, last, hall⟩ := exists_first_last hmany
  have hbefore := silent_before (by omega) hquiet
  have hfront := silent_front (by omega) hall hquiet
  have hlast : d last = 0 := by
    by_contra hne
    obtain ⟨hexempt, -⟩ := hquiet earlier.length (first :: front).length d last
      List.getElem?_concat_length (by rw [hall, List.getElem?_concat_length]) hne
    rw [Exempt, if_neg (by omega)] at hexempt
    rw [List.length_append, List.length_singleton] at hwrap
    exact hne (last_zero_of_used hexempt.1 hwrap hbefore hall hfront hused)
  intro d' hd'
  obtain hd' | hd' := List.mem_append.mp hd'
  · exact hbefore d' hd'
  · rw [List.mem_singleton.mp hd', hall]
    intro index hindex
    obtain hindex | hindex := List.mem_append.mp hindex
    · exact hfront index hindex
    · rw [List.mem_singleton.mp hindex, hlast]

theorem exists_first_sound (hsound : ¬ Silent indices data) :
    ∃ front index behind, indices = front ++ index :: behind ∧ Silent front data ∧ data index ≠ 0 := by
  induction indices with
  | nil => exact absurd (fun index hindex => by cases hindex) hsound
  | cons index indices ih =>
    by_cases hzero : data index = 0
    · have hrest : ¬ Silent indices data := fun hrest => hsound (List.forall_mem_cons.mpr ⟨hzero, hrest⟩)
      obtain ⟨front, i, behind, rfl, hfront, hne⟩ := ih hrest
      exact ⟨index :: front, i, behind, rfl, List.forall_mem_cons.mpr ⟨hzero, hfront⟩, hne⟩
    · exact ⟨[], index, indices, rfl, (fun i hi => by cases hi), hzero⟩

theorem last_of_used (hsize : 0 < c.windowSize.toNat) (hwrap : smps.length + 1 < 2 ^ 64)
    (hbefore : ∀ d ∈ smps, Silent c.signalIndices d)
    (hused : (process c (after c (prepared c) smps) data).2.2 = means c (smps ++ [data]))
    (hall : c.signalIndices = front ++ index :: behind) (hfront : Silent front data)
    (hne : data index ≠ 0) : 2 ≤ c.windowSize.toNat ∧ behind = [] := by
  have hscale : (c.windowSize.toNat : ℚ) ≠ 0 := Nat.cast_ne_zero.mpr hsize.ne'
  have hvalue : c.filter.newValue (data index) ≠ 0 := fun h => hne ((c.filter.newValue_eq_zero _).mp h)
  have hrest := resting_after hbefore
  have hsums : ∀ i ∈ c.signalIndices, windowSum c (smps ++ [data]) i = c.filter.newValue (data i) :=
    fun i hi => windowSum_new hsize fun d hd => hbefore d hd i hi
  have hloop := congrArg (fun r => r.2.2) (process_behind_silent hrest hall hfront)
  dsimp only at hloop
  rw [hused, means, hall, List.map_append, List.map_cons] at hloop
  obtain ⟨hindex, hbehind⟩ := List.cons.inj (List.append_inj hloop (by simp)).2
  rw [hsums index (by rw [hall]; simp), div_left_inj' hscale] at hindex
  have htwo : 2 ≤ c.windowSize.toNat := by
    by_contra hlt
    rw [old_of_one (by omega), sub_self] at hindex
    exact hvalue hindex
  refine ⟨htwo, ?_⟩
  cases behind with
  | nil => rfl
  | cons next behind =>
    have hepoch : smps.length / 2 ^ 64 = (smps.length + 1) / 2 ^ 64 := by omega
    rw [← hindex, List.map_cons, List.map_cons, signalLoop, old_of_two htwo hepoch, sub_zero,
      hsums next (by rw [hall]; simp)] at hbehind
    have hnext := (div_left_inj' hscale).mp (List.cons.inj hbehind).1
    -- a signal that is in the list twice is read after it was written
    obtain rfl | hother := eq_or_ne next index
    · rw [Function.update_self, left_eq_add, c.filter.newValue_eq_zero, c.filter.result_eq_zero,
        div_eq_zero_iff] at hnext
      exact absurd hnext (by simp [hvalue, hscale])
    · rw [Function.update_of_ne hother, right_eq_add] at hnext
      exact absurd hnext hvalue

theorem quiet_concat_many (hsize : 0 < c.windowSize.toNat) (hmany : 2 ≤ c.signalIndices.length)
    (hwrap : smps.length + 1 < 2 ^ 64) (hquiet : Quiet c smps)
    (hused : (process c (after c (prepared c) smps) data).2.2 = means c (smps ++ [data])) :
    Quiet c (smps ++ [data]) := by
  have hbefore := silent_of_used hmany hwrap hquiet hused
  intro k j d index hk hj hne
  have hlt := (List.getElem?_eq_some_iff.mp hk).1
  rw [List.length_append, List.length_singleton] at hlt ⊢
  refine ⟨?_, by omega⟩
  rw [Exempt, if_neg (by omega)]
  obtain hearlier | rfl : k < smps.length ∨ k = smps.length := by omega
  · rw [List.getElem?_append_left hearlier] at hk
    exact absurd (hbefore d (List.mem_of_getElem? hk) index (List.mem_of_getElem? hj)) hne
  · rw [List.getElem?_concat_length] at hk
    cases hk
    obtain ⟨front, first, behind, hall, hfront, hfirst⟩ :=
      exists_first_sound fun hsilent => hne (hsilent index (List.mem_of_getElem? hj))
    obtain ⟨htwo, rfl⟩ := last_of_used hsize hwrap hbefore hused hall hfront hfirst
    refine ⟨htwo, rfl, ?_⟩
    have hj' := (List.getElem?_eq_some_iff.mp hj).1
    rw [hall, List.length_append, List.length_singleton] at hj' ⊢
    by_contra hinside
    have hjlt : j < front.length := by omega
    rw [hall, List.getElem?_append_left hjlt] at hj
    exact hne (hfront index (List.mem_of_getElem? hj))

/-! ## The runs that use the means -/

theorem used_of_quiet (hsize : 0 < c.windowSize.toNat) (hquiet : Quiet c (smps ++ [data])) :
    (process c (after c (prepared c) smps) data).2.2 = means c (smps ++ [data]) := by
  by_cases hlen : c.signalIndices.length = 1
  · obtain ⟨index, hone⟩ := List.length_eq_one_iff.mp hlen
    exact (used_single_iff hsize hone (quiet_of_concat hquiet)).mpr (oldValue_quiet hone hquiet)
  · exact used_many hsize hlen hquiet

theorem quiet_of_used (hsize : 0 < c.windowSize.toNat) (hwrap : smps.length + 1 < 2 ^ 64)
    (hquiet : Quiet c smps)
    (hused : (process c (after c (prepared c) smps) data).2.2 = means c (smps ++ [data])) :
    Quiet c (smps ++ [data]) := by
  obtain hnone | hone | hmany :
      c.signalIndices.length = 0 ∨ c.signalIndices.length = 1 ∨ 2 ≤ c.signalIndices.length := by omega
  · intro k j d index hk hj
    rw [List.length_eq_zero_iff.mp hnone] at hj
    cases hj
  · obtain ⟨index, hone⟩ := List.length_eq_one_iff.mp hone
    exact quiet_concat_single hsize hone hwrap hquiet ((used_single_iff hsize hone hquiet).mp hused)
  · exact quiet_concat_many hsize hmany hwrap hquiet hused

end

/-- A quiet run uses the mean of each signal at each sample, and as long as the position does not wrap
no other run does. -/
theorem usesMeans_iff (smps : List Data) (hsize : 0 < c.windowSize.toNat) :
    (Quiet c smps → UsesMeans c smps) ∧
      (smps.length < 2 ^ 64 → UsesMeans c smps → Quiet c smps) := by
  induction smps using List.reverseRecOn with
  | nil =>
    refine ⟨fun _ n us hn => ?_, fun _ _ k j data index hk => ?_⟩
    · cases hn
    · cases hk
  | append_singleton smps data ih =>
    refine ⟨fun hquiet => ?_, fun hwrap hmeans => ?_⟩
    · exact usesMeans_concat.2 ⟨ih.1 (quiet_of_concat hquiet), used_of_quiet hsize hquiet⟩
    · rw [List.length_append, List.length_singleton] at hwrap
      obtain ⟨hbefore, hnow⟩ := usesMeans_concat.1 hmeans
      exact quiet_of_used hsize hwrap (ih.2 (by omega) hbefore) hnow

/-- A window of three values in which there are two. -/
theorem usesMeans_two : UsesMeans ⟨movingAverageHook, 3, [0]⟩ [fun _ => 1, fun _ => 2] := by
  refine (usesMeans_iff ⟨movingAverageHook, 3, [0]⟩ _ (by decide)).1 ?_
  intro k j data index hk hj hne
  have hlt : k < 2 := (List.getElem?_eq_some_iff.mp hk).1
  refine ⟨?_, ?_⟩
  · change 2 < k + 3
    omega
  · change k / 2 ^ 64 = 2 / 2 ^ 64
    omega

/-- In a window of two values the one that is still in it is taken from the sum. -/
theorem second_mean_is_lost :
    ¬ UsesMeans ⟨movingAverageHook, 2, [0]⟩ [fun _ => 1, fun _ => 1] ∧
      ∀ root hroot, ¬ UsesMeans ⟨rmsHook root hroot, 2, [0]⟩ [fun _ => 1, fun _ => 1] := by
  have hlost (f : Filter) (hf : f.newValue 1 = 1) :
      ¬ UsesMeans ⟨f, 2, [0]⟩ [fun _ => 1, fun _ => 1] := by
    intro hmeans
    have hused : used ⟨f, 2, [0]⟩ (prepared ⟨f, 2, [0]⟩) [fun _ => 1, fun _ => 1] =
        [[1 / 2], [1 / 2]] := by
      simp [used, process, prepared, signalLoop, slot, hf]
    have hmean : means ⟨f, 2, [0]⟩ [fun _ => 1, fun _ => 1] = [1] := by
      simp [means, windowSum, lastValues, values, hf]
    have hsecond := hmeans 1 [1 / 2] (by rw [hused]; rfl)
    rw [List.take_of_length_le (Nat.le_refl 2), hmean] at hsecond
    simp at hsecond
  exact ⟨hlost movingAverageHook rfl, fun root hroot => hlost (rmsHook root hroot) (one_mul 1)⟩

end VillasNode.MovingAverage
