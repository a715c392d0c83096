import Mathlib.Data.List.GetD
import Mathlib.Data.List.Range
import VillasNode.VillasBinary.Model

/-!
# Hooks that change the signal list

The hooks `average` and `dp` of `lib/hooks`. `prepare` edits the list of signals
and `process` the values of a sample, with `sample_data_insert` and
`sample_data_remove` of `lib/sample.cpp`. The floating point arithmetic of the
hooks is any function.
-/

namespace VillasNode.SignalHooks

/-! ## Samples -/

/-- A value with the member of `union signal_data` that was written last. -/
structure Data where
  type : SignalType
  bits : Value
deriving DecidableEq

structure Smp where
  length : Nat
  data : Nat → Data

/-- `memmove` of `n` values from `src` to `dst`. -/
def memmove (data : Nat → Data) (dst src n : Nat) : Nat → Data := fun j =>
  if dst ≤ j ∧ j < dst + n then data (src + (j - dst)) else data j

def memcpy (data : Nat → Data) (dst : Nat) (src : List Data) : Nat → Data := fun j =>
  if dst ≤ j then src.getD (j - dst) (data j) else data j

def sampleDataInsert (s : Smp) (src : List Data) (offset : Nat) : Smp where
  length := s.length + src.length
  data := memcpy (memmove s.data (offset + src.length) offset (s.length - offset)) offset src

/-- Only `len` values are moved, however many come behind. -/
def sampleDataRemove (s : Smp) (offset len : Nat) : Smp where
  length := s.length - len
  data := memmove s.data offset (offset + len) len

/-! ## Signal lists -/

/-- Where a signal of the new list comes from. No code reads it. -/
inductive Origin where
  | old (i : Nat)
  | new (j : Nat)
deriving DecidableEq

structure Signal where
  type : SignalType
  origin : Origin
deriving DecidableEq

/-! `vlist_insert` and `vlist_remove` are of the common submodule, and they are taken to insert and to
remove one element. -/

def vlistInsert (l : List Signal) (idx : Nat) (x : Signal) : List Signal :=
  l.take idx ++ x :: l.drop idx

def vlistRemove (l : List Signal) (idx : Nat) : Option (List Signal) :=
  if idx < l.length then some (l.take idx ++ l.drop (idx + 1)) else none

/-! ## The hooks -/

inductive Config where
  | average (selected : List Nat) (offset : Nat)
  | dp (inverse : Bool) (signalIndex : Nat) (harmonics : Nat)
deriving DecidableEq

/-- `offset` of the hook `dp`, which no setting changes. -/
def dpOffset : Nat := 0

/-- The loop of `DPHook::prepare` over the coefficients, from `i` on. -/
def removeLoop (signalIndex : Nat) : List Signal → Nat → Nat → Option (List Signal)
  | l, _, 0 => some l
  | l, i, n + 1 =>
    match l[signalIndex + i]? with
    | none => none
    | some sig =>
      if sig.type = .complex then
        (vlistRemove l (signalIndex + i)).bind fun l => removeLoop signalIndex l (i + 1) n
      else none

def insertLoop : List Signal → Nat → Nat → List Signal
  | l, _, 0 => l
  | l, i, n + 1 => insertLoop (vlistInsert l (dpOffset + i) ⟨.complex, .new i⟩) (i + 1) n

/-- `none` when it throws. -/
def prepare (l : List Signal) : Config → Option (List Signal)
  | .average _ offset => some (vlistInsert l offset ⟨.float, .new 0⟩)
  | .dp true signalIndex harmonics =>
    (removeLoop signalIndex l 0 harmonics).map fun l => vlistInsert l dpOffset ⟨.float, .new 0⟩
  | .dp false signalIndex harmonics =>
    match l[signalIndex]? with
    | none => none
    | some sig =>
      if sig.type = .float then
        (vlistRemove l signalIndex).map fun l => insertLoop l 0 harmonics
      else none

/-- What the hooks compute in floating point. -/
structure Arith where
  average : List Data → Value
  step : Value → Nat → Value
  istep : List Value → Value

/-- The selected values, or `none` for one that is neither an integer nor a float. -/
def averageInputs (types : List SignalType) (s : Smp) : List Nat → Option (List Data)
  | [] => some []
  | index :: indices =>
    match types[index]? with
    | some .integer | some .float => (averageInputs types s indices).map (s.data index :: ·)
    | _ => none

/-- The values that a hook computes for its new signals. -/
def computed (arith : Arith) (s : Smp) : Config → List Data
  | .average selected _ => [⟨.float, arith.average (selected.map s.data)⟩]
  | .dp true signalIndex harmonics =>
    [⟨.float, arith.istep ((List.range harmonics).map fun i => (s.data (signalIndex + i)).bits)⟩]
  | .dp false signalIndex harmonics =>
    (List.range harmonics).map fun j => ⟨.complex, arith.step (s.data signalIndex).bits j⟩

/-- `process` of a sample with signals of these types. `none` stands for `Reason::ERROR`. -/
def process (arith : Arith) (types : List SignalType) (s : Smp) : Config → Option Smp
  | .average selected offset =>
    match averageInputs types s selected with
    | none => none
    | some inputs =>
      if offset ≥ s.length then none
      else some (sampleDataInsert s [⟨.float, arith.average inputs⟩] offset)
  | .dp true signalIndex harmonics =>
    if signalIndex > s.length then none
    else
      let coeffs := (List.range harmonics).map fun i => (s.data (signalIndex + i)).bits
      let s := sampleDataRemove s signalIndex harmonics
      some (sampleDataInsert s [⟨.float, arith.istep coeffs⟩] dpOffset)
  | .dp false signalIndex harmonics =>
    if signalIndex > s.length then none
    else
      let signal := (s.data signalIndex).bits
      let s := sampleDataRemove s signalIndex 1
      some (sampleDataInsert s ((List.range harmonics).map fun j => ⟨.complex, arith.step signal j⟩)
        dpOffset)

/-! ## Alignment -/

def values (s : Smp) : List Data := (List.range s.length).map s.data

def signalsOf (types : List SignalType) : List Signal :=
  (List.range types.length).map fun i => ⟨types.getD i .invalid, .old i⟩

def Signal.oldIndex (sig : Signal) : Option Nat :=
  match sig.origin with
  | .old i => some i
  | .new _ => none

/-- The value that belongs to a signal, for the sample `s` before and the computed values `new`. -/
def Signal.value (s : Smp) (new : List Data) (sig : Signal) : Option Data :=
  match sig.origin with
  | .old i => some (s.data i)
  | .new j => new[j]?

/-- A sample has a value of the right type for each signal. -/
def Fits (types : List SignalType) (s : Smp) : Prop :=
  s.length = types.length ∧ ∀ i type, types[i]? = some type → (s.data i).type = type

def replaced : Config → Nat → Bool
  | .average _ _, _ => false
  | .dp true signalIndex harmonics, i => signalIndex ≤ i ∧ i < signalIndex + harmonics
  | .dp false signalIndex _, i => i = signalIndex

/-- The sample `s'` has one value for each signal of `l`, the one that belongs to it and of its
type. -/
structure Aligned (s : Smp) (new : List Data) (l : List Signal) (s' : Smp) : Prop where
  length : s'.length = l.length
  value : ∀ (idx : Nat) (sig : Signal), l[idx]? = some sig →
    sig.value s new = some (s'.data idx) ∧ (s'.data idx).type = sig.type

/-- A signal that can be averaged. -/
def Averages (types : List SignalType) (i : Nat) : Prop :=
  types[i]? = some .integer ∨ types[i]? = some .float

/-- The selected signals can be averaged. Others are "not supported": the hook reports an error
for every sample. -/
def Supported (types : List SignalType) : Config → Prop
  | .average selected _ => ∀ i ∈ selected, Averages types i
  | .dp _ _ _ => True

/-- `prepare` replaces the right signals and keeps the others in their order, and `process` follows
it with every sample. -/
def Aligns (arith : Arith) (types : List SignalType) (c : Config) : Prop :=
  ∃ l, prepare (signalsOf types) c = some l ∧
    l.filterMap Signal.oldIndex = (List.range types.length).filter (fun i => ¬ replaced c i) ∧
    ∀ s, Fits types s → (Supported types c → (process arith types s c).isSome) ∧
      ∀ s', process arith types s c = some s' → Aligned s (computed arith s c) l s'

/-- The settings that make sense: an offset inside the list, signals that exist, a float to
transform, complex values to transform back. -/
def Valid (types : List SignalType) : Config → Prop
  | .average selected offset => offset < types.length ∧ ∀ i ∈ selected, i < types.length
  | .dp true signalIndex harmonics => signalIndex + harmonics ≤ types.length ∧
      ∀ i < harmonics, types[signalIndex + i]? = some .complex
  | .dp false signalIndex _ => types[signalIndex]? = some .float

/-- For `dp`, at most one value comes behind the one that is removed, and at most one value is
transformed back. -/
def Keeps (types : List SignalType) : Config → Prop
  | .average _ _ => True
  | .dp true signalIndex harmonics =>
      harmonics = 0 ∨ (harmonics = 1 ∧ types.length ≤ signalIndex + 2)
  | .dp false signalIndex _ => types.length ≤ signalIndex + 2

/-! ## Values -/

section
variable {s : Smp} {offset len : Nat}

theorem values_length (s : Smp) : (values s).length = s.length := by simp [values]

theorem values_lt {s : Smp} {i : Nat} (h : i < s.length) : (values s)[i]? = some (s.data i) := by
  simp [values, h]

theorem values_ge {s : Smp} {i : Nat} (h : s.length ≤ i) : (values s)[i]? = none := by
  simp [values, h]

theorem take_values_length (h : offset ≤ s.length) : ((values s).take offset).length = offset := by
  rw [List.length_take, values_length]
  omega

theorem values_insert (src : List Data) (h : offset ≤ s.length) :
    values (sampleDataInsert s src offset) =
      (values s).take offset ++ (src ++ (values s).drop offset) := by
  have hlen : (sampleDataInsert s src offset).length = s.length + src.length := rfl
  have htake := take_values_length h
  apply List.ext_getElem?
  intro i
  by_cases hlow : i < offset
  · rw [values_lt (by omega), List.getElem?_append_left (by omega), List.getElem?_take_of_lt hlow,
      values_lt (by omega)]
    simp only [sampleDataInsert, memcpy, memmove]
    rw [if_neg (by omega), if_neg (by omega)]
  rw [List.getElem?_append_right (by omega), htake]
  by_cases hmid : i < offset + src.length
  · rw [values_lt (by omega), List.getElem?_append_left (by omega),
      List.getElem?_eq_getElem (by omega)]
    simp only [sampleDataInsert, memcpy]
    rw [if_pos (by omega), List.getD_eq_getElem _ _ (by omega)]
  rw [List.getElem?_append_right (by omega), List.getElem?_drop]
  by_cases hend : i < s.length + src.length
  · rw [values_lt (by omega), values_lt (by omega)]
    simp only [sampleDataInsert, memcpy, memmove]
    rw [if_pos (by omega), List.getD_eq_default _ _ (by omega), if_pos (by omega)]
    congr 2
    omega
  · rw [values_ge (by omega), values_ge (by omega)]

theorem values_remove (h : offset + len ≤ s.length) (hrest : s.length ≤ offset + 2 * len) :
    values (sampleDataRemove s offset len) =
      (values s).take offset ++ (values s).drop (offset + len) := by
  have hlen : (sampleDataRemove s offset len).length = s.length - len := rfl
  have htake : ((values s).take offset).length = offset := take_values_length (by omega)
  apply List.ext_getElem?
  intro i
  by_cases hlow : i < offset
  · rw [values_lt (by omega), List.getElem?_append_left (by omega), List.getElem?_take_of_lt hlow,
      values_lt (by omega)]
    simp only [sampleDataRemove, memmove]
    rw [if_neg (by omega)]
  rw [List.getElem?_append_right (by omega), htake, List.getElem?_drop]
  by_cases hend : i < s.length - len
  · rw [values_lt (by omega), values_lt (by omega)]
    simp only [sampleDataRemove, memmove]
    rw [if_pos (by omega)]
  · rw [values_ge (by omega), values_ge (by omega)]

end

/-! ## Signals -/

section
variable {types : List SignalType} {s s' : Smp} {new : List Data} {l : List Signal}

theorem signalsOf_value (hlen : s.length = types.length) :
    (signalsOf types).map (Signal.value s new) = (values s).map some := by
  simp [signalsOf, values, Signal.value, hlen]

theorem signalsOf_getElem? {i : Nat} {type : SignalType} (h : types[i]? = some type) :
    (signalsOf types)[i]? = some ⟨type, .old i⟩ := by
  obtain ⟨hi, rfl⟩ := List.getElem?_eq_some_iff.mp h
  simp [signalsOf, hi]

theorem signalsOf_old : (signalsOf types).filterMap Signal.oldIndex = List.range types.length := by
  simp [signalsOf, List.filterMap_map, Function.comp_def, Signal.oldIndex]

theorem vlistInsert_new (l : List Signal) (idx j : Nat) (type : SignalType) :
    (vlistInsert l idx ⟨type, .new j⟩).filterMap Signal.oldIndex = l.filterMap Signal.oldIndex := by
  rw [vlistInsert, List.filterMap_append, List.filterMap_cons_none rfl, ← List.filterMap_append,
    List.take_append_drop]

/-- Old signals have the types of their values, new ones those of the computed values. -/
def Typed (types : List SignalType) (new : List Data) (l : List Signal) : Prop :=
  ∀ sig ∈ l, match sig.origin with
    | .old i => types[i]? = some sig.type
    | .new j => ∀ d, new[j]? = some d → d.type = sig.type

theorem typed_signalsOf : Typed types new (signalsOf types) := by
  intro sig hsig
  simp only [signalsOf, List.mem_map, List.mem_range] at hsig
  obtain ⟨i, hi, rfl⟩ := hsig
  simp [hi]

theorem Typed.of_subset {l' : List Signal} (h : Typed types new l) (hsub : l' ⊆ l) :
    Typed types new l' :=
  fun sig hsig => h sig (hsub hsig)

theorem Typed.append {l' : List Signal} (h : Typed types new l) (h' : Typed types new l') :
    Typed types new (l ++ l') := by
  intro sig hsig
  obtain hsig | hsig := List.mem_append.mp hsig
  · exact h sig hsig
  · exact h' sig hsig

theorem aligned_of_map (hfits : Fits types s) (htyped : Typed types new l)
    (hmap : l.map (Signal.value s new) = (values s').map some) : Aligned s new l s' := by
  have hlen := congrArg List.length hmap
  rw [List.length_map, List.length_map, values_length] at hlen
  refine ⟨hlen.symm, ?_⟩
  intro idx sig hsig
  obtain ⟨hidx, -⟩ := List.getElem?_eq_some_iff.mp hsig
  have hvalue := congrArg (fun l => l[idx]?) hmap
  simp only [List.getElem?_map, hsig, Option.map_some, values_lt (by omega : idx < s'.length),
    Option.some.injEq] at hvalue
  refine ⟨hvalue, ?_⟩
  have ht := htyped sig (List.mem_of_getElem? hsig)
  cases horigin : sig.origin with
  | old i =>
    simp only [Signal.value, horigin, Option.some.injEq] at hvalue ht
    rw [← hvalue]
    exact hfits.2 i _ ht
  | new j =>
    simp only [Signal.value, horigin] at hvalue ht
    exact ht _ hvalue

theorem insertLoop_eq (pre : List Signal) {i : Nat} (hi : pre.length = i) (n : Nat) :
    insertLoop (pre ++ l) i n =
      pre ++ ((List.range n).map (fun j => ⟨.complex, .new (i + j)⟩) ++ l) := by
  induction n generalizing pre i with
  | zero => simp [insertLoop]
  | succ n ih =>
    have hinsert : vlistInsert (pre ++ l) (dpOffset + i) ⟨.complex, .new i⟩ =
        (pre ++ [⟨.complex, .new i⟩]) ++ l := by
      simp [vlistInsert, dpOffset, ← hi]
    have hlen : (pre ++ [(⟨.complex, .new i⟩ : Signal)]).length = i + 1 := by simp [hi]
    rw [insertLoop, hinsert, ih _ hlen, List.range_succ_eq_map]
    simp [Nat.add_assoc, Nat.add_comm 1]

/-- All signals but the one at `k`. -/
def without (types : List SignalType) (k : Nat) : List Signal :=
  (signalsOf types).take k ++ (signalsOf types).drop (k + 1)

theorem without_typed (k : Nat) : Typed types new (without types k) :=
  (typed_signalsOf.of_subset (List.take_subset ..)).append
    (typed_signalsOf.of_subset (List.drop_subset ..))

theorem without_old {k : Nat} (hk : k < types.length) :
    (without types k).filterMap Signal.oldIndex =
      (List.range types.length).filter (fun i => ¬ i = k) := by
  have hsplit : List.range types.length =
      (List.range types.length).take k ++ k :: (List.range types.length).drop (k + 1) := by
    conv_lhs => rw [← List.take_append_drop k (List.range types.length)]
    rw [List.drop_eq_getElem_cons (by simpa using hk), List.getElem_range]
  have hlow : ((List.range types.length).take k).filter (fun i => ¬ i = k) =
      (List.range types.length).take k := by
    apply List.filter_eq_self.mpr
    intro i hi
    rw [List.take_range, List.mem_range] at hi
    simp
    omega
  have hhigh : ((List.range types.length).drop (k + 1)).filter (fun i => ¬ i = k) =
      (List.range types.length).drop (k + 1) := by
    apply List.filter_eq_self.mpr
    intro i hi
    obtain ⟨j, hj, rfl⟩ := List.mem_drop_iff_getElem.mp hi
    simp
    omega
  have hkept : (without types k).filterMap Signal.oldIndex =
      (List.range types.length).take k ++ (List.range types.length).drop (k + 1) := by
    simp [without, signalsOf, ← List.map_take, ← List.map_drop, List.filterMap_map,
      Function.comp_def, Signal.oldIndex]
  rw [hkept]
  conv_rhs => rw [hsplit]
  rw [List.filter_append, hlow, List.filter_cons_of_neg (by simp), hhigh]

theorem vlistRemove_signalsOf {k : Nat} (hk : k < types.length) :
    vlistRemove (signalsOf types) k = some (without types k) := by
  rw [vlistRemove, if_pos (by simpa [signalsOf] using hk), without]

end

/-! ## `average` -/

section
variable {types : List SignalType} {arith : Arith} {s : Smp}

/-- Some sample that fits, with the bits `1` at `k` and `0` elsewhere. -/
def sampleAt (types : List SignalType) (k : Nat) : Smp :=
  ⟨types.length, fun i => ⟨types.getD i .invalid, if i = k then 1 else 0⟩⟩

theorem sampleAt_fits (k : Nat) : Fits types (sampleAt types k) := by
  refine ⟨rfl, ?_⟩
  intro i type h
  obtain ⟨hi, rfl⟩ := List.getElem?_eq_some_iff.mp h
  simp [sampleAt, hi]

theorem averageInputs_cons {i : Nat} (h : Averages types i) (selected : List Nat) :
    averageInputs types s (i :: selected) =
      (averageInputs types s selected).map (s.data i :: ·) := by
  obtain h | h := h
  · simp [averageInputs, h]
  · simp [averageInputs, h]

theorem averageInputs_some {selected : List Nat} (h : ∀ i ∈ selected, Averages types i) :
    averageInputs types s selected = some (selected.map s.data) := by
  induction selected with
  | nil => rfl
  | cons i selected ih =>
    rw [averageInputs_cons (h i (by simp)), ih fun j hj => h j (by simp [hj])]
    rfl

theorem averageInputs_none {selected : List Nat} {i : Nat} (hi : i ∈ selected)
    (h : ¬ Averages types i) : averageInputs types s selected = none := by
  induction selected with
  | nil => simp at hi
  | cons j selected ih =>
    by_cases hj : Averages types j
    · have hi : i ∈ selected := by
        obtain rfl | hi := List.mem_cons.mp hi
        · exact absurd hj h
        · exact hi
      rw [averageInputs_cons hj, ih hi]
      rfl
    · unfold averageInputs
      split
      · rename_i hint
        exact absurd (.inl hint) hj
      · rename_i hfloat
        exact absurd (.inr hfloat) hj
      · rfl

theorem average_aligns {selected : List Nat} {offset : Nat} (hoffset : offset < types.length) :
    Aligns arith types (.average selected offset) := by
  refine ⟨_, rfl, ?_, ?_⟩
  · rw [vlistInsert_new, signalsOf_old]
    simp [replaced]
  intro s hfits
  have hle : offset < s.length := by
    rw [hfits.1]
    exact hoffset
  by_cases hsupported : Supported types (.average selected offset)
  · have hprocess : process arith types s (.average selected offset) =
        some (sampleDataInsert s [⟨.float, arith.average (selected.map s.data)⟩] offset) := by
      simp only [process, averageInputs_some hsupported]
      rw [if_neg (by omega)]
    rw [hprocess]
    refine ⟨fun _ => rfl, ?_⟩
    intro s' hs'
    cases hs'
    apply aligned_of_map hfits
    · intro sig hsig
      simp only [vlistInsert, List.mem_append, List.mem_cons] at hsig
      obtain hsig | rfl | hsig := hsig
      · exact typed_signalsOf sig (List.mem_of_mem_take hsig)
      · simp [computed]
      · exact typed_signalsOf sig (List.mem_of_mem_drop hsig)
    · rw [values_insert _ (by omega), vlistInsert, List.map_append, List.map_take, List.map_cons,
        List.map_drop, signalsOf_value hfits.1]
      simp [Signal.value, computed]
  · refine ⟨fun h => absurd h hsupported, ?_⟩
    intro s' hs'
    simp only [Supported, not_forall] at hsupported
    obtain ⟨i, hi, hnot⟩ := hsupported
    simp [process, averageInputs_none hi hnot] at hs'

end

/-! ## `dp` -/

section
variable {types : List SignalType} {arith : Arith} {k : Nat} {news : List Signal} {src : List Data}
  {s : Smp}

theorem replace_aligned {new : List Data} (hfits : Fits types s) (hk : k < types.length)
    (hrest : types.length ≤ k + 2) (hnews : Typed types new news)
    (hvalue : news.map (Signal.value s new) = src.map some) :
    Aligned s new (news ++ without types k) (sampleDataInsert (sampleDataRemove s k 1) src 0) := by
  have hlen := hfits.1
  apply aligned_of_map hfits (hnews.append (without_typed k))
  rw [values_insert src (Nat.zero_le _), values_remove (by omega) (by omega), List.map_append, hvalue,
    without, List.map_append, List.map_take, List.map_drop, signalsOf_value hlen]
  simp

theorem replace_data (hlen : k + 2 < s.length) :
    (sampleDataInsert (sampleDataRemove s k 1) src 0).data (src.length + (k + 1)) = s.data (k + 1) := by
  simp only [sampleDataInsert, sampleDataRemove, memcpy, memmove]
  rw [if_pos (by omega), List.getD_eq_default _ _ (by omega), if_pos (by omega), if_neg (by omega)]
  congr 1
  omega

theorem without_behind (hk : k + 2 < types.length) :
    (without types k)[k + 1]? = some ⟨types.getD (k + 2) .invalid, .old (k + 2)⟩ := by
  have hlen : ((signalsOf types).take k).length = k := by
    simp [signalsOf]
    omega
  rw [without, List.getElem?_append_right (by omega), hlen, List.getElem?_drop]
  have hindex : k + 1 + (k + 1 - k) = k + 2 := by omega
  rw [hindex]
  simp [signalsOf, hk]

theorem replace_misaligned {new : List Data} (hk : k + 2 < types.length)
    (hnews : news.length = src.length) :
    ¬ Aligned (sampleAt types (k + 2)) new (news ++ without types k)
      (sampleDataInsert (sampleDataRemove (sampleAt types (k + 2)) k 1) src 0) := by
  intro haligned
  have hsig : (news ++ without types k)[src.length + (k + 1)]? =
      some ⟨types.getD (k + 2) .invalid, .old (k + 2)⟩ := by
    rw [List.getElem?_append_right (by omega), hnews, Nat.add_sub_cancel_left]
    exact without_behind hk
  obtain ⟨hvalue, -⟩ := haligned.value _ _ hsig
  rw [replace_data hk] at hvalue
  simp [Signal.value, sampleAt] at hvalue

theorem forward_prepare {harmonics : Nat} (hk : types[k]? = some .float) :
    prepare (signalsOf types) (.dp false k harmonics) =
      some ((List.range harmonics).map (fun j => ⟨.complex, .new j⟩) ++ without types k) := by
  obtain ⟨hlt, -⟩ := List.getElem?_eq_some_iff.mp hk
  have hloop := insertLoop_eq (l := without types k) [] rfl harmonics
  simp only [List.nil_append, List.length_nil, Nat.zero_add] at hloop
  simp [prepare, signalsOf_getElem? hk, vlistRemove_signalsOf hlt, hloop]

theorem dp_aligns_iff {inverse : Bool} {harmonics : Nat} {l : List Signal} {f : Smp → Smp}
    (hprepare : prepare (signalsOf types) (.dp inverse k harmonics) = some l)
    (hprocess : ∀ s, Fits types s → process arith types s (.dp inverse k harmonics) = some (f s)) :
    Aligns arith types (.dp inverse k harmonics) ↔
      l.filterMap Signal.oldIndex =
          (List.range types.length).filter (fun i => ¬ replaced (.dp inverse k harmonics) i) ∧
        ∀ s, Fits types s → Aligned s (computed arith s (.dp inverse k harmonics)) l (f s) := by
  constructor
  · rintro ⟨l', hl', hkept, hall⟩
    rw [hprepare, Option.some.injEq] at hl'
    subst hl'
    exact ⟨hkept, fun s hfits => (hall s hfits).2 _ (hprocess s hfits)⟩
  · rintro ⟨hkept, hall⟩
    refine ⟨l, hprepare, hkept, ?_⟩
    intro s hfits
    rw [hprocess s hfits]
    refine ⟨fun _ => rfl, ?_⟩
    intro s' hs'
    cases hs'
    exact hall s hfits

theorem forward_process {harmonics : Nat} (hk : k ≤ types.length) (s : Smp) (hfits : Fits types s) :
    process arith types s (.dp false k harmonics) =
      some (sampleDataInsert (sampleDataRemove s k 1)
        (computed arith s (.dp false k harmonics)) 0) := by
  simp only [process, computed, dpOffset]
  rw [if_neg (by rw [hfits.1]; omega)]

theorem forward_aligns_iff {harmonics : Nat} (hk : types[k]? = some .float) :
    Aligns arith types (.dp false k harmonics) ↔ types.length ≤ k + 2 := by
  obtain ⟨hlt, -⟩ := List.getElem?_eq_some_iff.mp hk
  rw [dp_aligns_iff (forward_prepare hk) (forward_process (by omega))]
  constructor
  · rintro ⟨-, hall⟩
    by_contra hnot
    exact replace_misaligned (by omega) (by simp [computed])
      (hall (sampleAt types (k + 2)) (sampleAt_fits _))
  · intro hrest
    constructor
    · rw [List.filterMap_append, without_old hlt]
      simp [replaced, List.filterMap_map, Function.comp_def, Signal.oldIndex]
    · intro s hfits
      apply replace_aligned hfits hlt hrest
      · intro sig hsig
        simp only [List.mem_map, List.mem_range] at hsig
        obtain ⟨j, hj, rfl⟩ := hsig
        simp [computed, hj]
      · apply List.ext_getElem?
        intro j
        by_cases hj : j < harmonics
        · simp [computed, hj, Signal.value]
        · simp [computed, hj]

theorem removeLoop_keeps {l l' : List Signal} {i n : Nat} (hi : 1 ≤ i)
    (h : removeLoop k l i n = some l') : l'[k]? = l[k]? := by
  induction n generalizing l i with
  | zero =>
    cases h
    rfl
  | succ n ih =>
    unfold removeLoop at h
    split at h
    · simp at h
    · rename_i sig hsig
      obtain ⟨hlt, -⟩ := List.getElem?_eq_some_iff.mp hsig
      split at h
      · rw [vlistRemove, if_pos hlt, Option.bind_some] at h
        rw [ih (by omega) h, List.getElem?_append_left (by simp; omega),
          List.getElem?_take_of_lt (by omega)]
      · simp at h

theorem removeLoop_first {n : Nat} (hk : types[k]? = some .complex) :
    removeLoop k (signalsOf types) 0 (n + 1) = removeLoop k (without types k) 1 n := by
  obtain ⟨hlt, -⟩ := List.getElem?_eq_some_iff.mp hk
  simp [removeLoop, signalsOf_getElem? hk, vlistRemove_signalsOf hlt]

theorem inverse_not_aligns {harmonics : Nat} (hlen : k + (harmonics + 2) ≤ types.length)
    (hk : types[k]? = some .complex) : ¬ Aligns arith types (.dp true k (harmonics + 2)) := by
  rintro ⟨l, hl, hkept, -⟩
  simp only [prepare, removeLoop_first hk, Option.map_eq_some_iff] at hl
  obtain ⟨l₁, hloop, rfl⟩ := hl
  have hsecond : (without types k)[k]? = some ⟨types.getD (k + 1) .invalid, .old (k + 1)⟩ := by
    have hlow : ((signalsOf types).take k).length = k := by
      simp [signalsOf]
      omega
    rw [without, List.getElem?_append_right (by omega), hlow, List.getElem?_drop, Nat.sub_self]
    simp [signalsOf, show k + 1 < types.length by omega]
  rw [← removeLoop_keeps (Nat.le_refl 1) hloop] at hsecond
  have hmem : k + 1 ∈ l₁.filterMap Signal.oldIndex :=
    List.mem_filterMap.mpr ⟨_, List.mem_of_getElem? hsecond, rfl⟩
  rw [vlistInsert_new] at hkept
  rw [hkept, List.mem_filter] at hmem
  simp [replaced] at hmem

theorem sampleDataRemove_zero (s : Smp) (offset : Nat) : sampleDataRemove s offset 0 = s := by
  have hdata : memmove s.data offset offset 0 = s.data := by
    funext j
    simp only [memmove]
    rw [if_neg (by omega)]
  simp [sampleDataRemove, hdata]

theorem inverse_process {harmonics : Nat} (hk : k ≤ types.length) (s : Smp) (hfits : Fits types s) :
    process arith types s (.dp true k harmonics) =
      some (sampleDataInsert (sampleDataRemove s k harmonics)
        (computed arith s (.dp true k harmonics)) 0) := by
  simp only [process, computed, dpOffset]
  rw [if_neg (by rw [hfits.1]; omega)]

theorem inverse_aligns_none (hk : k ≤ types.length) : Aligns arith types (.dp true k 0) := by
  have hprepare : prepare (signalsOf types) (.dp true k 0) =
      some ([⟨.float, .new 0⟩] ++ signalsOf types) := rfl
  rw [dp_aligns_iff hprepare (inverse_process hk)]
  constructor
  · rw [List.filterMap_append, signalsOf_old]
    symm
    apply List.filter_eq_self.mpr
    intro i _
    simp [replaced]
  · intro s hfits
    rw [sampleDataRemove_zero]
    apply aligned_of_map hfits
    · apply Typed.append _ typed_signalsOf
      intro sig hsig
      rw [List.mem_singleton] at hsig
      subst hsig
      simp [computed]
    · rw [values_insert _ (Nat.zero_le _), List.map_append, signalsOf_value hfits.1]
      simp [Signal.value, computed]

theorem inverse_prepare (hk : types[k]? = some .complex) :
    prepare (signalsOf types) (.dp true k 1) = some ([⟨.float, .new 0⟩] ++ without types k) := by
  have hloop : removeLoop k (signalsOf types) 0 1 = some (without types k) := removeLoop_first hk
  rw [prepare, hloop]
  simp [vlistInsert, dpOffset]

theorem inverse_aligns_one (hk : types[k]? = some .complex) :
    Aligns arith types (.dp true k 1) ↔ types.length ≤ k + 2 := by
  obtain ⟨hlt, -⟩ := List.getElem?_eq_some_iff.mp hk
  rw [dp_aligns_iff (inverse_prepare hk) (inverse_process (by omega))]
  constructor
  · rintro ⟨-, hall⟩
    by_contra hnot
    exact replace_misaligned (by omega) (by simp [computed])
      (hall (sampleAt types (k + 2)) (sampleAt_fits _))
  · intro hrest
    constructor
    · rw [List.filterMap_append, without_old hlt]
      apply List.filter_congr
      intro i _
      have hone : (k ≤ i ∧ i < k + 1) ↔ i = k := by omega
      simp only [replaced, hone, decide_eq_true_eq]
    · intro s hfits
      apply replace_aligned hfits hlt hrest
      · intro sig hsig
        rw [List.mem_singleton] at hsig
        subst hsig
        simp [computed]
      · simp [computed, Signal.value]

end

/-- The hooks keep samples and signals aligned exactly for these settings. -/
theorem aligns_iff (arith : Arith) {types : List SignalType} {c : Config} (hvalid : Valid types c) :
    Aligns arith types c ↔ Keeps types c := by
  cases c with
  | average selected offset => simp [Keeps, average_aligns hvalid.1]
  | dp inverse signalIndex harmonics =>
    cases inverse with
    | false => exact forward_aligns_iff hvalid
    | true =>
      obtain ⟨hlen, hcomplex⟩ := hvalid
      match harmonics with
      | 0 => exact ⟨fun _ => .inl rfl, fun _ => inverse_aligns_none hlen⟩
      | 1 =>
        have hk : types[signalIndex]? = some .complex := hcomplex 0 (by omega)
        rw [inverse_aligns_one hk]
        simp [Keeps]
      | n + 2 =>
        have hnot : ¬ Aligns arith types (.dp true signalIndex (n + 2)) :=
          inverse_not_aligns hlen (hcomplex 0 (by omega))
        simp [Keeps, hnot]

def exampleArith : Arith := ⟨fun _ => 0, fun _ _ => 0, fun _ => 0⟩

theorem aligns_last_signal :
    Valid [.integer, .float] (.dp false 1 2) ∧
      Aligns exampleArith [.integer, .float] (.dp false 1 2) := by
  have hvalid : Valid [.integer, .float] (.dp false 1 2) := rfl
  exact ⟨hvalid, (aligns_iff exampleArith hvalid).mpr (by simp [Keeps])⟩

/-- The first of three signals is transformed, and the last value is lost. -/
theorem dp_forward_misaligned :
    Valid [.float, .integer, .integer] (.dp false 0 1) ∧
      ¬ Aligns exampleArith [.float, .integer, .integer] (.dp false 0 1) := by
  refine ⟨rfl, ?_⟩
  rintro ⟨l, hl, -, hall⟩
  cases hl
  obtain ⟨-, hall⟩ := hall (sampleAt _ 2) (sampleAt_fits 2)
  obtain ⟨hvalue, -⟩ := (hall _ rfl).value 2 ⟨.integer, .old 2⟩ rfl
  revert hvalue
  decide

end VillasNode.SignalHooks
