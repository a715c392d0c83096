import VillasNode.Format.Json

/-!
# The data array of a JSON sample

A value that cannot be packed is left out of the array, and those behind it move
down. `json_real` returns `NULL` for numbers that are not finite.
-/

namespace VillasNode.Json

open Jansson Line

section
variable {J : Type} (f : JsonFormat J)

/-! ## The specification -/

/-- The JSON value that stands for the data of this type. -/
def Encodes (type : SignalType) (data : Value) (json : J) : Prop :=
  match type with
  | .float => f.api.typeof json = .real ∧ f.api.realValue json = data
  | .integer => f.api.typeof json = .integer ∧ f.api.integerValue json = data
  | .boolean => f.api.typeof json = if data.extractLsb' 0 8 ≠ 0 then .true else .false
  | .complex =>
    f.api.typeof json = .object ∧ ∃ real imag,
      f.api.objectGet json "real" = some real ∧ f.api.objectGet json "imag" = some imag ∧
      (f.api.typeof real = .real ∧ f.api.realValue real = f.conv.widen (data.extractLsb' 0 32)) ∧
      f.api.typeof imag = .real ∧ f.api.realValue imag = f.conv.widen (data.extractLsb' 32 32)
  | .invalid => False

/-- The array of a packed sample has an element for each value, at the same index. -/
def Aligned (smp : LineSample) : Prop :=
  ∀ json data, packSample f smp = some json → f.api.objectGet json "data" = some data →
    f.api.typeof data = .array ∧ (f.api.elements data).length = smp.payload.length ∧
      ∀ i < smp.payload.length, ∃ type value, smp.signals[i]? = some type ∧
        (f.api.elements data)[i]? = some value ∧ Encodes f type (smp.payload.data i) value

/-! ## When it is met -/

/-- The numbers are finite, and the type is valid. -/
def Representable (type : SignalType) (data : Value) : Prop :=
  match type with
  | .float => finite data
  | .integer | .boolean => True
  | .complex =>
    finite (f.conv.widen (data.extractLsb' 0 32)) ∧ finite (f.conv.widen (data.extractLsb' 32 32))
  | .invalid => False

/-- If there is an array at all, every value is representable. -/
def AllRepresentable (smp : LineSample) : Prop :=
  hasFlag f.flags SampleFlags.hasData → smp.payload.length ≤ smp.signals.length →
    ∀ i < smp.payload.length, ∀ type, smp.signals[i]? = some type →
      Representable f type (smp.payload.data i)

end

section
variable {J : Type} {f : JsonFormat J}

/-! ## One value -/

theorem real_some (hapi : f.api.Lawful) (hstrict : f.api.Strict) {v : Value} {json : J}
    (h : f.api.real v = some json) :
    finite v ∧ f.api.typeof json = .real ∧ f.api.realValue json = v := by
  by_cases hv : finite v
  · obtain ⟨json', hjson, htype, hvalue⟩ := hapi.real v hv
    rw [h] at hjson
    cases hjson
    exact ⟨hv, htype, hvalue⟩
  · rw [hstrict v hv] at h
    cases h

theorem signalDataToJson_some (hapi : f.api.Lawful) (hstrict : f.api.Strict) {type : SignalType}
    {data : Value} {json : J} (h : signalDataToJson f data type = some json) :
    Representable f type data ∧ Encodes f type data json := by
  cases type with
  | invalid => cases h
  | float => exact real_some hapi hstrict h
  | integer =>
    cases h
    exact ⟨trivial, hapi.typeof_integer data, hapi.integerValue data⟩
  | boolean =>
    cases h
    refine ⟨trivial, (hapi.typeof_boolean _).trans ?_⟩
    simp only [decide_eq_true_eq]
  | complex =>
    obtain ⟨real, hreal, h⟩ := Option.bind_eq_some_iff.mp h
    obtain ⟨imag, himag, rfl⟩ := Option.map_eq_some_iff.mp h
    obtain ⟨hfinite, hreal⟩ := real_some hapi hstrict hreal
    obtain ⟨hfinite', himag⟩ := real_some hapi hstrict himag
    have hobject : f.api.typeof (f.api.objectSet f.api.object "real" real) = .object := by
      rw [hapi.typeof_objectSet, hapi.typeof_object]
    refine ⟨⟨hfinite, hfinite'⟩, ?_, real, imag, ?_, ?_, hreal, himag⟩
    · rw [hapi.typeof_objectSet, hobject]
    · rw [hapi.objectGet_set _ _ _ _ hobject, if_neg (by decide),
        hapi.objectGet_set _ _ _ _ hapi.typeof_object, if_pos rfl]
    · rw [hapi.objectGet_set _ _ _ _ hobject, if_pos rfl]

theorem signalDataToJson_isSome_iff (hapi : f.api.Lawful) (hstrict : f.api.Strict) (type : SignalType)
    (data : Value) : (signalDataToJson f data type).isSome ↔ Representable f type data := by
  constructor
  · intro h
    obtain ⟨json, hjson⟩ := Option.isSome_iff_exists.mp h
    exact (signalDataToJson_some hapi hstrict hjson).1
  · intro h
    cases type with
    | invalid => exact h.elim
    | integer => rfl
    | boolean => rfl
    | float =>
      obtain ⟨json, hjson, -⟩ := hapi.real data h
      exact Option.isSome_iff_exists.mpr ⟨json, hjson⟩
    | complex =>
      obtain ⟨real, hreal, -⟩ := hapi.real _ h.1
      obtain ⟨imag, himag, -⟩ := hapi.real _ h.2
      unfold signalDataToJson Api.packReals
      rw [hreal, himag]
      rfl

/-! ## All values -/

/-- What the loop makes of the value at an index. -/
def packedValue (f : JsonFormat J) (smp : LineSample) (j : Nat) : Option J :=
  smp.signals[j]?.bind fun type => signalDataToJson f (smp.payload.data j) type

theorem packValues_some (hapi : f.api.Lawful) {smp : LineSample} {json json' : J} {i n : Nat}
    (htype : f.api.typeof json = .array) (h : packValues f smp json i n = some json') :
    (∀ j, i ≤ j → j < i + n → smp.signals[j]?.isSome) ∧ f.api.typeof json' = .array ∧
      f.api.elements json' = f.api.elements json ++ (List.range' i n).filterMap (packedValue f smp) := by
  induction n generalizing i json with
  | zero =>
    cases h
    exact ⟨fun j hle hlt => by omega, htype, (List.append_nil _).symm⟩
  | succ n ih =>
    unfold packValues at h
    cases hsignal : smp.signals[i]? with
    | none =>
      rw [hsignal] at h
      cases h
    | some type =>
      rw [hsignal] at h
      dsimp only at h
      have hvalue : packedValue f smp i = signalDataToJson f (smp.payload.data i) type := by
        unfold packedValue
        rw [hsignal]
        rfl
      have htype' : f.api.typeof (f.api.arrayAppendNew json (packedValue f smp i)) = .array := by
        unfold Api.arrayAppendNew
        split
        · exact htype
        · rw [hapi.typeof_arrayAppend, htype]
      have helements : f.api.elements (f.api.arrayAppendNew json (packedValue f smp i)) =
          f.api.elements json ++ (packedValue f smp i).toList := by
        unfold Api.arrayAppendNew
        cases packedValue f smp i with
        | none => exact (List.append_nil _).symm
        | some value => exact hapi.elements_append _ _ htype
      rw [← hvalue] at h
      obtain ⟨hsignals, harray, hrest⟩ := ih htype' h
      refine ⟨fun j hle hlt => ?_, harray, ?_⟩
      · rcases Nat.eq_or_lt_of_le hle with rfl | hlt'
        · rw [hsignal]
          rfl
        · exact hsignals j hlt' (by omega)
      · rw [hrest, helements, List.append_assoc, List.range'_succ]
        cases hpacked : packedValue f smp i with
        | none => rw [List.filterMap_cons_none hpacked, Option.toList_none, List.nil_append]
        | some value => rw [List.filterMap_cons_some hpacked, Option.toList_some, List.singleton_append]

theorem packValues_isSome {smp : LineSample} {json : J} {i n : Nat} (h : i + n ≤ smp.signals.length) :
    (packValues f smp json i n).isSome := by
  induction n generalizing i json with
  | zero => rfl
  | succ n ih =>
    unfold packValues
    rw [List.getElem?_eq_getElem (by omega)]
    exact ih (by omega)

/-! ## The sample -/

/-- The object of a sample before the data is set. -/
def packHead (f : JsonFormat J) (s : Payload) : J :=
  let json := f.api.objectSet f.api.object "ts" (packTimestamps f s)
  if hasFlag f.flags SampleFlags.hasSequence ∧ hasFlag s.flags SampleFlags.hasSequence then
    f.api.objectSet json "sequence" (f.api.integer s.sequence)
  else json

theorem packSample_eq (smp : LineSample) : packSample f smp =
    if hasFlag f.flags SampleFlags.hasData then
      (packValues f smp f.api.array 0 smp.payload.length).map
        (f.api.objectSet (packHead f smp.payload) "data")
    else some (packHead f smp.payload) := rfl

theorem packHead_object (hapi : f.api.Lawful) (s : Payload) : f.api.typeof (packHead f s) = .object := by
  unfold packHead
  split <;> simp [hapi.typeof_objectSet, hapi.typeof_object]

theorem packHead_get (hapi : f.api.Lawful) (s : Payload) :
    f.api.objectGet (packHead f s) "ts" = some (packTimestamps f s) ∧
      f.api.objectGet (packHead f s) "sequence" =
        (if hasFlag f.flags SampleFlags.hasSequence ∧ hasFlag s.flags SampleFlags.hasSequence then
          some (f.api.integer s.sequence) else none) ∧
      f.api.objectGet (packHead f s) "data" = none := by
  unfold packHead
  split <;> simp [hapi.objectGet_set, hapi.objectGet_object, hapi.typeof_objectSet, hapi.typeof_object]

theorem data_get (hapi : f.api.Lawful) (s : Payload) (data : J) :
    f.api.objectGet (f.api.objectSet (packHead f s) "data" data) "data" = some data := by
  rw [hapi.objectGet_set _ _ _ _ (packHead_object hapi s), if_pos rfl]

theorem packSample_data (hapi : f.api.Lawful) {smp : LineSample} {json data : J}
    (h : packSample f smp = some json) (hdata : f.api.objectGet json "data" = some data) :
    hasFlag f.flags SampleFlags.hasData ∧ smp.payload.length ≤ smp.signals.length ∧
      f.api.typeof data = .array ∧
      f.api.elements data = (List.range' 0 smp.payload.length).filterMap (packedValue f smp) := by
  rw [packSample_eq] at h
  split at h
  · rename_i hflag
    obtain ⟨values, hvalues, rfl⟩ := Option.map_eq_some_iff.mp h
    rw [data_get hapi] at hdata
    cases hdata
    obtain ⟨hsignals, harray, helements⟩ := packValues_some hapi hapi.typeof_array hvalues
    rw [hapi.elements_array, List.nil_append] at helements
    refine ⟨hflag, ?_, harray, helements⟩
    by_contra hshort
    have hlast := hsignals smp.signals.length (Nat.zero_le _) (by omega)
    rw [List.getElem?_eq_none (Nat.le_refl _)] at hlast
    cases hlast
  · cases h
    rw [(packHead_get hapi smp.payload).2.2] at hdata
    cases hdata

theorem packedValue_isSome_iff (hapi : f.api.Lawful) (hstrict : f.api.Strict) {smp : LineSample} {i : Nat}
    {type : SignalType} (hsignal : smp.signals[i]? = some type) :
    (packedValue f smp i).isSome ↔ Representable f type (smp.payload.data i) := by
  unfold packedValue
  rw [hsignal]
  exact signalDataToJson_isSome_iff hapi hstrict type _

theorem filterMap_getElem? {α β : Type*} {p : α → Option β} {l : List α} (h : ∀ x ∈ l, (p x).isSome) (i : Nat) :
    (l.filterMap p)[i]? = l[i]?.bind p := by
  induction l generalizing i with
  | nil => rfl
  | cons x l ih =>
    rw [List.forall_mem_cons] at h
    obtain ⟨y, hy⟩ := Option.isSome_iff_exists.mp h.1
    rw [List.filterMap_cons_some hy]
    cases i with
    | zero => exact hy.symm
    | succ i => exact ih h.2 i

end

/-- For every sample and every list of values: the array has an element for each value at its index
exactly when all numbers are finite. -/
theorem aligned_iff {J : Type} {f : JsonFormat J} (hapi : f.api.Lawful) (hstrict : f.api.Strict)
    (smp : LineSample) : Aligned f smp ↔ AllRepresentable f smp := by
  constructor
  · intro h hflag hle i hi type hsignal
    obtain ⟨values, hvalues⟩ := Option.isSome_iff_exists.mp
      (@packValues_isSome J f smp f.api.array 0 smp.payload.length (by omega))
    have hpack : packSample f smp = some (f.api.objectSet (packHead f smp.payload) "data" values) := by
      rw [packSample_eq, if_pos hflag, hvalues]
      rfl
    have hget := data_get hapi smp.payload values
    obtain ⟨-, -, -, helements⟩ := packSample_data hapi hpack hget
    obtain ⟨-, hlength, -⟩ := h _ _ hpack hget
    rw [helements] at hlength
    have hcount : (List.range' 0 smp.payload.length).length = smp.payload.length := List.length_range'
    have hall := List.filterMap_length_eq_length.mp (hlength.trans hcount.symm)
    rw [← packedValue_isSome_iff hapi hstrict hsignal]
    exact hall i (List.mem_range'_1.mpr (by omega))
  · intro h json data hpack hdata
    obtain ⟨hflag, hle, harray, helements⟩ := packSample_data hapi hpack hdata
    have hsome : ∀ i ∈ List.range' 0 smp.payload.length, (packedValue f smp i).isSome := by
      intro i hi
      rw [List.mem_range'_1] at hi
      have hsignal := List.getElem?_eq_getElem (show i < smp.signals.length by omega)
      rw [packedValue_isSome_iff hapi hstrict hsignal]
      exact h hflag hle i (by omega) _ hsignal
    refine ⟨harray, ?_, fun i hi => ?_⟩
    · rw [helements, List.filterMap_length_eq_length.mpr hsome, List.length_range']
    · have hsignal := List.getElem?_eq_getElem (show i < smp.signals.length by omega)
      obtain ⟨value, hvalue⟩ := Option.isSome_iff_exists.mp (hsome i (List.mem_range'_1.mpr (by omega)))
      have hjson : signalDataToJson f (smp.payload.data i) smp.signals[i] = some value := by
        unfold packedValue at hvalue
        rw [hsignal] at hvalue
        exact hvalue
      refine ⟨_, value, hsignal, ?_, (signalDataToJson_some hapi hstrict hjson).2⟩
      rw [helements, filterMap_getElem? hsome, List.getElem?_range' hi]
      simpa using hvalue

theorem aligned_four : Aligned exampleFormat exampleSample := by
  refine (aligned_iff Tree.lawful_api Tree.strict_api exampleSample).mpr fun _ _ i hi type htype => ?_
  match i, hi with
  | 0, _ =>
    cases htype
    exact (by decide : finite (exampleSample.payload.data 0))
  | 1, _ =>
    cases htype
    trivial
  | 2, _ =>
    cases htype
    trivial
  | 3, _ =>
    cases htype
    exact (by decide : finite (exampleConv.widen ((exampleSample.payload.data 3).extractLsb' 0 32)) ∧
      finite (exampleConv.widen ((exampleSample.payload.data 3).extractLsb' 32 32)))

/-- A NaN in front of the value 1. -/
def nanSample : LineSample where
  payload := ⟨0, 2, SampleFlags.hasData, 1, ⟨0, 0⟩, ⟨0, 0⟩, fun
    | 0 => 0x7ff8000000000000
    | _ => 0x3ff0000000000000⟩
  signals := [.float, .float]

/-- The only element of the array is the value of the second signal. -/
theorem nan_shifts :
    (packSample exampleFormat nanSample).bind (Tree.api.objectGet · "data") =
        some (.array [.real 0x3ff0000000000000]) ∧ ¬ Aligned exampleFormat nanSample := by
  refine ⟨rfl, fun h => ?_⟩
  obtain ⟨-, hlength, -⟩ := h _ _ rfl rfl
  exact absurd hlength (by decide)

end VillasNode.Json
