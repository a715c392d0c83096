import VillasNode.Lib.Jansson
import VillasNode.Format.Line

/-!
# JSON

`packSample` and `unpackSample` of `lib/formats/json.cpp`, with the values of
`lib/signal_data.cpp`, over any lawful JSON trees. The timestamps are packed as
on hosts other than ARM.
-/

namespace VillasNode.Json

open Jansson Line

/-- The format with the signals that `start` has set. -/
structure JsonFormat (J : Type) where
  api : Api J
  conv : FloatConv
  /-- `json_int_t` to `double` -/
  ofInteger : BitVec 64 → Value
  flags : BitVec 32
  signals : Nat
  types : List SignalType

/-- A signal whose name is `nullptr` has none. -/
structure Signal where
  name : Option String
  type : SignalType

/-- What `unpackSample` returns, or the types of the value and the signal at an index where it throws
`Received invalid data type in JSON payload`. -/
inductive Outcome where
  | ret (ret : Int)
  | thrown (received expected : SignalType) (index : Nat)
deriving DecidableEq

section
variable {J : Type} (f : JsonFormat J)

def detect (val : J) : SignalType :=
  match f.api.typeof val with
  | .real => .float
  | .integer => .integer
  | .true | .false => .boolean
  | .object => .complex
  | _ => .invalid

/-- `signal_data_to_json`. `none` for `nullptr`. -/
def signalDataToJson (data : Value) : SignalType → Option J
  | .integer => some (f.api.integer data)
  | .float => f.api.real data
  | .boolean => some (f.api.boolean (data.extractLsb' 0 8 ≠ 0))
  | .complex =>
    f.api.packReals "real" (f.conv.widen (data.extractLsb' 0 32)) "imag"
      (f.conv.widen (data.extractLsb' 32 32))
  | .invalid => none

/-- `signal_data_parse_json`. `none` for an error. A boolean is the lowest byte. -/
def signalDataParseJson (data : Value) (type : SignalType) (json : J) : Option Value :=
  match type with
  | .float => some (f.api.realValue json)
  | .integer => some (f.api.integerValue json)
  | .boolean =>
    some (data.extractLsb' 8 56 ++ (if f.api.typeof json = .true then 1#8 else 0#8))
  | .complex =>
    (f.api.unpackReals f.ofInteger json "real" "imag").map fun (real, imag) =>
      f.conv.narrow imag ++ f.conv.narrow real
  | .invalid => none

/-! ## Packing -/

def packTimestamps (smp : Payload) : J :=
  let json := f.api.object
  let json :=
    if hasFlag f.flags SampleFlags.hasTsOrigin ∧ hasFlag smp.flags SampleFlags.hasTsOrigin then
      f.api.objectSet json "origin" (f.api.packIntegers smp.origin.sec smp.origin.nsec)
    else json
  if hasFlag f.flags SampleFlags.hasTsReceived ∧ hasFlag smp.flags SampleFlags.hasTsReceived then
    f.api.objectSet json "received" (f.api.packIntegers smp.received.sec smp.received.nsec)
  else json

/-- The loop over `n` values from index `i` on. -/
def packValues (smp : LineSample) (json : J) (i : Nat) : Nat → Option J
  | 0 => some json
  | n + 1 =>
    match smp.signals[i]? with
    | none => none
    | some type =>
      packValues smp (f.api.arrayAppendNew json (signalDataToJson f (smp.payload.data i) type)) (i + 1) n

/-- `JsonFormat::packSample`. `none` for `-1`. -/
def packSample (smp : LineSample) : Option J :=
  let s := smp.payload
  let json := f.api.objectSet f.api.object "ts" (packTimestamps f s)
  let json :=
    if hasFlag f.flags SampleFlags.hasSequence ∧ hasFlag s.flags SampleFlags.hasSequence then
      f.api.objectSet json "sequence" (f.api.integer s.sequence)
    else json
  if hasFlag f.flags SampleFlags.hasData then
    (packValues f smp f.api.array 0 s.length).map fun data => f.api.objectSet json "data" data
  else some json

/-! ## Unpacking -/

/-- Either timestamp, at its key and with its flag. -/
def unpackTimestamp (json : J) (key : String) (flag : BitVec 32) (get : Payload → Timespec)
    (set : Payload → Timespec → Payload) (smp : Payload) : Payload × Bool :=
  match f.api.objectGet json key with
  | none => (smp, true)
  | some ts =>
    let (sec, nsec, ok) := f.api.unpackIntegers ts (get smp).sec (get smp).nsec
    let smp := set smp ⟨sec, nsec⟩
    if ok then ({ smp with flags := smp.flags ||| flag }, true) else (smp, false)

/-- `JsonFormat::unpackTimestamps`, and whether it returns 0. -/
def unpackTimestamps (json : J) (smp : Payload) : Payload × Bool :=
  let (smp, ok) := unpackTimestamp f json "origin" SampleFlags.hasTsOrigin (·.origin)
    (fun smp origin => { smp with origin }) smp
  if ok then
    unpackTimestamp f json "received" SampleFlags.hasTsReceived (·.received)
      (fun smp received => { smp with received }) smp
  else (smp, false)

/-- The loop over the elements of the array from index `i` on. -/
def unpackValues (capacity : Nat) (smp : Payload) (i : Nat) : List J → Payload × Outcome
  | [] => (smp, .ret 0)
  | json :: rest =>
    if capacity ≤ i then (smp, .ret 0)
    else
      match f.types[i]? with
      | none => (smp, .ret (-1))
      | some type =>
        if type ≠ detect f json then (smp, .thrown (detect f json) type i)
        else
          match signalDataParseJson f (smp.data i) type json with
          | none => (smp, .ret (-3))
          | some v => unpackValues capacity { smp.setData i v with length := smp.length + 1 } (i + 1) rest

/-- The sequence number at its key, which is `-1` without one. `none` when it is no integer. -/
def unpackSequence (json : J) : Option (BitVec 64) :=
  match f.api.objectGet json "sequence" with
  | none => some (-1)
  | some sequence => f.api.unpackInteger sequence

/-- The sample with a sequence number, unless it is negative. -/
def numbered (sequence : BitVec 64) (smp : Payload) : Payload :=
  if 0 ≤ sequence.toInt then { smp with sequence, flags := smp.flags ||| SampleFlags.hasSequence }
  else smp

/-- The sequence number and the values behind the timestamps. -/
def unpackData (sequence : BitVec 64) (data : J) (capacity : Nat) (smp : Payload) : Payload × Outcome :=
  if f.api.typeof data ≠ .array then (smp, .ret (-1))
  else
    match unpackValues f capacity (numbered sequence smp) 0 (f.api.elements data) with
    | (smp, .ret 0) =>
      (if 0 < smp.length then { smp with flags := smp.flags ||| SampleFlags.hasData } else smp, .ret 0)
    | (smp, outcome) => (smp, outcome)

/-- `JsonFormat::unpackSample` -/
def unpackSample (json : J) (capacity : Nat) (smp : Payload) : Payload × Outcome :=
  let smp := { smp with signals := f.signals }
  if f.api.typeof json ≠ .object then (smp, .ret (-1))
  else
    match unpackSequence f json, f.api.objectGet json "data" with
    | some sequence, some data =>
      let smp := { smp with flags := 0, length := 0 }
      match f.api.objectGet json "ts" with
      | none => unpackData f sequence data capacity smp
      | some ts =>
        match unpackTimestamps f ts smp with
        | (smp, false) => (smp, .ret (-1))
        | (smp, true) => unpackData f sequence data capacity smp
    | _, _ => (smp, .ret (-1))

end

/-! ## Values -/

/-- A `float` with another exponent than that of infinities and NaNs. -/
def finite32 (v : BitVec 32) : Bool := v.extractLsb' 23 8 ≠ 255#8

/-- A finite `float` is a finite `double`, and back the same. -/
def Exact (conv : FloatConv) : Prop :=
  ∀ v, finite32 v → finite (conv.widen v) ∧ conv.narrow (conv.widen v) = v

/-- A value of a type that is known, with finite numbers. -/
def Packable : SignalType → Value → Prop
  | .float, v => finite v
  | .complex, v => finite32 (v.extractLsb' 0 32) ∧ finite32 (v.extractLsb' 32 32)
  | .invalid, _ => False
  | _, _ => True

section
variable {J : Type} {f : JsonFormat J}

theorem signalDataParseJson_toJson (hapi : f.api.Lawful) (hconv : Exact f.conv) {type : SignalType}
    {data : Value} (h : Packable type data) :
    ∃ json, signalDataToJson f data type = some json ∧ detect f json = type ∧
      ∀ old, ∃ v, signalDataParseJson f old type json = some v ∧ SameValue type v data := by
  cases type with
  | invalid => exact h.elim
  | float =>
    obtain ⟨json, hjson, htype, hvalue⟩ := hapi.real data h
    refine ⟨json, hjson, by rw [detect, htype], fun old => ⟨_, rfl, hvalue⟩⟩
  | integer =>
    exact ⟨_, rfl, by rw [detect, hapi.typeof_integer], fun old => ⟨_, rfl, hapi.integerValue data⟩⟩
  | boolean =>
    refine ⟨_, rfl, ?_, fun old => ⟨_, rfl, ?_⟩⟩
    · rw [detect, hapi.typeof_boolean]
      split_ifs <;> rfl
    · rw [SameValue, BitVec.extractLsb'_append_eq_right, hapi.typeof_boolean]
      by_cases hzero : data.extractLsb' 0 8 = 0 <;> simp [hzero]
  | complex =>
    obtain ⟨hreal, himag⟩ := h
    obtain ⟨hreal, hreal'⟩ := hconv _ hreal
    obtain ⟨himag, himag'⟩ := hconv _ himag
    obtain ⟨json, hjson, htype, hunpack⟩ := hapi.unpackReals (k := "real") (l := "imag") (by decide)
      hreal himag f.ofInteger
    refine ⟨json, hjson, by rw [detect, htype], fun old => ⟨data, ?_, rfl⟩⟩
    rw [signalDataParseJson, hunpack]
    dsimp only [Option.map_some]
    rw [hreal', himag']
    exact congrArg some (@BitVec.extractLsb'_append_extractLsb' 32 32 data)

/-- What a loop makes of the values from index `i` on. -/
inductive Packed (f : JsonFormat J) (smp : Payload) : Nat → List J → Prop
  | nil (i : Nat) : Packed f smp i []
  | cons {i : Nat} {type : SignalType} {json : J} {rest : List J} (htype : f.types[i]? = some type)
      (hpackable : Packable type (smp.data i))
      (hjson : signalDataToJson f (smp.data i) type = some json) (hrest : Packed f smp (i + 1) rest) :
      Packed f smp i (json :: rest)

theorem packValues_eq (hapi : f.api.Lawful) (hconv : Exact f.conv) {smp : LineSample}
    (hsignals : smp.signals = f.types) {i n : Nat}
    (hvalues : ∀ j, i ≤ j → j < i + n → ∃ type, f.types[j]? = some type ∧
      Packable type (smp.payload.data j)) {json : J} (htype : f.api.typeof json = .array) :
    ∃ json' values, packValues f smp json i n = some json' ∧ f.api.typeof json' = .array ∧
      f.api.elements json' = f.api.elements json ++ values ∧ values.length = n ∧
      Packed f smp.payload i values := by
  induction n generalizing i json with
  | zero => exact ⟨json, [], rfl, htype, (List.append_nil _).symm, rfl, .nil i⟩
  | succ n ih =>
    obtain ⟨type, hi, hpackable⟩ := hvalues i (Nat.le_refl i) (by omega)
    obtain ⟨value, hvalue, -⟩ := signalDataParseJson_toJson hapi hconv hpackable
    obtain ⟨json', values, hpack, htype', helements, hlength, hpacked⟩ := @ih (i + 1)
      (fun j hle hlt => hvalues j (by omega) (by omega)) (f.api.arrayAppend json value)
      (by rw [hapi.typeof_arrayAppend, htype])
    refine ⟨json', value :: values, ?_, htype', ?_, by rw [List.length_cons, hlength],
      .cons hi hpackable hvalue hpacked⟩
    · rw [packValues, hsignals, hi]
      dsimp only
      rw [hvalue]
      exact hpack
    · rw [helements, hapi.elements_append _ _ htype, List.append_assoc, List.singleton_append]

/-- The values from index `i` on are the ones that were packed, and everything else is kept. -/
structure UnpacksBack (types : List SignalType) (src : Payload) (i n : Nat) (old new : Payload) :
    Prop where
  kept : ∃ data, new = { old with data, length := old.length + n }
  before : ∀ j < i, new.data j = old.data j
  same : ∀ j t, i ≤ j → j < i + n → types[j]? = some t → SameValue t (new.data j) (src.data j)

/-- The values from index `i` on are unpacked as the data of their signals. -/
def Parses (f : JsonFormat J) (src : Payload) (i : Nat) (values : List J) : Prop :=
  ∀ k json, values[k]? = some json → ∃ type, f.types[i + k]? = some type ∧ detect f json = type ∧
    ∀ old, ∃ v, signalDataParseJson f old type json = some v ∧ SameValue type v (src.data (i + k))

theorem Parses.tail {src : Payload} {i : Nat} {json : J} {rest : List J} (h : Parses f src i (json :: rest)) :
    Parses f src (i + 1) rest := by
  intro k value hvalue
  rw [Nat.add_right_comm, Nat.add_assoc]
  exact h (k + 1) value hvalue

theorem Packed.parses (hapi : f.api.Lawful) (hconv : Exact f.conv) {src : Payload} {i : Nat}
    {values : List J} (h : Packed f src i values) : Parses f src i values := by
  induction h with
  | nil i =>
    intro k json hjson
    cases hjson
  | @cons i type json rest htype hpackable hjson hrest ih =>
    intro k value hvalue
    cases k with
    | zero =>
      cases hvalue
      obtain ⟨json', hjson', hparse⟩ := signalDataParseJson_toJson hapi hconv hpackable
      rw [hjson] at hjson'
      cases hjson'
      exact ⟨type, htype, hparse⟩
    | succ k =>
      rw [← Nat.add_assoc, Nat.add_right_comm]
      exact ih k value hvalue

theorem unpackValues_parses {src : Payload} {i capacity : Nat} {values : List J}
    (h : Parses f src i values) (hcapacity : i + values.length ≤ capacity) (old : Payload) :
    ∃ new, unpackValues f capacity old i values = (new, .ret 0) ∧
      UnpacksBack f.types src i values.length old new := by
  induction values generalizing i old with
  | nil =>
    refine ⟨old, rfl, ⟨old.data, rfl⟩, fun _ _ => rfl, fun j t hle hlt => ?_⟩
    rw [List.length_nil] at hlt
    omega
  | cons json rest ih =>
    rw [List.length_cons] at hcapacity
    obtain ⟨type, htype, hdetect, hparse⟩ := h 0 json rfl
    rw [Nat.add_zero] at htype hparse
    obtain ⟨v, hv, hsame⟩ := hparse (old.data i)
    obtain ⟨new, hunpack, ⟨data, hkept⟩, hbefore, hsame'⟩ := ih h.tail (by omega)
      { old.setData i v with length := old.length + 1 }
    refine ⟨new, ?_, ⟨data, ?_⟩, ?_, ?_⟩
    · rw [unpackValues, if_neg (by omega), htype]
      dsimp only
      rw [if_neg (by simp [hdetect]), hv]
      exact hunpack
    · rw [hkept, List.length_cons]
      simp only [Payload.setData, Nat.add_assoc, Nat.add_comm 1]
    · intro j hj
      rw [hbefore j (by omega)]
      exact (setData_data old i j v).trans (if_neg (by omega))
    · intro j t hle hlt ht
      rw [List.length_cons] at hlt
      rcases Nat.eq_or_lt_of_le hle with rfl | hlt'
      · rw [hbefore i (by omega)]
        rw [htype] at ht
        cases ht
        have hdata : (old.setData i v).data i = v := (setData_data old i i v).trans (if_pos rfl)
        show SameValue type ((old.setData i v).data i) (src.data i)
        rwa [hdata]
      · exact hsame' j t hlt' (by omega) ht

/-! ## Timestamps and sequence -/

/-- The format packs what the sample has. -/
structure Enables (flags : BitVec 32) (smp : Payload) : Prop where
  origin : hasFlag smp.flags SampleFlags.hasTsOrigin → hasFlag flags SampleFlags.hasTsOrigin
  received : hasFlag smp.flags SampleFlags.hasTsReceived → hasFlag flags SampleFlags.hasTsReceived
  sequence : hasFlag smp.flags SampleFlags.hasSequence → hasFlag flags SampleFlags.hasSequence
  data : hasFlag flags SampleFlags.hasData

theorem packTimestamps_get (hapi : f.api.Lawful) {smp : Payload} (hf : Enables f.flags smp) :
    f.api.objectGet (packTimestamps f smp) "origin" =
        (if hasFlag smp.flags SampleFlags.hasTsOrigin then
          some (f.api.packIntegers smp.origin.sec smp.origin.nsec) else none) ∧
      f.api.objectGet (packTimestamps f smp) "received" =
        (if hasFlag smp.flags SampleFlags.hasTsReceived then
          some (f.api.packIntegers smp.received.sec smp.received.nsec) else none) := by
  have horigin := and_iff_right_of_imp hf.origin
  have hreceived := and_iff_right_of_imp hf.received
  unfold packTimestamps
  simp only [horigin, hreceived]
  split_ifs <;> simp [hapi.objectGet_set, hapi.objectGet_object, hapi.typeof_object, hapi.typeof_objectSet]

theorem unpackTimestamp_eq (hapi : f.api.Lawful) {json : J} {key : String} {ts : Timespec} {has : Bool}
    (hget : f.api.objectGet json key = if has then some (f.api.packIntegers ts.sec ts.nsec) else none)
    (flag : BitVec 32) (get : Payload → Timespec) (set : Payload → Timespec → Payload) (smp : Payload) :
    unpackTimestamp f json key flag get set smp =
      (if has then { set smp ts with flags := (set smp ts).flags ||| flag } else smp, true) := by
  rw [unpackTimestamp, hget]
  cases has with
  | false => rfl
  | true =>
    simp only [if_true, hapi.unpackIntegers]

/-- The sample with the timestamps of another one as far as it has any. -/
def stamped (smp src : Payload) : Payload :=
  let smp :=
    if hasFlag src.flags SampleFlags.hasTsOrigin then
      { smp with origin := src.origin, flags := smp.flags ||| SampleFlags.hasTsOrigin }
    else smp
  if hasFlag src.flags SampleFlags.hasTsReceived then
    { smp with received := src.received, flags := smp.flags ||| SampleFlags.hasTsReceived }
  else smp

theorem stamped_flags (smp src : Payload) :
    (stamped smp src).flags = smp.flags |||
      (if hasFlag src.flags SampleFlags.hasTsOrigin then SampleFlags.hasTsOrigin else 0) |||
      (if hasFlag src.flags SampleFlags.hasTsReceived then SampleFlags.hasTsReceived else 0) := by
  unfold stamped
  split_ifs <;> simp

theorem unpackTimestamps_packTimestamps (hapi : f.api.Lawful) {src : Payload}
    (hf : Enables f.flags src) (smp : Payload) :
    unpackTimestamps f (packTimestamps f src) smp = (stamped smp src, true) := by
  obtain ⟨horigin, hreceived⟩ := packTimestamps_get hapi hf
  rw [unpackTimestamps, unpackTimestamp_eq hapi horigin]
  dsimp only
  rw [if_pos rfl, unpackTimestamp_eq hapi hreceived]
  rfl

theorem unpackSequence_eq (hapi : f.api.Lawful) {json : J} {src : Payload}
    (hget : f.api.objectGet json "sequence" = if hasFlag src.flags SampleFlags.hasSequence then
      some (f.api.integer src.sequence) else none)
    (hsmall : hasFlag src.flags SampleFlags.hasSequence → src.sequence.toNat < 2 ^ 63) :
    ∃ sequence, unpackSequence f json = some sequence ∧
      (0 ≤ sequence.toInt ↔ hasFlag src.flags SampleFlags.hasSequence) ∧
      (hasFlag src.flags SampleFlags.hasSequence → sequence = src.sequence) := by
  rw [unpackSequence, hget]
  cases hseq : hasFlag src.flags SampleFlags.hasSequence with
  | false => exact ⟨-1, rfl, by decide, fun h => by cases h⟩
  | true =>
    refine ⟨src.sequence, hapi.unpackInteger _, ?_, fun _ => rfl⟩
    have hlt := hsmall hseq
    rw [BitVec.toInt_eq_toNat_of_lt (by omega)]
    simp

/-! ## Samples -/

/-- The flags of the parts that a sample has, with data. -/
def presentFlags (smp : Payload) : BitVec 32 :=
  (if hasFlag smp.flags SampleFlags.hasTsOrigin then SampleFlags.hasTsOrigin else 0) |||
    (if hasFlag smp.flags SampleFlags.hasTsReceived then SampleFlags.hasTsReceived else 0) |||
    (if hasFlag smp.flags SampleFlags.hasSequence then SampleFlags.hasSequence else 0) |||
    SampleFlags.hasData

/-- A sample with values that are packed, of the signals of the format. -/
structure JsonSample (types : List SignalType) (smp : LineSample) : Prop where
  signals : smp.signals = types
  data : hasFlag smp.payload.flags SampleFlags.hasData
  sequence : hasFlag smp.payload.flags SampleFlags.hasSequence → smp.payload.sequence.toNat < 2 ^ 63
  nonempty : 0 < smp.payload.length
  values : ∀ j < smp.payload.length, ∃ type, types[j]? = some type ∧ Packable type (smp.payload.data j)

/-- The same parts with the same contents, and the flags of exactly these parts. -/
structure SameParts (types : List SignalType) (src new : Payload) : Prop where
  flags : new.flags = presentFlags src
  origin : hasFlag src.flags SampleFlags.hasTsOrigin → new.origin = src.origin
  received : hasFlag src.flags SampleFlags.hasTsReceived → new.received = src.received
  sequence : hasFlag src.flags SampleFlags.hasSequence → new.sequence = src.sequence
  length : new.length = src.length
  values : ∀ j < src.length, ∀ t, types[j]? = some t → SameValue t (new.data j) (src.data j)

theorem packSample_get (hapi : f.api.Lawful) (hconv : Exact f.conv) {smp : LineSample}
    (hf : Enables f.flags smp.payload) (hsmp : JsonSample f.types smp) :
    ∃ json data, packSample f smp = some json ∧ f.api.typeof json = .object ∧
      f.api.objectGet json "ts" = some (packTimestamps f smp.payload) ∧
      f.api.objectGet json "sequence" = (if hasFlag smp.payload.flags SampleFlags.hasSequence then
        some (f.api.integer smp.payload.sequence) else none) ∧
      f.api.objectGet json "data" = some data ∧ f.api.typeof data = .array ∧
      (f.api.elements data).length = smp.payload.length ∧
      Packed f smp.payload 0 (f.api.elements data) := by
  obtain ⟨data, values, hdata, htype, helements, hlength, hpacked⟩ := packValues_eq hapi hconv
    hsmp.signals (i := 0) (n := smp.payload.length) (fun j _ hlt => hsmp.values j (by omega))
    hapi.typeof_array
  rw [hapi.elements_array, List.nil_append] at helements
  rw [← helements] at hlength hpacked
  have hsequence := and_iff_right_of_imp hf.sequence
  unfold packSample
  simp only [hsequence, hf.data, if_true, hdata, Option.map_some]
  refine ⟨_, data, rfl, ?_, ?_, ?_, ?_, htype, hlength, hpacked⟩
  · split_ifs <;> simp [hapi.typeof_object, hapi.typeof_objectSet]
  · split_ifs <;> simp [hapi.objectGet_set, hapi.typeof_object, hapi.typeof_objectSet]
  · split_ifs <;>
      simp [hapi.objectGet_set, hapi.objectGet_object, hapi.typeof_object, hapi.typeof_objectSet]
  · split_ifs <;> simp [hapi.objectGet_set, hapi.typeof_object, hapi.typeof_objectSet]

/-- What is packed of a sample is unpacked as the same sample. -/
theorem unpackSample_packSample (hapi : f.api.Lawful) (hconv : Exact f.conv) {smp : LineSample}
    (hf : Enables f.flags smp.payload) (hsmp : JsonSample f.types smp) {capacity : Nat}
    (hcapacity : smp.payload.length ≤ capacity) (old : Payload) :
    ∃ json new, packSample f smp = some json ∧
      unpackSample f json capacity old = (new, .ret 0) ∧ SameParts f.types smp.payload new := by
  obtain ⟨json, data, hpack, htype, hts, hsequence, hdata, harray, hlength, hpacked⟩ :=
    packSample_get hapi hconv hf hsmp
  obtain ⟨sequence, hunpack, hnonneg, hsame⟩ := unpackSequence_eq hapi hsequence hsmp.sequence
  let start := stamped { old with signals := f.signals, flags := 0, length := 0 } smp.payload
  obtain ⟨new, hvalues, ⟨values, hkept⟩, -, hback⟩ := @unpackValues_parses _ _ _ _
    capacity _ (hpacked.parses hapi hconv) (by omega) (numbered sequence start)
  have hcount : new.length = smp.payload.length := by
    have hzero : (numbered sequence start).length = 0 := by
      simp only [numbered, start, stamped]
      split_ifs <;> rfl
    rw [hkept, hlength, hzero, Nat.zero_add]
  refine ⟨json, { new with flags := new.flags ||| SampleFlags.hasData }, hpack, ?_, ?_⟩
  · have hpos := hsmp.nonempty
    rw [unpackSample, if_neg (by simp [htype]), hunpack, hdata]
    dsimp only
    rw [hts]
    simp only [unpackTimestamps_packTimestamps hapi hf]
    rw [unpackData, if_neg (by simp [harray]), hvalues]
    simp only [show 0 < new.length by omega, if_true]
  · constructor
    · have hnumbered : (numbered sequence start).flags = start.flags |||
          (if hasFlag smp.payload.flags SampleFlags.hasSequence then SampleFlags.hasSequence else 0) := by
        simp only [numbered, hnonneg]
        split_ifs <;> simp
      simp only [hkept, hnumbered, start, stamped_flags, presentFlags]
      simp
    · intro h
      simp only [hkept, numbered, start, stamped, h, if_true]
      split_ifs <;> rfl
    · intro h
      simp only [hkept, numbered, start, stamped, h, if_true]
      split_ifs <;> rfl
    · intro h
      simp only [hkept, numbered, hnonneg, h, if_true]
      exact hsame h
    · exact hcount
    · intro j hj t ht
      exact hback j t (Nat.zero_le j) (by omega) ht

end

/-- `float` to `double` and back for zeros and normal numbers. Others keep their bits. -/
def exampleConv : FloatConv where
  widen v :=
    let e := v.extractLsb' 23 8
    v.extractLsb' 31 1 ++ (if e = 0 then 0#11 else e.setWidth 11 + 896#11) ++ v.extractLsb' 0 23 ++ 0#29
  narrow v :=
    let e := v.extractLsb' 52 11
    v.extractLsb' 63 1 ++ (if e = 0 then 0#8 else (e - 896#11).setWidth 8) ++ v.extractLsb' 29 23

theorem double_fields (s : BitVec 1) (e : BitVec 11) (m : BitVec 23) :
    let x : BitVec 64 := s ++ e ++ m ++ 0#29
    x.extractLsb' 63 1 = s ∧ x.extractLsb' 52 11 = e ∧ x.extractLsb' 29 23 = m := by
  refine ⟨?_, ?_, ?_⟩ <;> ext i hi <;> simp <;> grind

theorem float_fields (v : BitVec 32) :
    v.extractLsb' 31 1 ++ v.extractLsb' 23 8 ++ v.extractLsb' 0 23 = v := by
  ext i hi
  simp
  grind

theorem exponent_back (e : BitVec 8) (hzero : e ≠ 0) :
    e.setWidth 11 + 896#11 ≠ 0 ∧ (e.setWidth 11 + 896#11 - 896#11).setWidth 8 = e := by
  revert e
  decide

theorem exponent_finite (e : BitVec 8) (hfinite : e ≠ 255#8) : e.setWidth 11 + 896#11 ≠ 2047#11 := by
  revert e
  decide

theorem narrow_widen (v : BitVec 32) : exampleConv.narrow (exampleConv.widen v) = v := by
  obtain ⟨hsign, hexponent, hmantissa⟩ := double_fields (v.extractLsb' 31 1)
    (if v.extractLsb' 23 8 = 0 then 0#11 else (v.extractLsb' 23 8).setWidth 11 + 896#11)
    (v.extractLsb' 0 23)
  have hfields := float_fields v
  simp only [exampleConv, hsign, hexponent, hmantissa]
  by_cases hzero : v.extractLsb' 23 8 = 0
  · rw [hzero] at hfields
    simp only [hzero, if_true]
    exact hfields
  · obtain ⟨hne, hback⟩ := exponent_back _ hzero
    simp only [hzero, if_false, hne]
    rw [hback, hfields]

theorem exact_exampleConv : Exact exampleConv := by
  intro v hv
  refine ⟨?_, narrow_widen v⟩
  obtain ⟨-, hexponent, -⟩ := double_fields (v.extractLsb' 31 1)
    (if v.extractLsb' 23 8 = 0 then 0#11 else (v.extractLsb' 23 8).setWidth 11 + 896#11)
    (v.extractLsb' 0 23)
  have hfinite : v.extractLsb' 23 8 ≠ 255#8 := by simpa [finite32] using hv
  simp only [exampleConv, finite, decide_eq_true_eq, hexponent]
  by_cases hzero : v.extractLsb' 23 8 = 0
  · simp only [hzero, if_true]
    decide
  · simp only [hzero, if_false]
    exact exponent_finite _ hfinite

/-- The format with all flags and a signal of each type. -/
def exampleFormat : JsonFormat Tree where
  api := Tree.api
  conv := exampleConv
  ofInteger := fun v => v
  flags := SampleFlags.hasTs ||| SampleFlags.hasSequence ||| SampleFlags.hasData
  signals := 1
  types := [.float, .integer, .boolean, .complex]

/-- `1.5`, `-2`, `true` and `1.5 - 2i` without the time of the reception. -/
def exampleSample : LineSample where
  payload := ⟨7, 4, SampleFlags.hasTsOrigin ||| SampleFlags.hasSequence ||| SampleFlags.hasData, 1,
    ⟨1, 2⟩, ⟨0, 0⟩, fun
      | 0 => 0x3ff8000000000000
      | 1 => -2
      | 2 => 1
      | _ => 0xc00000003fc00000⟩
  signals := [.float, .integer, .boolean, .complex]

theorem unpackSample_packSample_four :
    ∃ json new, packSample exampleFormat exampleSample = some json ∧
      unpackSample exampleFormat json 4 exampleSample.payload = (new, .ret 0) ∧
        SameParts exampleFormat.types exampleSample.payload new := by
  have henables : Enables exampleFormat.flags exampleSample.payload := by
    constructor <;> decide
  have hsmp : JsonSample exampleFormat.types exampleSample := by
    refine ⟨rfl, by decide, by decide, by decide, ?_⟩
    intro j hj
    match j, hj with
    | 0, _ => exact ⟨.float, rfl, (by decide : finite (exampleSample.payload.data 0))⟩
    | 1, _ => exact ⟨.integer, rfl, trivial⟩
    | 2, _ => exact ⟨.boolean, rfl, trivial⟩
    | 3, _ => exact ⟨.complex, rfl, (by decide :
        finite32 ((exampleSample.payload.data 3).extractLsb' 0 32) ∧
          finite32 ((exampleSample.payload.data 3).extractLsb' 32 32))⟩
  exact unpackSample_packSample (f := exampleFormat) Tree.lawful_api exact_exampleConv
    henables hsmp (by decide) exampleSample.payload

end VillasNode.Json
