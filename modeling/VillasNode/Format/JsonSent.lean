import VillasNode.Format.JsonAlignment

/-!
# JSON samples that arrive

What is packed of a sample is unpacked as the same sample exactly when the two
sides have the same types, all numbers are finite, and the sequence number is not
negative as an integer.
-/

namespace VillasNode.Json

open Jansson Line

/-- A `float` is itself again behind the conversion to a finite `double` and back. -/
def Back (conv : FloatConv) : Prop := ∀ v, finite (conv.widen v) → conv.narrow (conv.widen v) = v

section
variable {J : Type} (f : JsonFormat J)

/-- The sample has this part, and the format packs it. -/
def shares (src : Payload) (flag : BitVec 32) : Bool := hasFlag src.flags flag && hasFlag f.flags flag

/-- The sample that was sent, as far as the format packs it. -/
structure Received (src : LineSample) (new : Payload) : Prop where
  length : new.length = src.payload.length
  values : ∀ j < src.payload.length, ∀ type, src.signals[j]? = some type →
    SameValue type (new.data j) (src.payload.data j)
  flags : ∀ flag ∈ [SampleFlags.hasTsOrigin, SampleFlags.hasTsReceived, SampleFlags.hasSequence],
    hasFlag new.flags flag = shares f src.payload flag
  origin : shares f src.payload SampleFlags.hasTsOrigin → new.origin = src.payload.origin
  received : shares f src.payload SampleFlags.hasTsReceived → new.received = src.payload.received
  sequence : shares f src.payload SampleFlags.hasSequence → new.sequence = src.payload.sequence

/-- The sample arrives. -/
structure Sendable (src : LineSample) : Prop where
  data : hasFlag f.flags SampleFlags.hasData
  values : ∀ j < src.payload.length, ∃ type, src.signals[j]? = some type ∧ f.types[j]? = some type ∧
    Representable f type (src.payload.data j)
  sequence : shares f src.payload SampleFlags.hasSequence → src.payload.sequence.toNat < 2 ^ 63

end

/-! ## Flags -/

theorem hasFlag_shift (x : BitVec 32) {i : Nat} (hi : i < 32) : hasFlag x (1#32 <<< i) = x.getLsbD i := by
  have hne : BitVec.twoPow 32 i ≠ 0 := by
    intro h
    have hbit := congrArg (BitVec.getLsbD · i) h
    simp [hi] at hbit
  unfold hasFlag
  rw [← BitVec.twoPow_eq, BitVec.and_twoPow]
  cases x.getLsbD i with
  | true => simpa using hne
  | false => simp

/-- The flags of the parts. -/
def IsPart (flag : BitVec 32) : Prop :=
  flag ∈ [SampleFlags.hasTsOrigin, SampleFlags.hasTsReceived, SampleFlags.hasSequence]

theorem IsPart.shift {flag : BitVec 32} (h : IsPart flag) : ∃ i < 32, flag = 1#32 <<< i := by
  unfold IsPart at h
  simp only [List.mem_cons, List.not_mem_nil, or_false] at h
  rcases h with rfl | rfl | rfl
  · exact ⟨0, by decide, rfl⟩
  · exact ⟨1, by decide, rfl⟩
  · exact ⟨3, by decide, rfl⟩

theorem hasFlag_and {flag : BitVec 32} (h : IsPart flag) (x y : BitVec 32) :
    hasFlag (x &&& y) flag = (hasFlag x flag && hasFlag y flag) := by
  obtain ⟨i, hi, rfl⟩ := h.shift
  rw [hasFlag_shift _ hi, hasFlag_shift _ hi, hasFlag_shift _ hi, BitVec.getLsbD_and]

/-- The flags that are set for the parts of a sample. -/
def partFlags (origin received sequence data : Bool) : BitVec 32 :=
  0 ||| (if origin then SampleFlags.hasTsOrigin else 0) |||
    (if received then SampleFlags.hasTsReceived else 0) |||
    (if sequence then SampleFlags.hasSequence else 0) ||| (if data then SampleFlags.hasData else 0)

theorem hasFlag_partFlags (origin received sequence data : Bool) :
    hasFlag (partFlags origin received sequence data) SampleFlags.hasTsOrigin = origin ∧
      hasFlag (partFlags origin received sequence data) SampleFlags.hasTsReceived = received ∧
      hasFlag (partFlags origin received sequence data) SampleFlags.hasSequence = sequence := by
  revert origin received sequence data
  decide

section
variable {J : Type} {f : JsonFormat J}

/-- The sample with the flags of what is packed of it. -/
def carried (f : JsonFormat J) (src : Payload) : Payload := { src with flags := src.flags &&& f.flags }

theorem shares_eq {flag : BitVec 32} (h : IsPart flag) (src : Payload) :
    hasFlag (carried f src).flags flag = shares f src flag := hasFlag_and h ..

theorem isPart_origin : IsPart SampleFlags.hasTsOrigin := by simp [IsPart]

theorem isPart_received : IsPart SampleFlags.hasTsReceived := by simp [IsPart]

theorem isPart_sequence : IsPart SampleFlags.hasSequence := by simp [IsPart]

theorem packed_iff {flag : BitVec 32} (h : IsPart flag) (src : Payload) :
    hasFlag f.flags flag ∧ hasFlag (carried f src).flags flag ↔
      hasFlag f.flags flag ∧ hasFlag src.flags flag := by
  rw [shares_eq h]
  unfold shares
  rw [Bool.and_eq_true]
  tauto

theorem packTimestamps_carried (src : Payload) :
    packTimestamps f (carried f src) = packTimestamps f src := by
  unfold packTimestamps
  simp only [packed_iff isPart_origin, packed_iff isPart_received]
  rfl

theorem enables_carried (hdata : hasFlag f.flags SampleFlags.hasData) (src : Payload) :
    Enables f.flags (carried f src) := by
  have hpart {flag : BitVec 32} (h : IsPart flag) (hcarried : hasFlag (carried f src).flags flag) :
      hasFlag f.flags flag := by
    rw [shares_eq h] at hcarried
    exact (Bool.and_eq_true_iff.mp hcarried).2
  exact ⟨hpart isPart_origin, hpart isPart_received, hpart isPart_sequence, hdata⟩

/-! ## One value -/

theorem signalDataParseJson_encodes (hback : Back f.conv) {type : SignalType} {data : Value} {json : J}
    (hrepresentable : Representable f type data) (h : Encodes f type data json) :
    ∀ old, ∃ v, signalDataParseJson f old type json = some v ∧ SameValue type v data := by
  intro old
  cases type with
  | invalid => exact h.elim
  | float => exact ⟨_, rfl, h.2⟩
  | integer => exact ⟨_, rfl, h.2⟩
  | boolean =>
    refine ⟨_, rfl, ?_⟩
    rw [SameValue, BitVec.extractLsb'_append_eq_right, show f.api.typeof json = _ from h]
    by_cases hzero : data.extractLsb' 0 8 = 0 <;> simp [hzero]
  | complex =>
    obtain ⟨hobject, real, imag, hreal, himag, ⟨hrealtype, hrealvalue⟩, himagtype, himagvalue⟩ := h
    refine ⟨data, ?_, rfl⟩
    have hreals : f.api.unpackReals f.ofInteger json "real" "imag" =
        some (f.conv.widen (data.extractLsb' 0 32), f.conv.widen (data.extractLsb' 32 32)) := by
      rw [Api.unpackReals, if_neg (by simp [hobject]), hreal, himag]
      simp only [Option.bind_some, Option.map_some, Api.unpackNumber, hrealtype, himagtype, hrealvalue,
        himagvalue]
    rw [signalDataParseJson, hreals]
    dsimp only [Option.map_some]
    rw [hback _ hrepresentable.1, hback _ hrepresentable.2]
    exact congrArg some (@BitVec.extractLsb'_append_extractLsb' 32 32 data)

theorem detect_encodes {type : SignalType} {data : Value} {json : J} (h : Encodes f type data json) :
    detect f json = type := by
  unfold detect
  cases type with
  | invalid => exact h.elim
  | float => rw [h.1]
  | integer => rw [h.1]
  | boolean =>
    rw [show f.api.typeof json = _ from h]
    split_ifs <;> rfl
  | complex => rw [h.1]

/-! ## All values -/

/-- The values from index `i` on are of the types of the signals, and stand for the data. -/
def Encoded (f : JsonFormat J) (src : Payload) (i : Nat) (values : List J) : Prop :=
  ∀ k json, values[k]? = some json → ∃ type, f.types[i + k]? = some type ∧
    Representable f type (src.data (i + k)) ∧ Encodes f type (src.data (i + k)) json

theorem Encoded.parses (hback : Back f.conv) {src : Payload} {i : Nat} {values : List J}
    (h : Encoded f src i values) : Parses f src i values := by
  intro k json hjson
  obtain ⟨type, htype, hrepresentable, hencodes⟩ := h k json hjson
  exact ⟨type, htype, detect_encodes hencodes, signalDataParseJson_encodes hback hrepresentable hencodes⟩

theorem unpackValues_ok {i capacity : Nat} {values : List J} (hcapacity : i + values.length ≤ capacity)
    {old new : Payload} (h : unpackValues f capacity old i values = (new, .ret 0)) :
    (∃ data, new = { old with data, length := old.length + values.length }) ∧
      ∀ k json, values[k]? = some json → f.types[i + k]? = some (detect f json) := by
  induction values generalizing i old with
  | nil =>
    cases h
    exact ⟨⟨_, rfl⟩, by simp⟩
  | cons json rest ih =>
    rw [List.length_cons] at hcapacity
    rw [unpackValues, if_neg (by omega)] at h
    cases htype : f.types[i]? with
    | none =>
      rw [htype] at h
      cases h
    | some type =>
      rw [htype] at h
      dsimp only at h
      split at h
      · cases h
      rename_i hdetect
      split at h
      · cases h
      obtain ⟨⟨data, hnew⟩, hrest⟩ := ih (by omega) h
      refine ⟨⟨data, ?_⟩, fun k value hvalue => ?_⟩
      · rw [hnew, List.length_cons]
        simp only [Payload.setData, Nat.add_assoc, Nat.add_comm 1]
      · cases k with
        | zero =>
          cases hvalue
          rw [Nat.add_zero, htype, ← not_not.mp hdetect]
        | succ k =>
          rw [← Nat.add_assoc, Nat.add_right_comm]
          exact hrest k value hvalue

/-! ## The sample -/

/-- The sample in front of its values. `unpackSample` clears the flags and the length. -/
def start (f : JsonFormat J) (src old : Payload) : Payload :=
  numbered (if shares f src SampleFlags.hasSequence then src.sequence else -1)
    (stamped { old with signals := f.signals, flags := 0, length := 0 } (carried f src))

theorem start_flags (src old : Payload) : (start f src old).flags =
    partFlags (shares f src SampleFlags.hasTsOrigin) (shares f src SampleFlags.hasTsReceived)
      (shares f src SampleFlags.hasSequence && src.sequence.toNat < 2 ^ 63) false := by
  have hsequence : 0 ≤ (if shares f src SampleFlags.hasSequence then src.sequence else -1).toInt ↔
      (shares f src SampleFlags.hasSequence && src.sequence.toNat < 2 ^ 63) = true := by
    cases shares f src SampleFlags.hasSequence with
    | false =>
      rw [Bool.false_and, if_neg Bool.false_ne_true]
      decide
    | true =>
      rw [if_pos rfl, Bool.true_and, decide_eq_true_eq, BitVec.toInt_eq_toNat_cond]
      have := src.sequence.isLt
      split <;> omega
  unfold start numbered partFlags
  simp only [hsequence]
  split
  · simp [stamped_flags, shares_eq isPart_origin, shares_eq isPart_received]
  · simp [stamped_flags, shares_eq isPart_origin, shares_eq isPart_received]

theorem unpackSequence_get (hapi : f.api.Lawful) {json : J} {src : Payload} {has : Bool}
    (hget : f.api.objectGet json "sequence" = if has then some (f.api.integer src.sequence) else none) :
    unpackSequence f json = some (if has then src.sequence else -1) := by
  unfold unpackSequence
  rw [hget]
  cases has with
  | false => rfl
  | true => exact hapi.unpackInteger _

/-- Behind the values the flag for data is set. -/
def finish : Payload × Outcome → Payload × Outcome
  | (smp, .ret 0) => (if 0 < smp.length then { smp with flags := smp.flags ||| SampleFlags.hasData } else smp, .ret 0)
  | (smp, outcome) => (smp, outcome)

theorem unpackSample_data (hapi : f.api.Lawful) (hflag : hasFlag f.flags SampleFlags.hasData)
    (src : Payload) {data : J} (harray : f.api.typeof data = .array) (capacity : Nat) (old : Payload) :
    unpackSample f (f.api.objectSet (packHead f src) "data" data) capacity old =
      finish (unpackValues f capacity (start f src old) 0 (f.api.elements data)) := by
  have hobject : f.api.typeof (packHead f src) = .object := packHead_object hapi src
  obtain ⟨hts, hsequence, -⟩ := packHead_get hapi (f := f) src
  have htype : f.api.typeof (f.api.objectSet (packHead f src) "data" data) = .object := by
    rw [hapi.typeof_objectSet, hobject]
  have hother {key : String} (hkey : key ≠ "data") :
      f.api.objectGet (f.api.objectSet (packHead f src) "data" data) key =
        f.api.objectGet (packHead f src) key := by
    rw [hapi.objectGet_set _ _ _ _ hobject, if_neg hkey]
  have hshares : (hasFlag f.flags SampleFlags.hasSequence ∧ hasFlag src.flags SampleFlags.hasSequence) ↔
      shares f src SampleFlags.hasSequence = true := by
    unfold shares
    rw [Bool.and_eq_true, and_comm]
  have hget : f.api.objectGet (f.api.objectSet (packHead f src) "data" data) "sequence" =
      if shares f src SampleFlags.hasSequence then some (f.api.integer src.sequence) else none := by
    rw [hother (by decide), hsequence]
    simp only [hshares]
  rw [unpackSample, if_neg (by simp [htype]), unpackSequence_get hapi hget, data_get hapi,
    hother (by decide), hts]
  dsimp only
  rw [← packTimestamps_carried, unpackTimestamps_packTimestamps hapi (enables_carried hflag src)]
  dsimp only
  rw [unpackData, if_neg (by simp [harray])]
  rfl

theorem unpackSample_head (hapi : f.api.Lawful) (src : Payload) (capacity : Nat) (old : Payload) :
    (unpackSample f (packHead f src) capacity old).2 = .ret (-1) := by
  obtain ⟨-, -, hdata⟩ := packHead_get hapi (f := f) src
  rw [unpackSample, if_neg (by simp [packHead_object hapi src]), hdata]
  split
  · rename_i h
    cases h
  · rfl

/-! ## There and back -/

theorem finish_ok {r : Payload × Outcome} {new : Payload} (h : finish r = (new, .ret 0)) :
    ∃ smp, r = (smp, .ret 0) ∧
      new = if 0 < smp.length then { smp with flags := smp.flags ||| SampleFlags.hasData } else smp := by
  obtain ⟨smp, outcome⟩ := r
  unfold finish at h
  split at h
  · rename_i heq
    cases heq
    cases h
    exact ⟨_, rfl, rfl⟩
  · rename_i hother heq
    cases heq
    cases h
    exact absurd rfl hother

theorem finished_flags {src old smp : Payload} (hflags : smp.flags = (start f src old).flags)
    {new : Payload}
    (hnew : new = if 0 < smp.length then { smp with flags := smp.flags ||| SampleFlags.hasData } else smp) :
    hasFlag new.flags SampleFlags.hasTsOrigin = shares f src SampleFlags.hasTsOrigin ∧
      hasFlag new.flags SampleFlags.hasTsReceived = shares f src SampleFlags.hasTsReceived ∧
      hasFlag new.flags SampleFlags.hasSequence =
        (shares f src SampleFlags.hasSequence && src.sequence.toNat < 2 ^ 63) := by
  have hpart : new.flags = partFlags (shares f src SampleFlags.hasTsOrigin)
      (shares f src SampleFlags.hasTsReceived)
      (shares f src SampleFlags.hasSequence && src.sequence.toNat < 2 ^ 63) (0 < smp.length) := by
    rw [hnew]
    split
    · rename_i hpos
      simp [hflags, start_flags, partFlags, hpos]
    · rename_i hzero
      simp [hflags, start_flags, partFlags, hzero]
  rw [hpart]
  exact hasFlag_partFlags ..

theorem start_length (src old : Payload) : (start f src old).length = 0 := by
  unfold start numbered stamped
  split_ifs <;> rfl

theorem start_origin {src : Payload} (h : shares f src SampleFlags.hasTsOrigin) (old : Payload) :
    (start f src old).origin = src.origin := by
  rw [← shares_eq isPart_origin] at h
  unfold start numbered stamped
  rw [if_pos h]
  split_ifs <;> rfl

theorem start_received {src : Payload} (h : shares f src SampleFlags.hasTsReceived) (old : Payload) :
    (start f src old).received = src.received := by
  rw [← shares_eq isPart_received] at h
  unfold start numbered stamped
  rw [if_pos h]
  split_ifs <;> rfl

theorem start_sequence {src : Payload} (h : shares f src SampleFlags.hasSequence)
    (hsmall : src.sequence.toNat < 2 ^ 63) (old : Payload) : (start f src old).sequence = src.sequence := by
  have hnonneg : 0 ≤ src.sequence.toInt := by
    rw [BitVec.toInt_eq_toNat_of_lt (by omega)]
    omega
  unfold start numbered
  rw [if_pos h, if_pos hnonneg]

theorem packSample_some (hapi : f.api.Lawful) (hflag : hasFlag f.flags SampleFlags.hasData)
    {src : LineSample} {json : J} (h : packSample f src = some json) :
    ∃ data, json = f.api.objectSet (packHead f src.payload) "data" data ∧
      src.payload.length ≤ src.signals.length ∧ f.api.typeof data = .array ∧
      f.api.elements data = (List.range' 0 src.payload.length).filterMap (packedValue f src) := by
  have hpack := h
  rw [packSample_eq, if_pos hflag] at h
  obtain ⟨data, hvalues, rfl⟩ := Option.map_eq_some_iff.mp h
  obtain ⟨-, hle, harray, helements⟩ := packSample_data hapi hpack (data_get hapi _ _)
  exact ⟨data, rfl, hle, harray, helements⟩

theorem packedValue_some {src : LineSample} {j : Nat} {type : SignalType} {json : J}
    (hsignal : src.signals[j]? = some type) (h : packedValue f src j = some json) :
    signalDataToJson f (src.payload.data j) type = some json := by
  unfold packedValue at h
  rw [hsignal] at h
  exact h

theorem Received.sendable (hapi : f.api.Lawful) (hstrict : f.api.Strict) {src : LineSample}
    {capacity : Nat} (hcapacity : src.payload.length ≤ capacity) {old new : Payload} {json : J}
    (hpack : packSample f src = some json) (hunpack : unpackSample f json capacity old = (new, .ret 0))
    (h : Received f src new) : Sendable f src := by
  by_cases hflag : hasFlag f.flags SampleFlags.hasData
  · obtain ⟨data, rfl, hle, harray, helements⟩ := packSample_some hapi hflag hpack
    rw [unpackSample_data hapi hflag _ harray] at hunpack
    obtain ⟨smp, hvalues, hnew⟩ := finish_ok hunpack
    have hshort : (f.api.elements data).length ≤ src.payload.length := by
      rw [helements]
      have := List.length_filterMap_le (packedValue f src) (List.range' 0 src.payload.length)
      rwa [List.length_range'] at this
    obtain ⟨⟨values, hsmp⟩, htypes⟩ := unpackValues_ok (by omega) hvalues
    have hlength : (f.api.elements data).length = src.payload.length := by
      have hcount : new.length = (f.api.elements data).length := by
        have hsmplength : smp.length = (f.api.elements data).length := by
          rw [hsmp, start_length, Nat.zero_add]
        rw [hnew, ← hsmplength]
        split <;> rfl
      rw [← hcount, h.length]
    have hcount : (List.range' 0 src.payload.length).length = src.payload.length := List.length_range'
    have hall : ∀ j ∈ List.range' 0 src.payload.length, (packedValue f src j).isSome := by
      apply List.filterMap_length_eq_length.mp
      rw [← helements, hlength, hcount]
    refine ⟨hflag, fun j hj => ?_, fun hshares => ?_⟩
    · have hsignal := List.getElem?_eq_getElem (show j < src.signals.length by omega)
      obtain ⟨value, hvalue⟩ := Option.isSome_iff_exists.mp (hall j (List.mem_range'_1.mpr (by omega)))
      obtain ⟨hrepresentable, hencodes⟩ :=
        signalDataToJson_some hapi hstrict (packedValue_some hsignal hvalue)
      have hget : (f.api.elements data)[j]? = some value := by
        rw [helements, filterMap_getElem? hall, List.getElem?_range' hj]
        simpa using hvalue
      have htype := htypes j value hget
      rw [Nat.zero_add, detect_encodes hencodes] at htype
      exact ⟨_, hsignal, htype, hrepresentable⟩
    · have hflags : smp.flags = (start f src.payload old).flags := by rw [hsmp]
      obtain ⟨-, -, hsequence⟩ := finished_flags hflags hnew
      rw [h.flags _ (by simp), hshares, Bool.true_and] at hsequence
      exact of_decide_eq_true hsequence.symm
  · rw [packSample_eq, if_neg hflag] at hpack
    cases hpack
    have hret := unpackSample_head hapi (f := f) src.payload capacity old
    rw [hunpack] at hret
    cases hret

theorem Sendable.received (hapi : f.api.Lawful) (hstrict : f.api.Strict) (hback : Back f.conv)
    {src : LineSample} (h : Sendable f src) {capacity : Nat} (hcapacity : src.payload.length ≤ capacity)
    (old : Payload) : ∃ json new, packSample f src = some json ∧
      unpackSample f json capacity old = (new, .ret 0) ∧ Received f src new := by
  have hle : src.payload.length ≤ src.signals.length := by
    by_contra hshort
    obtain ⟨type, hsignal, -⟩ := h.values src.signals.length (by omega)
    rw [List.getElem?_eq_none (Nat.le_refl _)] at hsignal
    cases hsignal
  obtain ⟨values, hvalues⟩ := Option.isSome_iff_exists.mp
    (@packValues_isSome J f src f.api.array 0 src.payload.length (by omega))
  have hpack : packSample f src = some (f.api.objectSet (packHead f src.payload) "data" values) := by
    rw [packSample_eq, if_pos h.data, hvalues]
    rfl
  obtain ⟨-, -, harray, helements⟩ := packSample_data hapi hpack (data_get hapi _ _)
  have hall : ∀ j ∈ List.range' 0 src.payload.length, (packedValue f src j).isSome := by
    intro j hj
    rw [List.mem_range'_1] at hj
    obtain ⟨type, hsignal, -, hrepresentable⟩ := h.values j (by omega)
    exact (packedValue_isSome_iff hapi hstrict hsignal).mpr hrepresentable
  have hlength : (f.api.elements values).length = src.payload.length := by
    rw [helements, List.filterMap_length_eq_length.mpr hall, List.length_range']
  have hencoded : Encoded f src.payload 0 (f.api.elements values) := by
    intro k json hjson
    have hk : k < src.payload.length := by
      rw [← hlength]
      exact (List.getElem?_eq_some_iff.mp hjson).1
    obtain ⟨type, hsignal, htype, hrepresentable⟩ := h.values k hk
    rw [helements, filterMap_getElem? hall, List.getElem?_range' hk] at hjson
    have hvalue : packedValue f src k = some json := by simpa using hjson
    rw [Nat.zero_add]
    exact ⟨type, htype, hrepresentable,
      (signalDataToJson_some hapi hstrict (packedValue_some hsignal hvalue)).2⟩
  obtain ⟨smp, hunpack, ⟨data, hkept⟩, -, hsame⟩ :=
    unpackValues_parses (hencoded.parses hback) (by omega : 0 + _ ≤ capacity) (start f src.payload old)
  generalize hnew : (if 0 < smp.length then { smp with flags := smp.flags ||| SampleFlags.hasData } else smp) = new
  have hflags : smp.flags = (start f src.payload old).flags := by rw [hkept]
  obtain ⟨horigin, hreceived, hsequence⟩ := finished_flags hflags hnew.symm
  have hfields : new.length = src.payload.length ∧ new.data = smp.data ∧
      new.origin = (start f src.payload old).origin ∧ new.received = (start f src.payload old).received ∧
      new.sequence = (start f src.payload old).sequence := by
    have hcount : smp.length = src.payload.length := by
      rw [hkept, hlength, start_length, Nat.zero_add]
    rw [← hnew, ← hcount]
    split <;> exact ⟨rfl, rfl, by rw [hkept], by rw [hkept], by rw [hkept]⟩
  obtain ⟨hnewlength, hdata, hneworigin, hnewreceived, hnewsequence⟩ := hfields
  refine ⟨_, new, hpack, ?_, ?_⟩
  · rw [unpackSample_data hapi h.data _ harray, hunpack, ← hnew]
    rfl
  · refine ⟨hnewlength, fun j hj type hsignal => ?_, ?_, fun hshares => ?_, fun hshares => ?_, fun hshares => ?_⟩
    · obtain ⟨type', hsignal', htype, -⟩ := h.values j hj
      rw [hsignal] at hsignal'
      cases hsignal'
      rw [hdata]
      exact hsame j type (Nat.zero_le j) (by omega) htype
    · simp only [List.forall_mem_cons, List.not_mem_nil, false_imp_iff, implies_true, and_true]
      refine ⟨horigin, hreceived, hsequence.trans ?_⟩
      cases hshares : shares f src.payload SampleFlags.hasSequence with
      | false => rfl
      | true => rw [Bool.true_and, decide_eq_true (h.sequence hshares)]
    · rw [hneworigin, start_origin hshares]
    · rw [hnewreceived, start_received hshares]
    · rw [hnewsequence, start_sequence hshares (h.sequence hshares)]

end

end VillasNode.Json
