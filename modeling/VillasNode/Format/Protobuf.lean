import VillasNode.Lib.WireFormat
import VillasNode.Format.RoundTrip

/-!
# Protocol buffers

`sprint` and `sscan` of `lib/formats/protobuf.cpp` with the messages of
`lib/formats/villas.proto`, over any codec that protobuf-c may generate. The
size of a message is kept in an `unsigned`, so a message of 4 GiB or more is
cut.
-/

namespace VillasNode.Protobuf

open ByteOrder Line

/-! ## Messages -/

structure PbTimestamp where
  sec : BitVec 32
  nsec : BitVec 32
deriving DecidableEq

/-- `oneof value` -/
inductive PbValue where
  | notSet
  | f (v : Value)
  | i (v : Value)
  | b (v : Bool)
  | z (real imag : BitVec 32)
deriving DecidableEq

structure PbSample where
  type : BitVec 32
  sequence : Option (BitVec 64)
  timestamp : Option PbTimestamp
  values : List PbValue
deriving DecidableEq

/-- `VILLAS__NODE__SAMPLE__TYPE__DATA` -/
def typeData : BitVec 32 := 1

abbrev Message := List PbSample

/-- `get_packed_size`, `pack` and `unpack` of a message. -/
structure Codec where
  packedSize : Message → Nat
  pack : Message → List Byte
  unpack : List Byte → Option Message

/-- What is packed is unpacked, and a part of it has fewer samples, if it is a message. -/
structure Codec.Lawful (codec : Codec) : Prop where
  length : ∀ msg, (codec.pack msg).length = codec.packedSize msg
  unpack_pack : ∀ msg, codec.unpack (codec.pack msg) = some msg
  unpack_cut : ∀ msg n msg', n < codec.packedSize msg →
    codec.unpack ((codec.pack msg).take n) = some msg' → msg'.length < msg.length

/-- The format with the signals that `start` has set. -/
structure ProtobufFormat where
  codec : Codec
  flags : BitVec 32
  signals : Nat
  types : List SignalType

def detect : PbValue → SignalType
  | .f _ => .float
  | .i _ => .integer
  | .b _ => .boolean
  | .z _ _ => .complex
  | .notSet => .invalid

section
variable (f : ProtobufFormat)

/-! ## Printing -/

/-- A value of the type that its signal has. -/
def pbValue (data : Value) : SignalType → PbValue
  | .float => .f data
  | .integer => .i data
  | .boolean => .b (data.extractLsb' 0 8 ≠ 0)
  | .complex => .z (data.extractLsb' 0 32) (data.extractLsb' 32 32)
  | .invalid => .notSet

def sampleFormat (smp : LineSample) (i : Nat) : SignalType := (smp.signals[i]?).getD .invalid

def pbSample (smp : LineSample) : PbSample where
  type := typeData
  sequence :=
    if hasFlag (f.flags &&& smp.payload.flags) SampleFlags.hasSequence then some smp.payload.sequence
    else none
  timestamp :=
    if hasFlag (f.flags &&& smp.payload.flags) SampleFlags.hasTsOrigin then
      some ⟨smp.payload.origin.sec.setWidth 32, smp.payload.origin.nsec.setWidth 32⟩
    else none
  values := (List.range' 0 smp.payload.length).map fun j =>
    pbValue (smp.payload.data j) (sampleFormat smp j)

def message (smps : List LineSample) : Message := smps.map (pbSample f)

/-- `ProtobufFormat::sprint` into a buffer of `len` bytes: what it packs and `*wbytes`, or `none` for
`-1`. The size is an `unsigned`. -/
def sprint (len : Nat) (smps : List LineSample) : Option (List Byte × Nat) :=
  let psz := f.codec.packedSize (message f smps) % 2 ^ 32
  if len < psz then none else some (f.codec.pack (message f smps), psz)

/-! ## Scanning -/

/-- What `sscan` returns instead of a number of samples, or throws. -/
inductive Failure where
  /-- `-1` -/
  | noMessage
  /-- `-1` -/
  | noSignal
  /-- `Parsed non supported message type. Skipping` -/
  | unsupported
  /-- `Received invalid data type in Protobuf payload`, at the index of a sample -/
  | invalidType (received expected : SignalType) (index : Nat)
deriving DecidableEq

def setPbValue (data : Value) (type : SignalType) (val : PbValue) : Value :=
  match type, val with
  | .float, .f v => v
  | .integer, .i v => v
  | .boolean, .b v => data.extractLsb' 8 56 ++ (if v then 1#8 else 0#8)
  | .complex, .z real imag => imag ++ real
  | _, _ => data

/-- The loop over the values of the sample at `index` from value `j` on. -/
def scanValues (capacity index : Nat) (smp : Payload) (j : Nat) :
    List PbValue → Payload × Except Failure Nat
  | [] => (smp, .ok j)
  | val :: rest =>
    if capacity ≤ j then (smp, .ok j)
    else
      match f.types[j]? with
      | none => (smp, .error .noSignal)
      | some type =>
        if type ≠ detect val then (smp, .error (.invalidType (detect val) type index))
        else scanValues capacity index (smp.setData j (setPbValue (smp.data j) type val)) (j + 1) rest

/-- The sample in front of its values. -/
def scanHeader (pb : PbSample) (smp : Payload) : Payload :=
  let smp :=
    match pb.sequence with
    | none => smp
    | some sequence => { smp with flags := smp.flags ||| SampleFlags.hasSequence, sequence }
  match pb.timestamp with
  | none => smp
  | some ts =>
    { smp with
      flags := smp.flags ||| SampleFlags.hasTsOrigin
      origin := ⟨ts.sec.setWidth 64, ts.nsec.setWidth 64⟩ }

def scanSample (capacity index : Nat) (pb : PbSample) (smp : Payload) : Payload × Except Failure Unit :=
  let smp := { smp with flags := 0, signals := f.signals }
  if pb.type ≠ typeData then (smp, .error .unsupported)
  else
    match scanValues f capacity index (scanHeader pb smp) 0 pb.values with
    | (smp, .error e) => (smp, .error e)
    | (smp, .ok j) =>
      ({ smp with
          flags := if 0 < pb.values.length then smp.flags ||| SampleFlags.hasData else smp.flags
          length := j }, .ok ())

/-- The loop over the samples from `index` on. -/
def scanSamples (index : Nat) : Message → List Receiver → List Receiver × Except Failure Nat
  | pb :: msg, smp :: smps =>
    match scanSample f smp.capacity index pb smp.payload with
    | (payload, .error e) => ({ smp with payload } :: smps, .error e)
    | (payload, .ok ()) =>
      let rest := scanSamples (index + 1) msg smps
      ({ smp with payload } :: rest.1, rest.2)
  | _, smps => (smps, .ok index)

/-- `ProtobufFormat::sscan`: the samples, what it returns, and `*rbytes`. -/
structure Scanned where
  smps : List Receiver
  ret : Except Failure Nat
  rbytes : Option Nat

def sscan (buf : List Byte) (smps : List Receiver) : Scanned :=
  match f.codec.unpack buf with
  | none => ⟨smps, .error .noMessage, none⟩
  | some msg =>
    match scanSamples f 0 msg smps with
    | (smps, .error e) => ⟨smps, .error e, none⟩
    | (smps, .ok i) => ⟨smps, .ok i, some (f.codec.packedSize msg)⟩

end

/-! ## Values -/

theorem setPbValue_pbValue {type : SignalType} (htype : type ≠ .invalid) (old data : Value) :
    detect (pbValue data type) = type ∧ SameValue type (setPbValue old type (pbValue data type)) data := by
  cases type with
  | invalid => exact absurd rfl htype
  | float => exact ⟨rfl, rfl⟩
  | integer => exact ⟨rfl, rfl⟩
  | boolean =>
    refine ⟨rfl, ?_⟩
    rw [pbValue, setPbValue, SameValue, BitVec.extractLsb'_append_eq_right]
    by_cases hzero : data.extractLsb' 0 8 = 0 <;> simp [hzero]
  | complex =>
    exact ⟨rfl, @BitVec.extractLsb'_append_extractLsb' 32 32 data⟩

/-- A sample of the signals of the format, with a timestamp in the range of the message. -/
structure PrintableSample (types : List SignalType) (smp : LineSample) : Prop where
  signals : smp.signals = types
  values : ∀ j < smp.payload.length, ∃ type, types[j]? = some type ∧ type ≠ .invalid
  origin : hasFlag smp.payload.flags SampleFlags.hasTsOrigin →
    smp.payload.origin.sec.toNat < 2 ^ 32 ∧ smp.payload.origin.nsec.toNat < 2 ^ 32
  data : hasFlag smp.payload.flags SampleFlags.hasData ↔ 0 < smp.payload.length

/-- The format prints the sequence and the timestamp of the sample. -/
structure Enables (flags : BitVec 32) (smp : Payload) : Prop where
  sequence : hasFlag (flags &&& smp.flags) SampleFlags.hasSequence = hasFlag smp.flags SampleFlags.hasSequence
  origin : hasFlag (flags &&& smp.flags) SampleFlags.hasTsOrigin = hasFlag smp.flags SampleFlags.hasTsOrigin

/-- The same parts with the same contents. -/
structure SameParts (types : List SignalType) (src new : Payload) : Prop where
  sequence : hasFlag new.flags SampleFlags.hasSequence = hasFlag src.flags SampleFlags.hasSequence ∧
    (hasFlag src.flags SampleFlags.hasSequence → new.sequence = src.sequence)
  origin : hasFlag new.flags SampleFlags.hasTsOrigin = hasFlag src.flags SampleFlags.hasTsOrigin ∧
    (hasFlag src.flags SampleFlags.hasTsOrigin → new.origin = src.origin)
  data : hasFlag new.flags SampleFlags.hasData = hasFlag src.flags SampleFlags.hasData
  length : new.length = src.length
  values : ∀ j < src.length, ∀ t, types[j]? = some t → SameValue t (new.data j) (src.data j)

def presentFlags (sequence origin data : Bool) : BitVec 32 :=
  (if sequence then SampleFlags.hasSequence else 0) ||| (if origin then SampleFlags.hasTsOrigin else 0) |||
    (if data then SampleFlags.hasData else 0)

theorem presentFlags_has (sequence origin data : Bool) :
    hasFlag (presentFlags sequence origin data) SampleFlags.hasSequence = sequence ∧
      hasFlag (presentFlags sequence origin data) SampleFlags.hasTsOrigin = origin ∧
      hasFlag (presentFlags sequence origin data) SampleFlags.hasData = data := by
  cases sequence <;> cases origin <;> cases data <;> decide

theorem presentFlags_data (sequence origin data : Bool) :
    presentFlags sequence origin false ||| (if data then SampleFlags.hasData else 0) =
      presentFlags sequence origin data := by
  cases sequence <;> cases origin <;> cases data <;> decide

theorem scanHeader_flags (pb : PbSample) (smp : Payload) :
    (scanHeader pb smp).flags = smp.flags ||| (if pb.sequence.isSome then SampleFlags.hasSequence else 0) |||
      (if pb.timestamp.isSome then SampleFlags.hasTsOrigin else 0) := by
  unfold scanHeader
  cases pb.sequence <;> cases pb.timestamp <;> simp

section
variable {f : ProtobufFormat} {smp : LineSample}

theorem scanValues_printed (hsignals : smp.signals = f.types) {j n capacity : Nat}
    (hvalues : ∀ k, j ≤ k → k < j + n → ∃ type, f.types[k]? = some type ∧ type ≠ .invalid)
    (hcapacity : j + n ≤ capacity) (index : Nat) (old : Payload) :
    ∃ new, scanValues f capacity index old j ((List.range' j n).map fun k =>
        pbValue (smp.payload.data k) (sampleFormat smp k)) = (new, .ok (j + n)) ∧
      ReadsBack f.types smp.payload j n old new := by
  induction n generalizing j old with
  | zero =>
    refine ⟨old, rfl, ⟨old.data, rfl⟩, fun _ _ => rfl, ?_⟩
    intro k t hle hlt
    omega
  | succ n ih =>
    obtain ⟨type, hj, htype⟩ := hvalues j (le_refl j) (by omega)
    have hformat : sampleFormat smp j = type := by rw [sampleFormat, hsignals, hj, Option.getD_some]
    obtain ⟨hdetect, hsame⟩ := setPbValue_pbValue htype (old.data j) (smp.payload.data j)
    obtain ⟨new, hscan, ⟨data, hkept⟩, hbefore, hsame'⟩ := ih (j := j + 1)
      (fun k hle hlt => hvalues k (by omega) (by omega)) (by omega)
      (old.setData j (setPbValue (old.data j) type (pbValue (smp.payload.data j) type)))
    refine ⟨new, ?_, ⟨data, by rw [hkept]; rfl⟩, ?_, ?_⟩
    · rw [List.range'_succ, List.map_cons, scanValues, if_neg (by omega), hj]
      dsimp only
      rw [hformat, if_neg (by simp [hdetect]), hscan, show j + 1 + n = j + (n + 1) by omega]
    · intro k hk
      rw [hbefore k (by omega), setData_data, if_neg (by omega)]
    · intro k t hle hlt ht
      rcases Nat.eq_or_lt_of_le hle with rfl | hlt'
      · rw [hbefore j (by omega), setData_data, if_pos rfl]
        rw [hj] at ht
        cases ht
        exact hsame
      · exact hsame' k t hlt' (by omega) ht

theorem scanSample_pbSample (hf : Enables f.flags smp.payload) (hsmp : PrintableSample f.types smp)
    {capacity : Nat} (hcapacity : smp.payload.length ≤ capacity) (index : Nat) (old : Payload) :
    ∃ new, scanSample f capacity index (pbSample f smp) old = (new, .ok ()) ∧
      SameParts f.types smp.payload new := by
  obtain ⟨start, hstart⟩ : ∃ start, scanHeader (pbSample f smp)
      { old with flags := 0, signals := f.signals } = start := ⟨_, rfl⟩
  obtain ⟨new, hscan, ⟨data, hkept⟩, -, hback⟩ := @scanValues_printed _ _ hsmp.signals 0
    smp.payload.length capacity (fun k _ hlt => hsmp.values k (by omega)) (by omega) index start
  have hvalues : scanValues f capacity index start 0 (pbSample f smp).values =
      (new, .ok smp.payload.length) := by
    rw [Nat.zero_add] at hscan
    exact hscan
  have hlength : (pbSample f smp).values.length = smp.payload.length := by simp [pbSample]
  refine ⟨{ new with
    flags := if 0 < smp.payload.length then new.flags ||| SampleFlags.hasData else new.flags
    length := smp.payload.length }, ?_, ?_⟩
  · have htype : ¬ (pbSample f smp).type ≠ typeData := not_not_intro rfl
    unfold scanSample
    rw [if_neg htype, hstart, hvalues, hlength]
  have hflags : new.flags = presentFlags (hasFlag smp.payload.flags SampleFlags.hasSequence)
      (hasFlag smp.payload.flags SampleFlags.hasTsOrigin) false := by
    have hsome : ∀ {α : Type} (b : Bool) (a : α), (if b then some a else none).isSome = b := by
      intro α b a
      cases b <;> rfl
    have hheader : new.flags = start.flags := by rw [hkept]
    rw [hheader, ← hstart, scanHeader_flags]
    simp [pbSample, hf.sequence, hf.origin, hsome, presentFlags]
  have hdata : hasFlag smp.payload.flags SampleFlags.hasData = decide (0 < smp.payload.length) := by
    rw [Bool.eq_iff_iff, decide_eq_true_eq]
    exact hsmp.data
  have hall : (if 0 < smp.payload.length then new.flags ||| SampleFlags.hasData else new.flags) =
      presentFlags (hasFlag smp.payload.flags SampleFlags.hasSequence)
        (hasFlag smp.payload.flags SampleFlags.hasTsOrigin)
        (hasFlag smp.payload.flags SampleFlags.hasData) := by
    rw [hflags, hdata, ← presentFlags_data _ _ (decide (0 < smp.payload.length))]
    by_cases hpos : 0 < smp.payload.length <;> simp [hpos]
  obtain ⟨hseq, horigin, hdata'⟩ := presentFlags_has (hasFlag smp.payload.flags SampleFlags.hasSequence)
    (hasFlag smp.payload.flags SampleFlags.hasTsOrigin) (hasFlag smp.payload.flags SampleFlags.hasData)
  rw [hall]
  refine ⟨⟨hseq, ?_⟩, ⟨horigin, ?_⟩, hdata', rfl, ?_⟩
  · intro h
    rw [hkept, ← hstart]
    simp only [scanHeader, pbSample, hf.sequence, hf.origin, h, if_true]
    split_ifs <;> rfl
  · intro h
    obtain ⟨hsec, hnsec⟩ := hsmp.origin h
    rw [hkept, ← hstart]
    simp only [scanHeader, pbSample, hf.origin, h, if_true]
    exact congrArg₂ Timespec.mk (truncated_small hsec) (truncated_small hnsec)
  · intro j hj t ht
    exact hback j t (Nat.zero_le j) (by omega) ht

/-! ## Texts -/

/-- As far as `sprint` succeeds, `sscan` of the bytes that it reports returns the samples. -/
def RoundTrip (f : ProtobufFormat) (len : Nat) (smps : List LineSample) (rcvs : List Receiver) : Prop :=
  ∀ buf wbytes, sprint f len smps = some (buf, wbytes) →
    let t := sscan f (buf.take wbytes) rcvs
    t.ret = .ok smps.length ∧
      List.Forall₂ (fun smp rcv => SameParts f.types smp.payload (Receiver.payload rcv)) smps
        (t.smps.take smps.length)

theorem scanSamples_message {smps : List LineSample} {rcvs : List Receiver}
    (hsmps : ∀ smp ∈ smps, Enables f.flags smp.payload ∧ PrintableSample f.types smp)
    (hfits : Fits smps rcvs) (index : Nat) :
    ∃ done, scanSamples f index (message f smps) rcvs = (done ++ rcvs.drop smps.length,
        .ok (index + smps.length)) ∧
      List.Forall₂ (fun smp rcv => SameParts f.types smp.payload (Receiver.payload rcv)) smps done := by
  induction smps generalizing rcvs index with
  | nil => exact ⟨[], by cases rcvs <;> rfl, .nil⟩
  | cons smp smps ih =>
    cases rcvs with
    | nil => cases hfits.length
    | cons rcv rcvs =>
      obtain ⟨⟨hf, hsmp⟩, hsmps⟩ := List.forall_mem_cons.mp hsmps
      obtain ⟨hcapacity, hcapacities⟩ := List.forall_mem_cons.mp hfits.capacity
      obtain ⟨new, hscan, hsame⟩ := scanSample_pbSample hf hsmp hcapacity index rcv.payload
      obtain ⟨done, hrest, hdone⟩ := ih hsmps ⟨Nat.le_of_succ_le_succ hfits.length, hcapacities⟩
        (index + 1)
      refine ⟨{ rcv with payload := new } :: done, ?_, .cons hsame hdone⟩
      have hcons : message f (smp :: smps) = pbSample f smp :: message f smps := rfl
      rw [hcons, scanSamples, hscan]
      dsimp only
      rw [hrest, List.length_cons, List.drop_succ_cons, List.cons_append,
        show index + 1 + smps.length = index + (smps.length + 1) by omega]

theorem scanSamples_le {msg : Message} {rcvs rcvs' : List Receiver} {index n : Nat}
    (h : scanSamples f index msg rcvs = (rcvs', .ok n)) : n ≤ index + msg.length := by
  induction msg generalizing rcvs rcvs' index with
  | nil =>
    cases rcvs <;> cases h <;> simp
  | cons pb msg ih =>
    cases rcvs with
    | nil =>
      cases h
      exact Nat.le_add_right _ _
    | cons rcv rcvs =>
      rw [scanSamples] at h
      split at h
      · cases h
      · have hrest : (scanSamples f (index + 1) msg rcvs).2 = .ok n := congrArg Prod.snd h
        have hle := ih (Prod.ext rfl hrest)
        rw [List.length_cons]
        omega

theorem sscan_cut (hcodec : f.codec.Lawful) {msg : Message} {k : Nat}
    (hk : k < f.codec.packedSize msg) (rcvs : List Receiver) :
    (sscan f ((f.codec.pack msg).take k) rcvs).ret ≠ .ok msg.length := by
  intro h
  unfold sscan at h
  cases hunpack : f.codec.unpack ((f.codec.pack msg).take k) with
  | none =>
    rw [hunpack] at h
    cases h
  | some msg' =>
    have hlt := hcodec.unpack_cut msg k msg' hk hunpack
    rw [hunpack] at h
    dsimp only at h
    split at h
    · cases h
    · next rcvs' i hscan =>
      cases h
      have hle := scanSamples_le hscan
      omega

/-- Samples that are printed are read back, for every buffer and all receivers, exactly when the size
of the message is less than 4 GiB, unless `sprint` gives up. -/
theorem roundTrip_iff {smps : List LineSample} {rcvs : List Receiver} (hcodec : f.codec.Lawful)
    (hsmps : ∀ smp ∈ smps, Enables f.flags smp.payload ∧ PrintableSample f.types smp)
    (hfits : Fits smps rcvs) (len : Nat) :
    RoundTrip f len smps rcvs ↔ f.codec.packedSize (message f smps) < 2 ^ 32 ∨
      len < f.codec.packedSize (message f smps) % 2 ^ 32 := by
  have hmsg : (message f smps).length = smps.length := List.length_map ..
  constructor
  · intro h
    by_contra hnot
    rw [not_or, Nat.not_lt, Nat.not_lt] at hnot
    obtain ⟨hsize, hpsz⟩ := hnot
    have hcut := @sscan_cut _ hcodec (message f smps) (f.codec.packedSize (message f smps) % 2 ^ 32)
      (by omega) rcvs
    rw [hmsg] at hcut
    exact hcut (h _ _ (if_neg (Nat.not_lt.mpr hpsz))).1
  · intro h buf wbytes hprint
    unfold sprint at hprint
    dsimp only at hprint
    split_ifs at hprint with hlen
    have hsize : f.codec.packedSize (message f smps) < 2 ^ 32 := h.resolve_right hlen
    cases hprint
    obtain ⟨done, hscan, hdone⟩ := scanSamples_message hsmps hfits 0
    rw [Nat.mod_eq_of_lt hsize, ← hcodec.length, List.take_length]
    unfold sscan
    rw [hcodec.unpack_pack]
    dsimp only
    rw [hscan, Nat.zero_add]
    refine ⟨rfl, ?_⟩
    dsimp only
    rw [hdone.length_eq, List.take_left]
    exact hdone

end

/-! ## The wire format of `villas.proto` -/

open WireFormat

def varintOf (number : Nat) (fields : List WireFormat.Field) : Option (BitVec 64) :=
  (fields.filterMap fun
    | ⟨n, .varint v⟩ => if n = number then some v else none
    | _ => none).getLast?

def fixed32Of (number : Nat) (fields : List WireFormat.Field) : Option (BitVec 32) :=
  (fields.filterMap fun
    | ⟨n, .fixed32 v⟩ => if n = number then some v else none
    | _ => none).getLast?

def bytesOf (number : Nat) (fields : List WireFormat.Field) : List (List Byte) :=
  fields.filterMap fun
    | ⟨n, .bytes bytes⟩ => if n = number then some bytes else none
    | _ => none

def timestampFields (ts : PbTimestamp) : List WireFormat.Field :=
  [⟨1, .varint (ts.sec.setWidth 64)⟩, ⟨2, .varint (ts.nsec.setWidth 64)⟩]

def unpackTimestamp (bytes : List Byte) : Option PbTimestamp :=
  (decodeFields bytes).bind fun fields =>
    (varintOf 1 fields).bind fun sec =>
      (varintOf 2 fields).map fun nsec => ⟨sec.setWidth 32, nsec.setWidth 32⟩

def valueFields : PbValue → List WireFormat.Field
  | .notSet => []
  | .f v => [⟨1, .fixed64 v⟩]
  | .i v => [⟨2, .varint v⟩]
  | .b v => [⟨3, .varint (if v then 1 else 0)⟩]
  | .z real imag => [⟨4, .bytes (encodeFields [⟨1, .fixed32 real⟩, ⟨2, .fixed32 imag⟩])⟩]

/-- The last field decides. -/
def unpackValue (bytes : List Byte) : Option PbValue :=
  (decodeFields bytes).bind fun fields =>
    match fields.getLast? with
    | some ⟨1, .fixed64 v⟩ => some (.f v)
    | some ⟨2, .varint v⟩ => some (.i v)
    | some ⟨3, .varint v⟩ => some (.b (v ≠ 0))
    | some ⟨4, .bytes bytes⟩ =>
      (decodeFields bytes).bind fun fields =>
        (fixed32Of 1 fields).bind fun real => (fixed32Of 2 fields).map fun imag => .z real imag
    | _ => some .notSet

def sampleFields (pb : PbSample) : List WireFormat.Field :=
  [⟨1, .varint (pb.type.setWidth 64)⟩] ++ (pb.sequence.toList.map fun sequence => ⟨2, .varint sequence⟩) ++
    (pb.timestamp.toList.map fun ts => ⟨4, .bytes (encodeFields (timestampFields ts))⟩) ++
    (pb.values.map fun value => ⟨5, .bytes (encodeFields (valueFields value))⟩)

def unpackSample (bytes : List Byte) : Option PbSample :=
  (decodeFields bytes).bind fun fields =>
    (varintOf 1 fields).bind fun type =>
      ((bytesOf 4 fields).getLast?.elim (some none) fun bytes => (unpackTimestamp bytes).map some).bind
        fun timestamp =>
          ((bytesOf 5 fields).mapM unpackValue).map fun values =>
            ⟨type.setWidth 32, varintOf 2 fields, timestamp, values⟩

def messageFields (msg : Message) : List WireFormat.Field :=
  msg.map fun pb => ⟨1, .bytes (encodeFields (sampleFields pb))⟩

/-- The codec of the wire format, with fields that are not known or of another type left out. -/
def wireCodec : Codec where
  packedSize msg := (encodeFields (messageFields msg)).length
  pack msg := encodeFields (messageFields msg)
  unpack bytes := (decodeFields bytes).bind fun fields => (bytesOf 1 fields).mapM unpackSample

theorem mapM_encode {α : Type} {encode : α → List Byte} {decode : List Byte → Option α}
    (h : ∀ a, decode (encode a) = some a) (xs : List α) : (xs.map encode).mapM decode = some xs := by
  induction xs with
  | nil => rfl
  | cons x xs ih => simp [h, ih]

theorem mapM_length {α β : Type} {f : α → Option β} {xs : List α} {ys : List β}
    (h : xs.mapM f = some ys) : ys.length = xs.length := by
  induction xs generalizing ys with
  | nil =>
    cases h
    rfl
  | cons x xs ih =>
    rw [List.mapM_cons] at h
    obtain ⟨y, -, h⟩ := Option.bind_eq_some_iff.mp h
    obtain ⟨zs, hzs, h⟩ := Option.bind_eq_some_iff.mp h
    cases h
    rw [List.length_cons, List.length_cons, ih hzs]

theorem unpackTimestamp_pack (ts : PbTimestamp) :
    unpackTimestamp (encodeFields (timestampFields ts)) = some ts := by
  rw [unpackTimestamp, decodeFields_encodeFields]
  simp [timestampFields, varintOf]

theorem unpackValue_pack (value : PbValue) :
    unpackValue (encodeFields (valueFields value)) = some value := by
  rw [unpackValue, decodeFields_encodeFields]
  cases value with
  | z real imag => simp [valueFields, decodeFields_encodeFields, fixed32Of]
  | b v => cases v <;> rfl
  | _ => rfl

theorem unpackSample_pack (pb : PbSample) :
    unpackSample (encodeFields (sampleFields pb)) = some pb := by
  obtain ⟨type, sequence, timestamp, values⟩ := pb
  have hvalues : bytesOf 5 (sampleFields ⟨type, sequence, timestamp, values⟩) =
      values.map fun value => encodeFields (valueFields value) := by
    cases sequence <;> cases timestamp <;> simp [sampleFields, bytesOf, List.filterMap_map]
  have htype : varintOf 1 (sampleFields ⟨type, sequence, timestamp, values⟩) =
      some (type.setWidth 64) := by
    cases sequence <;> cases timestamp <;> simp [sampleFields, varintOf, List.filterMap_map]
  have hsequence : varintOf 2 (sampleFields ⟨type, sequence, timestamp, values⟩) = sequence := by
    cases sequence <;> cases timestamp <;> simp [sampleFields, varintOf, List.filterMap_map]
  have htimestamp : bytesOf 4 (sampleFields ⟨type, sequence, timestamp, values⟩) =
      timestamp.toList.map fun ts => encodeFields (timestampFields ts) := by
    cases sequence <;> cases timestamp <;> simp [sampleFields, bytesOf, List.filterMap_map]
  rw [unpackSample, decodeFields_encodeFields, Option.bind_some, htype, Option.bind_some, htimestamp,
    hvalues, mapM_encode unpackValue_pack, hsequence]
  cases timestamp with
  | none => simp
  | some ts => simp [unpackTimestamp_pack]

theorem lawful_wireCodec : wireCodec.Lawful := by
  constructor
  · exact fun _ => rfl
  · intro msg
    have hbytes : bytesOf 1 (messageFields msg) = msg.map fun pb => encodeFields (sampleFields pb) := by
      simp [bytesOf, messageFields, List.filterMap_map]
    simp only [wireCodec, decodeFields_encodeFields, Option.bind_some, hbytes]
    exact mapM_encode unpackSample_pack msg
  · intro msg n msg' hn h
    obtain ⟨fields, hfields, hmap⟩ := Option.bind_eq_some_iff.mp h
    have hlt := decodeFields_cut hn hfields
    have hle : (bytesOf 1 fields).length ≤ fields.length := List.length_filterMap_le ..
    have hlength := mapM_length hmap
    rw [messageFields, List.length_map] at hlt
    omega

/-! ## Messages of 4 GiB -/

/-- The format with `n` integers for each sample. -/
def integersFormat (n : Nat) : ProtobufFormat where
  codec := wireCodec
  flags := SampleFlags.hasTsOrigin ||| SampleFlags.hasSequence ||| SampleFlags.hasData
  signals := 0
  types := List.replicate n .integer

/-- A sample with `n` zeros and nothing else. -/
def zeros (n : Nat) : LineSample where
  payload := ⟨0, n, SampleFlags.hasData, 0, ⟨0, 0⟩, ⟨0, 0⟩, fun _ => 0⟩
  signals := List.replicate n .integer

theorem pbSample_zeros (n : Nat) :
    (pbSample (integersFormat n) (zeros n)).values = List.replicate n (.i 0) := by
  rw [List.eq_replicate_iff]
  refine ⟨by simp [pbSample, zeros], ?_⟩
  intro value hvalue
  obtain ⟨j, hj, rfl⟩ := List.mem_map.mp hvalue
  have hlt : j < n := by
    have h := (List.mem_range'_1.mp hj).2
    rwa [Nat.zero_add] at h
  have hformat : sampleFormat (zeros n) j = .integer := by
    simp [sampleFormat, zeros, hlt]
  rw [hformat]
  rfl

theorem encodeFields_replicate (m : Nat) (field : WireFormat.Field) :
    (encodeFields (List.replicate m field)).length = m * field.encode.length := by
  rw [encodeFields, List.flatMap_replicate, List.length_flatten, List.map_replicate,
    List.sum_replicate_nat]

theorem sampleSize_zeros (n : Nat) :
    4 * n ≤ (encodeFields (sampleFields (pbSample (integersFormat n) (zeros n)))).length := by
  have hvalue : (WireFormat.Field.encode ⟨5, .bytes (encodeFields (valueFields (.i 0)))⟩).length = 4 := by decide
  have hvalues : (encodeFields (((pbSample (integersFormat n) (zeros n)).values.map fun value =>
      WireFormat.Field.mk 5 (.bytes (encodeFields (valueFields value)))))).length = 4 * n := by
    rw [pbSample_zeros, List.map_replicate, encodeFields_replicate, hvalue, Nat.mul_comm]
  rw [← hvalues, sampleFields, encodeFields, encodeFields, List.flatMap_append, List.length_append]
  exact Nat.le_add_left _ _

theorem packedSize_zeros (m n : Nat) :
    m * (4 * n) ≤ wireCodec.packedSize (message (integersFormat n) (List.replicate m (zeros n))) := by
  have hfield : ∀ bytes : List Byte, bytes.length ≤ (WireFormat.Field.encode ⟨1, .bytes bytes⟩).length := by
    intro bytes
    simp only [WireFormat.Field.encode, WireFormat.Payload.encode, List.length_append]
    omega
  change _ ≤ (encodeFields (messageFields (message (integersFormat n) _))).length
  rw [message, List.map_replicate, messageFields, List.map_replicate, encodeFields_replicate]
  exact Nat.mul_le_mul_left m ((sampleSize_zeros n).trans (hfield _))

theorem printable_zeros {n : Nat} (hn : 0 < n) :
    Enables (integersFormat n).flags (zeros n).payload ∧
      PrintableSample (integersFormat n).types (zeros n) := by
  have hflags : (zeros n).payload.flags = SampleFlags.hasData := rfl
  have hformat : (integersFormat n).flags =
      SampleFlags.hasTsOrigin ||| SampleFlags.hasSequence ||| SampleFlags.hasData := rfl
  refine ⟨⟨?_, ?_⟩, rfl, ?_, ?_, ?_⟩
  · rw [hflags, hformat]
    decide
  · rw [hflags, hformat]
    decide
  · intro j hj
    exact ⟨.integer, List.getElem?_replicate_of_lt hj, by decide⟩
  · rw [hflags]
    intro h
    exact absurd h (by decide)
  · rw [hflags]
    exact ⟨fun _ => hn, fun _ => by decide⟩

theorem roundTrip_example :
    RoundTrip (integersFormat 1) 100 [Line.exampleSample] [exampleReceiver] := by
  have hsmps : ∀ smp ∈ [Line.exampleSample], Enables (integersFormat 1).flags smp.payload ∧
      PrintableSample (integersFormat 1).types smp := by
    intro smp hsmp
    rw [List.mem_singleton] at hsmp
    subst hsmp
    refine ⟨by constructor <;> decide, rfl, ?_, fun _ => by decide, by decide⟩
    intro j hj
    obtain rfl : j = 0 := Nat.lt_one_iff.mp hj
    exact ⟨.integer, rfl, by decide⟩
  have hfits : Fits [Line.exampleSample] [exampleReceiver] := by
    constructor
    · decide
    · simp [Line.exampleSample, exampleReceiver]
  exact (roundTrip_iff lawful_wireCodec hsmps hfits 100).mpr (.inl (by decide))

theorem zeros_not_roundTrip {m n len : Nat} (hn : 0 < n) (hsize : 2 ^ 32 ≤ m * (4 * n))
    (hlen : 2 ^ 32 ≤ len) :
    ¬ RoundTrip (integersFormat n) len (List.replicate m (zeros n))
      (List.replicate m ⟨n, (zeros n).payload⟩) := by
  have hpacked := hsize.trans (packedSize_zeros m n)
  have hsmps : ∀ smp ∈ List.replicate m (zeros n), Enables (integersFormat n).flags smp.payload ∧
      PrintableSample (integersFormat n).types smp := by
    intro smp hsmp
    rw [List.eq_of_mem_replicate hsmp]
    exact printable_zeros hn
  have hfits : Fits (List.replicate m (zeros n)) (List.replicate m ⟨n, (zeros n).payload⟩) := by
    constructor
    · simp
    · intro pair hpair
      rw [List.zip_replicate', List.mem_replicate] at hpair
      rw [hpair.2]
      exact le_refl n
  rw [roundTrip_iff (f := integersFormat n) lawful_wireCodec hsmps hfits len]
  change ¬ (wireCodec.packedSize _ < _ ∨ _ < wireCodec.packedSize _ % _)
  omega

/-- 1024 samples with `2 ^ 20` integers each, of about 4 MiB, are not read back. -/
theorem not_roundTrip : ¬ RoundTrip (integersFormat (2 ^ 20)) (2 ^ 33)
    (List.replicate 1024 (zeros (2 ^ 20))) (List.replicate 1024 ⟨2 ^ 20, (zeros (2 ^ 20)).payload⟩) :=
  zeros_not_roundTrip (Nat.two_pow_pos 20) (by omega) (by omega)

end VillasNode.Protobuf
