import VillasNode.Format.JsonLoops

/-!
# The format json.reserve

`lib/formats/json_reserve.cpp`. A value is a record with the name of its signal,
or with a generated name that `unpackSample` does not know. `unpackSample` returns
1 for a sample with values, which `scan` takes for a failure.
-/

namespace VillasNode.JsonReserve

open Jansson Line Json MachineInt

/-- The name and unit are `nullptr` where there is none. -/
structure ReserveSignal where
  name : Option String
  unit : Option String
  enabled : Bool

structure JsonReserveFormat (J : Type) where
  api : Api J
  strings : Strings J
  /-- `json_int_t` to `double` -/
  ofInteger : BitVec 64 → Value
  list : List ReserveSignal
  /-- The index of the signal that `vlist_lookup_name` finds. -/
  lookup : String → Option Nat
  /-- `time_to_double` in milliseconds as an integer -/
  toMs : Timespec → BitVec 64
  /-- `time_from_double` of milliseconds -/
  fromMs : Value → Timespec
  /-- `0 <` of `double` -/
  positive : Value → Bool

structure ReserveSample where
  payload : Payload
  signals : List ReserveSignal

section
variable {J : Type} (f : JsonReserveFormat J)

/-! ## Packing -/

/-- The name in the record of the signal at index `i`. -/
def nameOf (sig : ReserveSignal) (i : Nat) : String :=
  match sig.name with
  | some name => name
  | none => "signal" ++ toString i

/-- The record of the value at index `i`. `none` if `json_pack_ex` fails. -/
def packRecord (created sequence : Option J) (sig : ReserveSignal) (i : Nat) (v : Value) : Option J :=
  (f.api.real v).map fun value =>
    let json := f.api.objectSet f.api.object "name" (f.strings.string (nameOf sig i))
    let json := f.api.objectSet json "value" value
    let json := f.api.objectSetNew json "unit" (sig.unit.map f.strings.string)
    let json := f.api.objectSetNew json "created" created
    f.api.objectSetNew json "sequence" sequence

/-- The loop over `n` values from index `i` on. -/
def packRecords (smp : ReserveSample) (created sequence : Option J) (json : J) (i : Nat) : Nat → Option J
  | 0 => some json
  | n + 1 =>
    match smp.signals[i]? with
    | none => none
    | some sig =>
      let record := packRecord f created sequence sig i (smp.payload.data i)
      packRecords smp created sequence (f.api.arrayAppendNew json record) (i + 1) n

/-- `JsonReserveFormat::packSample`. `none` for `-1`. -/
def packSample (smp : ReserveSample) : Option J :=
  let s := smp.payload
  let created := if hasFlag s.flags SampleFlags.hasTsOrigin then some (f.api.integer (f.toMs s.origin)) else none
  let sequence := if hasFlag s.flags SampleFlags.hasSequence then some (f.api.integer s.sequence) else none
  (packRecords f smp created sequence f.api.array 0 s.length).map fun data =>
    f.api.objectSet f.api.object "measurements" data

/-! ## Unpacking -/

def isSpace (c : Char) : Bool := [' ', '\t', '\n', '\x0b', '\x0c', '\r'].contains c

/-- `%d` of `sscanf`. The number is limited to a `long`, and narrowed to an `int`. -/
def scanInt (cs : List Char) : Option Int :=
  let (negative, cs) :=
    match cs.dropWhile isSpace with
    | '-' :: cs => (true, cs)
    | '+' :: cs => (false, cs)
    | cs => (false, cs)
  match cs.takeWhile Char.isDigit with
  | [] => none
  | digits =>
    let n : Int := Nat.ofDigitChars 10 digits 0
    let n := if negative then max (-9223372036854775808) (-n) else min 9223372036854775807 n
    some (BitVec.ofInt 32 n).toInt

/-- `sscanf(name, "signal_%d", &idx)` -/
def scanName (name : String) : Option Int :=
  match name.toList with
  | 's' :: 'i' :: 'g' :: 'n' :: 'a' :: 'l' :: '_' :: cs => scanInt cs
  | _ => none

/-- The index of the value with this name, unless it is left out. -/
def indexOf (name : String) : Option Int :=
  match f.lookup name with
  | some i =>
    match f.list[i]? with
    | some sig => if sig.enabled then some (i : Int) else none
    | none => none
  | none => scanName name

/-- `s` of `json_unpack`. -/
def unpackString (json : J) : Option String :=
  if f.api.typeof json = .string then some (f.strings.stringValue json) else none

/-- `json_unpack_ex` of a record: the name, the value, and the time, which is what it was before without
a member for it. -/
def unpackRecord (json : J) (created : Value) : Option (String × Value × Value) :=
  if f.api.typeof json ≠ .object then none
  else
    ((f.api.objectGet json "name").bind (unpackString f)).bind fun name =>
      let unit := f.api.objectGet json "unit"
      if unit.isSome ∧ (unit.bind (unpackString f)).isNone then none
      else
        ((f.api.objectGet json "value").bind (f.api.unpackNumber f.ofInteger)).bind fun value =>
          match f.api.objectGet json "created" with
          | none => some (name, value, created)
          | some json => (f.api.unpackNumber f.ofInteger json).map fun created => (name, value, created)

/-- The value at index `i`, which the length covers then. -/
def store (smp : Payload) (i : Nat) (value : Value) : Payload :=
  { smp.setData i value with length := if toInt smp.length ≤ i then i + 1 else smp.length }

/-- The loop over the records, and whether it comes to its end. -/
def unpackRecords (capacity : Nat) (smp : Payload) (created : Value) : List J → Payload × Value × Bool
  | [] => (smp, created, true)
  | json :: rest =>
    match unpackRecord f json created with
    | none => (smp, created, false)
    | some (name, value, created) =>
      match indexOf f name with
      | none => unpackRecords capacity smp created rest
      | some idx =>
        if idx < 0 then (smp, created, false)
        else if idx < toInt capacity then
          unpackRecords capacity (store smp idx.toNat value) created rest
        else unpackRecords capacity smp created rest

/-- `JsonReserveFormat::unpackSample`. The time is -1 at first. -/
def unpackSample (json : J) (capacity : Nat) (smp : Payload) : Payload × Json.Outcome :=
  if f.api.typeof json ≠ .object then (smp, .ret (-1))
  else
    match (f.api.objectGet json "setpoints").or (f.api.objectGet json "measurements") with
    | none => (smp, .ret (-1))
    | some data =>
      if f.api.typeof data ≠ .array then (smp, .ret (-1))
      else
        let smp := { smp with flags := 0, length := 0 }
        match unpackRecords f capacity smp 0xbff0000000000000 (f.api.elements data) with
        | (smp, _, false) => (smp, .ret (-1))
        | (smp, created, true) =>
          let smp := if 0 < smp.length then { smp with flags := smp.flags ||| SampleFlags.hasData } else smp
          let smp :=
            if f.positive created then
              { smp with origin := f.fromMs created, flags := smp.flags ||| SampleFlags.hasTsOrigin }
            else smp
          (smp, .ret (if 0 < smp.length then 1 else 0))

/-- The virtual functions of `JsonReserveFormat`. -/
def JsonReserveFormat.virtual : Virtual J ReserveSample where
  api := f.api
  packSample := packSample f
  unpackSample := unpackSample f

/-! ## The specification -/

/-- The same length and the same values. -/
structure Restored (src : ReserveSample) (new : Payload) : Prop where
  length : new.length = src.payload.length
  values : ∀ j < src.payload.length, new.data j = src.payload.data j

/-- Whatever a sample of this capacity holds before, `unpackSample` restores what `packSample` packs. -/
def RestoresSample (smp : ReserveSample) (capacity : Nat) : Prop :=
  ∀ json, packSample f smp = some json → ∀ old, ∃ new ret,
    unpackSample f json capacity old = (new, .ret ret) ∧ 0 ≤ ret ∧ Restored smp new

/-- Samples of these capacities. -/
def receiversOf (capacities : List Nat) (old : Nat → Payload) : List Receiver :=
  capacities.mapIdx fun i capacity => ⟨capacity, old i⟩

/-- `unpackSamples` returns all samples of the array of `packSamples`. -/
def RestoresArray (smps : List ReserveSample) (capacities : List Nat) : Prop :=
  ∀ old, ∃ new, unpackSamples f.virtual (packSamples f.virtual smps).1 (receiversOf capacities old) =
    (new, .ret smps.length) ∧ ReceivedAll Restored smps new

/-- `scan` returns all samples of the file that `print` writes. -/
def RestoresFile (d : Documents J) (smps : List ReserveSample) (capacities : List Nat) : Prop :=
  ∀ old, ∃ new file, scan f.virtual d 0 ⟨(print f.virtual d.toText 0 smps).1, false⟩
    (receiversOf capacities old) = (new, file, .ret smps.length) ∧ ReceivedAll Restored smps new

/-! ## When it is met -/

/-- The signals are enabled, and found by their names, which are different and not generated ones. -/
structure Signals : Prop where
  lookup : ∀ name, f.lookup name = f.list.findIdx? fun sig => sig.name = some name
  distinct : ∀ (i j : Nat) (a b : ReserveSignal) (name : String), f.list[i]? = some a → f.list[j]? = some b →
    a.name = some name → b.name = some name → i = j
  plain : ∀ sig ∈ f.list, ∀ i : Nat, sig.name ≠ some ("signal" ++ toString i)
  enabled : ∀ sig ∈ f.list, sig.enabled

/-- Finite values of the signals. -/
structure Sent (smp : ReserveSample) : Prop where
  signals : smp.signals = f.list
  length : smp.payload.length ≤ f.list.length
  finite : ∀ j < smp.payload.length, finite (smp.payload.data j)

/-- There are samples to receive all samples, with enough room. -/
structure Fits (smps : List ReserveSample) (capacities : List Nat) : Prop where
  length : smps.length ≤ capacities.length
  fits : ∀ (i : Nat) (smp : ReserveSample) (capacity : Nat), smps[i]? = some smp →
    capacities[i]? = some capacity → smp.payload.length ≤ capacity ∧ capacity < 2 ^ 32

/-- The signal at this index has a name. -/
def Named (j : Nat) : Prop := ∃ sig, f.list[j]? = some sig ∧ sig.name.isSome

/-- Each value has a name of its own, and its index is compared to a capacity that is an `int`. -/
def Restorable (smp : ReserveSample) (capacity : Nat) : Prop :=
  ∀ j < smp.payload.length, Named f j ∧ capacity < 2 ^ 31

end

section
variable {J : Type} {f : JsonReserveFormat J}

/-! ## One record -/

theorem typeof_objectSetNew {api : Api J} (hapi : api.Lawful) (json : J) (k : String) (v : Option J) :
    api.typeof (api.objectSetNew json k v) = api.typeof json := by
  cases v with
  | none => rfl
  | some v => exact hapi.typeof_objectSet json k v

theorem objectGet_setNew {api : Api J} (hapi : api.Lawful) {json : J} (htype : api.typeof json = .object)
    {k : String} (hget : api.objectGet json k = none) (v : Option J) (k' : String) :
    api.objectGet (api.objectSetNew json k v) k' = if k' = k then v else api.objectGet json k' := by
  cases v with
  | none =>
    split
    · rename_i hk
      rw [hk]
      exact hget
    · rfl
  | some v => exact hapi.objectGet_set json k v k' htype

theorem record_get {api : Api J} (hapi : api.Lawful) (name value : J) (unit created sequence : Option J) :
    let json := api.objectSet (api.objectSet api.object "name" name) "value" value
    let json := api.objectSetNew json "unit" unit
    let json := api.objectSetNew json "created" created
    let json := api.objectSetNew json "sequence" sequence
    api.typeof json = .object ∧ api.objectGet json "name" = some name ∧
      api.objectGet json "value" = some value ∧ api.objectGet json "unit" = unit ∧
      api.objectGet json "created" = created := by
  have hname : api.typeof (api.objectSet api.object "name" name) = .object := by
    rw [hapi.typeof_objectSet, hapi.typeof_object]
  generalize hjson : api.objectSet (api.objectSet api.object "name" name) "value" value = json
  have htype : api.typeof json = .object := by
    rw [← hjson, hapi.typeof_objectSet, hname]
  have hget (k : String) : api.objectGet json k =
      if k = "value" then some value else if k = "name" then some name else none := by
    rw [← hjson, hapi.objectGet_set _ _ _ _ hname, hapi.objectGet_set _ _ _ _ hapi.typeof_object,
      hapi.objectGet_object]
  have hunit := objectGet_setNew hapi htype (hget "unit") unit
  have htype' := (typeof_objectSetNew hapi json "unit" unit).trans htype
  have hcreated := objectGet_setNew hapi htype' ((hunit "created").trans (hget "created")) created
  have htype'' := (typeof_objectSetNew hapi _ "created" created).trans htype'
  have hsequence := objectGet_setNew hapi htype''
    ((hcreated "sequence").trans ((hunit "sequence").trans (hget "sequence"))) sequence
  dsimp only
  refine ⟨(typeof_objectSetNew hapi _ "sequence" sequence).trans htype'', ?_, ?_, ?_, ?_⟩
  · rw [hsequence, if_neg (by decide), hcreated, if_neg (by decide), hunit, if_neg (by decide), hget]
    rfl
  · rw [hsequence, if_neg (by decide), hcreated, if_neg (by decide), hunit, if_neg (by decide), hget]
    rfl
  · rw [hsequence, if_neg (by decide), hcreated, if_neg (by decide), hunit, if_pos rfl]
  · rw [hsequence, if_neg (by decide), hcreated, if_pos rfl]

theorem packRecord_some (hapi : f.api.Lawful) (hstrings : f.strings.Lawful f.api) {created : Option J}
    (hcreated : ∀ json, created = some json → ∃ v, f.api.unpackNumber f.ofInteger json = some v)
    (sequence : Option J) (sig : ReserveSignal) (i : Nat) {v : Value} (hv : finite v) :
    ∃ record, packRecord f created sequence sig i v = some record ∧ ∀ old, ∃ new,
      unpackRecord f record old = some (nameOf sig i, v, new) := by
  obtain ⟨value, hvalue, hreal, hback⟩ := hapi.real v hv
  unfold packRecord
  rw [hvalue]
  obtain ⟨htype, hname, hget, hunit, hget'⟩ := record_get hapi (f.strings.string (nameOf sig i)) value
    (sig.unit.map f.strings.string) created sequence
  have hstring (s : String) : unpackString f (f.strings.string s) = some s := by
    rw [unpackString, if_pos (hstrings.typeof_string s), hstrings.stringValue]
  have hnumber : f.api.unpackNumber f.ofInteger value = some v := by
    rw [Api.unpackNumber, hreal, hback]
  have hvalid : ¬((sig.unit.map f.strings.string).isSome ∧
      ((sig.unit.map f.strings.string).bind (unpackString f)).isNone) := by
    cases sig.unit with
    | none => simp
    | some unit => simp [hstring]
  refine ⟨_, rfl, fun old => ?_⟩
  rw [unpackRecord, if_neg (not_not.mpr htype), hname, hget, hunit, hget']
  simp only [Option.bind_some, hstring, hnumber]
  rw [if_neg hvalid]
  cases created with
  | none => exact ⟨old, rfl⟩
  | some json =>
    obtain ⟨new, hnew⟩ := hcreated json rfl
    exact ⟨new, by simp only [hnew, Option.map_some]⟩

/-! ## The names -/

theorem indexOf_named (hsignals : Signals f) {i : Nat} {sig : ReserveSignal} (hsig : f.list[i]? = some sig)
    (hname : sig.name.isSome) : indexOf f (nameOf sig i) = some (i : Int) := by
  obtain ⟨name, hname⟩ := Option.isSome_iff_exists.mp hname
  have hi := (List.getElem?_eq_some_iff.mp hsig).1
  have hget := (List.getElem?_eq_some_iff.mp hsig).2
  have hfind : f.list.findIdx? (fun sig => sig.name = some name) = some i := by
    rw [List.findIdx?_eq_some_iff_getElem]
    refine ⟨hi, by rw [hget]; exact decide_eq_true hname, fun j hj hfirst => ?_⟩
    have hj' := List.getElem?_eq_getElem (Nat.lt_trans hj hi)
    have := hsignals.distinct j i _ sig name hj' hsig (of_decide_eq_true hfirst) hname
    omega
  have hmem : sig ∈ f.list := List.mem_of_getElem? hsig
  unfold indexOf nameOf
  rw [hname]
  dsimp only
  rw [hsignals.lookup, hfind]
  dsimp only
  rw [hsig]
  dsimp only
  rw [if_pos (hsignals.enabled sig hmem)]

theorem scanName_generated (i : Nat) : scanName ("signal" ++ toString i) = none := by
  have hlist : ("signal" ++ toString i).toList =
      's' :: 'i' :: 'g' :: 'n' :: 'a' :: 'l' :: Nat.toDigits 10 i := by
    rw [String.toList_append]
    change _ ++ i.repr.toList = _
    rw [Nat.toList_repr]
    rfl
  unfold scanName
  split
  · rename_i cs hcs
    rw [hlist] at hcs
    simp only [List.cons.injEq, true_and] at hcs
    have hmem : '_' ∈ Nat.toDigits 10 i := by
      rw [hcs]
      exact List.mem_cons_self
    exact absurd hmem Nat.underscore_not_in_toDigits
  · rfl

theorem indexOf_unnamed (hsignals : Signals f) {i : Nat} {sig : ReserveSignal} (hname : sig.name = none) :
    indexOf f (nameOf sig i) = none := by
  have hfind : f.list.findIdx? (fun sig => sig.name = some ("signal" ++ toString i)) = none := by
    rw [List.findIdx?_eq_none_iff]
    intro sig hsig
    exact decide_eq_false (hsignals.plain sig hsig i)
  unfold indexOf nameOf
  rw [hname]
  dsimp only
  rw [hsignals.lookup, hfind]
  exact scanName_generated i

/-! ## All records -/

/-- The records of the values from index `i` on. -/
def Recorded (f : JsonReserveFormat J) (src : Payload) (i : Nat) (records : List J) : Prop :=
  ∀ k record, records[k]? = some record → ∃ sig, f.list[i + k]? = some sig ∧
    ∀ old, ∃ new, unpackRecord f record old = some (nameOf sig (i + k), src.data (i + k), new)

theorem Recorded.tail {src : Payload} {i : Nat} {record : J} {records : List J}
    (h : Recorded f src i (record :: records)) : Recorded f src (i + 1) records := by
  intro k record hrecord
  rw [Nat.add_right_comm, Nat.add_assoc]
  exact h (k + 1) record hrecord

theorem packRecords_some (hapi : f.api.Lawful) (hstrings : f.strings.Lawful f.api) {created : Option J}
    (hcreated : ∀ json, created = some json → ∃ v, f.api.unpackNumber f.ofInteger json = some v)
    (sequence : Option J) {smp : ReserveSample} (hsent : Sent f smp) {i n : Nat}
    (hn : i + n ≤ smp.payload.length) {json : J} (htype : f.api.typeof json = .array) :
    ∃ json' records, packRecords f smp created sequence json i n = some json' ∧
      f.api.typeof json' = .array ∧ f.api.elements json' = f.api.elements json ++ records ∧
      records.length = n ∧ Recorded f smp.payload i records := by
  induction n generalizing i json with
  | zero => exact ⟨json, [], rfl, htype, (List.append_nil _).symm, rfl, fun k record h => by cases h⟩
  | succ n ih =>
    have hlength := hsent.length
    have hsig := List.getElem?_eq_getElem (show i < f.list.length by omega)
    obtain ⟨record, hrecord, hunpack⟩ := packRecord_some hapi hstrings hcreated sequence f.list[i] i
      (hsent.finite i (by omega))
    have htype' : f.api.typeof (f.api.arrayAppend json record) = .array := by
      rw [hapi.typeof_arrayAppend, htype]
    obtain ⟨json', records, hpack, harray, helements, hcount, hrecorded⟩ :=
      @ih (i + 1) (by omega) (f.api.arrayAppend json record) htype'
    refine ⟨json', record :: records, ?_, harray, ?_, by rw [List.length_cons, hcount], ?_⟩
    · unfold packRecords
      rw [hsent.signals, hsig]
      dsimp only
      rw [hrecord]
      exact hpack
    · rw [helements, hapi.elements_append _ _ htype, List.append_assoc]
      rfl
    · intro k record' hrecord'
      cases k with
      | zero =>
        cases hrecord'
        exact ⟨f.list[i], hsig, hunpack⟩
      | succ k =>
        rw [← Nat.add_assoc, Nat.add_right_comm]
        exact hrecorded k record' hrecord'

/-- What the loop makes of the records of `n` values from index `i` on. -/
structure UnpacksBack (f : JsonReserveFormat J) (src : Payload) (i n capacity : Nat) (old new : Payload) :
    Prop where
  kept : ∀ j, j < i ∨ ¬(Named f j ∧ capacity < 2 ^ 31) → new.data j = old.data j
  stored : ∀ j, i ≤ j → j < i + n → Named f j ∧ capacity < 2 ^ 31 → new.data j = src.data j
  length : (∀ j, i ≤ j → j < i + n → Named f j ∧ capacity < 2 ^ 31) → old.length = i →
    new.length = i + n

theorem UnpacksBack.skip {src : Payload} {i n capacity : Nat} (hnot : ¬(Named f i ∧ capacity < 2 ^ 31))
    {old new : Payload} (h : UnpacksBack f src (i + 1) n capacity old new) :
    UnpacksBack f src i (n + 1) capacity old new := by
  refine ⟨fun j hj => ?_, fun j hle hlt hstored => ?_, fun hall _ => ?_⟩
  · exact h.kept j (hj.imp (by omega) id)
  · rcases Nat.eq_or_lt_of_le hle with rfl | hlt'
    · exact absurd hstored hnot
    · exact h.stored j hlt' (by omega) hstored
  · exact absurd (hall i (Nat.le_refl i) (by omega)) hnot

theorem UnpacksBack.store {src : Payload} {i n capacity : Nat} (hstored : Named f i ∧ capacity < 2 ^ 31)
    (hcapacity : i < capacity) {old new : Payload}
    (h : UnpacksBack f src (i + 1) n capacity (store old i (src.data i)) new) :
    UnpacksBack f src i (n + 1) capacity old new := by
  have hdata (j : Nat) : (JsonReserve.store old i (src.data i)).data j =
      if j = i then src.data i else old.data j := setData_data old i j (src.data i)
  refine ⟨fun j hj => ?_, fun j hle hlt hstored' => ?_, fun hall hlength => ?_⟩
  · have hne : j ≠ i := by
      rintro rfl
      rcases hj with hj | hj
      · omega
      · exact hj hstored
    rw [h.kept j (hj.imp (by omega) id), hdata, if_neg hne]
  · rcases Nat.eq_or_lt_of_le hle with rfl | hlt'
    · rw [h.kept i (.inl (Nat.lt_succ_self i)), hdata, if_pos rfl]
    · exact h.stored j hlt' (by omega) hstored'
  · have hstore : (JsonReserve.store old i (src.data i)).length = i + 1 := by
      unfold JsonReserve.store
      rw [hlength, toInt_of_lt (by omega)]
      exact if_pos (Int.le_refl _)
    rw [h.length (fun j hle hlt => hall j (by omega) (by omega)) hstore]
    omega

theorem unpackRecords_cons (hsignals : Signals f) {i capacity : Nat} {sig : ReserveSignal}
    (hsig : f.list[i]? = some sig) (hcapacity : i < capacity) (hunsigned : capacity < 2 ^ 32)
    {record : J} {created created' v : Value}
    (hrecord : unpackRecord f record created = some (nameOf sig i, v, created')) (records : List J)
    (old : Payload) : unpackRecords f capacity old created (record :: records) =
      unpackRecords f capacity (if sig.name.isSome ∧ capacity < 2 ^ 31 then store old i v else old) created'
        records := by
  rw [unpackRecords, hrecord]
  dsimp only
  by_cases hname : sig.name.isSome
  · rw [indexOf_named hsignals hsig hname]
    dsimp only
    rw [if_neg (by omega)]
    obtain hsmall | hlarge := Nat.lt_or_ge capacity (2 ^ 31)
    · rw [toInt_of_lt hsmall, if_pos (by omega), if_pos ⟨hname, hsmall⟩]
      rfl
    · have hneg := toInt_neg hlarge hunsigned
      rw [if_neg (by omega), if_neg (by omega)]
  · rw [indexOf_unnamed hsignals (Option.not_isSome_iff_eq_none.mp hname), if_neg (by simp [hname])]

theorem unpackRecords_recorded (hsignals : Signals f) {src : Payload} {i capacity : Nat}
    {records : List J} (h : Recorded f src i records) (hcapacity : i + records.length ≤ capacity)
    (hunsigned : capacity < 2 ^ 32) (old : Payload) (created : Value) :
    ∃ new created', unpackRecords f capacity old created records = (new, created', true) ∧
      UnpacksBack f src i records.length capacity old new := by
  induction records generalizing i old created with
  | nil =>
    refine ⟨old, created, rfl, fun _ _ => rfl, fun j hle hlt => ?_, fun _ hlength => hlength⟩
    rw [List.length_nil] at hlt
    omega
  | cons record records ih =>
    rw [List.length_cons] at hcapacity ⊢
    obtain ⟨sig, hsig, hunpack⟩ := h 0 record rfl
    obtain ⟨created', hrecord⟩ := hunpack created
    rw [Nat.add_zero] at hsig hrecord
    rw [unpackRecords_cons hsignals hsig (by omega) hunsigned hrecord]
    have hnamed : Named f i ↔ sig.name.isSome := by
      constructor
      · rintro ⟨sig', hsig', hname⟩
        rw [hsig] at hsig'
        cases hsig'
        exact hname
      · exact fun hname => ⟨sig, hsig, hname⟩
    by_cases hstored : sig.name.isSome ∧ capacity < 2 ^ 31
    · rw [if_pos hstored]
      obtain ⟨new, created'', hloop, hback⟩ :=
        @ih (i + 1) h.tail (by omega) (store old i (src.data i)) created'
      exact ⟨new, created'', hloop, hback.store ⟨hnamed.mpr hstored.1, hstored.2⟩ (by omega)⟩
    · rw [if_neg hstored]
      obtain ⟨new, created'', hloop, hback⟩ := @ih (i + 1) h.tail (by omega) old created'
      exact ⟨new, created'', hloop, hback.skip fun hn => hstored ⟨hnamed.mp hn.1, hn.2⟩⟩

/-! ## One sample -/

/-- What becomes of a sample that is packed. -/
structure ComesBack (f : JsonReserveFormat J) (smp : ReserveSample) (capacity : Nat) (old new : Payload) :
    Prop where
  kept : ∀ j < smp.payload.length, ¬(Named f j ∧ capacity < 2 ^ 31) → new.data j = old.data j
  restored : Restorable f smp capacity → Restored smp new

theorem packSample_comesBack (hapi : f.api.Lawful) (hstrings : f.strings.Lawful f.api)
    (hsignals : Signals f) {smp : ReserveSample} (hsent : Sent f smp) :
    ∃ json, packSample f smp = some json ∧ ∀ capacity, smp.payload.length ≤ capacity → capacity < 2 ^ 32 →
      ∀ old, ∃ new, unpackSample f json capacity old = (new, .ret (if 0 < new.length then 1 else 0)) ∧
        ComesBack f smp capacity old new := by
  have hcreated : ∀ json, (if hasFlag smp.payload.flags SampleFlags.hasTsOrigin then
      some (f.api.integer (f.toMs smp.payload.origin)) else none) = some json →
      ∃ v, f.api.unpackNumber f.ofInteger json = some v := by
    intro json hjson
    split at hjson
    · cases hjson
      exact ⟨_, by rw [Api.unpackNumber, hapi.typeof_integer]⟩
    · cases hjson
  obtain ⟨data, records, hpack, harray, helements, hcount, hrecorded⟩ := packRecords_some hapi hstrings
    hcreated (if hasFlag smp.payload.flags SampleFlags.hasSequence then
      some (f.api.integer smp.payload.sequence) else none) hsent (Nat.le_of_eq (Nat.zero_add _))
    hapi.typeof_array
  rw [hapi.elements_array, List.nil_append] at helements
  refine ⟨f.api.objectSet f.api.object "measurements" data, ?_, fun capacity hcapacity hunsigned old => ?_⟩
  · unfold packSample
    dsimp only
    rw [hpack]
    rfl
  · have hobject : f.api.typeof (f.api.objectSet f.api.object "measurements" data) = .object := by
      rw [hapi.typeof_objectSet, hapi.typeof_object]
    have hget (k : String) : f.api.objectGet (f.api.objectSet f.api.object "measurements" data) k =
        if k = "measurements" then some data else none := by
      rw [hapi.objectGet_set _ _ _ _ hapi.typeof_object, hapi.objectGet_object]
    obtain ⟨new, created, hloop, hback⟩ := @unpackRecords_recorded J f hsignals _ _ capacity _ hrecorded
      (by omega) hunsigned { old with flags := 0, length := 0 } 0xbff0000000000000
    rw [unpackSample, if_neg (not_not.mpr hobject), hget, hget, if_neg (by decide), if_pos rfl]
    dsimp only [Option.none_or]
    rw [if_neg (not_not.mpr harray), helements, hloop]
    dsimp only
    -- The flags and the time are set, but neither the length nor the data.
    generalize hflagged : (if 0 < new.length then { new with flags := new.flags ||| SampleFlags.hasData }
      else new) = flagged
    generalize hstamped : (if f.positive created then { flagged with
        origin := f.fromMs created
        flags := flagged.flags ||| SampleFlags.hasTsOrigin } else flagged) = stamped
    have hsame : stamped.length = new.length ∧ stamped.data = new.data := by
      rw [← hstamped, ← hflagged]
      split_ifs <;> exact ⟨rfl, rfl⟩
    refine ⟨stamped, rfl, fun j hj hnot => ?_, fun h => ?_⟩
    · rw [hsame.2]
      exact hback.kept j (.inr hnot)
    · have hall : ∀ j, 0 ≤ j → j < 0 + records.length → Named f j ∧ capacity < 2 ^ 31 :=
        fun j _ hlt => h j (by omega)
      refine ⟨?_, fun j hj => ?_⟩
      · rw [hsame.1, hback.length hall rfl]
        omega
      · rw [hsame.2]
        exact hback.stored j (Nat.zero_le j) (by omega) (h j hj)

/-- The data differs from these values everywhere. -/
def other (src : Payload) : Payload := { src with data := fun j => ~~~src.data j }

theorem ComesBack.restorable {smp : ReserveSample} {capacity : Nat} {new : Payload}
    (h : ComesBack f smp capacity (other smp.payload) new) (hrestored : Restored smp new) :
    Restorable f smp capacity := by
  intro j hj
  by_contra hnot
  have hsame : smp.payload.data j = ~~~smp.payload.data j :=
    (hrestored.values j hj).symm.trans (h.kept j hj hnot)
  have hbit := congrArg (BitVec.getLsbD · 0) hsame
  simp at hbit

theorem restoresSample_iff (hapi : f.api.Lawful) (hstrings : f.strings.Lawful f.api)
    (hsignals : Signals f) {smp : ReserveSample} (hsent : Sent f smp) {capacity : Nat}
    (hcapacity : smp.payload.length ≤ capacity) (hunsigned : capacity < 2 ^ 32) :
    RestoresSample f smp capacity ↔ Restorable f smp capacity := by
  obtain ⟨json, hpack, hback⟩ := packSample_comesBack hapi hstrings hsignals hsent
  have hback := hback capacity hcapacity hunsigned
  constructor
  · intro h
    obtain ⟨new, ret, hunpack, -, hrestored⟩ := h json hpack (other smp.payload)
    obtain ⟨new', hunpack', hcomes⟩ := hback (other smp.payload)
    rw [hunpack] at hunpack'
    cases hunpack'
    exact hcomes.restorable hrestored
  · intro h json' hpack' old
    rw [hpack] at hpack'
    cases hpack'
    obtain ⟨new, hunpack, hcomes⟩ := hback old
    exact ⟨new, _, hunpack, by split <;> decide, hcomes.restored h⟩

/-! ## Many samples -/

/-- A sample without anything. -/
def blank : Payload := ⟨0, 0, 0, 0, ⟨0, 0⟩, ⟨0, 0⟩, fun _ => 0⟩

instance : Nonempty Payload := ⟨blank⟩

theorem receiversOf_get (capacities : List Nat) (old : Nat → Payload) (i : Nat) :
    (receiversOf capacities old)[i]? = capacities[i]?.map fun capacity => ⟨capacity, old i⟩ := by
  unfold receiversOf
  rw [List.getElem?_mapIdx]

theorem packs_all (hapi : f.api.Lawful) (hstrings : f.strings.Lawful f.api) (hsignals : Signals f)
    {smps : List ReserveSample} (hsent : ∀ smp ∈ smps, Sent f smp) :
    Packs f.virtual smps (smps.filterMap (packSample f)) := by
  obtain ⟨values, hvalues⟩ := @packs_of_forall J ReserveSample f.virtual smps fun smp hsmp => by
    obtain ⟨json, hpack, -⟩ := packSample_comesBack hapi hstrings hsignals (hsent smp hsmp)
    exact ⟨json, hpack⟩
  have hfilter := hvalues.filterMap_eq
  change smps.filterMap (packSample f) = values at hfilter
  rwa [hfilter]

/-- The samples are received by any samples of these capacities, in the way that the result says. -/
def Returns (f : JsonReserveFormat J) (ok : Int → Prop) (smps : List ReserveSample)
    (capacities : List Nat) : Prop :=
  ∀ old, ∃ new, Unpacks f.virtual ok (smps.filterMap (packSample f)) (receiversOf capacities old) new ∧
    ReceivedAll Restored smps new

theorem Returns.each (hapi : f.api.Lawful) (hstrings : f.strings.Lawful f.api) (hsignals : Signals f)
    {smps : List ReserveSample} (hsent : ∀ smp ∈ smps, Sent f smp) {capacities : List Nat}
    (hfits : Fits smps capacities) {ok : Int → Prop} (h : Returns f ok smps capacities) {i : Nat}
    {smp : ReserveSample} (hsmp : smps[i]? = some smp) {capacity : Nat}
    (hcapacity : capacities[i]? = some capacity) :
    Restorable f smp capacity ∧ ok (if 0 < smp.payload.length then 1 else 0) := by
  obtain ⟨new, hunpacks, hall⟩ := h fun i => other ((smps[i]?.map (·.payload)).getD blank)
  obtain ⟨json, receiver, payload, ret, hpack, hreceiver, hunpack, hok, hrestored⟩ :=
    hunpacks.each (packs_all hapi hstrings hsignals hsent) hall hsmp
  rw [receiversOf_get, hcapacity, hsmp] at hreceiver
  cases hreceiver
  obtain ⟨json', hpack', hback⟩ :=
    packSample_comesBack hapi hstrings hsignals (hsent smp (List.mem_of_getElem? hsmp))
  obtain ⟨hle, hunsigned⟩ := hfits.fits i smp capacity hsmp hcapacity
  obtain ⟨new', hunpack', hcomes⟩ := hback capacity hle hunsigned (other smp.payload)
  change packSample f smp = some json at hpack
  rw [hpack] at hpack'
  cases hpack'
  change unpackSample f json capacity (other smp.payload) = _ at hunpack
  rw [hunpack] at hunpack'
  cases hunpack'
  rw [← hrestored.length]
  exact ⟨hcomes.restorable hrestored, hok⟩

theorem returns_of_restorable (hapi : f.api.Lawful) (hstrings : f.strings.Lawful f.api)
    (hsignals : Signals f) {smps : List ReserveSample} (hsent : ∀ smp ∈ smps, Sent f smp)
    {capacities : List Nat} (hfits : Fits smps capacities) {ok : Int → Prop}
    (hrestorable : ∀ (i : Nat) (smp : ReserveSample) (capacity : Nat), smps[i]? = some smp →
      capacities[i]? = some capacity → Restorable f smp capacity)
    (hok : ∀ smp ∈ smps, ok (if 0 < smp.payload.length then 1 else 0)) : Returns f ok smps capacities := by
  intro old
  have hroom : Room (fun smp receiver => (smp.payload.length ≤ receiver.capacity ∧
      receiver.capacity < 2 ^ 32) ∧ Restorable f smp receiver.capacity) smps (receiversOf capacities old) := by
    refine ⟨?_, fun i smp receiver hsmp hreceiver => ?_⟩
    · unfold receiversOf
      rw [List.length_mapIdx]
      exact hfits.length
    · rw [receiversOf_get] at hreceiver
      obtain ⟨capacity, hcapacity, rfl⟩ := Option.map_eq_some_iff.mp hreceiver
      exact ⟨hfits.fits i smp capacity hsmp hcapacity, hrestorable i smp capacity hsmp hcapacity⟩
  refine (packs_all hapi hstrings hsignals hsent).unpacks hroom fun smp hsmp json hpack receiver hfit => ?_
  obtain ⟨json', hpack', hback⟩ := packSample_comesBack hapi hstrings hsignals (hsent smp hsmp)
  change packSample f smp = some json at hpack
  rw [hpack] at hpack'
  cases hpack'
  obtain ⟨new, hunpack, hcomes⟩ := hback receiver.capacity hfit.1.1 hfit.1.2 receiver.payload
  have hrestored := hcomes.restored hfit.2
  refine ⟨new, _, hunpack, ?_, hrestored⟩
  rw [hrestored.length]
  exact hok smp hsmp

theorem restoresArray_iff (hapi : f.api.Lawful) (hstrings : f.strings.Lawful f.api)
    (hsignals : Signals f) {smps : List ReserveSample} (hsent : ∀ smp ∈ smps, Sent f smp)
    {capacities : List Nat} (hfits : Fits smps capacities) :
    RestoresArray f smps capacities ↔ smps.length < 2 ^ 31 ∧
      ∀ (i : Nat) (smp : ReserveSample) (capacity : Nat), smps[i]? = some smp →
        capacities[i]? = some capacity → Restorable f smp capacity := by
  have hpacks := packs_all hapi hstrings hsignals hsent
  have hreturns : RestoresArray f smps capacities ↔
      smps.length < 2 ^ 31 ∧ Returns f (0 ≤ ·) smps capacities := by
    unfold RestoresArray Returns
    simp only [hpacks.unpackSamples_iff hapi, and_assoc, exists_and_left, forall_and, forall_const]
  rw [hreturns]
  refine and_congr_right fun _ => ⟨fun h i smp capacity hsmp hcapacity => ?_, fun h => ?_⟩
  · exact (h.each hapi hstrings hsignals hsent hfits hsmp hcapacity).1
  · exact returns_of_restorable hapi hstrings hsignals hsent hfits h fun smp _ => by split <;> decide

theorem restoresFile_iff (hapi : f.api.Lawful) (hstrings : f.strings.Lawful f.api)
    (hsignals : Signals f) {smps : List ReserveSample} (hsent : ∀ smp ∈ smps, Sent f smp)
    {capacities : List Nat} (hfits : Fits smps capacities) (d : Documents J)
    (hfaithful : d.FaithfulAll (smps.filterMap (packSample f))) :
    RestoresFile f d smps capacities ↔ smps.length < 2 ^ 31 ∧ ∀ smp ∈ smps, smp.payload.length = 0 := by
  have hpacks := packs_all hapi hstrings hsignals hsent
  have hreturns : RestoresFile f d smps capacities ↔
      smps.length < 2 ^ 31 ∧ Returns f (· = 0) smps capacities := by
    unfold RestoresFile Returns
    simp only [exists_and_right, hpacks.scan_iff hfaithful, and_assoc, exists_and_left, forall_and,
      forall_const]
  rw [hreturns]
  refine and_congr_right fun _ => ⟨fun h smp hsmp => ?_, fun h => ?_⟩
  · obtain ⟨i, hi⟩ := List.mem_iff_getElem?.mp hsmp
    have hlt : i < capacities.length :=
      Nat.lt_of_lt_of_le (List.getElem?_eq_some_iff.mp hi).1 hfits.length
    have hok := (h.each hapi hstrings hsignals hsent hfits hi (List.getElem?_eq_getElem hlt)).2
    split at hok
    · cases hok
    · omega
  · refine returns_of_restorable hapi hstrings hsignals hsent hfits ?_ fun smp hsmp => ?_
    · intro i smp capacity hi _ j hj
      rw [h smp (List.mem_of_getElem? hi)] at hj
      exact absurd hj (Nat.not_lt_zero j)
    · rw [h smp hsmp]
      rfl

/-- Samples and arrays of them are restored exactly when each value has a signal with a name, and files
exactly when there are no values. -/
theorem restores_iff (hapi : f.api.Lawful) (hstrings : f.strings.Lawful f.api) (hsignals : Signals f)
    {smps : List ReserveSample} (hsent : ∀ smp ∈ smps, Sent f smp) {capacities : List Nat}
    (hfits : Fits smps capacities) (d : Documents J)
    (hfaithful : d.FaithfulAll (smps.filterMap (packSample f))) :
    (∀ (i : Nat) (smp : ReserveSample) (capacity : Nat), smps[i]? = some smp →
        capacities[i]? = some capacity → (RestoresSample f smp capacity ↔ Restorable f smp capacity)) ∧
      (RestoresArray f smps capacities ↔ smps.length < 2 ^ 31 ∧
        ∀ (i : Nat) (smp : ReserveSample) (capacity : Nat), smps[i]? = some smp →
          capacities[i]? = some capacity → Restorable f smp capacity) ∧
      (RestoresFile f d smps capacities ↔ smps.length < 2 ^ 31 ∧ ∀ smp ∈ smps, smp.payload.length = 0) := by
  refine ⟨fun i smp capacity hi hcapacity => ?_, restoresArray_iff hapi hstrings hsignals hsent hfits,
    restoresFile_iff hapi hstrings hsignals hsent hfits d hfaithful⟩
  obtain ⟨hle, hunsigned⟩ := hfits.fits i smp capacity hi hcapacity
  exact restoresSample_iff hapi hstrings hsignals (hsent smp (List.mem_of_getElem? hi)) hle hunsigned

end

/-- A signal `a` and one without a name. -/
def exampleReserve : JsonReserveFormat Tree where
  api := Tree.api
  strings := Tree.strings
  ofInteger := fun v => v
  list := [⟨some "a", none, true⟩, ⟨none, none, true⟩]
  lookup := fun name => [ReserveSignal.mk (some "a") none true, ⟨none, none, true⟩].findIdx? fun sig => sig.name = some name
  toMs := fun _ => 0
  fromMs := fun _ => ⟨0, 0⟩
  positive := fun _ => false

/-- The number 1.5 for this many signals. -/
def exampleValues (length : Nat) : ReserveSample where
  payload := { blank with length, data := fun _ => 0x3ff8000000000000 }
  signals := exampleReserve.list

theorem signals_exampleReserve : Signals exampleReserve := by
  have hname {i : Nat} {sig : ReserveSignal} {name : String} (hsig : exampleReserve.list[i]? = some sig)
      (hname : sig.name = some name) : i = 0 := by
    match i, hsig with
    | 0, _ => rfl
    | 1, hsig =>
      cases hsig
      cases hname
  refine ⟨fun _ => rfl, fun i j a b name ha hb hnamea hnameb => ?_, fun sig hsig i hplain => ?_, by decide⟩
  · rw [hname ha hnamea, hname hb hnameb]
  · have hlist := congrArg (fun name => name.map (·.toList.length)) hplain
    rcases List.mem_cons.mp hsig with rfl | hsig
    · simp at hlist
    · cases List.mem_singleton.mp hsig
      cases hlist

theorem sent_exampleValues {length : Nat} (h : length ≤ 2) : Sent exampleReserve (exampleValues length) :=
  ⟨rfl, h, fun _ _ => (by decide : finite 0x3ff8000000000000)⟩

/-- A file that contains the same document over and over. -/
def repeated (c : BitVec 8) (text : List (BitVec 8)) (json : Tree) : Documents Tree where
  dump _ := c :: text
  cut _ buf := buf
  load _ := some (json, text.length + 1)
  loadf bytes :=
    let rest := bytes.dropWhile (· = newline)
    if (c :: text).isPrefixOf rest then (some json, ⟨rest.drop (text.length + 1), false⟩)
    else (none, ⟨[], true⟩)
  loadf_lt := by
    intro bytes json h
    dsimp only at h ⊢
    split at h
    · rename_i hfront
      have hle := (List.isPrefixOf_iff_prefix.mp hfront).length_le
      have hsub := (List.dropWhile_suffix (· = newline) (l := bytes)).length_le
      rw [if_pos hfront, List.length_drop]
      rw [List.length_cons] at hle
      omega
    · cases h

theorem faithful_repeated {c : BitVec 8} (hc : c ≠ newline) (text : List (BitVec 8)) (json : Tree) :
    (repeated c text json).FaithfulAll [json] := by
  have hblank {blank : List (BitVec 8)} (h : ∀ c ∈ blank, c = newline) (rest : List (BitVec 8)) :
      (blank ++ rest).dropWhile (· = newline) = rest.dropWhile (· = newline) :=
    List.dropWhile_append_of_pos fun c hmem => decide_eq_true (h c hmem)
  refine ⟨fun json' hjson blank h rest => ?_, fun blank h => ?_⟩
  · cases List.mem_singleton.mp hjson
    have hrest : ((c :: text) ++ rest).dropWhile (· = newline) = (c :: text) ++ rest :=
      List.dropWhile_cons_of_neg (by simpa using hc)
    have hfront : (c :: text).isPrefixOf ((c :: text) ++ rest) :=
      List.isPrefixOf_iff_prefix.mpr (List.prefix_append _ _)
    have hdrop : ((c :: text) ++ rest).drop (text.length + 1) = rest := List.drop_left' rfl
    unfold repeated
    dsimp only
    rw [hblank h, hrest, if_pos hfront, hdrop]
  · have hnil := hblank h []
    rw [List.append_nil] at hnil
    unfold repeated
    dsimp only
    rw [hnil]
    rfl

/-- A file with the value of `a`. -/
def exampleDocuments : Documents Tree :=
  repeated 0x7b (ascii "\"measurements\": [\x7b\"name\": \"a\", \"value\": 1.5\x7d]\x7d")
    (.object [("measurements", .array [.object [("name", .string "a"), ("value", .real 0x3ff8000000000000)]])])

theorem fits_one : Fits [exampleValues 1] [1] := by
  refine ⟨Nat.le_refl _, fun i smp capacity hsmp hcapacity => ?_⟩
  match i, hsmp, hcapacity with
  | 0, rfl, rfl => decide

/-- The value of `a` is restored, but not from a file. -/
theorem restores_one : RestoresSample exampleReserve (exampleValues 1) 1 ∧
    RestoresArray exampleReserve [exampleValues 1] [1] ∧
    ¬ RestoresFile exampleReserve exampleDocuments [exampleValues 1] [1] := by
  have hrestorable : Restorable exampleReserve (exampleValues 1) 1 := by
    intro j hj
    match j, hj with
    | 0, _ => exact ⟨⟨_, rfl, rfl⟩, by decide⟩
  have hsent : ∀ smp ∈ [exampleValues 1], Sent exampleReserve smp := by
    simpa using sent_exampleValues (by decide)
  obtain ⟨hsample, harray, hfile⟩ := restores_iff Tree.lawful_api Tree.lawful_strings
    signals_exampleReserve hsent fits_one exampleDocuments (faithful_repeated (by decide) _ _)
  refine ⟨(hsample 0 _ 1 rfl rfl).mpr hrestorable, harray.mpr ⟨by decide, ?_⟩, fun h => ?_⟩
  · intro i smp capacity hsmp hcapacity
    match i, hsmp, hcapacity with
    | 0, rfl, rfl => exact hrestorable
  · exact absurd ((hfile.mp h).2 _ List.mem_cons_self) (by decide)

/-- The value without a name is lost, and every value of a file. -/
theorem lost_values : ¬ RestoresSample exampleReserve (exampleValues 2) 2 ∧
    ¬ RestoresFile exampleReserve exampleDocuments [exampleValues 1] [1] := by
  constructor
  · intro h
    have hrestorable := (restoresSample_iff (f := exampleReserve) Tree.lawful_api Tree.lawful_strings
      signals_exampleReserve (sent_exampleValues (Nat.le_refl 2)) (Nat.le_refl 2) (by decide)).mp h
    obtain ⟨⟨sig, hsig, hname⟩, -⟩ := hrestorable 1 (by decide)
    cases hsig
    cases hname
  · intro h
    have hempty := (restoresFile_iff (f := exampleReserve) Tree.lawful_api Tree.lawful_strings
      signals_exampleReserve (by simpa using sent_exampleValues (by decide)) fits_one exampleDocuments
      (faithful_repeated (by decide) _ _)).mp h
    exact absurd (hempty.2 _ List.mem_cons_self) (by decide)

end VillasNode.JsonReserve
