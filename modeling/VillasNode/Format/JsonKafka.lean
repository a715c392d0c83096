import VillasNode.Format.JsonAlignment
import Mathlib.Data.List.Induction

/-!
# Messages of Kafka

`unpackSample` of `lib/formats/json_kafka.cpp`. A value is stored at the index of
its signal, but the length counts the values that there are, and neither is
compared to the capacity of the sample.
-/

namespace VillasNode.JsonKafka

open Jansson Line Json

/-! ## The format -/

structure JsonKafkaFormat (J : Type) extends JsonFormat J where
  list : List Signal
  /-- `time_from_double` of this number of milliseconds in seconds -/
  timeFromMs : BitVec 64 → Timespec

/-- The sample, the indices whose data has been written, and what is returned. -/
structure Unpacked where
  smp : Payload
  written : List Nat
  ret : Int

section
variable {J : Type} (f : JsonKafkaFormat J)

/-- The member with the name of the signal. -/
def valueOf (payload : J) (sig : Signal) : Option J := sig.name.bind (f.api.objectGet payload)

/-- The loop over the signals from index `i` on. What `signal_data_parse_json` returns is not
looked at. -/
def unpackSignals (payload : J) (i : Nat) (smp : Payload) : List Signal → Payload × List Nat
  | [] => (smp, [])
  | sig :: rest =>
    match valueOf f payload sig with
    | none => unpackSignals payload (i + 1) smp rest
    | some value =>
      match signalDataParseJson f.toJsonFormat (smp.data i) sig.type value with
      | none => unpackSignals payload (i + 1) { smp with length := smp.length + 1 } rest
      | some v =>
        let (smp, written) :=
          unpackSignals payload (i + 1) { smp.setData i v with length := smp.length + 1 } rest
        (smp, i :: written)

def unpackTimestamp (payload : J) (smp : Payload) : Payload :=
  match f.api.objectGet payload "timestamp" with
  | none => smp
  | some value =>
    { smp with
      origin := f.timeFromMs (f.api.integerValue value)
      flags := smp.flags ||| SampleFlags.hasTsOrigin }

def unpackSequence (payload : J) (smp : Payload) : Payload :=
  match f.api.objectGet payload "sequence" with
  | none => smp
  | some value =>
    { smp with sequence := f.api.integerValue value, flags := smp.flags ||| SampleFlags.hasSequence }

/-- `JsonKafkaFormat::unpackSample` -/
def unpackSample (json : J) (smp : Payload) : Unpacked :=
  match f.api.objectGet json "payload" with
  | none => ⟨smp, [], -1⟩
  | some payload =>
    let smp := { smp with length := 0, flags := 0, signals := f.signals }
    let smp := unpackTimestamp f payload smp
    let smp := unpackSequence f payload smp
    let (smp, written) := unpackSignals f payload 0 smp f.list
    let smp := if 0 < smp.length then { smp with flags := smp.flags ||| SampleFlags.hasData } else smp
    ⟨smp, written, 0⟩

/-! ## The specification -/

/-- The data of this type is the JSON value. Complex numbers are rounded to `float`. -/
def Holds (type : SignalType) (data : Value) (value : J) : Prop :=
  match type with
  | .complex => ∃ real imag, f.api.unpackReals f.ofInteger value "real" "imag" = some (real, imag) ∧
      data = f.conv.narrow imag ++ f.conv.narrow real
  | type => Encodes f.toJsonFormat type data value

/-- A JSON value of this type. -/
def Typed (type : SignalType) (value : J) : Prop :=
  match type with
  | .complex => (f.api.unpackReals f.ofInteger value "real" "imag").isSome
  | .invalid => False
  | type => detect f.toJsonFormat value = type

/-- The signal at this index has a value. -/
def Present (payload : J) (i : Nat) : Prop :=
  ∃ sig value, f.list[i]? = some sig ∧ valueOf f payload sig = some value

/-- Each value is at the index of its signal, within the length of the sample. -/
structure Decodes (payload : J) (capacity : Nat) (old : Payload) (r : Unpacked) : Prop where
  ret : r.ret = 0
  stored : ∀ i < capacity, ∀ sig value, f.list[i]? = some sig → valueOf f payload sig = some value →
    Holds f sig.type (r.smp.data i) value
  counted : ∀ i < capacity, Present f payload i → i < r.smp.length
  kept : ∀ i < capacity, ¬ Present f payload i → r.smp.data i = old.data i
  inside : ∀ i ∈ r.written, i < capacity

end

section
variable {J : Type} {f : JsonKafkaFormat J} {payload : J}

/-! ## One value -/

theorem signalDataParseJson_typed {type : SignalType} {value : J} (h : Typed f type value) (old : Value) :
    ∃ v, signalDataParseJson f.toJsonFormat old type value = some v ∧ Holds f type v value := by
  cases type with
  | invalid => exact h.elim
  | float =>
    refine ⟨_, rfl, ?_, rfl⟩
    change detect f.toJsonFormat value = .float at h
    unfold detect at h
    split at h <;> first | assumption | cases h
  | integer =>
    refine ⟨_, rfl, ?_, rfl⟩
    change detect f.toJsonFormat value = .integer at h
    unfold detect at h
    split at h <;> first | assumption | cases h
  | boolean =>
    refine ⟨_, rfl, ?_⟩
    change f.api.typeof value = _
    rw [BitVec.extractLsb'_append_eq_right]
    change detect f.toJsonFormat value = .boolean at h
    unfold detect at h
    split at h
    · cases h
    · cases h
    · rename_i htrue
      rw [htrue]
      rfl
    · rename_i hfalse
      rw [hfalse]
      rfl
    · cases h
    · cases h
  | complex =>
    obtain ⟨⟨real, imag⟩, hreals⟩ := Option.isSome_iff_exists.mp h
    refine ⟨f.conv.narrow imag ++ f.conv.narrow real, ?_, real, imag, hreals, rfl⟩
    unfold signalDataParseJson
    rw [hreals]
    rfl

/-! ## The loop over the signals -/

/-- The signal has a value. -/
def hasValue (f : JsonKafkaFormat J) (payload : J) (sig : Signal) : Bool := (valueOf f payload sig).isSome

/-- All values are of the types of their signals. -/
def AllTyped (f : JsonKafkaFormat J) (payload : J) (sigs : List Signal) : Prop :=
  ∀ sig ∈ sigs, ∀ value, valueOf f payload sig = some value → Typed f sig.type value

/-- What the loop over these signals makes of the sample from index `i` on. -/
structure Stores (f : JsonKafkaFormat J) (payload : J) (i : Nat) (sigs : List Signal) (old new : Payload)
    (written : List Nat) : Prop where
  length : new.length = old.length + sigs.countP (hasValue f payload)
  stored : ∀ k sig value, sigs[k]? = some sig → valueOf f payload sig = some value →
    Holds f sig.type (new.data (i + k)) value
  kept : ∀ j, (∀ k sig, sigs[k]? = some sig → hasValue f payload sig → i + k ≠ j) →
    new.data j = old.data j
  written : ∀ j, j ∈ written ↔ ∃ k sig, sigs[k]? = some sig ∧ hasValue f payload sig ∧ i + k = j

theorem Stores.skip {sig : Signal} (hvalue : valueOf f payload sig = none) {i : Nat}
    {rest : List Signal} {old new : Payload} {written : List Nat}
    (h : Stores f payload (i + 1) rest old new written) : Stores f payload i (sig :: rest) old new written := by
  have hnone : hasValue f payload sig = false := by rw [hasValue, hvalue]; rfl
  refine ⟨?_, fun k sig' value hsig hvalue' => ?_, fun j hj => ?_, fun j => ?_⟩
  · rw [h.length, List.countP_cons_of_neg (by simp [hnone])]
  · cases k with
    | zero =>
      cases hsig
      rw [hvalue] at hvalue'
      cases hvalue'
    | succ k =>
      rw [← Nat.add_assoc, Nat.add_right_comm]
      exact h.stored k sig' value hsig hvalue'
  · refine h.kept j fun k sig' hsig hsome => ?_
    rw [Nat.add_right_comm, Nat.add_assoc]
    exact hj (k + 1) sig' hsig hsome
  · rw [h.written]
    constructor
    · rintro ⟨k, sig', hsig, hsome, rfl⟩
      exact ⟨k + 1, sig', hsig, hsome, by omega⟩
    · rintro ⟨k, sig', hsig, hsome, rfl⟩
      cases k with
      | zero =>
        cases hsig
        rw [hnone] at hsome
        cases hsome
      | succ k => exact ⟨k, sig', hsig, hsome, by omega⟩

theorem Stores.store {sig : Signal} {value : J} (hvalue : valueOf f payload sig = some value) {v : Value}
    (hholds : Holds f sig.type v value) {i : Nat} {rest : List Signal} {old new : Payload}
    {written : List Nat}
    (h : Stores f payload (i + 1) rest { old.setData i v with length := old.length + 1 } new written) :
    Stores f payload i (sig :: rest) old new (i :: written) := by
  have hsome : hasValue f payload sig = true := by rw [hasValue, hvalue]; rfl
  refine ⟨?_, fun k sig' value' hsig hvalue' => ?_, fun j hj => ?_, fun j => ?_⟩
  · rw [h.length, List.countP_cons_of_pos hsome, Nat.add_assoc, Nat.add_comm 1]
  · cases k with
    | zero =>
      cases hsig
      rw [hvalue] at hvalue'
      cases hvalue'
      -- Behind index `i` nothing else is written there.
      have hdata : new.data i = v :=
        (h.kept i fun k _ _ _ => by omega).trans ((setData_data old i i v).trans (if_pos rfl))
      change Holds f sig.type (new.data i) value
      rwa [hdata]
    | succ k =>
      rw [← Nat.add_assoc, Nat.add_right_comm]
      exact h.stored k sig' value' hsig hvalue'
  · have hne : i ≠ j := hj 0 sig rfl hsome
    refine (h.kept j fun k sig' hsig hsome' => ?_).trans ((setData_data old i j v).trans (if_neg hne.symm))
    rw [Nat.add_right_comm, Nat.add_assoc]
    exact hj (k + 1) sig' hsig hsome'
  · rw [List.mem_cons, h.written]
    constructor
    · rintro (rfl | ⟨k, sig', hsig, hsome', rfl⟩)
      · exact ⟨0, sig, rfl, hsome, rfl⟩
      · exact ⟨k + 1, sig', hsig, hsome', by omega⟩
    · rintro ⟨k, sig', hsig, hsome', rfl⟩
      cases k with
      | zero => exact .inl rfl
      | succ k => exact .inr ⟨k, sig', hsig, hsome', by omega⟩

theorem stores_unpackSignals {sigs : List Signal} (htyped : AllTyped f payload sigs) (i : Nat)
    (old : Payload) : Stores f payload i sigs old (unpackSignals f payload i old sigs).1
      (unpackSignals f payload i old sigs).2 := by
  induction sigs generalizing i old with
  | nil => exact ⟨rfl, by simp, fun _ _ => rfl, by simp [unpackSignals]⟩
  | cons sig rest ih =>
    unfold AllTyped at htyped
    rw [List.forall_mem_cons] at htyped
    unfold unpackSignals
    cases hvalue : valueOf f payload sig with
    | none => exact (ih htyped.2 (i + 1) old).skip hvalue
    | some value =>
      obtain ⟨v, hparse, hholds⟩ := signalDataParseJson_typed (htyped.1 value hvalue) (old.data i)
      dsimp only
      rw [hparse]
      exact (ih htyped.2 (i + 1) _).store hvalue hholds

/-! ## The sample -/

theorem getElem?_snoc {α : Type} {l : List α} {x z : α} {i : Nat} :
    (l ++ [x])[i]? = some z ↔ l[i]? = some z ∨ i = l.length ∧ z = x := by
  obtain hlt | hge := Nat.lt_or_ge i l.length
  · rw [List.getElem?_append_left hlt]
    constructor
    · exact .inl
    · rintro (h | ⟨rfl, -⟩)
      · exact h
      · exact absurd hlt (Nat.lt_irrefl _)
  · rw [List.getElem?_append_right hge, List.getElem?_eq_none hge, List.getElem?_singleton]
    split
    · simp [show i = l.length by omega, eq_comm]
    · simp [show i ≠ l.length by omega]

theorem lt_countP_iff {α : Type} (p : α → Bool) (l : List α) :
    (∀ (i : Nat) x, l[i]? = some x → p x → i < l.countP p) ↔
      ∀ (i : Nat) x, l[i]? = some x → p x → ∀ k < i, ∀ y, l[k]? = some y → p y := by
  induction l using List.reverseRecOn with
  | nil => simp
  | append_singleton l x ih =>
    have hle : ∀ {i : Nat} {z : α}, (l ++ [x])[i]? = some z → i ≤ l.length := by
      intro i z hz
      have hi := (List.getElem?_eq_some_iff.mp hz).1
      rw [List.length_append, List.length_singleton] at hi
      omega
    by_cases hx : p x
    · rw [List.countP_append, List.countP_singleton, if_pos hx]
      have hall : l.length < l.countP p + 1 ↔ ∀ y ∈ l, p y := by
        have := l.countP_le_length (p := p)
        rw [← List.countP_eq_length]
        omega
      constructor
      · intro h i z hz _ k hk y hy
        have hevery := hall.mp (h l.length x (getElem?_snoc.mpr (.inr ⟨rfl, rfl⟩)) hx)
        obtain hy | ⟨rfl, -⟩ := getElem?_snoc.mp hy
        · exact hevery y (List.mem_of_getElem? hy)
        · have := hle hz
          omega
      · intro h i z hz _
        have hlast := h l.length x (getElem?_snoc.mpr (.inr ⟨rfl, rfl⟩)) hx
        have hevery : ∀ y ∈ l, p y := by
          intro y hy
          obtain ⟨k, hk⟩ := List.mem_iff_getElem?.mp hy
          exact hlast k (List.getElem?_eq_some_iff.mp hk).1 y (getElem?_snoc.mpr (.inl hk))
        have := hle hz
        have := hall.mpr hevery
        omega
    · rw [List.countP_append, List.countP_singleton, if_neg hx, Nat.add_zero]
      -- The last element changes neither side.
      have hfront : ∀ {i : Nat} {z : α}, (l ++ [x])[i]? = some z → p z → l[i]? = some z := by
        intro i z hz hpz
        obtain hz | ⟨-, rfl⟩ := getElem?_snoc.mp hz
        · exact hz
        · exact absurd hpz hx
      constructor
      · intro h i z hz hpz k hk y hy
        have hi := (List.getElem?_eq_some_iff.mp (hfront hz hpz)).1
        refine ih.mp (fun i z hz => h i z (getElem?_snoc.mpr (.inl hz))) i z (hfront hz hpz) hpz k hk y ?_
        obtain hy | ⟨rfl, -⟩ := getElem?_snoc.mp hy
        · exact hy
        · omega
      · intro h i z hz hpz
        exact ih.mpr (fun i z hz hpz k hk y hy => h i z (getElem?_snoc.mpr (.inl hz)) hpz k hk y
          (getElem?_snoc.mpr (.inl hy))) i z (hfront hz hpz) hpz

/-! ## The sample -/

theorem unpackSample_stores {json : J} (hpayload : f.api.objectGet json "payload" = some payload)
    (htyped : AllTyped f payload f.list) (old : Payload) :
    (unpackSample f json old).ret = 0 ∧ ∃ start new, start.length = 0 ∧ start.data = old.data ∧
      Stores f payload 0 f.list start new (unpackSample f json old).written ∧
      (unpackSample f json old).smp.length = new.length ∧ (unpackSample f json old).smp.data = new.data := by
  have htimestamp (smp : Payload) : (unpackTimestamp f payload smp).length = smp.length ∧
      (unpackTimestamp f payload smp).data = smp.data := by
    unfold unpackTimestamp
    split <;> exact ⟨rfl, rfl⟩
  have hsequence (smp : Payload) : (unpackSequence f payload smp).length = smp.length ∧
      (unpackSequence f payload smp).data = smp.data := by
    unfold unpackSequence
    split <;> exact ⟨rfl, rfl⟩
  unfold unpackSample
  rw [hpayload]
  dsimp only
  refine ⟨rfl, _, _, ?_, ?_, stores_unpackSignals htyped 0 _, ?_, ?_⟩
  · rw [(hsequence _).1, (htimestamp _).1]
  · rw [(hsequence _).2, (htimestamp _).2]
  · split <;> rfl
  · split <;> rfl

theorem present_iff {i : Nat} : Present f payload i ↔
    ∃ sig, f.list[i]? = some sig ∧ hasValue f payload sig := by
  unfold Present hasValue
  simp only [Option.isSome_iff_exists, exists_and_left]

theorem counted_iff : (∀ i, Present f payload i → i < f.list.countP (hasValue f payload)) ↔
    ∀ i, Present f payload i → ∀ k < i, Present f payload k := by
  have hcount := lt_countP_iff (hasValue f payload) f.list
  constructor
  · intro h i hi k hk
    obtain ⟨sig, hsig, hsome⟩ := present_iff.1 hi
    have hlt := (List.getElem?_eq_some_iff.mp hsig).1
    have hget := List.getElem?_eq_getElem (show k < f.list.length by omega)
    refine present_iff.2 ⟨_, hget, ?_⟩
    exact hcount.mp (fun i sig hsig hsome => h i (present_iff.2 ⟨sig, hsig, hsome⟩)) i sig hsig hsome
      k hk _ hget
  · intro h i hi
    obtain ⟨sig, hsig, hsome⟩ := present_iff.1 hi
    refine hcount.mpr (fun i sig hsig hsome k hk sig' hsig' => ?_) i sig hsig hsome
    obtain ⟨sig'', hsig'', hsome'⟩ := present_iff.1 (h i (present_iff.2 ⟨sig, hsig, hsome⟩) k hk)
    rw [hsig'] at hsig''
    cases hsig''
    exact hsome'

/-- The values are where they belong exactly when the signals that have one are the first ones, as
many as the sample can hold. -/
theorem decodes_iff {json : J} (hpayload : f.api.objectGet json "payload" = some payload)
    (htyped : AllTyped f payload f.list) (capacity : Nat) (old : Payload) :
    Decodes f payload capacity old (unpackSample f json old) ↔
      ∀ i, Present f payload i → i < capacity ∧ ∀ k < i, Present f payload k := by
  obtain ⟨hret, start, new, hzero, hdata, hstores, hlength, hnew⟩ := unpackSample_stores hpayload htyped old
  have hcount : (unpackSample f json old).smp.length = f.list.countP (hasValue f payload) := by
    rw [hlength, hstores.length, hzero, Nat.zero_add]
  have hwritten (i : Nat) : i ∈ (unpackSample f json old).written ↔ Present f payload i := by
    rw [hstores.written, present_iff]
    constructor
    · rintro ⟨k, sig, hsig, hsome, rfl⟩
      exact ⟨sig, by rwa [Nat.zero_add], hsome⟩
    · rintro ⟨sig, hsig, hsome⟩
      exact ⟨i, sig, hsig, hsome, Nat.zero_add i⟩
  constructor
  · intro h
    have hinside : ∀ i, Present f payload i → i < capacity := fun i hi => h.inside i ((hwritten i).mpr hi)
    have hfront := counted_iff.1 fun i hi => by
      rw [← hcount]
      exact h.counted i (hinside i hi) hi
    exact fun i hi => ⟨hinside i hi, hfront i hi⟩
  · intro h
    refine ⟨hret, fun i hi sig value hsig hvalue => ?_, fun i hi hpresent => ?_, fun i hi hpresent => ?_,
      fun i hi => ?_⟩
    · rw [hnew, ← Nat.zero_add i]
      exact hstores.stored i sig value hsig hvalue
    · rw [hcount]
      exact counted_iff.2 (fun i hi => (h i hi).2) i hpresent
    · rw [hnew, hstores.kept i, hdata]
      rintro k sig hsig hsome rfl
      rw [Nat.zero_add] at hpresent
      exact hpresent (present_iff.2 ⟨sig, hsig, hsome⟩)
    · exact (h i ((hwritten i).mp hi)).1

end

/-- Two integers `a` and `b`, decoded from messages of trees. -/
def exampleKafka : JsonKafkaFormat Tree where
  toJsonFormat := { exampleFormat with types := [.integer, .integer] }
  list := [⟨some "a", .integer⟩, ⟨some "b", .integer⟩]
  timeFromMs := fun _ => ⟨0, 0⟩

def kafkaSample : Payload := ⟨0, 0, 0, 0, ⟨0, 0⟩, ⟨0, 0⟩, fun _ => 0⟩

/-- A message with these members in its payload. -/
def message (members : List (String × Tree)) : Tree := .object [("payload", .object members)]

/-- The value of `a` is at index 0. -/
theorem decodes_first : Decodes exampleKafka (.object [("a", .integer 7)]) 2 kafkaSample
    (unpackSample exampleKafka (message [("a", .integer 7)]) kafkaSample) := by
  have hnone : valueOf exampleKafka (.object [("a", .integer 7)]) ⟨some "b", .integer⟩ = none := rfl
  refine (decodes_iff rfl ?_ 2 kafkaSample).mpr fun i hi => ?_
  · intro sig hsig value hvalue
    rcases List.mem_cons.mp hsig with rfl | hsig
    · cases hvalue
      rfl
    · cases List.mem_singleton.mp hsig
      rw [hnone] at hvalue
      cases hvalue
  · obtain ⟨sig, value, hsig, hvalue⟩ := hi
    match i, hsig with
    | 0, _ => exact ⟨by decide, by simp⟩
    | 1, rfl =>
      rw [hnone] at hvalue
      cases hvalue

/-- The value of `b` is at index 1, behind the only value that counts. Then the sample is too small
for it. -/
theorem hidden_second : ¬ Decodes exampleKafka (.object [("b", .integer 7)]) 2 kafkaSample
      (unpackSample exampleKafka (message [("b", .integer 7)]) kafkaSample) ∧
    ¬ Decodes exampleKafka (.object [("a", .integer 7), ("b", .integer 8)]) 1 kafkaSample
      (unpackSample exampleKafka (message [("a", .integer 7), ("b", .integer 8)]) kafkaSample) := by
  constructor
  · intro h
    have hcount := h.counted 1 (by decide) ⟨⟨some "b", .integer⟩, .integer 7, rfl, rfl⟩
    exact absurd hcount (by decide)
  · intro h
    exact absurd (h.inside 1 (by decide)) (by decide)

end VillasNode.JsonKafka
