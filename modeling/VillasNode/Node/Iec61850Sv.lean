import Mathlib.Algebra.GroupWithZero.Nat
import VillasNode.Lib.Members

/-!
# Layout of sampled values

Which fields `iec61850_sv_start`, `iec61850_sv_write` and `iec61850_sv_listener`
of `lib/nodes/iec61850_sv.cpp` add, set and get, and at which offsets. A field
that is added to an ASDU takes the size of its type, behind those before it.
-/

namespace VillasNode.Iec61850Sv

inductive IecType where
  | boolean
  | int8
  | int16
  | int32
  | int64
  | int8u
  | int16u
  | int32u
  | int64u
  | float32
  | float64
  | enumerated
  | codedEnum
  | octetString
  | visibleString
  | objectname
  | objectreference
  | timestamp
  | entrytime
  | bitstring
deriving DecidableEq

structure TypeDescriptor where
  name : String
  iecType : IecType
  size : Nat

def typeDescriptors : List TypeDescriptor :=
  [⟨"boolean", .boolean, 1⟩, ⟨"int8", .int8, 1⟩, ⟨"int16", .int16, 2⟩, ⟨"int32", .int32, 4⟩,
    ⟨"int64", .int64, 8⟩, ⟨"int8u", .int8u, 1⟩, ⟨"int16u", .int16u, 2⟩, ⟨"int32u", .int32u, 4⟩,
    ⟨"int64u", .int64u, 8⟩, ⟨"float32", .float32, 4⟩, ⟨"float64", .float64, 8⟩,
    ⟨"enumerated", .enumerated, 4⟩, ⟨"coded_enum", .codedEnum, 4⟩, ⟨"octet_string", .octetString, 20⟩,
    ⟨"visible_string", .visibleString, 35⟩, ⟨"objectname", .objectname, 20⟩,
    ⟨"objectreference", .objectreference, 20⟩, ⟨"timestamp", .timestamp, 8⟩, ⟨"entrytime", .entrytime, 6⟩,
    ⟨"bitstring", .bitstring, 4⟩]

/-- `iec61850_lookup_type` -/
def lookupType (name : String) : Option TypeDescriptor := typeDescriptors.find? (·.name = name)

/-- `iec61850_parse_signals` of an array: the descriptors, and the size of all of them. -/
def parseSignals (names : List String) : Option (List TypeDescriptor × Nat) :=
  (names.mapM lookupType).map fun signals => (signals, (signals.map TypeDescriptor.size).sum)

/-! ## The publisher -/

/-- The fields that have been added, with their offsets, and the size of the data. -/
structure Asdu where
  fields : List (Nat × Nat)
  size : Nat

/-- `SVPublisher_ASDU_add*` -/
def Asdu.add (asdu : Asdu) (k size : Nat) : Asdu := ⟨asdu.fields ++ [(k, asdu.size)], asdu.size + size⟩

/-- The loop of `iec61850_sv_start` from the signal `k` on. -/
def startLoop (asdu : Asdu) (k : Nat) : List TypeDescriptor → Asdu
  | [] => asdu
  | td :: signals =>
    let asdu :=
      match td.iecType with
      | .int8 => asdu.add k td.size
      | .int32 => asdu.add k td.size
      | .float32 => asdu.add k td.size
      | .float64 => asdu.add k td.size
      | _ => asdu
    startLoop asdu (k + 1) signals

/-- The ASDU that `iec61850_sv_start` makes. -/
def start (signals : List TypeDescriptor) : Asdu := startLoop ⟨[], 0⟩ 0 signals

/-- The loop of `iec61850_sv_write` from the signal `k` on: the fields that are set, with the offsets. -/
def writeLoop (offset k : Nat) : List TypeDescriptor → List (Nat × Nat)
  | [] => []
  | td :: signals =>
    let set :=
      match td.iecType with
      | .int8 | .int32 | .float32 | .float64 => [(k, offset)]
      | _ => []
    set ++ writeLoop (offset + td.size) (k + 1) signals

/-- The fields that `iec61850_sv_write` sets for a sample of this length. -/
def write (signals : List TypeDescriptor) (length : Nat) : List (Nat × Nat) :=
  writeLoop 0 0 (signals.take (min length signals.length))

/-! ## The subscriber -/

/-- The loop of `iec61850_sv_listener` from the signal `j` on, for samples with `sigs` signals: the
fields that are got, with the offsets. -/
def listenerLoop (sigs offset j : Nat) : List TypeDescriptor → List (Nat × Nat)
  | [] => []
  | td :: signals =>
    if sigs ≤ j then listenerLoop sigs offset (j + 1) signals
    else
      let got :=
        match td.iecType with
        | .int8 | .int16 | .int32 | .int8u | .int16u | .int32u | .float32 | .float64 => [(j, offset)]
        | _ => []
      got ++ listenerLoop sigs (offset + td.size) (j + 1) signals

/-- The types that a subscriber has been started with. `iec61850_sv_start` has read a signal for each
of them. -/
structure Subscriber where
  signals : List TypeDescriptor
  sigs : Nat
  started : signals.length ≤ sigs

def listener (s : Subscriber) : List (Nat × Nat) := listenerLoop s.sigs 0 0 s.signals

/-! ## The specification -/

/-- Each field has been added, and it is set and got where it was added. -/
def Agrees (signals : List TypeDescriptor) : Prop :=
  ∀ k < signals.length, ∃ offset, (start signals).fields.lookup k = some offset ∧
    (∀ length, k < length → (write signals length).lookup k = some offset) ∧
    ∀ s : Subscriber, s.signals = signals → (listener s).lookup k = some offset

/-- The types for which there is a case in each of the loops. -/
def published (t : IecType) : Bool := t = .int8 ∨ t = .int32 ∨ t = .float32 ∨ t = .float64

/-! ## Layouts -/

/-- All fields with their offsets. -/
def layout (offset k : Nat) : List TypeDescriptor → List (Nat × Nat)
  | [] => []
  | td :: signals => (k, offset) :: layout (offset + td.size) (k + 1) signals

section
variable {signals : List TypeDescriptor} {td : TypeDescriptor} {asdu : Asdu} {offset i k n : Nat}

theorem layout_lookup (h : i < signals.length) :
    (layout offset k signals).lookup (k + i) = some (offset + ((signals.take i).map TypeDescriptor.size).sum) := by
  induction signals generalizing offset i k with
  | nil => cases h
  | cons td signals ih =>
    rw [layout]
    cases i with
    | zero => exact List.lookup_cons_self
    | succ i =>
      rw [Members.lookup_cons_ne (by omega), show k + (i + 1) = k + 1 + i by omega,
        ih (Nat.lt_of_succ_lt_succ h), List.take_succ_cons, List.map_cons, List.sum_cons, Nat.add_assoc]

theorem start_published (h : published td.iecType) :
    startLoop asdu k (td :: signals) = startLoop (asdu.add k td.size) (k + 1) signals := by
  rw [startLoop]
  unfold published at h
  cases ht : td.iecType <;> simp_all

theorem start_other (h : ¬ published td.iecType) :
    startLoop asdu k (td :: signals) = startLoop asdu (k + 1) signals := by
  rw [startLoop]
  unfold published at h
  cases ht : td.iecType <;> simp_all

theorem write_published (h : published td.iecType) :
    writeLoop offset k (td :: signals) = (k, offset) :: writeLoop (offset + td.size) (k + 1) signals := by
  rw [writeLoop]
  unfold published at h
  cases ht : td.iecType <;> simp_all

theorem listener_published (h : published td.iecType) (hk : k < n) :
    listenerLoop n offset k (td :: signals) = (k, offset) :: listenerLoop n (offset + td.size) (k + 1) signals := by
  rw [listenerLoop, if_neg (Nat.not_le_of_lt hk)]
  unfold published at h
  cases ht : td.iecType <;> simp_all

theorem startLoop_layout (h : ∀ td ∈ signals, published td.iecType) :
    (startLoop asdu k signals).fields = asdu.fields ++ layout asdu.size k signals := by
  induction signals generalizing asdu k with
  | nil => exact (List.append_nil _).symm
  | cons td signals ih =>
    obtain ⟨htd, hsignals⟩ := List.forall_mem_cons.mp h
    rw [start_published htd, ih hsignals, Asdu.add, List.append_assoc]
    rfl

theorem writeLoop_layout (h : ∀ td ∈ signals, published td.iecType) :
    writeLoop offset k signals = layout offset k signals := by
  induction signals generalizing offset k with
  | nil => rfl
  | cons td signals ih =>
    obtain ⟨htd, hsignals⟩ := List.forall_mem_cons.mp h
    rw [write_published htd, ih hsignals, layout]

theorem listenerLoop_layout (h : ∀ td ∈ signals, published td.iecType) (hn : k + signals.length ≤ n) :
    listenerLoop n offset k signals = layout offset k signals := by
  induction signals generalizing offset k with
  | nil => rfl
  | cons td signals ih =>
    obtain ⟨htd, hsignals⟩ := List.forall_mem_cons.mp h
    rw [List.length_cons] at hn
    rw [listener_published htd (by omega), ih hsignals (by omega), layout]

theorem startLoop_mem (h : (i, n) ∈ (startLoop asdu k signals).fields) :
    (i, n) ∈ asdu.fields ∨ ∃ j td, i = k + j ∧ signals[j]? = some td ∧ published td.iecType := by
  induction signals generalizing asdu k with
  | nil => exact Or.inl h
  | cons td signals ih =>
    have hlater {asdu : Asdu} (h : (i, n) ∈ (startLoop asdu (k + 1) signals).fields) :
        (i, n) ∈ asdu.fields ∨
          ∃ j td', i = k + j ∧ (td :: signals)[j]? = some td' ∧ published td'.iecType := by
      obtain h | ⟨j, td', rfl, hj, htd'⟩ := ih h
      · exact Or.inl h
      · exact Or.inr ⟨j + 1, td', by omega, hj, htd'⟩
    by_cases htd : published td.iecType
    · rw [start_published htd] at h
      obtain h | h := hlater h
      · rw [Asdu.add, List.mem_append, List.mem_singleton, Prod.mk.injEq] at h
        obtain h | ⟨rfl, -⟩ := h
        · exact Or.inl h
        · exact Or.inr ⟨0, td, rfl, rfl, htd⟩
      · exact Or.inr h
    · rw [start_other htd] at h
      exact hlater h

end

/-- The layouts agree exactly when all types are ones that can be published. -/
theorem layout_agrees_iff (signals : List TypeDescriptor) :
    Agrees signals ↔ ∀ td ∈ signals, published td.iecType := by
  constructor
  · intro h td htd
    obtain ⟨k, hk, rfl⟩ := List.getElem_of_mem htd
    obtain ⟨offset, hadded, -⟩ := h k hk
    obtain hnil | ⟨j, td, hkj, hj, hpublished⟩ := startLoop_mem (Members.mem_of_lookup hadded)
    · cases hnil
    · rw [← Nat.zero_add j, ← hkj, List.getElem?_eq_getElem hk, Option.some.injEq] at hj
      rwa [hj]
  · intro h k hk
    have hlookup := @layout_lookup signals 0 k 0 hk
    rw [Nat.zero_add, Nat.zero_add] at hlookup
    refine ⟨((signals.take k).map TypeDescriptor.size).sum, ?_, fun length hlength => ?_, ?_⟩
    · rw [start, startLoop_layout h]
      exact hlookup
    · have hk' : k < (signals.take (min length signals.length)).length := by
        rw [List.length_take]
        omega
      have htake := @layout_lookup (signals.take (min length signals.length)) 0 k 0 hk'
      have hfront : (signals.take (min length signals.length)).take k = signals.take k := by
        rw [List.take_take, Nat.min_eq_left (by omega)]
      rw [Nat.zero_add, Nat.zero_add, hfront] at htake
      rw [write, writeLoop_layout fun td htd => h td (List.mem_of_mem_take htd)]
      exact htake
    · rintro s rfl
      rw [listener, listenerLoop_layout h (by rw [Nat.zero_add]; exact s.started)]
      exact hlookup

/-- A field that is not added shifts those behind it for the publisher, but not for `write`. -/
theorem layout_disagrees : ∃ signals, parseSignals ["int16", "int32"] = some (signals, 6) ∧
    (start signals).fields = [(1, 0)] ∧ write signals 2 = [(1, 2)] ∧ ¬ Agrees signals := by
  refine ⟨[⟨"int16", .int16, 2⟩, ⟨"int32", .int32, 4⟩], rfl, rfl, rfl, fun h => ?_⟩
  obtain ⟨offset, hadded, -⟩ := h 0 (Nat.zero_lt_two)
  cases hadded

end VillasNode.Iec61850Sv
