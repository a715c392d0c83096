import Mathlib.Algebra.GroupWithZero.Nat
import VillasNode.VillasBinary.Memory
import VillasNode.VillasBinary.RoundTrip

/-!
# What `sprint` of villas.binary should write

A message for each sample. `sprint` writes the messages of the samples that fit
into the buffer, and it is not told how many bytes the others need.
-/

namespace VillasNode.VillasBinaryFormat

open ByteOrder

variable (fmt : VillasBinaryFormat)

/-- The message of a sample. There is none for values that cannot be written, or for more of them
than the length of a message can tell. -/
def message (smp : Payload) : Option (List Byte) :=
  if smp.length ≤ 65535 then
    (msgFromSample fmt.conv (fmt.lists smp.signals) smp).map fun m =>
      (if fmt.web then m else msgHton fmt.host m).bytes fmt.host
  else none

def messages : List Payload → Option (List Byte)
  | [] => some []
  | smp :: smps => (fmt.message smp).bind fun bytes => (messages smps).map (bytes ++ ·)

/-- The bytes that the messages of these samples take. -/
def needed (smps : List Payload) : Nat := (smps.map fun smp => msgLen smp.length).sum

/-- How many samples `sprint` gets to with so many bytes. -/
def fitting (room : Nat) : List Payload → Nat
  | [] => 0
  | smp :: smps =>
    if room < msgLen smp.length then 0 else fitting (room - msgLen smp.length) smps + 1

section
variable {fmt} {smp : Payload} {smps : List Payload} {bytes : List Byte} {room : Nat}

theorem encoded_length {m : Msg} (h : msgFromSample fmt.conv (fmt.lists smp.signals) smp = some m) :
    ((if fmt.web then m else msgHton fmt.host m).bytes fmt.host).length = msgLen smp.length := by
  obtain ⟨data, hdata, rfl⟩ := Option.map_eq_some_iff.mp h
  rw [bytes_length, ← writeValues_length hdata]
  split
  · rfl
  · exact congrArg msgLen (convertData_length ..)

theorem message_eq_some : fmt.message smp = some bytes ↔
    smp.length ≤ 65535 ∧ ∃ m, msgFromSample fmt.conv (fmt.lists smp.signals) smp = some m ∧
      (if fmt.web then m else msgHton fmt.host m).bytes fmt.host = bytes := by
  unfold message
  split
  · next hle => rw [Option.map_eq_some_iff, and_iff_right hle]
  · next hlt => exact iff_of_false (by simp) fun h => hlt h.1

theorem message_length (h : fmt.message smp = some bytes) : bytes.length = msgLen smp.length := by
  obtain ⟨-, m, hm, rfl⟩ := message_eq_some.1 h
  exact encoded_length hm

theorem messages_cons_eq_some :
    fmt.messages (smp :: smps) = some bytes ↔
      ∃ first, fmt.message smp = some first ∧
        ∃ rest, fmt.messages smps = some rest ∧ first ++ rest = bytes := by
  rw [messages, Option.bind_eq_some_iff]
  simp only [Option.map_eq_some_iff]

theorem messages_append {more : List Payload} :
    fmt.messages (smps ++ more) =
      (fmt.messages smps).bind fun bytes => (fmt.messages more).map (bytes ++ ·) := by
  induction smps with
  | nil => simp [messages]
  | cons smp smps ih =>
    rw [List.cons_append, messages, messages, ih]
    cases fmt.message smp with
    | none => rfl
    | some first =>
      cases fmt.messages smps with
      | none => rfl
      | some rest =>
        cases fmt.messages more with
        | none => rfl
        | some bytes => simp

theorem messages_append_eq_some {more : List Payload} :
    fmt.messages (smps ++ more) = some bytes ↔
      ∃ first, fmt.messages smps = some first ∧
        ∃ rest, fmt.messages more = some rest ∧ first ++ rest = bytes := by
  rw [messages_append, Option.bind_eq_some_iff]
  simp only [Option.map_eq_some_iff]

theorem needed_cons : needed (smp :: smps) = msgLen smp.length + needed smps := by
  rw [needed, List.map_cons, List.sum_cons]
  rfl

theorem needed_append {more : List Payload} : needed (smps ++ more) = needed smps + needed more := by
  rw [needed, List.map_append, List.sum_append]
  rfl

theorem needed_eq_zero : needed smps = 0 ↔ smps = [] := by
  cases smps with
  | nil => simp [needed]
  | cons smp smps => simp [needed_cons, msgLen]

theorem messages_length (h : fmt.messages smps = some bytes) : bytes.length = needed smps := by
  induction smps generalizing bytes with
  | nil =>
    cases h
    rfl
  | cons smp smps ih =>
    obtain ⟨first, hfirst, rest, hrest, rfl⟩ := messages_cons_eq_some.1 h
    rw [List.length_append, message_length hfirst, ih hrest, needed_cons]

/-! ## The loop of `sprint` -/

theorem fitting_le (room : Nat) (smps : List Payload) : fitting room smps ≤ smps.length := by
  induction smps generalizing room with
  | nil => exact Nat.le_refl 0
  | cons smp smps ih =>
    rw [fitting, List.length_cons]
    split
    · exact Nat.zero_le _
    · exact Nat.succ_le_succ (ih _)

theorem needed_fitting_le (room : Nat) (smps : List Payload) :
    needed (smps.take (fitting room smps)) ≤ room := by
  induction smps generalizing room with
  | nil => exact Nat.zero_le room
  | cons smp smps ih =>
    rw [fitting]
    split
    · exact Nat.zero_le room
    · have hrest := ih (room - msgLen smp.length)
      rw [List.take_succ_cons, needed_cons]
      omega

theorem fitting_eq_length_iff : fitting room smps = smps.length ↔ needed smps ≤ room := by
  induction smps generalizing room with
  | nil => simp [fitting, needed]
  | cons smp smps ih =>
    rw [fitting, needed_cons, List.length_cons]
    split
    · omega
    · rw [Nat.add_right_cancel_iff, ih]
      omega

/-- The loop gets to a sample that cannot be written. -/
def Refuses (fmt : VillasBinaryFormat) (room : Nat) (smps : List Payload) : Prop :=
  ∃ smp ∈ smps.take (fitting room smps), msgFromSample fmt.conv (fmt.lists smp.signals) smp = none

theorem refuses_cons (hroom : ¬ room < msgLen smp.length) :
    fmt.Refuses room (smp :: smps) ↔
      msgFromSample fmt.conv (fmt.lists smp.signals) smp = none ∨
        fmt.Refuses (room - msgLen smp.length) smps := by
  unfold Refuses
  rw [fitting, if_neg hroom, List.take_succ_cons]
  simp only [List.mem_cons, or_and_right, exists_or, exists_eq_left]

/-- The loop fails, or it writes so many bytes for the samples that fit, and their messages if they
have any. -/
theorem sprintLoop_cases (fmt : VillasBinaryFormat) (room : Nat) (smps : List Payload) :
    (fmt.Refuses room smps ∧ fmt.sprintLoop room smps = .error (-1)) ∨
      ¬ fmt.Refuses room smps ∧ ∃ written,
        fmt.sprintLoop room smps = .ok (written, fitting room smps) ∧
        written.length = needed (smps.take (fitting room smps)) ∧
        ∀ bytes, fmt.messages (smps.take (fitting room smps)) = some bytes → bytes = written := by
  induction smps generalizing room with
  | nil =>
    refine .inr ⟨?_, [], rfl, rfl, fun bytes h => (Option.some.inj h).symm⟩
    rintro ⟨smp, hsmp, -⟩
    cases hsmp
  | cons smp smps ih =>
    by_cases hroom : room < msgLen smp.length
    · have hzero : fitting room (smp :: smps) = 0 := by rw [fitting, if_pos hroom]
      unfold Refuses
      rw [hzero, sprintLoop, if_pos hroom]
      refine .inr ⟨?_, [], rfl, rfl, fun bytes h => (Option.some.inj h).symm⟩
      rintro ⟨smp', hsmp, -⟩
      cases hsmp
    · rw [refuses_cons hroom, fitting, sprintLoop, if_neg hroom, if_neg hroom, List.take_succ_cons]
      cases hm : msgFromSample fmt.conv (fmt.lists smp.signals) smp with
      | none => exact .inl ⟨.inl rfl, rfl⟩
      | some m =>
        obtain ⟨hrefuses, hloop⟩ | ⟨hrefuses, written, hloop, hlen, hwritten⟩ :=
          ih (room - msgLen smp.length)
        · rw [hloop]
          exact .inl ⟨.inr hrefuses, rfl⟩
        · rw [hloop]
          refine .inr ⟨?_, _, rfl, ?_, ?_⟩
          · rintro (hnone | hrest)
            · cases hnone
            · exact hrefuses hrest
          · rw [List.length_append, encoded_length hm, hlen, needed_cons]
          · intro bytes hbytes
            obtain ⟨first, hfirst, rest, hrest, rfl⟩ := messages_cons_eq_some.1 hbytes
            obtain ⟨-, m', hm', rfl⟩ := message_eq_some.1 hfirst
            rw [hm] at hm'
            cases hm'
            rw [hwritten rest hrest]

theorem messages_take (k : Nat) (h : fmt.messages smps = some bytes) :
    ∃ first, fmt.messages (smps.take k) = some first := by
  rw [← List.take_append_drop k smps] at h
  obtain ⟨first, hfirst, -⟩ := messages_append_eq_some.1 h
  exact ⟨first, hfirst⟩

theorem not_refuses (h : fmt.messages (smps.take (fitting room smps)) = some bytes) :
    ¬ fmt.Refuses room smps := by
  unfold Refuses
  generalize smps.take (fitting room smps) = smps at h
  rintro ⟨smp, hsmp, hnone⟩
  obtain ⟨before, after, rfl⟩ := List.append_of_mem hsmp
  obtain ⟨-, -, rest, hrest, -⟩ := messages_append_eq_some.1 h
  obtain ⟨first, hfirst, -⟩ := messages_cons_eq_some.1 hrest
  obtain ⟨-, m, hm, -⟩ := message_eq_some.1 hfirst
  rw [hnone] at hm
  cases hm

theorem sprintLoop_messages (room : Nat) (h : fmt.messages smps = some bytes) :
    ∃ written, fmt.messages (smps.take (fitting room smps)) = some written ∧
      fmt.sprintLoop room smps = .ok (written, fitting room smps) := by
  obtain ⟨first, hfirst⟩ := messages_take (fitting room smps) h
  obtain ⟨hrefuses, -⟩ | ⟨-, written, hloop, -, hwritten⟩ := sprintLoop_cases fmt room smps
  · exact absurd hrefuses (not_refuses hfirst)
  · refine ⟨written, ?_, hloop⟩
    rw [hfirst, hwritten first hfirst]

end

end VillasNode.VillasBinaryFormat
