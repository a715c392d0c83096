import VillasNode.Mapping.Model

/-!
# The slots of a mapping entry

When `mapping_update` applies, which slots it writes, what it writes there and
which length it leaves.
-/

namespace VillasNode

variable {stats : Nat → Nat → Value} {me : MappingEntry} {ml : List MappingEntry}
  {capacity : Nat} {remapped original : Payload}

/-! ## When it applies -/

/-- The entry is of a known type and within the capacity. -/
def MappingEntry.applies (me : MappingEntry) (capacity : Nat) : Prop :=
  me.type ≠ .unknown ∧ u32 (me.offset + me.length) ≤ capacity

theorem mappingWrite_isSome (stats : Nat → Nat → Value) (me : MappingEntry)
    (remapped original : Payload) :
    (mappingWrite stats me remapped original).isSome ↔ me.type ≠ .unknown := by
  unfold mappingWrite
  rcases me.type with _ | _ | _ | (_ | _) | _ <;> simp

theorem mappingUpdate_isSome (stats : Nat → Nat → Value) (me : MappingEntry) (capacity : Nat)
    (remapped original : Payload) :
    (mappingUpdate stats me capacity remapped original).isSome ↔ me.applies capacity := by
  unfold mappingUpdate MappingEntry.applies
  rw [← mappingWrite_isSome stats me remapped original]
  split
  · simp only [Option.isSome_none, Bool.false_eq_true, false_iff]
    omega
  · rename_i hcap
    rw [Nat.not_lt] at hcap
    cases mappingWrite stats me remapped original with
    | none => simp
    | some r =>
      dsimp only
      split <;> simp [hcap]

theorem mappingListRemap_ok (stats : Nat → Nat → Value) (capacity : Nat) (original : Payload)
    (ml : List MappingEntry) (remapped : Payload) :
    (mappingListRemap stats capacity original ml remapped).2 = true ↔
      ∀ me ∈ ml, me.applies capacity := by
  induction ml generalizing remapped with
  | nil => simp [mappingListRemap]
  | cons me ml ih =>
    unfold mappingListRemap
    rw [List.forall_mem_cons, ← mappingUpdate_isSome stats me capacity remapped original]
    cases mappingUpdate stats me capacity remapped original with
    | none => simp
    | some r => simpa using ih r

/-! ## What it writes -/

/-- The value that `mapping_update` writes to a slot, if it writes there. -/
def MappingEntry.written (me : MappingEntry) (stats : Nat → Nat → Value) (original : Payload)
    (slot : Nat) : Option Value :=
  match me.type with
  | .stats metric type => if slot = me.offset then some (stats metric type) else none
  | .timestamp type =>
    let ts := match type with
      | .received => original.received
      | .origin => original.origin
    if slot = me.offset then some ts.sec else if slot = me.offset + 1 then some ts.nsec else none
  | .header .length => if slot = me.offset then some (BitVec.ofNat 64 original.length) else none
  | .header .sequence => if slot = me.offset then some original.sequence else none
  | .data offset =>
    if me.offset ≤ slot ∧ slot < me.offset + (min original.length (u32 (offset + me.length)) - offset)
    then some (original.data (offset + (slot - me.offset))) else none
  | .unknown => none

theorem copyData_data (original : Payload) (n : Nat) (remapped : Payload) (i j slot : Nat) :
    (copyData remapped original i j n).data slot =
      if i ≤ slot ∧ slot < i + n then original.data (j + (slot - i)) else remapped.data slot := by
  induction n generalizing remapped i j with
  | zero =>
    rw [if_neg (by omega)]
    rfl
  | succ n ih =>
    unfold copyData
    rw [ih, setData_data]
    by_cases hslot : slot = i
    · subst hslot
      rw [if_neg (by omega), if_pos rfl, if_pos (by omega), Nat.sub_self]
      rfl
    · by_cases hin : i ≤ slot ∧ slot < i + (n + 1)
      · rw [if_pos (by omega), if_pos hin]
        congr 1
        omega
      · rw [if_neg (by omega), if_neg hslot, if_neg hin]

theorem copyData_length (original : Payload) (n : Nat) (remapped : Payload) (i j : Nat) :
    (copyData remapped original i j n).length = remapped.length := by
  induction n generalizing remapped i j with
  | zero => rfl
  | succ n ih =>
    unfold copyData
    rw [ih]
    rfl

theorem mappingWrite_data {r : Payload × Nat}
    (hw : mappingWrite stats me remapped original = some r) (slot : Nat) :
    r.1.data slot = (me.written stats original slot).getD (remapped.data slot) ∧
      r.1.length = remapped.length := by
  unfold mappingWrite at hw
  unfold MappingEntry.written
  rcases ht : me.type with _ | offset | ⟨metric, type⟩ | (_ | _) | type <;> rw [ht] at hw <;>
    dsimp only at hw ⊢
  · simp at hw
  · cases hw
    refine ⟨?_, copyData_length ..⟩
    dsimp only
    rw [copyData_data]
    split <;> rfl
  · cases hw
    refine ⟨?_, rfl⟩
    dsimp only
    rw [setData_data]
    split <;> rfl
  · cases hw
    refine ⟨?_, rfl⟩
    dsimp only
    rw [setData_data]
    split <;> rfl
  · cases hw
    refine ⟨?_, rfl⟩
    dsimp only
    rw [setData_data]
    split <;> rfl
  · cases hw
    refine ⟨?_, rfl⟩
    dsimp only
    rw [setData_data, setData_data]
    by_cases h0 : slot = me.offset
    · rw [if_neg (by omega), if_pos h0, if_pos h0]
      rfl
    · rw [if_neg h0, if_neg h0]
      split <;> rfl

/-- The length that `mapping_update` gives to a shorter sample. -/
def MappingEntry.reach (me : MappingEntry) (original : Payload) : Nat :=
  u32 (me.offset + match me.type with
    | .data offset => min me.length (u32Sub original.length offset)
    | _ => me.length)

theorem mappingUpdate_slots {r : Payload}
    (hu : mappingUpdate stats me capacity remapped original = some r) :
    r.length = max remapped.length (me.reach original) ∧
      ∀ slot, r.data slot = (me.written stats original slot).getD (remapped.data slot) := by
  unfold mappingUpdate at hu
  split at hu
  · simp at hu
  cases hw : mappingWrite stats me remapped original with
  | none =>
    rw [hw] at hu
    simp at hu
  | some w =>
    rw [hw] at hu
    dsimp only at hu
    have hdata := fun slot => (mappingWrite_data hw slot).1
    have hlength := (mappingWrite_data hw 0).2
    have hreach : u32 (me.offset + w.2) = me.reach original := by
      unfold mappingWrite at hw
      unfold MappingEntry.reach
      rcases ht : me.type with _ | offset | ⟨metric, type⟩ | (_ | _) | type <;>
        rw [ht] at hw <;> dsimp only at hw <;> cases hw <;> rfl
    rw [hreach, hlength] at hu
    split at hu
    · cases hu
      refine ⟨?_, hdata⟩
      dsimp only
      omega
    · cases hu
      refine ⟨?_, hdata⟩
      omega

/-- What the entries write to a slot. A later entry overwrites an earlier one. -/
def writtenBy (stats : Nat → Nat → Value) (original : Payload) (slot : Nat) :
    List MappingEntry → Option Value
  | [] => none
  | me :: ml => (writtenBy stats original slot ml).or (me.written stats original slot)

def reachOf (original : Payload) (ml : List MappingEntry) (n : Nat) : Nat :=
  ml.foldl (fun n me => max n (me.reach original)) n

theorem mappingListRemap_slots (stats : Nat → Nat → Value) (original remapped : Payload)
    (happly : ∀ me ∈ ml, me.applies capacity) :
    (mappingListRemap stats capacity original ml remapped).1.length =
        reachOf original ml remapped.length ∧
      ∀ slot, (mappingListRemap stats capacity original ml remapped).1.data slot =
        (writtenBy stats original slot ml).getD (remapped.data slot) := by
  induction ml generalizing remapped with
  | nil => exact ⟨rfl, fun _ => rfl⟩
  | cons me ml ih =>
    rw [List.forall_mem_cons] at happly
    obtain ⟨r, hr⟩ := Option.isSome_iff_exists.mp
      ((mappingUpdate_isSome stats me capacity remapped original).mpr happly.1)
    obtain ⟨hlength, hdata⟩ := mappingUpdate_slots hr
    obtain ⟨hlength', hdata'⟩ := ih r happly.2
    unfold mappingListRemap
    rw [hr]
    refine ⟨?_, fun slot => ?_⟩
    · rw [hlength', hlength]
      rfl
    · rw [hdata', hdata, writtenBy]
      cases writtenBy stats original slot ml with
      | none => rfl
      | some v => rfl

/-! ## Slots -/

def MappingEntry.slots (me : MappingEntry) (slot : Nat) : Prop :=
  me.offset ≤ slot ∧ slot < me.offset + me.length

/-- The length of the entry covers what its type writes. -/
def MappingEntry.sized (me : MappingEntry) : Prop :=
  match me.type with
  | .stats .. | .header _ => 1 ≤ me.length
  | .timestamp _ => 2 ≤ me.length
  | .data _ | .unknown => True

def MappingEntry.suppliedBy (me : MappingEntry) (original : Payload) : Prop :=
  match me.type with
  | .data offset => offset + me.length ≤ original.length
  | _ => True

theorem u32_le (n : Nat) : u32 n ≤ n := Nat.mod_le ..

theorem u32_of_lt {n : Nat} (h : n < 2 ^ 32) : u32 n = n := Nat.mod_eq_of_lt h

theorem u32Sub_of_le {n m : Nat} (hn : n < 2 ^ 32) (hmn : m ≤ n) : u32Sub n m = n - m := by
  unfold u32Sub u32
  omega

theorem written_slots {slot : Nat} {v : Value} (hsized : me.sized)
    (hw : me.written stats original slot = some v) : me.slots slot := by
  unfold MappingEntry.written at hw
  unfold MappingEntry.sized at hsized
  unfold MappingEntry.slots
  rcases ht : me.type with _ | offset | ⟨metric, type⟩ | (_ | _) | type <;>
    rw [ht] at hw hsized <;> dsimp only at hw hsized
  · simp at hw
  · split at hw
    · have : u32 (offset + me.length) ≤ offset + me.length := Nat.mod_le ..
      omega
    · simp at hw
  · split at hw
    · omega
    · simp at hw
  · split at hw
    · omega
    · simp at hw
  · split at hw
    · omega
    · simp at hw
  · split at hw
    · omega
    · split at hw
      · omega
      · simp at hw

theorem reach_of_supplied (hfit : me.offset + me.length ≤ capacity) (hcap : capacity < 2 ^ 32)
    (hlen : original.length < 2 ^ 32) (hsup : me.suppliedBy original) :
    me.reach original = me.offset + me.length := by
  unfold MappingEntry.suppliedBy at hsup
  unfold MappingEntry.reach
  rcases ht : me.type with _ | offset | _ | _ | _ <;> rw [ht] at hsup <;> dsimp only at hsup ⊢
  · rw [u32_of_lt (by omega)]
  · rw [u32Sub_of_le hlen (by omega), Nat.min_eq_left (by omega), u32_of_lt (by omega)]
  · rw [u32_of_lt (by omega)]
  · rw [u32_of_lt (by omega)]
  · rw [u32_of_lt (by omega)]

theorem mappingUpdate_spec {r : Payload} (hfit : me.offset + me.length ≤ capacity)
    (hcap : capacity < 2 ^ 32) (hlen : original.length < 2 ^ 32) (hsup : me.suppliedBy original)
    (hu : mappingUpdate stats me capacity remapped original = some r) :
    (∀ slot, r.data slot = (me.written stats original slot).getD (remapped.data slot)) ∧
      r.length = max remapped.length (me.offset + me.length) := by
  obtain ⟨hlength, hdata⟩ := mappingUpdate_slots hu
  rw [reach_of_supplied hfit hcap hlen hsup] at hlength
  exact ⟨hdata, hlength⟩

structure Remapped (stats : Nat → Nat → Value) (capacity : Nat) (original : Payload)
    (ml : List MappingEntry) (remapped r : Payload) : Prop where
  kept : ∀ slot, (∀ me ∈ ml, ¬ me.slots slot) → r.data slot = remapped.data slot
  written : ∀ me ∈ ml, ∀ slot v, me.written stats original slot = some v → r.data slot = v
  length_le : remapped.length ≤ r.length
  covers : ∀ me ∈ ml, me.offset + me.length ≤ r.length
  bounded : remapped.length ≤ capacity → r.length ≤ capacity

theorem mappingListRemap_spec (stats : Nat → Nat → Value) (remapped : Payload)
    (hcap : capacity < 2 ^ 32) (hlen : original.length < 2 ^ 32)
    (hfit : ∀ me ∈ ml, me.offset + me.length ≤ capacity)
    (hsup : ∀ me ∈ ml, me.suppliedBy original) (hsized : ∀ me ∈ ml, me.sized)
    (happly : ∀ me ∈ ml, me.applies capacity)
    (hpair : ml.Pairwise fun a b => ∀ slot, a.slots slot → ¬ b.slots slot) :
    Remapped stats capacity original ml remapped
      (mappingListRemap stats capacity original ml remapped).1 := by
  induction ml generalizing remapped with
  | nil => exact ⟨fun _ _ => rfl, by simp, Nat.le_refl _, by simp, id⟩
  | cons me ml ih =>
    rw [List.pairwise_cons] at hpair
    obtain ⟨r, hr⟩ := Option.isSome_iff_exists.mp
      ((mappingUpdate_isSome stats me capacity remapped original).mpr
        (happly me List.mem_cons_self))
    obtain ⟨hdata, hlength⟩ := mappingUpdate_spec (hfit me List.mem_cons_self) hcap hlen
      (hsup me List.mem_cons_self) hr
    have hrest := ih r (fun x hx => hfit x (List.mem_cons_of_mem me hx))
      (fun x hx => hsup x (List.mem_cons_of_mem me hx))
      (fun x hx => hsized x (List.mem_cons_of_mem me hx))
      (fun x hx => happly x (List.mem_cons_of_mem me hx)) hpair.2
    unfold mappingListRemap
    rw [hr]
    have hme := hfit me List.mem_cons_self
    constructor
    · intro slot hout
      rw [List.forall_mem_cons] at hout
      rw [hrest.kept slot hout.2, hdata]
      cases hw : me.written stats original slot with
      | none => rfl
      | some v => exact absurd (written_slots (hsized me List.mem_cons_self) hw) hout.1
    · intro x hx slot v hw
      rcases List.mem_cons.mp hx with rfl | hx
      · have hslots := written_slots (hsized x List.mem_cons_self) hw
        rw [hrest.kept slot fun y hy => hpair.1 y hy slot hslots, hdata, hw]
        rfl
      · exact hrest.written x hx slot v hw
    · have := hrest.length_le
      dsimp only
      omega
    · intro x hx
      rcases List.mem_cons.mp hx with rfl | hx
      · have := hrest.length_le
        dsimp only
        omega
      · exact hrest.covers x hx
    · intro hle
      exact hrest.bounded (by omega)

end VillasNode
