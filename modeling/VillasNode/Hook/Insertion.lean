import VillasNode.Hook.Signals

/-!
# Inserting and removing values

What `sample_data_insert` and `sample_data_remove` do at every position.
`sample_data_remove` moves as many values as it removes, and leaves the ones
behind where they are.
-/

namespace VillasNode.SignalHooks

/-! ## The list operations -/

/-- `sample_data_insert` and `sample_data_remove` insert and remove, and undo each other. -/
structure ListOperations (s : Smp) (src : List Data) (offset len : Nat) : Prop where
  insert : offset ≤ s.length →
    values (sampleDataInsert s src offset) =
      (values s).take offset ++ (src ++ (values s).drop offset)
  remove : offset + len ≤ s.length →
    values (sampleDataRemove s offset len) =
      (values s).take offset ++ (values s).drop (offset + len)
  restores : offset ≤ s.length →
    values (sampleDataRemove (sampleDataInsert s src offset) offset src.length) = values s

/-- From `start` on, each value is the same as the one `len` places further. -/
def Repeats (s : Smp) (start len : Nat) : Prop :=
  ∀ i, start ≤ i → i + len < s.length → s.data i = s.data (i + len)

section
variable {s : Smp} {offset len : Nat}

/-! ## One value -/

theorem sampleDataRemove_before {i : Nat} (h : i < offset) :
    (sampleDataRemove s offset len).data i = s.data i := by
  simp only [sampleDataRemove, memmove]
  rw [if_neg (by omega)]

theorem sampleDataRemove_moved {i : Nat} (hlo : offset ≤ i) (hhi : i < offset + len) :
    (sampleDataRemove s offset len).data i = s.data (i + len) := by
  simp only [sampleDataRemove, memmove]
  rw [if_pos ⟨hlo, hhi⟩]
  congr 1
  omega

theorem sampleDataRemove_behind {i : Nat} (h : offset + len ≤ i) :
    (sampleDataRemove s offset len).data i = s.data i := by
  simp only [sampleDataRemove, memmove]
  rw [if_neg (by omega)]

theorem sampleDataInsert_behind {src : List Data} {i : Nat} (hlo : offset ≤ i)
    (hhi : i < s.length) :
    (sampleDataInsert s src offset).data (i + src.length) = s.data i := by
  simp only [sampleDataInsert, memcpy, memmove]
  rw [if_pos (by omega), List.getD_eq_default _ _ (by omega), if_pos (by omega)]
  congr 1
  omega

/-! ## All values -/

theorem values_eq_iff {l : List Data} (h : l.length = s.length) :
    values s = l ↔ ∀ i < s.length, l[i]? = some (s.data i) := by
  constructor
  · rintro rfl i hi
    exact values_lt hi
  · intro hall
    apply List.ext_getElem?
    intro i
    by_cases hi : i < s.length
    · rw [values_lt hi, hall i hi]
    · rw [values_ge (by omega), List.getElem?_eq_none (by omega)]

theorem removed_getElem? (h : offset + len ≤ s.length) {i : Nat} (hi : i < s.length - len) :
    ((values s).take offset ++ (values s).drop (offset + len))[i]? =
      some (s.data (if i < offset then i else i + len)) := by
  have htake : ((values s).take offset).length = offset := take_values_length (by omega)
  split
  · rename_i hlow
    rw [List.getElem?_append_left (by omega), List.getElem?_take_of_lt hlow, values_lt (by omega)]
  · rename_i hlow
    have hplace : offset + len + (i - offset) = i + len := by omega
    rw [List.getElem?_append_right (by omega), htake, List.getElem?_drop, hplace,
      values_lt (by omega)]

theorem values_remove_iff (h : offset + len ≤ s.length) :
    values (sampleDataRemove s offset len) =
        (values s).take offset ++ (values s).drop (offset + len) ↔
      Repeats s (offset + len) len := by
  have hlen : (sampleDataRemove s offset len).length = s.length - len := rfl
  have hlist : ((values s).take offset ++ (values s).drop (offset + len)).length =
      (sampleDataRemove s offset len).length := by
    rw [List.length_append, List.length_take, List.length_drop, values_length, hlen]
    omega
  rw [values_eq_iff hlist]
  constructor
  · intro hall i hstart hi
    have hvalue := hall i (by omega)
    rw [removed_getElem? h (by omega), if_neg (by omega), sampleDataRemove_behind hstart] at hvalue
    exact (Option.some.inj hvalue).symm
  · intro hrepeats i hi
    rw [hlen] at hi
    rw [removed_getElem? h hi]
    split
    · rename_i hlow
      rw [sampleDataRemove_before hlow]
    rename_i hlow
    by_cases hmoved : i < offset + len
    · rw [sampleDataRemove_moved (by omega) hmoved]
    · rw [sampleDataRemove_behind (by omega), hrepeats i (by omega) (by omega)]

theorem inserted_removed (src : List Data) (h : offset ≤ s.length) :
    (values (sampleDataInsert s src offset)).take offset ++
        (values (sampleDataInsert s src offset)).drop (offset + src.length) = values s := by
  have htake := take_values_length h
  have hbefore : ((values s).take offset ++ (src ++ (values s).drop offset)).take offset =
      (values s).take offset := List.take_left' htake
  have hbehind : ((values s).take offset ++ (src ++ (values s).drop offset)).drop
      (offset + src.length) = (values s).drop offset := by
    rw [← List.drop_drop, List.drop_left' htake, List.drop_left]
  rw [values_insert src h, hbefore, hbehind, List.take_append_drop]

theorem repeats_insert_iff (src : List Data) :
    Repeats (sampleDataInsert s src offset) (offset + src.length) src.length ↔
      Repeats s offset src.length := by
  have hlen : (sampleDataInsert s src offset).length = s.length + src.length := rfl
  constructor
  · intro h i hstart hi
    have heq := h (i + src.length) (by omega) (by omega)
    rwa [sampleDataInsert_behind hstart (by omega),
      sampleDataInsert_behind (by omega) (by omega)] at heq
  · intro h i hstart hi
    have hi' : i - src.length + src.length = i := by omega
    have heq := h (i - src.length) (by omega) (by omega)
    rw [hi'] at heq
    rw [sampleDataInsert_behind (by omega) (by omega), ← heq, ← hi',
      sampleDataInsert_behind (by omega) (by omega), hi']

theorem values_restored_iff (src : List Data) (h : offset ≤ s.length) :
    values (sampleDataRemove (sampleDataInsert s src offset) offset src.length) = values s ↔
      Repeats s offset src.length := by
  have hlen : (sampleDataInsert s src offset).length = s.length + src.length := rfl
  rw [← repeats_insert_iff, ← values_remove_iff (by omega), inserted_removed src h]

end

/-- For every sample, the two functions are the list operations if and only if the values that
`sample_data_remove` does not move are the same as those that belong there. -/
theorem listOperations_iff (s : Smp) (src : List Data) (offset len : Nat) :
    ListOperations s src offset len ↔
      (offset + len ≤ s.length → Repeats s (offset + len) len) ∧
        (offset ≤ s.length → Repeats s offset src.length) := by
  constructor
  · intro h
    exact ⟨fun hle => (values_remove_iff hle).mp (h.remove hle),
      fun hle => (values_restored_iff src hle).mp (h.restores hle)⟩
  · rintro ⟨hremove, hrestores⟩
    exact { insert := values_insert src
            remove := fun hle => (values_remove_iff hle).mpr (hremove hle)
            restores := fun hle => (values_restored_iff src hle).mpr (hrestores hle) }

/-- One value of three is removed, in front. The last one stays where it is, behind the new
length, and the sample ends with the second one twice. -/
theorem remove_first_keeps :
    values (sampleDataRemove ⟨3, fun i => ⟨.integer, BitVec.ofNat 64 i⟩⟩ 0 1) =
        [⟨.integer, 1⟩, ⟨.integer, 1⟩] ∧
      ¬ ∀ (s : Smp) (src : List Data) (offset len : Nat), ListOperations s src offset len := by
  refine ⟨by decide, fun h => ?_⟩
  have hremove := (h ⟨3, fun i => ⟨.integer, BitVec.ofNat 64 i⟩⟩ [] 0 1).remove (by decide)
  exact absurd hremove (by decide)

end VillasNode.SignalHooks
