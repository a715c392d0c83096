import Mathlib.Data.List.Nodup

/-!
# Lists of members

Lists of pairs of a key and a value in which a key is looked up. When no key is
there twice, the keys in their order and what is found under each of them
determine the list.
-/

namespace Members

variable {K V : Type*} [BEq K] [LawfulBEq K] {members members' : List (K × V)} {key k : K} {value v : V}

theorem lookup_cons_ne (h : k ≠ key) : ((key, value) :: members).lookup k = members.lookup k := by
  rw [List.lookup_cons, beq_eq_false_iff_ne.mpr h]

theorem mem_of_lookup (h : members.lookup key = some value) : (key, value) ∈ members := by
  obtain ⟨before, after, rfl, -⟩ := List.lookup_eq_some_iff.mp h
  exact List.mem_append_right _ (List.mem_cons_self ..)

theorem lookup_of_mem (hkeys : (members.map Prod.fst).Nodup) (h : (key, value) ∈ members) :
    members.lookup key = some value := by
  induction members with
  | nil => cases h
  | cons m members ih =>
    obtain ⟨hnew, hkeys⟩ := List.nodup_cons.mp hkeys
    obtain heq | hmem := List.mem_cons.mp h
    · rw [← heq, List.lookup_cons_self]
    · have hne : key ≠ m.1 := by
        rintro rfl
        exact hnew (List.mem_map.mpr ⟨_, hmem, rfl⟩)
      rw [lookup_cons_ne hne, ih hkeys hmem]

theorem lookup_eq_none : members.lookup key = none ↔ key ∉ members.map Prod.fst := by
  simp only [List.lookup_eq_none_iff, List.mem_map, not_exists, not_and, bne_iff_ne]
  exact ⟨fun h m hm heq => h m hm heq.symm, fun h m hm heq => h m hm heq.symm⟩

theorem ext (hkeys : members.map Prod.fst = members'.map Prod.fst) (hnodup : (members.map Prod.fst).Nodup)
    (h : ∀ k, members.lookup k = members'.lookup k) : members = members' := by
  induction members generalizing members' with
  | nil => exact (List.map_eq_nil_iff.mp hkeys.symm).symm
  | cons m members ih =>
    cases members' with
    | nil => cases hkeys
    | cons m' members' =>
      obtain ⟨k, v⟩ := m
      obtain ⟨k', v'⟩ := m'
      simp only [List.map_cons, List.cons.injEq] at hkeys hnodup
      obtain ⟨rfl, hkeys⟩ := hkeys
      obtain ⟨hnew, hnodup⟩ := List.nodup_cons.mp hnodup
      have hvalue := h k
      rw [List.lookup_cons_self, List.lookup_cons_self, Option.some.injEq] at hvalue
      rw [hvalue, ih hkeys hnodup]
      intro l
      by_cases hl : l = k
      · rw [hl, lookup_eq_none.2 hnew, lookup_eq_none.2 (hkeys ▸ hnew)]
      · have hrest := h l
        rwa [lookup_cons_ne hl, lookup_cons_ne hl] at hrest

end Members
