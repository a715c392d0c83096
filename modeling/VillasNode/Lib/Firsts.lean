import Mathlib.Data.Finset.Card
import Mathlib.Data.Finset.Dedup

/-!
# First occurrences

The elements of a list in the order in which they occur first, and what comes
of taking the place of a first occurrence for the place in that order.
-/

namespace Firsts

variable {α : Type*} [DecidableEq α] {l ds : List α} {a b : α}

/-- The number of different elements in front of the first `a`. -/
def rank (l : List α) (a : α) : Nat := (l.take (l.idxOf a)).toFinset.card

theorem rank_le (l : List α) (a : α) : rank l a ≤ l.idxOf a :=
  List.toFinset_card_le _ |>.trans (List.length_take_le _ _)

theorem rank_eq_iff (l : List α) (a : α) :
    rank l a = l.idxOf a ↔ (l.take (l.idxOf a)).Nodup := by
  have hlen : (l.take (l.idxOf a)).length = l.idxOf a := by
    rw [List.length_take, Nat.min_eq_left List.idxOf_le_length]
  unfold rank
  constructor
  · intro hcard
    rw [← Multiset.coe_nodup, ← Multiset.toFinset_card_eq_card_iff_nodup]
    exact hcard.trans hlen.symm
  · intro hnodup
    rw [List.toFinset_card_of_nodup hnodup, hlen]

theorem rank_append_of_mem (ha : a ∈ l) : rank (l ++ [b]) a = rank l a := by
  unfold rank
  rw [List.idxOf_append_of_mem ha, List.take_append_of_le_length List.idxOf_le_length]

theorem rank_append_of_notMem (ha : a ∉ l) : rank (l ++ [a]) a = l.toFinset.card := by
  unfold rank
  rw [List.idxOf_append_of_notMem ha, List.idxOf_cons_self, Nat.add_zero, List.take_left]

/-- The elements of `l` in the order in which they occur first. -/
structure Of (l ds : List α) : Prop where
  nodup : ds.Nodup
  mem : ∀ a, a ∈ ds ↔ a ∈ l
  get : ∀ a ∈ l, ds[rank l a]? = some a

theorem Of.nil : Of ([] : List α) [] := ⟨List.nodup_nil, fun _ => Iff.rfl, fun _ h => (List.not_mem_nil h).elim⟩

theorem Of.length (h : Of l ds) : ds.length = l.toFinset.card := by
  rw [← List.toFinset_card_of_nodup h.nodup]
  congr 1
  ext a
  rw [List.mem_toFinset, List.mem_toFinset, h.mem]

theorem Of.seen (h : Of l ds) (ha : a ∈ l) : Of (l ++ [a]) ds := by
  have hmem : ∀ b, b ∈ l ++ [a] ↔ b ∈ l := by
    intro b
    rw [List.mem_append, List.mem_singleton]
    constructor
    · rintro (hb | rfl)
      · exact hb
      · exact ha
    · exact .inl
  refine ⟨h.nodup, fun b => ?_, fun b hb => ?_⟩
  · rw [hmem, h.mem]
  · rw [hmem] at hb
    rw [rank_append_of_mem hb]
    exact h.get b hb

theorem Of.new (h : Of l ds) (ha : a ∉ l) : Of (l ++ [a]) (ds ++ [a]) := by
  refine ⟨?_, fun b => ?_, fun b hb => ?_⟩
  · rw [← h.mem] at ha
    exact List.nodup_append.mpr ⟨h.nodup, List.nodup_singleton a, by
      intro b hb c hc
      rw [List.mem_singleton] at hc
      subst hc
      rintro rfl
      exact ha hb⟩
  · rw [List.mem_append, List.mem_append, h.mem]
  · rcases List.mem_append.mp hb with hb | hb
    · have hget := h.get b hb
      rw [rank_append_of_mem hb, List.getElem?_append_left (List.getElem?_eq_some_iff.mp hget).1]
      exact hget
    · rw [List.mem_singleton] at hb
      subst hb
      rw [rank_append_of_notMem ha, ← h.length, List.getElem?_append_right (Nat.le_refl _), Nat.sub_self]
      rfl

theorem Of.index (h : Of l ds) {j : Nat} (hj : ds[j]? = some a) : a ∈ l ∧ j = rank l a := by
  have ha := (h.mem a).mp (List.mem_of_getElem? hj)
  refine ⟨ha, ?_⟩
  obtain ⟨hlt, -⟩ := List.getElem?_eq_some_iff.mp hj
  exact (List.getElem?_inj hlt h.nodup).mp (hj.trans (h.get a ha).symm)

theorem Of.marks_iff (h : Of l ds) (M : α → Prop) :
    (∀ j a, ds[j]? = some a → ((∃ b ∈ l, M b ∧ l.idxOf b = j) ↔ M a)) ↔
      ∀ a ∈ l, M a → (l.take (l.idxOf a)).Nodup := by
  constructor
  · intro hmarks a ha hM
    rw [← rank_eq_iff]
    -- By induction on the place of `a`: its rank is the place of some `b`, not behind it.
    induction hn : l.idxOf a using Nat.strong_induction_on generalizing a with
    | _ n ih =>
      obtain ⟨b, hb, hMb, hplace⟩ := (hmarks _ a (h.get a ha)).mpr hM
      have hle := rank_le l a
      rcases Nat.lt_or_eq_of_le hle with hlt | heq
      · have hrank := ih (l.idxOf b) (by omega) b hb hMb rfl
        have hget := h.get b hb
        rw [hrank, hplace, h.get a ha] at hget
        cases hget
        omega
      · rw [← hn]
        exact heq
  · intro hnodup j a hj
    obtain ⟨ha, rfl⟩ := h.index hj
    constructor
    · rintro ⟨b, hb, hMb, hplace⟩
      have hrank := (rank_eq_iff l b).mpr (hnodup b hb hMb)
      have hget := h.get b hb
      rw [hrank, hplace, hj] at hget
      cases hget
      exact hMb
    · intro hM
      exact ⟨a, ha, hM, ((rank_eq_iff l a).mpr (hnodup a ha hM)).symm⟩

end Firsts
