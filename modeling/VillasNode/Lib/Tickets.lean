import Mathlib.Data.List.Nodup
import Mathlib.Data.List.Perm.Subperm
import Mathlib.Logic.Function.Basic

/-!
# Tickets

Tickets are numbered in the order in which they are taken. A holder has at most
one ticket at a time. Tickets are handed in in any order.
-/

namespace Tickets

variable {τ : Type*} {own : τ → Option Nat} {count : Nat} {done : List Nat} {t : τ} {p : Nat}

/-- `count` tickets were taken. The tickets of `done` were handed in, in that order, and all others
still have their one holder. -/
structure Ledger (own : τ → Option Nat) (count : Nat) (done : List Nat) : Prop where
  below : ∀ t p, own t = some p → p < count
  unique : ∀ t t' p, own t = some p → own t' = some p → t = t'
  nodup : done.Nodup
  mem_done : ∀ p, p ∈ done ↔ p < count ∧ ∀ t, own t ≠ some p

theorem Ledger.empty : Ledger (fun _ : τ => none) 0 [] := by
  constructor <;> simp

theorem Ledger.not_done (h : Ledger own count done) (ht : own t = some p) : p ∉ done := by
  intro hp
  exact ((h.mem_done p).mp hp).2 t ht

theorem Ledger.done_lt (h : Ledger own count done) (hp : p ∈ done) : p < count :=
  ((h.mem_done p).mp hp).1

theorem Ledger.perm_range (h : Ledger own count done) (hfree : ∀ t, own t = none) :
    done.Perm (List.range count) := by
  rw [List.perm_ext_iff_of_nodup h.nodup List.nodup_range]
  intro p
  rw [h.mem_done, List.mem_range]
  simp [hfree]

variable [DecidableEq τ]

theorem Ledger.take (h : Ledger own count done) (ht : own t = none) :
    Ledger (Function.update own t (some count)) (count + 1) done := by
  have hother : ∀ t' p, Function.update own t (some count) t' = some p →
      (t' = t ∧ p = count) ∨ (t' ≠ t ∧ own t' = some p) := by
    intro t' p hp
    rw [Function.update_apply] at hp
    split at hp
    · exact .inl ⟨‹_›, (Option.some.inj hp).symm⟩
    · exact .inr ⟨‹_›, hp⟩
  constructor
  · intro t' p hp
    rcases hother t' p hp with ⟨-, rfl⟩ | ⟨-, hp⟩
    · omega
    · have := h.below t' p hp
      omega
  · intro t₁ t₂ p h₁ h₂
    rcases hother t₁ p h₁ with ⟨e₁, ep⟩ | ⟨-, h₁⟩ <;>
      rcases hother t₂ p h₂ with ⟨e₂, ep'⟩ | ⟨-, h₂⟩
    · rw [e₁, e₂]
    · have := h.below t₂ p h₂
      omega
    · have := h.below t₁ p h₁
      omega
    · exact h.unique t₁ t₂ p h₁ h₂
  · exact h.nodup
  · intro p
    rw [h.mem_done]
    constructor
    · rintro ⟨hp, hown⟩
      refine ⟨by omega, fun t' ht' => ?_⟩
      rcases hother t' p ht' with ⟨-, rfl⟩ | ⟨-, hp'⟩
      · omega
      · exact hown t' hp'
    · rintro ⟨hp, hown⟩
      have hne : p ≠ count := by
        rintro rfl
        exact hown t (Function.update_self ..)
      refine ⟨by omega, fun t' ht' => hown t' ?_⟩
      have htt : t' ≠ t := by
        rintro rfl
        simp [ht] at ht'
      rwa [Function.update_of_ne htt]

theorem Ledger.handIn (h : Ledger own count done) (ht : own t = some p) :
    Ledger (Function.update own t none) count (done ++ [p]) := by
  have hother : ∀ t' q, Function.update own t none t' = some q → t' ≠ t ∧ own t' = some q := by
    intro t' q hq
    rw [Function.update_apply] at hq
    split at hq
    · simp at hq
    · exact ⟨‹_›, hq⟩
  constructor
  · intro t' q hq
    exact h.below t' q (hother t' q hq).2
  · intro t₁ t₂ q h₁ h₂
    exact h.unique t₁ t₂ q (hother t₁ q h₁).2 (hother t₂ q h₂).2
  · rw [List.nodup_append_comm]
    exact List.nodup_cons.mpr ⟨h.not_done ht, h.nodup⟩
  · intro q
    rw [List.mem_append, List.mem_singleton, h.mem_done]
    constructor
    · rintro (⟨hq, hown⟩ | rfl)
      · exact ⟨hq, fun t' ht' => hown t' (hother t' q ht').2⟩
      · refine ⟨h.below t _ ht, fun t' ht' => ?_⟩
        obtain ⟨hne, ht'⟩ := hother t' _ ht'
        exact hne (h.unique t' t _ ht' ht)
    · rintro ⟨hq, hown⟩
      rcases eq_or_ne q p with rfl | hqp
      · exact .inr rfl
      · refine .inl ⟨hq, fun t' ht' => hown t' ?_⟩
        have htt : t' ≠ t := by
          rintro rfl
          exact hqp (Option.some.inj (ht'.symm.trans ht))
        rwa [Function.update_of_ne htt]

end Tickets
