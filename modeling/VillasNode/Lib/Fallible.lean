import Mathlib.Tactic.Basic

/-!
# Computations that can fail

When a sequence of fallible steps succeeds, and which errors it can end in.
-/

namespace Fallible

universe u v

variable {ε : Type u} {α β : Type v} {P : ε → Prop} {x : Except ε α} {f : α → Except ε β} {a : α} {b : β} {e : ε}

theorem bind_eq_ok : x >>= f = .ok b ↔ ∃ a, x = .ok a ∧ f a = .ok b := by
  cases x with
  | error e => simp [bind, Except.bind]
  | ok a => simp [bind, Except.bind]

theorem map_eq_ok {g : α → β} : x.map g = .ok b ↔ ∃ a, x = .ok a ∧ b = g a := by
  cases x with
  | error e => simp [Except.map]
  | ok a => simp [Except.map, eq_comm]

theorem ok_bind : (Except.ok a : Except ε α) >>= f = f a := rfl

theorem error_bind : (Except.error e : Except ε α) >>= f = .error e := rfl

/-- Every error that `x` can end in is in `P`. -/
def Fails (P : ε → Prop) (x : Except ε α) : Prop := ∀ e, x = .error e → P e

theorem Fails.ok : Fails P (Except.ok a : Except ε α) := by
  intro e h
  simp at h

theorem Fails.pure : Fails P (Pure.pure a : Except ε α) := Fails.ok

theorem Fails.error (h : P e) : Fails P (Except.error e : Except ε α) := by
  intro e' he
  rw [Except.error.injEq] at he
  rwa [← he]

theorem Fails.bind (hx : Fails P x) (hf : ∀ a, Fails P (f a)) : Fails P (x >>= f) := by
  cases x with
  | error e => exact Fails.error (hx e rfl)
  | ok a => exact hf a

theorem mapM_members {f : α → Option β} {xs : List α} {ys : List β} (h : xs.mapM f = some ys) :
    (∀ y ∈ ys, ∃ x ∈ xs, f x = some y) ∧ ∀ x ∈ xs, ∃ y ∈ ys, f x = some y := by
  induction xs generalizing ys with
  | nil =>
    cases h
    simp
  | cons x xs ih =>
    rw [List.mapM_cons] at h
    obtain ⟨y, hy, h⟩ := Option.bind_eq_some_iff.mp h
    obtain ⟨zs, hzs, h⟩ := Option.bind_eq_some_iff.mp h
    cases h
    obtain ⟨hfrom, hto⟩ := ih hzs
    constructor
    · intro z hz
      rcases List.mem_cons.mp hz with rfl | hz
      · exact ⟨x, List.mem_cons_self, hy⟩
      · obtain ⟨w, hw, hfw⟩ := hfrom z hz
        exact ⟨w, List.mem_cons_of_mem x hw, hfw⟩
    · intro w hw
      rcases List.mem_cons.mp hw with rfl | hw
      · exact ⟨y, List.mem_cons_self, hy⟩
      · obtain ⟨z, hz, hfw⟩ := hto w hw
        exact ⟨z, List.mem_cons_of_mem y hz, hfw⟩

theorem mapM_exists_iff {f : α → Option β} {xs : List α} :
    (∃ ys, xs.mapM f = some ys) ↔ ∀ x ∈ xs, ∃ y, f x = some y := by
  induction xs with
  | nil => simp
  | cons x xs ih =>
    rw [List.forall_mem_cons, ← ih, List.mapM_cons]
    constructor
    · rintro ⟨ys, h⟩
      obtain ⟨y, hy, h⟩ := Option.bind_eq_some_iff.mp h
      obtain ⟨zs, hzs, -⟩ := Option.bind_eq_some_iff.mp h
      exact ⟨⟨y, hy⟩, zs, hzs⟩
    · rintro ⟨⟨y, hy⟩, zs, hzs⟩
      refine ⟨y :: zs, ?_⟩
      rw [hy, hzs]
      rfl

end Fallible
