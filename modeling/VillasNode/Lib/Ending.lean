import Mathlib.Data.List.Basic
import Mathlib.Data.List.Forall2

/-!
# Calls that return, throw or abort

An exception leaves what was done before it. A failed assertion leaves nothing.
-/

inductive Ending (α : Type*) where
  | returned (a : α)
  | thrown (a : α)
  | aborted
deriving DecidableEq

namespace Ending

variable {α β : Type*} {f : α → Ending α} {a b : α} {as bs : List α} {o : Ending α}

def map (g : α → β) : Ending α → Ending β
  | returned a => returned (g a)
  | thrown a => thrown (g a)
  | aborted => aborted

/-- The second call is made if the first one returns. -/
def andThen (o : Ending α) (f : α → Ending α) : Ending α :=
  match o with
  | returned a => f a
  | thrown a => thrown a
  | aborted => aborted

/-- Make the call for one after the other. -/
def each (f : α → Ending α) : List α → Ending (List α)
  | [] => returned []
  | a :: as =>
    match f a with
    | returned b => (each f as).map (b :: ·)
    | thrown b => thrown (b :: as)
    | aborted => aborted

@[simp] theorem each_nil : each f [] = returned [] := rfl

theorem each_cons : each f (a :: as) =
    match f a with
    | returned b => (each f as).map (b :: ·)
    | thrown b => thrown (b :: as)
    | aborted => aborted := rfl

theorem map_eq_returned {g : α → β} {b : β} : o.map g = returned b ↔ ∃ a, o = returned a ∧ g a = b := by
  cases o <;> simp [map]

theorem map_eq_thrown {g : α → β} {b : β} : o.map g = thrown b ↔ ∃ a, o = thrown a ∧ g a = b := by
  cases o <;> simp [map]

theorem andThen_eq_thrown :
    o.andThen f = thrown b ↔ o = thrown b ∨ ∃ a, o = returned a ∧ f a = thrown b := by
  cases o <;> simp [andThen]

theorem each_eq_returned : each f as = returned bs ↔ List.Forall₂ (fun a b => f a = returned b) as bs := by
  induction as generalizing bs with
  | nil => simp [eq_comm]
  | cons a as ih =>
    rw [each_cons]
    cases hf : f a with
    | returned b =>
      simp only [map_eq_returned, ih]
      constructor
      · rintro ⟨bs', hrest, rfl⟩
        exact .cons hf hrest
      · rintro (_ | ⟨hfirst, hrest⟩)
        rw [hf] at hfirst
        cases hfirst
        exact ⟨_, hrest, rfl⟩
    | thrown b =>
      refine iff_of_false (by simp) ?_
      rintro (_ | ⟨hfirst, -⟩)
      simp [hf] at hfirst
    | aborted =>
      refine iff_of_false (by simp) ?_
      rintro (_ | ⟨hfirst, -⟩)
      simp [hf] at hfirst

theorem each_map {g : α → α} (h : ∀ a ∈ as, f a = returned (g a)) : each f as = returned (as.map g) := by
  rw [each_eq_returned, List.forall₂_map_right_iff, List.forall₂_same]
  exact h

theorem each_returns (h : ∀ a ∈ as, ∃ b, f a = returned b) : ∃ bs, each f as = returned bs := by
  induction as with
  | nil => exact ⟨[], rfl⟩
  | cons a as ih =>
    rw [List.forall_mem_cons] at h
    obtain ⟨b, hb⟩ := h.1
    obtain ⟨bs, hbs⟩ := ih h.2
    refine ⟨b :: bs, ?_⟩
    rw [each_cons, hb, hbs]
    rfl

theorem each_eq_thrown (h : each f as = thrown bs) :
    ∃ front a back front' b, as = front ++ a :: back ∧ bs = front' ++ b :: back ∧
      List.Forall₂ (fun a b => f a = returned b) front front' ∧ f a = thrown b := by
  induction as generalizing bs with
  | nil => simp at h
  | cons a as ih =>
    rw [each_cons] at h
    cases hf : f a with
    | returned b =>
      rw [hf] at h
      obtain ⟨bs', hrest, rfl⟩ := map_eq_thrown.1 h
      obtain ⟨front, a', back, front', b', rfl, rfl, hfront, hlast⟩ := ih hrest
      exact ⟨a :: front, a', back, b :: front', b', rfl, rfl, .cons hf hfront, hlast⟩
    | thrown b =>
      rw [hf] at h
      cases h
      exact ⟨[], a, as, [], b, rfl, rfl, .nil, hf⟩
    | aborted =>
      rw [hf] at h
      cases h

theorem mem_of_each {b : α} (h : each f as = returned bs) (hb : b ∈ bs) : ∃ a ∈ as, f a = returned b := by
  have hall := each_eq_returned.1 h
  clear h
  induction hall with
  | nil => simp at hb
  | cons hfirst hrest ih =>
    rcases List.mem_cons.mp hb with rfl | hb
    · exact ⟨_, List.mem_cons_self, hfirst⟩
    · obtain ⟨a, ha, hf⟩ := ih hb
      exact ⟨a, List.mem_cons_of_mem _ ha, hf⟩

theorem each_mem {a : α} (h : each f as = returned bs) (ha : a ∈ as) : ∃ b ∈ bs, f a = returned b := by
  have hall := each_eq_returned.1 h
  clear h
  induction hall with
  | nil => simp at ha
  | cons hfirst hrest ih =>
    rcases List.mem_cons.mp ha with rfl | ha
    · exact ⟨_, List.mem_cons_self, hfirst⟩
    · obtain ⟨b, hb, hf⟩ := ih ha
      exact ⟨b, List.mem_cons_of_mem _ hb, hf⟩

end Ending
