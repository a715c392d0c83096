import Mathlib.Data.List.Basic

/-!
# Channels that lose

A channel hands on what it is offered, once and in order. It has room for so
many items at a time: what it has no room for is lost, and an item that waits
may be lost as well. Nothing else happens to an item.
-/

namespace Channel

variable {α : Type*}

structure State (α : Type*) where
  waiting : List α
  delivered : List α

inductive Op (α : Type*) where
  /-- A batch comes, of which no more than `limit` items reach the channel. -/
  | offer (batch : List α) (limit : Nat)
  | deliver (n : Nat)
  | lose (n : Nat)

def Op.offered : Op α → List α
  | .offer batch _ => batch
  | .deliver _ => []
  | .lose _ => []

def step (size : Nat) (c : State α) : Op α → State α
  | .offer batch limit =>
    { c with waiting := c.waiting ++ (batch.take limit).take (size - c.waiting.length) }
  | .deliver n => { waiting := c.waiting.drop n, delivered := c.delivered ++ c.waiting.take n }
  | .lose n => { c with waiting := c.waiting.drop n }

/-- All that has not been lost, in order. -/
def State.kept (c : State α) : List α := c.delivered ++ c.waiting

/-- Some operations with which a channel is offered the items `offered` lead from `c` to `c'`. -/
def Reach (size : Nat) (offered : List α) (c c' : State α) : Prop :=
  ∃ ops : List (Op α), ops.flatMap Op.offered = offered ∧ ops.foldl (step size) c = c'

variable {size : Nat} {c c₁ c₂ : State α} {offered offered' : List α}

theorem Reach.refl (size : Nat) (c : State α) : Reach size [] c c := ⟨[], rfl, rfl⟩

theorem Reach.trans (h₁ : Reach size offered c c₁) (h₂ : Reach size offered' c₁ c₂) :
    Reach size (offered ++ offered') c c₂ := by
  obtain ⟨ops, rfl, rfl⟩ := h₁
  obtain ⟨ops', rfl, rfl⟩ := h₂
  exact ⟨ops ++ ops', List.flatMap_append, List.foldl_append⟩

theorem Reach.one (size : Nat) (c : State α) (op : Op α) : Reach size op.offered c (step size c op) :=
  ⟨[op], by simp, rfl⟩

theorem Reach.batch {m v : Nat} (size : Nat) (waiting delivered : List α) (hle : m ≤ v) :
    Reach size [] ⟨waiting, delivered⟩ ⟨waiting.drop v, delivered ++ waiting.take m⟩ := by
  refine ⟨[.deliver m, .lose (v - m)], rfl, ?_⟩
  unfold List.foldl step
  simp only [List.foldl, List.drop_drop, Nat.add_sub_cancel' hle]

theorem step_kept (size : Nat) (c : State α) (op : Op α) :
    (step size c op).kept.Sublist (c.kept ++ op.offered) := by
  cases op with
  | offer batch limit =>
    unfold step State.kept Op.offered
    rw [← List.append_assoc]
    exact ((List.take_sublist _ _).trans (List.take_sublist _ _)).append_left _
  | deliver n =>
    unfold step State.kept Op.offered
    dsimp only
    rw [List.append_assoc, List.take_append_drop, List.append_nil]
  | lose n =>
    unfold step State.kept Op.offered
    dsimp only
    rw [List.append_nil]
    exact (List.drop_sublist n c.waiting).append_left _

/-- Nothing comes out of a channel that was not put in, twice, or in another order. -/
theorem Reach.sublist (h : Reach size offered c c₁) : c₁.kept.Sublist (c.kept ++ offered) := by
  obtain ⟨ops, rfl, rfl⟩ := h
  induction ops generalizing c with
  | nil => simp
  | cons op ops ih =>
    rw [List.foldl_cons, List.flatMap_cons, ← List.append_assoc]
    exact ih.trans ((step_kept size c op).append_right _)

end Channel
