import Mathlib.Tactic.Basic

/-!
# Loops over partial writes

A loop that hands the rest of a batch to a call until all of it is taken. A
call says how much it took, or fails. What it takes depends on its state, which
others may change between the calls.
-/

namespace PartialWrites

variable {δ : Type*} (write : δ → Nat → Option Nat × δ) (vect cnt : Nat)

/-- What the next call is given. -/
def offered (nsent : Nat) : Nat := min (cnt - nsent) vect

/-- The loop ends with this result. There is no end behind a call that took more than it was
given. -/
inductive Returns : δ → Nat → Option Nat → Prop
  | done {s : δ} {nsent : Nat} : cnt ≤ nsent → Returns s nsent (some nsent)
  | fail {s : δ} {nsent : Nat} : nsent < cnt → (write s (offered vect cnt nsent)).1 = none →
    Returns s nsent none
  | round {s : δ} {nsent n : Nat} {r : Option Nat} : nsent < cnt →
    (write s (offered vect cnt nsent)).1 = some n → n ≤ offered vect cnt nsent →
    Returns (write s (offered vect cnt nsent)).2 (nsent + n) r → Returns s nsent r

/-- The loop that also ends with the first call that takes nothing. -/
inductive Stops : δ → Nat → Option Nat → Prop
  | done {s : δ} {nsent : Nat} : cnt ≤ nsent → Stops s nsent (some nsent)
  | fail {s : δ} {nsent : Nat} : nsent < cnt → (write s (offered vect cnt nsent)).1 = none →
    Stops s nsent none
  | short {s : δ} {nsent : Nat} : nsent < cnt → (write s (offered vect cnt nsent)).1 = some 0 →
    Stops s nsent (some nsent)
  | round {s : δ} {nsent n : Nat} {r : Option Nat} : nsent < cnt →
    (write s (offered vect cnt nsent)).1 = some n → 0 < n → n ≤ offered vect cnt nsent →
    Stops (write s (offered vect cnt nsent)).2 (nsent + n) r → Stops s nsent r

/-- The loop gets to a call in the state `s'` with `m` taken. -/
inductive Calls : δ → Nat → δ → Nat → Prop
  | here {s : δ} {nsent : Nat} : nsent < cnt → Calls s nsent s nsent
  | next {s s' : δ} {nsent n m : Nat} : nsent < cnt →
    (write s (offered vect cnt nsent)).1 = some n →
    Calls (write s (offered vect cnt nsent)).2 (nsent + n) s' m → Calls s nsent s' m

/-- Every call that does not fail takes something, and no more than it is given. -/
def Progresses (s : δ) (nsent : Nat) : Prop :=
  ∀ s' m, Calls write vect cnt s nsent s' m → ∀ n, (write s' (offered vect cnt m)).1 = some n →
    0 < n ∧ n ≤ offered vect cnt m

variable {write vect cnt} {s : δ} {nsent m : Nat} {r : Option Nat}

theorem Returns.full (h : Returns write vect cnt s nsent r) (hr : r = some m) : cnt ≤ m := by
  induction h with
  | done hle =>
    cases hr
    exact hle
  | fail => simp at hr
  | round _ _ _ _ ih => exact ih hr

theorem Returns.progresses (h : Returns write vect cnt s nsent r)
    (hstops : Stops write vect cnt s nsent r) : Progresses write vect cnt s nsent := by
  induction h with
  | done hle =>
    rintro s' m (hlt | hlt)
    · omega
    · omega
  | fail hlt hnone =>
    rintro s' m (_ | ⟨_, hsome, _⟩)
    · simp [hnone]
    · simp [hnone] at hsome
  | @round s nsent n r hlt hn hle hrest ih =>
    -- With a call that takes nothing the other loop has ended, and this one will not end there.
    have hpos : 0 < n ∧ Stops write vect cnt (write s (offered vect cnt nsent)).2 (nsent + n) r := by
      rcases hstops with hfull | ⟨_, hnone⟩ | ⟨_, hzero⟩ | ⟨_, hn', hpos, _, hstops⟩
      · omega
      · simp [hn] at hnone
      · have := hrest.full rfl
        omega
      · rw [hn] at hn'
        cases hn'
        exact ⟨hpos, hstops⟩
    rintro s' m (_ | ⟨_, hn', hcalls⟩)
    · intro n' hn'
      rw [hn] at hn'
      cases hn'
      exact ⟨hpos.1, hle⟩
    · rw [hn] at hn'
      cases hn'
      exact ih hpos.2 s' m hcalls

theorem Progresses.ends (h : Progresses write vect cnt s nsent) :
    ∃ r, Returns write vect cnt s nsent r ∧ Stops write vect cnt s nsent r := by
  induction hleft : cnt - nsent using Nat.strongRecOn generalizing s nsent with
  | ind left ih =>
    by_cases hlt : nsent < cnt
    · rcases hn : (write s (offered vect cnt nsent)).1 with _ | n
      · exact ⟨none, .fail hlt hn, .fail hlt hn⟩
      obtain ⟨hpos, hle⟩ := h s nsent (.here hlt) n hn
      have hrest : Progresses write vect cnt (write s (offered vect cnt nsent)).2 (nsent + n) :=
        fun s' m hcalls => h s' m (.next hlt hn hcalls)
      obtain ⟨r, hreturns, hstops⟩ := ih (cnt - (nsent + n)) (by omega) hrest rfl
      exact ⟨r, .round hlt hn hle hreturns, .round hlt hn hpos hle hstops⟩
    · exact ⟨some nsent, .done (by omega), .done (by omega)⟩

/-- The loop ends as it would with the first call that takes nothing, exactly when there is no such
call. -/
theorem ends_iff_progresses :
    (∃ r, Returns write vect cnt s nsent r ∧ Stops write vect cnt s nsent r) ↔
      Progresses write vect cnt s nsent := by
  constructor
  · rintro ⟨r, hreturns, hstops⟩
    exact hreturns.progresses hstops
  · exact Progresses.ends

end PartialWrites
