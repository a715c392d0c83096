import VillasNode.Queue.Fifo

/-!
# A closed queue

`queue_close`, and the calls behind it. A closed queue refuses every call at
once, whatever it has left.
-/

namespace VillasNode.Mpmc

variable {α : Type*} {q q' : Queue α} {xs : List α}

/-- `queue_close`. The weak compare-exchange may fail for no reason. -/
def Queue.close (q : Queue α) (spurious : Bool) : Queue α × Int :=
  if q.stopped ∨ spurious then (q, -1) else ({ q with stopped := true }, 0)

/-- The list of a closed queue: "causing following writes to fail and following reads (after the
queue is empty) to fail". -/
def drainCall (xs : List α) : Call α → List α × Int × Option α
  | .push _ => (xs, -1, none)
  | .pull =>
    match xs with
    | [] => ([], -1, none)
    | x :: xs => (xs, 1, some x)

theorem Queue.call_stopped (h : q.stopped = true) (c : Call α) :
    q.call c = some (q, -1, none) := by
  cases c with
  | push v =>
    apply Queue.call_push
    rw [Queue.push, if_pos h]
  | pull => exact if_pos h

theorem Queue.close_eq {spurious : Bool} (h : q.close spurious = (q', 0)) :
    q' = { q with stopped := true } := by
  unfold Queue.close at h
  split at h
  · cases h
  · cases h
    rfl

theorem follows_drain_stopped (hstopped : q.stopped = true) (hstores : Stores q xs)
    (cs : List (Call α)) : Follows drainCall q xs cs ↔ xs = [] ∨ Call.pull ∉ cs := by
  induction cs with
  | nil => exact iff_of_true hstores (.inr (by simp))
  | cons c cs ih =>
    have hcall := Queue.call_stopped hstopped c
    cases c with
    | push v =>
      rw [follows_cons_iff hstores hcall]
      simpa [drainCall] using ih
    | pull =>
      cases xs with
      | nil =>
        rw [follows_cons_iff hstores hcall]
        exact iff_of_true (ih.mpr (.inl rfl)) (.inl rfl)
      | cons x xs =>
        -- The value is there, and the code returns -1.
        exact iff_of_false (not_follows hcall (by simp [drainCall])) (by simp)

/-- For every content and every run of calls behind a successful `queue_close`, the queue is
drained as the header says if and only if there is nothing to drain or no call pulls. -/
theorem follows_drain_iff {spurious : Bool} (hstores : Stores q xs)
    (hclose : q.close spurious = (q', 0)) (cs : List (Call α)) :
    Follows drainCall q' xs cs ↔ xs = [] ∨ Call.pull ∉ cs := by
  have hstopped : q'.stopped = true := by rw [Queue.close_eq hclose]
  have hstores' : Stores q' xs := by
    rw [Queue.close_eq hclose]
    exact ⟨hstores.available, hstores.data⟩
  exact follows_drain_stopped hstopped hstores' cs

theorem queueInit_stores (size : Nat) : Stores (queueInit α size) [] := by
  refine ⟨?_, by simp⟩
  simp [Queue.available, queueInit]

theorem follows_drain_empty :
    Follows drainCall ((queueInit Nat 4).close false).1 [] [.push 7, .pull, .pull] := by
  have hclose : (queueInit Nat 4).close false = (((queueInit Nat 4).close false).1, 0) := rfl
  exact (follows_drain_iff (queueInit_stores 4) hclose _).mpr (.inl rfl)

/-- One value is pushed, the queue is closed, and the next pull fails. -/
theorem close_strands :
    (((queueInit Nat 4).push 7).bind fun (q, _) =>
        (q.close false).1.pull.map fun (_, result) => result) = some (-1, none) ∧
      ¬ ∀ (q q' : Queue Nat) (xs : List Nat) (spurious : Bool) (cs : List (Call Nat)),
        Stores q xs → q.close spurious = (q', 0) → Follows drainCall q' xs cs := by
  refine ⟨by decide, fun h => ?_⟩
  obtain ⟨q, hpush, hholds⟩ : ∃ q, (queueInit Nat 4).push 7 = some (q, 1) ∧ Holds 4 q [7] := by
    have hsize : Size 4 := ⟨⟨2, by decide, by decide⟩, by decide⟩
    obtain ⟨hfull, -⟩ | ⟨-, hpush⟩ := (queueInit_holds 4).push hsize 7
    · exact absurd hfull (by decide)
    · exact hpush
  obtain ⟨H, hH⟩ := hholds
  have hstores := hH.stores ⟨2, by decide, by decide⟩
  have hclose : q.close false = ({ q with stopped := true }, 0) := by
    rw [Queue.close, if_neg (by simp [hH.running])]
  have hrun := h q _ [7] false [.pull] hstores hclose
  exact absurd ((follows_drain_iff hstores hclose _).mp hrun) (by decide)

end VillasNode.Mpmc
