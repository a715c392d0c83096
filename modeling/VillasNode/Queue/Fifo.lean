import Mathlib.Data.List.Chain
import VillasNode.Queue.Sequential

/-!
# The queue as a bounded list

`queue_push` and `queue_pull` one after the other, against a list with a
capacity. A queue of one cell is never full: once the cell is filled, its
sequence number is the next position of the tail.
-/

namespace VillasNode.Mpmc

variable {α : Type*}

inductive Call (α : Type*) where
  | push (v : α)
  | pull
deriving DecidableEq

def Queue.call (q : Queue α) : Call α → Option (Queue α × Int × Option α)
  | .push v => (q.push v).map fun (q, ret) => (q, ret, none)
  | .pull => q.pull

/-! ## The specification -/

/-- A list with a capacity. What the call returns, and the value it takes out. -/
def fifoCall (capacity : Nat) (xs : List α) : Call α → List α × Int × Option α
  | .push v => if xs.length < capacity then (xs ++ [v], 1, none) else (xs, 0, none)
  | .pull =>
    match xs with
    | [] => ([], 0, none)
    | x :: xs => (xs, 1, some x)

/-- The queue has the values of the list, each in its cell. -/
structure Stores (q : Queue α) (xs : List α) : Prop where
  available : q.available.toNat = xs.length
  data : ∀ i x, xs[i]? = some x → (q.cell (q.head + word i)).data = some x

/-- Along the calls, the queue has the values of the list, and each call returns what it returns
for the list. -/
def Follows (spec : List α → Call α → List α × Int × Option α) :
    Queue α → List α → List (Call α) → Prop
  | q, xs, [] => Stores q xs
  | q, xs, c :: cs =>
    Stores q xs ∧ ∃ q', q.call c = some (q', (spec xs c).2) ∧ Follows spec q' (spec xs c).1 cs

def Call.isPush : Call α → Bool
  | .push _ => true
  | .pull => false

/-- No push comes right behind another one. -/
def Alternates (cs : List (Call α)) : Prop :=
  cs.IsChain fun c d => ¬ (c.isPush = true ∧ d.isPush = true)

/-! ## One call -/

section
variable {spec : List α → Call α → List α × Int × Option α} {q q' : Queue α} {xs : List α}
  {c : Call α} {cs : List (Call α)}

theorem Queue.call_push {v : α} {ret : Int} (h : q.push v = some (q', ret)) :
    q.call (.push v) = some (q', ret, none) := by
  change (q.push v).map _ = _
  rw [h]
  rfl

theorem follows_cons_iff (hstores : Stores q xs) (hcall : q.call c = some (q', (spec xs c).2)) :
    Follows spec q xs (c :: cs) ↔ Follows spec q' (spec xs c).1 cs := by
  constructor
  · rintro ⟨-, q₂, hcall₂, hrest⟩
    cases hcall.symm.trans hcall₂
    exact hrest
  · intro hrest
    exact ⟨hstores, q', hcall, hrest⟩

theorem not_follows {result : Int × Option α} (hcall : q.call c = some (q', result))
    (hne : result ≠ (spec xs c).2) : ¬ Follows spec q xs (c :: cs) := by
  rintro ⟨-, q₂, hcall₂, -⟩
  cases hcall.symm.trans hcall₂
  exact hne rfl

end

/-! ## The accesses of the calls -/

section
variable {τ : Type*} [DecidableEq τ] {c : Config τ α} {q : Queue α}

theorem call_alone {t : τ} {call : Call α} {result : Int × Option α} (hidle : c.locals t = .idle)
    (h : c.queue.call call = some (q, result)) : Alone t c q := by
  cases call with
  | push v =>
    obtain ⟨⟨q', ret⟩, hpush, heq⟩ := Option.map_eq_some_iff.mp h
    cases heq
    exact push_alone hidle hpush
  | pull => exact pull_alone hidle h

/-- What calls of any threads, one after the other, do to the queue, their accesses do as well. -/
theorem calls_alone {calls : List (τ × Call α)} (hidle : ∀ t, c.locals t = .idle)
    (h : Runs.run (fun q (a : τ × Call α) => (q.call a.2).map Prod.fst) c.queue calls = some q) :
    ∃ as, (Runs.run Config.step c as).map (fun c => (c.queue, c.locals)) = some (q, c.locals) := by
  induction calls generalizing c with
  | nil =>
    cases h
    exact ⟨[], rfl⟩
  | cons a calls ih =>
    rw [Runs.run_cons, Option.bind_eq_some_iff] at h
    obtain ⟨q₁, hfirst, hrest⟩ := h
    obtain ⟨⟨q₂, result⟩, hcall, rfl⟩ := Option.map_eq_some_iff.mp hfirst
    obtain ⟨as, -, hrun⟩ : Alone a.1 c q₂ := call_alone (hidle a.1) hcall
    obtain ⟨c₁, hc₁, heq⟩ := Option.map_eq_some_iff.mp hrun
    obtain ⟨hqueue, hlocals⟩ := Prod.mk.inj heq
    subst hqueue
    obtain ⟨as', hrun'⟩ := ih (by rwa [hlocals]) hrest
    refine ⟨as ++ as', ?_⟩
    rw [Runs.run_append, hc₁, Option.bind_some, hrun', hlocals]

end

/-! ## Room for two values or more -/

section
variable {N H : Nat} {q : Queue α} {xs : List α} {cs : List (Call α)}

theorem HoldsAt.stores (h : HoldsAt N q H xs) (hN : IsPow2 N) : Stores q xs := by
  refine ⟨h.available hN, fun i x hx => ?_⟩
  have hword : word H + word i = word (H + i) := (BitVec.ofNat_add H i).symm
  rw [h.head, hword, h.cell_word hN, h.full i x hx]

theorem Holds.call (h : Holds N q xs) (hN : Size N) (c : Call α) :
    ∃ q', q.call c = some (q', (fifoCall N xs c).2) ∧ Holds N q' (fifoCall N xs c).1 := by
  cases c with
  | push v =>
    simp only [fifoCall]
    obtain ⟨hlen, hpush⟩ | ⟨hlen, q', hpush, h'⟩ := h.push hN v
    · rw [if_neg (by omega)]
      exact ⟨q, Queue.call_push hpush, h⟩
    · rw [if_pos hlen]
      exact ⟨q', Queue.call_push hpush, h'⟩
  | pull =>
    cases xs with
    | nil => exact ⟨q, h.pull_empty hN, h⟩
    | cons x xs => exact h.pull hN

theorem Holds.follows (h : Holds N q xs) (hN : Size N) : Follows (fifoCall N) q xs cs := by
  induction cs generalizing q xs with
  | nil =>
    obtain ⟨H, h⟩ := h
    exact h.stores hN.isPow2
  | cons c cs ih =>
    obtain ⟨q', hcall, h'⟩ := h.call hN c
    obtain ⟨H, h⟩ := h
    exact ⟨h.stores hN.isPow2, q', hcall, ih h'⟩

/-! ## Room for one value -/

theorem isPow2_one : IsPow2 1 := ⟨0, by omega, rfl⟩

theorem Alternates.pull_iff : Alternates (.pull :: cs) ↔ Alternates cs := by
  cases cs with
  | nil => simp [Alternates]
  | cons c cs => simp [Alternates, Call.isPush]

theorem Alternates.push_pull_iff {v : α} :
    Alternates (.push v :: .pull :: cs) ↔ Alternates cs := by
  have hpull : Alternates (.push v :: .pull :: cs) ↔ Alternates (.pull :: cs) := by
    simp [Alternates, Call.isPush]
  exact hpull.trans Alternates.pull_iff

theorem Alternates.push_push {v w : α} : ¬ Alternates (.push v :: .push w :: cs) := by
  simp [Alternates, Call.isPush]

/-- The one cell has the sequence number that the next position of the tail needs, filled or not. -/
structure Endless (q : Queue α) : Prop where
  running : q.stopped = false
  mask : q.bufferMask = 0
  sequence : (q.buffer 0).sequence = q.tail

theorem HoldsAt.endless (h : HoldsAt 1 q H xs) : Endless q := by
  refine ⟨h.running, h.mask, ?_⟩
  rw [h.tail]
  have hfits := h.fits
  cases xs with
  | nil =>
    have hfree := h.free H (by simp) (by omega)
    rwa [Nat.mod_one] at hfree
  | cons x xs =>
    rw [List.length_cons] at hfits
    have hfull := h.full 0 x rfl
    rw [Nat.mod_one] at hfull
    rw [hfull, List.length_cons, Nat.le_zero.mp (Nat.le_of_succ_le_succ hfits)]

theorem Endless.push (h : Endless q) (v : α) :
    ∃ q', q.push v = some (q', 1) ∧ Endless q' ∧ q'.tail = q.tail + 1 ∧ q'.head = q.head := by
  have hzero : q.index q.tail = 0 := by simp [Queue.index, h.mask]
  have hindex : ({ q with tail := q.tail + 1 } : Queue α).index q.tail = 0 := hzero
  have hdiff : ((q.cell q.tail).sequence - q.tail).toInt = 0 := by
    rw [Queue.cell, hzero, h.sequence, BitVec.sub_self]
    rfl
  refine ⟨(({ q with tail := q.tail + 1 } : Queue α).setData q.tail v).setSequence q.tail
    (q.tail + 1), ?_, ⟨h.running, h.mask, ?_⟩, rfl, rfl⟩
  · unfold Queue.push
    dsimp only
    rw [if_neg (by simp [h.running]), if_pos hdiff]
  · rw [setData_setSequence_buffer, hindex, if_pos rfl]
    rfl

theorem HoldsAt.follows_one_iff (cs : List (Call α)) :
    (∀ q H, HoldsAt 1 q H [] → (Follows (fifoCall 1) q [] cs ↔ Alternates cs)) ∧
      ∀ q H x, HoldsAt 1 q H [x] →
        (Follows (fifoCall 1) q [x] cs ↔ Alternates (.push x :: cs)) := by
  induction cs with
  | nil =>
    refine ⟨fun q H h => ?_, fun q H x h => ?_⟩
    · exact iff_of_true (h.stores isPow2_one) (by simp [Alternates])
    · exact iff_of_true (h.stores isPow2_one) (by simp [Alternates])
  | cons c cs ih =>
    obtain ⟨hempty, hone⟩ := ih
    refine ⟨fun q H h => ?_, fun q H x h => ?_⟩
    · cases c with
      | push v =>
        obtain ⟨q', hpush, h'⟩ := h.push isPow2_one Nat.zero_lt_one v
        rw [← hone q' H v h']
        exact follows_cons_iff (h.stores isPow2_one) (Queue.call_push hpush)
      | pull =>
        rw [Alternates.pull_iff, ← hempty q H h]
        exact follows_cons_iff (h.stores isPow2_one) (h.pull_empty isPow2_one)
    · cases c with
      | push v =>
        -- The code returns 1. The list is full.
        obtain ⟨q', hpush, -⟩ := h.endless.push v
        exact iff_of_false (not_follows (Queue.call_push hpush) (by simp [fifoCall]))
          Alternates.push_push
      | pull =>
        obtain ⟨q', hcall, h'⟩ := h.pull isPow2_one
        rw [Alternates.push_pull_iff, ← hempty q' (H + 1) h']
        exact follows_cons_iff (h.stores isPow2_one) hcall

end

/-- For every size that `queue_init` rounds to a word and every run of calls, the queue is a list
with the rounded size as capacity if and only if there is room for two values or no push comes
right behind another one. -/
theorem follows_fifo_iff {size : Nat} (hsize : 1 ≤ size) (hle : size ≤ 2 ^ 63)
    (cs : List (Call α)) :
    Follows (fifoCall (2 ^ Nat.clog 2 size)) (queueInit α size) [] cs ↔
      size ≠ 1 ∨ Alternates cs := by
  by_cases hone : size = 1
  · subst hone
    obtain ⟨H, h⟩ : Holds (2 ^ Nat.clog 2 1) (queueInit α 1) [] := queueInit_holds 1
    rw [Nat.clog_one_right, pow_zero] at h ⊢
    rw [(HoldsAt.follows_one_iff cs).1 _ H h]
    simp
  · exact iff_of_true ((queueInit_holds size).follows (size_clog (by omega) hle)) (.inl hone)

theorem follows_fifo_three :
    Follows (fifoCall 4) (queueInit Nat 3) [] [.push 7, .push 8, .pull] := by
  have hclog : 2 ^ Nat.clog 2 3 = 4 := by decide
  have hsize : 1 ≤ 3 := by decide
  rw [← hclog]
  exact (follows_fifo_iff hsize (by decide) _).mpr (.inl (by decide))

/-- Two pushes into a queue for one value. Both return 1, and the first value is gone. -/
theorem push_overwrites :
    ((queueInit Nat 1).push 7).bind (fun (q, _) => (q.push 8).map fun (q, ret) =>
        (ret, q.available, (q.cell q.head).data)) = some (1, 2, some 8) ∧
      ¬ ∀ size, 1 ≤ size → size ≤ 2 ^ 63 → ∀ cs : List (Call Nat),
        Follows (fifoCall (2 ^ Nat.clog 2 size)) (queueInit Nat size) [] cs := by
  refine ⟨by decide, fun h => ?_⟩
  have hrun := h 1 (by decide) (by decide) [.push 7, .push 8]
  obtain ⟨H, hH⟩ : Holds (2 ^ Nat.clog 2 1) (queueInit Nat 1) [] := queueInit_holds 1
  rw [Nat.clog_one_right, pow_zero] at hH hrun
  exact Alternates.push_push ((HoldsAt.follows_one_iff _).1 _ H hH |>.mp hrun)

end VillasNode.Mpmc
