import VillasNode.Lib.Runs
import VillasNode.Queue.Sequential

/-!
# Readiness of a signalled queue

`lib/queue_signalled.cpp` in the mode EVENTFD, call by call: producers push and
one consumer pulls. A pull that finds nothing blocks in `read` until somebody
writes to the descriptor.
-/

namespace VillasNode.Poll

open Mpmc

variable {α : Type*}

/-- `queue_signalled_pull`, or `queue_signalled_pull_many` for `cnt` values. -/
inductive Request where
  | one
  | many (cnt : Nat)
deriving DecidableEq

def Request.cnt : Request → Nat
  | .one => 1
  | .many cnt => cnt

structure QueueSignalled (α : Type*) where
  queue : Queue α
  /-- The counter of the descriptor. -/
  eventfd : Nat
  /-- The pull that blocks in `read`. -/
  waiting : Option Request

def init (α : Type*) (size : Nat) : QueueSignalled α := ⟨queueInit α size, 0, none⟩

/-- The end of a push: `write` adds one to the counter, even when the queue was full. -/
def signal (s : QueueSignalled α) (q : Queue α) (pushed : Int) : QueueSignalled α :=
  if pushed < 0 then { s with queue := q } else { s with queue := q, eventfd := s.eventfd + 1 }

def queueSignalledPush (s : QueueSignalled α) (v : α) : Option (QueueSignalled α) :=
  (s.queue.push v).map fun (q, pushed) => signal s q pushed

def queueSignalledPushMany (s : QueueSignalled α) (vs : List α) : Option (QueueSignalled α) :=
  (s.queue.pushMany vs).map fun (q, pushed) => signal s q pushed

/-- `queue_pull` or `queue_pull_many`, without what it stores. -/
def attempt (q : Queue α) : Request → Option (Queue α × Int)
  | .one => q.pull.map fun (q, pulled, _) => (q, pulled)
  | .many cnt => (q.pullMany cnt).map fun (q, pulled, _) => (q, pulled)

/-- The `while` loop of a pull, for some rounds. `read` gives the counter and clears it, and blocks
while it is 0. -/
def pullLoop (s : QueueSignalled α) (r : Request) : Nat → Option (QueueSignalled α)
  | 0 => none
  | rounds + 1 =>
    match attempt s.queue r with
    | none => none
    | some (q, pulled) =>
      if pulled ≠ 0 then some ⟨q, s.eventfd, none⟩
      else if s.eventfd = 0 then some ⟨q, 0, some r⟩
      else pullLoop ⟨q, 0, none⟩ r rounds

/-- Two rounds are enough, because the counter is 0 after the first `read`. -/
def queueSignalledPull (s : QueueSignalled α) (r : Request) : Option (QueueSignalled α) :=
  if s.waiting = none ∧ 1 ≤ r.cnt then pullLoop s r 2 else none

/-- The blocked `read` returns. -/
def resume (s : QueueSignalled α) : Option (QueueSignalled α) :=
  match s.waiting with
  | none => none
  | some r => if s.eventfd = 0 then none else pullLoop ⟨s.queue, 0, none⟩ r 2

inductive Op (α : Type*) where
  | push (v : α)
  | pushMany (vs : List α)
  | pull (r : Request)
  | resume

def step (s : QueueSignalled α) : Op α → Option (QueueSignalled α)
  | .push v => queueSignalledPush s v
  | .pushMany vs => queueSignalledPushMany s vs
  | .pull r => queueSignalledPull s r
  | .resume => resume s

/-! ## Readiness -/

/-- `poll` reports the descriptor exactly when there is something to pull. -/
def Ready (s : QueueSignalled α) : Prop := 0 < s.eventfd ↔ s.queue.available ≠ 0

/-- A pull after `poll` has reported the descriptor does not block. -/
def PullsAtOnce (s : QueueSignalled α) : Prop :=
  0 < s.eventfd → s.waiting = none → ∀ r : Request, 1 ≤ r.cnt →
    ∃ s', queueSignalledPull s r = some s' ∧ s'.waiting = none

def Meets (s : QueueSignalled α) (op : Op α) : Prop :=
  ∀ s', step s op = some s' → Ready s' ∧ PullsAtOnce s'

/-- A pull that finds values leaves one behind, a pull that had to wait takes all of them, and no
empty batch is pushed into an empty queue. -/
def Orderly (s : QueueSignalled α) : Op α → Prop
  | .push _ => True
  | .pushMany vs => vs ≠ [] ∨ s.queue.available ≠ 0
  | .pull r => s.waiting = none → 1 ≤ r.cnt →
    s.queue.available = 0 ∨ r.cnt < s.queue.available.toNat
  | .resume => ∀ r ∈ s.waiting, s.queue.available.toNat ≤ r.cnt

instance [DecidableEq α] (s : QueueSignalled α) : ∀ op, Decidable (Orderly s op)
  | .push _ => .isTrue trivial
  | .pushMany _ => inferInstanceAs (Decidable (_ ∨ _))
  | .pull _ => inferInstanceAs (Decidable (_ → _ → _))
  | .resume => inferInstanceAs (Decidable (∀ r ∈ s.waiting, _))

section
variable {N : Nat} {q : Queue α} {xs : List α} {s s' : QueueSignalled α}

theorem available_ne_zero (hN : Size N) (h : Holds N q xs) : q.available ≠ 0 ↔ xs ≠ [] := by
  have hlen := h.available hN
  rw [not_iff_not, ← BitVec.toNat_inj, hlen]
  simp

theorem ready_iff (hN : Size N) (h : Holds N s.queue xs) : Ready s ↔ (0 < s.eventfd ↔ xs ≠ []) := by
  rw [Ready, available_ne_zero hN h]

theorem attempt_spec (hN : Size N) (h : Holds N q xs) (r : Request) :
    ∃ q', attempt q r = some (q', ((min r.cnt xs.length : Nat) : Int)) ∧
      Holds N q' (xs.drop r.cnt) := by
  cases r with
  | one =>
    cases xs with
    | nil => exact ⟨q, by simp [attempt, h.pull_empty hN, Request.cnt], by simpa using h⟩
    | cons x xs =>
      obtain ⟨q', hpull, h'⟩ := h.pull hN
      exact ⟨q', by simp [attempt, hpull, Request.cnt], by simpa [Request.cnt] using h'⟩
  | many cnt =>
    obtain ⟨q', hpull, h'⟩ := h.pullMany hN cnt
    exact ⟨q', by simp [attempt, hpull, Request.cnt], h'⟩

theorem pullLoop_found (hN : Size N) (h : Holds N s.queue xs) {r : Request} (hr : 1 ≤ r.cnt)
    (hne : xs ≠ []) (rounds : Nat) :
    ∃ q', pullLoop s r (rounds + 1) = some ⟨q', s.eventfd, none⟩ ∧ Holds N q' (xs.drop r.cnt) := by
  obtain ⟨q', hattempt, h'⟩ := attempt_spec hN h r
  have hpos : 0 < xs.length := List.length_pos_iff.mpr hne
  refine ⟨q', ?_, h'⟩
  simp only [pullLoop, hattempt]
  rw [if_pos (by omega)]

theorem pullLoop_empty (hN : Size N) (h : Holds N s.queue []) (r : Request) :
    ∃ q', pullLoop s r 2 = some ⟨q', 0, some r⟩ ∧ Holds N q' [] := by
  obtain ⟨q₁, hattempt, h₁⟩ := attempt_spec hN h r
  rw [List.drop_nil] at h₁
  obtain ⟨q₂, hattempt₂, h₂⟩ := attempt_spec hN h₁ r
  rw [List.drop_nil] at h₂
  simp only [List.length_nil, Nat.min_zero, Nat.cast_zero] at hattempt hattempt₂
  by_cases hzero : s.eventfd = 0
  · exact ⟨q₁, by simp [pullLoop, hattempt, hzero], h₁⟩
  · exact ⟨q₂, by simp [pullLoop, hattempt, hattempt₂, hzero], h₂⟩

theorem pullsAtOnce_of_ready (hN : Size N) (h : Holds N s.queue xs) (hready : Ready s) :
    PullsAtOnce s := by
  intro hpos hwaiting r hr
  have hne := ((ready_iff hN h).mp hready).mp hpos
  obtain ⟨q', hloop, -⟩ := pullLoop_found hN h hr hne 1
  exact ⟨_, by rw [queueSignalledPull, if_pos ⟨hwaiting, hr⟩, hloop], rfl⟩

/-- A queue between two calls, with a counter that tells whether it is empty. -/
def Good (N : Nat) (s : QueueSignalled α) : Prop :=
  (∃ xs, Holds N s.queue xs) ∧ Ready s ∧ ∀ r, s.waiting = some r → 1 ≤ r.cnt

theorem meets_iff_ready (hN : Size N) {op : Op α} (hstep : step s op = some s')
    (h : Holds N s'.queue xs) : Meets s op ↔ (0 < s'.eventfd ↔ xs ≠ []) := by
  constructor
  · intro hmeets
    exact (ready_iff hN h).mp (hmeets s' hstep).1
  · intro hready s₁ hs₁
    cases hstep.symm.trans hs₁
    have hready := (ready_iff hN h).mpr hready
    exact ⟨hready, pullsAtOnce_of_ready hN h hready⟩

/-- What a call leaves behind, and that the counter agrees with it exactly for an orderly call. -/
structure Left (N : Nat) (s : QueueSignalled α) (op : Op α) (s' : QueueSignalled α) : Prop where
  stepped : step s op = some s'
  waits : ∀ r, s'.waiting = some r → 1 ≤ r.cnt
  holds : ∃ xs, Holds N s'.queue xs ∧ ((0 < s'.eventfd ↔ xs ≠ []) ↔ Orderly s op)

theorem left_push (hN : Size N) (hgood : Good N s) (v : α) : ∃ s', Left N s (.push v) s' := by
  obtain ⟨⟨xs, h⟩, -, hwaits⟩ := hgood
  have htwo := hN.two
  obtain ⟨hlen, hpush⟩ | ⟨-, q', hpush, h'⟩ := h.push hN v
  · refine ⟨⟨s.queue, s.eventfd + 1, s.waiting⟩, ?_, hwaits, xs, h, ?_⟩
    · simp [step, queueSignalledPush, hpush, signal]
    · have hne : xs ≠ [] := by
        rintro rfl
        simp at hlen
        omega
      simp [Orderly, hne]
  · refine ⟨⟨q', s.eventfd + 1, s.waiting⟩, ?_, hwaits, _, h', ?_⟩
    · simp [step, queueSignalledPush, hpush, signal]
    · simp [Orderly]

theorem left_pushMany (hN : Size N) (hgood : Good N s) (vs : List α) :
    ∃ s', Left N s (.pushMany vs) s' := by
  obtain ⟨⟨xs, h⟩, -, hwaits⟩ := hgood
  have htwo := hN.two
  obtain ⟨q', hpush, h'⟩ := h.pushMany hN vs
  refine ⟨⟨q', s.eventfd + 1, s.waiting⟩, ?_, hwaits, _, h', ?_⟩
  · simp only [step, queueSignalledPushMany, hpush, Option.map_some, signal]
    rw [if_neg (by omega)]
  · simp only [Orderly, available_ne_zero hN h]
    cases xs with
    | nil => simp; omega
    | cons x xs => simp

theorem left_pull (hN : Size N) (hgood : Good N s) {r : Request} (hwaiting : s.waiting = none)
    (hr : 1 ≤ r.cnt) : ∃ s', Left N s (.pull r) s' := by
  obtain ⟨⟨xs, h⟩, hready, -⟩ := hgood
  have hcounter := (ready_iff hN h).mp hready
  have hlen := h.available hN
  have hzero := available_ne_zero hN h
  have hstep : step s (.pull r) = pullLoop s r 2 := if_pos ⟨hwaiting, hr⟩
  by_cases hne : xs = []
  · subst hne
    obtain ⟨q', hloop, h'⟩ := pullLoop_empty hN h r
    refine ⟨_, hstep.trans hloop, ?_, _, h', ?_⟩
    · simp [hr]
    · simp [Orderly, not_ne_iff.mp (mt hzero.mp (by simp))]
  · obtain ⟨q', hloop, h'⟩ := pullLoop_found hN h hr hne 1
    refine ⟨_, hstep.trans hloop, by simp, _, h', ?_⟩
    simp only [Orderly, hwaiting, forall_const, forall_prop_of_true hr, hlen]
    rw [or_iff_right (hzero.mpr hne)]
    simp [hcounter.mpr hne]

theorem left_resume (hN : Size N) (hgood : Good N s) {r : Request} (hwaiting : s.waiting = some r)
    (hpos : 0 < s.eventfd) : ∃ s', Left N s .resume s' := by
  obtain ⟨⟨xs, h⟩, hready, hwaits⟩ := hgood
  have hne := ((ready_iff hN h).mp hready).mp hpos
  have hr := hwaits r hwaiting
  obtain ⟨q', hloop, h'⟩ := pullLoop_found (s := ⟨s.queue, 0, none⟩) hN h hr hne 1
  refine ⟨⟨q', 0, none⟩, ?_, by simp, _, h', ?_⟩
  · simp only [step, resume, hwaiting]
    rw [if_neg (by omega), hloop]
  · simp [Orderly, hwaiting, h.available hN]

theorem step_spec (hN : Size N) (hgood : Good N s) (op : Op α) :
    (step s op = none ∧ Orderly s op) ∨ ∃ s', Left N s op s' := by
  cases op with
  | push v => exact .inr (left_push hN hgood v)
  | pushMany vs => exact .inr (left_pushMany hN hgood vs)
  | pull r =>
    by_cases hcan : s.waiting = none ∧ 1 ≤ r.cnt
    · exact .inr (left_pull hN hgood hcan.1 hcan.2)
    · refine .inl ⟨if_neg hcan, ?_⟩
      intro hwaiting hr
      exact absurd ⟨hwaiting, hr⟩ hcan
  | resume =>
    cases hwaiting : s.waiting with
    | none => exact .inl ⟨by simp [step, resume, hwaiting], by simp [Orderly, hwaiting]⟩
    | some r =>
      by_cases hpos : 0 < s.eventfd
      · exact .inr (left_resume hN hgood hwaiting hpos)
      · have hzero : s.queue.available = 0 := not_ne_iff.mp (mt hgood.2.1.mpr hpos)
        have hstep : step s .resume = none := by
          simp only [step, resume, hwaiting]
          rw [if_pos (by omega)]
        exact .inl ⟨hstep, by simp [Orderly, hzero]⟩

theorem meets_iff_orderly (hN : Size N) (hgood : Good N s) (op : Op α) :
    Meets s op ↔ Orderly s op := by
  obtain ⟨hnone, horderly⟩ | ⟨s', hleft⟩ := step_spec hN hgood op
  · simp [Meets, hnone, horderly]
  · obtain ⟨xs, h, hiff⟩ := hleft.holds
    rw [meets_iff_ready hN hleft.stepped h, hiff]

theorem step_good (hN : Size N) (hgood : Good N s) {op : Op α} (hmeets : Meets s op)
    (hstep : step s op = some s') : Good N s' := by
  obtain ⟨hnone, -⟩ | ⟨s₁, hleft⟩ := step_spec hN hgood op
  · simp [hnone] at hstep
  · cases hleft.stepped.symm.trans hstep
    obtain ⟨xs, h, -⟩ := hleft.holds
    exact ⟨⟨xs, h⟩, (hmeets _ hstep).1, hleft.waits⟩

end

/-- In every run of pushes and pulls the descriptor tells whether there is something to pull,
exactly when all calls are orderly. -/
theorem poll_ready_iff {size : Nat} (htwo : 2 ≤ size) (hsize : size ≤ 2 ^ 63) (ops : List (Op α)) :
    Runs.Along step Meets (init α size) ops ↔ Runs.Along step Orderly (init α size) ops := by
  have hN := size_clog htwo hsize
  have hinit : Good (2 ^ Nat.clog 2 size) (init α size) :=
    ⟨⟨[], queueInit_holds size⟩, by simp [Ready, init, queueInit, Queue.available], by simp [init]⟩
  rw [← List.append_nil ops]
  exact Runs.along_iff (I := Good (2 ^ Nat.clog 2 size)) (P := fun _ => True)
    (fun s op hgood _ => meets_iff_orderly hN hgood op)
    (fun s op s' hgood _ hmeets hstep => step_good hN hgood hmeets hstep)
    (fun _ _ => Iff.rfl) hinit (fun _ _ => trivial)

theorem poll_ready_waited :
    Runs.Along step Meets (init Nat 2) [.pull .one, .push 7, .resume, .pushMany [8, 9], .pull .one] :=
  (poll_ready_iff (by decide) (by decide) _).mpr (by decide)

/-- After one push and one pull the descriptor is reported while the queue is empty, and the pull
that follows blocks. -/
theorem poll_reports_empty :
    ∃ s s', Runs.run step (init Nat 2) [.push 7, .pull .one] = some s ∧ 0 < s.eventfd ∧
      s.queue.available = 0 ∧ queueSignalledPull s .one = some s' ∧ s'.waiting = some .one ∧
      ¬ Runs.Along step Meets (init Nat 2) [.push 7, .pull .one] := by
  refine ⟨_, _, rfl, by decide, by decide, rfl, rfl, ?_⟩
  intro hmeets
  obtain ⟨hready, -⟩ := (hmeets.2 _ rfl).1 _ rfl
  exact absurd (hready.mp (by decide)) (by decide)

end VillasNode.Poll
