import Mathlib.Data.Multiset.AddSub
import Mathlib.Data.Multiset.Count
import VillasNode.Lib.Runs

/-!
# Unmapping shared memory

`shmem_int_close`, `shmem_int_read` and `shmem_int_write` of `lib/shmem.cpp`,
cut into their atomic steps. Each of the two regions is unmapped by the closer
or by the last call that used it, which find out independently of each other.
-/

namespace VillasNode.ShmemInt

/-- `shm->read` with `readers`, and `shm->write` with `writers`. -/
inductive Dir where
  | read
  | write
deriving DecidableEq

/-- Where a call of `shmem_int_read` or `shmem_int_write` is. -/
inductive Place where
  /-- Before the increment. -/
  | entering
  /-- It uses the queue in the region. -/
  | accessing
  /-- Before the decrement. -/
  | leaving
  /-- The decrement has returned 1. -/
  | loading
  | unmapping
deriving DecidableEq

structure Call where
  dir : Dir
  place : Place
deriving DecidableEq

/-- Where `shmem_int_close` is. -/
inductive Closer where
  | idle
  /-- In `queue_signalled_close`. -/
  | closing
  | loading (d : Dir)
  | unmapping (d : Dir)
  | done
deriving DecidableEq

/-- The calls are told apart only by where they are. -/
structure State where
  users : Dir → Int
  closed : Bool
  closer : Closer
  calls : Multiset Call
  /-- How often `munmap` was called for the region. -/
  unmapped : Dir → Nat

inductive Action where
  | call (d : Dir)
  | step (c : Call)
  /-- `ok` says if `queue_signalled_close` returns 0. -/
  | closer (ok : Bool)

def State.enter (s : State) (d : Dir) : State := { s with calls := ⟨d, .entering⟩ ::ₘ s.calls }

/-- The next step of a call. -/
def callStep (s : State) (c : Call) : State :=
  let calls := s.calls.erase c
  match c.place with
  | .entering =>
    { s with users := Function.update s.users c.dir (s.users c.dir + 1)
             calls := ⟨c.dir, .accessing⟩ ::ₘ calls }
  | .accessing => { s with calls := ⟨c.dir, .leaving⟩ ::ₘ calls }
  | .leaving =>
    { s with users := Function.update s.users c.dir (s.users c.dir - 1)
             calls := if s.users c.dir = 1 then ⟨c.dir, .loading⟩ ::ₘ calls else calls }
  | .loading => { s with calls := if s.closed then ⟨c.dir, .unmapping⟩ ::ₘ calls else calls }
  | .unmapping =>
    { s with unmapped := Function.update s.unmapped c.dir (s.unmapped c.dir + 1), calls }

def Closer.next : Dir → Closer
  | .read => .loading .write
  | .write => .done

/-- The next step of the closer. -/
def closerStep (s : State) (ok : Bool) : Option State :=
  match s.closer with
  | .idle => some { s with closed := true, closer := .closing }
  | .closing => some { s with closer := if ok then .loading .read else .done }
  | .loading d => some { s with closer := if s.users d = 0 then .unmapping d else .next d }
  | .unmapping d =>
    some { s with unmapped := Function.update s.unmapped d (s.unmapped d + 1), closer := .next d }
  | .done => none

def step (s : State) : Action → Option State
  | .call d => some (s.enter d)
  | .step c => if c ∈ s.calls then some (callStep s c) else none
  | .closer ok => closerStep s ok

/-- As `shmem_int_open` leaves it. -/
def start : State := ⟨fun _ => 0, false, .idle, 0, fun _ => 0⟩

def State.count (s : State) (d : Dir) (p : Place) : Nat := s.calls.count ⟨d, p⟩

/-- No region is unmapped twice, and none that is unmapped is in use. -/
structure Safe (s : State) : Prop where
  once : ∀ d, s.unmapped d ≤ 1
  apart : ∀ d, 0 < s.unmapped d → s.count d .accessing = 0

/-! ## Who unmaps a region -/

/-- How many have unmapped the region or are on their way to it. -/
def State.due (s : State) (d : Dir) : Nat :=
  s.unmapped d + s.count d .unmapping + (if s.closed then s.count d .loading else 0) +
    if s.closer = .unmapping d then 1 else 0

/-- No call enters a region that somebody has unmapped or is going to. `closed` is not set while a
call that has left as the last one has not yet loaded it, but if it is the only one and nobody is in
the region. And the closer does not find nobody in a region that a call has unmapped or is going to. -/
def InOrder (s : State) : Action → Prop
  | .call _ => True
  | .step c => c.place = .entering → s.due c.dir = 0
  | .closer _ =>
    match s.closer with
    | .idle => ∀ d, s.count d .loading ≤ 1 ∧ (0 < s.count d .loading → s.users d = 0)
    | .loading d => s.users d = 0 → s.due d = 0
    | _ => True

/-- At most one unmaps the region, when nobody is in it. -/
def Unique (s : State) : Prop := ∀ d, s.due d ≤ 1 ∧ (0 < s.due d → s.users d = 0)

/-- The counters are right, and nobody unmaps before the closer is there. -/
structure Inv (s : State) : Prop where
  users : ∀ d, s.users d = s.count d .accessing + s.count d .leaving
  idle : s.closer = .idle → s.closed = false
  open_ : s.closed = false → s.closer = .idle ∧ ∀ d, s.due d = 0

section
variable {s s' : State} {c : Call} {d : Dir}

/-- Where a call is after its next step, `none` if it has returned. -/
def callNext (s : State) (c : Call) : Option Place :=
  match c.place with
  | .entering => some .accessing
  | .accessing => some .leaving
  | .leaving => if s.users c.dir = 1 then some .loading else none
  | .loading => if s.closed then some .unmapping else none
  | .unmapping => none

theorem calls_callStep (s : State) (c : Call) : (callStep s c).calls =
    (callNext s c).elim (s.calls.erase c) fun p => ⟨c.dir, p⟩ ::ₘ s.calls.erase c := by
  unfold callStep callNext
  cases c.place with
  | entering | accessing | unmapping => rfl
  | leaving | loading =>
    dsimp only
    split <;> rfl

theorem count_callStep (hc : c ∈ s.calls) (d : Dir) (p : Place) :
    (callStep s c).count d p + (if c = ⟨d, p⟩ then 1 else 0) =
      s.count d p + if callNext s c = some p ∧ c.dir = d then 1 else 0 := by
  have hcount : s.count d p = (s.calls.erase c).count ⟨d, p⟩ + if ⟨d, p⟩ = c then 1 else 0 := by
    unfold State.count
    conv_lhs => rw [← Multiset.cons_erase hc]
    rw [Multiset.count_cons]
  rw [hcount]
  unfold State.count
  rw [calls_callStep]
  cases callNext s c with
  | none => simp [eq_comm]
  | some q =>
    simp only [Option.elim_some, Multiset.count_cons, Call.mk.injEq, Option.some.injEq]
    grind

theorem unmapped_callStep (s : State) (c : Call) (d : Dir) : (callStep s c).unmapped d =
    s.unmapped d + if c = ⟨d, .unmapping⟩ then 1 else 0 := by
  obtain ⟨e, q⟩ := c
  cases q with
  | unmapping =>
    unfold callStep
    dsimp only
    rw [Function.update_apply]
    grind
  | entering | accessing | leaving | loading => simp [callStep]

theorem users_callStep (s : State) (c : Call) (d : Dir) : (callStep s c).users d =
    s.users d + (if c = ⟨d, .entering⟩ then 1 else 0) - if c = ⟨d, .leaving⟩ then 1 else 0 := by
  obtain ⟨e, q⟩ := c
  cases q with
  | entering | leaving =>
    unfold callStep
    dsimp only
    rw [Function.update_apply]
    grind
  | accessing | loading | unmapping => simp [callStep]

@[simp]
theorem closer_callStep (s : State) (c : Call) : (callStep s c).closer = s.closer := by
  unfold callStep
  cases c.place <;> rfl

@[simp]
theorem closed_callStep (s : State) (c : Call) : (callStep s c).closed = s.closed := by
  unfold callStep
  cases c.place <;> rfl

theorem due_callStep (hc : c ∈ s.calls) (d : Dir) : (callStep s c).due d =
    s.due d + if c = ⟨d, .leaving⟩ ∧ s.users d = 1 ∧ s.closed = true then 1 else 0 := by
  have hunmapping := count_callStep hc d .unmapping
  have hloading := count_callStep hc d .loading
  unfold State.due
  rw [closer_callStep, closed_callStep, unmapped_callStep]
  obtain ⟨e, q⟩ := c
  cases q <;> simp only [callNext] at hunmapping hloading <;> grind

theorem Inv.closed (hinv : Inv s) (hcloser : s.closer ≠ .idle) : s.closed = true := by
  cases hclosed : s.closed with
  | true => rfl
  | false => exact absurd (hinv.open_ hclosed).1 hcloser

theorem count_enter (s : State) (e d : Dir) {p : Place} (hp : p ≠ .entering) :
    (s.enter e).count d p = s.count d p := by
  unfold State.count State.enter
  rw [Multiset.count_cons_of_ne]
  simp [hp]

theorem due_enter (s : State) (e d : Dir) : (s.enter e).due d = s.due d := by
  unfold State.due
  rw [count_enter s e d (by simp), count_enter s e d (by simp)]
  rfl

theorem due_closerStep {ok : Bool} (hinv : Inv s) (hstep : closerStep s ok = some s') (d : Dir) :
    s'.users d = s.users d ∧ (∀ p, s'.count d p = s.count d p) ∧ s'.closer ≠ .idle ∧ s'.closed = true ∧
      s'.due d = s.due d + (if s.closer = .idle then s.count d .loading else 0) +
        if s.closer = .loading d ∧ s.users d = 0 then 1 else 0 := by
  unfold closerStep at hstep
  cases hcloser : s.closer with
  | idle =>
    rw [hcloser] at hstep
    cases hstep
    have hclosed := hinv.idle hcloser
    refine ⟨rfl, fun _ => rfl, by simp, rfl, ?_⟩
    simp [State.due, hclosed, hcloser, State.count]
  | closing =>
    rw [hcloser] at hstep
    cases hstep
    have hclosed := hinv.closed (by simp [hcloser])
    refine ⟨rfl, fun _ => rfl, ?_, hclosed, ?_⟩
    · cases ok <;> simp
    · cases ok <;> simp [State.due, hclosed, hcloser, State.count]
  | loading e =>
    rw [hcloser] at hstep
    cases hstep
    have hclosed := hinv.closed (by simp [hcloser])
    refine ⟨rfl, fun _ => rfl, ?_, hclosed, ?_⟩
    · cases e <;> dsimp only <;> split <;> simp [Closer.next]
    · unfold State.due State.count
      cases e <;> dsimp only [Closer.next] <;> grind
  | unmapping e =>
    rw [hcloser] at hstep
    cases hstep
    have hclosed := hinv.closed (by simp [hcloser])
    refine ⟨rfl, fun _ => rfl, ?_, hclosed, ?_⟩
    · cases e <;> simp [Closer.next]
    · unfold State.due State.count
      dsimp only
      rw [Function.update_apply]
      cases e <;> dsimp only [Closer.next] <;> grind
  | done =>
    rw [hcloser] at hstep
    cases hstep

theorem Inv.step {a : Action} (hinv : Inv s) (hstep : step s a = some s') : Inv s' := by
  cases a with
  | call e =>
    cases hstep
    refine ⟨fun d => ?_, hinv.idle, fun hclosed => ⟨(hinv.open_ hclosed).1, fun d => ?_⟩⟩
    · rw [count_enter s e d (by simp), count_enter s e d (by simp)]
      exact hinv.users d
    · rw [due_enter]
      exact (hinv.open_ hclosed).2 d
  | step c =>
    unfold ShmemInt.step at hstep
    dsimp only at hstep
    split at hstep
    · rename_i hc
      cases hstep
      refine ⟨fun d => ?_, ?_, ?_⟩
      · have haccessing := count_callStep hc d .accessing
        have hleaving := count_callStep hc d .leaving
        have husers := hinv.users d
        rw [users_callStep]
        obtain ⟨e, q⟩ := c
        cases q <;> simp only [callNext] at haccessing hleaving <;> grind
      · rw [closer_callStep, closed_callStep]
        exact hinv.idle
      · rw [closer_callStep, closed_callStep]
        refine fun hclosed => ⟨(hinv.open_ hclosed).1, fun d => ?_⟩
        rw [due_callStep hc, (hinv.open_ hclosed).2 d, hclosed]
        simp
    · cases hstep
  | closer ok =>
    have hclosed := (due_closerStep hinv hstep .read).2.2.2.1
    refine ⟨fun d => ?_, fun hidle => ?_, fun hopen => ?_⟩
    · obtain ⟨husers, hcount, -⟩ := due_closerStep hinv hstep d
      rw [husers, hcount, hcount]
      exact hinv.users d
    · exact absurd hidle (due_closerStep hinv hstep .read).2.2.1
    · rw [hclosed] at hopen
      cases hopen

theorem unique_step {a : Action} (hinv : Inv s) (hstep : ShmemInt.step s a = some s') :
    Unique s' ↔ Unique s ∧ InOrder s a := by
  cases a with
  | call e =>
    cases hstep
    unfold Unique
    simp only [due_enter, InOrder, and_true]
    rfl
  | step c =>
    unfold ShmemInt.step at hstep
    dsimp only at hstep
    split at hstep
    · rename_i hc
      cases hstep
      have hdue := due_callStep hc
      have husers := users_callStep s c
      have hleaving : ∀ d, c = ⟨d, .leaving⟩ → 0 < s.count d .leaving := by
        rintro d rfl
        exact Multiset.count_pos.mpr hc
      have hopen : ∀ d, 0 < s.due d → s.closed = true := by
        intro d hpos
        by_contra hclosed
        have := (hinv.open_ (Bool.eq_false_iff.mpr hclosed)).2 d
        omega
      have hcount := hinv.users
      unfold Unique InOrder
      constructor
      · intro hunique
        refine ⟨fun d => ?_, fun hentering => ?_⟩
        · have := hunique d
          grind
        · have := hunique c.dir
          obtain ⟨e, q⟩ := c
          grind
      · rintro ⟨hunique, horder⟩ d
        have := hunique d
        obtain ⟨e, q⟩ := c
        grind
    · cases hstep
  | closer ok =>
    have heffect := due_closerStep hinv hstep
    have husers : ∀ d, s'.users d = s.users d := fun d => (heffect d).1
    have hdue := fun d => (heffect d).2.2.2.2
    unfold Unique
    simp only [InOrder, husers, hdue]
    cases hcloser : s.closer with
    | idle =>
      have hzero := (hinv.open_ (hinv.idle hcloser)).2
      simp [hzero]
    | loading e =>
      simp only [reduceCtorEq, if_false, Closer.loading.injEq]
      constructor
      · intro hunique
        exact ⟨fun d => by have := hunique d; grind, by have := hunique e; grind⟩
      · rintro ⟨hunique, horder⟩ d
        have := hunique d
        grind
    | closing | unmapping | done => simp

theorem Unique.safe (hinv : Inv s) (hunique : Unique s) : Safe s := by
  refine ⟨fun d => ?_, fun d hunmapped => ?_⟩
  · have := (hunique d).1
    unfold State.due at this
    omega
  · have hdue : 0 < s.due d := by
      unfold State.due
      omega
    have := (hunique d).2 hdue
    have := hinv.users d
    omega

/-! ## Runs -/

/-- How many steps it takes until all that are on their way have unmapped the region, at most. -/
def State.ahead (s : State) (d : Dir) : Nat :=
  2 * s.count d .loading + s.count d .unmapping + if s.closer = .unmapping d then 1 else 0

theorem step_call (hc : c ∈ s.calls) : ShmemInt.step s (.step c) = some (callStep s c) :=
  if_pos hc

theorem Inv.closed_of_due (hinv : Inv s) (hdue : 0 < s.due d) : s.closed = true := by
  by_contra hclosed
  have := (hinv.open_ (Bool.eq_false_iff.mpr hclosed)).2 d
  omega

theorem Inv.unmap_next (hinv : Inv s) (hdue : s.unmapped d < s.due d) :
    ∃ a s', ShmemInt.step s a = some s' ∧ InOrder s a ∧ s'.due d = s.due d ∧
      s'.count d .accessing = s.count d .accessing ∧ s'.ahead d < s.ahead d := by
  have hclosed := hinv.closed_of_due (Nat.zero_lt_of_lt hdue)
  by_cases hcall : ∃ p, (p = .loading ∨ p = .unmapping) ∧ 0 < s.count d p
  · obtain ⟨p, hp, hpos⟩ := hcall
    have hc : (⟨d, p⟩ : Call) ∈ s.calls := Multiset.count_pos.mp hpos
    have haccessing := count_callStep hc d .accessing
    have hloading := count_callStep hc d .loading
    have hunmapping := count_callStep hc d .unmapping
    refine ⟨.step ⟨d, p⟩, _, step_call hc, ?_, ?_, ?_, ?_⟩
    · intro hentering
      cases hentering
      simp at hp
    · rw [due_callStep hc]
      grind
    · grind [callNext]
    · unfold State.ahead
      rw [closer_callStep]
      grind [callNext]
  · push Not at hcall
    have hloading := hcall .loading (.inl rfl)
    have hunmapping := hcall .unmapping (.inr rfl)
    have hcloser : s.closer = .unmapping d := by
      unfold State.due at hdue
      grind
    have hstep : ShmemInt.step s (.closer true) =
        some { s with unmapped := Function.update s.unmapped d (s.unmapped d + 1), closer := .next d } := by
      unfold ShmemInt.step closerStep
      rw [hcloser]
    obtain ⟨-, hcount, -, -, hsame⟩ := due_closerStep hinv hstep d
    refine ⟨.closer true, _, hstep, ?_, ?_, hcount _, ?_⟩
    · unfold InOrder
      rw [hcloser]
      trivial
    · rw [hsame, hcloser]
      simp
    · unfold State.ahead
      rw [hcount, hcount, hcloser]
      cases d <;> simp [Closer.next]

theorem Inv.unmap_all (hinv : Inv s) : ∃ more s', Runs.Along ShmemInt.step InOrder s more ∧
    Runs.run ShmemInt.step s more = some s' ∧ s.due d ≤ s'.unmapped d ∧
      s'.count d .accessing = s.count d .accessing := by
  induction hn : s.ahead d using Nat.strong_induction_on generalizing s with
  | _ n ih =>
    by_cases hdue : s.unmapped d < s.due d
    · obtain ⟨a, s₁, hstep, horder, hsame, haccessing, hless⟩ := hinv.unmap_next hdue
      obtain ⟨more, s', halong, hrun, hall, haccessing'⟩ :=
        ih _ (hn ▸ hless) (hinv.step hstep) rfl
      refine ⟨a :: more, s', ⟨horder, ?_⟩, ?_, hsame ▸ hall, haccessing'.trans haccessing⟩
      · intro s₂ hstep₂
        rw [hstep] at hstep₂
        cases hstep₂
        exact halong
      · exact Runs.run_cons_eq_some.mpr ⟨s₁, hstep, hrun⟩
    · exact ⟨[], s, trivial, rfl, Nat.le_of_not_lt hdue, rfl⟩

theorem Inv.not_safe_at (hinv : Inv s) (hd : 1 < s.due d ∨ 0 < s.due d ∧ s.users d ≠ 0) :
    ∃ more s', Runs.Along ShmemInt.step InOrder s more ∧ Runs.run ShmemInt.step s more = some s' ∧
      ¬ Safe s' := by
  induction hn : s.count d .leaving generalizing s with
  | zero =>
    have husers := hinv.users d
    obtain ⟨more, s', halong, hrun, hall, haccessing⟩ := @Inv.unmap_all s d hinv
    refine ⟨more, s', halong, hrun, fun hsafe => ?_⟩
    have honce := hsafe.once d
    have hapart := hsafe.apart d
    omega
  | succ n ih =>
    -- A call that leaves goes on, and the last one has to unmap the region once more.
    have hc : (⟨d, .leaving⟩ : Call) ∈ s.calls := Multiset.count_pos.mp (by
      unfold State.count at hn
      omega)
    have hinv' : Inv (callStep s ⟨d, .leaving⟩) := hinv.step (step_call hc)
    have hdue := due_callStep hc d
    have husers := users_callStep s ⟨d, .leaving⟩ d
    have hd' : 1 < (callStep s ⟨d, .leaving⟩).due d ∨
        0 < (callStep s ⟨d, .leaving⟩).due d ∧ (callStep s ⟨d, .leaving⟩).users d ≠ 0 := by
      have hclosed := @Inv.closed_of_due s d hinv (by omega)
      grind
    have hleft : (callStep s ⟨d, .leaving⟩).count d .leaving = n := by
      have hleaving := count_callStep hc d .leaving
      grind [callNext]
    obtain ⟨more, s', halong, hrun, hnot⟩ := ih hinv' hd' hleft
    refine ⟨.step ⟨d, .leaving⟩ :: more, s', ⟨?_, ?_⟩, ?_, hnot⟩
    · intro hentering
      cases hentering
    · intro s₂ hstep
      rw [step_call hc] at hstep
      cases hstep
      exact halong
    · exact Runs.run_cons_eq_some.mpr ⟨_, step_call hc, hrun⟩

theorem Inv.not_safe (hinv : Inv s) (hunique : ¬ Unique s) :
    ∃ more s', Runs.Along ShmemInt.step InOrder s more ∧ Runs.run ShmemInt.step s more = some s' ∧
      ¬ Safe s' := by
  unfold Unique at hunique
  push Not at hunique
  obtain ⟨d, hd⟩ := hunique
  apply @Inv.not_safe_at s d hinv
  by_cases hdue : s.due d ≤ 1
  · exact .inr (hd hdue)
  · exact .inl (Nat.lt_of_not_le hdue)

theorem Inv.start : Inv start :=
  ⟨fun _ => rfl, fun _ => rfl, fun _ => ⟨rfl, fun _ => rfl⟩⟩

theorem Unique.start : Unique start := fun _ => ⟨Nat.zero_le _, fun h => absurd h (Nat.lt_irrefl _)⟩

/-- In every run in order nothing goes wrong, and after one that is not something can, even if
everything is in order from then on. -/
theorem unmap_safe_iff {actions : List Action}
    (hrun : Runs.run ShmemInt.step start actions = some s) :
    Runs.Along ShmemInt.step InOrder start actions ↔
      ∀ more s', Runs.Along ShmemInt.step InOrder s more → Runs.run ShmemInt.step s more = some s' →
        Safe s' := by
  have hinv : Inv s := Runs.always (fun _ _ _ hinv hstep => Inv.step hinv hstep) .start hrun
  have hlast : Unique s ↔ Unique ShmemInt.start ∧ Runs.Along ShmemInt.step InOrder ShmemInt.start actions :=
    Runs.along_iff_last (fun _ _ _ hinv hstep => Inv.step hinv hstep)
      (fun _ _ _ hinv hstep => unique_step hinv hstep) .start hrun
  constructor
  · intro horder more s' hmore hrun'
    have hunique : Unique s := hlast.mpr ⟨.start, horder⟩
    have hboth : Inv s' ∧ Unique s' :=
      @Runs.invariant _ _ ShmemInt.step InOrder (fun s => Inv s ∧ Unique s)
        (fun _ _ _ hboth horder hstep =>
          ⟨hboth.1.step hstep, (unique_step hboth.1 hstep).mpr ⟨hboth.2, horder⟩⟩)
        _ _ _ ⟨hinv, hunique⟩ hmore hrun'
    exact hboth.2.safe hboth.1
  · intro hsafe
    by_contra horder
    have hunique : ¬ Unique s := fun hunique => horder (hlast.mp hunique).2
    obtain ⟨more, s', halong, hrun', hnot⟩ := hinv.not_safe hunique
    exact hnot (hsafe more s' halong hrun')

end

theorem forall_dir {p : Dir → Prop} : (∀ d, p d) ↔ p .read ∧ p .write := by
  refine ⟨fun h => ⟨h .read, h .write⟩, ?_⟩
  rintro ⟨hread, hwrite⟩ (_ | _)
  · exact hread
  · exact hwrite

instance decidableInOrder (s : State) : ∀ a, Decidable (InOrder s a)
  | .call _ => .isTrue trivial
  | .step c => inferInstanceAs (Decidable (c.place = .entering → s.due c.dir = 0))
  | .closer _ =>
    match h : s.closer with
    | .idle =>
      decidable_of_iff
        ((s.count .read .loading ≤ 1 ∧ (0 < s.count .read .loading → s.users .read = 0)) ∧
          (s.count .write .loading ≤ 1 ∧ (0 < s.count .write .loading → s.users .write = 0)))
        (by simp [InOrder, h, forall_dir])
    | .loading d => decidable_of_iff (s.users d = 0 → s.due d = 0) (by simp [InOrder, h])
    | .closing => .isTrue (by simp [InOrder, h])
    | .unmapping _ => .isTrue (by simp [InOrder, h])
    | .done => .isTrue (by simp [InOrder, h])

/-- A reader is in its region. -/
def reading : List Action := [.call .read, .step ⟨.read, .entering⟩]

/-- It leaves before the closer comes. -/
def readBeforeClose : List Action :=
  reading ++ [.step ⟨.read, .accessing⟩, .step ⟨.read, .leaving⟩, .step ⟨.read, .loading⟩,
    .closer true, .closer true, .closer true, .closer true, .closer true, .closer true]

/-- It leaves as the last one, and the closer finds nobody either. -/
def unmappedTwice : List Action :=
  reading ++ [.closer true, .step ⟨.read, .accessing⟩, .step ⟨.read, .leaving⟩,
    .step ⟨.read, .loading⟩, .step ⟨.read, .unmapping⟩, .closer true, .closer true, .closer true]

theorem unmap_safe_readBeforeClose :
    ∃ s, Runs.run step start readBeforeClose = some s ∧ s.unmapped .read = 1 ∧ s.unmapped .write = 1 ∧
      Safe s :=
  ⟨_, rfl, rfl, rfl, (@unmap_safe_iff _ readBeforeClose rfl).mp (by decide) [] _ trivial rfl⟩

theorem unmap_not_safe : ¬ ∀ (actions : List Action) (s : State),
    Runs.run step start actions = some s → Safe s := by
  intro hclaim
  have honce := (hclaim unmappedTwice _ rfl).once .read
  revert honce
  decide

end VillasNode.ShmemInt
