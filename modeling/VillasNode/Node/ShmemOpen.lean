import Mathlib.Data.Bool.Basic
import Mathlib.Logic.Function.Basic
import Mathlib.Tactic.Common
import Mathlib.Tactic.MkIffOfInductiveProp
import VillasNode.Lib.Runs

/-!
# Opening shared memory from both sides

`shmem_int_open` of `lib/shmem.cpp`, cut into its calls to the kernel, and two
processes that open, close and open again. Each process posts a semaphore of
its own when its region is there, and waits for the one of the other. Names of
semaphores and regions are removed while objects of that name are still in use.
-/

namespace VillasNode.ShmemOpen

/-- The two processes. The write name of each is the read name of the other. -/
inductive Party where
  | left
  | right
deriving DecidableEq

def Party.other : Party → Party
  | .left => .right
  | .right => .left

/-- Where a process is in `shmem_int_open`. -/
inductive Place where
  | idle
  | openOwn
  | openOther
  | create
  | unlinkStale
  | setUp
  | post
  | wait
  | openRegion
  | unlinkSem
  | opened
  | failed (ret : Int)
deriving DecidableEq

structure Process where
  place : Place
  /-- How often the process has begun to open. No code reads it. -/
  round : Nat
  semOwn : Nat
  semOther : Nat
  write : Nat
  read : Nat
  /-- A call to the kernel has failed, or the process has been killed. -/
  dead : Bool

/-- A shared region. Who has made it, and when, is not in the region. -/
structure Region where
  owner : Party
  round : Nat
  ready : Bool
deriving DecidableEq

/-- Semaphores and regions are numbered as they are made, below `fresh`. -/
structure State where
  process : Party → Process
  sems : Party → Option Nat
  value : Nat → Nat
  shms : Party → Option Nat
  regions : Nat → Region
  fresh : Nat

namespace State

def setProcess (s : State) (p : Party) (x : Process) : State :=
  { s with process := Function.update s.process p x }

/-- `sem_open` with `O_CREAT` and the value 0. -/
def semOpen (s : State) (name : Party) : State × Nat :=
  match s.sems name with
  | some sem => (s, sem)
  | none =>
    ({ s with sems := Function.update s.sems name (some s.fresh)
              value := Function.update s.value s.fresh 0, fresh := s.fresh + 1 }, s.fresh)

/-- The next call of `shmem_int_open`. `none` while `sem_wait` blocks. -/
def advance (s : State) (p : Party) : Option State :=
  let x := s.process p
  match x.place with
  | .openOwn =>
    let (s, sem) := s.semOpen p
    some (s.setProcess p { x with semOwn := sem, place := .openOther })
  | .openOther =>
    let (s, sem) := s.semOpen p.other
    some (s.setProcess p { x with semOther := sem, place := .create })
  | .create =>
    match s.shms p with
    | some _ => some (s.setProcess p { x with place := .unlinkStale })
    | none =>
      let s := { s with shms := Function.update s.shms p (some s.fresh)
                        regions := Function.update s.regions s.fresh ⟨p, x.round, false⟩
                        fresh := s.fresh + 1 }
      some (s.setProcess p { x with write := s.fresh - 1, place := .setUp })
  | .unlinkStale =>
    match s.shms p with
    | none => some (s.setProcess p { x with place := .failed (-12) })
    | some _ =>
      let s := { s with shms := Function.update s.shms p none }
      some (s.setProcess p { x with place := .create })
  | .setUp =>
    let region := { s.regions x.write with ready := true }
    let s := { s with regions := Function.update s.regions x.write region }
    some (s.setProcess p { x with place := .post })
  | .post =>
    let s := { s with value := Function.update s.value x.semOwn (s.value x.semOwn + 1) }
    some (s.setProcess p { x with place := .wait })
  | .wait =>
    if s.value x.semOther = 0 then none
    else
      let s := { s with value := Function.update s.value x.semOther (s.value x.semOther - 1) }
      some (s.setProcess p { x with place := .openRegion })
  | .openRegion =>
    match s.shms p.other with
    | none => some (s.setProcess p { x with place := .failed (-8) })
    | some region => some (s.setProcess p { x with read := region, place := .unlinkSem })
  | .unlinkSem =>
    let s := { s with sems := Function.update s.sems p none }
    some (s.setProcess p { x with place := .opened })
  | .idle | .opened | .failed _ => none

end State

inductive Action where
  | advance (p : Party)
  /-- A signal handler runs while the process is blocked: `sem_wait` fails, and its result is ignored. -/
  | interrupt (p : Party)
  /-- `shmem_int_open` is called. -/
  | start (p : Party)
  /-- `shmem_int_close`, as far as it unlinks the region. -/
  | close (p : Party)
  | die (p : Party)

def step (s : State) : Action → Option State
  | .advance p => if (s.process p).dead then none else s.advance p
  | .interrupt p =>
    let x := s.process p
    if x.place = .wait ∧ s.value x.semOther = 0 ∧ ¬ x.dead then
      some (s.setProcess p { x with place := .openRegion })
    else none
  | .start p =>
    let x := s.process p
    if x.place = .idle ∧ ¬ x.dead then
      some (s.setProcess p { x with place := .openOwn, round := x.round + 1 })
    else none
  | .close p =>
    let x := s.process p
    if x.place = .opened ∧ ¬ x.dead then
      let s := { s with shms := Function.update s.shms p none }
      some (s.setProcess p { x with place := .idle })
    else none
  | .die p => some (s.setProcess p { s.process p with dead := true })

/-! ## The invariant -/

@[simp, grind =]
theorem Party.other_other (p : Party) : p.other.other = p := by
  cases p <;> rfl

@[simp]
theorem Party.other_ne (p : Party) : p.other ≠ p := by
  cases p <;> simp [Party.other]

theorem Party.eq_or_other (p r : Party) : r = p ∨ r = p.other := by
  cases p <;> cases r <;> simp [Party.other]

def Place.stage : Place → Nat
  | .idle | .opened => 9
  | .openOwn => 1
  | .openOther => 2
  | .create | .unlinkStale => 3
  | .setUp => 4
  | .post => 5
  | .wait => 6
  | .openRegion => 7
  | .unlinkSem => 8
  | .failed _ => 0

def Process.opening (x : Process) : Prop := x.place ≠ .idle ∧ x.place ≠ .opened

/-- How far a process is in the latest round of the two. -/
def State.stage (s : State) (p : Party) : Nat :=
  if (s.process p).round < (s.process p.other).round then 0 else (s.process p).place.stage

/-- What holds of the names, the semaphore and the region of process `p`. -/
@[grind cases, mk_iff]
structure Half (s : State) (p : Party) : Prop where
  lag : (s.process p).round < (s.process p.other).round →
    ¬ (s.process p).opening ∧ (s.process p.other).round = (s.process p).round + 1
  unfailed : ∀ ret, (s.process p).place ≠ .failed ret
  order : 7 ≤ s.stage p.other → 6 ≤ s.stage p
  named : s.sems p =
    if s.stage p = 9 ∨ s.stage p ≤ 1 ∧ s.stage p.other ≤ 2 then none
    else if 2 ≤ s.stage p then some (s.process p).semOwn else some (s.process p.other).semOther
  same : 2 ≤ s.stage p → s.stage p ≤ 8 → 3 ≤ s.stage p.other → s.stage p.other ≤ 8 →
    (s.process p).semOwn = (s.process p.other).semOther
  apart : 3 ≤ s.stage p → s.stage p ≤ 8 → (s.process p).semOwn ≠ (s.process p).semOther
  apartOwn : 2 ≤ s.stage p → s.stage p ≤ 8 → 2 ≤ s.stage p.other → s.stage p.other ≤ 8 →
    (s.process p).semOwn ≠ (s.process p.other).semOwn
  posted : 3 ≤ s.stage p.other → s.stage p.other ≤ 8 → s.value (s.process p.other).semOther =
    (if 6 ≤ s.stage p then 1 else 0) - (if 7 ≤ s.stage p.other then 1 else 0)
  alone : 2 ≤ s.stage p → s.stage p ≤ 8 → s.stage p.other ≤ 2 →
    s.value (s.process p).semOwn = if 6 ≤ s.stage p then 1 else 0
  ownFresh : 2 ≤ s.stage p → s.stage p ≤ 8 → (s.process p).semOwn < s.fresh
  otherFresh : 3 ≤ s.stage p → s.stage p ≤ 8 → (s.process p).semOther < s.fresh
  shmFresh : ∀ r, s.shms p = some r → r < s.fresh
  stale : (s.process p).place = .unlinkStale → s.shms p ≠ none
  made : 4 ≤ s.stage p → s.stage p.other ≤ 7 → s.shms p = some (s.process p).write ∧
    s.regions (s.process p).write = ⟨p, (s.process p).round, 5 ≤ s.stage p⟩
  read : (s.process p).place = .unlinkSem ∨ (s.process p).place = .opened →
    (s.process p).read < s.fresh ∧
      s.regions (s.process p).read = ⟨p.other, (s.process p).round, true⟩

/-- A process does not close or open again while the other one is still in the round that it leaves,
and no `sem_wait` is interrupted. -/
def Peaceful (s : State) : Action → Prop
  | .start p | .close p =>
    (s.process p.other).opening → (s.process p.other).round ≠ (s.process p).round
  | .interrupt _ => False
  | .advance _ | .die _ => True

instance (x : Process) : Decidable x.opening := inferInstanceAs (Decidable (_ ∧ _))

instance (s : State) : DecidablePred (Peaceful s)
  | .start _ | .close _ => inferInstanceAs (Decidable (_ → _))
  | .interrupt _ => inferInstanceAs (Decidable False)
  | .advance _ | .die _ => inferInstanceAs (Decidable True)

variable {s s' k : State} {p : Party} {x : Process}

/-! ## One call -/

/-- Process `p` becomes `x`, and the kernel is as in `k`. -/
@[grind cases]
structure Becomes (s : State) (p : Party) (k s' : State) (x : Process) : Prop where
  mine : s'.process p = x
  other : s'.process p.other = s.process p.other
  myName : s'.sems p = k.sems p
  otherName : s'.sems p.other = k.sems p.other
  value : ∀ i, s'.value i = k.value i
  myShm : s'.shms p = k.shms p
  otherShm : s'.shms p.other = k.shms p.other
  regions : ∀ r, s'.regions r = k.regions r
  fresh : s'.fresh = k.fresh

/-- A call of `shmem_int_open`. -/
@[grind cases]
structure Calls (s : State) (p : Party) (k s' : State) (x : Process) : Prop extends
    Becomes s p k s' x where
  before : s.stage p = (s.process p).place.stage
  after : s'.stage p = x.place.stage
  stageOther : s'.stage p.other = s.stage p.other

theorem setProcess_becomes (p : Party) (k : State) (x : Process) (hk : k.process = s.process) :
    Becomes s p k (k.setProcess p x) x := by
  refine ⟨Function.update_self .., ?_, rfl, rfl, fun _ => rfl, rfl, rfl, fun _ => rfl, rfl⟩
  rw [← hk]
  exact Function.update_of_ne p.other_ne ..

/-- What `sem_open` leaves, with the semaphore that it returns. -/
@[grind cases]
structure Opens (s : State) (name : Party) (k : State) (sem : Nat) : Prop where
  process : k.process = s.process
  sems : k.sems name = some sem
  otherSems : k.sems name.other = s.sems name.other
  shms : k.shms = s.shms
  regions : k.regions = s.regions
  found : (s.sems name = some sem ∧ k.fresh = s.fresh ∧ ∀ i, k.value i = s.value i) ∨
    (s.sems name = none ∧ sem = s.fresh ∧ k.fresh = s.fresh + 1 ∧
      ∀ i, k.value i = if i = s.fresh then 0 else s.value i)

theorem semOpen_spec (s : State) (name : Party) :
    Opens s name (s.semOpen name).1 (s.semOpen name).2 := by
  unfold State.semOpen
  cases hsem : s.sems name with
  | some x => exact ⟨rfl, hsem, rfl, rfl, rfl, .inl ⟨hsem, rfl, fun _ => rfl⟩⟩
  | none => constructor <;> simp [Function.update_apply, hsem]

/-- What a call makes of the kernel and of its process. -/
inductive Call (s : State) (p : Party) : State → Process → Prop
  | openOwn {k : State} {sem : Nat} (hplace : (s.process p).place = .openOwn)
      (hopens : Opens s p k sem) :
      Call s p k { s.process p with semOwn := sem, place := .openOther }
  | openOther {k : State} {sem : Nat} (hplace : (s.process p).place = .openOther)
      (hopens : Opens s p.other k sem) :
      Call s p k { s.process p with semOther := sem, place := .create }
  | create (hplace : (s.process p).place = .create) (hnone : s.shms p = none) :
      Call s p { s with shms := Function.update s.shms p (some s.fresh)
                        regions := Function.update s.regions s.fresh ⟨p, (s.process p).round, false⟩
                        fresh := s.fresh + 1 }
        { s.process p with write := s.fresh, place := .setUp }
  | found {shm : Nat} (hplace : (s.process p).place = .create) (hshm : s.shms p = some shm) :
      Call s p s { s.process p with place := .unlinkStale }
  | unlinkStale {shm : Nat} (hplace : (s.process p).place = .unlinkStale)
      (hshm : s.shms p = some shm) :
      Call s p { s with shms := Function.update s.shms p none } { s.process p with place := .create }
  | vanished (hplace : (s.process p).place = .unlinkStale) (hnone : s.shms p = none) :
      Call s p s { s.process p with place := .failed (-12) }
  | setUp (hplace : (s.process p).place = .setUp) :
      Call s p { s with regions := Function.update s.regions (s.process p).write
                          { s.regions (s.process p).write with ready := true } }
        { s.process p with place := .post }
  | post (hplace : (s.process p).place = .post) :
      Call s p { s with value := Function.update s.value (s.process p).semOwn
                          (s.value (s.process p).semOwn + 1) }
        { s.process p with place := .wait }
  | wait (hplace : (s.process p).place = .wait) (hvalue : s.value (s.process p).semOther ≠ 0) :
      Call s p { s with value := Function.update s.value (s.process p).semOther
                          (s.value (s.process p).semOther - 1) }
        { s.process p with place := .openRegion }
  | openRegion {region : Nat} (hplace : (s.process p).place = .openRegion)
      (hshm : s.shms p.other = some region) :
      Call s p s { s.process p with read := region, place := .unlinkSem }
  | missing (hplace : (s.process p).place = .openRegion) (hnone : s.shms p.other = none) :
      Call s p s { s.process p with place := .failed (-8) }
  | unlinkSem (hplace : (s.process p).place = .unlinkSem) :
      Call s p { s with sems := Function.update s.sems p none }
        { s.process p with place := .opened }

theorem advance_cases (h : s.advance p = some s') : ∃ k x, Call s p k x ∧ s' = k.setProcess p x := by
  unfold State.advance at h
  dsimp only at h
  split at h
  · rename_i hplace
    cases h
    exact ⟨_, _, .openOwn hplace (semOpen_spec s p), rfl⟩
  · rename_i hplace
    cases h
    exact ⟨_, _, .openOther hplace (semOpen_spec s p.other), rfl⟩
  · rename_i hplace
    split at h
    · rename_i hshm
      cases h
      exact ⟨_, _, .found hplace hshm, rfl⟩
    · rename_i hshm
      cases h
      exact ⟨_, _, .create hplace hshm, rfl⟩
  · rename_i hplace
    split at h
    · rename_i hshm
      cases h
      exact ⟨_, _, .vanished hplace hshm, rfl⟩
    · rename_i hshm
      cases h
      exact ⟨_, _, .unlinkStale hplace hshm, rfl⟩
  · rename_i hplace
    cases h
    exact ⟨_, _, .setUp hplace, rfl⟩
  · rename_i hplace
    cases h
    exact ⟨_, _, .post hplace, rfl⟩
  · rename_i hplace
    split at h
    · cases h
    · rename_i hvalue
      cases h
      exact ⟨_, _, .wait hplace hvalue, rfl⟩
  · rename_i hplace
    split at h
    · rename_i hshm
      cases h
      exact ⟨_, _, .missing hplace hshm, rfl⟩
    · rename_i hshm
      cases h
      exact ⟨_, _, .openRegion hplace hshm, rfl⟩
  · rename_i hplace
    cases h
    exact ⟨_, _, .unlinkSem hplace, rfl⟩
  · cases h
  · cases h
  · cases h

theorem Call.opening (h : Call s p k x) : (s.process p).opening := by
  unfold Process.opening
  cases h <;> simp_all

theorem Call.kept (h : Call s p k x) :
    k.process = s.process ∧ x.round = (s.process p).round ∧ x.dead = (s.process p).dead ∧
      k.shms p.other = s.shms p.other := by
  cases h with
  | openOwn _ hopens | openOther _ hopens => exact ⟨hopens.process, rfl, rfl, by rw [hopens.shms]⟩
  | create => exact ⟨rfl, rfl, rfl, Function.update_of_ne p.other_ne ..⟩
  | unlinkStale => exact ⟨rfl, rfl, rfl, Function.update_of_ne p.other_ne ..⟩
  | _ => exact ⟨rfl, rfl, rfl, rfl⟩

theorem Call.calls (h : Call s p k x) (hI : ∀ p, Half s p) : Calls s p k (k.setProcess p x) x := by
  obtain ⟨hk, hround, -⟩ := h.kept
  have hlag : ¬ (s.process p).round < (s.process p.other).round :=
    fun hlt => ((hI p).lag hlt).1 h.opening
  have hb := setProcess_becomes p k x hk
  refine ⟨hb, if_neg hlag, ?_, ?_⟩
  · unfold State.stage
    rw [hb.mine, hb.other, hround, if_neg hlag]
  · unfold State.stage
    rw [Party.other_other, hb.mine, hb.other, hround]

theorem both_halves (p : Party) (hmine : Half s' p) (hother : Half s' p.other) (r : Party) : Half s' r := by
  rcases Party.eq_or_other p r with rfl | rfl
  · exact hmine
  · exact hother

theorem stage_opening (hI : ∀ p, Half s p) (hopening : (s.process p).opening) :
    s.stage p = (s.process p).place.stage :=
  if_neg fun hlt => ((hI p).lag hlt).1 hopening

theorem region_made (hI : ∀ p, Half s p) (hplace : (s.process p).place = .openRegion) :
    s.shms p.other = some (s.process p.other).write ∧
      s.regions (s.process p.other).write = ⟨p.other, (s.process p).round, true⟩ := by
  have hstage : s.stage p = 7 := by
    rw [stage_opening hI (by simp [Process.opening, hplace]), hplace]
    rfl
  have hmet : 6 ≤ s.stage p.other := (hI p.other).order (by simp [hstage])
  obtain ⟨hshm, hregion⟩ := (hI p.other).made (by omega) (by simp [hstage])
  have hround : (s.process p.other).round = (s.process p).round := by
    unfold State.stage at hstage hmet
    rw [Party.other_other] at hmet
    grind
  refine ⟨hshm, ?_⟩
  rw [hregion, hround, decide_eq_true (by omega)]

theorem Call.half (h : Call s p k x) (hI : ∀ p, Half s p) (hcalls : Calls s p k s' x) : Half s' p := by
  have hp := hI p
  have hq := hI p.other
  have hmade := region_made hI (p := p)
  clear hI
  rw [half_iff]
  cases h <;> grind [Process.opening, Place.stage]

theorem Call.half_other (h : Call s p k x) (hI : ∀ p, Half s p) (hcalls : Calls s p k s' x) :
    Half s' p.other := by
  have hp := hI p
  have hq := hI p.other
  have hmade := region_made hI (p := p)
  clear hI
  cases h with
  | create | setUp =>
    -- A region changes, which is none that the other process has.
    constructor <;> grind [Process.opening, Place.stage]
  | _ =>
    rw [half_iff]
    grind [Process.opening, Place.stage]

theorem advance_half (hI : ∀ p, Half s p) (h : s.advance p = some s') : ∀ r, Half s' r := by
  obtain ⟨k, x, hcall, rfl⟩ := advance_cases h
  have hcalls := hcall.calls hI
  exact both_halves p (hcall.half hI hcalls) (hcall.half_other hI hcalls)

/-! ## Rounds -/

theorem Process.stage_quiet (h : ¬ x.opening) : x.place.stage = 9 := by
  unfold Process.opening at h
  grind [Place.stage]

theorem quiet_stages (hI : ∀ p, Half s p) (hdone : ¬ (s.process p).opening)
    (hpeaceful : (s.process p.other).opening → (s.process p.other).round ≠ (s.process p).round) :
    (s.process p.other).round = (s.process p).round + 1 ∧ s.stage p = 0 ∧
        s.stage p.other = (s.process p.other).place.stage ∨
      (s.process p.other).round = (s.process p).round ∧ s.stage p = 9 ∧ s.stage p.other = 9 ∧
        ¬ (s.process p.other).opening := by
  have hlag := (hI p).lag
  have horder := (hI p.other).order
  rw [Party.other_other] at horder
  have hstage := Process.stage_quiet hdone
  have hother : ¬ (s.process p.other).opening → _ := Process.stage_quiet
  unfold State.stage at horder ⊢
  rw [Party.other_other] at horder ⊢
  grind

theorem start_half (hI : ∀ p, Half s p) (hplace : (s.process p).place = .idle)
    (hpeaceful : Peaceful s (.start p)) :
    ∀ r, Half (s.setProcess p
      { s.process p with place := .openOwn, round := (s.process p).round + 1 }) r := by
  have hp := hI p
  have hq := hI p.other
  have hquiet := quiet_stages hI (by simp [Process.opening, hplace]) hpeaceful
  clear hI
  have hb := setProcess_becomes p s
    { s.process p with place := .openOwn, round := (s.process p).round + 1 } rfl
  generalize State.setProcess _ _ _ = s' at *
  have hafter : s'.stage p = 1 := by
    unfold State.stage
    rw [hb.mine, hb.other, if_neg (by grind)]
    rfl
  have hafterOther : s'.stage p.other = if (s.process p.other).round = (s.process p).round then 0
      else s.stage p.other := by
    unfold State.stage at hquiet ⊢
    rw [Party.other_other, hb.mine, hb.other]
    grind
  refine both_halves p ?_ ?_
  · constructor <;> grind [Process.opening]
  · constructor <;> grind [Process.opening]

theorem stage_kept (hb : Becomes s p k s' x) (hround : x.round = (s.process p).round)
    (hplace : x.place.stage = (s.process p).place.stage) :
    s'.stage p = s.stage p ∧ s'.stage p.other = s.stage p.other := by
  unfold State.stage
  rw [Party.other_other, hb.mine, hb.other, hround, hplace]
  exact ⟨rfl, rfl⟩

theorem close_half (hI : ∀ p, Half s p) (hplace : (s.process p).place = .opened)
    (hpeaceful : Peaceful s (.close p)) :
    ∀ r, Half (State.setProcess { s with shms := Function.update s.shms p none } p
      { s.process p with place := .idle }) r := by
  have hp := hI p
  have hq := hI p.other
  have hquiet := quiet_stages hI (by simp [Process.opening, hplace]) hpeaceful
  clear hI
  have hb : Becomes s p { s with shms := Function.update s.shms p none } _ _ :=
    setProcess_becomes p _ { s.process p with place := .idle } rfl
  generalize State.setProcess _ _ _ = s' at *
  obtain ⟨hstage, hstageOther⟩ := stage_kept hb rfl (by rw [hplace]; rfl)
  refine both_halves p ?_ ?_
  · constructor <;> grind [Process.opening]
  · constructor <;> grind [Process.opening]

theorem die_half (hI : ∀ p, Half s p) (p : Party) :
    ∀ r, Half (s.setProcess p { s.process p with dead := true }) r := by
  have hp := hI p
  have hq := hI p.other
  clear hI
  have hb := setProcess_becomes p s { s.process p with dead := true } rfl
  generalize State.setProcess _ _ _ = s' at *
  obtain ⟨hstage, hstageOther⟩ := stage_kept hb rfl rfl
  refine both_halves p ?_ ?_
  · rw [half_iff]
    grind [Process.opening]
  · rw [half_iff]
    grind [Process.opening]

theorem step_half {a : Action} (hI : ∀ p, Half s p) (hpeaceful : Peaceful s a) (h : step s a = some s') :
    ∀ r, Half s' r := by
  unfold step at h
  cases a with
  | advance p =>
    dsimp only at h
    split at h
    · cases h
    · exact advance_half hI h
  | interrupt p => exact hpeaceful.elim
  | start p =>
    dsimp only at h
    split at h
    · rename_i hidle
      cases h
      exact start_half hI hidle.1 hpeaceful
    · cases h
  | close p =>
    dsimp only at h
    split at h
    · rename_i hopened
      cases h
      exact close_half hI hopened.1 hpeaceful
    · cases h
  | die p =>
    cases h
    exact die_half hI p

/-- Nobody is opening and there are no semaphores. Regions of earlier processes may be left. -/
structure Clean (s : State) : Prop where
  idle : ∀ p, (s.process p).place = .idle
  round : ∀ p, (s.process p.other).round = (s.process p).round
  sems : ∀ p, s.sems p = none
  shms : ∀ p r, s.shms p = some r → r < s.fresh

theorem Clean.half (h : Clean s) (p : Party) : Half s p := by
  have hstage : ∀ p, s.stage p = 9 := by
    intro p
    unfold State.stage
    rw [h.round, h.idle, if_neg (Nat.lt_irrefl _)]
    rfl
  have hidle := h.idle
  have hround := h.round p
  have hsems := h.sems p
  have hshms := h.shms p
  rw [half_iff]
  grind [Process.opening]

/-- However the calls of two processes interleave, and whenever one of them dies: `shmem_int_open` does
not find a name missing, and when it returns, the process reads from the region that the other one
has made in the same round, all of it. No semaphore is left behind when both have returned. -/
theorem shmem_open_safe {s₀ : State} {as : List Action} (hclean : Clean s₀)
    (hpeaceful : Runs.Along step Peaceful s₀ as) (hrun : Runs.run step s₀ as = some s) (p : Party) :
    (∀ ret, (s.process p).place ≠ .failed ret) ∧
      ((s.process p).place = .opened →
        s.regions (s.process p).read = ⟨p.other, (s.process p).round, true⟩) ∧
      ((s.process p.other).round = (s.process p).round → ¬ (s.process p).opening →
        ¬ (s.process p.other).opening → s.sems p = none) := by
  have hI : ∀ p, Half s p :=
    Runs.invariant (fun s a s' hs hp hstep => step_half hs hp hstep) hclean.half hpeaceful hrun
  refine ⟨(hI p).unfailed, fun hopened => ((hI p).read (.inr hopened)).2, ?_⟩
  intro hround hdone _
  have hstage : s.stage p = 9 := by
    unfold State.stage
    rw [hround, if_neg (Nat.lt_irrefl _)]
    exact Process.stage_quiet hdone
  rw [(hI p).named, if_pos (.inl hstage)]

/-! ## The end -/

/-- How many calls are left at most, when there is `shm` under the name of the process. -/
def Place.left (shm : Option Nat) : Place → Nat
  | .openOwn => 10
  | .openOther => 9
  | .create => if shm = none then 6 else 8
  | .unlinkStale => 7
  | .setUp => 5
  | .post => 4
  | .wait => 3
  | .openRegion => 2
  | .unlinkSem => 1
  | .idle | .opened | .failed _ => 0

def State.left (s : State) (p : Party) : Nat := (s.process p).place.left (s.shms p)

theorem Call.left_lt (h : Call s p k x) : x.place.left (k.shms p) < s.left p := by
  unfold State.left
  cases h with
  | openOwn hplace | found hplace hshm => simp [Place.left, *]
  | openOther hplace =>
    rw [hplace]
    unfold Place.left
    dsimp only
    split <;> simp
  | _ hplace => simp [Place.left, *]

/-- Both processes open in the same round and nobody has died. -/
structure Together (s : State) : Prop where
  half : ∀ p, Half s p
  round : ∀ p, (s.process p.other).round = (s.process p).round
  alive : ∀ p, (s.process p).dead = false

theorem step_together (ht : Together s) (h : step s (.advance p) = some s') :
    Together s' ∧ s'.left .left + s'.left .right < s.left .left + s.left .right := by
  have hhalf := step_half ht.half (show Peaceful s (.advance p) from trivial) h
  unfold step at h
  dsimp only at h
  rw [ht.alive, if_neg Bool.false_ne_true] at h
  obtain ⟨k, x, hcall, rfl⟩ := advance_cases h
  obtain ⟨hk, hround, hdead, hshm⟩ := hcall.kept
  have hb := setProcess_becomes p k x hk
  have hleft := hcall.left_lt
  generalize State.setProcess _ _ _ = s' at *
  have hlarge : s'.left p < s.left p := by
    unfold State.left at hleft ⊢
    rw [hb.mine, hb.myShm]
    exact hleft
  have hsmall : s'.left p.other = s.left p.other := by
    unfold State.left
    rw [hb.other, hb.otherShm, hshm]
  have hmine : (s'.process p).round = (s.process p).round := by rw [hb.mine, hround]
  have hother : (s'.process p.other).round = (s.process p.other).round := by rw [hb.other]
  refine ⟨⟨hhalf, fun q => ?_, fun q => ?_⟩, ?_⟩
  · have := ht.round p
    rcases Party.eq_or_other p q with rfl | rfl
    · omega
    · rw [Party.other_other]
      omega
  · rcases Party.eq_or_other p q with rfl | rfl
    · rw [hb.mine, hdead, ht.alive]
    · rw [hb.other, ht.alive]
  · cases p with
    | left => exact Nat.add_lt_add_of_lt_of_le hlarge (Nat.le_of_eq hsmall)
    | right => exact Nat.add_lt_add_of_le_of_lt (Nat.le_of_eq hsmall) hlarge

theorem someone_advances (ht : Together s) (hopening : (s.process p).opening) :
    ∃ q s', step s (.advance q) = some s' := by
  have hstage : ∀ q, s.stage q = (s.process q).place.stage := by
    intro q
    unfold State.stage
    rw [ht.round, if_neg (Nat.lt_irrefl _)]
  have hgo : ∀ q, (s.process q).opening →
      ((s.process q).place = .wait → s.value (s.process q).semOther ≠ 0) →
        ∃ s', step s (.advance q) = some s' := by
    intro q hopen hvalue
    have hunfailed := (ht.half q).unfailed
    unfold step
    dsimp only
    rw [ht.alive, if_neg Bool.false_ne_true]
    unfold State.advance
    dsimp only
    unfold Process.opening at hopen
    split
    all_goals first | exact ⟨_, rfl⟩ | skip
    · split <;> exact ⟨_, rfl⟩
    · split <;> exact ⟨_, rfl⟩
    · rename_i hplace
      rw [if_neg (hvalue hplace)]
      exact ⟨_, rfl⟩
    · split <;> exact ⟨_, rfl⟩
    · rename_i hplace
      exact absurd hplace hopen.1
    · rename_i hplace
      exact absurd hplace hopen.2
    · rename_i hplace
      exact absurd hplace (hunfailed _)
  by_cases hblocked : (s.process p).place = .wait ∧ s.value (s.process p).semOther = 0
  · -- The other process has not posted yet.
    have hposted := (ht.half p.other).posted
    rw [Party.other_other, hstage p, hstage p.other, hblocked.1, hblocked.2] at hposted
    have hbefore : (s.process p.other).place.stage < 6 := by
      by_contra hlarge
      have := hposted (by decide) (by decide)
      rw [if_pos (by omega)] at this
      exact absurd this (by decide)
    refine ⟨p.other, hgo p.other ?_ ?_⟩
    · unfold Process.opening
      grind [Place.stage]
    · intro hwait
      rw [hwait] at hbefore
      exact absurd hbefore (by decide)
  · exact ⟨p, hgo p hopening fun hwait hzero => hblocked ⟨hwait, hzero⟩⟩

/-- When both processes have begun a round and nobody dies, they call the kernel no more than 20
times, in whichever order, and can go on until both have returned. -/
theorem shmem_open_ends {s₀ : State} {as : List Action} {ps : List Party} (hclean : Clean s₀)
    (hpeaceful : Runs.Along step Peaceful s₀ as) (hrun : Runs.run step s₀ as = some s)
    (hround : ∀ p, (s.process p.other).round = (s.process p).round)
    (halive : ∀ p, (s.process p).dead = false)
    (hcalls : Runs.run step s (ps.map .advance) = some s') :
    ps.length ≤ 20 ∧
      ((∀ p, step s' (.advance p) = none) → ∀ p, ¬ (s'.process p).opening) := by
  have hI : ∀ p, Half s p :=
    Runs.invariant (fun s a s' hs hp hstep => step_half hs hp hstep) hclean.half hpeaceful hrun
  have hmeasure : ∀ (ps : List Party) (s : State), Together s → Runs.run step s (ps.map .advance) = some s' →
      Together s' ∧ ps.length ≤ s.left .left + s.left .right := by
    intro ps
    induction ps with
    | nil =>
      intro s ht hrun
      cases hrun
      exact ⟨ht, Nat.zero_le _⟩
    | cons p ps ih =>
      intro s ht hrun
      obtain ⟨s₁, hstep, hrest⟩ := Runs.run_cons_eq_some.mp hrun
      obtain ⟨ht₁, hless⟩ := step_together ht hstep
      obtain ⟨ht', hlen⟩ := ih s₁ ht₁ hrest
      refine ⟨ht', ?_⟩
      rw [List.length_cons]
      omega
  have hbound : ∀ p, s.left p ≤ 10 := by
    intro p
    unfold State.left Place.left
    split
    all_goals first | omega | (split <;> omega)
  obtain ⟨ht, hlen⟩ := hmeasure ps s ⟨hI, hround, halive⟩ hcalls
  refine ⟨?_, fun hstuck p hopening => ?_⟩
  · have := hbound .left
    have := hbound .right
    omega
  · obtain ⟨q, s₁, hstep⟩ := someone_advances ht hopening
    rw [hstuck q] at hstep
    cases hstep

/-! ## A region that was left behind -/

/-- The region 0 has the name of the left process. -/
def exampleState : State :=
  { process := fun _ => ⟨.idle, 0, 0, 0, 0, 0, false⟩, sems := fun _ => none, value := fun _ => 0
    shms := fun p => if p = .left then some 0 else none, regions := fun _ => ⟨.left, 0, false⟩, fresh := 1 }

theorem exampleState_clean : Clean exampleState := by
  refine ⟨fun _ => rfl, fun _ => rfl, fun _ => rfl, ?_⟩
  rintro (_ | _) r hr
  · cases hr
    decide
  · cases hr

/-- The left process finds the region, and each of the two waits for the other one. -/
def exampleSchedule : List Party :=
  [.left, .right, .right, .left, .left, .left, .left, .left, .left, .right, .right, .right, .right,
    .right, .right, .left, .left, .left]

/-- The processes open, the left one closes and begins again. -/
def exampleActions : List Action :=
  [.start .left, .start .right] ++ exampleSchedule.map .advance ++
    [.close .left, .start .left, .advance .left, .close .right, .start .right, .advance .right]

theorem shmem_open_safe_example :
    ∃ s, Runs.run step exampleState exampleActions = some s ∧
      (s.process .right).place = .openOther ∧ ∀ p, ∀ ret, (s.process p).place ≠ .failed ret := by
  obtain ⟨s, hrun, hplace⟩ : ∃ s, Runs.run step exampleState exampleActions = some s ∧
      (s.process .right).place = .openOther := ⟨_, rfl, rfl⟩
  have hpeaceful : Runs.Along step Peaceful exampleState exampleActions := by decide
  exact ⟨s, hrun, hplace, fun p => (shmem_open_safe exampleState_clean hpeaceful hrun p).1⟩

/-- A process that is interrupted goes on to a region that is not there. -/
example : ∃ s, Runs.run step exampleState
    (.start .left :: List.replicate 7 (.advance .left) ++ [.interrupt .left, .advance .left]) = some s ∧
      (s.process .left).place = .failed (-8) := ⟨_, rfl, rfl⟩

theorem shmem_open_ends_example :
    ∃ s s', Runs.run step exampleState [.start .left, .start .right] = some s ∧
      Runs.run step s (exampleSchedule.map .advance) = some s' ∧ ∀ p, ¬ (s'.process p).opening := by
  have hpeaceful : Runs.Along step Peaceful exampleState [.start .left, .start .right] := by decide
  obtain ⟨s, hrun, hround, halive, s', hcalls, hstuck⟩ :
      ∃ s, Runs.run step exampleState [.start .left, .start .right] = some s ∧
        (∀ p, (s.process p.other).round = (s.process p).round) ∧ (∀ p, (s.process p).dead = false) ∧
          ∃ s', Runs.run step s (exampleSchedule.map .advance) = some s' ∧
            ∀ p, step s' (.advance p) = none := by
    refine ⟨_, rfl, ?_, ?_, _, rfl, ?_⟩
    · rintro (_ | _) <;> rfl
    · rintro (_ | _) <;> rfl
    · rintro (_ | _) <;> rfl
  exact ⟨s, s', hrun, hcalls,
    (shmem_open_ends exampleState_clean hpeaceful hrun hround halive hcalls).2 hstuck⟩

end VillasNode.ShmemOpen
