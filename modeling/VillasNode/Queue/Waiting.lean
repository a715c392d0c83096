import VillasNode.Queue.Linear
import VillasNode.Queue.Signalled

/-!
# Consumers that wait

What has to hold while a consumer is about to sleep: it has seen an open queue
with nothing at its head, and whoever changes that has its signal ahead.
-/

namespace VillasNode.Signalled

open Mpmc QueueSignalled

variable {τ α : Type*} {mode : Mode τ} {s s' : QueueSignalled τ α} {t t' : τ}

/-- The cell at the head is published, or the queue is closed. -/
def Ready (q : Queue α) : Prop := q.stopped ∨ (q.cell q.head).sequence = q.head + 1

/-- The call has pushed or closed, or tried to, and signals in any case. -/
def SignalAhead : Place α → Prop
  | .pushing _ i => 1 ≤ i
  | .signalLock | .signal => True
  | _ => False

def Asleep : Place α → Prop
  | .waiting _ => True
  | _ => False

/-- In `read` with the counter at 0, or in `pthread_cond_wait` without a broadcast since. -/
def Blocked (mode : Mode τ) (s : QueueSignalled τ α) (t : τ) : Prop :=
  match mode with
  | .eventfd _ => (∃ cnt, s.places t = .wait cnt) ∧ s.eventfd = 0
  | .pthread => Asleep (s.places t)

/-! ## The invariant -/

/-- A signal is counted or ahead. -/
def Covered (s : QueueSignalled τ α) : Prop := 0 < s.eventfd ∨ ∃ t, SignalAhead (s.places t)

def Sleeper (s : QueueSignalled τ α) : Prop := ∃ t, Asleep (s.places t)

/-- Who may be at a place: the consumer, or the thread that has the mutex. -/
def Owned (mode : Mode τ) (s : QueueSignalled τ α) (t : τ) : Prop :=
  match mode with
  | .eventfd consumer =>
    match s.places t with
    | .pulling _ _ | .wait _ => t = consumer
    | .signalLock | .unlock | .pullLock _ | .waiting _ | .woken _ | .closeLock => False
    | _ => True
  | .pthread =>
    match s.places t with
    | .signal | .unlock | .pulling _ _ | .wait _ | .closing => s.mutex = some t
    | _ => True

def InPush : Local α → Prop
  | .pushState _ | .pushTail _ | .pushSequence _ _ | .pushExchange _ _ | .pushData _ _ _
  | .pushPublish _ _ _ => True
  | _ => False

/-- For a thread in `queue_pull`. Only if it is the `first` of its batch it may go to sleep. -/
def PullOk (q : Queue α) (covered sleeper first : Prop) : Local α → Prop
  | .pullState => True
  | .pullHead => first → q.stopped → covered
  | .pullSequence pos => pos = q.head ∧ (first → q.stopped → covered)
  -- The cell at the head is published, so that nobody sleeps without a signal to come.
  | .pullExchange pos => pos = q.head ∧ (first → q.stopped → covered) ∧ (sleeper → covered)
  | .pullData _ _ | .pullRelease _ _ _ => sleeper → covered
  | _ => False

def Ok (s : QueueSignalled τ α) (t : τ) : Prop :=
  match s.places t with
  | .pushing _ _ => InPush (s.config.locals t)
  | .pulling _ i => PullOk s.config.queue (Covered s) (Sleeper s) (i = 0) (s.config.locals t)
  | .wait _ | .waiting _ => Ready s.config.queue → Covered s
  | _ => True

structure Inv (mode : Mode τ) (s : QueueSignalled τ α) : Prop where
  owned : ∀ t, Owned mode s t
  ok : ∀ t, Ok s t
  eventfd : mode = .pthread → s.eventfd = 0

theorem init_inv (mode : Mode τ) (size : Nat) : Inv mode (QueueSignalled.init τ α size) := by
  refine ⟨?_, fun _ => trivial, fun _ => rfl⟩
  intro t
  cases mode
  all_goals trivial

/-! ## Accesses -/

section
variable [DecidableEq τ] {c c' : Config τ α} {spurious : Bool} {covered sleeper first : Prop}

theorem goto_locals (l : Local α) (ht : t' ≠ t) : (c.goto t l).locals t' = c.locals t' :=
  Function.update_of_ne ht ..

theorem setData_ready {q : Queue α} {pos : Word} {v : α} : Ready (q.setData pos v) ↔ Ready q := by
  have hseq : ((q.setData pos v).cell q.head).sequence = (q.cell q.head).sequence := by
    unfold Queue.setData Queue.cell Queue.index
    simp only [Function.update_apply]
    split
    · rename_i heq
      rw [heq]
    · rfl
  unfold Ready
  rw [← hseq]
  rfl

theorem access_push (hl : InPush (c.locals t)) (h : c.access t spurious = some c') :
    c'.queue.head = c.queue.head ∧ c'.queue.stopped = c.queue.stopped ∧
      (∀ t' ≠ t, c'.locals t' = c.locals t') ∧
      (Ready c'.queue → Ready c.queue ∨ result c.queue (c.locals t) = some 1) ∧
      (result c.queue (c.locals t) = none → InPush (c'.locals t)) := by
  unfold Config.access at h
  cases hlocal : c.locals t with
  | idle | pullState | pullHead | pullSequence | pullExchange | pullData | pullRelease =>
    simp [hlocal, InPush] at hl
  | pushState v =>
    simp only [hlocal, Option.some.injEq] at h
    subst h
    refine ⟨rfl, rfl, fun _ => goto_locals _, .inl, ?_⟩
    cases hstopped : c.queue.stopped
    · simp [Config.goto, InPush]
    · simp [result, hstopped]
  | pushTail v =>
    simp only [hlocal, Option.some.injEq] at h
    subst h
    exact ⟨rfl, rfl, fun _ => goto_locals _, .inl, by simp [Config.goto, InPush]⟩
  | pushSequence v pos =>
    simp only [hlocal, Option.some.injEq] at h
    subst h
    refine ⟨rfl, rfl, fun _ => goto_locals _, .inl, ?_⟩
    by_cases hneg : ((c.queue.cell pos).sequence - pos).toInt < 0
    · simp [-BitVec.toInt_sub, result, hneg]
    · intro _
      simp only [Config.goto, Function.update_self, if_neg hneg]
      split
      · trivial
      · trivial
  | pushExchange v pos =>
    simp only [hlocal] at h
    split at h
    · cases h
      exact ⟨rfl, rfl, fun _ ht => Function.update_of_ne ht .., .inl, by
        simp [Config.claimTail, InPush]⟩
    · cases h
      exact ⟨rfl, rfl, fun _ => goto_locals _, .inl, by simp [Config.goto, InPush]⟩
  | pushData v pos p =>
    simp only [hlocal, Option.some.injEq] at h
    subst h
    refine ⟨rfl, rfl, fun _ ht => Function.update_of_ne ht .., ?_, by
      simp [Config.writeData, Config.goto, InPush]⟩
    intro hready
    exact .inl (setData_ready.1 hready)
  | pushPublish v pos p =>
    simp only [hlocal, Option.some.injEq] at h
    subst h
    exact ⟨rfl, rfl, fun _ ht => Function.update_of_ne ht .., fun _ => .inr rfl, by simp [result]⟩

theorem access_pull (hl : PullOk c.queue covered sleeper first (c.locals t))
    (hsleep : sleeper → Ready c.queue → covered) (h : c.access t spurious = some c') :
    (∀ t' ≠ t, c'.locals t' = c.locals t') ∧ (sleeper → Ready c'.queue → covered) ∧
      (result c.queue (c.locals t) = none → PullOk c'.queue covered sleeper first (c'.locals t)) ∧
      (result c.queue (c.locals t) = some 0 → first → Ready c'.queue → covered) := by
  unfold Config.access at h
  cases hlocal : c.locals t with
  | idle | pushState | pushTail | pushSequence | pushExchange | pushData | pushPublish =>
    simp [hlocal, PullOk] at hl
  | pullState =>
    simp only [hlocal, Option.some.injEq] at h
    subst h
    refine ⟨fun _ => goto_locals _, hsleep, ?_⟩
    cases hstopped : c.queue.stopped
    · simp [Config.goto, PullOk, result, hstopped]
    · simp [result, hstopped]
  | pullHead =>
    simp only [hlocal, Option.some.injEq] at h
    subst h
    rw [hlocal] at hl
    refine ⟨fun _ => goto_locals _, hsleep, ?_, by simp [result]⟩
    intro _
    simp only [Config.goto, Function.update_self]
    exact ⟨rfl, hl⟩
  | pullSequence pos =>
    simp only [hlocal, Option.some.injEq] at h
    subst h
    rw [hlocal] at hl
    obtain ⟨rfl, hopen⟩ := hl
    refine ⟨fun _ => goto_locals _, hsleep, ?_, ?_⟩
    · by_cases hneg : ((c.queue.cell c.queue.head).sequence - (c.queue.head + 1)).toInt < 0
      · simp only [result, if_pos hneg]
        simp
      · intro _
        simp only [Config.goto, Function.update_self, if_neg hneg]
        split
        · rename_i hdiff
          exact ⟨rfl, hopen, fun hsleeper => hsleep hsleeper (.inr (eq_of_diff hdiff))⟩
        · exact hopen
    · intro hres hfirst hready
      obtain hstopped | hpublished := hready
      · exact hopen hfirst hstopped
      · have hzero : (c.queue.cell c.queue.head).sequence = c.queue.head + 1 := hpublished
        simp [result, hzero] at hres
  | pullExchange pos =>
    simp only [hlocal] at h
    rw [hlocal] at hl
    obtain ⟨rfl, hopen, hcovered⟩ := hl
    split at h
    · cases h
      refine ⟨fun _ ht => Function.update_of_ne ht .., fun hsleeper _ => hcovered hsleeper, ?_, by
        simp [result]⟩
      intro _
      simpa [Config.claimHead, PullOk] using hcovered
    · cases h
      refine ⟨fun _ => goto_locals _, hsleep, ?_, by simp [result]⟩
      intro _
      simp only [Config.goto, Function.update_self]
      exact ⟨rfl, hopen⟩
  | pullData pos p =>
    simp only [hlocal, Option.some.injEq] at h
    subst h
    rw [hlocal] at hl
    refine ⟨fun _ => goto_locals _, hsleep, ?_, by simp [result]⟩
    intro _
    simpa [Config.readData, Config.goto, PullOk] using hl
  | pullRelease pos p d =>
    simp only [hlocal, Option.some.injEq] at h
    subst h
    rw [hlocal] at hl
    exact ⟨fun _ ht => Function.update_of_ne ht .., fun hsleeper _ => hl hsleeper, by simp [result],
      by simp [result]⟩

end

/-! ## What the other threads need -/

/-- A step of `t` that touches no other thread. -/
structure Move (mode : Mode τ) (t : τ) (s s' : QueueSignalled τ α) : Prop where
  places : ∀ t' ≠ t, s'.places t' = s.places t'
  locals : ∀ t' ≠ t, s'.config.locals t' = s.config.locals t'
  mutex : s'.mutex = s.mutex ∨ s.mutex = none ∨ s.mutex = some t
  eventfd : mode = .pthread → s'.eventfd = s.eventfd

theorem Move.owned (hmove : Move mode t s s') (ht : t' ≠ t) (h : Owned mode s t') :
    Owned mode s' t' := by
  have hmutex : s.mutex = some t' → s'.mutex = some t' := by
    intro hsome
    obtain heq | heq | heq := hmove.mutex
    · rw [heq, hsome]
    · simp [heq] at hsome
    · rw [hsome, Option.some.injEq] at heq
      exact absurd heq ht
  unfold Owned at h ⊢
  rw [hmove.places t' ht]
  cases mode with
  | eventfd consumer => exact h
  | pthread =>
    simp only at h ⊢
    split
    all_goals simp_all

theorem Move.sleeper (hmove : Move mode t s s') (ht : Asleep (s'.places t) → Asleep (s.places t))
    (h : Sleeper s') : Sleeper s := by
  obtain ⟨t', h⟩ := h
  by_cases heq : t' = t
  · subst heq
    exact ⟨t', ht h⟩
  · rw [hmove.places t' heq] at h
    exact ⟨t', h⟩

theorem Move.covered (hmove : Move mode t s s') (heventfd : s.eventfd ≤ s'.eventfd)
    (ht : SignalAhead (s.places t) → Covered s') (h : Covered s) : Covered s' := by
  obtain h | ⟨t', h⟩ := h
  · exact .inl (by omega)
  · by_cases heq : t' = t
    · subst heq
      exact ht h
    · rw [← hmove.places t' heq] at h
      exact .inr ⟨t', h⟩

theorem PullOk.mono {q q' : Queue α} {covered covered' sleeper sleeper' first : Prop} {l : Local α}
    (h : PullOk q covered sleeper first l) (hhead : q'.head = q.head) (hcovered : covered → covered')
    (hstopped : q'.stopped → q.stopped ∨ covered') (hsleeper : sleeper' → sleeper) :
    PullOk q' covered' sleeper' first l := by
  have hopen : (first → q.stopped → covered) → first → q'.stopped → covered' := by
    intro hopen hfirst hstop
    obtain hstop | hcov := hstopped hstop
    · exact hcovered (hopen hfirst hstop)
    · exact hcov
  have hclaim : (sleeper → covered) → sleeper' → covered' :=
    fun hclaim hs => hcovered (hclaim (hsleeper hs))
  cases l with
  | pullState => trivial
  | pullHead => exact hopen h
  | pullSequence pos => exact ⟨h.1.trans hhead.symm, hopen h.2⟩
  | pullExchange pos => exact ⟨h.1.trans hhead.symm, hopen h.2.1, hclaim h.2.2⟩
  | pullData pos p => exact hclaim h
  | pullRelease pos p d => exact hclaim h
  | idle | pushState | pushTail | pushSequence | pushExchange | pushData | pushPublish => exact h.elim

theorem Inv.shared (hinv : Inv mode s) (hmove : Move mode t s s')
    (hhead : s'.config.queue.head = s.config.queue.head) (hcovered : Covered s → Covered s')
    (hstopped : s'.config.queue.stopped → s.config.queue.stopped ∨ Covered s')
    (hready : Ready s'.config.queue → Ready s.config.queue ∨ Covered s')
    (hasleep : Asleep (s'.places t) → Asleep (s.places t)) (howned : Owned mode s' t)
    (hok : Ok s' t) : Inv mode s' := by
  refine ⟨?_, ?_, fun hmode => (hmove.eventfd hmode).trans (hinv.eventfd hmode)⟩
  · intro t'
    by_cases heq : t' = t
    · subst heq
      exact howned
    · exact hmove.owned heq (hinv.owned t')
  · intro t'
    by_cases heq : t' = t
    · subst heq
      exact hok
    · have hold := hinv.ok t'
      have hsleep : (Ready s.config.queue → Covered s) → Ready s'.config.queue → Covered s' := by
        intro hold hnow
        obtain hnow | hcov := hready hnow
        · exact hcovered (hold hnow)
        · exact hcov
      unfold Ok at hold ⊢
      rw [hmove.places t' heq, hmove.locals t' heq]
      split
      all_goals simp only [*] at hold
      · exact hold
      · exact hold.mono hhead hcovered hstopped (hmove.sleeper hasleep)
      · exact hsleep hold
      · exact hsleep hold
      · trivial

theorem Inv.outside (hinv : Inv mode s) (hmove : Move mode t s s')
    (hqueue : s'.config.queue = s.config.queue) (hcovered : Covered s → Covered s')
    (hasleep : Asleep (s'.places t) → Asleep (s.places t)) (howned : Owned mode s' t)
    (hok : Ok s' t) : Inv mode s' :=
  hinv.shared hmove (by rw [hqueue]) hcovered (by rw [hqueue]; exact .inl)
    (by rw [hqueue]; exact .inl) hasleep howned hok

def Pulls : Place α → Prop
  | .pulling _ _ | .wait _ => True
  | _ => False

theorem Inv.pulls_alone (hinv : Inv mode s) (ht : Pulls (s.places t)) (hne : t' ≠ t) :
    ¬ Pulls (s.places t') := by
  intro ht'
  have h := hinv.owned t
  have h' := hinv.owned t'
  unfold Owned at h h'
  cases mode with
  | eventfd consumer =>
    cases hp : s.places t
    all_goals cases hp' : s.places t'
    all_goals simp_all [Pulls]
  | pthread =>
    cases hp : s.places t
    all_goals cases hp' : s.places t'
    all_goals simp_all [Pulls]

theorem Inv.single (hinv : Inv mode s) (hmove : Move mode t s s')
    (halone : ∀ t' ≠ t, ¬ Pulls (s.places t'))
    (hasleep : ∀ t' ≠ t, Asleep (s.places t') → Ready s'.config.queue → Covered s')
    (howned : Owned mode s' t) (hok : Ok s' t) : Inv mode s' := by
  refine ⟨?_, ?_, fun hmode => (hmove.eventfd hmode).trans (hinv.eventfd hmode)⟩
  · intro t'
    by_cases heq : t' = t
    · subst heq
      exact howned
    · exact hmove.owned heq (hinv.owned t')
  · intro t'
    by_cases heq : t' = t
    · subst heq
      exact hok
    · have hold := hinv.ok t'
      have hpulls := halone t' heq
      have hsleep := hasleep t' heq
      unfold Ok at hold ⊢
      rw [hmove.places t' heq, hmove.locals t' heq]
      cases hp : s.places t'
      all_goals simp_all [Pulls, Asleep]

end VillasNode.Signalled
