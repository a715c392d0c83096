import VillasNode.Lib.Runs
import VillasNode.Queue.Waiting

/-!
# No lost wake-up

A consumer that is about to sleep has seen an open queue with nothing at its
head. Whoever changes that has its signal ahead, and the signal comes late
enough: it is counted by the descriptor, or it needs the mutex that the consumer
gives back only when it waits.
-/

namespace VillasNode.Signalled

open Mpmc QueueSignalled

variable {τ α : Type*} {mode : Mode τ} {s s' : QueueSignalled τ α} {t t' : τ}

/-! ## The steps -/

/-- A move that keeps the mutex and the counter. -/
structure Frame (t : τ) (s s' : QueueSignalled τ α) : Prop where
  places : ∀ t' ≠ t, s'.places t' = s.places t'
  locals : ∀ t' ≠ t, s'.config.locals t' = s.config.locals t'
  mutex : s'.mutex = s.mutex
  eventfd : s'.eventfd = s.eventfd

theorem Frame.move (h : Frame t s s') : Move mode t s s' :=
  ⟨h.places, h.locals, .inl h.mutex, fun _ => h.eventfd⟩

theorem Frame.trans {s'' : QueueSignalled τ α} (h : Frame t s s') (h' : Frame t s' s'') :
    Frame t s s'' :=
  ⟨fun t' ht => (h'.places t' ht).trans (h.places t' ht),
    fun t' ht => (h'.locals t' ht).trans (h.locals t' ht), h'.mutex.trans h.mutex,
    h'.eventfd.trans h.eventfd⟩

theorem Inv.goes (hinv : Inv mode s) (hframe : Frame t s s')
    (hqueue : s'.config.queue = s.config.queue) (hahead : ¬ SignalAhead (s.places t))
    (hawake : ¬ Asleep (s'.places t)) (howned : Owned mode s' t) (hok : Ok s' t) : Inv mode s' := by
  have hmove : Move mode t s s' := hframe.move
  apply hinv.outside hmove hqueue _ (fun h => absurd h hawake) howned hok
  exact hmove.covered (by rw [hframe.eventfd]) fun h => absurd h hahead

theorem Inv.locked (hinv : Inv .pthread s) {s₁ : QueueSignalled τ α} (hframe : Frame t s s₁)
    (hqueue : s₁.config.queue = s.config.queue)
    (hahead : SignalAhead (s.places t) → SignalAhead (s₁.places t))
    (hawake : ¬ Asleep (s₁.places t)) (hok : Ok { s₁ with mutex := some t } t)
    (h : s.lock t s₁ = some s') : Inv .pthread s' := by
  unfold QueueSignalled.lock at h
  split at h
  · rename_i hfree
    cases h
    have hmove : Move .pthread t s { s₁ with mutex := some t } :=
      ⟨hframe.places, hframe.locals, .inr (.inl hfree), fun _ => hframe.eventfd⟩
    apply hinv.outside hmove hqueue _ (fun h => absurd h hawake) _ hok
    · exact hmove.covered (by simp [hframe.eventfd]) fun h => .inr ⟨t, hahead h⟩
    · simp only [Owned]
      split
      all_goals trivial
  · simp at h

theorem Owned.of_pulls (h : Owned mode s t) (hpulls : Pulls (s.places t))
    (hpulls' : Pulls (s'.places t)) (hmutex : s'.mutex = s.mutex) : Owned mode s' t := by
  unfold Owned at h ⊢
  cases mode
  all_goals cases hp : s.places t
  all_goals cases hp' : s'.places t
  all_goals simp_all [Pulls]

theorem signalling_spec (mode : Mode τ) :
    SignalAhead (mode.signalling : Place α) ∧ ¬ Asleep (mode.signalling : Place α) := by
  cases mode <;> simp [Mode.signalling, SignalAhead, Asleep]

section
variable [DecidableEq τ]

theorem goto_frame (s : QueueSignalled τ α) (t : τ) (p : Place α) : Frame t s (s.goto t p) :=
  ⟨fun _ ht => Function.update_of_ne ht .., fun _ _ => rfl, rfl, rfl⟩

theorem startPush_frame (s : QueueSignalled τ α) (t : τ) (v : α) (rest : List α) (i : Nat) :
    Frame t s (s.startPush t v rest i) :=
  ⟨fun _ ht => Function.update_of_ne ht .., fun _ ht => Function.update_of_ne ht .., rfl, rfl⟩

theorem startPull_frame (s : QueueSignalled τ α) (t : τ) (cnt i : Nat) :
    Frame t s (s.startPull t cnt i) :=
  ⟨fun _ ht => Function.update_of_ne ht .., fun _ ht => Function.update_of_ne ht .., rfl, rfl⟩

@[simp]
theorem goto_place (s : QueueSignalled τ α) (t : τ) (p : Place α) : (s.goto t p).places t = p :=
  Function.update_self ..

@[simp]
theorem startPush_place (s : QueueSignalled τ α) (t : τ) (v : α) (rest : List α) (i : Nat) :
    (s.startPush t v rest i).places t = .pushing rest i :=
  Function.update_self ..

@[simp]
theorem startPull_place (s : QueueSignalled τ α) (t : τ) (cnt i : Nat) :
    (s.startPull t cnt i).places t = .pulling cnt i :=
  Function.update_self ..

@[simp]
theorem startPush_local (s : QueueSignalled τ α) (t : τ) (v : α) (rest : List α) (i : Nat) :
    (s.startPush t v rest i).config.locals t = .pushState v :=
  Function.update_self ..

@[simp]
theorem startPull_local (s : QueueSignalled τ α) (t : τ) (cnt i : Nat) :
    (s.startPull t cnt i).config.locals t = .pullState :=
  Function.update_self ..

theorem signalling_ok (mode : Mode τ) (s : QueueSignalled τ α) (t : τ) :
    Owned mode (s.goto t mode.signalling) t ∧ Ok (s.goto t mode.signalling) t := by
  cases mode <;> simp [Mode.signalling, Owned, Ok]

theorem idle_ok (s : QueueSignalled τ α) (t : τ) :
    Owned mode (s.goto t .idle) t ∧ Ok (s.goto t .idle) t := by
  cases mode <;> simp [Owned, Ok]

theorem startPush_ok (mode : Mode τ) (s : QueueSignalled τ α) (t : τ) (v : α) (rest : List α) (i : Nat) :
    Owned mode (s.startPush t v rest i) t ∧ Ok (s.startPush t v rest i) t := by
  cases mode <;> simp [Owned, Ok, InPush]

theorem pushReturns_spec (mode : Mode τ) (t : τ) (rest : List α) (i : Nat)
    (s : QueueSignalled τ α) (ret : Int) :
    let s' := pushReturns mode t rest i s ret
    Frame t s s' ∧ s'.config.queue = s.config.queue ∧
      (ret = 1 ∨ 1 ≤ i → SignalAhead (s'.places t)) ∧ ¬ Asleep (s'.places t) ∧
      Owned mode s' t ∧ Ok s' t := by
  intro s'
  have hsignal : Frame t s (s.goto t mode.signalling) ∧ (s.goto t mode.signalling).config.queue =
      s.config.queue ∧ (ret = 1 ∨ 1 ≤ i → SignalAhead ((s.goto t mode.signalling).places t)) ∧
      ¬ Asleep ((s.goto t mode.signalling).places t) ∧ Owned mode (s.goto t mode.signalling) t ∧
      Ok (s.goto t mode.signalling) t := by
    rw [goto_place]
    obtain ⟨hahead, hawake⟩ := signalling_spec (α := α) mode
    exact ⟨goto_frame .., rfl, fun _ => hahead, hawake, signalling_ok mode s t⟩
  unfold s' pushReturns
  split
  · split
    · rename_i hret
      refine ⟨goto_frame .., rfl, ?_, ?_, idle_ok s t⟩
      · intro h
        omega
      · simp [Asleep]
    · exact hsignal
  · split
    · exact hsignal
    · exact ⟨startPush_frame .., rfl, by simp [SignalAhead], by simp [Asleep], startPush_ok ..⟩

theorem Inv.pushing (hinv : Inv mode s) {rest : List α} {i : Nat} {spurious : Bool}
    (hplace : s.places t = .pushing rest i)
    (h : s.access t spurious (pushReturns mode t rest i) = some s') : Inv mode s' := by
  have hpush : InPush (s.config.locals t) := by
    have hok := hinv.ok t
    simp only [Ok, hplace] at hok
    exact hok
  obtain ⟨c, haccess, hs'⟩ := Option.map_eq_some_iff.mp h
  obtain ⟨hhead, hstopped, hlocals, hready, hin⟩ := access_push hpush haccess
  have hframe : Frame t s { s with config := c } := ⟨fun _ _ => rfl, hlocals, rfl, rfl⟩
  cases hresult : result s.config.queue (s.config.locals t) with
  | none =>
    simp only [hresult] at hs' hready hin
    subst hs'
    apply hinv.shared hframe.move hhead id (fun h => .inl (hstopped ▸ h)) _ id (hinv.owned t)
    · simp only [Ok, hplace]
      exact hin trivial
    · intro h
      obtain h | h := hready h
      · exact .inl h
      · simp at h
  | some ret =>
    simp only [hresult, Option.some.injEq] at hs' hready
    obtain ⟨hreturn, hqueue, hahead, hawake, howned, hok⟩ :=
      pushReturns_spec mode t rest i { s with config := c } ret
    subst hs'
    have hmove : Move mode t s _ := (hframe.trans hreturn).move
    apply hinv.shared hmove (by rw [hqueue]; exact hhead) _ _ _ (fun h => absurd h hawake) howned hok
    · apply hmove.covered (by rw [(hframe.trans hreturn).eventfd])
      intro hold
      rw [hplace] at hold
      exact .inr ⟨t, hahead (.inr hold)⟩
    · rw [hqueue]
      exact fun h => .inl (hstopped ▸ h)
    · rw [hqueue]
      intro h
      obtain h | h := hready h
      · exact .inl h
      · exact .inr (.inr ⟨t, hahead (.inl h)⟩)

theorem ending_ok (s : QueueSignalled τ α) (h : Owned mode s t) (hpulls : Pulls (s.places t)) :
    Owned mode (s.goto t mode.ending) t ∧ Ok (s.goto t mode.ending) t := by
  unfold Owned at h
  cases mode with
  | eventfd consumer => simp [Mode.ending, Owned, Ok]
  | pthread =>
    cases hp : s.places t
    all_goals simp_all [Mode.ending, Owned, Ok, Pulls, goto]

theorem pullReturns_spec {cnt i : Nat} (s : QueueSignalled τ α) (ret : Int)
    (howned : Owned mode s t) (hplace : s.places t = .pulling cnt i)
    (hempty : ret = 0 → i = 0 → Ready s.config.queue → Covered s) :
    let s' := pullReturns mode t cnt i s ret
    Frame t s s' ∧ s'.config.queue = s.config.queue ∧ (Covered s → Covered s') ∧
      Owned mode s' t ∧ Ok s' t := by
  intro s'
  have hpulls : Pulls (s.places t) := by simp [hplace, Pulls]
  have hcovered : ∀ s₁, Frame t s s₁ → Covered s → Covered s₁ := by
    intro s₁ hframe
    have hmove : Move mode t s s₁ := hframe.move
    apply hmove.covered (by rw [hframe.eventfd])
    simp [hplace, SignalAhead]
  have hend : Frame t s (s.goto t mode.ending) ∧ (s.goto t mode.ending).config.queue =
      s.config.queue ∧ (Covered s → Covered (s.goto t mode.ending)) ∧
      Owned mode (s.goto t mode.ending) t ∧ Ok (s.goto t mode.ending) t :=
    ⟨goto_frame .., rfl, hcovered _ (goto_frame ..), ending_ok s howned hpulls⟩
  unfold s' pullReturns
  split
  · split
    · rename_i hret
      refine ⟨goto_frame .., rfl, hcovered _ (goto_frame ..), ?_, ?_⟩
      · exact howned.of_pulls hpulls (by simp [Pulls]) rfl
      · simp only [Ok, goto_place]
        intro hready
        exact hcovered _ (goto_frame ..) (hempty hret.1 hret.2 hready)
    · exact hend
  · split
    · refine ⟨startPull_frame .., rfl, hcovered _ (startPull_frame ..), ?_, ?_⟩
      · exact howned.of_pulls hpulls (by simp [Pulls]) rfl
      · simp [Ok, PullOk]
    · exact hend

theorem Inv.pulling (hinv : Inv mode s) {cnt i : Nat} {spurious : Bool}
    (hplace : s.places t = .pulling cnt i)
    (h : s.access t spurious (pullReturns mode t cnt i) = some s') : Inv mode s' := by
  have hpull : PullOk s.config.queue (Covered s) (Sleeper s) (i = 0) (s.config.locals t) := by
    have hok := hinv.ok t
    simp only [Ok, hplace] at hok
    exact hok
  have hsleep : Sleeper s → Ready s.config.queue → Covered s := by
    rintro ⟨t', ht'⟩
    have hok := hinv.ok t'
    unfold Ok at hok
    cases hp : s.places t'
    all_goals simp_all [Asleep]
  have halone : ∀ t' ≠ t, ¬ Pulls (s.places t') :=
    fun t' hne => hinv.pulls_alone (by simp [hplace, Pulls]) hne
  obtain ⟨c, haccess, hs'⟩ := Option.map_eq_some_iff.mp h
  obtain ⟨hlocals, hasleep, hin, hempty⟩ := access_pull hpull hsleep haccess
  have hframe : Frame t s { s with config := c } := ⟨fun _ _ => rfl, hlocals, rfl, rfl⟩
  cases hresult : result s.config.queue (s.config.locals t) with
  | none =>
    simp only [hresult] at hs' hin
    subst hs'
    apply hinv.single hframe.move halone (fun t' _ ht' => hasleep ⟨t', ht'⟩) (hinv.owned t)
    simp only [Ok, hplace]
    exact hin trivial
  | some ret =>
    simp only [hresult, Option.some.injEq] at hs' hempty
    obtain ⟨hreturn, hqueue, hcovered, howned, hok⟩ :=
      pullReturns_spec { s with config := c } ret (hinv.owned t) hplace hempty
    subst hs'
    apply hinv.single (hframe.trans hreturn).move halone _ howned hok
    intro t' _ ht' hready
    rw [hqueue] at hready
    exact hcovered (hasleep ⟨t', ht'⟩ hready)

theorem Inv.broadcast (hinv : Inv .pthread s) (hplace : s.places t = .signal) :
    Inv .pthread (s.broadcast.goto t .unlock) := by
  have hmutex : s.mutex = some t := by
    have howned := hinv.owned t
    simp only [Owned, hplace] at howned
    exact howned
  have hother : ∀ t' ≠ t, (s.broadcast.goto t .unlock).places t' = wakeUp (s.places t') :=
    fun t' ht' => Function.update_of_ne ht' ..
  have halone : ∀ t' ≠ t, ¬ Pulls (s.places t') := by
    intro t' ht' hpulls
    have howned := hinv.owned t'
    unfold Owned at howned
    cases hp : s.places t'
    all_goals simp_all [Pulls]
  refine ⟨?_, ?_, hinv.eventfd⟩
  · intro t'
    by_cases heq : t' = t
    · subst heq
      simp only [Owned, goto_place]
      exact hmutex
    · have howned := hinv.owned t'
      unfold Owned at howned ⊢
      rw [hother t' heq]
      cases hp : s.places t'
      all_goals simp_all [wakeUp]
  · intro t'
    by_cases heq : t' = t
    · subst heq
      simp [Ok]
    · have hok := hinv.ok t'
      have hpulls := halone t' heq
      unfold Ok at hok ⊢
      rw [hother t' heq]
      cases hp : s.places t'
      all_goals simp_all [wakeUp, Pulls]
      exact hok

theorem Inv.signals (hinv : Inv mode s) {spurious : Bool} (hplace : s.places t = .signal)
    (h : s.next mode t spurious = some s') : Inv mode s' := by
  simp only [QueueSignalled.next, hplace] at h
  cases mode with
  | eventfd consumer =>
    simp only [Option.some.injEq] at h
    subst h
    have hframe := goto_frame s t (Mode.eventfd consumer).ending
    have hmove : Move (.eventfd consumer) t s
        { s.goto t (Mode.eventfd consumer).ending with eventfd := s.eventfd + 1 } :=
      ⟨hframe.places, hframe.locals, .inl rfl, by simp⟩
    apply hinv.outside hmove rfl
    · exact fun _ => .inl (Nat.succ_pos _)
    · simp [Mode.ending, Asleep]
    · simp [Owned, Mode.ending]
    · simp [Ok, Mode.ending]
  | pthread =>
    simp only [Option.some.injEq] at h
    subst h
    exact hinv.broadcast hplace

theorem Inv.sleeps (hinv : Inv mode s) {cnt : Nat} {spurious : Bool} (hplace : s.places t = .wait cnt)
    (h : s.next mode t spurious = some s') : Inv mode s' := by
  have hpulls : Pulls (s.places t) := by simp [hplace, Pulls]
  have halone : ∀ t' ≠ t, ¬ Pulls (s.places t') := fun t' hne => hinv.pulls_alone hpulls hne
  have howned := hinv.owned t
  simp only [QueueSignalled.next, hplace] at h
  cases mode with
  | eventfd consumer =>
    simp only at h
    split at h
    · simp at h
    · cases h
      have hframe := startPull_frame s t cnt 0
      refine hinv.single ⟨hframe.places, hframe.locals, .inl rfl, by simp⟩ halone ?_ ?_ ?_
      · intro t' _ hasleep
        -- Nobody sleeps without a mutex.
        have hnot := hinv.owned t'
        unfold Owned at hnot
        cases hp : s.places t'
        all_goals simp_all [Asleep]
      · exact howned.of_pulls hpulls (by simp [Pulls]) rfl
      · simp [Ok, PullOk]
  | pthread =>
    simp only [Option.some.injEq] at h
    subst h
    simp only [Owned, hplace] at howned
    have hframe := goto_frame s t (.waiting cnt)
    have hmove : Move .pthread t s { s.goto t (.waiting cnt) with mutex := none } :=
      ⟨hframe.places, hframe.locals, .inr (.inr howned), fun _ => rfl⟩
    have hcovered : Covered s → Covered { s.goto t (.waiting cnt) with mutex := none } := by
      apply hmove.covered (Nat.le_refl _)
      simp [hplace, SignalAhead]
    apply hinv.single hmove halone
    · intro t' _ hasleep hready
      have hok := hinv.ok t'
      unfold Ok at hok
      cases hp : s.places t'
      all_goals simp_all [Asleep]
      exact hcovered (hok hready)
    · simp [Owned]
    · have hok := hinv.ok t
      simp only [Ok, hplace] at hok
      simp only [Ok, goto_place]
      exact fun hready => hcovered (hok hready)

theorem Inv.closes (hinv : Inv mode s) (spurious : Bool) (hplace : s.places t = .closing) :
    Inv mode ((if spurious then s else s.queueClose).goto t .signal) := by
  have hclose : Frame t s (if spurious then s else s.queueClose) := by
    split
    · exact ⟨fun _ _ => rfl, fun _ _ => rfl, rfl, rfl⟩
    · exact ⟨fun _ _ => rfl, fun _ _ => rfl, rfl, rfl⟩
  have hframe := hclose.trans (goto_frame _ t .signal)
  have hahead : Covered ((if spurious then s else s.queueClose).goto t .signal) :=
    .inr ⟨t, by simp [SignalAhead]⟩
  apply hinv.shared hframe.move _ (fun _ => hahead) (fun _ => .inr hahead) (fun _ => .inr hahead)
  · simp [Asleep]
  · have howned := hinv.owned t
    cases mode
    · simp [Owned]
    · simp only [Owned, hplace] at howned
      simp only [Owned, goto_place]
      exact hframe.mutex.trans howned
  · simp [Ok]
  · split
    · rfl
    · rfl

theorem Inv.pull (hinv : Inv mode s) {cnt : Nat} (hplace : s.places t = .idle)
    (h : s.pull mode t cnt = some s') : Inv mode s' := by
  unfold QueueSignalled.pull at h
  cases mode with
  | eventfd consumer =>
    simp only at h
    split at h
    · rename_i hcan
      cases h
      apply hinv.goes (startPull_frame ..) rfl
      · simp [hplace, SignalAhead]
      · simp [Asleep]
      · simpa [Owned] using hcan.1
      · simp [Ok, PullOk]
    · simp at h
  | pthread =>
    simp only at h
    split at h
    · cases h
      apply hinv.goes (goto_frame ..) rfl
      · simp [hplace, SignalAhead]
      · simp [Asleep]
      · simp [Owned]
      · simp [Ok]
    · simp at h

theorem Inv.push (hinv : Inv mode s) (v : α) (vs : List α) (hplace : s.places t = .idle) :
    Inv mode (s.startPush t v vs 0) := by
  obtain ⟨howned, hok⟩ := startPush_ok mode s t v vs 0
  apply hinv.goes (startPush_frame ..) rfl _ _ howned hok
  · simp [hplace, SignalAhead]
  · simp [Asleep]

theorem Inv.call (hinv : Inv mode s) {a : Action α} (hplace : s.places t = .idle)
    (h : s.call mode t a = some s') : Inv mode s' := by
  cases a with
  | push v =>
    cases h
    exact hinv.push v [] hplace
  | pushMany vs garbage =>
    cases vs with
    | nil =>
      cases garbage with
      | false =>
        cases h
        obtain ⟨-, hawake⟩ := signalling_spec (α := α) mode
        obtain ⟨howned, hok⟩ := signalling_ok mode s t
        apply hinv.goes (goto_frame ..) rfl _ (by simpa using hawake) howned hok
        simp [hplace, SignalAhead]
      | true =>
        cases h
        exact hinv
    | cons v vs =>
      cases h
      exact hinv.push v vs hplace
  | pull => exact hinv.pull hplace h
  | pullMany cnt => exact hinv.pull hplace h
  | close =>
    cases mode
    all_goals
      cases h
      apply hinv.goes (goto_frame ..) rfl
      · simp [hplace, SignalAhead]
      · simp [Asleep]
      · simp [Owned]
      · simp [Ok]
  | wake => simp [QueueSignalled.call] at h
  | next spurious => simp [QueueSignalled.call] at h

theorem Inv.next (hinv : Inv mode s) {spurious : Bool} (h : s.next mode t spurious = some s') :
    Inv mode s' := by
  have howned := hinv.owned t
  cases hplace : s.places t with
  | idle => simp [QueueSignalled.next, hplace] at h
  | waiting cnt => simp [QueueSignalled.next, hplace] at h
  | signal => exact hinv.signals hplace h
  | wait cnt => exact hinv.sleeps hplace h
  | pushing rest i =>
    simp only [QueueSignalled.next, hplace] at h
    exact hinv.pushing hplace h
  | pulling cnt i =>
    simp only [QueueSignalled.next, hplace] at h
    exact hinv.pulling hplace h
  | closing =>
    simp only [QueueSignalled.next, hplace, Option.some.injEq] at h
    subst h
    exact hinv.closes spurious hplace
  | unlock =>
    simp only [QueueSignalled.next, hplace, Option.some.injEq] at h
    subst h
    cases mode with
    | eventfd consumer => simp [Owned, hplace] at howned
    | pthread =>
      simp only [Owned, hplace] at howned
      have hframe := goto_frame s t .idle
      have hmove : Move .pthread t s { s.goto t .idle with mutex := none } :=
        ⟨hframe.places, hframe.locals, .inr (.inr howned), fun _ => rfl⟩
      apply hinv.outside hmove rfl
      · apply hmove.covered (Nat.le_refl _)
        simp [hplace, SignalAhead]
      · simp [Asleep]
      · simp [Owned]
      · simp [Ok]
  | signalLock | closeLock | pullLock | woken =>
    simp only [QueueSignalled.next, hplace] at h
    cases mode with
    | eventfd consumer => simp [Owned, hplace] at howned
    | pthread =>
      first
      | apply hinv.locked (goto_frame ..) rfl _ _ _ h
      | apply hinv.locked (startPull_frame ..) rfl _ _ _ h
      · simp [hplace, SignalAhead]
      · simp [Asleep]
      · simp [Ok, PullOk]

theorem Inv.step (hinv : Inv mode s) {a : τ × Action α} (h : s.step mode a = some s') :
    Inv mode s' := by
  obtain ⟨t, a⟩ := a
  cases a with
  | next spurious => exact hinv.next h
  | wake =>
    simp only [QueueSignalled.step] at h
    split at h
    · rename_i cnt hplace
      cases h
      have howned := hinv.owned t
      cases mode with
      | eventfd consumer => simp [Owned, hplace] at howned
      | pthread =>
        apply hinv.goes (goto_frame ..) rfl
        · simp [hplace, SignalAhead]
        · simp [Asleep]
        · simp [Owned]
        · simp [Ok]
    · simp at h
  | push | pushMany | pull | pullMany | close =>
    simp only [QueueSignalled.step] at h
    split at h
    · rename_i hplace
      exact hinv.call hplace h
    · simp at h

/-- In every run nobody sleeps through a value at the head or the end of the queue, unless a signal
is still to come. -/
theorem no_lost_wake_up (mode : Mode τ) (size : Nat) {as : List (τ × Action α)}
    (hrun : Runs.run (QueueSignalled.step mode) (QueueSignalled.init τ α size) as = some s)
    (hblocked : Blocked mode s t) (hready : Ready s.config.queue) :
    ∃ t', SignalAhead (s.places t') := by
  have hinv : Inv mode s := Runs.always (fun _ _ _ hinv h => hinv.step h) (init_inv mode size) hrun
  have hok := hinv.ok t
  have hcovered : s.eventfd = 0 ∧ Covered s := by
    cases mode with
    | eventfd consumer =>
      obtain ⟨⟨cnt, hplace⟩, hzero⟩ := hblocked
      simp only [Ok, hplace] at hok
      exact ⟨hzero, hok hready⟩
    | pthread =>
      simp only [Blocked] at hblocked
      refine ⟨hinv.eventfd rfl, ?_⟩
      unfold Ok at hok
      cases hp : s.places t
      all_goals simp_all [Asleep]
  obtain ⟨hzero, hpos | hahead⟩ := hcovered
  · omega
  · exact hahead

end

/-- Thread 0 waits for a value, and thread 1 has just published one. -/
def exampleRun : List (Nat × Action Nat) :=
  (0, .pull) :: List.replicate 5 (0, .next false) ++ (1, .push 7) :: List.replicate 6 (1, .next false)

theorem no_lost_wake_up_waiting :
    ∃ s, Runs.run (QueueSignalled.step .pthread) (QueueSignalled.init Nat Nat 2) exampleRun = some s ∧
      Blocked .pthread s 0 ∧ Ready s.config.queue ∧ ∃ t, SignalAhead (s.places t) := by
  have hreach : ∃ s, Runs.run (QueueSignalled.step .pthread) (QueueSignalled.init Nat Nat 2)
      exampleRun = some s ∧ Blocked .pthread s 0 ∧ Ready s.config.queue :=
    ⟨_, rfl, trivial, .inr (by decide)⟩
  obtain ⟨s, hrun, hblocked, hready⟩ := hreach
  exact ⟨s, hrun, hblocked, hready, no_lost_wake_up .pthread 2 hrun hblocked hready⟩

end VillasNode.Signalled
