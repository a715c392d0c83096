import VillasNode.Hook.Builtin

/-!
# What the drop hook skips

`DropHook` keeps the sample before, not its number. Hooks behind it change
this sample in place. Here a list is run next to the same list without the
hooks behind the drop hook.
-/

namespace VillasNode

variable {σ : Type*} {h h' : Heap} {smp : SampleId}

/-! ## Skipped samples -/

namespace HookList

variable {τ : Type*}

/-- The hook with index `k` is given the sample and skips it. -/
def skips (hs : HookList τ) (h : Heap) (k : Nat) (smp : SampleId) : Bool :=
  match hs.processChain h smp 0 k with
  | (hs, h, .ok) => (hs.processOne h k smp).2.2 = .skipSample
  | _ => false

/-- The hooks go through the samples in order and stop at an error. -/
def walk (hs : HookList τ) (h : Heap) : List SampleId → HookList τ × Heap
  | [] => (hs, h)
  | smp :: smps =>
    match hs.processChain h smp 0 hs.retained.length with
    | (hs, h, .error) => (hs, h)
    | (hs, h, _) => hs.walk h smps

/-- The samples of a call that the hook with index `k` skips. -/
def skipped (hs : HookList τ) (h : Heap) (k : Nat) : List SampleId → List SampleId
  | [] => []
  | smp :: smps =>
    let rest :=
      match hs.processChain h smp 0 hs.retained.length with
      | (_, _, .error) => []
      | (hs, h, _) => hs.skipped h k smps
    if hs.skips h k smp then smp :: rest else rest

/-- The samples that it skips in each of several calls. -/
def skippedAll (hs : HookList τ) (h : Heap) (k : Nat) : List Batch → List (List SampleId)
  | [] => []
  | batch :: batches =>
    let h := h.deliver batch
    let (hs', h', _) := hs.hookListProcess h batch.ids
    hs.skipped h k batch.ids :: hs'.skippedAll h' k batches

end HookList

section Equations

variable {τ : Type*} (hs : HookList τ) (h : Heap) (k : Nat) (smp : SampleId) (smps : List SampleId)

theorem walk_cons : hs.walk h (smp :: smps) =
    let r := hs.processChain h smp 0 hs.retained.length
    if r.2.2 = .error then (r.1, r.2.1) else r.1.walk r.2.1 smps := by
  rw [HookList.walk]
  generalize hs.processChain h smp 0 hs.retained.length = r
  obtain ⟨hs₁, h₁, _ | _ | _ | _⟩ := r <;> rfl

theorem skipped_cons : hs.skipped h k (smp :: smps) =
    let r := hs.processChain h smp 0 hs.retained.length
    let rest := if r.2.2 = .error then [] else r.1.skipped r.2.1 k smps
    if hs.skips h k smp then smp :: rest else rest := by
  rw [HookList.skipped]
  generalize hs.processChain h smp 0 hs.retained.length = r
  obtain ⟨hs₁, h₁, _ | _ | _ | _⟩ := r <;> rfl

end Equations

theorem processLoop_walk {τ : Type*} (hs : HookList τ) (h : Heap) (smps : List SampleId)
    (current processed n : Nat) (hle : processed ≤ current) (hn : current + n = smps.length) :
    (hs.processLoop h smps current processed n).1 = (hs.walk h (smps.drop current)).1 ∧
      (hs.processLoop h smps current processed n).2.1 = (hs.walk h (smps.drop current)).2 := by
  induction n generalizing hs h smps current processed with
  | zero =>
    rw [List.drop_eq_nil_of_le (by omega)]
    exact ⟨rfl, rfl⟩
  | succ n ih =>
    have hlt : current < smps.length := by omega
    rw [List.drop_eq_getElem_cons hlt]
    unfold HookList.processLoop HookList.walk
    rw [List.getElem?_eq_getElem hlt]
    dsimp only
    generalize hs.processChain h smps[current] 0 hs.retained.length = r
    obtain ⟨hs₁, h₁, reason⟩ := r
    have hswap := ih hs₁ h₁ (HookList.swap smps processed current) (current + 1) (processed + 1)
      (by omega) (by rw [(swap_perm ..).length_eq]; omega)
    rw [swap_drop smps hle] at hswap
    cases reason with
    | ok => exact hswap
    | error => exact ⟨rfl, rfl⟩
    | skipSample => exact ih hs₁ h₁ smps (current + 1) processed (by omega) (by omega)
    | stopProcessing => exact hswap

theorem hookListProcess_walk {τ : Type*} (hs : HookList τ) (h : Heap) (smps : List SampleId)
    (hpos : hs.retained.length ≠ 0) :
    (hs.hookListProcess h smps).1 = (hs.walk h smps).1 ∧
      (hs.hookListProcess h smps).2.1 = (hs.walk h smps).2 := by
  unfold HookList.hookListProcess
  rw [if_neg hpos]
  exact processLoop_walk hs h smps 0 0 smps.length (Nat.le_refl 0) (Nat.zero_add _)

/-! ## What hooks read of the samples they keep -/

/-- For the hook, two samples that it may hold on to are the same. -/
def Hook.Blind (Same : Payload → Payload → Prop) (hook : Hook σ) : Prop :=
  match hook.type with
  | .restart => ∀ p p', Same p p' → ∀ x, restarts x p.sequence = restarts x p'.sequence
  | .drop => ∀ p p', Same p p' → p.sequence.setWidth 32 = p'.sequence.setWidth 32
  | .other o => ∀ p p', Same p p' → ∀ state x, o.process state (some p) x = o.process state (some p') x

/-- The hook changes a sample into one that is the same, and it returns no error. -/
def Hook.Keeps (Same : Payload → Payload → Prop) (hook : Hook σ) : Prop :=
  match hook.type with
  | .restart => False
  | .drop => True
  | .other o => ∀ state prev x, Same x (o.process state prev x).2.1 ∧ (o.process state prev x).2.2.1 ≠ .error

theorem dropDist_congr {p p' : BitVec 64} (hlow : p.setWidth 32 = p'.setWidth 32) (x : BitVec 64) :
    dropDist x p = dropDist x p' := by
  have hmod : p.toNat % 2 ^ 32 = p'.toNat % 2 ^ 32 := by
    rw [← BitVec.toNat_setWidth, ← BitVec.toNat_setWidth, hlow]
  have hsub : (x - p).setWidth 32 = (x - p').setWidth 32 := by
    apply BitVec.eq_of_toNat_eq
    rw [BitVec.toNat_setWidth, BitVec.toNat_setWidth, BitVec.toNat_sub, BitVec.toNat_sub]
    omega
  unfold dropDist
  rw [hsub]

/-! ## One hook in both lists -/

variable {Same : Payload → Payload → Prop} {full cut : List (Hook σ)} {k : Nat}

/-- Two outcomes that do the same to the hooks up to index `k` and to the sample. -/
structure Agrees (k : Nat) (o o' : Outcome (Nat → σ)) : Prop where
  state : ∀ j ≤ k, o.state j = o'.state j
  payload : o.payload = o'.payload
  reason : o.reason = o'.reason
  retention : ∀ j ≤ k, o.retention j = o'.retention j

/-- Samples that hooks hold on to, in the two runs. -/
def SamePrev (Same : Payload → Payload → Prop) : Option Payload → Option Payload → Prop
  | some p, some p' => Same p p'
  | none, none => True
  | _, _ => False

theorem SamePrev.any {prev prev' : Option Payload} (hprev : SamePrev Same prev prev')
    {test : Payload → Bool} (htest : ∀ p p', Same p p' → test p = test p') :
    prev.any test = prev'.any test := by
  rcases prev with _ | p <;> rcases prev' with _ | p'
  · rfl
  · exact hprev.elim
  · exact hprev.elim
  · exact htest p p' hprev

theorem process_agrees {i : Nat} (hik : i ≤ k) (hlists : ∀ j ≤ k, full[j]? = cut[j]?)
    (hblind : ∀ hook ∈ cut, hook.Blind Same) {states states' : Nat → σ}
    (hstates : ∀ j ≤ k, states j = states' j) {prevs prevs' : List (Option Payload)}
    (hprev : SamePrev Same prevs[i]?.join prevs'[i]?.join) (x : Payload) :
    Agrees k (Hooks.process full i states prevs x) (Hooks.process cut i states' prevs' x) := by
  have hretention : ∀ j ≤ k, Hooks.restartRetention full states j = Hooks.restartRetention cut states' j := by
    intro j hj
    unfold Hooks.restartRetention
    rw [hlists j hj, hstates j hj]
  have hrestart : ∀ j ≤ k, Hooks.restartStates full states j = Hooks.restartStates cut states' j := by
    intro j hj
    unfold Hooks.restartStates
    rw [hlists j hj, hstates j hj]
  unfold Hooks.process
  rw [hlists i hik]
  cases hget : cut[i]? with
  | none => exact ⟨hstates, rfl, rfl, fun _ _ => rfl⟩
  | some hook =>
    have hblind := hblind hook (List.mem_of_getElem? hget)
    unfold Hook.Blind at hblind
    rw [Option.map_some]
    cases htype : hook.type with
    | restart =>
      rw [htype] at hblind
      dsimp only at hblind ⊢
      rw [hprev.any fun p p' hsame => hblind p p' hsame x.sequence]
      split
      · refine ⟨hrestart, rfl, rfl, fun j hj => ?_⟩
        dsimp only
        rw [hretention j hj]
      · exact ⟨hstates, rfl, rfl, fun _ _ => rfl⟩
    | drop =>
      rw [htype] at hblind
      dsimp only at hblind ⊢
      rw [hprev.any fun p p' hsame => by rw [dropDist_congr (hblind p p' hsame)]]
      split
      · exact ⟨hstates, rfl, rfl, fun _ _ => rfl⟩
      · exact ⟨hstates, rfl, rfl, fun _ _ => rfl⟩
    | other o =>
      rw [htype] at hblind
      obtain ⟨process, restart⟩ := o
      have hone : process (states i) prevs[i]?.join x = process (states' i) prevs'[i]?.join x := by
        rw [hstates i hik]
        generalize prevs[i]?.join = prev at hprev
        generalize prevs'[i]?.join = prev' at hprev
        rcases prev with _ | p <;> rcases prev' with _ | p'
        · rfl
        · exact hprev.elim
        · exact hprev.elim
        · exact hblind p p' hprev (states' i) x
      dsimp only
      rw [hone]
      refine ⟨fun j hj => ?_, rfl, rfl, fun _ _ => rfl⟩
      dsimp only
      rw [Function.update_apply, Function.update_apply, hstates j hj]

/-- What the hooks behind the drop hook do to a sample goes unseen by the drop hook and the hooks
before it. -/
structure Unseen (Same : Payload → Payload → Prop) (front back : List (Hook σ)) : Prop where
  equivalence : Equivalence Same
  signals : ∀ (p : Payload) n, Same p { p with signals := n }
  front : ∀ hook ∈ front, hook.Blind Same
  back : ∀ hook ∈ back, hook.Keeps Same

/-- The run with all hooks and the one without the hooks behind index `k`. -/
structure Beside (Same : Payload → Payload → Prop) (full cut : List (Hook σ)) (k : Nat)
    (hs hs' : HookList (Nat → σ)) (h h' : Heap) : Prop where
  process : hs.process = Hooks.process full
  process' : hs'.process = Hooks.process cut
  signals : hs.signals = Hooks.signals full
  signals' : hs'.signals = Hooks.signals cut
  length : hs.retained.length = full.length
  length' : hs'.retained.length = cut.length
  state : ∀ j ≤ k, hs.state j = hs'.state j
  retained : ∀ j ≤ k, hs.retained[j]? = hs'.retained[j]?
  payload : ∀ s, Same (h.payload s) (h'.payload s)

variable {hs hs' : HookList (Nat → σ)} {front back : List (Hook σ)}

theorem Beside.prev (hbeside : Beside Same full cut k hs hs' h h') {i : Nat} (hik : i ≤ k) :
    SamePrev Same (hs.retained.map (Option.map h.payload))[i]?.join
      (hs'.retained.map (Option.map h'.payload))[i]?.join := by
  rw [List.getElem?_map, List.getElem?_map, hbeside.retained i hik]
  rcases hs'.retained[i]? with _ | _ | s
  · trivial
  · trivial
  · exact hbeside.payload s

theorem Beside.both (hunseen : Unseen Same cut back) (hlists : ∀ j ≤ k, full[j]? = cut[j]?)
    (hbeside : Beside Same full cut k hs hs' h h') {i : Nat} (hik : i ≤ k)
    (hsmp : h.payload smp = h'.payload smp) :
    (hs.processOne h i smp).2.2 = (hs'.processOne h' i smp).2.2 ∧
      Beside Same full cut k (hs.processOne h i smp).1 (hs'.processOne h' i smp).1
        (hs.processOne h i smp).2.1 (hs'.processOne h' i smp).2.1 ∧
      (hs.processOne h i smp).2.1.payload smp = (hs'.processOne h' i smp).2.1.payload smp := by
  have hagrees := process_agrees hik hlists hunseen.front hbeside.state (hbeside.prev hik) (h.payload smp)
  rw [← hbeside.process, ← hbeside.process'] at hagrees
  have hpayload : (hs.processOne h i smp).2.1.payload smp = (hs'.processOne h' i smp).2.1.payload smp := by
    rw [processOne_payload, processOne_payload, if_pos rfl, if_pos rfl, ← hsmp]
    dsimp only
    rw [hagrees.payload, hbeside.signals, hbeside.signals']
    unfold Hooks.signals
    rw [hlists i hik, hagrees.state i hik]
  refine ⟨?_, ⟨hbeside.process, hbeside.process', hbeside.signals, hbeside.signals', ?_, ?_, ?_, ?_, ?_⟩,
    hpayload⟩
  · unfold HookList.processOne
    dsimp only
    rw [hagrees.reason, hsmp]
  · rw [(processOne_same hs h i smp).length, hbeside.length]
  · rw [(processOne_same hs' h' i smp).length, hbeside.length']
  · intro j hj
    unfold HookList.processOne
    dsimp only
    rw [hagrees.state j hj, hsmp]
  · intro j hj
    rw [processOne_retained, processOne_retained, hbeside.retained j hj, hagrees.retention j hj, hsmp]
  · intro s
    by_cases hs' : s = smp
    · rw [hs', hpayload]
      exact hunseen.equivalence.refl _
    · rw [processOne_payload, processOne_payload, if_neg hs', if_neg hs']
      exact hbeside.payload s

/-! ## One hook behind -/

theorem process_keeps (hunseen : Unseen Same front back) {i : Nat} (hki : k < i) {hook : Hook σ}
    (hi : full[i]? = some hook) (hkeeps : hook.Keeps Same) (states : Nat → σ)
    (prevs : List (Option Payload)) (x : Payload) :
    (∀ j ≤ k, (Hooks.process full i states prevs x).state j = states j) ∧
      Same x (Hooks.process full i states prevs x).payload ∧
      (Hooks.process full i states prevs x).reason ≠ .error ∧
      ∀ j ≤ k, (Hooks.process full i states prevs x).retention j = .keep := by
  have hne : ∀ j ≤ k, j ≠ i := by omega
  unfold Hook.Keeps at hkeeps
  unfold Hooks.process
  rw [hi, Option.map_some]
  cases htype : hook.type with
  | restart =>
    rw [htype] at hkeeps
    exact hkeeps.elim
  | drop =>
    dsimp only
    split
    · exact ⟨fun _ _ => rfl, hunseen.equivalence.refl x, Reason.noConfusion, fun _ _ => rfl⟩
    · exact ⟨fun _ _ => rfl, hunseen.equivalence.refl x, Reason.noConfusion, fun j hj => if_neg (hne j hj)⟩
  | other o =>
    rw [htype] at hkeeps
    obtain ⟨hsame, hreason⟩ := hkeeps (states i) prevs[i]?.join x
    exact ⟨fun j hj => Function.update_of_ne (hne j hj) _ _, hsame, hreason, fun j hj => if_neg (hne j hj)⟩

theorem Beside.behind (hunseen : Unseen Same front back)
    (hbeside : Beside Same full cut k hs hs' h h') {i : Nat} (hki : k < i) {hook : Hook σ}
    (hi : full[i]? = some hook) (hkeeps : hook.Keeps Same) (smp : SampleId) :
    (hs.processOne h i smp).2.2 ≠ .error ∧
      Beside Same full cut k (hs.processOne h i smp).1 hs' (hs.processOne h i smp).2.1 h' := by
  obtain ⟨hstate, hsame, hreason, hretention⟩ := process_keeps hunseen hki hi hkeeps hs.state
    (hs.retained.map (Option.map h.payload)) (h.payload smp)
  rw [← hbeside.process] at hstate hsame hreason hretention
  refine ⟨hreason, hbeside.process, hbeside.process', hbeside.signals, hbeside.signals', ?_,
    hbeside.length', ?_, ?_, ?_⟩
  · rw [(processOne_same hs h i smp).length, hbeside.length]
  · intro j hj
    exact (hstate j hj).trans (hbeside.state j hj)
  · intro j hj
    rw [processOne_retained, hretention j hj, ← hbeside.retained j hj]
    exact Option.map_id' ..
  · intro s
    rw [processOne_payload]
    split
    · rename_i hs'
      subst hs'
      refine hunseen.equivalence.trans (hunseen.equivalence.symm ?_) (hbeside.payload s)
      exact hunseen.equivalence.trans hsame (hunseen.signals _ _)
    · exact hbeside.payload s

/-! ## One sample -/

theorem processChain_add {τ : Type*} (hs : HookList τ) (h : Heap) (smp : SampleId) (i m n : Nat) :
    hs.processChain h smp i (m + n) =
      match hs.processChain h smp i m with
      | (hs, h, .ok) => hs.processChain h smp (i + m) n
      | r => r := by
  induction m generalizing hs h i with
  | zero =>
    rw [Nat.zero_add]
    rfl
  | succ m ih =>
    rw [Nat.add_right_comm, HookList.processChain, HookList.processChain]
    generalize hs.processOne h i smp = r
    obtain ⟨hs₁, h₁, reason⟩ := r
    cases reason with
    | ok =>
      dsimp only
      rw [ih, show i + 1 + m = i + (m + 1) by omega]
    | error => rfl
    | skipSample => rfl
    | stopProcessing => rfl

theorem Beside.bothChain (hunseen : Unseen Same cut back) (hlists : ∀ j ≤ k, full[j]? = cut[j]?)
    (hbeside : Beside Same full cut k hs hs' h h') (hsmp : h.payload smp = h'.payload smp)
    {i n : Nat} (hin : i + n ≤ k + 1) :
    (hs.processChain h smp i n).2.2 = (hs'.processChain h' smp i n).2.2 ∧
      Beside Same full cut k (hs.processChain h smp i n).1 (hs'.processChain h' smp i n).1
        (hs.processChain h smp i n).2.1 (hs'.processChain h' smp i n).2.1 ∧
      (hs.processChain h smp i n).2.1.payload smp = (hs'.processChain h' smp i n).2.1.payload smp := by
  induction n generalizing hs hs' h h' i with
  | zero => exact ⟨rfl, hbeside, hsmp⟩
  | succ n ih =>
    obtain ⟨hreason, hbeside₁, hsmp₁⟩ := hbeside.both hunseen hlists (i := i) (by omega) hsmp
    unfold HookList.processChain
    generalize hs.processOne h i smp = r at *
    generalize hs'.processOne h' i smp = r' at *
    obtain ⟨hs₁, h₁, reason⟩ := r
    obtain ⟨hs₁', h₁', reason'⟩ := r'
    obtain rfl : reason = reason' := hreason
    cases reason with
    | ok => exact ih hbeside₁ hsmp₁ (by omega)
    | error => exact ⟨rfl, hbeside₁, hsmp₁⟩
    | skipSample => exact ⟨rfl, hbeside₁, hsmp₁⟩
    | stopProcessing => exact ⟨rfl, hbeside₁, hsmp₁⟩

theorem Beside.behindChain (hunseen : Unseen Same front back)
    (hback : ∀ (j : Nat) hook, k < j → full[j]? = some hook → hook ∈ back)
    (hbeside : Beside Same full cut k hs hs' h h') (smp : SampleId) {i n : Nat} (hki : k < i)
    (hin : i + n ≤ full.length) :
    (hs.processChain h smp i n).2.2 ≠ .error ∧
      Beside Same full cut k (hs.processChain h smp i n).1 hs' (hs.processChain h smp i n).2.1 h' := by
  induction n generalizing hs h i with
  | zero => exact ⟨Reason.noConfusion, hbeside⟩
  | succ n ih =>
    have hi : full[i]? = some full[i] := List.getElem?_eq_getElem (by omega)
    obtain ⟨hreason, hbeside₁⟩ := hbeside.behind hunseen hki hi (hunseen.back _ (hback i _ hki hi)) smp
    unfold HookList.processChain
    generalize hs.processOne h i smp = r at *
    obtain ⟨hs₁, h₁, reason⟩ := r
    cases reason with
    | ok => exact ih hbeside₁ (by omega) (by omega)
    | error => exact absurd rfl hreason
    | skipSample => exact ⟨Reason.noConfusion, hbeside₁⟩
    | stopProcessing => exact ⟨Reason.noConfusion, hbeside₁⟩

theorem getElem?_cut (hcut : cut.length = k + 1) (j : Nat) (hj : j ≤ k) : (cut ++ back)[j]? = cut[j]? :=
  List.getElem?_append_left (by omega)

theorem mem_back (hcut : cut.length = k + 1) (j : Nat) (hook : Hook σ) (hj : k < j)
    (hget : (cut ++ back)[j]? = some hook) : hook ∈ back := by
  rw [List.getElem?_append_right (by omega)] at hget
  exact List.mem_of_getElem? hget

theorem Beside.skips (hunseen : Unseen Same cut back) (hcut : cut.length = k + 1)
    (hbeside : Beside Same (cut ++ back) cut k hs hs' h h') (hsmp : h.payload smp = h'.payload smp) :
    hs.skips h k smp = hs'.skips h' k smp := by
  obtain ⟨hreason, hbeside₁, hsmp₁⟩ := hbeside.bothChain hunseen (getElem?_cut hcut) hsmp
    (i := 0) (n := k) (by omega)
  unfold HookList.skips
  generalize hs.processChain h smp 0 k = r at *
  generalize hs'.processChain h' smp 0 k = r' at *
  obtain ⟨hs₁, h₁, reason⟩ := r
  obtain ⟨hs₁', h₁', reason'⟩ := r'
  obtain rfl : reason = reason' := hreason
  cases reason with
  | ok =>
    dsimp only
    rw [(hbeside₁.both hunseen (getElem?_cut hcut) (Nat.le_refl k) hsmp₁).1]
  | error => rfl
  | skipSample => rfl
  | stopProcessing => rfl

theorem Beside.sample (hunseen : Unseen Same cut back) (hcut : cut.length = k + 1)
    (hbeside : Beside Same (cut ++ back) cut k hs hs' h h') (hsmp : h.payload smp = h'.payload smp) :
    ((hs.processChain h smp 0 hs.retained.length).2.2 = .error ↔
        (hs'.processChain h' smp 0 hs'.retained.length).2.2 = .error) ∧
      Beside Same (cut ++ back) cut k (hs.processChain h smp 0 hs.retained.length).1
        (hs'.processChain h' smp 0 hs'.retained.length).1
        (hs.processChain h smp 0 hs.retained.length).2.1
        (hs'.processChain h' smp 0 hs'.retained.length).2.1 := by
  obtain ⟨hreason, hbeside₁, -⟩ := hbeside.bothChain hunseen (getElem?_cut hcut) hsmp
    (i := 0) (n := k + 1) (by omega)
  rw [hbeside.length, hbeside.length', List.length_append, hcut, processChain_add]
  generalize hs.processChain h smp 0 (k + 1) = r at *
  generalize hs'.processChain h' smp 0 (k + 1) = r' at *
  obtain ⟨hs₁, h₁, reason⟩ := r
  obtain ⟨hs₁', h₁', reason'⟩ := r'
  obtain rfl : reason = reason' := hreason
  cases reason with
  | ok =>
    obtain ⟨hne, hbeside₂⟩ := hbeside₁.behindChain hunseen (mem_back hcut) smp
      (i := 0 + (k + 1)) (n := back.length) (by omega) (by rw [List.length_append]; omega)
    exact ⟨⟨fun herror => absurd herror hne, Reason.noConfusion⟩, hbeside₂⟩
  | error => exact ⟨Iff.rfl, hbeside₁⟩
  | skipSample => exact ⟨Iff.rfl, hbeside₁⟩
  | stopProcessing => exact ⟨Iff.rfl, hbeside₁⟩

/-! ## The run -/

theorem Beside.walk (hunseen : Unseen Same cut back) (hcut : cut.length = k + 1) {smps : List SampleId}
    (hnodup : smps.Nodup) (hbeside : Beside Same (cut ++ back) cut k hs hs' h h')
    (hsmps : ∀ s ∈ smps, h.payload s = h'.payload s) :
    hs.skipped h k smps = hs'.skipped h' k smps ∧
      Beside Same (cut ++ back) cut k (hs.walk h smps).1 (hs'.walk h' smps).1
        (hs.walk h smps).2 (hs'.walk h' smps).2 := by
  induction smps generalizing hs hs' h h' with
  | nil => exact ⟨rfl, hbeside⟩
  | cons smp smps ih =>
    rw [List.nodup_cons] at hnodup
    rw [List.forall_mem_cons] at hsmps
    have hskips := hbeside.skips hunseen hcut hsmps.1
    obtain ⟨herror, hbeside₁⟩ := hbeside.sample hunseen hcut hsmps.1
    have hkeep : ∀ s ∈ smps, (hs.processChain h smp 0 hs.retained.length).2.1.payload s =
        (hs'.processChain h' smp 0 hs'.retained.length).2.1.payload s := by
      intro s hs₁
      have hne : s ≠ smp := fun heq => hnodup.1 (heq ▸ hs₁)
      rw [processChain_fixed 0 _ (by omega) fun heq => absurd heq hne,
        processChain_fixed 0 _ (by omega) fun heq => absurd heq hne, hsmps.2 s hs₁]
    obtain ⟨hrest, hbeside₂⟩ := ih hnodup.2 hbeside₁ hkeep
    rw [skipped_cons, skipped_cons, walk_cons, walk_cons, hskips]
    dsimp only
    by_cases hstop : (hs.processChain h smp 0 hs.retained.length).2.2 = .error
    · rw [if_pos hstop, if_pos hstop, if_pos (herror.mp hstop), if_pos (herror.mp hstop)]
      exact ⟨rfl, hbeside₁⟩
    · have hstop' := fun hstop' => hstop (herror.mpr hstop')
      rw [if_neg hstop, if_neg hstop, if_neg hstop', if_neg hstop', hrest]
      exact ⟨rfl, hbeside₂⟩

theorem deliver_same (hequiv : Equivalence Same) (hsame : ∀ s, Same (h.payload s) (h'.payload s))
    (batch : Batch) (s : SampleId) : Same ((h.deliver batch).payload s) ((h'.deliver batch).payload s) := by
  induction batch generalizing h h' with
  | nil => exact hsame s
  | cons x batch ih =>
    apply ih
    intro s'
    rw [Heap.setPayload_payload, Heap.setPayload_payload]
    split
    · exact hequiv.refl _
    · exact hsame s'

theorem Beside.deliver (hunseen : Unseen Same cut back) (hbeside : Beside Same full cut k hs hs' h h')
    (batch : Batch) : Beside Same full cut k hs hs' (h.deliver batch) (h'.deliver batch) :=
  { hbeside with payload := deliver_same hunseen.equivalence hbeside.payload batch }

theorem Beside.skippedAll (hunseen : Unseen Same cut back) (hcut : cut.length = k + 1)
    {batches : List Batch} (hnodup : ∀ batch ∈ batches, batch.ids.Nodup)
    (hbeside : Beside Same (cut ++ back) cut k hs hs' h h') :
    hs.skippedAll h k batches = hs'.skippedAll h' k batches := by
  induction batches generalizing hs hs' h h' with
  | nil => rfl
  | cons batch batches ih =>
    rw [List.forall_mem_cons] at hnodup
    have hpayload : ∀ s ∈ batch.ids, (h.deliver batch).payload s = (h'.deliver batch).payload s := by
      intro s hs₁
      obtain ⟨x, hx, rfl⟩ := List.mem_map.mp hs₁
      rw [deliver_payload hnodup.1 hx, deliver_payload hnodup.1 hx]
    obtain ⟨hskipped, hbeside₁⟩ := (hbeside.deliver hunseen batch).walk hunseen hcut hnodup.1 hpayload
    obtain ⟨hwalk, hwalkHeap⟩ := hookListProcess_walk hs (h.deliver batch) batch.ids
      (by rw [hbeside.length, List.length_append]; omega)
    obtain ⟨hwalk', hwalkHeap'⟩ := hookListProcess_walk hs' (h'.deliver batch) batch.ids
      (by rw [hbeside.length']; omega)
    unfold HookList.skippedAll
    dsimp only
    rw [hskipped, hwalk, hwalkHeap, hwalk', hwalkHeap', ih hnodup.2 hbeside₁]

theorem beside_start (hunseen : Unseen Same cut back) (hcut : cut.length = k + 1) (states : Nat → σ)
    (h : Heap) :
    Beside Same (cut ++ back) cut k (Hooks.start (cut ++ back) states) (Hooks.start cut states) h h := by
  refine ⟨rfl, rfl, rfl, rfl, List.length_map .., List.length_map .., fun _ _ => rfl, fun j hj => ?_,
    fun s => hunseen.equivalence.refl _⟩
  unfold Hooks.start
  rw [List.getElem?_map, List.getElem?_map, getElem?_cut hcut j hj]

/-- The drop hook skips what it skips without the hooks behind it, if these return no error and
change nothing that it or a hook before it reads of the samples it keeps. -/
theorem drop_skips_same (front : List (Hook σ)) {priority : Nat} {signals : σ → Nat}
    (hunseen : Unseen Same (front ++ [⟨.drop, priority, true, signals⟩]) back) (states : Nat → σ)
    (h : Heap) {batches : List Batch} (hnodup : ∀ batch ∈ batches, batch.ids.Nodup) :
    (Hooks.start (front ++ [⟨.drop, priority, true, signals⟩] ++ back) states).skippedAll h
        front.length batches =
      (Hooks.start (front ++ [⟨.drop, priority, true, signals⟩]) states).skippedAll h
        front.length batches := by
  have hcut : (front ++ [(⟨.drop, priority, true, signals⟩ : Hook σ)]).length = front.length + 1 := by
    rw [List.length_append, List.length_singleton]
  exact (beside_start hunseen hcut states h).skippedAll hunseen hcut hnodup

/-! ## Hooks behind the drop hook -/

theorem tsHook_unseen (signals signals' : σ → Nat) :
    Unseen (fun p p' => p.sequence = p'.sequence) [dropHook signals] [tsHook signals'] := by
  refine ⟨⟨fun _ => rfl, Eq.symm, Eq.trans⟩, fun _ _ => rfl, ?_, ?_⟩
  · rw [List.forall_mem_singleton]
    intro p p' hsame
    rw [hsame]
  · rw [List.forall_mem_singleton]
    exact fun _ _ _ => ⟨rfl, Reason.noConfusion⟩

/-- Two calls with one sample each, which is received a second after its origin. -/
def twoCalls (a b : BitVec 64) : List Batch :=
  [[(0, { numbered a with received := ⟨1, 0⟩ })], [(1, { numbered b with received := ⟨1, 0⟩ })]]

/-- By an offset of ten, the sample with number 2 comes after one with number 11. -/
theorem shifted_sample_skipped :
    ¬ ∀ (offset : BitVec 32) (batches : List Batch), (∀ batch ∈ batches, batch.ids.Nodup) →
      (Hooks.start [dropHook fun _ => 0, shiftSeqHook offset fun _ => 0] fun _ => ()).skippedAll
          emptyHeap 0 batches =
        (Hooks.start [dropHook fun _ => 0] fun _ => ()).skippedAll emptyHeap 0 batches := by
  intro hclaim
  have hnodup : ∀ batch ∈ twoCalls 1 2, batch.ids.Nodup := by decide
  exact absurd (hclaim 10 (twoCalls 1 2) hnodup) (by decide)

/-- The third call brings a number again, which is skipped with the other hook and without it. -/
theorem drop_skips_same_ts :
    (Hooks.start [dropHook fun _ => 0, tsHook fun _ => 0] fun _ => ()).skippedAll emptyHeap 0
        (twoCalls 1 2 ++ twoCalls 2 3) =
      (Hooks.start [dropHook fun _ => 0] fun _ => ()).skippedAll emptyHeap 0
        (twoCalls 1 2 ++ twoCalls 2 3) :=
  drop_skips_same [] (tsHook_unseen _ _) _ _ (by decide)

end VillasNode
