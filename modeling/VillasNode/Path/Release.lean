import VillasNode.Node.Loopback
import VillasNode.Node.Write
import VillasNode.Path.Conservation

/-!
# What `path_destination_write` releases

The loop of `path_destination_write`, with the driver and the failing hooks of
`node_write`. A batch is released after it was written, but not if the write
failed.
-/

namespace VillasNode.DestinationWrite

open NodeWrite LoopbackNode

variable {σ : Type*} {δ : Type}

/-- What the loop leaves, the samples that it has pulled and released, and the results of
`node_write`. -/
structure Drained (σ : Type*) (δ : Type) where
  destination : PathDestination σ
  heap : Heap
  driver : δ
  pulled : List SampleId
  released : List SampleId
  sent : List (BitVec 32)

/-- The loop of `path_destination_write`, at most `n` rounds. It gives `none` where a `queue_pull`
does not end, or the loop of a `node_write` not after `fuel` calls of the driver. -/
def drainLoop (d : Driver δ) (fuel : Nat) (pd : PathDestination σ) (h : Heap) (s : δ) :
    Nat → Option (Drained σ δ)
  | 0 => some ⟨pd, h, s, [], [], []⟩
  | n + 1 =>
    let smps := pd.queue.take pd.node.vectorize
    if smps = [] then some ⟨pd, h, s, [], [], []⟩
    else if pd.stuck then none
    else
      let w := NodeWrite.nodeWrite pd.node h smps d s fuel
      let pd := { pd with queue := pd.queue.drop pd.node.vectorize, node := w.node }
      match w.ret with
      | none => none
      | some sent =>
        -- Returns without releasing the samples.
        if sent.toInt < 0 then some ⟨pd, w.heap, w.driver, smps, [], [sent]⟩
        else
          (drainLoop d fuel pd (w.heap.sampleDecrefMany w.smps) w.driver n).map fun r =>
            { r with pulled := smps ++ r.pulled, released := w.smps ++ r.released
                     sent := sent :: r.sent }

/-- `path_destination_write`. Each round but the last takes a sample out of the queue. -/
def pathDestinationWrite (d : Driver δ) (fuel : Nat) (pd : PathDestination σ) (h : Heap) (s : δ) :
    Option (Drained σ δ) :=
  drainLoop d fuel pd h s (pd.queue.length + 1)

/-- The samples that were not pulled are still in the queue, in order. Each sample that was pulled
was released once, and has one reference less, apart from what the output hooks hold on to. -/
structure ReleasesPulled (pd : PathDestination σ) (h : Heap) (r : Drained σ δ) : Prop where
  queue : r.pulled ++ r.destination.queue = pd.queue
  released : r.released.Perm r.pulled
  refs : ∀ s, refcnt r.heap s - hookRefs r.destination.node.hooks s =
    refcnt h s - hookRefs pd.node.hooks s - r.pulled.count s

/-! ## One batch -/

theorem processLoop_perm (hs : HookList σ) (h : Heap) (smps : List SampleId)
    (current processed n : Nat) :
    (hs.processLoop h smps current processed n).2.2.1.Perm smps := by
  induction n generalizing hs h smps current processed with
  | zero => exact .refl _
  | succ n ih =>
    unfold HookList.processLoop
    cases smps[current]? with
    | none => exact .refl _
    | some smp =>
      dsimp only
      rcases hs.processChain h smp 0 hs.retained.length with ⟨hs₁, h₁, reason⟩
      cases reason with
      | error => exact .refl _
      | skipSample => exact ih ..
      | ok | stopProcessing => exact (ih ..).trans (swap_perm ..)

theorem hookListProcess_perm (hs : HookList σ) (h : Heap) (smps : List SampleId) :
    (hs.hookListProcess h smps).2.2.1.Perm smps := by
  unfold HookList.hookListProcess
  split
  · exact .refl _
  · exact processLoop_perm ..

theorem nodeWrite_settles (n : NodeDirection σ) (h : Heap) (smps : List SampleId) (d : Driver δ)
    (s : δ) (fuel : Nat) :
    (NodeWrite.nodeWrite n h smps d s fuel).smps.Perm smps ∧
      Settles n.hooks (NodeWrite.nodeWrite n h smps d s fuel).node.hooks h
        (NodeWrite.nodeWrite n h smps d s fuel).heap := by
  by_cases hrun : n.running
  · have hperm := hookListProcess_perm n.hooks h smps
    have hsettles := hookListProcess_settles n.hooks h smps
    rw [NodeWrite.nodeWrite_running hrun]
    generalize n.hooks.hookListProcess h smps = r at hperm hsettles ⊢
    obtain ⟨hooks, h₁, smps₁, processed⟩ := r
    dsimp only at hperm hsettles ⊢
    split
    · exact ⟨hperm, hsettles⟩
    · exact ⟨hperm, hsettles⟩
  · unfold NodeWrite.nodeWrite
    split
    · exact ⟨.refl _, fun _ => rfl⟩
    split
    · exact ⟨.refl _, fun _ => rfl⟩
    · rename_i hstate
      unfold NodeDirection.running at hrun
      tauto

/-! ## The loop -/

section
variable {d : Driver δ} {fuel n : Nat} {pd : PathDestination σ} {h : Heap} {s : δ}
  {r : Drained σ δ}

theorem drainLoop_cases (hloop : drainLoop d fuel pd h s (n + 1) = some r) :
    (pd.queue.take pd.node.vectorize = [] ∧ r = ⟨pd, h, s, [], [], []⟩) ∨
      (pd.queue.take pd.node.vectorize ≠ [] ∧
        ∃ w sent, w = NodeWrite.nodeWrite pd.node h (pd.queue.take pd.node.vectorize) d s fuel ∧
          w.ret = some sent ∧
          ((sent.toInt < 0 ∧ r = ⟨{ pd with queue := pd.queue.drop pd.node.vectorize, node := w.node },
              w.heap, w.driver, pd.queue.take pd.node.vectorize, [], [sent]⟩) ∨
            (0 ≤ sent.toInt ∧ ∃ r',
              drainLoop d fuel { pd with queue := pd.queue.drop pd.node.vectorize, node := w.node }
                (w.heap.sampleDecrefMany w.smps) w.driver n = some r' ∧
              r = { r' with pulled := pd.queue.take pd.node.vectorize ++ r'.pulled
                            released := w.smps ++ r'.released, sent := sent :: r'.sent }))) := by
  unfold drainLoop at hloop
  dsimp only at hloop
  split at hloop
  · rename_i hempty
    cases hloop
    exact .inl ⟨hempty, rfl⟩
  rename_i hempty
  refine .inr ⟨hempty, NodeWrite.nodeWrite pd.node h (pd.queue.take pd.node.vectorize) d s fuel, ?_⟩
  split at hloop
  · cases hloop
  split at hloop
  · cases hloop
  rename_i sent hret
  refine ⟨sent, rfl, hret, ?_⟩
  split at hloop
  · rename_i hneg
    cases hloop
    exact .inl ⟨hneg, rfl⟩
  · rename_i hpos
    obtain ⟨r', hrest, rfl⟩ := Option.map_eq_some_iff.mp hloop
    exact .inr ⟨by omega, r', hrest, rfl⟩

/-- The samples `lost` were pulled and not released. -/
structure Loses (pd : PathDestination σ) (h : Heap) (r : Drained σ δ) (lost : List SampleId) :
    Prop where
  queue : r.pulled ++ r.destination.queue = pd.queue
  released : (r.released ++ lost).Perm r.pulled
  refs : ∀ s, refcnt r.heap s - hookRefs r.destination.node.hooks s =
    refcnt h s - hookRefs pd.node.hooks s - r.pulled.count s + lost.count s
  none_iff : lost = [] ↔ ∀ sent ∈ r.sent, 0 ≤ sent.toInt

theorem drainLoop_loses (hloop : drainLoop d fuel pd h s n = some r) : ∃ lost, Loses pd h r lost := by
  induction n generalizing pd h s r with
  | zero =>
    cases hloop
    exact ⟨[], rfl, .refl _, by simp, by simp⟩
  | succ n ih =>
    rcases drainLoop_cases hloop with ⟨-, rfl⟩ | ⟨hne, w, sent, hw, hret, hcases⟩
    · exact ⟨[], rfl, .refl _, by simp, by simp⟩
    obtain ⟨hperm, hsettles⟩ := nodeWrite_settles pd.node h (pd.queue.take pd.node.vectorize) d s fuel
    rw [← hw] at hperm hsettles
    rcases hcases with ⟨hneg, rfl⟩ | ⟨hpos, r', hrest, rfl⟩
    · -- The batch is neither in the queue nor released.
      refine ⟨pd.queue.take pd.node.vectorize, List.take_append_drop .., .refl _, ?_, ?_⟩
      · intro smp
        dsimp only
        rw [hsettles smp]
        omega
      · simp [hne, hneg]
    · obtain ⟨lost, hqueue, hreleased, hrefs, hnone⟩ := ih hrest
      refine ⟨lost, ?_, ?_, ?_, ?_⟩
      · dsimp only at hqueue ⊢
        rw [List.append_assoc, hqueue, List.take_append_drop]
      · dsimp only
        rw [List.append_assoc]
        exact hperm.append hreleased
      · intro smp
        have hbatch := hsettles smp
        have hrest := hrefs smp
        rw [refcnt_decrefMany, hperm.count_eq] at hrest
        dsimp only at hrest ⊢
        rw [List.count_append, hrest]
        push_cast
        omega
      · rw [hnone, List.forall_mem_cons, and_iff_right hpos]

/-- For every destination, every content of its queue and whatever the hooks and the driver do, when
`path_destination_write` returns: it has released what it pulled if and only if no `node_write` has
failed. -/
theorem releases_pulled_iff (hwrite : pathDestinationWrite d fuel pd h s = some r) :
    ReleasesPulled pd h r ↔ ∀ sent ∈ r.sent, 0 ≤ sent.toInt := by
  obtain ⟨lost, hqueue, hreleased, hrefs, hnone⟩ := drainLoop_loses hwrite
  rw [← hnone]
  constructor
  · rintro ⟨-, hperm, -⟩
    have hlen := hreleased.length_eq
    rw [List.length_append, hperm.length_eq] at hlen
    exact List.length_eq_zero_iff.mp (by omega)
  · rintro rfl
    refine ⟨hqueue, by simpa using hreleased, fun smp => ?_⟩
    rw [hrefs smp, List.count_nil]
    omega

end

/-! ## A driver that fails -/

def failing : Driver Unit where
  write _ _ _ := (-1, ())
  sent_le _ _ _ := .inl (by decide)

/-- The samples 1 and 2 are in the queue, which has the only reference to each of them. -/
def exampleDestination : PathDestination Unit :=
  { node := { state := .started, typeVectorize := 0, vectorize := 1, hooks := noHooks }
    queueSize := 2, queue := [1, 2] }

theorem releases_pulled_two :
    ∃ r, pathDestinationWrite oneByOne 2 exampleDestination LoopbackNode.exampleHeap () = some r ∧
      r.pulled = [1, 2] ∧ r.sent = [1, 1] ∧
      ReleasesPulled exampleDestination LoopbackNode.exampleHeap r := by
  obtain ⟨r, hwrite⟩ : ∃ r, pathDestinationWrite oneByOne 2 exampleDestination
      LoopbackNode.exampleHeap () = some r := ⟨_, rfl⟩
  have hsent : r.sent = [1, 1] := by
    cases hwrite
    rfl
  refine ⟨r, hwrite, ?_, hsent, (releases_pulled_iff hwrite).mpr ?_⟩
  · cases hwrite
    rfl
  · rw [hsent]
    simp

/-- The sample 1 is not in the queue any more, and its reference is still counted. -/
theorem pulled_not_released :
    ∃ r, pathDestinationWrite failing 1 exampleDestination LoopbackNode.exampleHeap () = some r ∧
      r.pulled = [1] ∧ r.destination.queue = [2] ∧ r.released = [] ∧ refcnt r.heap 1 = 1 ∧
      r.sent = [-1] ∧ ¬ ReleasesPulled exampleDestination LoopbackNode.exampleHeap r := by
  refine ⟨_, rfl, rfl, rfl, rfl, rfl, rfl, fun hreleases => ?_⟩
  have hlen := hreleases.released.length_eq
  revert hlen
  decide

end VillasNode.DestinationWrite
