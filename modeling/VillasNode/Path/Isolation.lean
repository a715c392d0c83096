import VillasNode.Hook.Isolation
import VillasNode.Lib.Runs
import VillasNode.Path.Conservation

/-!
# Destinations do not interfere

All destinations of a path share the clones of a batch. What the driver of one
of them is given depends on the batch and on its own output hooks alone, as
long as the output hooks of the others leave the samples unchanged that it
still holds.
-/

namespace VillasNode

variable {σ : Type*} {h h' : Heap} {S : SampleId → Prop}

/-! ## One destination -/

theorem decrefMany_payload (h : Heap) (smps : List SampleId) :
    (h.sampleDecrefMany smps).payload = h.payload :=
  funext fun s => (Touches.decrefMany h smps []).payload s (by simp)

theorem increfMany_payload (h : Heap) (smps : List SampleId) :
    (h.sampleIncrefMany smps).payload = h.payload :=
  funext fun s => (Touches.increfMany h smps []).payload s (by simp)

theorem writeLoop_agree {smps : List SampleId} (vect nsent : Nat) (rs : List DriverWrite)
    (hagree : ∀ s ∈ smps, h.payload s = h'.payload s) :
    writeLoop vect smps h' nsent rs = writeLoop vect smps h nsent rs := by
  induction rs generalizing nsent with
  | nil => rfl
  | cons r rs ih =>
    have hgiven : ((smps.drop nsent).take (min (smps.length - nsent) vect)).map h'.payload =
        ((smps.drop nsent).take (min (smps.length - nsent) vect)).map h.payload := by
      apply List.map_congr_left
      intro s hs
      exact (hagree s (List.mem_of_mem_drop (List.mem_of_mem_take hs))).symm
    unfold writeLoop
    dsimp only
    rw [hgiven]
    split
    · cases r with
      | fail code => rfl
      | sent n =>
        dsimp only
        rw [ih]
    · rfl

theorem nodeWrite_agree {n : NodeDirection σ} {smps : List SampleId} {rs : List DriverWrite}
    {w : Written σ} (hagree : AgreeOn S h h') (hwithin : n.hooks.Within S) (hsmps : ∀ s ∈ smps, S s)
    (hw : nodeWrite n h smps rs = some w) :
    ∃ h₁', nodeWrite n h' smps rs = some { w with heap := h₁' } ∧ AgreeOn S w.heap h₁' ∧
      w.node.hooks.Within S := by
  unfold nodeWrite at hw ⊢
  split at hw
  · rename_i hpaused
    rw [if_pos hpaused]
    cases hw
    exact ⟨h', rfl, hagree, hwithin⟩
  rename_i hpaused
  rw [if_neg hpaused]
  split at hw
  · rename_i hstopped
    rw [if_pos hstopped]
    cases hw
    exact ⟨h', rfl, hagree, hwithin⟩
  rename_i hstopped
  rw [if_neg hstopped]
  obtain ⟨h₁', heq, hagree₁, hwithin₁, hsmps₁⟩ := hookListProcess_agree hagree hwithin hsmps
  rw [heq]
  generalize n.hooks.hookListProcess h smps = r at *
  obtain ⟨hooks, h₁, smps₁, cnt⟩ := r
  dsimp only at *
  cases cnt with
  | none => simp at hw
  | some cnt =>
    dsimp only at hw ⊢
    split at hw
    · rename_i hzero
      rw [if_pos hzero]
      cases hw
      exact ⟨h₁', rfl, hagree₁, hwithin₁⟩
    · rename_i hzero
      rw [if_neg hzero, writeLoop_agree (h := h₁)]
      · obtain ⟨r, hr, rfl⟩ := Option.map_eq_some_iff.mp hw
        rw [hr]
        exact ⟨h₁', rfl, hagree₁, hwithin₁⟩
      · intro s hs
        exact hagree₁ s (hsmps₁ s (List.mem_of_mem_take hs))

def PathDestination.holds (pd : PathDestination σ) (s : SampleId) : Prop :=
  s ∈ pd.queue ∨ some s ∈ pd.node.hooks.retained

theorem destinationLoop_agree {pd pd' : PathDestination σ} {h₁ : Heap} {rs : List DriverWrite}
    {given : List (List Payload)} (n : Nat) (hagree : AgreeOn S h h') (hholds : ∀ s, pd.holds s → S s)
    (hw : destinationLoop pd h rs n = some (pd', h₁, given)) :
    ∃ h₁', destinationLoop pd h' rs n = some (pd', h₁', given) ∧ AgreeOn S h₁ h₁' ∧
      ∀ s, pd'.holds s → S s := by
  induction n generalizing pd h h' rs given with
  | zero =>
    cases hw
    exact ⟨h', rfl, hagree, hholds⟩
  | succ n ih =>
    unfold destinationLoop at hw ⊢
    dsimp only at hw ⊢
    split at hw
    · rename_i hempty
      rw [if_pos hempty]
      cases hw
      exact ⟨h', rfl, hagree, hholds⟩
    rename_i hempty
    rw [if_neg hempty]
    split at hw
    · simp at hw
    rename_i hflows
    rw [if_neg hflows]
    split at hw
    · simp at hw
    rename_i w hnode
    obtain ⟨h₂', hnode', hagree₂, hwithin₂⟩ := nodeWrite_agree hagree
      (fun s hs => hholds s (.inr hs)) (fun s hs => hholds s (.inl (List.mem_of_mem_take hs))) hnode
    rw [hnode']
    dsimp only
    have hholds₂ : ∀ s, PathDestination.holds { pd with queue := pd.queue.drop pd.node.vectorize
                                                        node := w.node } s → S s := by
      rintro s (hs | hs)
      · exact hholds s (.inl (List.mem_of_mem_drop hs))
      · exact hwithin₂ s hs
    cases hsent : w.sent with
    | none =>
      rw [hsent] at hw
      cases hw
      exact ⟨h₂', rfl, hagree₂, hholds₂⟩
    | some sent =>
      rw [hsent] at hw
      obtain ⟨⟨pd₃, h₃, given₃⟩, hrest, heq⟩ := Option.map_eq_some_iff.mp hw
      cases heq
      have hagree₃ : AgreeOn S (w.heap.sampleDecrefMany w.smps) (h₂'.sampleDecrefMany w.smps) := by
        unfold AgreeOn
        rw [decrefMany_payload, decrefMany_payload]
        exact hagree₂
      obtain ⟨h₃', hrest', hagree₄, hholds₄⟩ := ih hagree₃ hholds₂ hrest
      dsimp only
      rw [hrest']
      exact ⟨h₃', rfl, hagree₄, hholds₄⟩

theorem nodeWrite_fixed {n : NodeDirection σ} {s : SampleId} {smps : List SampleId}
    {rs : List DriverWrite} {w : Written σ}
    (hfix : n.running → s ∈ smps → n.hooks.Fixes (h.payload s))
    (hw : nodeWrite n h smps rs = some w) :
    w.heap.payload s = h.payload s ∧ SameHooks n.hooks w.node.hooks ∧ w.node.state = n.state := by
  obtain ⟨-, hnode, hheap, -⟩ | ⟨hrunning, hooks, cnt, hp, hnode⟩ := nodeWrite_cases hw
  · rw [hnode, hheap]
    exact ⟨rfl, .refl _, rfl⟩
  · have hfixed := hookListProcess_fixed smps (hfix hrunning)
    rw [hp] at hfixed
    rw [hnode]
    exact ⟨hfixed.1, hfixed.2, rfl⟩

theorem destinationLoop_fixed {pd pd' : PathDestination σ} {h₁ : Heap} {s : SampleId}
    {rs : List DriverWrite} {given : List (List Payload)} (n : Nat)
    (hfix : pd.node.running → s ∈ pd.queue → pd.node.hooks.Fixes (h.payload s))
    (hw : destinationLoop pd h rs n = some (pd', h₁, given)) : h₁.payload s = h.payload s := by
  induction n generalizing pd h rs given with
  | zero =>
    cases hw
    rfl
  | succ n ih =>
    obtain ⟨-, -, rfl, -⟩ | ⟨-, -, w, hnode, hround⟩ := destinationLoop_cases hw
    · rfl
    obtain ⟨hpayload, hsame, hstate⟩ := nodeWrite_fixed
      (fun hrun hs => hfix hrun (List.mem_of_mem_take hs)) hnode
    obtain ⟨-, rfl, -, -⟩ | ⟨-, rest, -, hrest⟩ := hround
    · exact hpayload
    · have hheap : (w.heap.sampleDecrefMany w.smps).payload s = h.payload s := by
        rw [decrefMany_payload, hpayload]
      rw [← hheap]
      refine ih (fun hrun hs => ?_) hrest
      rw [hheap]
      refine hsame.fixes (hfix ?_ (List.mem_of_mem_drop hs))
      unfold NodeDirection.running at hrun ⊢
      rw [← hstate]
      exact hrun

/-! ## All destinations of a path -/

/-- The destinations of a path after `path_destination_enqueue`, and what their drivers have been
given since. -/
structure Fanout (σ : Type*) where
  heap : Heap
  destinations : List (PathDestination σ)
  given : Nat → List (List Payload)

def Fanout.start (h : Heap) (pds : List (PathDestination σ)) (smps : List SampleId) : Fanout σ :=
  { heap := (pathDestinationEnqueue h pds smps).1
    destinations := (pathDestinationEnqueue h pds smps).2
    given := fun _ => [] }

def writeStep (s : Fanout σ) (a : Nat × List DriverWrite) : Option (Fanout σ) :=
  match s.destinations[a.1]? with
  | none => none
  | some pd =>
    (pathDestinationWrite pd s.heap a.2).map fun (pd, heap, given) =>
      { heap, destinations := s.destinations.set a.1 pd
        given := Function.update s.given a.1 (s.given a.1 ++ given) }

/-- The running hooks of destination `a` do not change the samples in its queue that destination `b`
still holds. -/
def Fanout.Spares (s : Fanout σ) (a b : Nat) : Prop :=
  ∀ pda pdb, s.destinations[a]? = some pda → s.destinations[b]? = some pdb → pda.node.running →
    ∀ smp ∈ pda.queue, pdb.holds smp → pda.node.hooks.Fixes (s.heap.payload smp)

/-- Destination `b` is the same, holds the same contents and has been given the same. -/
structure SameFor (b : Nat) (s t : Fanout σ) : Prop where
  destination : s.destinations[b]? = t.destinations[b]?
  contents : ∀ pd, s.destinations[b]? = some pd → AgreeOn pd.holds s.heap t.heap
  given : s.given b = t.given b

variable {s s' t : Fanout σ} {b : Nat} {a : Nat × List DriverWrite}

theorem writeStep_cases (hstep : writeStep s a = some s') :
    ∃ pd pd' given, s.destinations[a.1]? = some pd ∧
      pathDestinationWrite pd s.heap a.2 = some (pd', s'.heap, given) ∧
      s'.destinations = s.destinations.set a.1 pd' ∧
      s'.given = Function.update s.given a.1 (s.given a.1 ++ given) := by
  unfold writeStep at hstep
  split at hstep
  · simp at hstep
  rename_i pd hget
  obtain ⟨⟨pd', heap, given⟩, hw, rfl⟩ := Option.map_eq_some_iff.mp hstep
  exact ⟨pd, pd', given, hget, hw, rfl, rfl⟩

theorem writeStep_mine (hsame : SameFor a.1 s t) (hstep : writeStep s a = some s') :
    ∃ t', writeStep t a = some t' ∧ SameFor a.1 s' t' := by
  obtain ⟨pd, pd', given, hget, hw, hdest, hgiven⟩ := writeStep_cases hstep
  obtain ⟨h', hw', hagree, hholds⟩ := destinationLoop_agree _ (hsame.contents pd hget)
    (fun _ hs => hs) hw
  have hget' : t.destinations[a.1]? = some pd := hsame.destination ▸ hget
  have hset : s'.destinations[a.1]? = some pd' := by
    rw [hdest]
    exact List.getElem?_set_self (List.getElem?_eq_some_iff.mp hget).1
  have hset' : (t.destinations.set a.1 pd')[a.1]? = some pd' :=
    List.getElem?_set_self (List.getElem?_eq_some_iff.mp hget').1
  refine ⟨{ heap := h', destinations := t.destinations.set a.1 pd'
            given := Function.update t.given a.1 (t.given a.1 ++ given) }, ?_, ?_, ?_, ?_⟩
  · unfold writeStep
    rw [hget']
    unfold pathDestinationWrite
    dsimp only
    rw [hw']
    rfl
  · rw [hset]
    exact hset'.symm
  · intro pd₁ hpd₁
    cases hset.symm.trans hpd₁
    exact fun smp hs => hagree smp (hholds smp hs)
  · dsimp only
    rw [hgiven, Function.update_self, Function.update_self, hsame.given]

theorem writeStep_other (hsame : SameFor b s t) (hne : a.1 ≠ b) (hspare : s.Spares a.1 b)
    (hstep : writeStep s a = some s') : SameFor b s' t := by
  obtain ⟨pda, pda', given, hget, hw, hdest, hgiven⟩ := writeStep_cases hstep
  have hb : s'.destinations[b]? = s.destinations[b]? := by
    rw [hdest]
    exact List.getElem?_set_ne hne
  refine ⟨hb.trans hsame.destination, ?_, ?_⟩
  · intro pdb hpdb smp hholds
    rw [hb] at hpdb
    rw [← hsame.contents pdb hpdb smp hholds]
    exact destinationLoop_fixed _
      (fun hrun hmem => hspare pda pdb hget hpdb hrun smp hmem hholds) hw
  · rw [hgiven, Function.update_of_ne (Ne.symm hne)]
    exact hsame.given

theorem enqueueAll_payload (clones : List SampleId) (h : Heap) (pds : List (PathDestination σ)) :
    (enqueueAll clones h pds).1.payload = h.payload := by
  induction pds generalizing h with
  | nil => rfl
  | cons pd pds ih =>
    unfold enqueueAll
    dsimp only
    rw [ih, increfMany_payload]

theorem enqueueAll_get (clones : List SampleId) (h : Heap) (pds : List (PathDestination σ)) (b : Nat) :
    (enqueueAll clones h pds).2[b]? = pds[b]?.map fun pd => pd.push clones := by
  induction pds generalizing h b with
  | nil => rfl
  | cons pd pds ih =>
    unfold enqueueAll
    dsimp only
    cases b with
    | zero => rfl
    | succ b => exact ih _ b

theorem start_same (h : Heap) {pds pds' : List (PathDestination σ)} (smps : List SampleId)
    (hb : pds[b]? = pds'[b]?) : SameFor b (.start h pds smps) (.start h pds' smps) := by
  have hpayload : ∀ pds : List (PathDestination σ),
      (pathDestinationEnqueue h pds smps).1.payload = (h.sampleCloneMany smps).1.payload := by
    intro pds
    unfold pathDestinationEnqueue
    dsimp only
    rw [decrefMany_payload, enqueueAll_payload]
  refine ⟨?_, ?_, rfl⟩
  · unfold Fanout.start pathDestinationEnqueue
    dsimp only
    rw [enqueueAll_get, enqueueAll_get, hb]
  · intro pd _ smp _
    unfold Fanout.start
    dsimp only
    rw [hpayload, hpayload]

theorem drained_alone {drains : List (Nat × List DriverWrite)} (hst : SameFor b s t)
    (hspare : Runs.Along writeStep (fun s a => a.1 ≠ b → s.Spares a.1 b) s drains)
    (hrun : Runs.run writeStep s drains = some s') :
    ∃ t', Runs.run writeStep t (drains.filter fun a => a.1 = b) = some t' ∧ SameFor b s' t' := by
  refine Runs.purge (fun a => decide (a.1 = b)) ?_ ?_ hst hspare hrun
  · intro s t a s' hst hab hstep
    obtain rfl : a.1 = b := of_decide_eq_true hab
    exact writeStep_mine hst hstep
  · intro s t a s' hst hab hG hstep
    have hne : a.1 ≠ b := fun heq => hab (decide_eq_true heq)
    exact writeStep_other hst hne (hG hne) hstep

/-- For every batch and any two lists of destinations that have destination `b` in common, drained
in any two orders: the driver of `b` is given the same contents, if all others leave what `b` still
holds. -/
theorem destinations_do_not_interfere (h : Heap) (smps : List SampleId)
    {pds pds' : List (PathDestination σ)} {b : Nat} {drains drains' : List (Nat × List DriverWrite)}
    {s s' : Fanout σ} (hb : pds[b]? = pds'[b]?)
    (hsame : (drains.filter fun a => a.1 = b) = drains'.filter fun a => a.1 = b)
    (hspare : Runs.Along writeStep (fun s a => a.1 ≠ b → s.Spares a.1 b) (.start h pds smps) drains)
    (hspare' : Runs.Along writeStep (fun s a => a.1 ≠ b → s.Spares a.1 b) (.start h pds' smps) drains')
    (hrun : Runs.run writeStep (.start h pds smps) drains = some s)
    (hrun' : Runs.run writeStep (.start h pds' smps) drains' = some s') : s.given b = s'.given b := by
  obtain ⟨t, ht, hst⟩ := drained_alone (start_same h smps hb) hspare hrun
  obtain ⟨t', ht', hst'⟩ := drained_alone (start_same h smps rfl) hspare' hrun'
  rw [hsame] at ht
  cases ht.symm.trans ht'
  exact hst.given.trans hst'.given.symm

/-! ## A hook that changes samples -/

def addingHooks (n : BitVec 64) : HookList Unit :=
  { state := (), retained := [none], signals := fun _ _ => 0
    process := fun _ _ _ s => ⟨(), { s with sequence := s.sequence + n }, .ok, fun _ => .keep⟩ }

/-- Destination 0 has an output hook, destination 1 has none. -/
def sharedDestinations (n : BitVec 64) : List (PathDestination Unit) :=
  [{ node := { state := .started, typeVectorize := 0, vectorize := 1, hooks := addingHooks n }
     queueSize := 2, queue := [] },
    { node := { state := .started, typeVectorize := 0, vectorize := 1, hooks := noHooks }
      queueSize := 2, queue := [] }]

def drainFirst : List (Nat × List DriverWrite) := [(0, [.sent 1]), (1, [.sent 1])]

def drainLast : List (Nat × List DriverWrite) := [(1, [.sent 1]), (0, [.sent 1])]

/-- The batch is the last sample of the path. What destination 1 is given depends on the order. -/
theorem destination_sees_other_hooks :
    ∃ s s', Runs.run writeStep (.start exampleHeap (sharedDestinations 1) [10]) drainFirst = some s ∧
      Runs.run writeStep (.start exampleHeap (sharedDestinations 1) [10]) drainLast = some s' ∧
      (drainFirst.filter fun a => a.1 = 1) = (drainLast.filter fun a => a.1 = 1) ∧
      s.given 1 ≠ s'.given 1 := by
  refine ⟨_, _, rfl, rfl, rfl, fun heq => ?_⟩
  have hseq := congrArg (List.map (List.map Payload.sequence)) heq
  exact absurd hseq (by decide)

/-- The hook adds 0 and is drained first, or it adds 1 and is drained last. -/
theorem destinations_do_not_interfere_drained :
    ∃ s s', Runs.run writeStep (.start exampleHeap (sharedDestinations 0) [10]) drainFirst = some s ∧
      Runs.run writeStep (.start exampleHeap (sharedDestinations 1) [10]) drainLast = some s' ∧
      (s.given 1).length = 1 ∧ s.given 1 = s'.given 1 := by
  obtain ⟨s, hrun⟩ : ∃ s, Runs.run writeStep (.start exampleHeap (sharedDestinations 0) [10])
    drainFirst = some s := ⟨_, rfl⟩
  obtain ⟨s', hrun'⟩ : ∃ s', Runs.run writeStep (.start exampleHeap (sharedDestinations 1) [10])
    drainLast = some s' := ⟨_, rfl⟩
  have hspare : Runs.Along writeStep (fun s a => a.1 ≠ 1 → s.Spares a.1 1)
      (.start exampleHeap (sharedDestinations 0) [10]) drainFirst := by
    refine ⟨fun _ pda pdb hpda _ _ smp hsmp _ => ?_,
      fun _ _ => ⟨fun hne => absurd rfl hne, fun _ _ => trivial⟩⟩
    cases hpda
    have hmem : smp ∈ [11] := hsmp
    rw [List.mem_singleton] at hmem
    subst hmem
    intro i _ state prevs
    rfl
  have hspare' : Runs.Along writeStep (fun s a => a.1 ≠ 1 → s.Spares a.1 1)
      (.start exampleHeap (sharedDestinations 1) [10]) drainLast := by
    refine ⟨fun hne => absurd rfl hne,
      fun s₁ h₁ => ⟨fun _ pda pdb _ hpdb _ smp _ hholds => ?_, fun _ _ => trivial⟩⟩
    cases h₁
    cases hpdb
    rcases hholds with hmem | hmem
    · cases hmem
    · cases hmem
  have hb : (sharedDestinations 0)[1]? = (sharedDestinations 1)[1]? := rfl
  have hsame : (drainFirst.filter fun a => a.1 = 1) = drainLast.filter fun a => a.1 = 1 := rfl
  refine ⟨s, s', hrun, hrun', ?_,
    destinations_do_not_interfere exampleHeap [10] hb hsame hspare hspare' hrun hrun'⟩
  cases hrun
  rfl

end VillasNode
