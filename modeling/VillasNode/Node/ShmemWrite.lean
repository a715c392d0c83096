import VillasNode.Node.WebsocketBatch

/-!
# Writing to shared memory

`shmem_write` of `lib/nodes/shmem.cpp` with `shmem_int_write`. Samples are copied
into blocks of the shared pool, which go to the shared queue. What the queue
makes of them is any, as the other process uses it.
-/

namespace VillasNode.ShmemWrite

open WebsocketBatch

/-- The shared memory. `ret` is what `queue_push_many` has before it pushes. -/
structure Shared where
  pool : PoolId
  mode : Mode
  push : Pushes
  ret : Int

structure Written where
  heap : Heap
  /-- What the shared queue has got. -/
  queued : List SampleId
  pushed : Int

/-- `shmem_write`. The array `shared_smps` has as many places as the batch. `none` when the pool
gives more blocks than that: `cnt` is an `int` on the way there. -/
def shmemWrite (shm : Shared) (heap : Heap) (smps : List SampleId) : Option Written :=
  let (heap, sharedSmps) := heap.sampleAllocMany shm.pool (MachineInt.toSize smps.length)
  if smps.length < sharedSmps.length then none
  else
    let avail := MachineInt.toInt sharedSmps.length
    let heap := heap.sampleCopyMany (sharedSmps.take avail.toNat) smps
    let (pushed, queued) := queueSignalledPushMany shm.mode shm.push shm.ret sharedSmps
    some ⟨heap, queued, pushed⟩

/-- The blocks are in the queue or back in the pool, and in the pool when the queue was read. `R`
are the references from elsewhere. -/
def Conserves (z : SampleId → Sample) (R : Multiset SampleId) (shm : Shared) (heap : Heap)
    (smps : List SampleId) : Prop :=
  ∃ w, shmemWrite shm heap smps = some w ∧
    Balanced z w.heap ((w.queued : Multiset SampleId) + R) ∧
    Balanced z (w.heap.sampleDecrefMany w.queued) R

/-- The number of blocks for a batch. -/
def allocated (shm : Shared) (heap : Heap) (smps : List SampleId) : Nat :=
  min (MachineInt.toSize smps.length) (heap.free shm.pool).length

section
variable {z : SampleId → Sample} {R : Multiset SampleId} {shm : Shared} {heap : Heap}
  {smps : List SampleId} {push : Pushes} {ret : Int} {mode : Mode}

theorem pushLoop_all_iff (i : Nat) :
    (pushLoop push i ret smps).2 = i + smps.length ↔ ∀ j < smps.length, 0 < push (i + j) := by
  induction smps generalizing i ret with
  | nil => simp [pushLoop]
  | cons smp smps ih =>
    rw [pushLoop, List.length_cons]
    split
    · next hstop =>
      refine iff_of_false (fun heq => by simp only at heq; omega) fun hall => ?_
      have hfirst := hall 0 (Nat.succ_pos _)
      rw [Nat.add_zero] at hfirst
      omega
    · next hpush =>
      have hrest := @ih (push i) (i + 1)
      rw [Nat.add_assoc, Nat.add_comm 1] at hrest
      rw [hrest, Nat.forall_lt_succ_left']
      simp only [Nat.add_assoc, Nat.add_comm 1, Nat.add_zero]
      exact (and_iff_right (Int.not_le.mp hpush)).symm

theorem queueSignalledPushMany_queued :
    (queueSignalledPushMany mode push ret smps).2 = smps.take (pushLoop push 0 ret smps).2 := by
  -- the count that is returned depends on the mode, the samples do not
  have hpushed : (queueSignalledPushMany mode push ret smps).2 = (queuePushMany push ret smps).2 := by
    unfold queueSignalledPushMany
    obtain ⟨pushed, queued⟩ := queuePushMany push ret smps
    dsimp only
    split
    · rfl
    · cases mode with
      | eventfd written => exact (apply_ite Prod.snd _ _ _).trans (ite_self _)
      | _ => rfl
  rw [hpushed]
  rfl

theorem queued_all_iff :
    (queueSignalledPushMany mode push ret smps).2 = smps ↔ ∀ i < smps.length, 0 < push i := by
  have hloop := @pushLoop_all_iff smps push ret 0
  have hle := (pushLoop_count push ret smps 0).2
  simp only [Nat.zero_add] at hloop hle
  rw [queueSignalledPushMany_queued, List.take_eq_self_iff, ← hloop]
  omega

theorem balanced_queued_iff {copies : List SampleId}
    (hb : Balanced z heap ((copies : Multiset SampleId) + R)) :
    (Balanced z heap (((queueSignalledPushMany mode push ret copies).2 : Multiset SampleId) + R) ∧
        Balanced z (heap.sampleDecrefMany (queueSignalledPushMany mode push ret copies).2) R) ↔
      ∀ i < copies.length, 0 < push i := by
  rw [← @queued_all_iff copies push ret mode]
  constructor
  · rintro ⟨hqueued, -⟩
    have heq := hqueued.unique hb
    rw [add_left_inj, Multiset.coe_eq_coe] at heq
    rw [queueSignalledPushMany_queued] at heq ⊢
    have hlen := heq.length_eq
    rw [List.length_take] at hlen
    rw [List.take_eq_self_iff]
    omega
  · intro hall
    rw [hall]
    exact ⟨hb, hb.decrefMany⟩

theorem length_alloc :
    (heap.sampleAllocMany shm.pool (MachineInt.toSize smps.length)).2.length =
      allocated shm heap smps := by
  rw [sampleAllocMany_taken, List.length_take]
  rfl

/-- Whatever the batch, the pool and the queue: no block is lost if and only if the pool gives no
more than there are places for, and every push succeeds. -/
theorem conserves_iff (hb : Balanced z heap R) :
    Conserves z R shm heap smps ↔
      allocated shm heap smps ≤ smps.length ∧ ∀ i < allocated shm heap smps, 0 < shm.push i := by
  obtain ⟨-, hb', -⟩ := sampleAllocMany_spec heap shm.pool (MachineInt.toSize smps.length) hb
  have hlen := @length_alloc shm heap smps
  unfold Conserves shmemWrite
  generalize heap.sampleAllocMany shm.pool (MachineInt.toSize smps.length) = many at hb' hlen
  obtain ⟨heap', copies⟩ := many
  dsimp only at hb' hlen ⊢
  rw [← hlen]
  by_cases hplaces : smps.length < copies.length
  · rw [if_pos hplaces]
    refine iff_of_false ?_ fun h => absurd h.1 (Nat.not_le.mpr hplaces)
    rintro ⟨w, hnone, -⟩
    cases hnone
  · obtain ⟨hcopied, -⟩ := sampleCopyMany_spec
      (copies.take (MachineInt.toInt copies.length).toNat) smps
      (fun s hs => Multiset.mem_add.mpr (.inl (List.mem_of_mem_take hs))) hb'
    have hqueued := @balanced_queued_iff z R _ shm.push shm.ret shm.mode copies hcopied
    rw [if_neg hplaces, and_iff_right (Nat.le_of_not_lt hplaces), ← hqueued]
    constructor
    · rintro ⟨w, hsome, hbalanced⟩
      cases hsome
      exact hbalanced
    · intro hbalanced
      exact ⟨_, rfl, hbalanced⟩

end

/-- A queue with room for so many samples. -/
def exampleShared (room : Nat) : Shared :=
  { pool := 0, mode := .pthread, push := fun i => if i < room then 1 else 0, ret := 0 }

theorem conserves_iff_two :
    Balanced exampleHeap.samples exampleHeap {10} ∧
      Conserves exampleHeap.samples {10} (exampleShared 2) exampleHeap [10, 11] :=
  ⟨exampleHeap_balanced, (conserves_iff exampleHeap_balanced).mpr ⟨by decide, by decide⟩⟩

/-- A full queue takes neither of the two blocks, and they do not go back to the pool. -/
theorem not_conserves_full :
    ¬ ∀ (z : SampleId → Sample) (R : Multiset SampleId) (shm : Shared) (heap : Heap)
      (smps : List SampleId), Balanced z heap R → Conserves z R shm heap smps := by
  intro hclaim
  obtain ⟨w, hwrite, hbalanced, -⟩ :=
    hclaim exampleHeap.samples {10} (exampleShared 0) exampleHeap [10, 11] exampleHeap_balanced
  cases hwrite
  exact absurd ((hbalanced.free_iff 0 1 (by decide)).mpr (by decide)) (by decide)

end VillasNode.ShmemWrite
