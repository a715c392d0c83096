import Mathlib.Data.List.Count
import Mathlib.Tactic.Ring
import VillasNode.Node.Loopback
import VillasNode.Path.Isolation

/-!
# Who owns the clones of a batch

`path_destination_enqueue` takes a reference to every clone for every
destination, before it is known which of them the queue took. A clone is owned
by the queues that hold it exactly when all queues keep the whole batch.
-/

namespace VillasNode

open LoopbackNode (refcnt refcnt_increfMany refcnt_decrefMany)

variable {σ : Type*} {z : SampleId → Sample} {h : Heap} {R : Multiset SampleId} {pool : PoolId}
  {smps : List SampleId} {pds : List (PathDestination σ)} {c : SampleId}

/-- In how many queues the sample is. -/
def queuesWith (s : SampleId) (pds : List (PathDestination σ)) : Nat :=
  pds.countP fun pd => s ∈ pd.held

/-- After `path_destination_enqueue` every clone has as many references as there are queues that
contain it, and is back in the pool if there is none. -/
def OwnedByQueues (h : Heap) (pool : PoolId) (pds : List (PathDestination σ))
    (smps : List SampleId) : Prop :=
  ∀ c ∈ (h.sampleCloneMany smps).2,
    refcnt (pathDestinationEnqueue h pds smps).1 c =
      queuesWith c (pathDestinationEnqueue h pds smps).2 ∧
    (queuesWith c (pathDestinationEnqueue h pds smps).2 = 0 →
      c ∈ (pathDestinationEnqueue h pds smps).1.free pool)

/-! ## The clones -/

/-- Clones are different blocks of the pool with one reference each. -/
structure FreshClones (h : Heap) (pool : PoolId) (R : Multiset SampleId) (smps : List SampleId) :
    Prop where
  nodup : (h.sampleCloneMany smps).2.Nodup
  block : ∀ c ∈ (h.sampleCloneMany smps).2, c ∈ (h.pools pool).blocks
  fresh : ∀ c ∈ (h.sampleCloneMany smps).2, c ∉ R
  refcnt : ∀ c ∈ (h.sampleCloneMany smps).2, refcnt (h.sampleCloneMany smps).1 c = 1
  length : (h.sampleCloneMany smps).2.length = clonesOf h pool smps.length

theorem sampleCloneMany_taken (hb : Balanced z h R) (hsmps : ∀ s ∈ smps, s ∈ R)
    (hblock : ∀ s ∈ smps, s ∈ (h.pools pool).blocks) :
    (h.sampleCloneMany smps).2 = (h.free pool).take smps.length := by
  unfold Heap.sampleCloneMany
  cases smps with
  | nil => rw [List.length_nil, List.take_zero]
  | cons s smps =>
    dsimp only
    rw [(hb.held_in (hsmps s List.mem_cons_self) (hblock s List.mem_cons_self)).1]
    exact (sampleAllocMany_spec h pool (s :: smps).length hb).1.taken

theorem freshClones (hb : Balanced z h R) (hsmps : ∀ s ∈ smps, s ∈ R)
    (hblock : ∀ s ∈ smps, s ∈ (h.pools pool).blocks) : FreshClones h pool R smps := by
  have htaken := sampleCloneMany_taken hb hsmps hblock
  obtain ⟨hb₁, -, hfresh, hlen⟩ := sampleCloneMany_spec hb hsmps hblock
  have hnodup : (h.sampleCloneMany smps).2.Nodup := by
    rw [htaken]
    exact (hb.nodup pool).sublist (List.take_sublist _ _)
  refine ⟨hnodup, ?_, hfresh, ?_, hlen⟩
  · intro c hc
    rw [htaken] at hc
    exact hb.area pool c (List.mem_of_mem_take hc)
  · intro c hc
    obtain ⟨q, hq⟩ := hb₁.held c (Multiset.mem_add.mpr (.inl (Multiset.mem_coe.mpr hc)))
    have hcount : (((h.sampleCloneMany smps).2 : Multiset SampleId) + R).count c = 1 := by
      rw [Multiset.count_add, Multiset.coe_count, List.count_eq_one_of_mem hnodup hc,
        Multiset.count_eq_zero_of_notMem (hfresh c hc)]
    rw [hcount] at hq
    exact hq.refcnt

/-! ## The destinations -/

theorem mem_destinationRefs {pd : PathDestination σ} {s : SampleId} (hpd : pd ∈ pds)
    (hs : s ∈ pd.held) : s ∈ destinationRefs pds := by
  induction pds with
  | nil => cases hpd
  | cons pd' pds ih =>
    rw [destinationRefs_cons, Multiset.mem_add]
    rcases List.mem_cons.mp hpd with rfl | hpd
    · left
      unfold PathDestination.refs
      exact Multiset.mem_add.mpr (.inl (Multiset.mem_coe.mpr hs))
    · exact .inr (ih hpd)

theorem enqueueAll_destinations (clones : List SampleId) (h : Heap)
    (pds : List (PathDestination σ)) :
    (enqueueAll clones h pds).2 = pds.map fun pd => pd.push clones := by
  apply List.ext_getElem?
  intro b
  rw [enqueueAll_get, List.getElem?_map]

theorem enqueueAll_refcnt (clones : List SampleId) (h : Heap) (pds : List (PathDestination σ))
    (s : SampleId) :
    refcnt (enqueueAll clones h pds).1 s = refcnt h s + pds.length * clones.count s := by
  induction pds generalizing h with
  | nil => simp [enqueueAll]
  | cons pd pds ih =>
    unfold enqueueAll
    dsimp only
    rw [ih, refcnt_increfMany, List.length_cons]
    push_cast
    ring

theorem clone_refcnt (hf : FreshClones h pool R smps) (pds : List (PathDestination σ))
    (hc : c ∈ (h.sampleCloneMany smps).2) :
    refcnt (pathDestinationEnqueue h pds smps).1 c = pds.length := by
  unfold pathDestinationEnqueue
  dsimp only
  rw [refcnt_decrefMany, enqueueAll_refcnt, hf.refcnt c hc, List.count_eq_one_of_mem hf.nodup hc]
  push_cast
  omega

/-- How many samples of a batch the queue contains afterwards: as many as it has room for, and in a
single place the last one. -/
def PathDestination.keeps (pd : PathDestination σ) : Nat := if pd.queueSize = 1 then 1 else pd.room

theorem all_held_one {clones : List SampleId} (hnodup : clones.Nodup) (queue : List SampleId) :
    (∀ c ∈ clones, c ∈ (queue ++ clones).drop ((queue ++ clones).length - 1)) ↔ clones.length ≤ 1 := by
  rcases List.eq_nil_or_concat clones with rfl | ⟨front, last, rfl⟩
  · simp
  rw [List.concat_eq_append] at hnodup
  rw [List.concat_eq_append, ← List.append_assoc]
  have hlast : ((queue ++ front) ++ [last]).drop (((queue ++ front) ++ [last]).length - 1) = [last] := by
    rw [List.length_append, List.length_singleton, Nat.add_sub_cancel, List.drop_left]
  rw [hlast]
  constructor
  · intro hall
    exact (List.subperm_of_subset hnodup hall).length_le
  · intro hle c hc
    rw [List.length_append, List.length_singleton] at hle
    have hnil : front = [] := List.length_eq_zero_iff.mp (by omega)
    rwa [hnil, List.nil_append] at hc

theorem all_in_queue_iff (hf : FreshClones h pool (destinationRefs pds + R) smps)
    {pd : PathDestination σ} (hpd : pd ∈ pds) :
    (∀ c ∈ (h.sampleCloneMany smps).2, c ∈ (pd.push (h.sampleCloneMany smps).2).held) ↔
      clonesOf h pool smps.length ≤ pd.keeps := by
  have hsize : (pd.push (h.sampleCloneMany smps).2).queueSize = pd.queueSize := rfl
  rw [← hf.length]
  unfold PathDestination.keeps
  by_cases hone : pd.queueSize = 1
  · rw [held_one (hsize.trans hone), push_queue_one hone, if_pos hone]
    exact all_held_one hf.nodup pd.queue
  rw [held_many (hsize.trans_ne hone), push_queue_many hone, if_neg hone]
  have hnot : ∀ c ∈ (h.sampleCloneMany smps).2, c ∉ pd.queue := by
    intro c hc hmem
    rw [← held_many hone] at hmem
    exact hf.fresh c hc (Multiset.mem_add.mpr (.inl (mem_destinationRefs hpd hmem)))
  constructor
  · intro hall
    have hsub : (h.sampleCloneMany smps).2 ⊆ (h.sampleCloneMany smps).2.take pd.room :=
      fun c hc => (List.mem_append.mp (hall c hc)).resolve_left (hnot c hc)
    have hle := (List.subperm_of_subset hf.nodup hsub).length_le
    rw [List.length_take] at hle
    omega
  · intro hle c hc
    rw [List.take_of_length_le hle]
    exact List.mem_append_right _ hc

theorem queuesWith_clone (c : SampleId) :
    queuesWith c (pathDestinationEnqueue h pds smps).2 = pds.length ↔
      ∀ pd ∈ pds, c ∈ (pd.push (h.sampleCloneMany smps).2).held := by
  unfold queuesWith pathDestinationEnqueue
  dsimp only
  rw [enqueueAll_destinations, List.countP_map, List.countP_eq_length]
  simp only [Function.comp_apply, decide_eq_true_eq]

/-- For every batch, every fill level of the pool and any destinations: each clone has the
references of the queues that contain it if and only if all queues keep all clones. -/
theorem owned_by_queues_iff (hb : Balanced z h (destinationRefs pds + R))
    (hsmps : ∀ s ∈ smps, s ∈ R) (hblock : ∀ s ∈ smps, s ∈ (h.pools pool).blocks) :
    OwnedByQueues h pool pds smps ↔ ∀ pd ∈ pds, clonesOf h pool smps.length ≤ pd.keeps := by
  have hf := freshClones hb (fun s hs => Multiset.mem_add.mpr (.inr (hsmps s hs))) hblock
  constructor
  · intro howned pd hpd
    apply (all_in_queue_iff hf hpd).mp
    intro c hc
    obtain ⟨hrefcnt, -⟩ := howned c hc
    rw [clone_refcnt hf pds hc] at hrefcnt
    exact (queuesWith_clone c).mp (Int.ofNat_inj.mp hrefcnt).symm pd hpd
  · intro hkeeps c hc
    have hcount : queuesWith c (pathDestinationEnqueue h pds smps).2 = pds.length :=
      (queuesWith_clone c).mpr fun pd hpd => (all_in_queue_iff hf hpd).mpr (hkeeps pd hpd) c hc
    refine ⟨?_, ?_⟩
    · rw [hcount]
      exact clone_refcnt hf pds hc
    · -- A clone is in no queue only if there is no destination.
      intro hzero
      obtain rfl : pds = [] := List.length_eq_zero_iff.mp (hcount.symm.trans hzero)
      obtain ⟨lost, hb', hpools, -, hlost⟩ := pathDestinationEnqueue_spec [] hsmps hblock hb
      rw [hlost.mpr fun pd hpd => absurd hpd List.not_mem_nil] at hb'
      have hblock' : c ∈ ((pathDestinationEnqueue h ([] : List (PathDestination σ)) smps).1.pools
          pool).blocks := by
        rw [hpools]
        exact hf.block c hc
      apply (hb'.free_iff pool c hblock').mpr
      have hnot := hf.fresh c hc
      simpa [pathDestinationEnqueue, enqueueAll, destinationRefs] using hnot

/-! ## A batch of two -/

/-- The samples 10 to 12 are held, 13 and 14 are free. -/
def threeHeld : Heap := (exampleHeap.sampleAllocMany 1 2).1

theorem threeHeld_balanced (hR : R = {10, 11, 12}) : Balanced exampleHeap.samples threeHeld R := by
  have hb := (sampleAllocMany_spec exampleHeap 1 2 exampleHeap_balanced).2.1
  have hrefs : (([11, 12] : List SampleId) : Multiset SampleId) + {10} = {10, 11, 12} := by decide
  rw [hR, ← hrefs]
  exact hb

def exampleDestination (queueSize : Nat) (queue : List SampleId) : PathDestination Unit :=
  { node := { state := .started, typeVectorize := 0, vectorize := 1, hooks := noHooks }
    queueSize, queue }

theorem owned_by_queues_two :
    OwnedByQueues threeHeld 1 [exampleDestination 2 [], exampleDestination 4 [12]] [10, 11] := by
  apply (owned_by_queues_iff (R := {11, 10}) (threeHeld_balanced (by decide)) (by decide) (by decide)).mpr
  decide

/-- One of the two places of the queue is taken, by the sample 12. The other one takes the clone 13.
The clone 14 has a reference that nobody holds. -/
theorem clone_owned_by_nobody :
    Balanced exampleHeap.samples threeHeld (destinationRefs [exampleDestination 2 [12]] + {11, 10}) ∧
      (threeHeld.sampleCloneMany [10, 11]).2 = [13, 14] ∧
      queuesWith 14 (pathDestinationEnqueue threeHeld [exampleDestination 2 [12]] [10, 11]).2 = 0 ∧
      refcnt (pathDestinationEnqueue threeHeld [exampleDestination 2 [12]] [10, 11]).1 14 = 1 ∧
      (pathDestinationEnqueue threeHeld [exampleDestination 2 [12]] [10, 11]).1.free 1 = [] ∧
      ¬ OwnedByQueues threeHeld 1 [exampleDestination 2 [12]] [10, 11] := by
  refine ⟨threeHeld_balanced (by decide), rfl, by decide, by decide, by decide, ?_⟩
  intro howned
  obtain ⟨hrefcnt, -⟩ := howned 14 (by decide)
  revert hrefcnt
  decide

end VillasNode
