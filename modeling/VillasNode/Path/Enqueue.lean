import VillasNode.Path.Mux

/-!
# The ledger of `path_destination_enqueue`

Every destination is given a reference to every clone, whether its queue takes
the clone or not.
-/

namespace VillasNode

variable {σ : Type*} {z : SampleId → Sample} {h h' : Heap} {R : Multiset SampleId}
  {pool : PoolId} {smps : List SampleId}

/-! ## `sample_clone_many` -/

theorem sampleCopyMany_spec (dsts srcs : List SampleId) (hdsts : ∀ s ∈ dsts, s ∈ R)
    (hb : Balanced z h R) :
    Balanced z (h.sampleCopyMany dsts srcs) R ∧ Touches dsts h (h.sampleCopyMany dsts srcs) := by
  unfold Heap.sampleCopyMany
  induction dsts generalizing h srcs with
  | nil => exact ⟨hb, .refl _ _⟩
  | cons d dsts ih =>
    cases srcs with
    | nil => exact ⟨hb, .refl _ _⟩
    | cons s srcs =>
      have hb₁ : Balanced z (h.sampleCopy d s) R := hb.setPayload (hdsts d List.mem_cons_self) _
      have ht₁ : Touches (d :: dsts) h (h.sampleCopy d s) := .setPayload List.mem_cons_self _
      obtain ⟨hb₂, ht₂⟩ := ih srcs (fun s' hs' => hdsts s' (List.mem_cons_of_mem d hs')) hb₁
      exact ⟨hb₂, ht₁.trans (ht₂.mono fun s' hs' => List.mem_cons_of_mem d hs')⟩

theorem sampleCloneMany_spec (hb : Balanced z h R) (hsmps : ∀ s ∈ smps, s ∈ R)
    (hblock : ∀ s ∈ smps, s ∈ (h.pools pool).blocks) :
    Balanced z (h.sampleCloneMany smps).1
      (((h.sampleCloneMany smps).2 : Multiset SampleId) + R) ∧
      Touches (h.sampleCloneMany smps).2 h (h.sampleCloneMany smps).1 ∧
      (∀ s ∈ (h.sampleCloneMany smps).2, s ∉ R) ∧
      (h.sampleCloneMany smps).2.length = min smps.length (h.free pool).length := by
  unfold Heap.sampleCloneMany
  cases smps with
  | nil => simpa using ⟨hb, Touches.refl [] h⟩
  | cons s smps =>
    dsimp only
    rw [(hb.held_in (hsmps s List.mem_cons_self) (hblock s List.mem_cons_self)).1]
    dsimp only
    obtain ⟨ha, hb₁, hnew⟩ := sampleAllocMany_spec h pool (s :: smps).length hb
    obtain ⟨hb₂, ht₂⟩ := sampleCopyMany_spec _ (s :: smps)
      (fun d hd => Multiset.mem_add.mpr (.inl (Multiset.mem_coe.mpr hd))) hb₁
    refine ⟨hb₂, Touches.trans ⟨ha.pools, fun s' hs' => ?_⟩ ht₂, hnew, ?_⟩
    · unfold Heap.payload
      rw [ha.samples s' hs']
    · rw [ha.taken, List.length_take]

/-! ## The destinations -/

def PathDestination.room (pd : PathDestination σ) : Nat := pd.queueSize - pd.queue.length

theorem push_queue_one {pd : PathDestination σ} (hone : pd.queueSize = 1) (smps : List SampleId) :
    (pd.push smps).queue = pd.queue ++ smps := by
  unfold PathDestination.push PathDestination.takes
  dsimp only
  rw [if_pos hone, List.take_length]

theorem push_queue_many {pd : PathDestination σ} (hmany : pd.queueSize ≠ 1) (smps : List SampleId) :
    (pd.push smps).queue = pd.queue ++ smps.take pd.room := by
  unfold PathDestination.push PathDestination.takes PathDestination.room
  dsimp only
  rw [if_neg hmany]

/-- The samples that the queue contains. Of those in a single place only the last one is left. -/
def PathDestination.held (pd : PathDestination σ) : List SampleId :=
  if pd.queueSize = 1 then pd.queue.drop (pd.queue.length - 1) else pd.queue

theorem held_of_flowing {pd : PathDestination σ} (hflows : ¬ pd.stuck) : pd.held = pd.queue := by
  unfold PathDestination.stuck at hflows
  unfold PathDestination.held
  split
  · have hzero : pd.queue.length - 1 = 0 := by omega
    rw [hzero, List.drop_zero]
  · rfl

theorem stuck_drop {pd : PathDestination σ} {n : Nat} {node : NodeDirection σ} (hflows : ¬ pd.stuck) :
    ¬ PathDestination.stuck { pd with queue := pd.queue.drop n, node } := by
  unfold PathDestination.stuck at hflows ⊢
  dsimp only
  rw [List.length_drop]
  omega

theorem held_one {pd : PathDestination σ} (hone : pd.queueSize = 1) :
    pd.held = pd.queue.drop (pd.queue.length - 1) := if_pos hone

theorem held_many {pd : PathDestination σ} (hmany : pd.queueSize ≠ 1) : pd.held = pd.queue := if_neg hmany

theorem held_of_two_le {pd : PathDestination σ} (hsize : 2 ≤ pd.queueSize) : pd.held = pd.queue :=
  held_many (by omega)

theorem push_held_room {pd : PathDestination σ} {clones : List SampleId} (hroom : clones.length ≤ pd.room) :
    (pd.push clones).held = pd.held ++ clones := by
  have hsize : (pd.push clones).queueSize = pd.queueSize := rfl
  by_cases hone : pd.queueSize = 1
  · rw [held_one (hsize.trans hone), push_queue_one hone, held_one hone]
    unfold PathDestination.room at hroom
    cases clones with
    | nil => rw [List.append_nil, List.append_nil]
    | cons c clones =>
      rw [List.length_cons] at hroom
      have hqueue : pd.queue = [] := List.length_eq_zero_iff.mp (by omega)
      have hclones : clones = [] := List.length_eq_zero_iff.mp (by omega)
      rw [hqueue, hclones]
      rfl
  · rw [held_many (hsize.trans_ne hone), push_queue_many hone, held_many hone, List.take_of_length_le hroom]

theorem mem_held_push {pd : PathDestination σ} {clones : List SampleId} {s : SampleId}
    (hs : s ∈ (pd.push clones).held) : s ∈ pd.held ∨ s ∈ clones := by
  have hsize : (pd.push clones).queueSize = pd.queueSize := rfl
  by_cases hone : pd.queueSize = 1
  · rw [held_one (hsize.trans hone), push_queue_one hone, List.drop_append, List.mem_append, List.length_append] at hs
    rw [held_one hone]
    refine hs.imp (fun hs => ?_) List.mem_of_mem_drop
    exact List.drop_subset_drop_left _ (by omega) hs
  · rw [held_many (hsize.trans_ne hone), push_queue_many hone, List.mem_append] at hs
    rw [held_many hone]
    exact hs.imp_right List.mem_of_mem_take

theorem push_held (pd : PathDestination σ) (clones : List SampleId) :
    ∃ lost : Multiset SampleId,
      (clones : Multiset SampleId) + (pd.held : Multiset SampleId) =
        ((pd.push clones).held : Multiset SampleId) + lost ∧
      (lost = 0 ↔ clones.length ≤ pd.room) := by
  have hsize : (pd.push clones).queueSize = pd.queueSize := rfl
  by_cases hone : pd.queueSize = 1
  · rw [held_one (hsize.trans hone), push_queue_one hone, held_one hone]
    unfold PathDestination.room
    rw [hone]
    rcases List.eq_nil_or_concat clones with rfl | ⟨front, last, rfl⟩
    · exact ⟨0, by simp, by simp⟩
    · -- Only the last clone is left.
      rw [List.concat_eq_append, ← List.append_assoc]
      have hlast : ((pd.queue ++ front) ++ [last]).drop (((pd.queue ++ front) ++ [last]).length - 1) =
          [last] := by
        rw [List.length_append, List.length_singleton, Nat.add_sub_cancel, List.drop_left]
      refine ⟨(front : Multiset SampleId) +
        ((pd.queue.drop (pd.queue.length - 1) : List SampleId) : Multiset SampleId), ?_, ?_⟩
      · rw [hlast, ← Multiset.coe_add]
        abel
      · simp only [add_eq_zero, Multiset.coe_eq_zero, ← List.length_eq_zero_iff, List.length_drop,
          List.length_append, List.length_singleton]
        omega
  · rw [held_many (hsize.trans_ne hone), push_queue_many hone, held_many hone]
    refine ⟨((clones.drop pd.room : List SampleId) : Multiset SampleId), ?_, ?_⟩
    · simpa only [add_zero] using push_refs pd.queue clones pd.room 0
    · rw [Multiset.coe_eq_zero, List.drop_eq_nil_iff]

def PathDestination.refs (pd : PathDestination σ) : Multiset SampleId :=
  (pd.held : Multiset SampleId) + retainedRefs pd.node.hooks.retained

def destinationRefs : List (PathDestination σ) → Multiset SampleId
  | [] => 0
  | pd :: pds => pd.refs + destinationRefs pds

theorem destinationRefs_cons (pd : PathDestination σ) (pds : List (PathDestination σ)) :
    destinationRefs (pd :: pds) = pd.refs + destinationRefs pds := rfl

theorem enqueueAll_spec (clones : List SampleId) (pds : List (PathDestination σ))
    (hclones : ∀ s ∈ clones, s ∈ R) (hb : Balanced z h (destinationRefs pds + R)) :
    ∃ lost : Multiset SampleId,
      Balanced z (enqueueAll clones h pds).1 (destinationRefs (enqueueAll clones h pds).2 + (lost + R)) ∧
      Touches [] h (enqueueAll clones h pds).1 ∧
      (lost = 0 ↔ ∀ pd ∈ pds, clones.length ≤ pd.room) := by
  induction pds generalizing h R with
  | nil => exact ⟨0, by simpa [enqueueAll] using hb, .refl _ _, by simp⟩
  | cons pd pds ih =>
    have hb₁ := hb.increfMany fun s hs => Multiset.mem_add.mpr (.inr (hclones s hs))
    obtain ⟨left, hheld, hleft⟩ := push_held pd clones
    have hpush : (clones : Multiset SampleId) + (destinationRefs (pd :: pds) + R) =
        destinationRefs pds + ((pd.push clones).refs + (left + R)) := by
      rw [destinationRefs_cons]
      unfold PathDestination.refs
      calc _ = ((clones : Multiset SampleId) + (pd.held : Multiset SampleId)) +
            (retainedRefs pd.node.hooks.retained + (destinationRefs pds + R)) := by abel
        _ = _ := by
          rw [hheld]
          show _ = _ + (_ + retainedRefs pd.node.hooks.retained + _)
          abel
    rw [hpush] at hb₁
    obtain ⟨lost, hb₂, ht₂, hlost⟩ := ih
      (fun s hs => Multiset.mem_add.mpr (.inr (Multiset.mem_add.mpr (.inr (hclones s hs))))) hb₁
    refine ⟨left + lost, ?_, ?_, ?_⟩
    · unfold enqueueAll
      dsimp only
      rw [destinationRefs_cons]
      convert hb₂ using 1
      abel
    · exact (Touches.increfMany h clones []).trans ht₂
    · rw [add_eq_zero, hlost, hleft, List.forall_mem_cons]

/-- How many clones `path_destination_enqueue` makes of `cnt` samples. -/
def clonesOf (h : Heap) (pool : PoolId) (cnt : Nat) : Nat := min cnt (h.free pool).length

theorem pathDestinationEnqueue_spec (pds : List (PathDestination σ))
    (hsmps : ∀ s ∈ smps, s ∈ R) (hblock : ∀ s ∈ smps, s ∈ (h.pools pool).blocks)
    (hb : Balanced z h (destinationRefs pds + R)) :
    ∃ lost : Multiset SampleId,
      Balanced z (pathDestinationEnqueue h pds smps).1
        (destinationRefs (pathDestinationEnqueue h pds smps).2 + (lost + R)) ∧
      (pathDestinationEnqueue h pds smps).1.pools = h.pools ∧
      (∀ s ∈ destinationRefs pds + R,
        (pathDestinationEnqueue h pds smps).1.payload s = h.payload s) ∧
      (lost = 0 ↔ ∀ pd ∈ pds, clonesOf h pool smps.length ≤ pd.room) := by
  obtain ⟨hb₁, ht₁, hfresh, hlen⟩ := sampleCloneMany_spec hb
    (fun s hs => Multiset.mem_add.mpr (.inr (hsmps s hs))) hblock
  rw [add_left_comm] at hb₁
  obtain ⟨lost, hb₂, ht₂, hlost⟩ := enqueueAll_spec (h.sampleCloneMany smps).2 pds
    (fun s hs => Multiset.mem_add.mpr (.inl (Multiset.mem_coe.mpr hs))) hb₁
  have hb₃ : Balanced z (enqueueAll (h.sampleCloneMany smps).2 (h.sampleCloneMany smps).1 pds).1
      (((h.sampleCloneMany smps).2 : Multiset SampleId) +
        (destinationRefs (enqueueAll (h.sampleCloneMany smps).2 (h.sampleCloneMany smps).1 pds).2 +
          (lost + R))) := by
    convert hb₂ using 1
    abel
  have ht₃ := Touches.decrefMany
    (enqueueAll (h.sampleCloneMany smps).2 (h.sampleCloneMany smps).1 pds).1
    (h.sampleCloneMany smps).2 (h.sampleCloneMany smps).2
  have ht := (ht₁.trans (ht₂.mono (by simp))).trans ht₃
  refine ⟨lost, hb₃.decrefMany, ht.pools, fun s hs => ht.payload s fun hmem => hfresh s hmem hs, ?_⟩
  rw [hlost, hlen]
  rfl

end VillasNode
