import Mathlib.Algebra.Order.Group.Multiset
import Mathlib.Data.List.Perm.Subperm
import VillasNode.Sample.Model

/-!
# Who holds a sample

The references to samples are counted in a ledger, a multiset. A heap is
balanced against a ledger when every block of a pool is either free or held,
and its reference count is how often the ledger has it. Each operation of
`lib/sample.cpp` moves the ledger by the references it takes and gives back.
-/

namespace VillasNode

/-! ## What each operation leaves alone -/

namespace Heap

variable (h : Heap) (p q : PoolId) (s s' : SampleId)

theorem setPayload_samples (x : Payload) : (h.setPayload s x).samples s' =
    { h.samples s' with payload := if s' = s then x else (h.samples s').payload } := by
  unfold setPayload setSample
  dsimp only
  rw [Function.update_apply]
  split
  · rw [‹s' = s›]
  · rfl

theorem setRefcnt_samples (n : Int) : (h.setRefcnt s n).samples s' =
    { h.samples s' with refcnt := if s' = s then n else (h.samples s').refcnt } := by
  unfold setRefcnt setSample
  dsimp only
  rw [Function.update_apply]
  split
  · rw [‹s' = s›]
  · rfl

theorem setFree_free (l : List SampleId) :
    (h.setFree p l).free q = if q = p then l else h.free q :=
  Function.update_apply ..

@[simp]
theorem setPayload_pools (x : Payload) : (h.setPayload s x).pools = h.pools := rfl

@[simp]
theorem setPayload_free (x : Payload) : (h.setPayload s x).free = h.free := rfl

@[simp]
theorem incref_pools : (h.sampleIncref s).pools = h.pools := rfl

@[simp]
theorem incref_free : (h.sampleIncref s).free = h.free := rfl

theorem setPayload_payload (x : Payload) :
    (h.setPayload s x).payload s' = if s' = s then x else h.payload s' := by
  unfold payload
  rw [setPayload_samples]

@[simp]
theorem incref_payload : (h.sampleIncref s).payload = h.payload := by
  funext s'
  unfold sampleIncref payload
  rw [setRefcnt_samples]

theorem poolPut_samples : (h.poolPut p s).samples = h.samples := by
  unfold poolPut
  split <;> rfl

theorem poolPut_pools : (h.poolPut p s).pools = h.pools := by
  unfold poolPut
  split <;> rfl

theorem sampleFree_samples : (h.sampleFree s).samples = h.samples := by
  unfold sampleFree
  split
  · exact h.poolPut_samples _ s
  · rfl

theorem decref_samples :
    (h.sampleDecref s).samples = (h.setRefcnt s ((h.samples s).refcnt - 1)).samples := by
  unfold sampleDecref
  dsimp only
  split
  · rw [sampleFree_samples]
  · rfl

@[simp]
theorem decref_pools : (h.sampleDecref s).pools = h.pools := by
  unfold sampleDecref sampleFree
  dsimp only
  split
  · split
    · exact poolPut_pools _ _ s
    · rfl
  · rfl

@[simp]
theorem decref_payload : (h.sampleDecref s).payload = h.payload := by
  funext s'
  unfold payload
  rw [decref_samples, setRefcnt_samples]

end Heap

/-! ## The ledger -/

variable {z : SampleId → Sample} {h h' : Heap} {R R' : Multiset SampleId} {p : PoolId} {s : SampleId}

structure Held (sample : Sample) (pools : PoolId → Pool) (count : Nat) (s : SampleId)
    (p : PoolId) : Prop where
  block : s ∈ (pools p).blocks
  pool : sample.pool = some p
  capacity : sample.capacity = (pools p).capacity
  refcnt : sample.refcnt = count

/-- `R` has all references to blocks. A free block has the reference count 0, unless it is still as
it was in `z`. -/
structure Balanced (z : SampleId → Sample) (h : Heap) (R : Multiset SampleId) : Prop where
  apart : ∀ p q s, s ∈ (h.pools p).blocks → s ∈ (h.pools q).blocks → p = q
  queue : ∀ p, (h.pools p).blocks.length ≤ (h.pools p).queueSize
  nodup : ∀ p, (h.free p).Nodup
  area : ∀ p, ∀ s ∈ h.free p, s ∈ (h.pools p).blocks
  free_iff : ∀ p, ∀ s ∈ (h.pools p).blocks, s ∈ h.free p ↔ s ∉ R
  idle : ∀ p, ∀ s ∈ h.free p, (h.samples s).refcnt = 0 ∨ h.samples s = z s
  held : ∀ s ∈ R, ∃ p, Held (h.samples s) h.pools (R.count s) s p

theorem Balanced.not_free (hb : Balanced z h R) (hs : s ∈ R) : s ∉ h.free p := by
  intro hfree
  exact (hb.free_iff p s (hb.area p s hfree)).mp hfree hs

theorem Balanced.ne_of_free {s' : SampleId} (hb : Balanced z h R) (hs : s ∈ R) (hfree : s' ∈ h.free p) :
    s' ≠ s := by
  rintro rfl
  exact hb.not_free hs hfree

theorem Balanced.unique (hb : Balanced z h R) (hb' : Balanced z h R') : R = R' := by
  have hsub : ∀ R₁ R₂, Balanced z h R₁ → Balanced z h R₂ → ∀ s ∈ R₁, R₁.count s = R₂.count s := by
    intro R₁ R₂ h₁ h₂ s hs
    obtain ⟨p, hp⟩ := h₁.held s hs
    have hs₂ : s ∈ R₂ := by
      by_contra hnot
      exact h₁.not_free hs ((h₂.free_iff p s hp.block).mpr hnot)
    obtain ⟨q, hq⟩ := h₂.held s hs₂
    exact_mod_cast hp.refcnt.symm.trans hq.refcnt
  ext s
  by_cases hs : s ∈ R
  · exact hsub R R' hb hb' s hs
  · by_cases hs' : s ∈ R'
    · exact (hsub R' R hb' hb s hs').symm
    · rw [Multiset.count_eq_zero_of_notMem hs, Multiset.count_eq_zero_of_notMem hs']

/-! ## The operations -/

theorem Balanced.setPayload (hb : Balanced z h R) (hs : s ∈ R) (x : Payload) :
    Balanced z (h.setPayload s x) R := by
  refine ⟨hb.apart, hb.queue, hb.nodup, hb.area, hb.free_iff, ?_, ?_⟩
  · intro p s' hs'
    rw [Heap.setPayload_samples, if_neg (hb.ne_of_free hs hs')]
    exact hb.idle p s' hs'
  · intro s' hs'
    obtain ⟨p, hp⟩ := hb.held s' hs'
    refine ⟨p, hp.block, ?_, ?_, ?_⟩ <;> rw [Heap.setPayload_samples]
    · exact hp.pool
    · exact hp.capacity
    · exact hp.refcnt

theorem Held.setRefcnt {n m : Nat} {s' : SampleId} (hp : Held (h.samples s') h.pools n s' p)
    (k : Int) (hm : (if s' = s then k else n) = (m : Int)) :
    Held ((h.setRefcnt s k).samples s') h.pools m s' p := by
  refine ⟨hp.block, ?_, ?_, ?_⟩ <;> rw [Heap.setRefcnt_samples]
  · exact hp.pool
  · exact hp.capacity
  · dsimp only
    rw [← hm, hp.refcnt]

theorem Balanced.idle_setRefcnt (hb : Balanced z h R) (hs : s ∈ R) (k : Int) :
    ∀ p, ∀ s' ∈ h.free p, ((h.setRefcnt s k).samples s').refcnt = 0 ∨
      (h.setRefcnt s k).samples s' = z s' := by
  intro p s' hs'
  rw [Heap.setRefcnt_samples, if_neg (hb.ne_of_free hs hs')]
  exact hb.idle p s' hs'

theorem Balanced.incref (hb : Balanced z h R) (hs : s ∈ R) :
    Balanced z (h.sampleIncref s) (s ::ₘ R) := by
  have hmem : ∀ s', s' ∈ s ::ₘ R ↔ s' ∈ R := by
    intro s'
    rw [Multiset.mem_cons]
    constructor
    · rintro (rfl | h)
      · exact hs
      · exact h
    · exact .inr
  refine ⟨hb.apart, hb.queue, hb.nodup, hb.area, ?_, hb.idle_setRefcnt hs _, ?_⟩
  · intro p s' hs'
    rw [hmem]
    exact hb.free_iff p s' hs'
  · intro s' hs'
    obtain ⟨p, hp⟩ := hb.held s' ((hmem s').mp hs')
    refine ⟨p, hp.setRefcnt _ ?_⟩
    rw [Multiset.count_cons]
    split
    · rw [← ‹s' = s›, hp.refcnt]
      push_cast
      rfl
    · simp

theorem Balanced.mem_cons_held (hb : Balanced z h (s ::ₘ R)) :
    ∃ p, Held (h.samples s) h.pools (R.count s + 1) s p := by
  obtain ⟨p, hp⟩ := hb.held s (Multiset.mem_cons_self s R)
  rw [Multiset.count_cons_self] at hp
  exact ⟨p, hp⟩

theorem Balanced.room (hb : Balanced z h R) (hs : s ∈ (h.pools p).blocks) (hfree : s ∉ h.free p) :
    (h.free p).length < (h.pools p).queueSize := by
  have hsub : (s :: h.free p).Subperm (h.pools p).blocks := by
    apply List.subperm_of_subset (List.nodup_cons.mpr ⟨hfree, hb.nodup p⟩)
    intro x hx
    rcases List.mem_cons.mp hx with rfl | hx
    · exact hs
    · exact hb.area p x hx
  have hlen := hsub.length_le
  rw [List.length_cons] at hlen
  have := hb.queue p
  omega

theorem Balanced.decref (hb : Balanced z h (s ::ₘ R)) : Balanced z (h.sampleDecref s) R := by
  obtain ⟨p, hp⟩ := hb.mem_cons_held
  have hprev := hp.refcnt
  have hother : ∀ s' ≠ s, (s' ∈ s ::ₘ R ↔ s' ∈ R) := by
    intro s' hne
    rw [Multiset.mem_cons, or_iff_right hne]
  have hheld : ∀ s' ∈ R, ∃ q, Held ((h.setRefcnt s ((h.samples s).refcnt - 1)).samples s') h.pools
      (R.count s') s' q := by
    intro s' hs'
    obtain ⟨q, hq⟩ := hb.held s' (Multiset.mem_cons_of_mem hs')
    refine ⟨q, hq.setRefcnt _ ?_⟩
    rw [Multiset.count_cons]
    split
    · rw [‹s' = s›, hprev]
      omega
    · rfl
  have hidle := hb.idle_setRefcnt (Multiset.mem_cons_self s R) ((h.samples s).refcnt - 1)
  have hnot : s ∉ h.free p := hb.not_free (Multiset.mem_cons_self s R)
  unfold Heap.sampleDecref
  dsimp only
  split
  · -- The last reference: the block goes back to its pool, which has room for it.
    have hzero : s ∉ R := by
      rw [← Multiset.count_eq_zero]
      omega
    have hput : (h.setRefcnt s ((h.samples s).refcnt - 1)).sampleFree s =
        (h.setRefcnt s ((h.samples s).refcnt - 1)).setFree p (h.free p ++ [s]) := by
      unfold Heap.sampleFree
      rw [Heap.setRefcnt_samples, hp.pool]
      exact if_pos (hb.room hp.block hnot)
    rw [hput]
    have hfree : ∀ q s', s' ∈ ((h.setRefcnt s ((h.samples s).refcnt - 1)).setFree p
        (h.free p ++ [s])).free q ↔ s' ∈ h.free q ∨ (q = p ∧ s' = s) := by
      intro q s'
      rw [Heap.setFree_free]
      split
      · rw [‹q = p›, List.mem_append, List.mem_singleton]
        simp
      · simp [‹q ≠ p›, Heap.setRefcnt, Heap.setSample]
    refine ⟨hb.apart, hb.queue, ?_, ?_, ?_, ?_, hheld⟩
    · intro q
      rw [Heap.setFree_free]
      split
      · rw [List.nodup_append_comm]
        exact List.nodup_cons.mpr ⟨hnot, hb.nodup p⟩
      · exact hb.nodup q
    · intro q s' hs'
      rcases (hfree q s').mp hs' with hs' | ⟨rfl, rfl⟩
      · exact hb.area q s' hs'
      · exact hp.block
    · intro q s' hs'
      rw [hfree]
      rcases eq_or_ne s' s with rfl | hne
      · have hq : q = p := hb.apart q p s' hs' hp.block
        simp [hq, hzero]
      · rw [hb.free_iff q s' hs', hother s' hne]
        simp [hne]
    · intro q s' hs'
      rcases (hfree q s').mp hs' with hs' | ⟨-, rfl⟩
      · exact hidle q s' hs'
      · left
        show ((h.setRefcnt s' _).samples s').refcnt = 0
        rw [Heap.setRefcnt_samples, if_pos rfl]
        show (h.samples s').refcnt - 1 = 0
        omega
  · have hpos : s ∈ R := by
      rw [← Multiset.count_pos]
      omega
    refine ⟨hb.apart, hb.queue, hb.nodup, hb.area, ?_, hidle, hheld⟩
    intro q s' hs'
    refine (hb.free_iff q s' hs').trans (not_congr ?_)
    rw [Multiset.mem_cons]
    constructor
    · rintro (rfl | h)
      · exact hpos
      · exact h
    · exact .inr

/-! ## Allocation -/

structure Allocated (h h' : Heap) (p : PoolId) (s : SampleId) : Prop where
  free : h.free p = s :: h'.free p
  free_of_ne : ∀ q ≠ p, h'.free q = h.free q
  pools : h'.pools = h.pools
  samples : ∀ s' ≠ s, h'.samples s' = h.samples s'
  sample : h'.samples s = { payload := { h.payload s with length := 0 }
                            capacity := (h.pools p).capacity, refcnt := 1, pool := some p }

theorem sampleAlloc_spec (h : Heap) (p : PoolId) :
    (h.free p = [] ∧ h.sampleAlloc p = none) ∨
      ∃ h' s, h.sampleAlloc p = some (h', s) ∧ Allocated h h' p s := by
  unfold Heap.sampleAlloc
  cases hf : h.free p with
  | nil => exact .inl ⟨rfl, rfl⟩
  | cons s free =>
    refine .inr ⟨_, s, rfl, ?_, ?_, rfl, ?_, ?_⟩
    · show h.free p = s :: (h.setFree p free).free p
      rw [hf, Heap.setFree_free, if_pos rfl]
    · intro q hq
      show (h.setFree p free).free q = h.free q
      rw [Heap.setFree_free, if_neg hq]
    · intro s' hs'
      exact Function.update_of_ne hs' ..
    · exact Function.update_self ..

theorem Balanced.alloc (hb : Balanced z h R) (ha : Allocated h h' p s) :
    Balanced z h' (s ::ₘ R) ∧ s ∉ R := by
  have hmem : s ∈ h.free p := by
    rw [ha.free]
    exact List.mem_cons_self
  have hblock := hb.area p s hmem
  have hsR : s ∉ R := (hb.free_iff p s hblock).mp hmem
  have hnodup : s ∉ h'.free p ∧ (h'.free p).Nodup := by
    have := hb.nodup p
    rwa [ha.free, List.nodup_cons] at this
  have hfree : ∀ q s', s' ∈ h'.free q ↔ s' ∈ h.free q ∧ s' ≠ s := by
    intro q s'
    rcases eq_or_ne q p with rfl | hq
    · rw [ha.free, List.mem_cons]
      constructor
      · intro hs'
        refine ⟨.inr hs', ?_⟩
        rintro rfl
        exact hnodup.1 hs'
      · rintro ⟨rfl | hs', hne⟩
        · exact absurd rfl hne
        · exact hs'
    · rw [ha.free_of_ne q hq]
      constructor
      · intro hs'
        refine ⟨hs', ?_⟩
        rintro rfl
        exact hq (hb.apart q p _ (hb.area q _ hs') hblock)
      · exact And.left
  refine ⟨⟨?_, ?_, ?_, ?_, ?_, ?_, ?_⟩, hsR⟩
  · rw [ha.pools]
    exact hb.apart
  · rw [ha.pools]
    exact hb.queue
  · intro q
    rcases eq_or_ne q p with rfl | hq
    · exact hnodup.2
    · rw [ha.free_of_ne q hq]
      exact hb.nodup q
  · intro q s' hs'
    rw [ha.pools]
    exact hb.area q s' ((hfree q s').mp hs').1
  · intro q s' hs'
    rw [ha.pools] at hs'
    rw [hfree, hb.free_iff q s' hs', Multiset.mem_cons, not_or, and_comm]
  · intro q s' hs'
    obtain ⟨hs', hne⟩ := (hfree q s').mp hs'
    rw [ha.samples s' hne]
    exact hb.idle q s' hs'
  · intro s' hs'
    rcases eq_or_ne s' s with rfl | hne
    · refine ⟨p, ?_, ?_, ?_, ?_⟩
      · rw [ha.pools]
        exact hblock
      · rw [ha.sample]
      · rw [ha.sample, ha.pools]
      · rw [ha.sample, Multiset.count_cons_self, Multiset.count_eq_zero_of_notMem hsR]
        rfl
    · obtain ⟨q, hq⟩ := hb.held s' ((Multiset.mem_cons.mp hs').resolve_left hne)
      refine ⟨q, ?_⟩
      rw [ha.samples s' hne, ha.pools, Multiset.count_cons_of_ne hne]
      exact hq

structure AllocatedMany (h h' : Heap) (p : PoolId) (cnt : Nat) (smps : List SampleId) : Prop where
  taken : smps = (h.free p).take cnt
  free : h'.free p = (h.free p).drop cnt
  free_of_ne : ∀ q ≠ p, h'.free q = h.free q
  pools : h'.pools = h.pools
  samples : ∀ s ∉ smps, h'.samples s = h.samples s

theorem sampleAllocMany_spec (h : Heap) (p : PoolId) (cnt : Nat) (hb : Balanced z h R) :
    AllocatedMany h (h.sampleAllocMany p cnt).1 p cnt (h.sampleAllocMany p cnt).2 ∧
      Balanced z (h.sampleAllocMany p cnt).1 (((h.sampleAllocMany p cnt).2 : Multiset SampleId) + R) ∧
      (∀ s ∈ (h.sampleAllocMany p cnt).2, s ∉ R) := by
  induction cnt generalizing h R with
  | zero =>
    refine ⟨⟨?_, ?_, fun _ _ => rfl, rfl, fun _ _ => rfl⟩, ?_, ?_⟩
    · rw [List.take_zero]
      rfl
    · rw [List.drop_zero]
      rfl
    · simpa [Heap.sampleAllocMany] using hb
    · simp [Heap.sampleAllocMany]
  | succ cnt ih =>
    unfold Heap.sampleAllocMany
    rcases sampleAlloc_spec h p with ⟨hnil, hnone⟩ | ⟨h₁, s, hsome, ha⟩
    · rw [hnone]
      refine ⟨⟨?_, ?_, fun _ _ => rfl, rfl, fun _ _ => rfl⟩, ?_, ?_⟩
      · rw [hnil, List.take_nil]
      · rw [hnil, List.drop_nil]
      · simpa using hb
      · simp
    · rw [hsome]
      obtain ⟨hb₁, hsR⟩ := hb.alloc ha
      obtain ⟨hmany, hb₂, hnew⟩ := ih h₁ hb₁
      refine ⟨⟨?_, ?_, ?_, ?_, ?_⟩, ?_, ?_⟩
      · rw [ha.free, List.take_succ_cons, ← hmany.taken]
      · rw [ha.free, List.drop_succ_cons, ← hmany.free]
      · intro q hq
        rw [← ha.free_of_ne q hq, ← hmany.free_of_ne q hq]
      · rw [← ha.pools, ← hmany.pools]
      · intro s' hs'
        rw [List.mem_cons, not_or] at hs'
        rw [← ha.samples s' hs'.1, ← hmany.samples s' hs'.2]
      · have hcomm : ((s :: (h₁.sampleAllocMany p cnt).2 : List SampleId) : Multiset SampleId) + R =
            ((h₁.sampleAllocMany p cnt).2 : Multiset SampleId) + (s ::ₘ R) := by
          rw [← Multiset.cons_coe, Multiset.cons_add, Multiset.add_cons]
        rw [hcomm]
        exact hb₂
      · intro s' hs'
        rcases List.mem_cons.mp hs' with rfl | hs'
        · exact hsR
        · exact fun hR => hnew s' hs' (Multiset.mem_cons_of_mem hR)

theorem Balanced.increfMany (hb : Balanced z h R) {smps : List SampleId} (hs : ∀ s ∈ smps, s ∈ R) :
    Balanced z (h.sampleIncrefMany smps) ((smps : Multiset SampleId) + R) := by
  unfold Heap.sampleIncrefMany
  induction smps generalizing h R with
  | nil => simpa using hb
  | cons s smps ih =>
    have hb₁ := hb.incref (hs s List.mem_cons_self)
    have hb₂ := ih hb₁ fun s' hs' => Multiset.mem_cons_of_mem (hs s' (List.mem_cons_of_mem s hs'))
    rw [List.foldl_cons, ← Multiset.cons_coe, Multiset.cons_add, ← Multiset.add_cons]
    exact hb₂

theorem Balanced.decrefMany {smps : List SampleId} (hb : Balanced z h ((smps : Multiset SampleId) + R)) :
    Balanced z (h.sampleDecrefMany smps) R := by
  unfold Heap.sampleDecrefMany
  induction smps generalizing h with
  | nil => simpa using hb
  | cons s smps ih =>
    rw [← Multiset.cons_coe, Multiset.cons_add] at hb
    exact ih hb.decref

end VillasNode
