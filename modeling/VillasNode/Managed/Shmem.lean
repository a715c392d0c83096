import VillasNode.Lib.Fallible
import VillasNode.Managed.Safety
import VillasNode.Path.Sizing

/-!
# The shared memory region

`lib/shmem.cpp`. `shmem_int_open` maps a region of `shmem_total_size` bytes,
puts a managed allocator into it and allocates four times. The peer finds the
shared struct by the sizes of what stands before it.
-/

namespace VillasNode.Shmem

open Managed Blocks Capacity

/-! ## `shmem_total_size` -/

def sizeofQueueCell : Nat := 16

/-- What the sizes depend on. The common submodule and the platform have `cacheline`, the result of
`kernel::getCachelineSize`, and `sizeofShared`, the size of `struct shmem_shared`. -/
structure Conf where
  cacheline : Nat
  sizeofShared : Nat
  queuelen : Nat
  samplelen : Nat

namespace Conf

variable (c : Conf)

/-- The sum before it is stored in a `size_t`. -/
def totalSize : Nat :=
  sizeofMemoryType + c.sizeofShared + c.queuelen * (2 * sizeofQueueCell) +
    c.queuelen * roundUp c.cacheline (sampleLength c.samplelen) + 4 * sizeofMemoryBlock + 1024

def shmemTotalSize : Nat := sizeT c.totalSize

/-- The number of cells that `queue_init` makes of `queuelen`. `pool_init` rounds up first. -/
def cells : Nat := 2 ^ Nat.clog 2 c.queuelen

/-! ## `shmem_int_open` -/

/-- `p->len` of `pool_init` -/
def poolLen : Nat := sizeT (c.queuelen * blockSize c.cacheline (sampleLength c.samplelen))

end Conf

inductive OpenError where
  /-- `memory_managed` returned no manager. -/
  | manager
  /-- `-5` -/
  | shared
  /-- `-6` -/
  | queue
  /-- `MemoryAllocationError` of `pool_init` -/
  | pool
  /-- `-7` -/
  | poolQueue
deriving DecidableEq

structure Opened where
  manager : MemoryType
  shared : Nat
  queue : Nat
  pool : Nat
  poolQueue : Nat

def allocOr (error : OpenError) (m : MemoryType) (len alignment : Nat) :
    Except OpenError (MemoryType × Nat) :=
  match memoryManagedAlloc m len alignment with
  | some (m, ma) => .ok (m, ma.address)
  | none => .error error

/-- What `shmem_int_open` allocates in a region at `base`. -/
def shmemIntOpen (c : Conf) (garbage : Nat → MemoryBlock) (base : Nat) : Except OpenError Opened :=
  match memoryManaged garbage base c.shmemTotalSize with
  | none => .error .manager
  | some m => do
    let (m, shared) ← allocOr .shared m c.sizeofShared sizeofPointer
    let (m, queue) ← allocOr .queue m (sizeofQueueCell * c.cells) sizeofPointer
    let (m, pool) ← allocOr .pool m c.poolLen c.cacheline
    let (manager, poolQueue) ← allocOr .poolQueue m (sizeofQueueCell * c.cells) sizeofPointer
    return { manager, shared, queue, pool, poolQueue }

/-- Where the peer that maps the region at `base` looks for the shared struct. -/
def peerShared (base : Nat) : Nat := base + sizeofMemoryType + sizeofMemoryBlock

/-! ## The last block -/

variable {tight : Prop} {m : MemoryType} {pre : List Nat} {b len alignment : Nat}

theorem alloc_isSome_iff {hs : List Nat} (h : ListInv tight m hs) :
    (memoryManagedAlloc m len alignment).isSome ↔ ∃ x ∈ hs, (fit m len alignment x).isSome := by
  unfold memoryManagedAlloc firstFit
  rw [Option.isSome_map, h.blocks_eq, List.findSome?_isSome_iff]
  apply exists_congr
  intro x
  rw [Option.isSome_map]

theorem fit_of_used (hused : (m.block b).used = true) : fit m len alignment b = none := by
  unfold fit
  rw [if_pos hused]

theorem fit_isSome_iff (hfree : (m.block b).used = false) :
    (fit m len alignment b).isSome ↔ alignmentGap alignment b + len ≤ (m.block b).length := by
  unfold fit
  rw [hfree, if_neg Bool.false_ne_true]
  dsimp only
  split
  · simp
    omega
  · split
    · simp
      omega
    · simp
      omega

theorem alloc_last (h : ListInv tight m (pre ++ [b])) (hused : ∀ x ∈ pre, (m.block x).used = true)
    (hfree : (m.block b).used = false) (hroom : alignmentGap alignment b + len ≤ (m.block b).length) :
    memoryManagedAlloc m len alignment = some (carve m len alignment b (alignmentGap alignment b)) := by
  have hfit : fit m len alignment b = some (alignmentGap alignment b) := by
    unfold fit
    rw [hfree, if_neg Bool.false_ne_true]
    dsimp only
    rw [if_neg (by omega), if_pos (by omega)]
  have hpre : (pre.findSome? fun x => (fit m len alignment x).map fun gap => (x, gap)) = none := by
    rw [List.findSome?_eq_none_iff]
    intro x hx
    rw [fit_of_used (hused x hx), Option.map_none]
  unfold memoryManagedAlloc firstFit
  rw [h.blocks_eq, List.findSome?_append, hpre, Option.none_or, List.findSome?_singleton, hfit]
  rfl

/-- The blocks after an allocation from the last block. -/
structure Carved (m : MemoryType) (pre : List Nat) (b gap len : Nat) (m' : MemoryType) : Prop where
  list : ListInv False m' (pre ++ b :: newBlocks m len b gap)
  used : ∀ x ∈ pre, (m'.block x).used = true
  taken : (m'.block (carvedBlock b gap)).used = true
  front : sizeofMemoryBlock < gap → (m'.block b).used = false ∧
    (m'.block b).length = gap - sizeofMemoryBlock
  tail : len + sizeofMemoryBlock < (m.block b).length - gap →
    (m'.block (b + sizeofMemoryBlock + gap + len)).used = false ∧
      (m'.block (b + sizeofMemoryBlock + gap + len)).length =
        (m.block b).length - gap - len - sizeofMemoryBlock

theorem carve_last (len alignment gap : Nat) (h : ListInv False m (pre ++ [b])) (hused : ∀ x ∈ pre, (m.block x).used = true)
    (hfree : (m.block b).used = false) (hroom : gap + len ≤ (m.block b).length) :
    Carved m pre b gap len (carve m len alignment b gap).1 := by
  have hgap : gap ≤ (m.block b).length := by omega
  refine ⟨?_, fun x hx => ?_, ?_, fun hfront => ?_, fun htail => ?_⟩
  · have := carve_list len alignment h hgap (by omega) (fun _ => .inl rfl) False.elim
    rwa [List.append_nil] at this
  · rw [carve_outside len alignment h hgap (List.mem_append_left _ hx), if_neg (by simp), hused x hx]
  · rw [carve_at_carved len alignment h hgap]
  · rw [carve_at_front len alignment h hfront]
    exact ⟨hfree, rfl⟩
  · rw [carve_at_tail len alignment h hgap htail]
    exact ⟨rfl, rfl⟩

theorem alloc_plain (len alignment : Nat) (h : ListInv False m (pre ++ [b])) (hused : ∀ x ∈ pre, (m.block x).used = true)
    (hfree : (m.block b).used = false) (hgap : alignmentGap alignment b = 0)
    (hroom : len + sizeofMemoryBlock < (m.block b).length) :
    ∃ m', (memoryManagedAlloc m len alignment = some (m', ⟨b + sizeofMemoryBlock, alignment, len, b⟩)) ∧
      ListInv False m' (pre ++ [b] ++ [b + sizeofMemoryBlock + len]) ∧
      (∀ x ∈ pre ++ [b], (m'.block x).used = true) ∧
      (m'.block (b + sizeofMemoryBlock + len)).used = false ∧
      (m'.block (b + sizeofMemoryBlock + len)).length = (m.block b).length - len - sizeofMemoryBlock := by
  have hsz : 0 < sizeofMemoryBlock := by decide
  have hcarved := carve_last len alignment 0 h hused hfree (by omega)
  have hfront : ¬ sizeofMemoryBlock < 0 := by omega
  have hnew : newBlocks m len b 0 = [b + sizeofMemoryBlock + len] := by
    unfold newBlocks
    rw [if_neg hfront, if_pos (by omega)]
    rfl
  obtain ⟨hlist, hold, htaken, -, htail⟩ := hcarved
  unfold carvedBlock at htaken
  rw [if_neg hfront] at htaken
  rw [hnew] at hlist
  refine ⟨(carve m len alignment b 0).1, ?_, ?_, ?_, ?_⟩
  · rw [alloc_last h hused hfree (by omega), hgap, Option.some.injEq]
    exact Prod.ext rfl (carve_allocation m len alignment b 0)
  · rwa [List.append_assoc]
  · intro x hx
    rcases List.mem_append.mp hx with hx | hx
    · exact hold x hx
    · rw [List.mem_singleton.mp hx]
      exact htaken
  · exact htail (by omega)

theorem alloc_carved_iff (len alignment : Nat) {gap poolLen : Nat} {m' : MemoryType} (hcarved : Carved m pre b gap poolLen m')
    (hmod : (b + sizeofMemoryBlock) % alignment = 0)
    (hmod' : (b + sizeofMemoryBlock + gap + poolLen + sizeofMemoryBlock) % alignment = 0) :
    (memoryManagedAlloc m' len alignment).isSome ↔
      (sizeofMemoryBlock < gap ∧ len ≤ gap - sizeofMemoryBlock) ∨
        (poolLen + sizeofMemoryBlock < (m.block b).length - gap ∧
          len ≤ (m.block b).length - gap - poolLen - sizeofMemoryBlock) := by
  have hgap : ∀ {x : Nat}, (x + sizeofMemoryBlock) % alignment = 0 → alignmentGap alignment x = 0 := by
    intro x hx
    unfold alignmentGap
    rw [hx]
    rfl
  obtain ⟨hlist, hused, htaken, hfront, htail⟩ := hcarved
  rw [alloc_isSome_iff hlist]
  constructor
  · rintro ⟨x, hx, hfit⟩
    have hfree : (m'.block x).used = false := by
      rw [← Bool.not_eq_true]
      intro hused
      rw [fit_of_used hused] at hfit
      simp at hfit
    have hle := (fit_isSome_iff hfree).mp hfit
    unfold carvedBlock at htaken
    unfold newBlocks at hx
    rcases List.mem_append.mp hx with hx | hx
    · rw [hused x hx] at hfree
      simp at hfree
    rcases List.mem_cons.mp hx with rfl | hx
    · by_cases hlt : sizeofMemoryBlock < gap
      · rw [hgap hmod, (hfront hlt).2] at hle
        exact .inl ⟨hlt, by omega⟩
      · rw [if_neg hlt, hfree] at htaken
        simp at htaken
    rcases List.mem_append.mp hx with hx | hx
    · by_cases hlt : sizeofMemoryBlock < gap
      · rw [if_pos hlt] at hx htaken
        rw [List.mem_singleton.mp hx, htaken] at hfree
        simp at hfree
      · rw [if_neg hlt] at hx
        simp at hx
    · by_cases hlt : poolLen + sizeofMemoryBlock < (m.block b).length - gap
      · rw [if_pos hlt, List.mem_singleton] at hx
        rw [hx, hgap hmod', (htail hlt).2] at hle
        exact .inr ⟨hlt, by omega⟩
      · rw [if_neg hlt] at hx
        simp at hx
  · rintro (⟨hlt, hle⟩ | ⟨hlt, hle⟩)
    · obtain ⟨hfree, hlength⟩ := hfront hlt
      refine ⟨b, by simp, (fit_isSome_iff hfree).mpr ?_⟩
      rw [hgap hmod, hlength]
      omega
    · obtain ⟨hfree, hlength⟩ := htail hlt
      refine ⟨b + sizeofMemoryBlock + gap + poolLen, ?_, (fit_isSome_iff hfree).mpr ?_⟩
      · unfold newBlocks
        rw [if_pos hlt]
        simp
      · rw [hgap hmod', hlength]
        omega

/-! ## The region -/

/-- The bytes from the place behind the queue, where the pool could start, to the next cache line. -/
def Conf.poolGap (c : Conf) (base : Nat) : Nat :=
  alignmentGap c.cacheline (base + sizeofMemoryType + sizeofMemoryBlock + c.sizeofShared +
    sizeofMemoryBlock + sizeofQueueCell * c.cells)

/-- The queues are rounded up and the pool is moved to a cache line within 1024 bytes. Or the gap
before a huge cache line has room for the queue of the pool. -/
def Conf.Roomy (c : Conf) (base : Nat) : Prop :=
  2 * sizeofQueueCell * c.cells + c.poolGap base ≤ 2 * sizeofQueueCell * c.queuelen + 1024 ∨
    sizeofMemoryBlock + sizeofQueueCell * c.cells ≤ c.poolGap base ∧
      c.poolGap base + sizeofQueueCell * c.cells ≤ 2 * sizeofQueueCell * c.queuelen + 1056

instance (c : Conf) (base : Nat) : Decidable (c.Roomy base) := inferInstanceAs (Decidable (_ ∨ _))

theorem allocOr_ok {error : OpenError} {ma : MemoryAllocation} {m' : MemoryType}
    (halloc : memoryManagedAlloc m len alignment = some (m', ma)) :
    allocOr error m len alignment = .ok (m', ma.address) := by
  unfold allocOr
  rw [halloc]

theorem allocOr_error {error : OpenError} (hnone : (memoryManagedAlloc m len alignment).isSome = false) :
    allocOr error m len alignment = .error error := by
  unfold allocOr
  rw [Option.isSome_eq_false_iff, Option.isNone_iff_eq_none] at hnone
  rw [hnone]

theorem cells_lt {c : Conf} (hpos : 1 ≤ c.queuelen) : c.cells < 2 * c.queuelen := by
  unfold Conf.cells
  rcases Nat.eq_or_lt_of_le hpos with hone | hlt
  · rw [← hone]
    decide
  · have hclog : 0 < Nat.clog 2 c.queuelen := Nat.clog_pos (by omega) hlt
    have hpred := Nat.pow_pred_clog_lt_self (by omega : 1 < 2) hlt
    have hsucc : 2 ^ Nat.clog 2 c.queuelen = 2 * 2 ^ (Nat.clog 2 c.queuelen).pred := by
      rw [Nat.mul_comm, ← Nat.pow_succ, Nat.succ_pred_eq_of_pos hclog]
    omega

theorem memoryManaged_first (garbage : Nat → MemoryBlock) (base size : Nat)
    (hsize : sizeofMemoryType + sizeofMemoryBlock ≤ size) :
    ∃ m, memoryManaged garbage base size = some m ∧ ListInv False m ([] ++ [base + sizeofMemoryType]) ∧
      (m.block (base + sizeofMemoryType)).used = false ∧
      (m.block (base + sizeofMemoryType)).length = size - (sizeofMemoryType + sizeofMemoryBlock) := by
  have h₁ : align sizeofMemoryType sizeofPointer = sizeofMemoryType := by decide
  have h₂ : align sizeofMemoryBlock sizeofPointer = sizeofMemoryBlock := by decide
  obtain ⟨m, hm⟩ : ∃ m, memoryManaged garbage base size = some m := by
    unfold memoryManaged
    rw [if_neg (by omega)]
    exact ⟨_, rfl⟩
  refine ⟨m, hm, (memoryManaged_inv hm).2.2, ?_⟩
  unfold memoryManaged at hm
  rw [if_neg (by omega), h₁, h₂, Option.some.injEq] at hm
  rw [← hm, MemoryType.put_block, if_pos rfl]
  refine ⟨rfl, ?_⟩
  dsimp only
  omega

theorem gap_mod (alignment b : Nat) (hpos : 0 < alignment) :
    (b + sizeofMemoryBlock + alignmentGap alignment b) % alignment = 0 := by
  unfold alignmentGap
  dsimp only
  split
  · exact (add_gap_mod (b + sizeofMemoryBlock) alignment).resolve_left (by omega)
  · rename_i hzero
    rw [Nat.add_zero]
    exact not_not.mp hzero

theorem open_queue {c : Conf} (hpos : 1 ≤ c.queuelen) (hshared : 8 ∣ c.sizeofShared)
    (hfits : c.totalSize < 2 ^ 64) (garbage : Nat → MemoryBlock) {base : Nat} (hpage : 4096 ∣ base) :
    ∃ m b pre, (b = base + sizeofMemoryType + sizeofMemoryBlock + c.sizeofShared +
          sizeofMemoryBlock + sizeofQueueCell * c.cells) ∧
      ListInv False m (pre ++ [b]) ∧ (∀ x ∈ pre, (m.block x).used = true) ∧ (m.block b).used = false ∧
      (m.block b).length + sizeofQueueCell * c.cells = 2 * sizeofQueueCell * c.queuelen +
        c.queuelen * roundUp c.cacheline (sampleLength c.samplelen) + 1056 ∧
      shmemIntOpen c garbage base = do
        let (m, pool) ← allocOr .pool m c.poolLen c.cacheline
        let (manager, poolQueue) ← allocOr .poolQueue m (sizeofQueueCell * c.cells) sizeofPointer
        return { manager, shared := peerShared base
                 queue := base + sizeofMemoryType + sizeofMemoryBlock + c.sizeofShared + sizeofMemoryBlock
                 pool, poolQueue } := by
  have hcells := cells_lt hpos
  have htotal : c.shmemTotalSize = c.totalSize := Nat.mod_eq_of_lt hfits
  have hsum : c.totalSize = 48 + c.sizeofShared + c.queuelen * 32 +
    c.queuelen * roundUp c.cacheline (sampleLength c.samplelen) + 128 + 1024 := rfl
  have hblock : sizeofMemoryBlock = 32 := rfl
  have htype : sizeofMemoryType = 48 := rfl
  have hqueue : sizeofQueueCell * c.cells = 16 * c.cells := rfl
  have hqueues : 2 * sizeofQueueCell * c.queuelen = 32 * c.queuelen := rfl
  have hgap : ∀ {b : Nat}, 8 ∣ b → alignmentGap sizeofPointer b = 0 := by
    intro b hb
    have hzero : (b + sizeofMemoryBlock) % sizeofPointer = 0 := by
      rw [hblock, show sizeofPointer = 8 from rfl]
      omega
    unfold alignmentGap
    rw [hzero]
    rfl
  obtain ⟨m, hmanaged, hlist, hfree, hlength⟩ := memoryManaged_first garbage base
    c.shmemTotalSize (by rw [htotal]; omega)
  obtain ⟨m₁, halloc₁, hlist₁, hused₁, hfree₁, hlength₁⟩ := alloc_plain c.sizeofShared sizeofPointer
    hlist (by simp) hfree (hgap (by omega)) (by omega)
  obtain ⟨m₂, halloc₂, hlist₂, hused₂, hfree₂, hlength₂⟩ :=
    alloc_plain (sizeofQueueCell * c.cells) sizeofPointer hlist₁ hused₁ hfree₁ (hgap (by omega)) (by omega)
  refine ⟨m₂, _, _, rfl, hlist₂, hused₂, hfree₂, by omega, ?_⟩
  unfold shmemIntOpen
  rw [hmanaged]
  dsimp only
  rw [allocOr_ok halloc₁, Fallible.ok_bind]
  dsimp only
  rw [allocOr_ok halloc₂, Fallible.ok_bind]
  rfl

theorem poolLen_eq {c : Conf} (hpos : 1 ≤ c.queuelen) (hfits : c.totalSize < 2 ^ 64) :
    c.poolLen = c.queuelen * roundUp c.cacheline (sampleLength c.samplelen) := by
  have hle : c.queuelen * roundUp c.cacheline (sampleLength c.samplelen) ≤ c.totalSize := by
    unfold Conf.totalSize
    omega
  have hone : roundUp c.cacheline (sampleLength c.samplelen) ≤
      c.queuelen * roundUp c.cacheline (sampleLength c.samplelen) := Nat.le_mul_of_pos_left _ hpos
  unfold Conf.poolLen blockSize sizeT
  rw [Nat.mod_eq_of_lt (lt_of_le_of_lt (hone.trans hle) hfits), Nat.mod_eq_of_lt (lt_of_le_of_lt hle hfits)]

section
variable {c : Conf} {base length : Nat}

theorem Conf.Roomy.room (h : c.Roomy base)
    (hlength : length + sizeofQueueCell * c.cells = 2 * sizeofQueueCell * c.queuelen + c.poolLen + 1056) :
    c.poolGap base + c.poolLen ≤ length := by
  have hblock : sizeofMemoryBlock = 32 := rfl
  have hqueue : 2 * sizeofQueueCell * c.cells = 2 * (sizeofQueueCell * c.cells) := Nat.mul_assoc ..
  unfold Conf.Roomy at h
  rw [hblock, hqueue] at h
  rcases h with hbehind | hfront
  · omega
  · omega

/-- A last block of `length` bytes that has room for the pool has room for its queue in front of it or
behind it. -/
theorem roomy_iff
    (hlength : length + sizeofQueueCell * c.cells = 2 * sizeofQueueCell * c.queuelen + c.poolLen + 1056)
    (hroom : c.poolGap base + c.poolLen ≤ length) :
    c.Roomy base ↔
      (sizeofMemoryBlock < c.poolGap base ∧ sizeofQueueCell * c.cells ≤ c.poolGap base - sizeofMemoryBlock) ∨
        (c.poolLen + sizeofMemoryBlock < length - c.poolGap base ∧
          sizeofQueueCell * c.cells ≤ length - c.poolGap base - c.poolLen - sizeofMemoryBlock) := by
  have hblock : sizeofMemoryBlock = 32 := rfl
  have hqueue : 2 * sizeofQueueCell * c.cells = 2 * (sizeofQueueCell * c.cells) := Nat.mul_assoc ..
  have hcells : 0 < sizeofQueueCell * c.cells := Nat.mul_pos (by decide) (Nat.two_pow_pos _)
  unfold Conf.Roomy
  rw [hblock, hqueue]
  refine or_comm.trans (or_congr ?_ ?_)
  · constructor
    · omega
    · omega
  · constructor
    · omega
    · omega

end

/-- All allocations succeed, and the peer finds the shared struct, exactly if the rounded queues and
the gap before the pool leave enough of the extra bytes. -/
theorem shmem_open_iff {c : Conf} (hpos : 1 ≤ c.queuelen) (hline : 0 < c.cacheline)
    (hwords : 8 ∣ c.cacheline) (hshared : 8 ∣ c.sizeofShared) (hfits : c.totalSize < 2 ^ 64)
    (garbage : Nat → MemoryBlock) {base : Nat} (hpage : 4096 ∣ base) :
    (∃ o, shmemIntOpen c garbage base = .ok o ∧ o.shared = peerShared base) ↔ c.Roomy base := by
  obtain ⟨m, b, pre, hb, hlist, hused, hfree, hlength, hopen⟩ :=
    open_queue hpos hshared hfits garbage hpage
  have hpool := poolLen_eq hpos hfits
  have hgap : c.poolGap base = alignmentGap c.cacheline b := by
    unfold Conf.poolGap
    rw [hb]
  rw [← hpool] at hlength
  rw [hopen]
  by_cases hroom : alignmentGap c.cacheline b + c.poolLen ≤ (m.block b).length
  · have hroomy : c.Roomy base ↔ _ := roomy_iff hlength (by rwa [hgap])
    rw [hgap] at hroomy
    have hcarved := carve_last c.poolLen c.cacheline (alignmentGap c.cacheline b) hlist hused hfree hroom
    have hthird := alloc_last hlist hused hfree hroom
    generalize carve m c.poolLen c.cacheline b (alignmentGap c.cacheline b) = r at hcarved hthird
    obtain ⟨m', ma⟩ := r
    rw [allocOr_ok hthird, Fallible.ok_bind]
    dsimp only
    have hpoolMod : 8 ∣ c.poolLen := by
      rw [hpool]
      unfold roundUp
      exact (hwords.mul_right _).mul_left _
    have hmod : 8 ∣ b + sizeofMemoryBlock + alignmentGap c.cacheline b :=
      hwords.trans (Nat.dvd_of_mod_eq_zero (gap_mod c.cacheline b hline))
    have hstart : 8 ∣ b + sizeofMemoryBlock := by
      have hblock : sizeofMemoryBlock = 32 := rfl
      have htype : sizeofMemoryType = 48 := rfl
      have hqueue : sizeofQueueCell * c.cells = 16 * c.cells := rfl
      omega
    have hiff := alloc_carved_iff (sizeofQueueCell * c.cells) sizeofPointer hcarved
      (Nat.mod_eq_zero_of_dvd hstart)
      (Nat.mod_eq_zero_of_dvd (Nat.dvd_add (Nat.dvd_add hmod hpoolMod) (by decide)))
    dsimp only at hiff
    cases halloc : memoryManagedAlloc m' (sizeofQueueCell * c.cells) sizeofPointer with
    | none =>
      rw [halloc] at hiff
      rw [allocOr_error (by rw [halloc]; rfl)]
      have hnone := mt hiff.mpr Bool.false_ne_true
      constructor
      · rintro ⟨o, hok, -⟩
        rw [Fallible.error_bind] at hok
        simp at hok
      · exact fun h => absurd (hroomy.mp h) hnone
    | some r =>
      rw [halloc] at hiff
      rw [allocOr_ok halloc, Fallible.ok_bind]
      exact ⟨fun _ => hroomy.mpr (hiff.mp rfl), fun _ => ⟨_, rfl, rfl⟩⟩
  · have hnone : (memoryManagedAlloc m c.poolLen c.cacheline).isSome = false := by
      rw [← Bool.not_eq_true, alloc_isSome_iff hlist]
      rintro ⟨x, hx, hfit⟩
      rcases List.mem_append.mp hx with hx | hx
      · rw [fit_of_used (hused x hx)] at hfit
        simp at hfit
      · rw [List.mem_singleton.mp hx, fit_isSome_iff hfree] at hfit
        exact hroom hfit
    rw [allocOr_error hnone]
    constructor
    · rintro ⟨o, hok, -⟩
      rw [Fallible.error_bind] at hok
      simp at hok
    · exact fun h => absurd (hgap ▸ h.room hlength) hroom

/-! ## Queue lengths -/

/-- On x86-64 with cache lines of 64 bytes. -/
def exampleConf (queuelen samplelen : Nat) : Conf := ⟨64, 736, queuelen, samplelen⟩

def noBlocks (_ : Nat) : MemoryBlock := ⟨none, none, 0, false⟩

/-- With 65 elements, both queues get 128 cells. -/
theorem shmem_open_fails :
    ¬ ∀ queuelen samplelen : Nat, 1 ≤ queuelen → ∃ o,
      shmemIntOpen (exampleConf queuelen samplelen) noBlocks 4096 = .ok o ∧ o.shared = peerShared 4096 := by
  intro hclaim
  obtain ⟨o, hok, -⟩ := hclaim 65 1 (by decide)
  have hfail : (shmemIntOpen (exampleConf 65 1) noBlocks 4096).toOption.isNone := by decide +kernel
  rw [hok] at hfail
  simp [Except.toOption] at hfail

theorem shmem_open_default :
    ∃ o, shmemIntOpen (exampleConf 512 64) noBlocks 4096 = .ok o ∧ o.shared = peerShared 4096 :=
  (shmem_open_iff (by decide) (by decide) (by decide) (by decide) (by decide) noBlocks (by decide)).mpr
    (by decide +kernel)

end VillasNode.Shmem
