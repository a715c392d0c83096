import VillasNode.Queue.Sequential

/-!
# The blocks of a pool

`lib/pool.cpp` on the real queue: how `pool_init` cuts a buffer into blocks, and
who has them after any sequence of calls. The reference counts of
`lib/sample.cpp` are on top of it.
-/

namespace VillasNode.Blocks

open Mpmc

/-- `size_t` arithmetic. -/
def sizeT (n : Nat) : Nat := n % 2 ^ 64

/-- `struct pool`. Blocks are named by their addresses. -/
structure Pool where
  alignment : Nat
  blocksz : Nat
  len : Nat
  buffer : Nat
  queue : Queue Nat

/-- `alignment * CEIL(blocksz, alignment)`, where `CEIL` of the common submodule rounds up. -/
def roundUp (alignment blocksz : Nat) : Nat := alignment * ((blocksz + alignment - 1) / alignment)

def blockSize (alignment blocksz : Nat) : Nat := sizeT (roundUp alignment blocksz)

def block (buffer blocksz i : Nat) : Nat := sizeT (buffer + i * blocksz)

def blocks (buffer blocksz cnt : Nat) : List Nat := (List.range cnt).map (block buffer blocksz)

/-- The loop of `pool_init`, which does not look at the results of `queue_push`. -/
def pushAll (q : Queue Nat) : List Nat → Option (Queue Nat)
  | [] => some q
  | b :: bs => (q.push b).bind fun (q, _) => pushAll q bs

/-- `pool_init`, where the memory type has returned `buffer` for the length `len`. The counter of
the loop is `unsigned`, so that the loop never ends for more than that. -/
def poolInit (alignment cnt blocksz buffer : Nat) : Option Pool :=
  if cnt < 2 ^ 32 then
    let size := blockSize alignment blocksz
    (pushAll (queueInit Nat (2 ^ Nat.clog 2 cnt)) (blocks buffer size cnt)).map fun queue =>
      { alignment, blocksz := size, len := sizeT (cnt * size), buffer, queue }
  else none

def poolGet (p : Pool) : Option (Pool × Option Nat) :=
  p.queue.pull.map fun (queue, ret, ptr) => ({ p with queue }, if ret = 1 then ptr else none)

def poolGetMany (p : Pool) (cnt : Nat) : Option (Pool × Int × List Nat) :=
  (p.queue.pullMany cnt).map fun (queue, ret, ptrs) => ({ p with queue }, ret, ptrs)

def poolPut (p : Pool) (b : Nat) : Option (Pool × Int) :=
  (p.queue.push b).map fun (queue, ret) => ({ p with queue }, ret)

def poolPutMany (p : Pool) (bs : List Nat) : Option (Pool × Int) :=
  (p.queue.pushMany bs).map fun (queue, ret) => ({ p with queue }, ret)

/-! ## Calls -/

/-- A pool and the blocks that were handed out and not put back. -/
structure PoolState where
  pool : Pool
  out : List Nat

inductive Op where
  | get
  | getMany (cnt : Nat)
  | put (b : Nat)
  | putMany (bs : List Nat)

/-- Only blocks that are out are put back, each of them once. -/
def step (s : PoolState) : Op → Option PoolState
  | .get => (poolGet s.pool).map fun (pool, b) => ⟨pool, b.toList ++ s.out⟩
  | .getMany cnt => (poolGetMany s.pool cnt).map fun (pool, _, bs) => ⟨pool, bs ++ s.out⟩
  | .put b => if b ∈ s.out then (poolPut s.pool b).map fun (pool, _) => ⟨pool, s.out.erase b⟩ else none
  | .putMany bs =>
    if bs.Subperm s.out then (poolPutMany s.pool bs).map fun (pool, _) => ⟨pool, s.out.diff bs⟩
    else none

/-! ## Where the blocks lie -/

/-- What the memory type returns: an aligned buffer inside the address space. -/
structure Allocated (alignment buffer len : Nat) : Prop where
  positive : 0 < alignment
  aligned : alignment ∣ buffer
  inside : buffer + len ≤ 2 ^ 64

/-- The blocks are aligned, inside of the buffer and apart from each other. -/
structure Laid (alignment size buffer len cnt : Nat) : Prop where
  aligned : ∀ i < cnt, alignment ∣ block buffer size i
  inside : ∀ i < cnt, buffer ≤ block buffer size i ∧ block buffer size i + size ≤ buffer + len
  disjoint : ∀ i < cnt, ∀ j < cnt, i ≠ j →
    block buffer size i + size ≤ block buffer size j ∨
      block buffer size j + size ≤ block buffer size i

section
variable {alignment cnt blocksz buffer : Nat}

theorem roundUp_pos (halign : 0 < alignment) (hpos : 1 ≤ blocksz) :
    0 < roundUp alignment blocksz := by
  apply Nat.mul_pos halign
  apply Nat.div_pos _ halign
  omega

theorem blockSize_eq (hcnt : 2 ≤ cnt) (hfits : cnt * roundUp alignment blocksz < 2 ^ 64) :
    blockSize alignment blocksz = roundUp alignment blocksz := by
  apply Nat.mod_eq_of_lt
  exact lt_of_le_of_lt (Nat.le_mul_of_pos_left _ (by omega)) hfits

theorem block_eq {size len i : Nat} (hsize : 0 < size) (hlen : cnt * size = len)
    (hinside : buffer + len ≤ 2 ^ 64) (hi : i < cnt) :
    block buffer size i = buffer + i * size ∧ i * size + size ≤ len := by
  have hle : (i + 1) * size ≤ cnt * size := Nat.mul_le_mul_right size hi
  rw [Nat.add_mul, Nat.one_mul, hlen] at hle
  exact ⟨Nat.mod_eq_of_lt (by omega), hle⟩

theorem laid {size len : Nat} (hsize : 0 < size) (hdvd : alignment ∣ size) (hlen : cnt * size = len)
    (hmem : Allocated alignment buffer len) : Laid alignment size buffer len cnt := by
  refine ⟨?_, ?_, ?_⟩
  · intro i hi
    rw [(block_eq hsize hlen hmem.inside hi).1]
    exact Nat.dvd_add hmem.aligned (Nat.dvd_mul_left_of_dvd hdvd i)
  · intro i hi
    obtain ⟨heq, hle⟩ := block_eq hsize hlen hmem.inside hi
    omega
  · intro i hi j hj hne
    rw [(block_eq hsize hlen hmem.inside hi).1, (block_eq hsize hlen hmem.inside hj).1]
    obtain hlt | hlt := Nat.lt_or_gt_of_ne hne
    · have := Nat.mul_le_mul_right size hlt
      rw [Nat.succ_mul] at this
      omega
    · have := Nat.mul_le_mul_right size hlt
      rw [Nat.succ_mul] at this
      omega

theorem Laid.nodup {size len : Nat} (h : Laid alignment size buffer len cnt) (hsize : 0 < size) :
    (blocks buffer size cnt).Nodup := by
  apply List.Nodup.map_on _ List.nodup_range
  intro i hi j hj heq
  by_contra hne
  have := h.disjoint i (List.mem_range.mp hi) j (List.mem_range.mp hj) hne
  omega

end

/-! ## Who has the blocks -/

/-- The queue has the blocks `free`, and with those that are out they are all blocks `bs`. -/
structure PoolInv (N : Nat) (bs : List Nat) (s : PoolState) (free : List Nat) : Prop where
  holds : Holds N s.pool.queue free
  perm : (free ++ s.out).Perm bs

section
variable {N : Nat} {bs free : List Nat} {s s' : PoolState}

theorem PoolInv.length (h : PoolInv N bs s free) : free.length + s.out.length = bs.length := by
  rw [← h.perm.length_eq, List.length_append]

theorem pushAll_spec (hN : Size N) {q : Queue Nat} {xs : List Nat} (h : Holds N q xs)
    (bs : List Nat) (hroom : xs.length + bs.length ≤ N) :
    ∃ q', pushAll q bs = some q' ∧ Holds N q' (xs ++ bs) := by
  induction bs generalizing q xs with
  | nil => exact ⟨q, rfl, by simpa using h⟩
  | cons b bs ih =>
    rw [List.length_cons] at hroom
    obtain ⟨hlen, -⟩ | ⟨-, q₁, hpush, h₁⟩ := h.push hN b
    · omega
    · obtain ⟨q₂, hall, h₂⟩ := ih h₁ (by simp; omega)
      exact ⟨q₂, by simp [pushAll, hpush, hall], by simpa using h₂⟩

theorem PoolInv.get (hN : Size N) (h : PoolInv N bs s free) :
    (free = [] ∧ poolGet s.pool = some (s.pool, none)) ∨
      ∃ p b free', free = b :: free' ∧ poolGet s.pool = some (p, some b) ∧
        PoolInv N bs ⟨p, b :: s.out⟩ free' := by
  have hholds := h.holds
  have hperm := h.perm
  cases free with
  | nil => exact .inl ⟨rfl, by simp [poolGet, hholds.pull_empty hN]⟩
  | cons b free' =>
    obtain ⟨q', hpull, h'⟩ := hholds.pull hN
    refine .inr ⟨_, b, free', rfl, by simp [poolGet, hpull]; rfl, h', ?_⟩
    exact List.perm_middle.trans hperm

theorem PoolInv.getMany (hN : Size N) (h : PoolInv N bs s free) (cnt : Nat) :
    ∃ p ret, poolGetMany s.pool cnt = some (p, ret, free.take cnt) ∧
      PoolInv N bs ⟨p, free.take cnt ++ s.out⟩ (free.drop cnt) := by
  obtain ⟨q', hpull, h'⟩ := h.holds.pullMany hN cnt
  refine ⟨_, _, by simp [poolGetMany, hpull]; exact ⟨rfl, rfl⟩, h', ?_⟩
  have hswap : (free.drop cnt ++ free.take cnt).Perm (free.take cnt ++ free.drop cnt) :=
    List.perm_append_comm
  rw [List.take_append_drop] at hswap
  change (free.drop cnt ++ (free.take cnt ++ s.out)).Perm bs
  rw [← List.append_assoc]
  exact (hswap.append_right s.out).trans h.perm

theorem PoolInv.put (hN : Size N) (h : PoolInv N bs s free) (hle : bs.length ≤ N) {b : Nat}
    (hb : b ∈ s.out) :
    ∃ p, poolPut s.pool b = some (p, 1) ∧ PoolInv N bs ⟨p, s.out.erase b⟩ (free ++ [b]) := by
  have hlen := h.length
  have hpos := List.length_pos_of_mem hb
  obtain ⟨hfull, -⟩ | ⟨-, q', hpush, h'⟩ := h.holds.push hN b
  · omega
  · refine ⟨_, by simp [poolPut, hpush]; rfl, h', ?_⟩
    change (free ++ [b] ++ s.out.erase b).Perm bs
    rw [List.append_assoc]
    exact ((List.perm_cons_erase hb).symm.append_left free).trans h.perm

theorem PoolInv.putMany (hN : Size N) (h : PoolInv N bs s free) (hle : bs.length ≤ N)
    {back : List Nat} (hback : back.Subperm s.out) :
    ∃ p, poolPutMany s.pool back = some (p, (back.length : Int)) ∧
      PoolInv N bs ⟨p, s.out.diff back⟩ (free ++ back) := by
  have hlen := h.length
  have hshort := hback.length_le
  obtain ⟨q', hpush, h'⟩ := h.holds.pushMany hN back
  rw [Nat.min_eq_left (by omega)] at hpush
  rw [List.take_of_length_le (by omega)] at h'
  refine ⟨_, by simp [poolPutMany, hpush]; rfl, h', ?_⟩
  change (free ++ back ++ s.out.diff back).Perm bs
  rw [List.append_assoc]
  exact ((List.subperm_append_diff_self_of_count_le (List.subperm_ext_iff.mp hback)).append_left
    free).trans h.perm

theorem step_inv (hN : Size N) (hle : bs.length ≤ N) (h : PoolInv N bs s free) {op : Op}
    (hstep : step s op = some s') : ∃ free', PoolInv N bs s' free' := by
  cases op with
  | get =>
    obtain ⟨-, hget⟩ | ⟨p, b, free', -, hget, h'⟩ := h.get hN
    · simp only [step, hget, Option.map_some, Option.some.injEq] at hstep
      exact ⟨free, hstep ▸ h⟩
    · simp only [step, hget, Option.map_some, Option.some.injEq] at hstep
      exact ⟨free', hstep ▸ h'⟩
  | getMany cnt =>
    obtain ⟨p, ret, hget, h'⟩ := h.getMany hN cnt
    simp only [step, hget, Option.map_some, Option.some.injEq] at hstep
    exact ⟨_, hstep ▸ h'⟩
  | put b =>
    by_cases hb : b ∈ s.out
    · obtain ⟨p, hput, h'⟩ := h.put hN hle hb
      simp only [step, if_pos hb, hput, Option.map_some, Option.some.injEq] at hstep
      exact ⟨_, hstep ▸ h'⟩
    · simp [step, hb] at hstep
  | putMany back =>
    by_cases hback : back.Subperm s.out
    · obtain ⟨p, hput, h'⟩ := h.putMany hN hle hback
      simp only [step, if_pos hback, hput, Option.map_some, Option.some.injEq] at hstep
      exact ⟨_, hstep ▸ h'⟩
    · simp [step, hback] at hstep

/-- What the callers of a pool rely on. -/
structure Conserved (N : Nat) (bs : List Nat) (s : PoolState) (free : List Nat) : Prop where
  inv : PoolInv N bs s free
  getFresh : ∀ p b, poolGet s.pool = some (p, some b) → b ∉ s.out
  getManyFresh : ∀ cnt p ret got, poolGetMany s.pool cnt = some (p, ret, got) →
    got.Nodup ∧ ∀ b ∈ got, b ∉ s.out
  put : ∀ b ∈ s.out, ∃ p, poolPut s.pool b = some (p, 1)
  putMany : ∀ back, back.Subperm s.out →
    ∃ p, poolPutMany s.pool back = some (p, (back.length : Int))

theorem PoolInv.nodup (h : PoolInv N bs s free) (hnodup : bs.Nodup) :
    free.Nodup ∧ ∀ b ∈ free, b ∉ s.out := by
  have hall := h.perm.nodup_iff.mpr hnodup
  rw [List.nodup_append] at hall
  exact ⟨hall.1, fun b hb hout => hall.2.2 b hb b hout rfl⟩

theorem PoolInv.conserved (hN : Size N) (hle : bs.length ≤ N) (hnodup : bs.Nodup)
    (h : PoolInv N bs s free) : Conserved N bs s free := by
  obtain ⟨hfree, hapart⟩ := h.nodup hnodup
  refine ⟨h, ?_, ?_, ?_, ?_⟩
  · intro p b hget
    obtain ⟨-, hnone⟩ | ⟨p', b', free', rfl, hsome, -⟩ := h.get hN
    · simp [hnone] at hget
    · simp only [hsome, Option.some.injEq, Prod.mk.injEq] at hget
      rw [← hget.2]
      exact hapart b' (by simp)
  · intro cnt p ret got hget
    obtain ⟨p', ret', hsome, -⟩ := h.getMany hN cnt
    simp only [hsome, Option.some.injEq, Prod.mk.injEq] at hget
    rw [← hget.2.2]
    exact ⟨hfree.sublist (List.take_sublist cnt free), fun b hb =>
      hapart b (List.mem_of_mem_take hb)⟩
  · intro b hb
    obtain ⟨p, hput, -⟩ := h.put hN hle hb
    exact ⟨p, hput⟩
  · intro back hback
    obtain ⟨p, hput, -⟩ := h.putMany hN hle hback
    exact ⟨p, hput⟩

theorem run_inv (hN : Size N) (hle : bs.length ≤ N) (h : PoolInv N bs s free) {ops : List Op}
    (hrun : Runs.run step s ops = some s') : ∃ free', PoolInv N bs s' free' := by
  refine Runs.always (I := fun s => ∃ free, PoolInv N bs s free) ?_ ⟨free, h⟩ hrun
  rintro s op s' ⟨free, h⟩ hstep
  exact step_inv hN hle h hstep

end

/-! ## Samples -/

/-- A pool of samples. The last two fields are not in the code: how many references to each block
are held, and which blocks have been allocated before. -/
structure SampleState where
  blocks : PoolState
  refcnt : Nat → Int
  refs : Nat → Nat
  used : List Nat

inductive SampleOp where
  | alloc
  | incref (b : Nat)
  | decref (b : Nat)

def sampleAlloc (s : SampleState) : Option SampleState :=
  match poolGet s.blocks.pool with
  | none => none
  | some (_, none) => some s
  | some (pool, some b) =>
    some { blocks := ⟨pool, b :: s.blocks.out⟩, refcnt := Function.update s.refcnt b 1
           refs := Function.update s.refs b 1, used := b :: s.used }

def sampleIncref (s : SampleState) (b : Nat) : SampleState :=
  { s with refcnt := Function.update s.refcnt b (s.refcnt b + 1)
           refs := Function.update s.refs b (s.refs b + 1) }

def sampleDecref (s : SampleState) (b : Nat) : Option SampleState :=
  let prev := s.refcnt b
  let s := { s with refcnt := Function.update s.refcnt b (prev - 1)
                    refs := Function.update s.refs b (s.refs b - 1) }
  if prev = 1 then
    (poolPut s.blocks.pool b).map fun (pool, _) => { s with blocks := ⟨pool, s.blocks.out.erase b⟩ }
  else some s

/-- References are only taken and given back by someone who holds one. -/
def sampleStep (s : SampleState) : SampleOp → Option SampleState
  | .alloc => sampleAlloc s
  | .incref b => if 0 < s.refs b then some (sampleIncref s b) else none
  | .decref b => if 0 < s.refs b then sampleDecref s b else none

/-- The blocks that are out are those with references, and their counts say how many. -/
structure SampleInv (N : Nat) (bs : List Nat) (s : SampleState) (free : List Nat) : Prop where
  inv : PoolInv N bs s.blocks free
  out_iff : ∀ b, b ∈ s.blocks.out ↔ 0 < s.refs b
  refcnt : ∀ b, 0 < s.refs b → s.refcnt b = s.refs b
  idle : ∀ b ∈ s.used, s.refs b = 0 → s.refcnt b = 0
  known : ∀ b ∈ s.blocks.out, b ∈ s.used

section
variable {N : Nat} {bs free : List Nat} {s s' : SampleState}

theorem sampleAlloc_inv (hN : Size N) (h : SampleInv N bs s free)
    (hstep : sampleAlloc s = some s') : ∃ free', SampleInv N bs s' free' := by
  obtain ⟨-, hget⟩ | ⟨p, b, free', -, hget, h'⟩ := h.inv.get hN
  · simp only [sampleAlloc, hget, Option.some.injEq] at hstep
    exact ⟨free, hstep ▸ h⟩
  · simp only [sampleAlloc, hget, Option.some.injEq] at hstep
    subst hstep
    refine ⟨free', h', ?_, ?_, ?_, ?_⟩
    · intro x
      by_cases hx : x = b
      · simp [hx]
      · simp [hx, h.out_iff]
    · intro x hpos
      by_cases hx : x = b
      · simp [hx]
      · simp only [Function.update_of_ne hx] at hpos ⊢
        exact h.refcnt x hpos
    · intro x hx hzero
      by_cases hxb : x = b
      · simp [hxb] at hzero
      · simp only [Function.update_of_ne hxb] at hzero ⊢
        exact h.idle x ((List.mem_cons.mp hx).resolve_left hxb) hzero
    · intro x hx
      obtain rfl | hx := List.mem_cons.mp hx
      · simp
      · exact List.mem_cons_of_mem b (h.known x hx)

theorem sampleIncref_inv (h : SampleInv N bs s free) {b : Nat} (hb : 0 < s.refs b) :
    SampleInv N bs (sampleIncref s b) free := by
  refine ⟨h.inv, ?_, ?_, ?_, h.known⟩
  · intro x
    by_cases hx : x = b
    · simp [sampleIncref, hx, h.out_iff, hb]
    · simp [sampleIncref, hx, h.out_iff]
  · intro x hpos
    by_cases hx : x = b
    · simp [sampleIncref, hx, h.refcnt b hb]
    · simp only [sampleIncref, Function.update_of_ne hx] at hpos ⊢
      exact h.refcnt x hpos
  · intro x hx hzero
    by_cases hxb : x = b
    · simp [sampleIncref, hxb] at hzero
    · simp only [sampleIncref, Function.update_of_ne hxb] at hzero ⊢
      exact h.idle x hx hzero

theorem decref_counts {free' : List Nat} (h : SampleInv N bs s free) {b : Nat} (hb : 0 < s.refs b)
    {blocks : PoolState} (hinv : PoolInv N bs blocks free')
    (hout : ∀ x, x ∈ blocks.out ↔ x ∈ s.blocks.out ∧ (x = b → s.refs b ≠ 1)) :
    SampleInv N bs ⟨blocks, Function.update s.refcnt b (s.refcnt b - 1),
      Function.update s.refs b (s.refs b - 1), s.used⟩ free' := by
  have hcount := h.refcnt b hb
  refine ⟨hinv, ?_, ?_, ?_, ?_⟩
  · intro x
    rw [hout, h.out_iff]
    by_cases hx : x = b
    · simp only [hx, Function.update_self, forall_const]
      omega
    · simp [hx]
  · intro x hpos
    by_cases hx : x = b
    · simp only [hx, Function.update_self] at hpos ⊢
      omega
    · simp only [Function.update_of_ne hx] at hpos ⊢
      exact h.refcnt x hpos
  · intro x hused hzero
    by_cases hx : x = b
    · simp only [hx, Function.update_self] at hzero ⊢
      omega
    · simp only [Function.update_of_ne hx] at hzero ⊢
      exact h.idle x hused hzero
  · intro x hx
    exact h.known x ((hout x).mp hx).1

theorem sampleDecref_inv (hN : Size N) (hle : bs.length ≤ N) (hnodup : bs.Nodup)
    (h : SampleInv N bs s free) {b : Nat} (hb : 0 < s.refs b)
    (hstep : sampleDecref s b = some s') : ∃ free', SampleInv N bs s' free' := by
  have hcount := h.refcnt b hb
  have hout : s.blocks.out.Nodup :=
    (List.nodup_append.mp (h.inv.perm.nodup_iff.mpr hnodup)).2.1
  unfold sampleDecref at hstep
  dsimp only at hstep
  split at hstep
  · rename_i hlast
    obtain ⟨p, hput, h'⟩ := h.inv.put hN hle ((h.out_iff b).mpr hb)
    simp only [hput, Option.map_some, Option.some.injEq] at hstep
    subst hstep
    refine ⟨_, decref_counts h hb h' ?_⟩
    intro x
    rw [hout.mem_erase_iff, and_comm]
    have hone : s.refs b = 1 := by omega
    simp [hone]
  · rename_i hlast
    cases hstep
    refine ⟨free, decref_counts h hb h.inv ?_⟩
    intro x
    have hone : s.refs b ≠ 1 := by omega
    simp [hone]

theorem sampleStep_inv (hN : Size N) (hle : bs.length ≤ N) (hnodup : bs.Nodup)
    (h : SampleInv N bs s free) {op : SampleOp} (hstep : sampleStep s op = some s') :
    ∃ free', SampleInv N bs s' free' := by
  cases op with
  | alloc => exact sampleAlloc_inv hN h hstep
  | incref b =>
    by_cases hb : 0 < s.refs b
    · simp only [sampleStep, if_pos hb, Option.some.injEq] at hstep
      exact ⟨free, hstep ▸ sampleIncref_inv h hb⟩
    · simp [sampleStep, hb] at hstep
  | decref b =>
    by_cases hb : 0 < s.refs b
    · simp only [sampleStep, if_pos hb] at hstep
      exact sampleDecref_inv hN hle hnodup h hb hstep
    · simp [sampleStep, hb] at hstep

theorem sampleRun_inv (hN : Size N) (hle : bs.length ≤ N) (hnodup : bs.Nodup)
    (h : SampleInv N bs s free) {ops : List SampleOp} (hrun : Runs.run sampleStep s ops = some s') :
    ∃ free', SampleInv N bs s' free' := by
  refine Runs.always (I := fun s => ∃ free, SampleInv N bs s free) ?_ ⟨free, h⟩ hrun
  rintro s op s' ⟨free, h⟩ hstep
  exact sampleStep_inv hN hle hnodup h hstep

/-- A block is free exactly when nobody has a reference to it. Then its count is 0, but for a block
that was never allocated: it has the count that was in the memory before. -/
structure Counted (s : SampleState) (free : List Nat) (b : Nat) : Prop where
  free_iff : b ∈ free ↔ s.refs b = 0
  refcnt : 0 < s.refs b → s.refcnt b = s.refs b
  free_iff_refcnt : b ∈ s.used → (b ∈ free ↔ s.refcnt b = 0)
  unused : b ∉ s.used → b ∈ free

theorem SampleInv.counted (h : SampleInv N bs s free) (hnodup : bs.Nodup) {b : Nat} (hb : b ∈ bs) :
    Counted s free b := by
  obtain ⟨-, hapart⟩ := h.inv.nodup hnodup
  have hsplit : b ∈ free ∨ b ∈ s.blocks.out := by
    rw [← List.mem_append]
    exact h.inv.perm.mem_iff.mpr hb
  have hfree : b ∈ free ↔ s.refs b = 0 := by
    constructor
    · intro hmem
      have := mt (h.out_iff b).mpr (hapart b hmem)
      omega
    · intro hzero
      apply hsplit.resolve_right
      intro hout
      have := (h.out_iff b).mp hout
      omega
  refine ⟨hfree, h.refcnt b, ?_, ?_⟩
  · intro hused
    rw [hfree]
    constructor
    · exact h.idle b hused
    · intro hzero
      by_contra hne
      have := h.refcnt b (by omega)
      omega
  · intro hused
    exact hsplit.resolve_right fun hout => hused (h.known b hout)

end

/-! ## Pools as `pool_init` makes them -/

theorem poolInit_spec (alignment cnt blocksz buffer : Nat) (hcnt : 2 ≤ cnt) (hloop : cnt < 2 ^ 32) :
    Size (2 ^ Nat.clog 2 cnt) ∧ cnt ≤ 2 ^ Nat.clog 2 cnt ∧ ∃ queue,
      poolInit alignment cnt blocksz buffer = some ⟨alignment, blockSize alignment blocksz,
        sizeT (cnt * blockSize alignment blocksz), buffer, queue⟩ ∧
      Holds (2 ^ Nat.clog 2 cnt) queue (blocks buffer (blockSize alignment blocksz) cnt) := by
  have hN : Size (2 ^ Nat.clog 2 cnt) := size_clog hcnt (by omega)
  have hle : cnt ≤ 2 ^ Nat.clog 2 cnt := Nat.le_pow_clog (by omega) cnt
  have hempty : Holds (2 ^ Nat.clog 2 cnt) (queueInit Nat (2 ^ Nat.clog 2 cnt)) [] := by
    have hinit : Holds (2 ^ Nat.clog 2 (2 ^ Nat.clog 2 cnt)) (queueInit Nat (2 ^ Nat.clog 2 cnt)) [] :=
      queueInit_holds _
    rwa [Nat.clog_pow 2 _ (by omega)] at hinit
  obtain ⟨queue, hall, hholds⟩ := pushAll_spec hN hempty
    (blocks buffer (blockSize alignment blocksz) cnt) (by simpa [blocks] using hle)
  refine ⟨hN, hle, queue, ?_, hholds⟩
  rw [poolInit, if_pos hloop]
  simp [hall]

/-- A pool, from `pool_init` on, has all its blocks free or handed out after any sequence of calls,
on the level of blocks and on the level of samples. -/
theorem pool_conservation (alignment cnt blocksz buffer : Nat) (hcnt : 2 ≤ cnt)
    (hloop : cnt < 2 ^ 32) (hblock : 1 ≤ blocksz) (hfits : cnt * roundUp alignment blocksz < 2 ^ 64)
    (hmem : Allocated alignment buffer (cnt * roundUp alignment blocksz)) :
    ∃ pool, poolInit alignment cnt blocksz buffer = some pool ∧
      pool.blocksz = roundUp alignment blocksz ∧ pool.len = cnt * pool.blocksz ∧
      Laid alignment pool.blocksz buffer pool.len cnt ∧
      (∀ ops s, Runs.run step ⟨pool, []⟩ ops = some s →
        ∃ free, Conserved (2 ^ Nat.clog 2 cnt) (blocks buffer pool.blocksz cnt) s free) ∧
      ∀ memory ops s, Runs.run sampleStep ⟨⟨pool, []⟩, memory, fun _ => 0, []⟩ ops = some s →
        ∃ free, Conserved (2 ^ Nat.clog 2 cnt) (blocks buffer pool.blocksz cnt) s.blocks free ∧
          ∀ b ∈ blocks buffer pool.blocksz cnt, Counted s free b := by
  have hsize : blockSize alignment blocksz = roundUp alignment blocksz := blockSize_eq hcnt hfits
  have hpos : 0 < roundUp alignment blocksz := roundUp_pos hmem.positive hblock
  have hlaid : Laid alignment (roundUp alignment blocksz) buffer (cnt * roundUp alignment blocksz)
      cnt := laid hpos (Nat.dvd_mul_right ..) rfl hmem
  have hnodup := hlaid.nodup hpos
  obtain ⟨hN, hle, queue, hinit, hholds⟩ := poolInit_spec alignment cnt blocksz buffer hcnt hloop
  rw [hsize] at hinit hholds
  have hlen : sizeT (cnt * roundUp alignment blocksz) = cnt * roundUp alignment blocksz :=
    Nat.mod_eq_of_lt hfits
  rw [hlen] at hinit
  have hbs : (blocks buffer (roundUp alignment blocksz) cnt).length ≤ 2 ^ Nat.clog 2 cnt := by
    simpa [blocks] using hle
  refine ⟨_, hinit, rfl, rfl, hlaid, ?_, ?_⟩
  · intro ops s hrun
    have hstart : PoolInv (2 ^ Nat.clog 2 cnt) (blocks buffer (roundUp alignment blocksz) cnt)
        ⟨⟨alignment, roundUp alignment blocksz, cnt * roundUp alignment blocksz, buffer, queue⟩, []⟩
        (blocks buffer (roundUp alignment blocksz) cnt) := ⟨hholds, by simp⟩
    obtain ⟨free, h⟩ := run_inv hN hbs hstart hrun
    exact ⟨free, h.conserved hN hbs hnodup⟩
  · intro memory ops s hrun
    have hstart : SampleInv (2 ^ Nat.clog 2 cnt) (blocks buffer (roundUp alignment blocksz) cnt)
        ⟨⟨⟨alignment, roundUp alignment blocksz, cnt * roundUp alignment blocksz, buffer, queue⟩, []⟩,
          memory, fun _ => 0, []⟩
        (blocks buffer (roundUp alignment blocksz) cnt) :=
      ⟨⟨hholds, by simp⟩, by simp, by simp, by simp, by simp⟩
    obtain ⟨free, h⟩ := sampleRun_inv hN hbs hnodup hstart hrun
    exact ⟨free, h.inv.conserved hN hbs hnodup, fun b hb => h.counted hnodup hb⟩

theorem pool_conservation_three :
    ∃ pool, poolInit 64 3 80 4096 = some pool ∧ pool.blocksz = 128 ∧
      Laid 64 128 4096 pool.len 3 := by
  obtain ⟨pool, hinit, hsize, -, hlaid, -⟩ := pool_conservation 64 3 80 4096 (by decide)
    (by decide) (by decide) (by decide) ⟨by decide, by decide, by decide⟩
  rw [hsize] at hlaid
  exact ⟨pool, hinit, hsize, hlaid⟩

/-- Blocks of size 0 all have one address, so that it is handed out twice. With a size that
overflows, the second block lies behind the buffer. And a block of a pool has the reference count
that its memory had before, until it is allocated. -/
theorem pool_not_conserved :
    (∃ pool s, poolInit 64 2 0 4096 = some pool ∧
      Runs.run step ⟨pool, []⟩ [.get, .get] = some s ∧ s.out = [4096, 4096]) ∧
    (∃ pool, poolInit 64 2 (2 ^ 63 + 1) 4096 = some pool ∧ pool.len = 128 ∧
      blocks 4096 pool.blocksz 2 = [4096, 2 ^ 63 + 4160]) ∧
    ∃ pool s, poolInit 64 2 80 4096 = some pool ∧
      Runs.run sampleStep ⟨⟨pool, []⟩, fun _ => 7, fun _ => 0, []⟩ [.alloc] = some s ∧
      (poolGet s.blocks.pool).map Prod.snd = some (some 4224) ∧ s.refcnt 4224 ≠ 0 := by
  refine ⟨⟨_, _, rfl, rfl, by decide⟩, ⟨_, rfl, by decide, by decide⟩,
    ⟨_, _, rfl, rfl, by decide, by decide⟩⟩

end VillasNode.Blocks
