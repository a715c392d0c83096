import VillasNode.Managed.Steps

/-!
# No overlap, and a well formed block list

Two branches of `memory_managed_alloc` go wrong.

* The block is split in front but not behind. Its old successor keeps pointing
  back to the front block. When the successor is freed later, the front block
  grows over the allocation in between.
* A gap that is too small for a descriptor is dropped from the length of a
  block that is not split behind. These bytes belong to no block any more.

`KeepsLinks` and `KeepsBytes` say that a call takes neither.
-/

namespace VillasNode.Managed

variable {tight : Prop} {s s' : Heap} {hs : List Nat} {op : Op}

/-- A split in front of a block with a successor is followed by a split behind it. -/
def KeepsLinks (s : Heap) : Op → Prop
  | .alloc len alignment => ∀ f ∈ firstFit s.mt len alignment, sizeofMemoryBlock < f.2 →
      (s.mt.block f.1).next = none ∨ len + sizeofMemoryBlock < (s.mt.block f.1).length - f.2
  | .free _ => True

/-- A small gap occurs only in a block that is split behind. -/
def KeepsBytes (s : Heap) : Op → Prop
  | .alloc len alignment => ∀ f ∈ firstFit s.mt len alignment, f.2 = 0 ∨ sizeofMemoryBlock < f.2 ∨
      len + sizeofMemoryBlock < (s.mt.block f.1).length - f.2
  | .free _ => True

instance (s : Heap) : ∀ op, Decidable (KeepsLinks s op)
  | .alloc len alignment => inferInstanceAs (Decidable (∀ f ∈ firstFit s.mt len alignment, _))
  | .free _ => .isTrue trivial

instance (s : Heap) : ∀ op, Decidable (KeepsBytes s op)
  | .alloc len alignment => inferInstanceAs (Decidable (∀ f ∈ firstFit s.mt len alignment, _))
  | .free _ => .isTrue trivial

/-! ## One step, one run -/

theorem firstFit_spec {m : MemoryType} {len alignment b gap : Nat}
    (h : firstFit m len alignment = some (b, gap)) :
    b ∈ m.blocks ∧ fit m len alignment b = some gap := by
  unfold firstFit at h
  obtain ⟨c, hc, hf⟩ := List.exists_of_findSome?_eq_some h
  obtain ⟨g, hg, he⟩ := Option.map_eq_some_iff.mp hf
  cases he
  exact ⟨hc, hg⟩

theorem step_cases (hstep : step s op = some s') :
    (∃ len alignment, op = .alloc len alignment ∧ firstFit s.mt len alignment = none ∧ s' = s) ∨
    (∃ len alignment b gap, op = .alloc len alignment ∧ alignment ≠ 0 ∧
      firstFit s.mt len alignment = some (b, gap) ∧
      s' = { mt := (carve s.mt len alignment b gap).1
             live := (carve s.mt len alignment b gap).2 :: s.live }) ∨
    (∃ ma, op = .free ma ∧ ma ∈ s.live ∧
      s' = { mt := memoryManagedFree s.mt ma, live := s.live.erase ma }) := by
  cases op with
  | alloc len alignment =>
    simp only [step] at hstep
    split at hstep
    · simp at hstep
    · rename_i hal
      unfold memoryManagedAlloc at hstep
      cases hf : firstFit s.mt len alignment with
      | none =>
        simp only [hf, Option.map_none] at hstep
        cases hstep
        exact .inl ⟨len, alignment, rfl, hf, rfl⟩
      | some f =>
        obtain ⟨b, gap⟩ := f
        simp only [hf, Option.map_some] at hstep
        cases hstep
        exact .inr (.inl ⟨len, alignment, b, gap, rfl, hal, hf, rfl⟩)
  | free ma =>
    simp only [step] at hstep
    split at hstep
    · rename_i hma
      cases hstep
      exact .inr (.inr ⟨ma, rfl, hma, rfl⟩)
    · simp at hstep

theorem keepsLinks_post {pre post : List Nat} {b len alignment gap : Nat}
    (h : ListInv tight s.mt (pre ++ b :: post)) (hk : KeepsLinks s (.alloc len alignment))
    (hf : firstFit s.mt len alignment = some (b, gap)) (hg : sizeofMemoryBlock < gap) :
    post = [] ∨ len + sizeofMemoryBlock < (s.mt.block b).length - gap := by
  have := hk (b, gap) hf hg
  simpa [h.next_eq] using this

theorem step_inv (h : ListInv tight s.mt hs) (hl : LiveInv s.mt hs s.live) (hk : KeepsLinks s op)
    (hb : tight → KeepsBytes s op) (hstep : step s op = some s') :
    ∃ hs', ListInv tight s'.mt hs' ∧ LiveInv s'.mt hs' s'.live := by
  rcases step_cases hstep with ⟨len, alignment, rfl, -, rfl⟩ |
    ⟨len, alignment, b, gap, rfl, hal, hf, rfl⟩ | ⟨ma, rfl, hma, rfl⟩
  · exact ⟨hs, h, hl⟩
  · obtain ⟨hmem, hfit⟩ := firstFit_spec hf
    obtain ⟨hused, hgap, hlen, hmod⟩ := fit_spec hal hfit
    rw [h.blocks_eq] at hmem
    obtain ⟨pre, post, rfl⟩ := List.append_of_mem hmem
    have hbytes : tight → _ := fun ht => hb ht (b, gap) hf
    exact ⟨_, carve_list len alignment h hgap hlen (keepsLinks_post h hk hf) hbytes,
      carve_live len alignment h hgap hl hused hlen hmod⟩
  · exact free_inv h hl hma

theorem memoryManaged_inv {garbage : Nat → MemoryBlock} {ptr len : Nat} {m : MemoryType}
    (hm : memoryManaged garbage ptr len = some m) :
    m.ptr = ptr ∧ m.len = len ∧ ListInv tight m [ptr + sizeofMemoryType] := by
  have h₁ : align sizeofMemoryType sizeofPointer = sizeofMemoryType := by decide
  have h₂ : align sizeofMemoryBlock sizeofPointer = sizeofMemoryBlock := by decide
  unfold memoryManaged at hm
  split at hm
  · simp at hm
  · cases hm
    rw [h₁, h₂]
    refine ⟨rfl, rfl, ⟨rfl, rfl, ?_, ?_, ?_⟩⟩
    · simp [Links.seg_cons]
    · simp [MemoryType.slotEnd, MemoryType.stop]
      omega
    · simp [MemoryType.slotEnd, MemoryType.stop]
      omega

theorem free_region (m : MemoryType) (ma : MemoryAllocation) :
    (memoryManagedFree m ma).ptr = m.ptr ∧ (memoryManagedFree m ma).len = m.len := by
  cases hp : unused m (m.block ma.block).prev with
  | some p =>
    cases hn : unused m (m.block ma.block).next with
    | some n => simp [free_both hp hn, absorb]
    | none => simp [free_prev hp hn, absorb]
  | none =>
    cases hn : unused m (m.block ma.block).next with
    | some n => simp [free_next hp hn, absorb]
    | none => simp [free_alone hp hn]

theorem step_region (hstep : step s op = some s') :
    s'.mt.ptr = s.mt.ptr ∧ s'.mt.len = s.mt.len := by
  rcases step_cases hstep with ⟨len, alignment, -, -, rfl⟩ |
    ⟨len, alignment, b, gap, -, -, -, rfl⟩ | ⟨ma, -, -, rfl⟩
  · exact ⟨rfl, rfl⟩
  · have hreg := carve_region s.mt len alignment b gap
    exact ⟨hreg.1, hreg.2.1⟩
  · exact free_region s.mt ma

theorem run_inv (tight : Prop) {garbage : Nat → MemoryBlock} {ptr len : Nat} {m : MemoryType}
    {ops : List Op} (hm : memoryManaged garbage ptr len = some m)
    (hgood : Runs.Along step (fun s op => KeepsLinks s op ∧ (tight → KeepsBytes s op)) ⟨m, []⟩ ops)
    (hrun : Runs.run step ⟨m, []⟩ ops = some s) :
    (s.mt.ptr = ptr ∧ s.mt.len = len) ∧
      ∃ hs, ListInv tight s.mt hs ∧ LiveInv s.mt hs s.live := by
  obtain ⟨hptr, hlen, hinv⟩ := memoryManaged_inv hm
  have hinit : LiveInv m [ptr + sizeofMemoryType] [] := ⟨by simp, by simp, by simp, by simp⟩
  apply Runs.invariant (I := fun s : Heap => (s.mt.ptr = ptr ∧ s.mt.len = len) ∧
    ∃ hs, ListInv tight s.mt hs ∧ LiveInv s.mt hs s.live) ?_ ⟨⟨hptr, hlen⟩, _, hinv, hinit⟩ hgood hrun
  rintro s op s' ⟨hreg, hs, h, hl⟩ ⟨hk, hb⟩ hstep
  have hreg' := step_region hstep
  exact ⟨⟨hreg'.1.trans hreg.1, hreg'.2.trans hreg.2⟩, step_inv h hl hk hb hstep⟩

/-! ## No overlap -/

/-- The ranges `[a, a + n)` and `[b, b + k)` have no byte in common. -/
def Apart (a n b k : Nat) : Prop := a + n ≤ b ∨ b + k ≤ a

instance (a n b k : Nat) : Decidable (Apart a n b k) :=
  inferInstanceAs (Decidable (_ ∨ _))

structure NoOverlap (ptr len : Nat) (s : Heap) : Prop where
  inside : ∀ a ∈ s.live, ptr ≤ a.address ∧ a.address + a.length ≤ ptr + len
  aligned : ∀ a ∈ s.live, a.address % a.alignment = 0
  headers : ∀ a ∈ s.live, ∀ b ∈ s.mt.blocks, Apart a.address a.length b sizeofMemoryBlock
  pairwise : s.live.Pairwise fun a b => Apart a.address a.length b.address b.length

theorem noOverlap_of_inv (h : ListInv tight s.mt hs) (hl : LiveInv s.mt hs s.live) :
    NoOverlap s.mt.ptr s.mt.len s := by
  have hhdr : ∀ x ∈ hs, x + sizeofMemoryBlock ≤ s.mt.slotEnd x := by
    intro x hx
    have := h.laid x hx
    omega
  refine ⟨?_, hl.aligned, ?_, ?_⟩
  · intro a ha
    have hin := (hl.block a ha).1
    have hslot := hl.inSlot a ha
    have hvd := h.vd_le hin
    have hstop := h.slotEnd_le_stop hin
    have hstart := h.start
    unfold MemoryType.stop at hstop
    omega
  · intro a ha x hx
    rw [h.blocks_eq] at hx
    have hin := (hl.block a ha).1
    have hslot := hl.inSlot a ha
    have hx' := hhdr x hx
    unfold Apart
    rcases Nat.lt_trichotomy a.block x with hlt | rfl | hlt
    · have := h.slotEnd_le hin hx hlt
      omega
    · omega
    · have := h.slotEnd_le hx hin hlt
      omega
  · refine (List.pairwise_map.mp hl.distinct).imp_of_mem fun {a c} ha hc hne => ?_
    have ha₁ := (hl.block a ha).1
    have hc₁ := (hl.block c hc).1
    have ha₂ := hl.inSlot a ha
    have hc₂ := hl.inSlot c hc
    unfold Apart
    rcases Nat.lt_or_gt_of_ne hne with hlt | hlt
    · have := h.slotEnd_le ha₁ hc₁ hlt
      omega
    · have := h.slotEnd_le hc₁ ha₁ hlt
      omega

/-- Every allocation of a history in which no call forgets a back link is the range that was
asked for, inside the region, aligned, and apart from all headers and from all other live
allocations. -/
theorem alloc_no_overlap {garbage : Nat → MemoryBlock} {ptr len : Nat} {m : MemoryType}
    {ops : List Op} (hm : memoryManaged garbage ptr len = some m)
    (hgood : Runs.Along step KeepsLinks ⟨m, []⟩ ops)
    (hrun : Runs.run step ⟨m, []⟩ ops = some s) :
    NoOverlap ptr len s ∧
      ∀ l alignment m' ma, memoryManagedAlloc s.mt l alignment = some (m', ma) →
        ma.length = l ∧ ma.alignment = alignment := by
  have hgood' : Runs.Along step (fun s op => KeepsLinks s op ∧ (False → KeepsBytes s op))
      ⟨m, []⟩ ops := hgood.mono fun s op hk => ⟨hk, False.elim⟩
  obtain ⟨⟨hptr, hlen⟩, hs, h, hl⟩ := run_inv False hm hgood' hrun
  constructor
  · rw [← hptr, ← hlen]
    exact noOverlap_of_inv h hl
  · intro l alignment m' ma halloc
    unfold memoryManagedAlloc at halloc
    obtain ⟨⟨b, gap⟩, _, hf⟩ := Option.map_eq_some_iff.mp halloc
    have hma : (carve s.mt l alignment b gap).2 = ma := congrArg Prod.snd hf
    rw [← hma, carve_allocation]
    exact ⟨rfl, rfl⟩

def exampleRegion : MemoryType :=
  let zero : MemoryBlock := { prev := none, next := none, length := 0, used := false }
  (memoryManaged (fun _ => zero) 0 1000).getD ⟨0, 0, 0, fun _ => zero⟩

theorem alloc_no_overlap_after_split :
    ∃ s, Runs.run step ⟨exampleRegion, []⟩ [.alloc 200 1, .alloc 100 64] = some s ∧
      NoOverlap 0 1000 s := by
  have hgood : Runs.Along step KeepsLinks ⟨exampleRegion, []⟩ [.alloc 200 1, .alloc 100 64] := by
    decide
  exact ⟨_, rfl, (alloc_no_overlap rfl hgood rfl).1⟩

/-- The block of 152 bytes fills its slot up to the block of 100 bytes, whose back link skips it.
Freeing the latter lets the front block grow over the former, which is still live. -/
def overlapOps : List Op :=
  [.alloc 200 1, .alloc 100 1, .free ⟨80, 1, 200, 48⟩, .alloc 152 128, .free ⟨312, 1, 100, 280⟩,
    .alloc 64 1]

theorem alloc_overlaps_live :
    ∃ s, Runs.run step ⟨exampleRegion, []⟩ overlapOps = some s ∧
      ⟨80, 1, 64, 48⟩ ∈ s.live ∧ ⟨128, 128, 152, 96⟩ ∈ s.live ∧ ¬ NoOverlap 0 1000 s := by
  refine ⟨_, rfl, by decide, by decide, ?_⟩
  intro h
  exact absurd h.pairwise (by decide)

/-! ## The block list -/

structure WellFormed (ptr len : Nat) (m : MemoryType) : Prop where
  first : (m.block m.vd).prev = none
  links : ∀ b ∈ m.blocks, ∀ n, (m.block b).next = some n → n ∈ m.blocks ∧ (m.block n).prev = some b
  ordered : m.blocks.Pairwise (· < ·)
  start : m.vd = ptr + sizeofMemoryType
  tiles : ∀ b ∈ m.blocks, b + sizeofMemoryBlock + (m.block b).length =
    (m.block b).next.getD (ptr + len)

theorem wellFormed_of_inv {m : MemoryType} (h : ListInv True m hs) :
    WellFormed m.ptr m.len m := by
  have hblocks := h.blocks_eq
  refine ⟨?_, ?_, ?_, h.start, ?_⟩
  · cases hs with
    | nil => simpa using h.head
    | cons a hs =>
      have ha : a = m.vd := by simpa using h.head
      rw [← ha]
      exact h.linked.1
  · intro b hb n hn
    rw [hblocks] at hb ⊢
    exact h.linked.prev_of_next hb hn
  · rw [hblocks]
    refine h.ordered.imp_of_mem fun {x y} hx _ hxy => ?_
    have := h.laid x hx
    have : sizeofMemoryBlock = 32 := rfl
    omega
  · intro b hb
    rw [hblocks] at hb
    exact h.full trivial b hb

/-- In a history in which no call forgets a back link or drops a gap, the block list is doubly
linked, in address order, and tiles the region. -/
theorem block_list_well_formed {garbage : Nat → MemoryBlock} {ptr len : Nat} {m : MemoryType}
    {ops : List Op} (hm : memoryManaged garbage ptr len = some m)
    (hgood : Runs.Along step (fun s op => KeepsLinks s op ∧ KeepsBytes s op) ⟨m, []⟩ ops)
    (hrun : Runs.run step ⟨m, []⟩ ops = some s) : WellFormed ptr len s.mt := by
  have hgood' : Runs.Along step (fun s op => KeepsLinks s op ∧ (True → KeepsBytes s op))
      ⟨m, []⟩ ops := hgood.mono fun s op hk => ⟨hk.1, fun _ => hk.2⟩
  obtain ⟨⟨hptr, hlen⟩, hs, h, _⟩ := run_inv True hm hgood' hrun
  rw [← hptr, ← hlen]
  exact wellFormed_of_inv h

theorem block_list_well_formed_after_free :
    ∃ s, Runs.run step ⟨exampleRegion, []⟩
        [.alloc 200 1, .alloc 100 64, .free ⟨80, 1, 200, 48⟩] = some s ∧
      WellFormed 0 1000 s.mt := by
  have hgood : Runs.Along step (fun s op => KeepsLinks s op ∧ KeepsBytes s op)
      ⟨exampleRegion, []⟩ [.alloc 200 1, .alloc 100 64, .free ⟨80, 1, 200, 48⟩] := by
    decide
  exact ⟨_, rfl, block_list_well_formed rfl hgood rfl⟩

/-- After the fourth call the block at 280 follows the one at 96 but points back to the one at 48.
One aligned allocation of a whole region loses 16 bytes of it. -/
theorem block_list_broken :
    (∃ s, Runs.run step ⟨exampleRegion, []⟩ (overlapOps.take 4) = some s ∧
      (s.mt.block 96).next = some 280 ∧ (s.mt.block 280).prev = some 48 ∧
      ¬ WellFormed 0 1000 s.mt) ∧
    (∃ s, Runs.run step ⟨exampleRegion, []⟩ [.alloc 904 96] = some s ∧ s.mt.blocks = [48] ∧
      (s.mt.block 48).length = 904 ∧ ¬ WellFormed 0 1000 s.mt) := by
  constructor
  · refine ⟨_, rfl, by decide, by decide, ?_⟩
    intro h
    have := (h.links 96 (by decide) 280 (by decide)).2
    exact absurd this (by decide)
  · refine ⟨_, rfl, by decide, by decide, ?_⟩
    intro h
    exact absurd (h.tiles 48 (by decide)) (by decide)

end VillasNode.Managed
