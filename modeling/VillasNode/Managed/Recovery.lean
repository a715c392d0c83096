import Mathlib.Data.List.Chain
import VillasNode.Managed.Safety

/-!
# Full recovery of the managed memory

When nothing is live any more, the region is one free block again, if no call
took one of the branches of `Safety` and no `free` merged with its successor
only. That branch forgets to reset `used`: the merged block belongs to nobody
and is never handed out again.
-/

namespace VillasNode.Managed

variable {tight : Prop} {m m' : MemoryType} {s s' : Heap} {hs hs' pre post : List Nat}
  {b len alignment gap : Nat} {live : List MemoryAllocation} {ma : MemoryAllocation} {op : Op}

/-- A block that is merged with a free successor is merged with a free predecessor as well. -/
def MarksFree (s : Heap) : Op → Prop
  | .alloc _ _ => True
  | .free ma => unused s.mt (s.mt.block ma.block).next = none ∨
      unused s.mt (s.mt.block ma.block).prev ≠ none

instance (s : Heap) : ∀ op, Decidable (MarksFree s op)
  | .alloc _ _ => .isTrue trivial
  | .free _ => inferInstanceAs (Decidable (_ ∨ _))

/-! ## Free neighbours are merged -/

/-- Of two neighbours in `l`, one is used. -/
def Merged (u : Nat → Bool) (l : List Nat) : Prop := l.IsChain fun x y => u x = true ∨ u y = true

/-- Every used block is live, and no two free blocks are neighbours. -/
structure Settled (m : MemoryType) (hs : List Nat) (live : List MemoryAllocation) : Prop where
  owned : ∀ b ∈ hs, (m.block b).used = true → ∃ a ∈ live, a.block = b
  merged : Merged (fun b => (m.block b).used) hs

section Merged

variable {u u' : Nat → Bool}

theorem Merged.congr {l : List Nat} (h : Merged u l) (hsame : ∀ x ∈ l, u' x = u x) : Merged u' l := by
  refine h.imp_of_mem_imp fun x y hx hy hxy => ?_
  rw [hsame x hx, hsame y hy]
  exact hxy

theorem Merged.replace {mid : List Nat} (h : Merged u (pre ++ mid ++ post)) (seg : List Nat)
    (hleft : ∀ x ∈ pre.getLast?, u x = true) (hright : ∀ y ∈ post.head?, u y = true)
    (hsame : ∀ x ∈ pre ++ post, u' x = u x) (hseg : Merged u' seg) :
    Merged u' (pre ++ seg ++ post) := by
  obtain ⟨hpremid, hpost, -⟩ := List.isChain_append.mp h
  obtain ⟨hpre, -, -⟩ := List.isChain_append.mp hpremid
  have hpre' : Merged u' pre := Merged.congr hpre fun x hx => hsame x (by simp [hx])
  have hpost' : Merged u' post := Merged.congr hpost fun x hx => hsame x (by simp [hx])
  refine List.isChain_append.mpr ⟨List.isChain_append.mpr ⟨hpre', hseg, ?_⟩, hpost', ?_⟩
  · intro x hx y _
    left
    rw [hsame x (by simp [List.mem_of_getLast? hx])]
    exact hleft x hx
  · intro x _ y hy
    right
    rw [hsame y (by simp [List.mem_of_mem_head? hy])]
    exact hright y hy

theorem Merged.left {l : List Nat} (h : Merged u (pre ++ b :: l)) (hb : u b = false) :
    ∀ x ∈ pre.getLast?, u x = true := by
  intro x hx
  have := (List.isChain_append.mp h).2.2 x hx b (by simp)
  simpa [hb] using this

theorem Merged.right {l : List Nat} (h : Merged u (l ++ b :: post)) (hb : u b = false) :
    ∀ y ∈ post.head?, u y = true := by
  have h' : Merged u ((l ++ [b]) ++ post) := by simpa using h
  intro y hy
  have := (List.isChain_append.mp h').2.2 b (by simp) y hy
  simpa [hb] using this

end Merged

/-! ## `memory_managed_alloc` -/

theorem carve_settled (h : ListInv tight m (pre ++ b :: post)) (hgap : gap ≤ (m.block b).length)
    (hs : Settled m (pre ++ b :: post) live) (hused : (m.block b).used = false) :
    Settled (carve m len alignment b gap).1 (pre ++ b :: newBlocks m len b gap ++ post)
      ((carve m len alignment b gap).2 :: live) := by
  have hframe := carve_frame len alignment h hgap
  have hf (hg : sizeofMemoryBlock < gap) := carve_at_front len alignment h hg
  have hc := carve_at_carved len alignment h hgap
  have ht := carve_at_tail len alignment h hgap
  have hmerged : Merged (fun b => (m.block b).used) (pre ++ [b] ++ post) := by
    simpa using hs.merged
  constructor
  · intro x hx hxu
    have hmem : x ∈ pre ++ post ∨ x ∈ b :: newBlocks m len b gap := by
      rcases List.mem_append.mp hx with hx | hx
      · exact (List.mem_append.mp hx).imp_left (List.mem_append_left _)
      · exact .inl (List.mem_append_right _ hx)
    rcases hmem with hmem | hmem
    · rw [hframe.used x hmem] at hxu
      have hin : x ∈ pre ++ [b] ++ post := by
        rcases List.mem_append.mp hmem with hmem | hmem
        · exact List.mem_append_left _ (List.mem_append_left _ hmem)
        · exact List.mem_append_right _ hmem
      obtain ⟨a, ha, hab⟩ := hs.owned x (by simpa using hin) hxu
      exact ⟨a, List.mem_cons_of_mem _ ha, hab⟩
    · -- Of the new blocks only the one that is handed out is used.
      refine ⟨_, List.mem_cons_self, ?_⟩
      rw [carve_allocation]
      unfold newBlocks at hmem
      unfold carvedBlock at hc ⊢
      by_cases hg : sizeofMemoryBlock < gap <;>
        by_cases hr : len + sizeofMemoryBlock < (m.block b).length - gap <;>
        simp only [hg, hr, if_true, if_false, List.cons_append, List.nil_append, List.mem_cons,
          List.not_mem_nil, or_false] at hmem hc ⊢
      · rcases hmem with rfl | rfl | rfl
        · simp [hf hg, hused] at hxu
        · rfl
        · simp [ht hr] at hxu
      · rcases hmem with rfl | rfl
        · simp [hf hg, hused] at hxu
        · rfl
      · rcases hmem with rfl | rfl
        · rfl
        · simp [ht hr] at hxu
      · exact hmem.symm
  · refine hmerged.replace _ (hs.merged.left hused) (hs.merged.right hused)
      (fun x hx => hframe.used x hx) ?_
    unfold Merged newBlocks
    unfold carvedBlock at hc
    by_cases hg : sizeofMemoryBlock < gap <;>
      by_cases hr : len + sizeofMemoryBlock < (m.block b).length - gap <;>
      simp only [hg, hr, if_true, if_false] at hc ⊢ <;> simp [hc]

/-! ## `memory_managed_free` -/

theorem owned_erase {x : Nat} (howned : ∃ a ∈ live, a.block = x) (hne : x ≠ ma.block) :
    ∃ a ∈ live.erase ma, a.block = x := by
  obtain ⟨a, ha, rfl⟩ := howned
  refine ⟨a, (List.mem_erase_of_ne ?_).mpr ha, rfl⟩
  rintro rfl
  exact hne rfl

theorem absorb_settled {p l : Nat} {mid : List Nat} (h : ListInv tight m (pre ++ p :: mid ++ post))
    (hs : Settled m (pre ++ p :: mid ++ post) live) (hp : (m.block p).used = false)
    (hmid : ma.block ∈ p :: mid) (hright : ∀ y ∈ post.head?, (m.block y).used = true) :
    Settled (absorb m p l post.head?) (pre ++ p :: post) (live.erase ma) := by
  have hframe := absorb_frame (l := l) p mid h
  have hat := absorb_at (l := l) p mid h
  have hmerged : Merged (fun b => (m.block b).used) (pre ++ (p :: mid) ++ post) := hs.merged
  have hout : ∀ x ∈ pre ++ post, x ∉ p :: mid := by
    have hnd := h.nodup
    simp only [List.nodup_append, List.mem_append] at hnd
    intro x hx hxm
    rcases List.mem_append.mp hx with hx | hx
    · exact hnd.1.2.2 x hx x hxm rfl
    · exact hnd.2.2 x (.inr hxm) x hx rfl
  constructor
  · intro x hx hxu
    have hmem : x ∈ pre ++ post ∨ x = p := by
      rcases List.mem_append.mp hx with hx | hx
      · exact .inl (List.mem_append_left _ hx)
      · exact (List.mem_cons.mp hx).symm.imp_left (List.mem_append_right _)
    rcases hmem with hmem | rfl
    · rw [hframe.used x hmem] at hxu
      have hin : x ∈ pre ++ p :: mid ++ post := by
        rcases List.mem_append.mp hmem with hmem | hmem
        · exact List.mem_append_left _ (List.mem_append_left _ hmem)
        · exact List.mem_append_right _ hmem
      refine owned_erase (hs.owned x hin hxu) ?_
      rintro rfl
      exact hout _ hmem hmid
    · simp [hat, hp] at hxu
  · have hleft := Merged.left (l := mid ++ post) (by simpa using hs.merged) hp
    have hreplace := hmerged.replace [p] hleft hright
      (fun x hx => hframe.used x hx) (List.isChain_singleton p)
    simpa using hreplace

theorem setUsed_settled (h : ListInv tight m (pre ++ b :: post)) (hs : Settled m (pre ++ b :: post) live)
    (hma : ma.block = b) (hleft : ∀ x ∈ pre.getLast?, (m.block x).used = true)
    (hright : ∀ y ∈ post.head?, (m.block y).used = true) :
    Settled (m.setUsed b false) (pre ++ b :: post) (live.erase ma) := by
  have hmerged : Merged (fun b => (m.block b).used) (pre ++ [b] ++ post) := by
    simpa using hs.merged
  have hsame : ∀ x ∈ pre ++ post, ((m.setUsed b false).block x).used = (m.block x).used := by
    intro x hx
    have hne : x ≠ b := outside_ne b [] (by simpa using h) hx
    simp [hne]
  constructor
  · intro x hx hxu
    have hxb : x ≠ b := by
      rintro rfl
      simp at hxu
    rw [MemoryType.setUsed_block, if_neg hxb] at hxu
    exact owned_erase (hs.owned x hx hxu) (hma ▸ hxb)
  · have hreplace := hmerged.replace [b] hleft hright hsame (List.isChain_singleton b)
    simpa using hreplace

theorem ListInv.unique (h : ListInv tight m hs) (h' : ListInv tight m hs') :
    hs' = hs := h'.blocks_eq.symm.trans h.blocks_eq

theorem free_settled (h : ListInv tight m hs) (hset : Settled m hs live) (hma : ma.block ∈ hs)
    (hmarks : unused m (m.block ma.block).next = none ∨ unused m (m.block ma.block).prev ≠ none)
    (h' : ListInv tight (memoryManagedFree m ma) hs') :
    Settled (memoryManagedFree m ma) hs' (live.erase ma) := by
  rcases free_cases h hma with ⟨pre, mid, post, x, l, hab⟩ | ⟨hp, hn, halone⟩
  · obtain rfl := hab.split
    rw [hab.result] at h' ⊢
    obtain rfl := (absorb_list x mid h hab.le hab.full).unique h'
    have hx : (m.block x).used = false := by
      rcases hab.front with hx | ⟨hp, hn⟩
      · exact hx
      · rcases hmarks with hmarks | hmarks
        · exact absurd hmarks hn
        · exact absurd hp hmarks
    refine absorb_settled h hset hx hab.freed ?_
    rcases hab.behind with hbehind | ⟨y, hy, hyu⟩
    · exact hbehind
    · obtain ⟨l, hl⟩ := eq_concat_of_getLast hy
      refine Merged.right (u := fun b => (m.block b).used) (l := pre ++ l) ?_ hyu
      have := hset.merged
      rw [List.append_assoc, hl] at this
      simpa using this
  · obtain ⟨pre, post, rfl⟩ := List.append_of_mem hma
    rw [halone] at h' ⊢
    have hlist : (m.setUsed ma.block false).blocks = m.blocks := by
      unfold MemoryType.blocks
      congr 1
      funext x
      rw [MemoryType.setUsed_block]
      split <;> rfl
    obtain rfl : hs' = pre ++ ma.block :: post := by rw [← h'.blocks_eq, hlist, h.blocks_eq]
    rw [h.prev_eq] at hp
    rw [h.next_eq] at hn
    exact setUsed_settled h hset rfl (unused_none hp) (unused_none hn)

/-! ## Runs -/

def Recovers (s : Heap) (op : Op) : Prop := KeepsLinks s op ∧ KeepsBytes s op ∧ MarksFree s op

instance (s : Heap) (op : Op) : Decidable (Recovers s op) := inferInstanceAs (Decidable (_ ∧ _))

theorem step_settled (h : ListInv True s.mt hs) (hl : LiveInv s.mt hs s.live)
    (hset : Settled s.mt hs s.live) (hrec : Recovers s op) (hstep : step s op = some s')
    (h' : ListInv True s'.mt hs') : Settled s'.mt hs' s'.live := by
  obtain ⟨hlinks, hbytes, hmarks⟩ := hrec
  rcases step_cases hstep with ⟨l, al, rfl, -, rfl⟩ | ⟨l, al, b, gap, rfl, hal, hf, rfl⟩ | ⟨ma, rfl, hma, rfl⟩
  · rw [h.unique h']
    exact hset
  · obtain ⟨hmem, hfit⟩ := firstFit_spec hf
    obtain ⟨hused, hgap, hlen, -⟩ := fit_spec hal hfit
    rw [h.blocks_eq] at hmem
    obtain ⟨pre, post, rfl⟩ := List.append_of_mem hmem
    have hcarve := carve_list l al h hgap hlen (keepsLinks_post h hlinks hf) fun _ => hbytes (b, gap) hf
    rw [hcarve.unique h']
    exact carve_settled h hgap hset hused
  · exact free_settled h hset (hl.block ma hma).1 hmarks h'

theorem memoryManaged_unused {garbage : Nat → MemoryBlock} {ptr : Nat}
    (hm : memoryManaged garbage ptr len = some m) : (m.block m.vd).used = false := by
  unfold memoryManaged at hm
  split at hm
  · simp at hm
  · cases hm
    simp

theorem memoryManaged_settled {garbage : Nat → MemoryBlock} {ptr : Nat}
    (hm : memoryManaged garbage ptr len = some m) :
    (m.ptr = ptr ∧ m.len = len) ∧
      ∃ hs, ListInv True m hs ∧ LiveInv m hs [] ∧ Settled m hs [] := by
  obtain ⟨hptr, hlen, hinv⟩ : m.ptr = ptr ∧ m.len = len ∧ ListInv True m [ptr + sizeofMemoryType] :=
    memoryManaged_inv hm
  have hused : (m.block (ptr + sizeofMemoryType)).used = false := by
    rw [← hptr, ← hinv.start]
    exact memoryManaged_unused hm
  refine ⟨⟨hptr, hlen⟩, _, hinv, ⟨by simp, by simp, by simp, by simp⟩, ?_, List.isChain_singleton _⟩
  simp [hused]

theorem run_settled {garbage : Nat → MemoryBlock} {ptr : Nat} {ops : List Op}
    (hm : memoryManaged garbage ptr len = some m) (hgood : Runs.Along step Recovers ⟨m, []⟩ ops)
    (hrun : Runs.run step ⟨m, []⟩ ops = some s) :
    (s.mt.ptr = ptr ∧ s.mt.len = len) ∧
      ∃ hs, ListInv True s.mt hs ∧ LiveInv s.mt hs s.live ∧ Settled s.mt hs s.live := by
  apply Runs.invariant (I := fun s : Heap => (s.mt.ptr = ptr ∧ s.mt.len = len) ∧
    ∃ hs, ListInv True s.mt hs ∧ LiveInv s.mt hs s.live ∧ Settled s.mt hs s.live) ?_
    (memoryManaged_settled hm) hgood hrun
  rintro s op s' ⟨hreg, hs, h, hl, hset⟩ hrec hstep
  have hreg' := step_region hstep
  obtain ⟨hs', h', hl'⟩ := step_inv h hl hrec.1 (fun _ => hrec.2.1) hstep
  exact ⟨⟨hreg'.1.trans hreg.1, hreg'.2.trans hreg.2⟩, hs', h', hl', step_settled h hl hset hrec hstep h'⟩

theorem Settled.single (hset : Settled m hs []) (hvd : hs.head? = some m.vd) :
    hs = [m.vd] ∧ (m.block m.vd).used = false := by
  have hunused : ∀ b ∈ hs, (m.block b).used = false := by
    intro b hb
    rw [← Bool.not_eq_true]
    intro hu
    obtain ⟨a, ha, -⟩ := hset.owned b hb hu
    simp at ha
  obtain ⟨post, rfl⟩ := eq_cons_of_head hvd
  cases post with
  | nil => exact ⟨rfl, hunused m.vd (by simp)⟩
  | cons c post =>
    have hmerged := (List.isChain_cons_cons.mp hset.merged).1
    simp [hunused m.vd (by simp), hunused c (by simp)] at hmerged

theorem ListInv.single (h : ListInv True m [m.vd]) (hused : (m.block m.vd).used = false) :
    m.block m.vd = { prev := none, next := none, used := false
                     length := m.len - (sizeofMemoryType + sizeofMemoryBlock) } := by
  have hlink : (m.block m.vd).prev = none ∧ (m.block m.vd).next = none := by
    simpa [Links.seg_cons] using h.linked
  have hfull := h.full trivial m.vd (by simp)
  have hstart := h.start
  simp only [MemoryType.slotEnd, hlink.2, Option.getD_none, MemoryType.stop] at hfull
  have hlength : (m.block m.vd).length = m.len - (sizeofMemoryType + sizeofMemoryBlock) := by omega
  generalize m.block m.vd = block at hlink hused hlength ⊢
  obtain ⟨prev, next, length, used⟩ := block
  simp only at hlink hused hlength
  rw [hlink.1, hlink.2, hused, hlength]

structure Recovered (m m' : MemoryType) : Prop where
  single : m'.blocks = [m.vd]
  block : m'.block m.vd = m.block m.vd
  free : (m'.block m.vd).used = false
  requests : ∀ l alignment, (memoryManagedAlloc m l alignment).isSome →
    (memoryManagedAlloc m' l alignment).isSome

theorem recovered_of_inv (h : ListInv True m hs) (hset : Settled m hs [])
    (h' : ListInv True m' hs') (hset' : Settled m' hs' []) (hptr : m'.ptr = m.ptr)
    (hlen : m'.len = m.len) : Recovered m m' := by
  obtain ⟨rfl, hused⟩ := hset.single h.head
  obtain ⟨rfl, hused'⟩ := hset'.single h'.head
  have hvd : m'.vd = m.vd := by rw [h'.start, h.start, hptr]
  have hblock : m'.block m.vd = m.block m.vd := by
    have hb := h.single hused
    have hb' := h'.single hused'
    rw [hvd, hlen] at hb'
    rw [hb, hb']
  have hblocks : m'.blocks = m.blocks := by rw [h.blocks_eq, h'.blocks_eq, hvd]
  refine ⟨by rw [h'.blocks_eq, hvd], hblock, by rw [hblock, hused], ?_⟩
  intro l alignment hsome
  -- A request reads nothing but the one block.
  have hfit : firstFit m' l alignment = firstFit m l alignment := by
    unfold firstFit
    rw [hblocks, h.blocks_eq]
    simp [fit, hblock]
  unfold memoryManagedAlloc at hsome ⊢
  rw [Option.isSome_map] at hsome ⊢
  rw [hfit]
  exact hsome

/-- In a history in which no call forgets a back link, drops a gap or leaves a merged block marked as
used, the region is one free block again when nothing is live. -/
theorem region_recovers {garbage : Nat → MemoryBlock} {ptr : Nat} {ops : List Op}
    (hm : memoryManaged garbage ptr len = some m) (hgood : Runs.Along step Recovers ⟨m, []⟩ ops)
    (hrun : Runs.run step ⟨m, []⟩ ops = some s) (hlive : s.live = []) : Recovered m s.mt := by
  obtain ⟨⟨hptr, hlen⟩, hs, h, -, hset⟩ := run_settled hm hgood hrun
  obtain ⟨⟨hptr₀, hlen₀⟩, hs₀, h₀, -, hset₀⟩ := memoryManaged_settled hm
  rw [hlive] at hset
  exact recovered_of_inv h₀ hset₀ h hset (hptr.trans hptr₀.symm) (hlen.trans hlen₀.symm)

theorem region_recovers_behind_gap :
    ∃ s, Runs.run step ⟨exampleRegion, []⟩ [.alloc 100 128, .free ⟨128, 128, 100, 96⟩] = some s ∧
      Recovered exampleRegion s.mt := by
  have hgood : Runs.Along step Recovers ⟨exampleRegion, []⟩
      [.alloc 100 128, .free ⟨128, 128, 100, 96⟩] := by
    decide
  have hm : memoryManaged (fun _ => ⟨none, none, 0, false⟩) 0 1000 = some exampleRegion := rfl
  exact ⟨_, rfl, region_recovers hm hgood rfl (by decide)⟩

/-- One allocation and its `free`. -/
theorem region_lost :
    ∃ s, Runs.run step ⟨exampleRegion, []⟩ [.alloc 100 1, .free ⟨80, 1, 100, 48⟩] = some s ∧
      s.live = [] ∧ s.mt.blocks = [48] ∧ (s.mt.block 48).used = true ∧
      (memoryManagedAlloc exampleRegion 100 1).isSome ∧ ¬ (memoryManagedAlloc s.mt 100 1).isSome ∧
      ¬ Recovered exampleRegion s.mt := by
  refine ⟨_, rfl, by decide, by decide, by decide, by decide, by decide, ?_⟩
  intro h
  exact absurd h.free (by decide)

end VillasNode.Managed
