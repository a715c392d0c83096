import Mathlib.Tactic.Tauto
import Mathlib.Data.List.Nodup
import VillasNode.Managed.Model

/-!
# What one `alloc` or `free` does to the block list

`ListInv` is the shape of the list. Every branch of the allocator replaces the
blocks behind one block, so every branch is an instance of `ListInv.splice`.
-/

namespace VillasNode.Managed

/-- `hs` are the headers of the region in list order. `tight` says that the blocks also leave
no byte unaccounted for. -/
structure ListInv (tight : Prop) (m : MemoryType) (hs : List Nat) : Prop where
  head : hs.head? = some m.vd
  start : m.vd = m.ptr + sizeofMemoryType
  linked : Links.Seg (fun a => (m.block a).prev) (fun a => (m.block a).next) none hs none
  laid : ∀ b ∈ hs, b + sizeofMemoryBlock + (m.block b).length ≤ m.slotEnd b
  full : tight → ∀ b ∈ hs, b + sizeofMemoryBlock + (m.block b).length = m.slotEnd b

/-- The live allocations sit in used blocks, one each. -/
structure LiveInv (m : MemoryType) (hs : List Nat) (live : List MemoryAllocation) : Prop where
  block : ∀ a ∈ live, a.block ∈ hs ∧ (m.block a.block).used = true
  inSlot : ∀ a ∈ live, a.block + sizeofMemoryBlock ≤ a.address ∧
    a.address + a.length ≤ m.slotEnd a.block
  aligned : ∀ a ∈ live, a.address % a.alignment = 0
  distinct : (live.map (·.block)).Nodup

variable {tight : Prop} {m m' : MemoryType} {hs pre mid mid' post : List Nat} {b : Nat}
  {live : List MemoryAllocation}

/-! ## Order -/

theorem seg_ordered {p : Option Nat}
    (hseg : Links.Seg (fun a => (m.block a).prev) (fun a => (m.block a).next) p hs none)
    (hlaid : ∀ b ∈ hs, b + sizeofMemoryBlock + (m.block b).length ≤ m.slotEnd b) :
    hs.Pairwise fun x y => m.slotEnd x ≤ y := by
  induction hs generalizing p with
  | nil => exact .nil
  | cons a hs ih =>
    obtain ⟨_, hnext, hrest⟩ := hseg
    have ih := ih hrest fun b hb => hlaid b (by simp [hb])
    refine List.pairwise_cons.mpr ⟨?_, ih⟩
    intro y hy
    cases hs with
    | nil => simp at hy
    | cons c hs =>
      have hend : m.slotEnd a = c := by simp [MemoryType.slotEnd, hnext]
      rcases List.mem_cons.mp hy with rfl | hy
      · exact Nat.le_of_eq hend
      · have := (List.pairwise_cons.mp ih).1 y hy
        have := hlaid c (by simp)
        omega

theorem ListInv.ordered (h : ListInv tight m hs) : hs.Pairwise fun x y => m.slotEnd x ≤ y :=
  seg_ordered h.linked h.laid

theorem ListInv.before (h : ListInv tight m (pre ++ b :: post)) {x : Nat} (hx : x ∈ pre) :
    x + sizeofMemoryBlock ≤ b := by
  have hord := (List.pairwise_append.mp h.ordered).2.2 x hx b (by simp)
  have := h.laid x (by simp [hx])
  omega

theorem ListInv.after (h : ListInv tight m (pre ++ b :: post)) {x : Nat} (hx : x ∈ post) :
    m.slotEnd b ≤ x :=
  (List.pairwise_cons.mp (List.pairwise_append.mp h.ordered).2.1).1 x hx

theorem ListInv.slotEnd_le (h : ListInv tight m hs) {x y : Nat} (hx : x ∈ hs) (hy : y ∈ hs)
    (hxy : x < y) : m.slotEnd x ≤ y := by
  obtain ⟨pre, post, rfl⟩ := List.append_of_mem hx
  simp only [List.mem_append, List.mem_cons] at hy
  rcases hy with hy | rfl | hy
  · have := h.before hy
    omega
  · omega
  · exact h.after hy

theorem ListInv.nodup (h : ListInv tight m hs) : hs.Nodup := by
  rw [List.nodup_iff_pairwise_ne]
  refine h.ordered.imp_of_mem fun {x y} hx _ hxy => ?_
  have := h.laid x hx
  have : sizeofMemoryBlock = 32 := rfl
  omega

theorem ListInv.slotEnd_le_stop (h : ListInv tight m hs) (hb : b ∈ hs) : m.slotEnd b ≤ m.stop := by
  have key : ∀ {p : Option Nat} {l : List Nat},
      Links.Seg (fun a => (m.block a).prev) (fun a => (m.block a).next) p l none →
      (∀ x ∈ l, x ∈ hs) → ∀ x ∈ l, m.slotEnd x ≤ m.stop := by
    intro p l
    induction l generalizing p with
    | nil => simp
    | cons a l ih =>
      rintro ⟨_, hnext, hrest⟩ hsub x hx
      have ih := ih hrest fun y hy => hsub y (by simp [hy])
      rcases List.mem_cons.mp hx with rfl | hx
      · cases l with
        | nil => simp [MemoryType.slotEnd, hnext]
        | cons c l =>
          have hend : m.slotEnd x = c := by simp [MemoryType.slotEnd, hnext]
          have := ih c (by simp)
          have := h.laid c (hsub c (by simp))
          omega
      · exact ih x hx
  exact key h.linked (fun _ hx => hx) b hb

theorem ListInv.vd_le (h : ListInv tight m hs) (hb : b ∈ hs) : m.vd ≤ b := by
  cases hs with
  | nil => simp at hb
  | cons a hs =>
    have ha : a = m.vd := by simpa using h.head
    rcases List.mem_cons.mp hb with rfl | hb
    · exact Nat.le_of_eq ha.symm
    · have := (List.pairwise_cons.mp h.ordered).1 b hb
      have := h.laid a (by simp)
      omega

theorem ListInv.blocks_eq (h : ListInv tight m hs) : m.blocks = hs := by
  have hlen : ∀ {l : List Nat}, (l.Pairwise fun x y => x + sizeofMemoryBlock ≤ y) →
      ∀ lo hi, (∀ x ∈ l, lo ≤ x ∧ x + sizeofMemoryBlock ≤ hi) → l.length + lo ≤ max lo hi := by
    intro l
    induction l with
    | nil =>
      intro _ lo hi _
      simp only [List.length_nil]
      omega
    | cons a l ih =>
      intro hp lo hi hb
      obtain ⟨ha, hp⟩ := List.pairwise_cons.mp hp
      have := ih hp (a + sizeofMemoryBlock) hi fun x hx => ⟨ha x hx, (hb x (by simp [hx])).2⟩
      have := hb a (by simp)
      have : sizeofMemoryBlock = 32 := rfl
      simp only [List.length_cons]
      omega
  have hord : hs.Pairwise fun x y => x + sizeofMemoryBlock ≤ y := by
    refine h.ordered.imp_of_mem fun {x y} hx _ hxy => ?_
    have := h.laid x hx
    omega
  have hcount := hlen hord m.vd m.stop fun x hx => by
    have := h.vd_le hx
    have := h.laid x hx
    have := h.slotEnd_le_stop hx
    omega
  have hstart := h.start
  have hsz : sizeofMemoryType = 48 := rfl
  have hle : hs.length ≤ m.len := by
    simp only [MemoryType.stop] at hcount
    omega
  rw [MemoryType.blocks, ← h.head]
  exact h.linked.walk_eq hle

/-! ## The links of one block -/

theorem ListInv.next_eq (h : ListInv tight m (pre ++ b :: post)) :
    (m.block b).next = post.head? := by
  have := (Links.seg_append.mp h.linked).2.2.1
  simpa using this

theorem ListInv.prev_eq (h : ListInv tight m (pre ++ b :: post)) :
    (m.block b).prev = pre.getLast? := by
  have := (Links.seg_append.mp h.linked).2.1
  simpa using this

theorem next_ne {x : Nat} (hx : x < m.slotEnd b) : (m.block b).next ≠ some x := by
  intro hn
  have : m.slotEnd b = x := by simp [MemoryType.slotEnd, hn]
  omega

theorem ListInv.ne_head (h : ListInv tight m (pre ++ mid ++ post)) {x : Nat}
    (hx : x ∈ pre ++ post.tail) : some x ≠ post.head? := by
  have hnd := h.nodup
  cases post with
  | nil => simp
  | cons c post =>
    simp only [List.head?_cons, ne_eq, Option.some.injEq]
    rintro rfl
    simp only [List.tail_cons, List.mem_append] at hx
    simp only [List.append_assoc, List.nodup_append, List.nodup_cons, List.mem_append] at hnd
    rcases hx with hx | hx
    · exact hnd.2.2 x hx x (by simp) rfl
    · exact hnd.2.1.2.1.1 hx

/-! ## Replacing the blocks behind one block -/

/-- Outside of the replaced blocks only the back link of the first block of `post` changes. -/
structure Frame (m m' : MemoryType) (pre post : List Nat) : Prop where
  ptr : m'.ptr = m.ptr
  len : m'.len = m.len
  vd : m'.vd = m.vd
  next : ∀ x ∈ pre ++ post, (m'.block x).next = (m.block x).next
  length : ∀ x ∈ pre ++ post, (m'.block x).length = (m.block x).length
  used : ∀ x ∈ pre ++ post, (m'.block x).used = (m.block x).used
  prev : ∀ x ∈ pre ++ post.tail, (m'.block x).prev = (m.block x).prev

theorem ListInv.frame (h : ListInv tight m (pre ++ mid ++ post)) (hptr : m'.ptr = m.ptr)
    (hlen : m'.len = m.len) (hvd : m'.vd = m.vd)
    (hblock : ∀ x ∈ pre ++ post, m'.block x = m.block x ∨
      some x = post.head? ∧ ∃ p, m'.block x = { m.block x with prev := p }) :
    Frame m m' pre post := by
  refine ⟨hptr, hlen, hvd, ?_, ?_, ?_, ?_⟩
  · intro x hx
    rcases hblock x hx with heq | ⟨-, p, heq⟩ <;> rw [heq]
  · intro x hx
    rcases hblock x hx with heq | ⟨-, p, heq⟩ <;> rw [heq]
  · intro x hx
    rcases hblock x hx with heq | ⟨-, p, heq⟩ <;> rw [heq]
  · intro x hx
    have hmem : x ∈ pre ++ post := by
      rcases List.mem_append.mp hx with hx | hx
      · simp [hx]
      · simp [List.mem_of_mem_tail hx]
    rcases hblock x hmem with heq | ⟨hhead, -⟩
    · rw [heq]
    · exact absurd hhead (h.ne_head hx)

theorem Frame.stop (h : Frame m m' pre post) : m'.stop = m.stop := by
  simp [MemoryType.stop, h.ptr, h.len]

theorem Frame.slotEnd (h : Frame m m' pre post) {x : Nat} (hx : x ∈ pre ++ post) :
    m'.slotEnd x = m.slotEnd x := by
  simp [MemoryType.slotEnd, h.next x hx, h.stop]

theorem ListInv.splice (h : ListInv tight m (pre ++ b :: mid ++ post)) (hf : Frame m m' pre post)
    (hmid : Links.Seg (fun a => (m'.block a).prev) (fun a => (m'.block a).next) pre.getLast?
      (b :: mid') post.head?)
    (hpost : ∀ c ∈ post.head?, (m'.block c).prev = (b :: mid').getLast?)
    (hlaid : ∀ x ∈ b :: mid', x + sizeofMemoryBlock + (m'.block x).length ≤ m'.slotEnd x)
    (hfull : tight → ∀ x ∈ b :: mid',
      x + sizeofMemoryBlock + (m'.block x).length = m'.slotEnd x) :
    ListInv tight m' (pre ++ b :: mid' ++ post) := by
  have hsplit : ∀ x ∈ pre ++ b :: mid' ++ post, x ∈ pre ++ post ∨ x ∈ b :: mid' := by
    intro x hx
    simp only [List.mem_append] at hx ⊢
    tauto
  have hold : ∀ x ∈ pre ++ post, x ∈ pre ++ b :: mid ++ post := by
    intro x hx
    simp only [List.mem_append] at hx ⊢
    tauto
  refine ⟨?_, ?_, ?_, ?_, ?_⟩
  · have := h.head
    rw [hf.vd]
    cases pre <;> simpa using this
  · rw [hf.vd, hf.ptr]
    exact h.start
  · refine h.linked.splice ?_ hpost ?_ ?_ ?_
    · simpa using hmid
    · exact fun a ha => ⟨hf.prev a (by simp [ha]), hf.next a (by simp [ha])⟩
    · exact fun a ha => hf.prev a (by simp [ha])
    · exact fun a ha => hf.next a (by simp [ha])
  · intro x hx
    rcases hsplit x hx with hx | hx
    · rw [hf.length x hx, hf.slotEnd hx]
      exact h.laid x (hold x hx)
    · exact hlaid x hx
  · intro ht x hx
    rcases hsplit x hx with hx | hx
    · rw [hf.length x hx, hf.slotEnd hx]
      exact h.full ht x (hold x hx)
    · exact hfull ht x hx

theorem LiveInv.splice (h : LiveInv m hs live) (b : Nat) (mid' : List Nat)
    (hf : Frame m m' pre post)
    {live' : List MemoryAllocation} (hsub : live'.Sublist live)
    (hout : ∀ a ∈ live', a.block ∈ pre ++ post) : LiveInv m' (pre ++ b :: mid' ++ post) live' := by
  have hmem : ∀ a ∈ live', a ∈ live := fun a ha => hsub.subset ha
  refine ⟨?_, ?_, ?_, ?_⟩
  · intro a ha
    have hx := hout a ha
    refine ⟨?_, ?_⟩
    · simp only [List.mem_append] at hx ⊢
      tauto
    · rw [hf.used _ hx]
      exact (h.block a (hmem a ha)).2
  · intro a ha
    rw [hf.slotEnd (hout a ha)]
    exact h.inSlot a (hmem a ha)
  · exact fun a ha => h.aligned a (hmem a ha)
  · exact (hsub.map _).nodup h.distinct

end VillasNode.Managed
