import VillasNode.Lib.Runs
import VillasNode.Managed.Invariant

/-!
# The allocator keeps the block list

`carve` has four branches: with or without a block in front for the alignment
gap, with or without a block behind for the remainder. `memory_managed_free`
has four as well.
-/

namespace VillasNode.Managed

variable {tight : Prop} {m m' : MemoryType} {hs pre post : List Nat} {b len alignment gap : Nat}
  {live : List MemoryAllocation}

/-! ## The block that fits -/

theorem add_gap_mod (x a : Nat) : a = 0 ∨ (x + (a - x % a)) % a = 0 := by
  rcases Nat.eq_zero_or_pos a with ha | ha
  · exact Or.inl ha
  · right
    have hlt := Nat.mod_lt x ha
    have hle := Nat.mod_le x a
    have heq : x + (a - x % a) = (x - x % a) + a := by omega
    rw [heq, Nat.add_mod_right]
    exact Nat.mod_eq_zero_of_dvd (Nat.dvd_sub_mod x)

theorem fit_spec (hal : alignment ≠ 0) (h : fit m len alignment b = some gap) :
    (m.block b).used = false ∧ gap ≤ (m.block b).length ∧ len ≤ (m.block b).length - gap ∧
      (b + sizeofMemoryBlock + gap) % alignment = 0 := by
  have hmod : (b + sizeofMemoryBlock + alignmentGap alignment b) % alignment = 0 := by
    unfold alignmentGap
    by_cases hr : (b + sizeofMemoryBlock) % alignment = 0
    · simp [hr]
    · have := add_gap_mod (b + sizeofMemoryBlock) alignment
      simp only [ne_eq, hr, not_false_eq_true, if_true]
      tauto
  unfold fit at h
  split at h
  · simp at h
  · rename_i hused
    dsimp only at h
    split at h
    · simp at h
    · split at h
      · cases h
        exact ⟨by simpa using hused, by omega, by assumption, hmod⟩
      · simp at h

/-! ## Descriptors after `carve` -/

theorem tail_ne (b gap len : Nat) :
    b + sizeofMemoryBlock + gap + len ≠ b ∧ b + sizeofMemoryBlock + gap + len ≠ b + gap := by
  have : 0 < sizeofMemoryBlock := by decide
  omega

theorem front_eq (b gap : Nat) : b + sizeofMemoryBlock + gap - sizeofMemoryBlock = b + gap := by
  omega

theorem gap_ne_zero (h : sizeofMemoryBlock < gap) : gap ≠ 0 := by omega

def carvedBlock (b gap : Nat) : Nat := if sizeofMemoryBlock < gap then b + gap else b

theorem carve_block_of_ne {x : Nat} (hb : x ≠ b) (hn : sizeofMemoryBlock < gap → x ≠ b + gap)
    (ht : len + sizeofMemoryBlock < (m.block b).length - gap →
      x ≠ b + sizeofMemoryBlock + gap + len) :
    (carve m len alignment b gap).1.block x =
      if len + sizeofMemoryBlock < (m.block b).length - gap ∧ some x = (m.block b).next then
        { m.block x with prev := some (b + sizeofMemoryBlock + gap + len) }
      else m.block x := by
  unfold carve splitFront splitTail
  by_cases hg : sizeofMemoryBlock < gap <;>
    by_cases hr : len + sizeofMemoryBlock < (m.block b).length - gap
  · simp [hg, hr, front_eq, hb, hn hg, ht hr, tail_ne, gap_ne_zero hg]
  · simp [hg, hr, front_eq, hb, hn hg]
  · simp [hg, hr, hb, ht hr, tail_ne]
  · simp [hg, hr, hb]

theorem carve_block_front (hg : sizeofMemoryBlock < gap) (hself : (m.block b).next ≠ some b) :
    (carve m len alignment b gap).1.block b =
      { m.block b with next := some (b + gap), length := gap - sizeofMemoryBlock } := by
  have h₁ := (tail_ne b gap len).1.symm
  have h₂ := hself.symm
  unfold carve splitFront splitTail
  by_cases hr : len + sizeofMemoryBlock < (m.block b).length - gap
  · simp [hg, hr, front_eq, tail_ne, gap_ne_zero hg, h₁, h₂]
  · simp [hg, hr, front_eq, gap_ne_zero hg]

theorem carve_block_carved (hself : (m.block b).next ≠ some (carvedBlock b gap)) :
    (carve m len alignment b gap).1.block (carvedBlock b gap) =
      { prev := if sizeofMemoryBlock < gap then some b else (m.block b).prev
        next := if len + sizeofMemoryBlock < (m.block b).length - gap then
          some (b + sizeofMemoryBlock + gap + len) else (m.block b).next
        length := if len + sizeofMemoryBlock < (m.block b).length - gap then
          (if sizeofMemoryBlock < gap then len else len + gap) else (m.block b).length - gap
        used := true } := by
  have h₁ := (tail_ne b gap len).1.symm
  have h₂ := (tail_ne b gap len).2.symm
  have h₃ := hself.symm
  unfold carvedBlock at h₃ ⊢
  unfold carve splitFront splitTail
  by_cases hg : sizeofMemoryBlock < gap <;>
    by_cases hr : len + sizeofMemoryBlock < (m.block b).length - gap
  · simp only [hg, if_true] at h₃
    simp [hg, hr, front_eq, tail_ne, gap_ne_zero hg, h₂, h₃]
  · simp [hg, hr, front_eq, gap_ne_zero hg]
  · simp only [hg, if_false] at h₃
    simp [hg, hr, tail_ne, h₁, h₃]
  · simp [hg, hr]

theorem carve_block_tail (hr : len + sizeofMemoryBlock < (m.block b).length - gap)
    (hself : (m.block b).next ≠ some (b + sizeofMemoryBlock + gap + len)) :
    (carve m len alignment b gap).1.block (b + sizeofMemoryBlock + gap + len) =
      { prev := some (carvedBlock b gap), next := (m.block b).next, used := false
        length := (m.block b).length - gap - len - sizeofMemoryBlock } := by
  have h₃ := hself.symm
  unfold carvedBlock carve splitFront splitTail
  by_cases hg : sizeofMemoryBlock < gap
  · simp [hg, hr, front_eq, tail_ne, gap_ne_zero hg, h₃]
  · simp [hg, hr, tail_ne, h₃]

theorem carve_region (m : MemoryType) (len alignment b gap : Nat) :
    (carve m len alignment b gap).1.ptr = m.ptr ∧ (carve m len alignment b gap).1.len = m.len ∧
      (carve m len alignment b gap).1.vd = m.vd := by
  unfold carve splitFront splitTail
  by_cases hg : sizeofMemoryBlock < gap <;>
    by_cases hr : len + sizeofMemoryBlock < (m.block b).length - gap <;> simp [hg, hr]

theorem carve_allocation (m : MemoryType) (len alignment b gap : Nat) :
    (carve m len alignment b gap).2 =
      { address := b + sizeofMemoryBlock + gap, alignment, length := len
        block := carvedBlock b gap } := by
  unfold carve splitFront carvedBlock
  by_cases hg : sizeofMemoryBlock < gap <;> simp [hg, front_eq]

/-! ## `carve` keeps the invariants -/

def newBlocks (m : MemoryType) (len b gap : Nat) : List Nat :=
  (if sizeofMemoryBlock < gap then [b + gap] else []) ++
    if len + sizeofMemoryBlock < (m.block b).length - gap then
      [b + sizeofMemoryBlock + gap + len] else []

section Carve

variable (len alignment) (h : ListInv tight m (pre ++ b :: post))
  (hgap : gap ≤ (m.block b).length)
include h hgap

theorem carve_slot {x : Nat} (hx : x ∈ pre ++ post) :
    x ≠ b ∧ (sizeofMemoryBlock < gap → x ≠ b + gap) ∧
      (len + sizeofMemoryBlock < (m.block b).length - gap →
        x ≠ b + sizeofMemoryBlock + gap + len) := by
  have hsz : sizeofMemoryBlock = 32 := rfl
  have hb := h.laid b (by simp)
  rcases List.mem_append.mp hx with hx | hx
  · have := h.before hx
    omega
  · have := h.after hx
    omega

theorem carve_outside {x : Nat} (hx : x ∈ pre ++ post) :
    (carve m len alignment b gap).1.block x =
      if len + sizeofMemoryBlock < (m.block b).length - gap ∧ some x = post.head? then
        { m.block x with prev := some (b + sizeofMemoryBlock + gap + len) }
      else m.block x := by
  obtain ⟨h₁, h₂, h₃⟩ := carve_slot len h hgap hx
  rw [carve_block_of_ne h₁ h₂ h₃, h.next_eq]

theorem carve_frame : Frame m (carve m len alignment b gap).1 pre post := by
  obtain ⟨hptr, hlen, hvd⟩ := carve_region m len alignment b gap
  have h' : ListInv tight m (pre ++ [b] ++ post) := by simpa using h
  apply h'.frame hptr hlen hvd
  intro x hx
  rw [carve_outside len alignment h hgap hx]
  split
  · rename_i hhead
    exact .inr ⟨hhead.2, _, rfl⟩
  · exact .inl rfl

omit hgap in
theorem carve_at_front (hg : sizeofMemoryBlock < gap) :
    (carve m len alignment b gap).1.block b =
      { prev := pre.getLast?, next := some (b + gap), length := gap - sizeofMemoryBlock
        used := (m.block b).used } := by
  have := h.laid b (by simp)
  have hsz : sizeofMemoryBlock = 32 := rfl
  rw [carve_block_front hg (next_ne (by omega))]
  simp [h.prev_eq]

theorem carve_at_carved :
    (carve m len alignment b gap).1.block (carvedBlock b gap) =
      { prev := if sizeofMemoryBlock < gap then some b else pre.getLast?
        next := if len + sizeofMemoryBlock < (m.block b).length - gap then
          some (b + sizeofMemoryBlock + gap + len) else post.head?
        length := if len + sizeofMemoryBlock < (m.block b).length - gap then
          (if sizeofMemoryBlock < gap then len else len + gap) else (m.block b).length - gap
        used := true } := by
  have := h.laid b (by simp)
  have hsz : sizeofMemoryBlock = 32 := rfl
  have hlt : carvedBlock b gap < m.slotEnd b := by
    unfold carvedBlock
    split <;> omega
  rw [carve_block_carved (next_ne hlt), h.prev_eq, h.next_eq]

theorem carve_at_tail (hr : len + sizeofMemoryBlock < (m.block b).length - gap) :
    (carve m len alignment b gap).1.block (b + sizeofMemoryBlock + gap + len) =
      { prev := some (carvedBlock b gap), next := post.head?, used := false
        length := (m.block b).length - gap - len - sizeofMemoryBlock } := by
  have := h.laid b (by simp)
  rw [carve_block_tail hr (next_ne (by omega)), h.next_eq]

theorem carve_mid :
    Links.Seg (fun a => ((carve m len alignment b gap).1.block a).prev)
      (fun a => ((carve m len alignment b gap).1.block a).next) pre.getLast?
      (b :: newBlocks m len b gap) post.head? := by
  have hc := carve_at_carved len alignment h hgap
  unfold newBlocks
  unfold carvedBlock at hc
  by_cases hg : sizeofMemoryBlock < gap <;>
    by_cases hr : len + sizeofMemoryBlock < (m.block b).length - gap
  · have hf := carve_at_front len alignment h hg
    have ht := carve_at_tail len alignment h hgap hr
    simp only [hg, hr, if_true] at hc ⊢
    simp [Links.seg_cons, hf, hc, ht, carvedBlock, hg]
  · have hf := carve_at_front len alignment h hg
    simp only [hg, hr, if_true, if_false] at hc ⊢
    simp [Links.seg_cons, hf, hc]
  · have ht := carve_at_tail len alignment h hgap hr
    simp only [hg, hr, if_true, if_false] at hc ⊢
    simp [Links.seg_cons, hc, ht, carvedBlock, hg]
  · simp only [hg, hr, if_false] at hc ⊢
    simp [Links.seg_cons, hc]

/-- The successor of `b` points back to the last new block, unless the front was split off
and the tail was not. -/
theorem carve_back_link
    (hlinks : sizeofMemoryBlock < gap →
      post = [] ∨ len + sizeofMemoryBlock < (m.block b).length - gap) :
    ∀ c ∈ post.head?, ((carve m len alignment b gap).1.block c).prev =
      (b :: newBlocks m len b gap).getLast? := by
  intro c hc
  have hmem : c ∈ pre ++ post := by
    simp [List.mem_of_mem_head? hc]
  rw [carve_outside len alignment h hgap hmem]
  unfold newBlocks
  by_cases hr : len + sizeofMemoryBlock < (m.block b).length - gap
  · have : some c = post.head? := hc.symm
    simp only [hr, this, and_self, if_true]
    rw [← List.cons_append, List.getLast?_concat]
  · have hback : (m.block c).prev = some b := by
      obtain ⟨post', rfl⟩ : ∃ post', post = c :: post' := by
        cases post with
        | nil => simp at hc
        | cons d post => exact ⟨post, by simpa using hc⟩
      have := (Links.seg_append.mp h.linked).2.2.2.1
      simpa using this
    have hg : ¬ sizeofMemoryBlock < gap := by
      intro hg
      rcases hlinks hg with rfl | h'
      · simp at hc
      · exact hr h'
    simp [hr, hg, hback]

theorem carve_laid (hlen : len ≤ (m.block b).length - gap) :
    ∀ x ∈ b :: newBlocks m len b gap,
      x + sizeofMemoryBlock + ((carve m len alignment b gap).1.block x).length ≤
        (carve m len alignment b gap).1.slotEnd x ∧
      (b + sizeofMemoryBlock + (m.block b).length = m.slotEnd b →
        (gap = 0 ∨ sizeofMemoryBlock < gap ∨
          len + sizeofMemoryBlock < (m.block b).length - gap) →
        x + sizeofMemoryBlock + ((carve m len alignment b gap).1.block x).length =
          (carve m len alignment b gap).1.slotEnd x) := by
  have hb := h.laid b (by simp)
  have hend : m.slotEnd b = post.head?.getD (carve m len alignment b gap).1.stop := by
    simp [MemoryType.slotEnd, MemoryType.stop, h.next_eq, carve_region]
  have hc := carve_at_carved len alignment h hgap
  have hf (hg : sizeofMemoryBlock < gap) := carve_at_front len alignment h hg
  have ht := carve_at_tail len alignment h hgap
  rw [hend] at hb ⊢
  unfold newBlocks MemoryType.slotEnd
  unfold carvedBlock at hc ht
  by_cases hg : sizeofMemoryBlock < gap <;>
    by_cases hr : len + sizeofMemoryBlock < (m.block b).length - gap
  · simp only [hg, hr, if_true, forall_const] at hc hf ht ⊢
    simp only [List.cons_append, List.nil_append, List.mem_cons, List.not_mem_nil, or_false]
    rintro x (rfl | rfl | rfl)
    · simp only [hf, Option.getD_some]
      omega
    · simp only [hc, Option.getD_some]
      omega
    · simp only [ht]
      omega
  · simp only [hg, hr, if_true, if_false, forall_const] at hc hf ⊢
    simp only [List.append_nil, List.mem_cons, List.not_mem_nil, or_false]
    rintro x (rfl | rfl)
    · simp only [hf, Option.getD_some]
      omega
    · simp only [hc]
      omega
  · simp only [hg, hr, if_true, if_false, forall_const] at hc ht ⊢
    simp only [List.nil_append, List.mem_cons, List.not_mem_nil, or_false]
    rintro x (rfl | rfl)
    · simp only [hc, Option.getD_some]
      omega
    · simp only [ht]
      omega
  · simp only [hg, hr, if_false] at hc ⊢
    simp only [List.append_nil, List.mem_cons, List.not_mem_nil, or_false]
    rintro x rfl
    simp only [hc]
    omega

theorem carve_list (hlen : len ≤ (m.block b).length - gap)
    (hlinks : sizeofMemoryBlock < gap →
      post = [] ∨ len + sizeofMemoryBlock < (m.block b).length - gap)
    (hbytes : tight → gap = 0 ∨ sizeofMemoryBlock < gap ∨
      len + sizeofMemoryBlock < (m.block b).length - gap) :
    ListInv tight (carve m len alignment b gap).1
      (pre ++ b :: newBlocks m len b gap ++ post) := by
  have h' : ListInv tight m (pre ++ b :: [] ++ post) := by simpa using h
  have hlaid := carve_laid len alignment h hgap hlen
  apply h'.splice (carve_frame len alignment h hgap) (carve_mid len alignment h hgap)
    (carve_back_link len alignment h hgap hlinks)
  · exact fun x hx => (hlaid x hx).1
  · exact fun ht x hx => (hlaid x hx).2 (h.full ht b (by simp)) (hbytes ht)

theorem carve_live (hl : LiveInv m (pre ++ b :: post) live) (hused : (m.block b).used = false)
    (hlen : len ≤ (m.block b).length - gap)
    (hmod : (b + sizeofMemoryBlock + gap) % alignment = 0) :
    LiveInv (carve m len alignment b gap).1 (pre ++ b :: newBlocks m len b gap ++ post)
      ((carve m len alignment b gap).2 :: live) := by
  have hne : ∀ a ∈ live, a.block ≠ b := by
    rintro a ha rfl
    simpa [hused] using (hl.block a ha).2
  have hout : ∀ a ∈ live, a.block ∈ pre ++ post := by
    intro a ha
    have := (hl.block a ha).1
    have := hne a ha
    simp only [List.mem_append, List.mem_cons] at *
    tauto
  have hold := hl.splice b (newBlocks m len b gap) (carve_frame len alignment h hgap)
    (List.Sublist.refl _) hout
  have hc := carve_at_carved len alignment h hgap
  have hend : m.slotEnd b = post.head?.getD (carve m len alignment b gap).1.stop := by
    simp [MemoryType.slotEnd, MemoryType.stop, h.next_eq, carve_region]
  have hb := h.laid b (by simp)
  rw [hend] at hb
  rw [carve_allocation]
  refine ⟨?_, ?_, ?_, ?_⟩
  · refine List.forall_mem_cons.mpr ⟨⟨?_, by rw [hc]⟩, hold.block⟩
    unfold carvedBlock newBlocks
    split <;> simp
  · refine List.forall_mem_cons.mpr ⟨⟨?_, ?_⟩, hold.inSlot⟩
    · unfold carvedBlock
      dsimp only
      split <;> omega
    · unfold MemoryType.slotEnd
      rw [hc]
      dsimp only
      split
      · simp
      · omega
  · exact List.forall_mem_cons.mpr ⟨hmod, hold.aligned⟩
  · refine List.nodup_cons.mpr ⟨?_, hold.distinct⟩
    intro hmem
    obtain ⟨a, ha, hab⟩ := List.mem_map.mp hmem
    have hslot := carve_slot len h hgap (hout a ha)
    unfold carvedBlock at hab
    dsimp only at hab
    split at hab
    · exact hslot.2.1 (by assumption) hab
    · exact hslot.1 hab

end Carve

/-! ## `memory_managed_free` keeps the invariants -/

/-- What the three merging branches have in common: the block at `x` takes over the bytes up to `n`. -/
def absorb (m : MemoryType) (x l : Nat) (n : Option Nat) : MemoryType :=
  ((m.setLength x l).setNext x n).setPrev? n x

section Absorb

variable {l : Nat} (x : Nat) (mid : List Nat) (h : ListInv tight m (pre ++ x :: mid ++ post))
include h

theorem outside_ne {y : Nat} (hy : y ∈ pre ++ post) : y ≠ x := by
  have hnd := h.nodup
  simp only [List.append_assoc, List.cons_append, List.nodup_append, List.nodup_cons,
    List.mem_append] at hnd
  rintro rfl
  rcases List.mem_append.mp hy with hy | hy
  · exact hnd.2.2 y hy y (by simp) rfl
  · exact hnd.2.1.1 (Or.inr hy)

theorem absorb_frame : Frame m (absorb m x l post.head?) pre post := by
  apply h.frame (by simp [absorb]) (by simp [absorb]) (by simp [absorb])
  intro y hy
  have hne := outside_ne x mid h hy
  by_cases hhead : some y = post.head?
  · exact .inr ⟨hhead, some x, by simp [absorb, hne, hhead]⟩
  · exact .inl (by simp [absorb, hne, hhead])

theorem absorb_at : (absorb m x l post.head?).block x =
    { prev := pre.getLast?, next := post.head?, length := l, used := (m.block x).used } := by
  have hx : some x ≠ post.head? := by
    intro hh
    exact outside_ne x mid h (List.mem_append_right pre (List.mem_of_mem_head? hh.symm)) rfl
  have h' : ListInv tight m (pre ++ x :: (mid ++ post)) := by simpa using h
  have hprev := h'.prev_eq
  unfold absorb
  simp [hx, hprev]

theorem absorb_list (hl : x + sizeofMemoryBlock + l ≤ post.head?.getD m.stop)
    (hfull : tight → x + sizeofMemoryBlock + l = post.head?.getD m.stop) :
    ListInv tight (absorb m x l post.head?) (pre ++ x :: post) := by
  have hx := absorb_at (l := l) x mid h
  have hf := absorb_frame (l := l) x mid h
  have hend : (absorb m x l post.head?).slotEnd x = post.head?.getD m.stop := by
    simp [MemoryType.slotEnd, hx, hf.stop]
  have hlist : ListInv tight (absorb m x l post.head?) (pre ++ x :: [] ++ post) := by
    apply h.splice hf
    · simp [Links.seg_cons, hx]
    · intro c hc
      have : some c = post.head? := hc.symm
      simp [absorb, this]
    · simpa [hend, hx] using hl
    · intro ht
      simpa [hend, hx] using hfull ht
  simpa using hlist

theorem absorb_inv {live' : List MemoryAllocation}
    (hl : LiveInv m (pre ++ x :: mid ++ post) live) (hsub : live'.Sublist live)
    (hout : ∀ a ∈ live', a.block ∉ x :: mid)
    (hle : x + sizeofMemoryBlock + l ≤ post.head?.getD m.stop)
    (hfull : tight → x + sizeofMemoryBlock + l = post.head?.getD m.stop) :
    ∃ hs', ListInv tight (absorb m x l post.head?) hs' ∧
      LiveInv (absorb m x l post.head?) hs' live' := by
  refine ⟨_, absorb_list x mid h hle hfull, ?_⟩
  have := hl.splice x [] (absorb_frame (l := l) x mid h) hsub fun a ha => by
    have hin := (hl.block a (hsub.subset ha)).1
    have hnot := hout a ha
    simp only [List.mem_append] at hin ⊢
    tauto
  simpa using this

end Absorb

section FreeCases

variable {ma : MemoryAllocation} {p n : Nat}

theorem free_both (hp : unused m (m.block ma.block).prev = some p)
    (hn : unused m (m.block ma.block).next = some n) :
    memoryManagedFree m ma = absorb m p
      ((m.block p).length + ((m.block ma.block).length + (m.block n).length + 2 * sizeofMemoryBlock))
      (m.block n).next := by
  unfold memoryManagedFree
  simp only [hp, hn]
  rfl

theorem free_prev (hp : unused m (m.block ma.block).prev = some p)
    (hn : unused m (m.block ma.block).next = none) :
    memoryManagedFree m ma = absorb m p
      ((m.block p).length + ((m.block ma.block).length + sizeofMemoryBlock))
      (m.block ma.block).next := by
  unfold memoryManagedFree
  simp only [hp, hn]
  rfl

theorem free_next (hp : unused m (m.block ma.block).prev = none)
    (hn : unused m (m.block ma.block).next = some n) :
    memoryManagedFree m ma = absorb m ma.block
      ((m.block ma.block).length + ((m.block n).length + sizeofMemoryBlock)) (m.block n).next := by
  unfold memoryManagedFree
  simp only [hp, hn]
  rfl

theorem free_alone (hp : unused m (m.block ma.block).prev = none)
    (hn : unused m (m.block ma.block).next = none) :
    memoryManagedFree m ma = m.setUsed ma.block false := by
  unfold memoryManagedFree
  simp only [hp, hn]

end FreeCases

theorem unused_some {link : Option Nat} {a : Nat} (h : unused m link = some a) :
    link = some a ∧ (m.block a).used = false := by
  simpa [unused, Option.filter_eq_some_iff] using h

theorem ListInv.ends (h : ListInv tight m (pre ++ b :: post)) :
    b + sizeofMemoryBlock + (m.block b).length ≤ post.head?.getD m.stop ∧
      (tight → b + sizeofMemoryBlock + (m.block b).length = post.head?.getD m.stop) := by
  have hend : m.slotEnd b = post.head?.getD m.stop := by simp [MemoryType.slotEnd, h.next_eq]
  rw [← hend]
  exact ⟨h.laid b (by simp), fun ht => h.full ht b (by simp)⟩

theorem eq_concat_of_getLast {p : Nat} (h : pre.getLast? = some p) : ∃ pre', pre = pre' ++ [p] := by
  exact ⟨pre.dropLast, (List.dropLast_append_getLast? p h).symm⟩

theorem eq_cons_of_head {n : Nat} (h : post.head? = some n) : ∃ post', post = n :: post' := by
  exact ⟨post.tail, (List.cons_head?_tail h).symm⟩

theorem LiveInv.ne_unused {a : MemoryAllocation} (hl : LiveInv m hs live) (ha : a ∈ live)
    {x : Nat} (hx : (m.block x).used = false) : a.block ≠ x := by
  rintro rfl
  simpa [hx] using (hl.block a ha).2

theorem LiveInv.ne_freed {a ma : MemoryAllocation} (hl : LiveInv m hs live)
    (ha : a ∈ live.erase ma) (hma : ma ∈ live) : a.block ≠ ma.block := by
  have hnd := hl.distinct
  have hperm := List.perm_cons_erase hma
  rw [(hperm.map _).nodup_iff, List.map_cons, List.nodup_cons] at hnd
  intro heq
  exact hnd.1 (heq ▸ List.mem_map_of_mem ha)

theorem setUsed_inv {live' : List MemoryAllocation} (h : ListInv tight m hs)
    (hl : LiveInv m hs live) (hsub : live'.Sublist live) (hout : ∀ a ∈ live', a.block ≠ b) :
    ListInv tight (m.setUsed b false) hs ∧ LiveInv (m.setUsed b false) hs live' := by
  have hfield : ∀ x, ((m.setUsed b false).block x).prev = (m.block x).prev ∧
      ((m.setUsed b false).block x).next = (m.block x).next ∧
      ((m.setUsed b false).block x).length = (m.block x).length := by
    intro x
    by_cases hx : x = b <;> simp [hx]
  have hslot : ∀ x, (m.setUsed b false).slotEnd x = m.slotEnd x := by
    intro x
    unfold MemoryType.slotEnd MemoryType.stop
    rw [(hfield x).2.1]
    rfl
  refine ⟨⟨h.head, h.start, ?_, ?_, ?_⟩, ⟨?_, ?_, ?_, ?_⟩⟩
  · exact h.linked.frame (fun x _ => (hfield x).1) (fun x _ => (hfield x).2.1)
  · intro x hx
    rw [hslot, (hfield x).2.2]
    exact h.laid x hx
  · intro ht x hx
    rw [hslot, (hfield x).2.2]
    exact h.full ht x hx
  · intro a ha
    have := hl.block a (hsub.subset ha)
    simpa [hout a ha] using this
  · intro a ha
    rw [hslot]
    exact hl.inSlot a (hsub.subset ha)
  · exact fun a ha => hl.aligned a (hsub.subset ha)
  · exact (hsub.map _).nodup hl.distinct

/-- A branch of `memory_managed_free` that merges: the blocks `x :: mid`, of which only the freed one
is used, become one block at `x`. -/
structure Absorbs (tight : Prop) (m : MemoryType) (ma : MemoryAllocation) (hs pre mid post : List Nat)
    (x l : Nat) : Prop where
  split : hs = pre ++ x :: mid ++ post
  freed : ma.block ∈ x :: mid
  others : ∀ y ∈ x :: mid, y = ma.block ∨ (m.block y).used = false
  result : memoryManagedFree m ma = absorb m x l post.head?
  le : x + sizeofMemoryBlock + l ≤ post.head?.getD m.stop
  full : tight → x + sizeofMemoryBlock + l = post.head?.getD m.stop
  front : (m.block x).used = false ∨
    unused m (m.block ma.block).prev = none ∧ unused m (m.block ma.block).next ≠ none
  behind : (∀ y ∈ post.head?, (m.block y).used = true) ∨
    ∃ y ∈ (x :: mid).getLast?, (m.block y).used = false

theorem unused_none {link : Option Nat} (h : unused m link = none) :
    ∀ x ∈ link, (m.block x).used = true := by
  intro x hx
  rw [Option.mem_def.mp hx] at h
  simpa [unused, Option.filter] using h

theorem free_cases {ma : MemoryAllocation} (h : ListInv tight m hs) (hma : ma.block ∈ hs) :
    (∃ pre mid post x l, Absorbs tight m ma hs pre mid post x l) ∨
      (unused m (m.block ma.block).prev = none ∧ unused m (m.block ma.block).next = none ∧
        memoryManagedFree m ma = m.setUsed ma.block false) := by
  obtain ⟨pre, post, rfl⟩ := List.append_of_mem hma
  cases hp : unused m (m.block ma.block).prev with
  | some p =>
    left
    obtain ⟨hp₁, hp₂⟩ := unused_some hp
    rw [h.prev_eq] at hp₁
    obtain ⟨pre, rfl⟩ := eq_concat_of_getLast hp₁
    have h' : ListInv tight m (pre ++ p :: ma.block :: post) := by simpa using h
    obtain ⟨hple, hpfull⟩ := h'.ends
    rw [List.head?_cons, Option.getD_some] at hple hpfull
    cases hn : unused m (m.block ma.block).next with
    | some n =>
      obtain ⟨hn₁, hn₂⟩ := unused_some hn
      rw [h.next_eq] at hn₁
      obtain ⟨post, rfl⟩ := eq_cons_of_head hn₁
      have h'' : ListInv tight m (pre ++ [p, ma.block] ++ n :: post) := by simpa using h
      obtain ⟨hle, hfull⟩ := h.ends
      obtain ⟨hnle, hnfull⟩ := h''.ends
      rw [List.head?_cons, Option.getD_some] at hle hfull
      have hfree := free_both hp hn
      rw [h''.next_eq] at hfree
      refine ⟨pre, [ma.block, n], post, p, _, by simp, by simp, by simp [hp₂, hn₂], hfree, by omega,
        ?_, .inl hp₂, .inr ⟨n, by simp, hn₂⟩⟩
      intro ht
      have := hpfull ht
      have := hfull ht
      have := hnfull ht
      omega
    | none =>
      obtain ⟨hle, hfull⟩ := h.ends
      have hfree := free_prev hp hn
      rw [h.next_eq] at hfree hn
      refine ⟨pre, [ma.block], post, p, _, by simp, by simp, by simp [hp₂], hfree, by omega,
        ?_, .inl hp₂, .inl (unused_none hn)⟩
      intro ht
      have := hpfull ht
      have := hfull ht
      omega
  | none =>
    cases hn : unused m (m.block ma.block).next with
    | some n =>
      left
      obtain ⟨hn₁, hn₂⟩ := unused_some hn
      rw [h.next_eq] at hn₁
      obtain ⟨post, rfl⟩ := eq_cons_of_head hn₁
      have h'' : ListInv tight m (pre ++ [ma.block] ++ n :: post) := by simpa using h
      obtain ⟨hle, hfull⟩ := h.ends
      obtain ⟨hnle, hnfull⟩ := h''.ends
      rw [List.head?_cons, Option.getD_some] at hle hfull
      have hfree := free_next hp hn
      rw [h''.next_eq] at hfree
      refine ⟨pre, [n], post, ma.block, _, by simp, by simp, by simp [hn₂], hfree, by omega,
        ?_, .inr ⟨hp, by simp [hn]⟩, .inr ⟨n, by simp, hn₂⟩⟩
      intro ht
      have := hfull ht
      have := hnfull ht
      omega
    | none => exact .inr ⟨rfl, rfl, free_alone hp hn⟩

theorem free_inv {ma : MemoryAllocation} (h : ListInv tight m hs) (hl : LiveInv m hs live)
    (hma : ma ∈ live) :
    ∃ hs', ListInv tight (memoryManagedFree m ma) hs' ∧
      LiveInv (memoryManagedFree m ma) hs' (live.erase ma) := by
  have hsub : (live.erase ma).Sublist live := List.erase_sublist
  have hfreed : ∀ a ∈ live.erase ma, a.block ≠ ma.block := fun a ha => hl.ne_freed ha hma
  rcases free_cases h (hl.block ma hma).1 with ⟨pre, mid, post, x, l, hab⟩ | ⟨-, -, halone⟩
  · obtain rfl := hab.split
    rw [hab.result]
    refine absorb_inv x mid h hl hsub ?_ hab.le hab.full
    intro a ha hmem
    rcases hab.others _ hmem with heq | hunused
    · exact hfreed a ha heq
    · exact hl.ne_unused (hsub.subset ha) hunused rfl
  · rw [halone]
    exact ⟨_, setUsed_inv h hl hsub hfreed⟩

end VillasNode.Managed
