import VillasNode.Hook.Model
import VillasNode.Sample.Ledger

/-!
# What hooks do to the ledger

A hook list keeps the ledger balanced whatever its hooks decide: it gives back
what it held before and takes what it holds now. It reorders the batch and
writes to no other sample.
-/

namespace VillasNode

variable {σ : Type*} {z : SampleId → Sample} {h : Heap} {R : Multiset SampleId}
  {smp : SampleId}

def retainedRefs : List (Option SampleId) → Multiset SampleId
  | [] => 0
  | prev :: prevs => (prev.toList : Multiset SampleId) + retainedRefs prevs

/-- `h'` differs from `h` only in reference counts, free blocks and the contents of `smps`. -/
structure Touches (smps : List SampleId) (h h' : Heap) : Prop where
  pools : h'.pools = h.pools
  payload : ∀ s ∉ smps, h'.payload s = h.payload s

theorem Touches.refl (smps : List SampleId) (h : Heap) : Touches smps h h := ⟨rfl, fun _ _ => rfl⟩

theorem Touches.trans {smps : List SampleId} {h₁ h₂ h₃ : Heap} (h₁₂ : Touches smps h₁ h₂)
    (h₂₃ : Touches smps h₂ h₃) : Touches smps h₁ h₃ := by
  refine ⟨h₂₃.pools.trans h₁₂.pools, ?_⟩
  intro s hs
  rw [h₂₃.payload s hs, h₁₂.payload s hs]

theorem Touches.mono {smps smps' : List SampleId} {h₁ h₂ : Heap} (ht : Touches smps h₁ h₂)
    (hsub : ∀ s ∈ smps, s ∈ smps') : Touches smps' h₁ h₂ :=
  ⟨ht.pools, fun s hs => ht.payload s fun hmem => hs (hsub s hmem)⟩

theorem Touches.setPayload {smps : List SampleId} (hmem : smp ∈ smps) (x : Payload) :
    Touches smps h (h.setPayload smp x) := by
  refine ⟨rfl, fun s hs => ?_⟩
  rw [Heap.setPayload_payload, if_neg]
  rintro rfl
  exact hs hmem

/-! ## Retention -/

theorem retain_spec {prev : Option SampleId} (retention : Retention) (hs : smp ∈ R)
    (hb : Balanced z h ((prev.toList : Multiset SampleId) + R)) :
    Balanced z (h.retain smp prev retention).1
      (((h.retain smp prev retention).2.toList : Multiset SampleId) + R) ∧
      Touches [] h (h.retain smp prev retention).1 := by
  cases retention with
  | keep =>
    refine ⟨?_, .refl _ _⟩
    cases prev <;> exact hb
  | take =>
    cases prev with
    | none =>
      have hb' : Balanced z h R := by simpa using hb
      exact ⟨hb'.incref hs, rfl, fun s _ => by rw [Heap.retain, Heap.incref_payload]⟩
    | some prev =>
      have hb₁ := hb.incref (s := smp) (Multiset.mem_cons_of_mem hs)
      have hswap : smp ::ₘ (((some prev).toList : Multiset SampleId) + R) = prev ::ₘ smp ::ₘ R := by
        rw [Multiset.cons_swap]
        rfl
      rw [hswap] at hb₁
      refine ⟨hb₁.decref, ?_, fun s _ => ?_⟩
      · rw [Heap.retain, Heap.decref_pools, Heap.incref_pools]
      · rw [Heap.retain, Heap.decref_payload, Heap.incref_payload]
  | drop =>
    cases prev with
    | none => exact ⟨hb, .refl _ _⟩
    | some prev =>
      have hb' : Balanced z h (prev ::ₘ R) := hb
      have hb₁ := hb'.decref
      refine ⟨?_, ?_, fun s _ => ?_⟩
      · rw [Heap.retain, Option.toList_none, Multiset.coe_nil, zero_add]
        exact hb₁
      · rw [Heap.retain, Heap.decref_pools]
      · rw [Heap.retain, Heap.decref_payload]

theorem retainAll_spec (retention : Nat → Retention) (i : Nat) (prevs : List (Option SampleId))
    (hs : smp ∈ R) (hb : Balanced z h (retainedRefs prevs + R)) :
    Balanced z (h.retainAll smp retention i prevs).1
      (retainedRefs (h.retainAll smp retention i prevs).2 + R) ∧
      Touches [] h (h.retainAll smp retention i prevs).1 ∧
      (h.retainAll smp retention i prevs).2.length = prevs.length := by
  induction prevs generalizing h R i with
  | nil => exact ⟨hb, .refl _ _, rfl⟩
  | cons prev prevs ih =>
    unfold retainedRefs at hb
    rw [add_assoc] at hb
    obtain ⟨hb₁, ht₁⟩ := retain_spec (retention i)
      (Multiset.mem_add.mpr (.inr hs) : smp ∈ retainedRefs prevs + R) hb
    rw [add_left_comm] at hb₁
    obtain ⟨hb₂, ht₂, hlen⟩ := ih (i + 1)
      (Multiset.mem_add.mpr (.inr hs) : smp ∈ _ + R) hb₁
    unfold Heap.retainAll
    refine ⟨?_, ht₁.trans ht₂, ?_⟩
    · dsimp only
      rw [retainedRefs, add_assoc, add_left_comm]
      exact hb₂
    · dsimp only
      rw [List.length_cons, List.length_cons, hlen]

/-! ## One sample -/

theorem processOne_spec (hs : HookList σ) (i : Nat) (hsmp : smp ∈ R)
    (hb : Balanced z h (retainedRefs hs.retained + R)) :
    Balanced z (hs.processOne h i smp).2.1 (retainedRefs (hs.processOne h i smp).1.retained + R) ∧
      Touches [smp] h (hs.processOne h i smp).2.1 := by
  unfold HookList.processOne
  obtain ⟨hb₁, ht₁, -⟩ := retainAll_spec
    (hs.process i hs.state (hs.retained.map (Option.map h.payload)) (h.payload smp)).retention 0
    hs.retained hsmp hb
  refine ⟨hb₁.setPayload (Multiset.mem_add.mpr (.inr hsmp)) _, ?_⟩
  exact (ht₁.mono (by simp)).trans (.setPayload List.mem_cons_self _)

theorem processChain_spec (hs : HookList σ) (i n : Nat) (hsmp : smp ∈ R)
    (hb : Balanced z h (retainedRefs hs.retained + R)) :
    Balanced z (hs.processChain h smp i n).2.1
      (retainedRefs (hs.processChain h smp i n).1.retained + R) ∧
      Touches [smp] h (hs.processChain h smp i n).2.1 := by
  induction n generalizing hs h i with
  | zero => exact ⟨hb, .refl _ _⟩
  | succ n ih =>
    have hone := processOne_spec hs i hsmp hb
    unfold HookList.processChain
    rcases hr : hs.processOne h i smp with ⟨hs₁, h₁, reason⟩
    rw [hr] at hone
    cases reason with
    | ok =>
      obtain ⟨hb₂, ht₂⟩ := ih hs₁ (i + 1) hone.1
      exact ⟨hb₂, hone.2.trans ht₂⟩
    | error | skipSample | stopProcessing => exact hone

/-! ## The batch -/

theorem swap_perm (smps : List SampleId) (i j : Nat) : (HookList.swap smps i j).Perm smps := by
  unfold HookList.swap
  split
  · rename_i x y hx hy
    obtain ⟨hi, rfl⟩ := List.getElem?_eq_some_iff.mp hx
    obtain ⟨hj, rfl⟩ := List.getElem?_eq_some_iff.mp hy
    exact List.set_set_perm hi hj
  · exact .refl _

theorem swap_drop (smps : List SampleId) {processed current : Nat} (hle : processed ≤ current) :
    (HookList.swap smps processed current).drop (current + 1) = smps.drop (current + 1) := by
  unfold HookList.swap
  split
  · rw [List.drop_set_of_lt (by omega), List.drop_set_of_lt (by omega)]
  · rfl

structure Processed (z : SampleId → Sample) (R : Multiset SampleId) (h : Heap)
    (smps : List SampleId) (r : HookList σ × Heap × List SampleId × Option Nat) : Prop where
  balanced : Balanced z r.2.1 (retainedRefs r.1.retained + (smps + R))
  perm : r.2.2.1.Perm smps
  touches : Touches smps h r.2.1
  processed : ∀ n ∈ r.2.2.2, n ≤ smps.length

theorem processLoop_spec (hs : HookList σ) (smps : List SampleId) (current processed n : Nat)
    (hn : current + n = smps.length) (hp : processed ≤ current)
    (hb : Balanced z h (retainedRefs hs.retained + (smps + R))) :
    Processed z R h smps (hs.processLoop h smps current processed n) := by
  induction n generalizing hs h smps current processed with
  | zero =>
    refine ⟨hb, .refl _, .refl _ _, ?_⟩
    intro m hm
    cases hm
    omega
  | succ n ih =>
    have hlt : current < smps.length := by omega
    have hget : smps[current]? = some smps[current] := List.getElem?_eq_getElem hlt
    have hmem : smps[current] ∈ smps := List.getElem_mem hlt
    have hheld : smps[current] ∈ (smps : Multiset SampleId) + R :=
      Multiset.mem_add.mpr (.inl (Multiset.mem_coe.mpr hmem))
    have hchain := processChain_spec hs 0 hs.retained.length hheld hb
    have hsub : ∀ s ∈ [smps[current]], s ∈ smps := by
      intro s hs
      rw [List.mem_singleton] at hs
      rw [hs]
      exact hmem
    unfold HookList.processLoop
    rw [hget]
    dsimp only
    rcases hr : hs.processChain h smps[current] 0 hs.retained.length with ⟨hs₁, h₁, reason⟩
    rw [hr] at hchain
    obtain ⟨hb₁, ht₁⟩ := hchain
    -- An accepted sample changes places with the first one that was skipped.
    have haccept : Processed z R h smps (hs₁.processLoop h₁ (HookList.swap smps processed current)
        (current + 1) (processed + 1) n) := by
      have hperm := swap_perm smps processed current
      have hlen := hperm.length_eq
      have hcoe : ((HookList.swap smps processed current : List SampleId) : Multiset SampleId) = smps :=
        Multiset.coe_eq_coe.mpr hperm
      have hrest := ih (h := h₁) hs₁ (HookList.swap smps processed current) (current + 1)
        (processed + 1) (by omega) (by omega) (by rw [hcoe]; exact hb₁)
      refine ⟨?_, hrest.perm.trans hperm, ?_, ?_⟩
      · rw [← hcoe]
        exact hrest.balanced
      · exact (ht₁.mono hsub).trans (hrest.touches.mono fun s hs => hperm.mem_iff.mp hs)
      · rw [← hlen]
        exact hrest.processed
    cases reason with
    | error =>
      exact ⟨hb₁, .refl _, ht₁.mono hsub, fun m hm => by cases hm⟩
    | skipSample =>
      have hrest := ih (h := h₁) hs₁ smps (current + 1) processed (by omega) (by omega) hb₁
      exact ⟨hrest.balanced, hrest.perm, (ht₁.mono hsub).trans hrest.touches, hrest.processed⟩
    | ok | stopProcessing => exact haccept

theorem hookListProcess_spec (hs : HookList σ) (smps : List SampleId)
    (hb : Balanced z h (retainedRefs hs.retained + (smps + R))) :
    Processed z R h smps (hs.hookListProcess h smps) := by
  unfold HookList.hookListProcess
  split
  · refine ⟨hb, .refl _, .refl _ _, ?_⟩
    intro n hn
    cases hn
    exact le_refl _
  · exact processLoop_spec hs smps 0 0 smps.length (by omega) (by omega) hb

end VillasNode
