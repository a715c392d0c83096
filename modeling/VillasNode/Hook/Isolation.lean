import VillasNode.Hook.Ledger

/-!
# What hooks see and change

A hook list sees the contents of the samples of its batch and of those that its
hooks hold on to, and it changes the contents of its batch only.
-/

namespace VillasNode

variable {σ : Type*} {h h' : Heap} {smp : SampleId} {hs : HookList σ} {S : SampleId → Prop}

/-! ## What they change -/

/-- None of the hooks changes such a sample, whatever state it is in. -/
def HookList.Fixes (hs : HookList σ) (x : Payload) : Prop :=
  ∀ i < hs.retained.length, ∀ state prevs,
    let o := hs.process i state prevs x
    { o.payload with signals := hs.signals i o.state } = x

structure SameHooks (hs hs' : HookList σ) : Prop where
  process : hs'.process = hs.process
  signals : hs'.signals = hs.signals
  length : hs'.retained.length = hs.retained.length

theorem SameHooks.refl (hs : HookList σ) : SameHooks hs hs := ⟨rfl, rfl, rfl⟩

theorem SameHooks.trans {hs₁ hs₂ hs₃ : HookList σ} (h₁₂ : SameHooks hs₁ hs₂) (h₂₃ : SameHooks hs₂ hs₃) :
    SameHooks hs₁ hs₃ :=
  ⟨h₂₃.process.trans h₁₂.process, h₂₃.signals.trans h₁₂.signals, h₂₃.length.trans h₁₂.length⟩

theorem SameHooks.fixes {hs' : HookList σ} (hsame : SameHooks hs hs') {x : Payload} (hfix : hs.Fixes x) :
    hs'.Fixes x := by
  unfold HookList.Fixes at hfix ⊢
  rw [hsame.process, hsame.signals, hsame.length]
  exact hfix

theorem retain_payload (h : Heap) (smp : SampleId) (prev : Option SampleId) (retention : Retention) :
    (h.retain smp prev retention).1.payload = h.payload := by
  rcases prev with _ | prev <;> rcases retention with _ | _ | _ <;> simp [Heap.retain]

theorem retainAll_payload (h : Heap) (smp : SampleId) (retention : Nat → Retention) (i : Nat)
    (prevs : List (Option SampleId)) :
    (h.retainAll smp retention i prevs).1.payload = h.payload := by
  induction prevs generalizing h i with
  | nil => rfl
  | cons prev prevs ih =>
    unfold Heap.retainAll
    dsimp only
    rw [ih, retain_payload]

theorem retainAll_length (h : Heap) (smp : SampleId) (retention : Nat → Retention) (i : Nat)
    (prevs : List (Option SampleId)) :
    (h.retainAll smp retention i prevs).2.length = prevs.length := by
  induction prevs generalizing h i with
  | nil => rfl
  | cons prev prevs ih =>
    unfold Heap.retainAll
    dsimp only
    rw [List.length_cons, List.length_cons, ih]

theorem processOne_payload (hs : HookList σ) (h : Heap) (i : Nat) (smp s : SampleId) :
    (hs.processOne h i smp).2.1.payload s =
      if s = smp then
        let o := hs.process i hs.state (hs.retained.map (Option.map h.payload)) (h.payload smp)
        { o.payload with signals := hs.signals i o.state }
      else h.payload s := by
  unfold HookList.processOne
  dsimp only
  rw [Heap.setPayload_payload, retainAll_payload]

theorem processOne_same (hs : HookList σ) (h : Heap) (i : Nat) (smp : SampleId) :
    SameHooks hs (hs.processOne h i smp).1 :=
  ⟨rfl, rfl, retainAll_length ..⟩

theorem processChain_same (hs : HookList σ) (h : Heap) (smp : SampleId) (i n : Nat) :
    SameHooks hs (hs.processChain h smp i n).1 := by
  induction n generalizing hs h i with
  | zero => exact .refl hs
  | succ n ih =>
    unfold HookList.processChain
    have hone := processOne_same hs h i smp
    split
    · rename_i hs₁ h₁ heq
      rw [heq] at hone
      exact hone.trans (ih hs₁ h₁ (i + 1))
    · exact hone

theorem processChain_fixed {s : SampleId} (i n : Nat) (hle : i + n ≤ hs.retained.length)
    (hfix : s = smp → hs.Fixes (h.payload s)) :
    (hs.processChain h smp i n).2.1.payload s = h.payload s := by
  induction n generalizing hs h i with
  | zero => rfl
  | succ n ih =>
    have hone : (hs.processOne h i smp).2.1.payload s = h.payload s := by
      rw [processOne_payload]
      split
      · rename_i hs'
        subst hs'
        exact hfix rfl i (by omega) _ _
      · rfl
    have hsame := processOne_same hs h i smp
    unfold HookList.processChain
    split
    · rename_i hs₁ h₁ heq
      rw [heq] at hone hsame
      dsimp only at hone hsame
      rw [ih (i + 1) (by rw [hsame.length]; omega) (fun heq => by rw [hone]; exact hsame.fixes (hfix heq)), hone]
    · exact hone

theorem processLoop_fixed {s : SampleId} (smps : List SampleId) (current processed n : Nat)
    (hfix : s ∈ smps → hs.Fixes (h.payload s)) :
    (hs.processLoop h smps current processed n).2.1.payload s = h.payload s ∧
      SameHooks hs (hs.processLoop h smps current processed n).1 := by
  induction n generalizing hs h smps current processed with
  | zero => exact ⟨rfl, .refl hs⟩
  | succ n ih =>
    unfold HookList.processLoop
    split
    · exact ⟨rfl, .refl hs⟩
    rename_i smp hget
    have hchain : (hs.processChain h smp 0 hs.retained.length).2.1.payload s = h.payload s := by
      refine processChain_fixed 0 _ (by omega) ?_
      rintro rfl
      exact hfix (List.mem_of_getElem? hget)
    have hsame := processChain_same hs h smp 0 hs.retained.length
    split
    · rename_i heq
      rw [heq] at hchain hsame
      exact ⟨hchain, hsame⟩
    · rename_i hs₁ h₁ heq
      rw [heq] at hchain hsame
      dsimp only at hchain hsame
      have hfix₁ : s ∈ smps → hs₁.Fixes (h₁.payload s) := by
        intro hmem
        rw [hchain]
        exact hsame.fixes (hfix hmem)
      obtain ⟨hpayload, hsame'⟩ := ih smps (current + 1) processed hfix₁
      exact ⟨hpayload.trans hchain, hsame.trans hsame'⟩
    · rename_i hs₁ h₁ reason hne hne' heq
      rw [heq] at hchain hsame
      dsimp only at hchain hsame
      have hfix₁ : s ∈ HookList.swap smps processed current → hs₁.Fixes (h₁.payload s) := by
        intro hmem
        rw [hchain]
        exact hsame.fixes (hfix ((swap_perm smps processed current).mem_iff.mp hmem))
      obtain ⟨hpayload, hsame'⟩ := ih _ (current + 1) (processed + 1) hfix₁
      exact ⟨hpayload.trans hchain, hsame.trans hsame'⟩

theorem hookListProcess_fixed {s : SampleId} (smps : List SampleId)
    (hfix : s ∈ smps → hs.Fixes (h.payload s)) :
    (hs.hookListProcess h smps).2.1.payload s = h.payload s ∧
      SameHooks hs (hs.hookListProcess h smps).1 := by
  unfold HookList.hookListProcess
  split
  · exact ⟨rfl, .refl hs⟩
  · exact processLoop_fixed smps 0 0 smps.length hfix

/-! ## What they see -/

def AgreeOn (S : SampleId → Prop) (h h' : Heap) : Prop := ∀ s, S s → h.payload s = h'.payload s

def HookList.Within (hs : HookList σ) (S : SampleId → Prop) : Prop := ∀ s, some s ∈ hs.retained → S s

theorem retain_snd (h h' : Heap) (smp : SampleId) (prev : Option SampleId) (retention : Retention) :
    (h.retain smp prev retention).2 = (h'.retain smp prev retention).2 := by
  rcases prev with _ | prev <;> rcases retention with _ | _ | _ <;> rfl

theorem mem_retain {s : SampleId} {prev : Option SampleId} {retention : Retention}
    (hs : some s = (h.retain smp prev retention).2) : s = smp ∨ some s = prev := by
  rcases prev with _ | prev <;> rcases retention with _ | _ | _ <;>
    simp [Heap.retain] at hs ⊢ <;> simp [hs]

theorem retainAll_snd (h h' : Heap) (smp : SampleId) (retention : Nat → Retention) (i : Nat)
    (prevs : List (Option SampleId)) :
    (h.retainAll smp retention i prevs).2 = (h'.retainAll smp retention i prevs).2 := by
  induction prevs generalizing h h' i with
  | nil => rfl
  | cons prev prevs ih =>
    unfold Heap.retainAll
    dsimp only
    rw [retain_snd h h', ih]

theorem mem_retainAll {s : SampleId} {retention : Nat → Retention} {i : Nat}
    {prevs : List (Option SampleId)} (hs : some s ∈ (h.retainAll smp retention i prevs).2) :
    s = smp ∨ some s ∈ prevs := by
  induction prevs generalizing h i with
  | nil => cases hs
  | cons prev prevs ih =>
    unfold Heap.retainAll at hs
    rcases List.mem_cons.mp hs with hs | hs
    · rcases mem_retain hs with hs | hs
      · exact .inl hs
      · exact .inr (hs ▸ List.mem_cons_self)
    · exact (ih hs).imp_right (List.mem_cons_of_mem prev)

theorem processOne_agree (i : Nat) (hagree : AgreeOn S h h') (hwithin : hs.Within S) (hsmp : S smp) :
    ∃ h₁', hs.processOne h' i smp =
        ((hs.processOne h i smp).1, h₁', (hs.processOne h i smp).2.2) ∧
      AgreeOn S (hs.processOne h i smp).2.1 h₁' ∧ (hs.processOne h i smp).1.Within S := by
  have hprevs : hs.retained.map (Option.map h'.payload) = hs.retained.map (Option.map h.payload) := by
    apply List.map_congr_left
    rintro (_ | s) hs'
    · rfl
    · rw [Option.map_some, Option.map_some, hagree s (hwithin s hs')]
  have hone : ∀ s, S s → (hs.processOne h i smp).2.1.payload s = (hs.processOne h' i smp).2.1.payload s := by
    intro s hS
    rw [processOne_payload, processOne_payload, hprevs, ← hagree smp hsmp, hagree s hS]
  refine ⟨_, ?_, hone, ?_⟩
  · unfold HookList.processOne
    dsimp only
    rw [hprevs, ← hagree smp hsmp, retainAll_snd h' h]
  · intro s hs'
    rcases mem_retainAll hs' with rfl | hmem
    · exact hsmp
    · exact hwithin s hmem

theorem processChain_agree (i n : Nat) (hagree : AgreeOn S h h') (hwithin : hs.Within S)
    (hsmp : S smp) :
    ∃ h₁', hs.processChain h' smp i n =
        ((hs.processChain h smp i n).1, h₁', (hs.processChain h smp i n).2.2) ∧
      AgreeOn S (hs.processChain h smp i n).2.1 h₁' ∧ (hs.processChain h smp i n).1.Within S := by
  induction n generalizing hs h h' i with
  | zero => exact ⟨h', rfl, hagree, hwithin⟩
  | succ n ih =>
    obtain ⟨h₁', heq, hagree₁, hwithin₁⟩ := processOne_agree i hagree hwithin hsmp
    unfold HookList.processChain
    rw [heq]
    generalize hs.processOne h i smp = r at *
    obtain ⟨hs₁, h₁, reason⟩ := r
    dsimp only at *
    cases reason with
    | ok => exact ih (i + 1) hagree₁ hwithin₁
    | error => exact ⟨h₁', rfl, hagree₁, hwithin₁⟩
    | skipSample => exact ⟨h₁', rfl, hagree₁, hwithin₁⟩
    | stopProcessing => exact ⟨h₁', rfl, hagree₁, hwithin₁⟩

theorem processLoop_agree (smps : List SampleId) (current processed n : Nat) (hagree : AgreeOn S h h')
    (hwithin : hs.Within S) (hsmps : ∀ s ∈ smps, S s) :
    ∃ h₁', hs.processLoop h' smps current processed n =
        ((hs.processLoop h smps current processed n).1, h₁',
          (hs.processLoop h smps current processed n).2.2) ∧
      AgreeOn S (hs.processLoop h smps current processed n).2.1 h₁' ∧
      (hs.processLoop h smps current processed n).1.Within S ∧
      ∀ s ∈ (hs.processLoop h smps current processed n).2.2.1, S s := by
  induction n generalizing hs h h' smps current processed with
  | zero => exact ⟨h', rfl, hagree, hwithin, hsmps⟩
  | succ n ih =>
    unfold HookList.processLoop
    cases hget : smps[current]? with
    | none => exact ⟨h', rfl, hagree, hwithin, hsmps⟩
    | some smp =>
      dsimp only
      obtain ⟨h₁', heq, hagree₁, hwithin₁⟩ := processChain_agree 0 hs.retained.length hagree hwithin
        (hsmps smp (List.mem_of_getElem? hget))
      rw [heq]
      generalize hs.processChain h smp 0 hs.retained.length = r at *
      obtain ⟨hs₁, h₁, reason⟩ := r
      dsimp only at *
      have hswap : ∀ s ∈ HookList.swap smps processed current, S s :=
        fun s hs => hsmps s ((swap_perm smps processed current).mem_iff.mp hs)
      cases reason with
      | ok => exact ih _ _ _ hagree₁ hwithin₁ hswap
      | error => exact ⟨h₁', rfl, hagree₁, hwithin₁, hsmps⟩
      | skipSample => exact ih _ _ _ hagree₁ hwithin₁ hsmps
      | stopProcessing => exact ih _ _ _ hagree₁ hwithin₁ hswap

theorem hookListProcess_agree {smps : List SampleId} (hagree : AgreeOn S h h')
    (hwithin : hs.Within S) (hsmps : ∀ s ∈ smps, S s) :
    ∃ h₁', hs.hookListProcess h' smps =
        ((hs.hookListProcess h smps).1, h₁', (hs.hookListProcess h smps).2.2) ∧
      AgreeOn S (hs.hookListProcess h smps).2.1 h₁' ∧ (hs.hookListProcess h smps).1.Within S ∧
      ∀ s ∈ (hs.hookListProcess h smps).2.2.1, S s := by
  unfold HookList.hookListProcess
  split
  · exact ⟨h', rfl, hagree, hwithin, hsmps⟩
  · exact processLoop_agree smps 0 0 smps.length hagree hwithin hsmps

end VillasNode
