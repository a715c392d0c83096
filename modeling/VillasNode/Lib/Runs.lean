import Mathlib.Data.List.Basic

/-!
# Runs of a step function

A system is a step function that may refuse an action. A run is a list of
actions, all of them taken. The invariant rules here are the only inductions
over runs in this development.
-/

namespace Runs

variable {σ ω : Type*}

/-- Take the actions in order. `none` when one of them is refused. -/
def run (step : σ → ω → Option σ) : σ → List ω → Option σ
  | s, [] => some s
  | s, a :: as => (step s a).bind fun s' => run step s' as

/-- Every step of the run meets `G`, a condition on the state before it and its action. -/
def Along (step : σ → ω → Option σ) (G : σ → ω → Prop) : σ → List ω → Prop
  | _, [] => True
  | s, a :: as => G s a ∧ ∀ s', step s a = some s' → Along step G s' as

variable {step : σ → ω → Option σ}

instance decidableAlong (G : σ → ω → Prop) [∀ s a, Decidable (G s a)] :
    ∀ (s : σ) (as : List ω), Decidable (Along step G s as)
  | _, [] => .isTrue trivial
  | s, a :: as =>
    match h : step s a with
    | none => decidable_of_iff (G s a) (by simp [Along, h])
    | some s' =>
      have := decidableAlong G s' as
      decidable_of_iff (G s a ∧ Along step G s' as) (by simp [Along, h])

@[simp]
theorem run_nil (s : σ) : run step s [] = some s := rfl

theorem run_cons (s : σ) (a : ω) (as : List ω) :
    run step s (a :: as) = (step s a).bind fun s' => run step s' as := rfl

theorem run_append (s : σ) (as bs : List ω) :
    run step s (as ++ bs) = (run step s as).bind fun s' => run step s' bs := by
  induction as generalizing s with
  | nil => rfl
  | cons a as ih =>
    rw [List.cons_append, run_cons, run_cons, Option.bind_assoc]
    exact congrArg _ (funext ih)

theorem run_cons_eq_some {s s' : σ} {a : ω} {as : List ω} :
    run step s (a :: as) = some s' ↔ ∃ s₁, step s a = some s₁ ∧ run step s₁ as = some s' := by
  rw [run_cons, Option.bind_eq_some_iff]

theorem Along.mono {G G' : σ → ω → Prop} (hle : ∀ s a, G s a → G' s a) {s : σ} {as : List ω}
    (h : Along step G s as) : Along step G' s as := by
  induction as generalizing s with
  | nil => trivial
  | cons a as ih => exact ⟨hle s a h.1, fun s' hs' => ih (h.2 s' hs')⟩

theorem Along.and {G G' : σ → ω → Prop} {s : σ} {as : List ω} (h : Along step G s as)
    (h' : Along step G' s as) : Along step (fun s a => G s a ∧ G' s a) s as := by
  induction as generalizing s with
  | nil => trivial
  | cons a as ih => exact ⟨⟨h.1, h'.1⟩, fun s' hs' => ih (h.2 s' hs') (h'.2 s' hs')⟩

theorem along_cons_iff {G : σ → ω → Prop} {s s' : σ} {a : ω} {as : List ω} (h : step s a = some s') :
    Along step G s (a :: as) ↔ G s a ∧ Along step G s' as := by
  constructor
  · rintro ⟨ha, hrest⟩
    exact ⟨ha, hrest s' h⟩
  · rintro ⟨ha, hrest⟩
    refine ⟨ha, fun t ht => ?_⟩
    rw [h] at ht
    cases ht
    exact hrest

theorem along_true (s : σ) (as : List ω) : Along step (fun _ _ => True) s as := by
  induction as generalizing s with
  | nil => trivial
  | cons a as ih => exact ⟨trivial, fun s' _ => ih s'⟩

theorem along_of_forall {G : σ → ω → Prop} {as : List ω} (h : ∀ a ∈ as, ∀ s, G s a) (s : σ) :
    Along step G s as := by
  induction as generalizing s with
  | nil => trivial
  | cons a as ih =>
    rw [List.forall_mem_cons] at h
    exact ⟨h.1 s, fun s' _ => ih h.2 s'⟩

/-- What every good step keeps holds at the end of every good run. -/
theorem invariant {G : σ → ω → Prop} {I : σ → Prop}
    (hstep : ∀ s a s', I s → G s a → step s a = some s' → I s')
    {s s' : σ} {as : List ω} (hI : I s) (hG : Along step G s as)
    (hrun : run step s as = some s') : I s' := by
  induction as generalizing s with
  | nil =>
    cases hrun
    exact hI
  | cons a as ih =>
    obtain ⟨s₁, h₁, h₂⟩ := run_cons_eq_some.1 hrun
    exact ih (hstep s a s₁ hI hG.1 h₁) (hG.2 s₁ h₁) h₂

theorem always {I : σ → Prop} (hstep : ∀ s a s', I s → step s a = some s' → I s')
    {s s' : σ} {as : List ω} (hI : I s) (hrun : run step s as = some s') : I s' :=
  invariant (fun s a s' hI _ => hstep s a s' hI) hI (along_true s as) hrun

theorem Along.invariant_imp {G G' : σ → ω → Prop} {I : σ → Prop} (himp : ∀ s a, I s → G s a → G' s a)
    (hstep : ∀ s a s', I s → G s a → step s a = some s' → I s') {s : σ} {as : List ω}
    (h : Along step G s as) (hI : I s) : Along step G' s as := by
  induction as generalizing s with
  | nil => trivial
  | cons a as ih => exact ⟨himp s a hI h.1, fun s' hs' => ih (h.2 s' hs') (hstep s a s' hI h.1 hs')⟩

/-- Two step functions agree on a run and on all its beginnings if and only if they agree on each of
its steps. -/
theorem run_prefixes_eq_iff {step step' : σ → ω → Option σ} {G : σ → ω → Prop}
    (hiff : ∀ s a, step s a = step' s a ↔ G s a) {s : σ} {as : List ω} :
    (∀ front, front <+: as → run step s front = run step' s front) ↔ Along step G s as := by
  induction as generalizing s with
  | nil =>
    refine iff_of_true (fun front hfront => ?_) trivial
    rw [List.prefix_nil.mp hfront]
    rfl
  | cons a as ih =>
    constructor
    · intro hall
      have hone : step s a = step' s a := by
        have hrun := hall [a] (List.prefix_append [a] as)
        simpa only [run_cons, run_nil, Option.bind_fun_some] using hrun
      refine ⟨(hiff s a).mp hone, fun s' hs' => ih.mp fun front hfront => ?_⟩
      have hrun := hall (a :: front) (List.cons_prefix_cons.mpr ⟨rfl, hfront⟩)
      rwa [run_cons, run_cons, ← hone, hs', Option.bind_some, Option.bind_some] at hrun
    · rintro ⟨ha, hrest⟩ front hfront
      cases front with
      | nil => rfl
      | cons b front =>
        obtain ⟨rfl, htail⟩ := List.cons_prefix_cons.mp hfront
        rw [run_cons, run_cons, ← (hiff s b).mpr ha]
        cases hs' : step s b with
        | none => rfl
        | some s' => exact ih.mpr (hrest s' hs') front htail

/-- If the invariant gives `P`, and a step outside `G` leads to a state without it, then `P` holds in
every state of a run exactly if all its steps are in `G`. -/
theorem prefixes_iff {G : σ → ω → Prop} {I P : σ → Prop} (hP : ∀ s, I s → P s)
    (hstep : ∀ s a s', I s → G s a → step s a = some s' → I s')
    (hnot : ∀ s a s', I s → step s a = some s' → ¬ G s a → ¬ P s')
    {s t : σ} {as : List ω} (hI : I s) (hrun : run step s as = some t) :
    (∀ front s', front <+: as → run step s front = some s' → P s') ↔ Along step G s as := by
  induction as generalizing s with
  | nil =>
    refine iff_of_true (fun front s' hfront hrun => ?_) trivial
    rw [List.prefix_nil.mp hfront] at hrun
    cases hrun
    exact hP s hI
  | cons a as ih =>
    obtain ⟨s₁, h₁, h₂⟩ := run_cons_eq_some.1 hrun
    rw [along_cons_iff h₁]
    constructor
    · intro hall
      have ha : G s a := by
        by_contra ha
        refine hnot s a s₁ hI h₁ ha (hall [a] s₁ (List.prefix_append [a] as) ?_)
        exact run_cons_eq_some.2 ⟨s₁, h₁, rfl⟩
      refine ⟨ha, (ih (hstep s a s₁ hI ha h₁) h₂).mp fun front s' hfront hrun' => ?_⟩
      refine hall (a :: front) s' (List.cons_prefix_cons.mpr ⟨rfl, hfront⟩) ?_
      exact run_cons_eq_some.2 ⟨s₁, h₁, hrun'⟩
    · rintro ⟨ha, halong⟩ front s' hfront hrun'
      cases front with
      | nil =>
        cases hrun'
        exact hP s hI
      | cons b front =>
        obtain ⟨rfl, htail⟩ := List.cons_prefix_cons.mp hfront
        rw [run_cons, h₁] at hrun'
        exact (ih (hstep s b s₁ hI ha h₁) h₂).mpr halong front s' htail hrun'

/-- A run is possible if and only if each of its steps is good, if good steps are just the possible
ones. -/
theorem run_exists_iff {G : σ → ω → Prop} {I : σ → Prop} {P : ω → Prop}
    (hiff : ∀ s a, I s → P a → ((∃ s', step s a = some s') ↔ G s a))
    (hstep : ∀ s a s', I s → P a → step s a = some s' → I s') {s : σ} {as : List ω} (hI : I s)
    (hP : ∀ a ∈ as, P a) : (∃ s', run step s as = some s') ↔ Along step G s as := by
  induction as generalizing s with
  | nil => exact iff_of_true ⟨s, rfl⟩ trivial
  | cons a as ih =>
    rw [List.forall_mem_cons] at hP
    constructor
    · rintro ⟨s', hrun⟩
      obtain ⟨s₁, h₁, h₂⟩ := run_cons_eq_some.1 hrun
      have hrest := (ih (hstep s a s₁ hI hP.1 h₁) hP.2).mp ⟨s', h₂⟩
      exact (along_cons_iff h₁).mpr ⟨(hiff s a hI hP.1).mp ⟨s₁, h₁⟩, hrest⟩
    · rintro ⟨ha, hrest⟩
      obtain ⟨s₁, h₁⟩ := (hiff s a hI hP.1).mpr ha
      obtain ⟨s', h₂⟩ := (ih (hstep s a s₁ hI hP.1 h₁) hP.2).mpr (hrest s₁ h₁)
      exact ⟨s', run_cons_eq_some.2 ⟨s₁, h₁, h₂⟩⟩

/-- Simulation: good steps are possible, and they follow the total function `next`. -/
theorem simulates {τ : Type*} {G : σ → ω → Prop} {next : τ → ω → τ} {R : σ → τ → Prop}
    (hstep : ∀ s t a, R s t → G s a → ∃ s', step s a = some s' ∧ R s' (next t a))
    {s : σ} {t : τ} {as : List ω} (hR : R s t) (hG : Along step G s as) :
    ∃ s', run step s as = some s' ∧ R s' (as.foldl next t) := by
  induction as generalizing s t with
  | nil => exact ⟨s, rfl, hR⟩
  | cons a as ih =>
    obtain ⟨s₁, h₁, hR₁⟩ := hstep s t a hR hG.1
    obtain ⟨s', hrun, hR'⟩ := ih hR₁ (hG.2 s₁ h₁)
    exact ⟨s', run_cons_eq_some.2 ⟨s₁, h₁, hrun⟩, hR'⟩

/-- Two conditions that agree on the states of `I` agree on whole runs, if good steps stay in `I`. -/
theorem along_iff {G G' : σ → ω → Prop} {I : σ → Prop} {P : ω → Prop}
    (hiff : ∀ s a, I s → P a → (G s a ↔ G' s a))
    (hstep : ∀ s a s', I s → P a → G s a → step s a = some s' → I s')
    {as bs : List ω} (hlast : ∀ s, I s → (Along step G s bs ↔ Along step G' s bs))
    {s : σ} (hI : I s) (hP : ∀ a ∈ as, P a) :
    Along step G s (as ++ bs) ↔ Along step G' s (as ++ bs) := by
  induction as generalizing s with
  | nil => exact hlast s hI
  | cons a as ih =>
    have ha := hP a (by simp)
    simp only [List.cons_append, Along]
    rw [← hiff s a hI ha]
    apply and_congr_right
    intro hG
    apply forall₂_congr
    intro s' hs'
    exact ih (hstep s a s' hI ha hG hs') fun b hb => hP b (by simp [hb])

theorem along_congr {G G' : σ → ω → Prop} {I : σ → Prop} (hiff : ∀ s a, I s → (G s a ↔ G' s a))
    (hstep : ∀ s a s', I s → G s a → step s a = some s' → I s') {s : σ} {as : List ω} (hI : I s) :
    Along step G s as ↔ Along step G' s as := by
  have happend := @along_iff σ ω step G G' I (fun _ => True) (fun s a hs _ => hiff s a hs)
    (fun s a s' hs _ => hstep s a s' hs) as [] (fun _ _ => Iff.rfl) s hI fun _ _ => trivial
  rwa [List.append_nil] at happend

/-- If a step keeps `Q` exactly when it is good, `Q` holds at the end exactly of the good runs. -/
theorem along_iff_last {G : σ → ω → Prop} {I Q : σ → Prop}
    (hinv : ∀ s a s', I s → step s a = some s' → I s')
    (hiff : ∀ s a s', I s → step s a = some s' → (Q s' ↔ Q s ∧ G s a))
    {s s' : σ} {as : List ω} (hI : I s) (hrun : run step s as = some s') :
    Q s' ↔ Q s ∧ Along step G s as := by
  induction as generalizing s with
  | nil =>
    cases hrun
    simp [Along]
  | cons a as ih =>
    obtain ⟨s₁, h₁, h₂⟩ := run_cons_eq_some.1 hrun
    rw [ih (hinv s a s₁ hI h₁) h₂, hiff s a s₁ hI h₁]
    simp [Along, h₁, and_assoc]

/-- Unwinding: what `mine` actions see is what they see when all others are left out, if `mine`
actions take agreeing states to agreeing states and the others go unseen. -/
theorem purge {G : σ → ω → Prop} {Agree : σ → σ → Prop} (mine : ω → Bool)
    (hmine : ∀ s t a s', Agree s t → mine a → step s a = some s' →
      ∃ t', step t a = some t' ∧ Agree s' t')
    (hother : ∀ s t a s', Agree s t → ¬ mine a → G s a → step s a = some s' → Agree s' t)
    {s s' t : σ} {as : List ω} (hst : Agree s t) (hG : Along step G s as)
    (hrun : run step s as = some s') :
    ∃ t', run step t (as.filter mine) = some t' ∧ Agree s' t' := by
  induction as generalizing s t with
  | nil =>
    cases hrun
    exact ⟨t, rfl, hst⟩
  | cons a as ih =>
    obtain ⟨s₁, h₁, h₂⟩ := run_cons_eq_some.1 hrun
    by_cases hm : mine a
    · obtain ⟨t₁, ht₁, hst₁⟩ := hmine s t a s₁ hst hm h₁
      obtain ⟨t', ht', hst'⟩ := ih hst₁ (hG.2 s₁ h₁) h₂
      refine ⟨t', ?_, hst'⟩
      rw [List.filter_cons_of_pos hm, run_cons, ht₁]
      exact ht'
    · rw [List.filter_cons_of_neg hm]
      exact ih (hother s t a s₁ hst hm hG.1 h₁) (hG.2 s₁ h₁) h₂

/-! ## Machines with an output at each step -/

section
variable {τ β : Type*}

def outputs (step : σ → ω → σ × β) : σ → List ω → List β
  | _, [] => []
  | s, a :: as => (step s a).2 :: outputs step (step s a).1 as

/-- Two machines that are in step say the same exactly along the runs on which each step meets
`G`. -/
theorem outputs_eq_iff {step : σ → ω → σ × β} {step' : τ → ω → τ × β} {R : σ → τ → Prop}
    {G : τ → ω → Prop} (hout : ∀ s t a, R s t → ((step s a).2 = (step' t a).2 ↔ G t a))
    (hstep : ∀ s t a, R s t → G t a → R (step s a).1 (step' t a).1) {s : σ} {t : τ} {as : List ω}
    (hR : R s t) :
    outputs step s as = outputs step' t as ↔ Along (fun t a => some (step' t a).1) G t as := by
  induction as generalizing s t with
  | nil => simp [outputs, Along]
  | cons a as ih =>
    rw [outputs, outputs, List.cons.injEq, hout s t a hR, along_cons_iff rfl]
    exact and_congr_right fun hG => ih (hstep s t a hR hG)

end

end Runs
