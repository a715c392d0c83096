import Mathlib.Data.List.Perm.Basic
import VillasNode.Hook.Isolation

/-!
# `hook_list_process` as a stable partition

The loop keeps the samples that passed in front, behind them those that were
skipped, and behind these the samples that it has not read. The calls of the
hooks are recorded next to the loop.
-/

namespace VillasNode

variable {σ : Type*}

/-! ## The calls of the hooks -/

/-- `process` of the hook with that index was given the sample and returned the reason. -/
structure HookCall where
  hook : Nat
  smp : SampleId
  reason : Reason
deriving DecidableEq

namespace HookList

/-- `processChain` with its calls. -/
def processChainLogged (hs : HookList σ) (h : Heap) (smp : SampleId) :
    Nat → Nat → (HookList σ × Heap × Reason) × List HookCall
  | _, 0 => ((hs, h, .ok), [])
  | i, n + 1 =>
    match hs.processOne h i smp with
    | (hs, h, .ok) =>
      let (r, calls) := hs.processChainLogged h smp (i + 1) n
      (r, ⟨i, smp, .ok⟩ :: calls)
    | r => (r, [⟨i, smp, r.2.2⟩])

/-- `processLoop` with its calls. -/
def processLoopLogged (hs : HookList σ) (h : Heap) (smps : List SampleId)
    (current processed : Nat) :
    Nat → (HookList σ × Heap × List SampleId × Option Nat) × List HookCall
  | 0 => ((hs, h, smps, some processed), [])
  | n + 1 =>
    match smps[current]? with
    | none => ((hs, h, smps, some processed), [])
    | some smp =>
      match hs.processChainLogged h smp 0 hs.retained.length with
      | ((hs, h, .error), calls) => ((hs, h, smps, none), calls)
      | ((hs, h, .skipSample), calls) =>
        let (r, rest) := hs.processLoopLogged h smps (current + 1) processed n
        (r, calls ++ rest)
      | ((hs, h, _), calls) =>
        let (r, rest) := hs.processLoopLogged h (swap smps processed current) (current + 1)
          (processed + 1) n
        (r, calls ++ rest)

/-- `hook_list_process` with its calls. -/
def hookListProcessLogged (hs : HookList σ) (h : Heap) (smps : List SampleId) :
    (HookList σ × Heap × List SampleId × Option Nat) × List HookCall :=
  if hs.retained.length = 0 then ((hs, h, smps, some smps.length), [])
  else hs.processLoopLogged h smps 0 0 smps.length

end HookList

theorem processChainLogged_result (hs : HookList σ) (h : Heap) (smp : SampleId) (i n : Nat) :
    (hs.processChainLogged h smp i n).1 = hs.processChain h smp i n := by
  induction n generalizing hs h i with
  | zero => rfl
  | succ n ih =>
    unfold HookList.processChainLogged HookList.processChain
    rcases hs.processOne h i smp with ⟨hs₁, h₁, reason⟩
    cases reason with
    | ok => exact ih hs₁ h₁ (i + 1)
    | error | skipSample | stopProcessing => rfl

theorem processLoopLogged_result (hs : HookList σ) (h : Heap) (smps : List SampleId)
    (current processed n : Nat) :
    (hs.processLoopLogged h smps current processed n).1 =
      hs.processLoop h smps current processed n := by
  induction n generalizing hs h smps current processed with
  | zero => rfl
  | succ n ih =>
    unfold HookList.processLoopLogged HookList.processLoop
    cases smps[current]? with
    | none => rfl
    | some smp =>
      dsimp only
      rw [← processChainLogged_result]
      rcases hs.processChainLogged h smp 0 hs.retained.length with ⟨⟨hs₁, h₁, reason⟩, calls⟩
      cases reason with
      | error => rfl
      | ok | skipSample | stopProcessing => exact ih ..

theorem hookListProcessLogged_result (hs : HookList σ) (h : Heap) (smps : List SampleId) :
    (hs.hookListProcessLogged h smps).1 = hs.hookListProcess h smps := by
  unfold HookList.hookListProcessLogged HookList.hookListProcess
  split
  · rfl
  · exact processLoopLogged_result ..

/-! ## What becomes of one sample -/

/-- A sample is given to `n` hooks in the order of the list. The first `passed` of them return `OK`.
Either these are all, or the next one decides. -/
structure Treated (n : Nat) where
  smp : SampleId
  passed : Nat
  reason : Reason
  decided : reason = .ok ∧ passed = n ∨ reason ≠ .ok ∧ passed < n

/-- The calls of the hooks from index `i` on that return `OK`. -/
def passes (smp : SampleId) (i n : Nat) : List HookCall := (List.range' i n).map fun i => ⟨i, smp, .ok⟩

def Treated.calls {n : Nat} (t : Treated n) : List HookCall :=
  passes t.smp 0 t.passed ++ if t.reason = .ok then [] else [⟨t.passed, t.smp, t.reason⟩]

/-- The samples that were not skipped, in order. -/
def keptOf {n : Nat} (ts : List (Treated n)) : List SampleId :=
  (ts.filter fun t => t.reason ≠ .skipSample).map Treated.smp

theorem processChainLogged_calls (hs : HookList σ) (h : Heap) (smp : SampleId) (i n : Nat) :
    let r := hs.processChainLogged h smp i n
    (r.1.2.2 = .ok ∧ r.2 = passes smp i n) ∨
      (r.1.2.2 ≠ .ok ∧ ∃ m < n, r.2 = passes smp i m ++ [⟨i + m, smp, r.1.2.2⟩]) := by
  induction n generalizing hs h i with
  | zero => exact .inl ⟨rfl, rfl⟩
  | succ n ih =>
    unfold HookList.processChainLogged
    rcases hs.processOne h i smp with ⟨hs₁, h₁, reason⟩
    cases reason with
    | ok =>
      have hrest := ih hs₁ h₁ (i + 1)
      dsimp only at hrest ⊢
      rcases hrest with ⟨hreason, hcalls⟩ | ⟨hreason, m, hm, hcalls⟩
      · refine .inl ⟨hreason, ?_⟩
        rw [hcalls]
        unfold passes
        rw [List.range'_succ, List.map_cons]
      · refine .inr ⟨hreason, m + 1, by omega, ?_⟩
        rw [hcalls]
        unfold passes
        rw [List.range'_succ, List.map_cons, List.cons_append, Nat.add_right_comm, Nat.add_assoc i m 1]
    | error | skipSample | stopProcessing => exact .inr ⟨by simp, 0, by omega, rfl⟩

theorem processChainLogged_treated (hs : HookList σ) (h : Heap) (smp : SampleId) (n : Nat) :
    ∃ t : Treated n, t.smp = smp ∧ t.reason = (hs.processChainLogged h smp 0 n).1.2.2 ∧
      t.calls = (hs.processChainLogged h smp 0 n).2 := by
  rcases processChainLogged_calls hs h smp 0 n with ⟨hreason, hcalls⟩ | ⟨hreason, m, hm, hcalls⟩
  · refine ⟨⟨smp, n, .ok, .inl ⟨rfl, rfl⟩⟩, rfl, hreason.symm, ?_⟩
    rw [hcalls]
    exact List.append_nil _
  · refine ⟨⟨smp, m, _, .inr ⟨hreason, hm⟩⟩, rfl, rfl, ?_⟩
    rw [hcalls, Treated.calls, if_neg hreason, Nat.zero_add]

/-! ## The array -/

theorem swap_partition (kept skipped rest : List SampleId) (smp : SampleId) :
    ∃ skipped', HookList.swap (kept ++ skipped ++ smp :: rest) kept.length
        (kept.length + skipped.length) = (kept ++ [smp]) ++ skipped' ++ rest ∧
      skipped'.length = skipped.length := by
  unfold HookList.swap
  cases skipped with
  | nil => exact ⟨[], by simp, rfl⟩
  | cons x skipped =>
    refine ⟨skipped ++ [x], ?_, by simp⟩
    have hfirst : (kept ++ x :: skipped ++ smp :: rest)[kept.length]? = some x := by simp
    have hcurrent : (kept ++ x :: skipped ++ smp :: rest)[kept.length + (x :: skipped).length]? =
        some smp := by
      rw [← List.length_append, List.getElem?_append_right (le_refl _), Nat.sub_self]
      rfl
    rw [hfirst, hcurrent]
    dsimp only
    have hset : (kept ++ x :: skipped ++ smp :: rest).set kept.length smp =
        (kept ++ smp :: skipped) ++ smp :: rest := by simp
    rw [hset]
    have hlen : kept.length + (x :: skipped).length = (kept ++ smp :: skipped).length := by simp
    rw [hlen, List.set_append_right _ _ (le_refl _), Nat.sub_self]
    simp

/-- Where the loop is: it has read `kept` and `skipped`. -/
structure Partition (kept skipped rest smps : List SampleId) (current processed n : Nat) : Prop where
  array : smps = kept ++ skipped ++ rest
  current : current = kept.length + skipped.length
  processed : processed = kept.length
  rest : n = rest.length

/-- What the loop makes of the samples it has not read, from the calls of its hooks. -/
structure Partitioned (n : Nat) (kept rest smps : List SampleId)
    (r : (HookList σ × Heap × List SampleId × Option Nat) × List HookCall) (ts : List (Treated n)) :
    Prop where
  given : ts.map Treated.smp = rest
  ok : ∀ t ∈ ts, t.reason ≠ .error
  calls : r.2 = ts.flatMap Treated.calls
  perm : r.1.2.2.1.Perm smps
  processed : r.1.2.2.2 = some (kept ++ keptOf ts).length
  kept : (kept ++ keptOf ts) <+: r.1.2.2.1

theorem error_mem_calls {n : Nat} {t : Treated n} (herror : t.reason = .error) :
    ∃ c ∈ t.calls, c.reason = .error := by
  refine ⟨⟨t.passed, t.smp, t.reason⟩, ?_, herror⟩
  unfold Treated.calls
  rw [if_neg (by simp [herror])]
  simp

theorem ok_of_mem_calls {n : Nat} {t : Treated n} {c : HookCall} (hok : t.reason ≠ .error)
    (hc : c ∈ t.calls) : c.reason ≠ .error := by
  unfold Treated.calls passes at hc
  rcases List.mem_append.mp hc with hc | hc
  · obtain ⟨i, -, rfl⟩ := List.mem_map.mp hc
    simp
  · split at hc
    · cases hc
    · rw [List.mem_singleton] at hc
      rw [hc]
      exact hok

theorem keptOf_cons_skipped {n : Nat} {t : Treated n} (ts : List (Treated n))
    (hskip : t.reason = .skipSample) : keptOf (t :: ts) = keptOf ts := by
  simp [keptOf, hskip]

theorem keptOf_cons_kept {n : Nat} {t : Treated n} (ts : List (Treated n))
    (hkeep : t.reason ≠ .skipSample) : keptOf (t :: ts) = t.smp :: keptOf ts := by
  simp [keptOf, hkeep]

theorem Partitioned.cons {n : Nat} {kept kept' rest smps smps' : List SampleId}
    {r : (HookList σ × Heap × List SampleId × Option Nat) × List HookCall} {t : Treated n}
    {ts : List (Treated n)} (hts : Partitioned n kept' rest smps' r ts) (hok : t.reason ≠ .error)
    (hkept : kept ++ keptOf (t :: ts) = kept' ++ keptOf ts) (hperm : smps'.Perm smps) :
    Partitioned n kept (t.smp :: rest) smps (r.1, t.calls ++ r.2) (t :: ts) := by
  refine ⟨?_, List.forall_mem_cons.mpr ⟨hok, hts.ok⟩, ?_, hts.perm.trans hperm, ?_, ?_⟩
  · rw [List.map_cons, hts.given]
  · rw [List.flatMap_cons, ← hts.calls]
  · rw [hkept]
    exact hts.processed
  · rw [hkept]
    exact hts.kept

theorem processLoopLogged_partitioned {len : Nat} (hs : HookList σ) (h : Heap)
    {kept skipped rest smps : List SampleId} {current processed n : Nat}
    (hlen : hs.retained.length = len) (hpart : Partition kept skipped rest smps current processed n) :
    (∃ ts, Partitioned len kept rest smps (hs.processLoopLogged h smps current processed n) ts) ∨
      ((hs.processLoopLogged h smps current processed n).1.2.2.2 = none ∧
        ∃ c ∈ (hs.processLoopLogged h smps current processed n).2, c.reason = .error) := by
  induction n generalizing hs h kept skipped rest smps current processed with
  | zero =>
    obtain ⟨rfl, rfl, rfl, hrest⟩ := hpart
    obtain rfl := List.length_eq_zero_iff.mp hrest.symm
    left
    refine ⟨[], rfl, nofun, rfl, .refl _, ?_, ?_⟩
    · simp [keptOf, HookList.processLoopLogged]
    · simp [keptOf, HookList.processLoopLogged]
  | succ n ih =>
    obtain ⟨rfl, rfl, rfl, hrest⟩ := hpart
    obtain ⟨smp, rest, rfl⟩ := List.exists_cons_of_length_eq_add_one hrest.symm
    have hget : (kept ++ skipped ++ smp :: rest)[kept.length + skipped.length]? = some smp := by
      rw [← List.length_append, List.getElem?_append_right (le_refl _), Nat.sub_self]
      rfl
    subst hlen
    obtain ⟨t, rfl, hreason, hcalls⟩ := processChainLogged_treated hs h smp hs.retained.length
    have hsame := processChain_same hs h t.smp 0 hs.retained.length
    rw [← processChainLogged_result] at hsame
    unfold HookList.processLoopLogged
    rw [hget]
    dsimp only
    generalize hs.processChainLogged h t.smp 0 hs.retained.length = r at hreason hcalls hsame ⊢
    obtain ⟨⟨hs₁, h₁, reason⟩, calls⟩ := r
    dsimp only at hreason hcalls hsame
    subst hreason hcalls
    have herror_append : ∀ {rest : List HookCall}, (∃ c ∈ rest, c.reason = .error) →
        ∃ c ∈ t.calls ++ rest, c.reason = .error := by
      rintro rest ⟨c, hc, herror⟩
      exact ⟨c, List.mem_append_right _ hc, herror⟩
    cases hreason : t.reason with
    | error => exact .inr ⟨rfl, error_mem_calls hreason⟩
    | skipSample =>
      have hpart₁ : Partition kept (skipped ++ [t.smp]) rest (kept ++ skipped ++ t.smp :: rest)
          (kept.length + skipped.length + 1) kept.length n := by
        refine ⟨by simp, by simp [Nat.add_assoc], rfl, by simpa using hrest⟩
      rcases ih hs₁ h₁ hsame.length hpart₁ with ⟨ts, hts⟩ | ⟨hnone, herror⟩
      · have hkept := congrArg (kept ++ ·) (keptOf_cons_skipped ts hreason)
        exact .inl ⟨t :: ts, hts.cons (by simp [hreason]) hkept (.refl _)⟩
      · exact .inr ⟨hnone, herror_append herror⟩
    | ok | stopProcessing =>
      have hkeep : t.reason ≠ .skipSample := by simp [hreason]
      obtain ⟨skipped', hswap, hlen⟩ := swap_partition kept skipped rest t.smp
      have hperm := swap_perm (kept ++ skipped ++ t.smp :: rest) kept.length
        (kept.length + skipped.length)
      have hpart₁ : Partition (kept ++ [t.smp]) skipped' rest
          (HookList.swap (kept ++ skipped ++ t.smp :: rest) kept.length
            (kept.length + skipped.length))
          (kept.length + skipped.length + 1) (kept.length + 1) n := by
        refine ⟨hswap, ?_, by simp, by simpa using hrest⟩
        rw [List.length_append, List.length_singleton, hlen]
        omega
      rcases ih hs₁ h₁ hsame.length hpart₁ with ⟨ts, hts⟩ | ⟨hnone, herror⟩
      · have hkept : kept ++ keptOf (t :: ts) = kept ++ [t.smp] ++ keptOf ts := by
          rw [keptOf_cons_kept ts hkeep, List.append_assoc]
          rfl
        exact .inl ⟨t :: ts, hts.cons (by simp [hreason]) hkept hperm⟩
      · exact .inr ⟨hnone, herror_append herror⟩

theorem hookListProcessLogged_partitioned (hs : HookList σ) (h : Heap) (smps : List SampleId) :
    (∃ ts, Partitioned hs.retained.length [] smps smps (hs.hookListProcessLogged h smps) ts) ∨
      ((hs.hookListProcessLogged h smps).1.2.2.2 = none ∧
        ∃ c ∈ (hs.hookListProcessLogged h smps).2, c.reason = .error) := by
  unfold HookList.hookListProcessLogged
  split
  · rename_i hzero
    rw [hzero]
    let pass (smp : SampleId) : Treated 0 := ⟨smp, 0, .ok, .inl ⟨rfl, rfl⟩⟩
    have hkept : keptOf (smps.map pass) = smps := by
      unfold keptOf
      rw [List.filter_eq_self.mpr (by simp [pass]), List.map_map]
      exact List.map_id _
    refine .inl ⟨smps.map pass, ?_, ?_, ?_, .refl _, ?_, ?_⟩
    · rw [List.map_map]
      exact List.map_id _
    · simp [pass]
    · simp [pass, Treated.calls, passes]
    · rw [hkept]
      rfl
    · rw [hkept]
      exact List.prefix_refl _
  · have hstart : Partition [] [] smps smps 0 0 smps.length := ⟨by simp, by simp, rfl, rfl⟩
    exact processLoopLogged_partitioned hs h rfl hstart

theorem hookListProcess_fails_iff (hs : HookList σ) (h : Heap) (smps : List SampleId) :
    (hs.hookListProcess h smps).2.2.2 = none ↔
      ∃ c ∈ (hs.hookListProcessLogged h smps).2, c.reason = .error := by
  rw [← hookListProcessLogged_result]
  rcases hookListProcessLogged_partitioned hs h smps with ⟨ts, hts⟩ | ⟨hnone, herror⟩
  · constructor
    · intro hnone
      rw [hts.processed] at hnone
      cases hnone
    · rintro ⟨c, hc, herror⟩
      rw [hts.calls] at hc
      obtain ⟨t, ht, hc⟩ := List.mem_flatMap.mp hc
      exact absurd herror (ok_of_mem_calls (hts.ok t ht) hc)
  · exact iff_of_true hnone herror

theorem hookListProcess_le {hs : HookList σ} {h : Heap} {smps : List SampleId} {processed : Nat}
    (hprocessed : (hs.hookListProcess h smps).2.2.2 = some processed) :
    processed ≤ smps.length := by
  rw [← hookListProcessLogged_result] at hprocessed
  rcases hookListProcessLogged_partitioned hs h smps with ⟨ts, hts⟩ | ⟨hnone, -⟩
  · rw [hts.processed] at hprocessed
    cases hprocessed
    have hle := hts.kept.length_le
    rwa [hts.perm.length_eq] at hle
  · rw [hprocessed] at hnone
    cases hnone

theorem hookListProcess_within {hs : HookList σ} {h : Heap} {smps : List SampleId} {processed : Nat}
    (hprocessed : (hs.hookListProcess h smps).2.2.2 = some processed) :
    processed ≤ (hs.hookListProcess h smps).2.2.1.length := by
  rw [← hookListProcessLogged_result] at hprocessed ⊢
  rcases hookListProcessLogged_partitioned hs h smps with ⟨ts, hts⟩ | ⟨hnone, -⟩
  · rw [hts.processed] at hprocessed
    cases hprocessed
    exact hts.kept.length_le
  · rw [hprocessed] at hnone
    cases hnone

/-- For every hook list and every batch, if no hook returns an error: each sample was given to every
hook up to the one that skipped or stopped it, in the order of the list and once. The array is a
permutation of the batch that begins with the samples that were not skipped, in their order. -/
theorem hookListProcess_stable_partition (hs : HookList σ) (h : Heap) (smps : List SampleId)
    (hok : ∀ c ∈ (hs.hookListProcessLogged h smps).2, c.reason ≠ .error) :
    (hs.hookListProcessLogged h smps).1 = hs.hookListProcess h smps ∧
      ∃ ts : List (Treated hs.retained.length), ts.map Treated.smp = smps ∧
        (hs.hookListProcessLogged h smps).2 = ts.flatMap Treated.calls ∧
        (hs.hookListProcess h smps).2.2.1.Perm smps ∧
        (hs.hookListProcess h smps).2.2.2 = some (keptOf ts).length ∧
        (hs.hookListProcess h smps).2.2.1.take (keptOf ts).length = keptOf ts := by
  refine ⟨hookListProcessLogged_result hs h smps, ?_⟩
  rw [← hookListProcessLogged_result]
  rcases hookListProcessLogged_partitioned hs h smps with ⟨ts, hts⟩ | ⟨-, c, hc, herror⟩
  · exact ⟨ts, hts.given, hts.calls, hts.perm, hts.processed, (List.prefix_iff_eq_take.mp hts.kept).symm⟩
  · exact absurd herror (hok c hc)

/-! ## Three samples and two hooks -/

/-- Each sample has its own sequence number. -/
def numberedHeap : Heap :=
  { samples := fun s => ⟨⟨BitVec.ofNat 64 s, 0, 0, 0, ⟨0, 0⟩, ⟨0, 0⟩, fun _ => 0⟩, 0, 1, none⟩
    pools := fun _ => ⟨[], 0, 0⟩
    free := fun _ => [] }

/-- The first hook skips the sample 1 and stops at the sample 2. -/
def decidingHooks : HookList Unit :=
  { state := (), retained := [none, none], signals := fun _ _ => 0
    process := fun i _ _ s =>
      ⟨(), s, if i = 0 ∧ s.sequence = 1 then .skipSample
        else if i = 0 ∧ s.sequence = 2 then .stopProcessing else .ok, fun _ => .keep⟩ }

theorem decidingHooks_calls : (decidingHooks.hookListProcessLogged numberedHeap [1, 2, 3]).2 =
    [⟨0, 1, .skipSample⟩, ⟨0, 2, .stopProcessing⟩, ⟨0, 3, .ok⟩, ⟨1, 3, .ok⟩] := by
  decide

theorem hookListProcess_stable_partition_three :
    (decidingHooks.hookListProcess numberedHeap [1, 2, 3]).2.2.1 = [2, 3, 1] ∧
      ∃ ts : List (Treated 2), ts.map Treated.smp = [1, 2, 3] ∧
        (decidingHooks.hookListProcessLogged numberedHeap [1, 2, 3]).2 = ts.flatMap Treated.calls ∧
        (decidingHooks.hookListProcess numberedHeap [1, 2, 3]).2.2.2 = some (keptOf ts).length := by
  have hok : ∀ c ∈ (decidingHooks.hookListProcessLogged numberedHeap [1, 2, 3]).2,
      c.reason ≠ .error := by
    rw [decidingHooks_calls]
    decide
  obtain ⟨-, ts, hgiven, hcalls, -, hprocessed, -⟩ :=
    hookListProcess_stable_partition decidingHooks numberedHeap [1, 2, 3] hok
  exact ⟨by decide, ts, hgiven, hcalls, hprocessed⟩

end VillasNode
