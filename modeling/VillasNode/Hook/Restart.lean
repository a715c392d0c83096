import Mathlib.Data.List.Range
import VillasNode.Hook.Builtin

/-!
# Simulation restarts

`RestartHook` finds the first sample of a new run by its sequence number and
resets `DropHook`, which would take the samples of the new run for reordered
ones. This depends on the order of the two in the list, which is that of their
priorities.
-/

namespace VillasNode

variable {σ : Type*} {h : Heap} {smp : SampleId}

/-! ## Streams -/

/-- No sample of the stream is dropped: it starts a new run or follows the one before. -/
def Flows : Option (BitVec 64) → List (BitVec 64) → Prop
  | _, [] => True
  | q, x :: xs => (∀ p, q = some p → restarts x p ∨ 0 < dropDist x p) ∧ Flows (some x) xs

/-- The samples that start a new run. -/
def newRuns : Option (BitVec 64) → List (BitVec 64) → List Bool
  | _, [] => []
  | q, x :: xs => q.any (restarts x) :: newRuns (some x) xs

theorem getLast?_cons_or (q : Option (BitVec 64)) (x : BitVec 64) (xs : List (BitVec 64)) :
    (x :: xs).getLast?.or q = xs.getLast?.or (some x) := by
  rw [List.getLast?_cons]
  cases xs.getLast? <;> rfl

theorem flows_append (q : Option (BitVec 64)) (xs ys : List (BitVec 64)) :
    Flows q (xs ++ ys) ↔ Flows q xs ∧ Flows (xs.getLast?.or q) ys := by
  induction xs generalizing q with
  | nil => simp [Flows]
  | cons x xs ih =>
    rw [List.cons_append, Flows, Flows, ih, and_assoc, getLast?_cons_or]

theorem newRuns_append (q : Option (BitVec 64)) (xs ys : List (BitVec 64)) :
    newRuns q (xs ++ ys) = newRuns q xs ++ newRuns (xs.getLast?.or q) ys := by
  induction xs generalizing q with
  | nil => simp [newRuns]
  | cons x xs ih =>
    rw [List.cons_append, newRuns, newRuns, ih, getLast?_cons_or, List.cons_append]

/-! ## One hook -/

/-- The other hook leaves the sequence number and the flag alone and lets every sample pass. -/
def OtherHook.Passes (o : OtherHook σ) : Prop :=
  ∀ state prev smp, (o.process state prev smp).2.1.sequence = smp.sequence ∧
    (o.process state prev smp).2.1.first = smp.first ∧ (o.process state prev smp).2.2.1 = .ok

def Hook.isRestart (hook : Hook σ) : Bool := hook.type matches .restart

/-- What a hook holds on to that has seen all samples so far: none, or the one with number `q`, which
is not among the samples to come. -/
def Watched (h : Heap) (coming : List SampleId) : Option (BitVec 64) → Option SampleId → Prop
  | none, prev => prev = none
  | some q, prev => ∃ s, prev = some s ∧ s ∉ coming ∧ (h.payload s).sequence = q

theorem Watched.any {coming : List SampleId} {q : Option (BitVec 64)} {prev : Option SampleId}
    (hwatched : Watched h coming q prev) (test : BitVec 64 → Bool) :
    (prev.map h.payload).any (fun prev => test prev.sequence) = q.any test := by
  cases q with
  | none =>
    rw [show prev = none from hwatched]
    rfl
  | some q =>
    obtain ⟨s, rfl, -, rfl⟩ := hwatched
    rfl

theorem markFirst_first (smp : Payload) : smp.markFirst.first = true := by
  have hbit : (smp.flags ||| SampleFlags.isFirst) &&& SampleFlags.isFirst = SampleFlags.isFirst := by
    unfold SampleFlags.isFirst
    ext i hi
    simp only [BitVec.getElem_and, BitVec.getElem_or]
    cases (1#32 <<< 16)[i] <;> simp
  unfold Payload.first Payload.markFirst
  rw [hbit]
  rfl

/-- The sample `smp` with number `x` has passed the hooks before index `i`. `first` is its flag at
the beginning, `q` the number of the sample before it. -/
structure Stage (hooks : List (Hook σ)) (smp : SampleId) (x : BitVec 64) (first : Bool)
    (q : Option (BitVec 64)) (coming : List SampleId) (i : Nat) (hs : HookList (Nat → σ)) (h : Heap) :
    Prop where
  process : hs.process = Hooks.process hooks
  length : hs.retained.length = hooks.length
  restart : ∀ (j : Nat) hook, hooks[j]? = some hook → hook.type = .restart →
    ∃ prev, hs.retained[j]? = some prev ∧ if j < i then prev = some smp else Watched h coming q prev
  drop : ∀ (j : Nat) hook, hooks[j]? = some hook → hook.type = .drop →
    ∃ prev, hs.retained[j]? = some prev ∧ (prev = none ∨ if j < i then prev = some smp else
      Watched h coming q prev ∧ (q.any (restarts x) → (hooks.take i).any Hook.isRestart = false))
  sequence : (h.payload smp).sequence = x
  first : (h.payload smp).first = (first || (q.any (restarts x) && (hooks.take i).any Hook.isRestart))

variable {hooks : List (Hook σ)} {x : BitVec 64} {first : Bool} {q : Option (BitVec 64)}
  {coming : List SampleId} {i : Nat} {hs : HookList (Nat → σ)}

theorem Watched.mono {h' : Heap} {prev : Option SampleId} (hwatched : Watched h coming q prev)
    (hkeep : ∀ s ∉ coming, h'.payload s = h.payload s) : Watched h' coming q prev := by
  cases q with
  | none => exact hwatched
  | some q =>
    obtain ⟨s, rfl, hs, rfl⟩ := hwatched
    exact ⟨s, rfl, hs, by rw [hkeep s hs]⟩

theorem take_succ_any {hook : Hook σ} (hi : hooks[i]? = some hook) :
    (hooks.take (i + 1)).any Hook.isRestart = ((hooks.take i).any Hook.isRestart || hook.isRestart) := by
  rw [List.take_add_one, hi, List.any_append]
  simp

/-- What a hook does that lets the sample `smp` with number `x` pass. -/
structure Does (hooks : List (Hook σ)) (hook : Hook σ) (i : Nat) (x : BitVec 64)
    (q : Option (BitVec 64)) (smp : Payload) (o : Outcome (Nat → σ)) : Prop where
  reason : o.reason = .ok
  sequence : o.payload.sequence = x
  first : o.payload.first = (smp.first || (q.any (restarts x) && hook.isRestart))
  restart : ∀ (j : Nat) k, hooks[j]? = some k → k.type = .restart →
    o.retention j = if j = i then .take else .keep
  drop : ∀ (j : Nat) k, hooks[j]? = some k → k.type = .drop → o.retention j =
    if j = i then .take else if q.any (restarts x) && hook.isRestart then .drop else .keep

theorem Stage.does {hook : Hook σ} (hstage : Stage hooks smp x first q coming i hs h)
    (hi : hooks[i]? = some hook) (hflow : ∀ p, q = some p → restarts x p ∨ 0 < dropDist x p)
    (hother : ∀ o, hook.type = .other o → o.Passes)
    (horder : hook.type = .drop → (hooks.take i).any Hook.isRestart) :
    Does hooks hook i x q (h.payload smp)
      (hs.process i hs.state (hs.retained.map (Option.map h.payload)) (h.payload smp)) := by
  have hprev : ∀ prev, hs.retained[i]? = some prev →
      (hs.retained.map (Option.map h.payload))[i]?.join = prev.map h.payload := by
    intro prev hprev
    rw [List.getElem?_map, hprev]
    rfl
  rw [hstage.process]
  unfold Hooks.process
  rw [hi, Option.map_some]
  cases htype : hook.type with
  | restart =>
    obtain ⟨prev, hget, hwatched⟩ := hstage.restart i hook hi htype
    rw [if_neg (Nat.lt_irrefl i)] at hwatched
    have hisRestart : hook.isRestart = true := by unfold Hook.isRestart; rw [htype]
    dsimp only
    rw [hprev prev hget, hstage.sequence, hwatched.any (restarts x)]
    cases hq : q.any (restarts x) with
    | false =>
      rw [if_neg Bool.false_ne_true]
      refine ⟨rfl, hstage.sequence, ?_, fun j k _ _ => rfl, fun j k _ _ => ?_⟩
      · rw [hq, Bool.false_and, Bool.or_false]
      · rw [hq, Bool.false_and, if_neg Bool.false_ne_true]
    | true =>
      rw [if_pos rfl]
      refine ⟨rfl, hstage.sequence, ?_, fun j k hj hk => ?_, fun j k hj hk => ?_⟩
      · rw [hq, hisRestart, markFirst_first, Bool.and_self, Bool.or_true]
      · dsimp only
        unfold Hooks.restartRetention
        rw [hj, Option.map_some, hk]
      · dsimp only
        unfold Hooks.restartRetention
        rw [hj, Option.map_some, hk, hq, hisRestart, Bool.and_self, if_pos rfl]
  | drop =>
    obtain ⟨prev, hget, hdrop⟩ := hstage.drop i hook hi htype
    rw [if_neg (Nat.lt_irrefl i)] at hdrop
    have hisRestart : hook.isRestart = false := by unfold Hook.isRestart; rw [htype]
    -- The sample before has been let go of, or this one does not start a new run.
    have hpass : (prev.map h.payload).any (fun prev => decide (dropDist x prev.sequence ≤ 0)) = false := by
      rcases hdrop with rfl | ⟨hwatched, hnone⟩
      · rfl
      · rw [hwatched.any fun prev => decide (dropDist x prev ≤ 0)]
        cases q with
        | none => rfl
        | some p =>
          rcases hflow p rfl with hrestarts | hdist
          · exact absurd (horder htype) (by rw [hnone hrestarts]; exact Bool.false_ne_true)
          · exact decide_eq_false (Int.not_le.mpr hdist)
    dsimp only
    rw [hprev prev hget, hstage.sequence, hpass, if_neg Bool.false_ne_true]
    refine ⟨rfl, hstage.sequence, ?_, fun j k _ _ => rfl, fun j k _ _ => ?_⟩
    · rw [hisRestart, Bool.and_false, Bool.or_false]
    · rw [hisRestart, Bool.and_false, if_neg Bool.false_ne_true]
  | other o =>
    have hisRestart : hook.isRestart = false := by unfold Hook.isRestart; rw [htype]
    obtain ⟨hsequence, hfirst, hreason⟩ := hother o htype (hs.state i)
      (hs.retained.map (Option.map h.payload))[i]?.join (h.payload smp)
    have hne : ∀ (j : Nat) k, hooks[j]? = some k → k.type ≠ .other o → j ≠ i := by
      rintro j k hj hk rfl
      rw [hi] at hj
      cases hj
      exact hk htype
    refine ⟨hreason, hsequence.trans hstage.sequence, ?_, fun j k hj hk => ?_, fun j k hj hk => ?_⟩
    · rw [hisRestart, Bool.and_false, Bool.or_false]
      exact hfirst
    · dsimp only
      have := hne j k hj (by rw [hk]; simp)
      rw [if_neg this, if_neg this]
    · dsimp only
      have := hne j k hj (by rw [hk]; simp)
      rw [if_neg this, if_neg this, hisRestart, Bool.and_false, if_neg Bool.false_ne_true]

theorem Stage.next {hook : Hook σ} (hstage : Stage hooks smp x first q coming i hs h)
    (hi : hooks[i]? = some hook) (hsmp : smp ∈ coming)
    (hdoes : Does hooks hook i x q (h.payload smp)
      (hs.process i hs.state (hs.retained.map (Option.map h.payload)) (h.payload smp))) :
    (hs.processOne h i smp).2.2 = .ok ∧
      Stage hooks smp x first q coming (i + 1) (hs.processOne h i smp).1 (hs.processOne h i smp).2.1 := by
  have hkeep : ∀ s ∉ coming, (hs.processOne h i smp).2.1.payload s = h.payload s := by
    intro s hs'
    rw [processOne_payload, if_neg fun heq : s = smp => hs' (heq ▸ hsmp)]
  refine ⟨hdoes.reason, hstage.process, ?_, fun j k hj hk => ?_, fun j k hj hk => ?_, ?_, ?_⟩
  · rw [(processOne_same hs h i smp).length, hstage.length]
  · obtain ⟨prev, hget, hprev⟩ := hstage.restart j k hj hk
    refine ⟨_, by rw [processOne_retained, hget, Option.map_some], ?_⟩
    rw [hdoes.restart j k hj hk]
    by_cases hji : j = i
    · rw [if_pos hji, if_pos (by omega)]
      rfl
    · rw [if_neg hji]
      by_cases hlt : j < i
      · rw [if_pos (by omega)]
        rwa [if_pos hlt] at hprev
      · rw [if_neg (by omega)]
        rw [if_neg hlt] at hprev
        exact hprev.mono hkeep
  · obtain ⟨prev, hget, hprev⟩ := hstage.drop j k hj hk
    refine ⟨_, by rw [processOne_retained, hget, Option.map_some], ?_⟩
    rw [hdoes.drop j k hj hk]
    by_cases hji : j = i
    · rw [if_pos hji, if_pos (by omega)]
      exact .inr rfl
    · rw [if_neg hji]
      by_cases hnew : (q.any (restarts x) && hook.isRestart) = true
      · rw [if_pos hnew]
        exact .inl rfl
      · rw [if_neg hnew]
        refine hprev.imp_right fun hprev => ?_
        by_cases hlt : j < i
        · rw [if_pos (by omega)]
          rwa [if_pos hlt] at hprev
        · rw [if_neg (by omega)]
          rw [if_neg hlt] at hprev
          refine ⟨hprev.1.mono hkeep, fun hany => ?_⟩
          rw [hany, Bool.true_and, Bool.not_eq_true] at hnew
          rw [take_succ_any hi, hprev.2 hany, hnew, Bool.or_false]
  · rw [processOne_payload, if_pos rfl]
    exact hdoes.sequence
  · rw [processOne_payload, if_pos rfl, take_succ_any hi, Bool.and_or_distrib_left, ← Bool.or_assoc,
      ← hstage.first]
    exact hdoes.first

/-! ## One sample -/

/-- There is a restart hook, one comes before every drop hook, and the other hooks let everything
pass. -/
structure Hooks.Ordered (hooks : List (Hook σ)) : Prop where
  restart : hooks.any Hook.isRestart
  order : ∀ (i : Nat) hook, hooks[i]? = some hook → hook.type = .drop →
    (hooks.take i).any Hook.isRestart
  passes : ∀ hook ∈ hooks, ∀ o, hook.type = .other o → o.Passes

theorem Stage.chain (hordered : Hooks.Ordered hooks) (hsmp : smp ∈ coming)
    (hflow : ∀ p, q = some p → restarts x p ∨ 0 < dropDist x p) {n : Nat}
    (hn : i + n = hooks.length) (hstage : Stage hooks smp x first q coming i hs h) :
    (hs.processChain h smp i n).2.2 = .ok ∧ Stage hooks smp x first q coming hooks.length
      (hs.processChain h smp i n).1 (hs.processChain h smp i n).2.1 := by
  induction n generalizing i hs h with
  | zero =>
    obtain rfl : i = hooks.length := hn
    exact ⟨rfl, hstage⟩
  | succ n ih =>
    have hi : hooks[i]? = some hooks[i] := List.getElem?_eq_getElem (by omega)
    obtain ⟨hok, hnext⟩ := hstage.next hi hsmp (hstage.does hi hflow
      (hordered.passes _ (List.getElem_mem _)) (hordered.order i _ hi))
    have := ih (by omega) hnext
    unfold HookList.processChain
    generalize hs.processOne h i smp = r at *
    obtain ⟨hs₁, h₁, reason⟩ := r
    subst hok
    exact this

/-- What the two hooks hold on to between two samples. -/
structure Between (hooks : List (Hook σ)) (hs : HookList (Nat → σ)) (h : Heap)
    (q : Option (BitVec 64)) (coming : List SampleId) : Prop where
  process : hs.process = Hooks.process hooks
  length : hs.retained.length = hooks.length
  restart : ∀ (j : Nat) hook, hooks[j]? = some hook → hook.type = .restart →
    ∃ prev, hs.retained[j]? = some prev ∧ Watched h coming q prev
  drop : ∀ (j : Nat) hook, hooks[j]? = some hook → hook.type = .drop →
    ∃ prev, hs.retained[j]? = some prev ∧ (prev = none ∨ Watched h coming q prev)

theorem Between.stage (hbetween : Between hooks hs h q coming) (smp : SampleId) :
    Stage hooks smp (h.payload smp).sequence (h.payload smp).first q coming 0 hs h := by
  refine ⟨hbetween.process, hbetween.length, fun j hook hj hr => ?_, fun j hook hj hd => ?_, rfl, ?_⟩
  · obtain ⟨prev, hget, hwatched⟩ := hbetween.restart j hook hj hr
    exact ⟨prev, hget, by rwa [if_neg (Nat.not_lt_zero j)]⟩
  · obtain ⟨prev, hget, hprev⟩ := hbetween.drop j hook hj hd
    refine ⟨prev, hget, hprev.imp_right fun hwatched => ?_⟩
    rw [if_neg (Nat.not_lt_zero j)]
    exact ⟨hwatched, fun _ => rfl⟩
  · rw [List.take_zero, List.any_nil, Bool.and_false, Bool.or_false]

theorem Stage.between (hstage : Stage hooks smp x first q coming hooks.length hs h)
    {rest : List SampleId} (hrest : smp ∉ rest) : Between hooks hs h (some x) rest := by
  have hlt : ∀ {j : Nat} {hook : Hook σ}, hooks[j]? = some hook → j < hooks.length :=
    fun hj => (List.getElem?_eq_some_iff.mp hj).1
  refine ⟨hstage.process, hstage.length, fun j hook hj hr => ?_, fun j hook hj hd => ?_⟩
  · obtain ⟨prev, hget, hprev⟩ := hstage.restart j hook hj hr
    rw [if_pos (hlt hj)] at hprev
    exact ⟨prev, hget, smp, hprev, hrest, hstage.sequence⟩
  · obtain ⟨prev, hget, hprev⟩ := hstage.drop j hook hj hd
    rw [if_pos (hlt hj)] at hprev
    exact ⟨prev, hget, hprev.imp_right fun hprev => ⟨smp, hprev, hrest, hstage.sequence⟩⟩

theorem Between.sample (hordered : Hooks.Ordered hooks) {rest : List SampleId} (hrest : smp ∉ rest)
    (hbetween : Between hooks hs h q (smp :: rest))
    (hflow : ∀ p, q = some p → restarts (h.payload smp).sequence p ∨ 0 < dropDist (h.payload smp).sequence p) :
    ∃ hs' h', hs.processChain h smp 0 hs.retained.length = (hs', h', .ok) ∧
      Between hooks hs' h' (some (h.payload smp).sequence) rest ∧
      (h'.payload smp).first = ((h.payload smp).first || q.any (restarts (h.payload smp).sequence)) ∧
      ∀ s ≠ smp, h'.payload s = h.payload s := by
  obtain ⟨hok, hstage⟩ := (hbetween.stage smp).chain hordered List.mem_cons_self hflow
    (Nat.zero_add hooks.length)
  rw [← hbetween.length] at hok hstage
  have hkeep : ∀ s ≠ smp, (hs.processChain h smp 0 hs.retained.length).2.1.payload s = h.payload s :=
    fun s hs' => processChain_fixed 0 _ (by omega) fun heq => absurd heq hs'
  refine ⟨_, _, by rw [← hok], ?_, ?_, hkeep⟩
  · rw [hbetween.length] at hstage ⊢
    exact hstage.between hrest
  · have := hstage.first
    rwa [hbetween.length, List.take_length, hordered.restart, Bool.and_true, ← hbetween.length] at this

/-! ## One call -/

theorem swap_self (smps : List SampleId) (i : Nat) : HookList.swap smps i i = smps := by
  unfold HookList.swap
  cases hi : smps[i]? with
  | none => rfl
  | some s =>
    obtain ⟨hlt, rfl⟩ := List.getElem?_eq_some_iff.mp hi
    dsimp only
    rw [List.set_getElem_self, List.set_getElem_self]

/-- The numbers of samples. -/
def Heap.sequences (h : Heap) (smps : List SampleId) : List (BitVec 64) :=
  smps.map fun s => (h.payload s).sequence

def Heap.firsts (h : Heap) (smps : List SampleId) : List Bool := smps.map fun s => (h.payload s).first

theorem Between.loop (hordered : Hooks.Ordered hooks) {smps : List SampleId} (hnodup : smps.Nodup)
    {current n : Nat} (hn : current + n = smps.length)
    (hbetween : Between hooks hs h q (smps.drop current))
    (hflows : Flows q (h.sequences (smps.drop current))) :
    ∃ hs' h', hs.processLoop h smps current current n = (hs', h', smps, some smps.length) ∧
      Between hooks hs' h' ((h.sequences (smps.drop current)).getLast?.or q) [] ∧
      h'.firsts (smps.drop current) =
        List.zipWith or (h.firsts (smps.drop current)) (newRuns q (h.sequences (smps.drop current))) ∧
      ∀ s ∉ smps.drop current, h'.payload s = h.payload s := by
  induction n generalizing hs h q current with
  | zero =>
    obtain rfl : current = smps.length := hn
    rw [List.drop_length] at hbetween ⊢
    exact ⟨hs, h, rfl, hbetween, rfl, fun s _ => rfl⟩
  | succ n ih =>
    have hlt : current < smps.length := by omega
    have hdrop := List.drop_eq_getElem_cons hlt
    generalize hsmp : smps[current] = smp at hdrop
    have hget : smps[current]? = some smp := by rw [List.getElem?_eq_getElem hlt, hsmp]
    have hnot : smp ∉ smps.drop (current + 1) := by
      have := hnodup.sublist (List.drop_sublist current smps)
      rw [hdrop, List.nodup_cons] at this
      exact this.1
    rw [hdrop] at hbetween hflows ⊢
    obtain ⟨hs₁, h₁, hchain, hbetween₁, hfirst, hkeep⟩ := hbetween.sample hordered hnot hflows.1
    have hsame : ∀ s ∈ smps.drop (current + 1), h₁.payload s = h.payload s :=
      fun s hs' => hkeep s fun heq => hnot (heq ▸ hs')
    have hseq : h₁.sequences (smps.drop (current + 1)) = h.sequences (smps.drop (current + 1)) :=
      List.map_congr_left fun s hs' => by rw [hsame s hs']
    have hfirsts : h₁.firsts (smps.drop (current + 1)) = h.firsts (smps.drop (current + 1)) :=
      List.map_congr_left fun s hs' => by rw [hsame s hs']
    obtain ⟨hs', h', hloop, hbetween', hfirsts', hkeep'⟩ := ih (by omega) hbetween₁ (hseq ▸ hflows.2)
    refine ⟨hs', h', ?_, ?_, ?_, fun s hs' => ?_⟩
    · unfold HookList.processLoop
      rw [hget]
      dsimp only
      rw [hchain]
      dsimp only
      rw [swap_self, hloop]
    · rw [hseq] at hbetween'
      unfold Heap.sequences at hbetween' ⊢
      rw [List.map_cons, getLast?_cons_or]
      exact hbetween'
    · rw [hseq, hfirsts] at hfirsts'
      unfold Heap.firsts Heap.sequences at hfirsts' ⊢
      rw [List.map_cons, List.map_cons, List.map_cons, newRuns, List.zipWith_cons_cons, hfirsts',
        hkeep' smp hnot, hfirst]
    · rw [List.mem_cons, not_or] at hs'
      rw [hkeep' s hs'.2, hkeep s hs'.1]

/-! ## Calls -/

/-- What a call of `hook_list_process` returns, and the flags of its samples after it. -/
structure CallResult where
  ret : Option Nat
  smps : List SampleId
  firsts : List Bool

def HookList.calls (hs : HookList σ) (h : Heap) : List Batch → List CallResult
  | [] => []
  | batch :: batches =>
    let (hs, h, smps, ret) := hs.hookListProcess (h.deliver batch) batch.ids
    ⟨ret, smps, h.firsts batch.ids⟩ :: hs.calls h batches

/-- The samples of a call are different blocks that no hook holds on to: they come from a pool. -/
def HookList.Fresh (hs : HookList σ) (h : Heap) : List Batch → Prop
  | [] => True
  | batch :: batches => batch.ids.Nodup ∧ (∀ s ∈ batch.ids, some s ∉ hs.retained) ∧
      (hs.hookListProcess (h.deliver batch) batch.ids).1.Fresh
        (hs.hookListProcess (h.deliver batch) batch.ids).2.1 batches

theorem fresh_of_nodup {S : SampleId → Prop} {hs : HookList σ} {h : Heap} {batches : List Batch}
    (hwithin : hs.Within S) (hnodup : (batches.flatten.map Prod.fst).Nodup)
    (hnot : ∀ s ∈ batches.flatten.map Prod.fst, ¬ S s) : hs.Fresh h batches := by
  induction batches generalizing hs h S with
  | nil => trivial
  | cons batch batches ih =>
    rw [List.flatten_cons, List.map_append] at hnodup hnot
    obtain ⟨hbatch, hbatches, hdisjoint⟩ := List.nodup_append.mp hnodup
    refine ⟨hbatch, fun s hs hmem => hnot s (List.mem_append_left _ hs) (hwithin s hmem), ?_⟩
    have hwithin' : hs.Within fun s => S s ∨ s ∈ batch.ids := fun s hs => .inl (hwithin s hs)
    have hagree : AgreeOn (fun s => S s ∨ s ∈ batch.ids) (h.deliver batch) (h.deliver batch) := fun _ _ => rfl
    obtain ⟨-, -, -, hafter, -⟩ := hookListProcess_agree hagree hwithin' fun _ => .inr
    refine ih hafter hbatches ?_
    rintro s hs (hS | hmem)
    · exact hnot s (List.mem_append_right _ hs) hS
    · exact hdisjoint s hmem s hs rfl

/-- The numbers of all samples, in order. -/
def numbers (batches : List Batch) : List (BitVec 64) := batches.flatten.map fun s => s.2.sequence

/-- Their flags before the calls. -/
def flagged (batches : List Batch) : List Bool := batches.flatten.map fun s => s.2.first

theorem numbers_cons (batch : Batch) (batches : List Batch) :
    numbers (batch :: batches) = (batch.map fun s => s.2.sequence) ++ numbers batches := by
  unfold numbers
  rw [List.flatten_cons, List.map_append]

theorem newRuns_length (q : Option (BitVec 64)) (xs : List (BitVec 64)) :
    (newRuns q xs).length = xs.length := by
  induction xs generalizing q with
  | nil => rfl
  | cons x xs ih => rw [newRuns, List.length_cons, List.length_cons, ih]

theorem Between.deliver (hbetween : Between hooks hs h q []) {batch : Batch}
    (hfresh : ∀ s ∈ batch.ids, some s ∉ hs.retained) :
    Between hooks hs (h.deliver batch) q batch.ids := by
  have hwatched : ∀ prev ∈ hs.retained, Watched h [] q prev → Watched (h.deliver batch) batch.ids q prev := by
    intro prev hmem hwatched
    cases q with
    | none => exact hwatched
    | some q =>
      obtain ⟨s, rfl, -, rfl⟩ := hwatched
      have hs' : s ∉ batch.ids := fun hs' => hfresh s hs' hmem
      exact ⟨s, rfl, hs', by rw [deliver_payload_of_notMem hs']⟩
  refine ⟨hbetween.process, hbetween.length, fun j hook hj hr => ?_, fun j hook hj hd => ?_⟩
  · obtain ⟨prev, hget, hprev⟩ := hbetween.restart j hook hj hr
    exact ⟨prev, hget, hwatched prev (List.mem_of_getElem? hget) hprev⟩
  · obtain ⟨prev, hget, hprev⟩ := hbetween.drop j hook hj hd
    exact ⟨prev, hget, hprev.imp_right (hwatched prev (List.mem_of_getElem? hget))⟩

theorem Between.call (hordered : Hooks.Ordered hooks) (hbetween : Between hooks hs h q [])
    {batch : Batch} (hnodup : batch.ids.Nodup) (hfresh : ∀ s ∈ batch.ids, some s ∉ hs.retained)
    (hflows : Flows q (batch.map fun s => s.2.sequence)) :
    ∃ hs' h', hs.hookListProcess (h.deliver batch) batch.ids = (hs', h', batch.ids, some batch.length) ∧
      Between hooks hs' h' ((batch.map fun s => s.2.sequence).getLast?.or q) [] ∧
      h'.firsts batch.ids = List.zipWith or (batch.map fun s => s.2.first)
        (newRuns q (batch.map fun s => s.2.sequence)) := by
  have hids : batch.ids.length = batch.length := List.length_map ..
  have hseq : (h.deliver batch).sequences batch.ids = batch.map fun s => s.2.sequence := by
    unfold Heap.sequences Batch.ids
    rw [List.map_map]
    exact List.map_congr_left fun s hs' => congrArg Payload.sequence (deliver_payload hnodup hs' h)
  have hfirsts : (h.deliver batch).firsts batch.ids = batch.map fun s => s.2.first := by
    unfold Heap.firsts Batch.ids
    rw [List.map_map]
    exact List.map_congr_left fun s hs' => congrArg Payload.first (deliver_payload hnodup hs' h)
  rw [← hseq] at hflows ⊢
  rw [← hfirsts, ← hids]
  have hlength : hs.retained.length ≠ 0 := by
    intro hzero
    have hrestart := hordered.restart
    rw [List.eq_nil_of_length_eq_zero (hbetween.length.symm.trans hzero)] at hrestart
    simp at hrestart
  obtain ⟨hs', h', hloop, hbetween', hfirsts', -⟩ := (hbetween.deliver hfresh).loop hordered hnodup
    (Nat.zero_add _) hflows
  unfold HookList.hookListProcess
  rw [if_neg hlength]
  exact ⟨hs', h', hloop, hbetween', hfirsts'⟩

theorem Between.calls (hordered : Hooks.Ordered hooks) {batches : List Batch}
    (hbetween : Between hooks hs h q []) (hfresh : hs.Fresh h batches)
    (hflows : Flows q (numbers batches)) :
    (hs.calls h batches).map CallResult.ret = batches.map (fun batch => some batch.length) ∧
      (hs.calls h batches).map CallResult.smps = batches.map Batch.ids ∧
      (hs.calls h batches).flatMap CallResult.firsts =
        List.zipWith or (flagged batches) (newRuns q (numbers batches)) := by
  induction batches generalizing hs h q with
  | nil => exact ⟨rfl, rfl, rfl⟩
  | cons batch batches ih =>
    obtain ⟨hnodup, hnot, hrest⟩ := hfresh
    rw [numbers_cons] at hflows ⊢
    rw [flows_append] at hflows
    obtain ⟨hs', h', hcall, hbetween', hfirsts⟩ := hbetween.call hordered hnodup hnot hflows.1
    rw [hcall] at hrest
    obtain ⟨hret, hsmps, hmarks⟩ := ih hbetween' hrest hflows.2
    unfold HookList.calls
    rw [hcall]
    dsimp only
    refine ⟨?_, ?_, ?_⟩
    · rw [List.map_cons, List.map_cons, hret]
    · rw [List.map_cons, List.map_cons, hsmps]
    · rw [List.flatMap_cons, hmarks, hfirsts, newRuns_append]
      unfold flagged
      rw [List.flatten_cons, List.map_append, List.zipWith_append]
      rw [newRuns_length, List.length_map, List.length_map]

theorem between_start (hooks : List (Hook σ)) (states : Nat → σ) (h : Heap) :
    Between hooks (Hooks.start hooks states) h none [] := by
  have hnone : ∀ (j : Nat) hook, hooks[j]? = some hook →
      (Hooks.start hooks states).retained[j]? = some none := by
    intro j hook hj
    unfold Hooks.start
    rw [List.getElem?_map, hj, Option.map_some]
  refine ⟨rfl, List.length_map .., fun j hook hj _ => ?_, fun j hook hj _ => ?_⟩
  · exact ⟨none, hnone j hook hj, rfl⟩
  · exact ⟨none, hnone j hook hj, .inl rfl⟩

/-! ## Runs -/

/-- The numbers of one run of a simulation, all below `limit`. -/
structure IsRun (limit : Nat) (xs : List (BitVec 64)) : Prop where
  zero : xs.head? = some 0
  two : 2 ≤ xs.length
  steps : xs.IsChain fun a b => a < b ∧ b.toNat - a.toNat < 2 ^ 31
  below : ∀ x ∈ xs, x.toNat < limit

/-- The first sample of every run but the first. -/
def firstsOfRuns : List (List (BitVec 64)) → List Bool
  | [] => []
  | run :: runs =>
    run.map (fun _ => false) ++ runs.flatMap fun run => true :: run.tail.map fun _ => false

theorem dropDist_pos {a b : BitVec 64} (hlt : a < b) (hstep : b.toNat - a.toNat < 2 ^ 31) :
    0 < dropDist b a := by
  have hle : a.toNat < b.toNat := BitVec.lt_def.mp hlt
  have hsub : ((b - a).setWidth 32).toNat = b.toNat - a.toNat := by
    rw [BitVec.toNat_setWidth, BitVec.toNat_sub_of_le (BitVec.le_of_lt hlt), Nat.mod_eq_of_lt (by omega)]
  unfold dropDist
  rw [BitVec.toInt_eq_toNat_of_lt (by omega), hsub]
  omega

theorem restarts_of_pos {x p : BitVec 64} (hx : p < x) : restarts x p = false := by
  have : x ≠ 0 := by
    rintro rfl
    simp at hx
  unfold restarts
  rw [beq_false_of_ne this, Bool.false_and, Bool.false_and]

theorem restarts_zero {p : BitVec 64} (hpos : 0 < p) (hbelow : p.toNat < 2 ^ 64 - 17) :
    restarts 0 p = true := by
  have hne : p ≠ 0 := by
    rintro rfl
    simp at hpos
  have hlt : p < BitVec.allOnes 64 - 16 := by
    rw [BitVec.lt_def]
    exact hbelow
  unfold restarts
  rw [decide_eq_true hlt, bne_iff_ne.mpr hne]
  rfl

theorem flows_of_chain {x : BitVec 64} {xs : List (BitVec 64)}
    (hsteps : (x :: xs).IsChain fun a b => a < b ∧ b.toNat - a.toNat < 2 ^ 31) :
    Flows (some x) xs ∧ newRuns (some x) xs = xs.map fun _ => false := by
  induction xs generalizing x with
  | nil => exact ⟨trivial, rfl⟩
  | cons y xs ih =>
    rw [List.isChain_cons_cons] at hsteps
    obtain ⟨hflows, hnew⟩ := ih hsteps.2
    refine ⟨⟨?_, hflows⟩, ?_⟩
    · rintro p ⟨⟩
      exact .inr (dropDist_pos hsteps.1.1 hsteps.1.2)
    · rw [newRuns, hnew, List.map_cons, Option.any_some, restarts_of_pos hsteps.1.1]

theorem IsRun.last {limit : Nat} {xs : List (BitVec 64)} (hrun : IsRun limit xs) :
    ∃ p, xs.getLast? = some p ∧ 0 < p ∧ p.toNat < limit := by
  obtain ⟨hzero, htwo, hsteps, hbelow⟩ := hrun
  match xs, htwo with
  | x :: y :: xs, _ =>
    cases hzero
    have hpairs : (0 :: y :: xs).Pairwise fun a b : BitVec 64 => a < b :=
      List.isChain_iff_pairwise.mp (hsteps.imp fun _ _ hab => hab.1)
    have hmem := List.getLast_mem (List.cons_ne_nil y xs)
    refine ⟨(y :: xs).getLast (List.cons_ne_nil y xs), ?_, List.rel_of_pairwise_cons hpairs hmem,
      hbelow _ (List.mem_cons_of_mem _ hmem)⟩
    rw [List.getLast?_cons_cons, List.getLast?_eq_getLast_of_ne_nil]

theorem IsRun.flows {limit : Nat} {xs : List (BitVec 64)} (hrun : IsRun limit xs)
    {q : Option (BitVec 64)} (hq : ∀ p, q = some p → restarts 0 p ∨ 0 < dropDist 0 p) :
    Flows q xs ∧ newRuns q xs = q.any (restarts 0) :: xs.tail.map fun _ => false := by
  obtain ⟨hzero, htwo, hsteps, -⟩ := hrun
  match xs, hzero with
  | x :: xs, hzero =>
    cases hzero
    obtain ⟨hflows, hnew⟩ := flows_of_chain hsteps
    refine ⟨⟨hq, hflows⟩, ?_⟩
    rw [newRuns, hnew, List.tail_cons]

theorem flows_of_runs {runs : List (List (BitVec 64))} (hruns : ∀ run ∈ runs, IsRun (2 ^ 64 - 17) run)
    {p : BitVec 64} (hpos : 0 < p) (hbelow : p.toNat < 2 ^ 64 - 17) :
    Flows (some p) runs.flatten ∧ newRuns (some p) runs.flatten =
      runs.flatMap fun run => true :: run.tail.map fun _ => false := by
  induction runs generalizing p with
  | nil => exact ⟨trivial, rfl⟩
  | cons run runs ih =>
    rw [List.forall_mem_cons] at hruns
    have hnew : restarts 0 p = true := restarts_zero hpos hbelow
    obtain ⟨p', hlast, hpos', hbelow'⟩ := hruns.1.last
    obtain ⟨hflows, hmarks⟩ := ih hruns.2 hpos' hbelow'
    obtain ⟨hflows₁, hmarks₁⟩ := hruns.1.flows (q := some p) (by rintro _ ⟨⟩; exact .inl hnew)
    rw [List.flatten_cons, flows_append, newRuns_append, hlast, Option.some_or, hmarks, hmarks₁,
      Option.any_some, hnew, List.flatMap_cons]
    exact ⟨⟨hflows₁, hflows⟩, rfl⟩

theorem flows_of_stream {runs : List (List (BitVec 64))} (hruns : ∀ run ∈ runs, IsRun (2 ^ 64 - 17) run) :
    Flows none runs.flatten ∧ newRuns none runs.flatten = firstsOfRuns runs := by
  cases runs with
  | nil => exact ⟨trivial, rfl⟩
  | cons run runs =>
    rw [List.forall_mem_cons] at hruns
    obtain ⟨p, hlast, hpos, hbelow⟩ := hruns.1.last
    obtain ⟨hflows, hmarks⟩ := flows_of_runs hruns.2 hpos hbelow
    obtain ⟨hflows₁, hmarks₁⟩ := hruns.1.flows (q := none) (by simp)
    have hmap : false :: run.tail.map (fun _ => false) = run.map fun _ => false := by
      cases run with
      | nil => simpa using hruns.1.two
      | cons x run => rfl
    rw [List.flatten_cons, flows_append, newRuns_append, hlast, Option.some_or, hmarks, hmarks₁,
      Option.any_none, hmap]
    exact ⟨⟨hflows₁, hflows⟩, rfl⟩

theorem ordered_of_prepared {hooks builtin sorted : List (Hook σ)}
    (hprepared : Hooks.Prepared hooks builtin sorted)
    (hrestart : ∃ r ∈ sorted, r.type = .restart ∧ ∀ d ∈ sorted, d.type = .drop → r.priority < d.priority)
    (hother : ∀ hook ∈ sorted, ∀ o, hook.type = .other o → o.Passes) : Hooks.Ordered sorted := by
  obtain ⟨r, hmem, hr, hbefore⟩ := hrestart
  have hisRestart : r.isRestart = true := by unfold Hook.isRestart; rw [hr]
  refine ⟨List.any_eq_true.mpr ⟨r, hmem, hisRestart⟩, fun i d hi hd => ?_, hother⟩
  obtain ⟨k, hk, rfl⟩ := List.mem_iff_getElem.mp hmem
  obtain ⟨hlt, rfl⟩ := List.getElem?_eq_some_iff.mp hi
  have hbefore := hbefore _ (List.getElem_mem hlt) hd
  have hki : k < i := by
    rcases Nat.lt_trichotomy k i with hlt' | rfl | hgt
    · exact hlt'
    · rw [hr] at hd
      simp at hd
    · have := List.pairwise_iff_getElem.mp hprepared.2 i k hlt hk hgt
      omega
  rw [List.any_eq_true]
  exact ⟨sorted[k], List.mem_take_iff_getElem.mpr ⟨k, by omega, rfl⟩, hisRestart⟩

/-- A stream of runs, cut into calls in any way: no sample is skipped, and `IS_FIRST` is set on the
first sample of every run but the first. -/
theorem restart_stream {hooks builtin sorted : List (Hook σ)}
    (hprepared : Hooks.Prepared hooks builtin sorted)
    (hrestart : ∃ r ∈ sorted, r.type = .restart ∧ ∀ d ∈ sorted, d.type = .drop → r.priority < d.priority)
    (hother : ∀ hook ∈ sorted, ∀ o, hook.type = .other o → o.Passes)
    {runs : List (List (BitVec 64))} (hruns : ∀ run ∈ runs, IsRun (2 ^ 64 - 17) run)
    {batches : List Batch} (hstream : numbers batches = runs.flatten) {states : Nat → σ} {h : Heap}
    (hfresh : (Hooks.start sorted states).Fresh h batches) :
    ((Hooks.start sorted states).calls h batches).map CallResult.ret =
        batches.map (fun batch => some batch.length) ∧
      ((Hooks.start sorted states).calls h batches).map CallResult.smps = batches.map Batch.ids ∧
      ((Hooks.start sorted states).calls h batches).flatMap CallResult.firsts =
        List.zipWith or (flagged batches) (firstsOfRuns runs) := by
  obtain ⟨hflows, hmarks⟩ := flows_of_stream hruns
  rw [← hstream] at hflows hmarks
  rw [← hmarks]
  exact (between_start sorted states h).calls (ordered_of_prepared hprepared hrestart hother) hfresh hflows

/-! ## Examples -/

/-- The two hooks as `hook_list_prepare` adds them. -/
def builtinHooks : List (Hook Unit) := [restartHook fun _ => 0, dropHook fun _ => 0]

/-- A hook that returns `reason` for every sample and sets flags. -/
def flagHook (flags : BitVec 32) (reason : Reason) : Hook Unit :=
  { type := .other
      { process := fun state _ smp => (state, { smp with flags := smp.flags ||| flags }, reason, .keep)
        restart := fun state => (state, false) }
    priority := 99, enabled := true, signals := fun _ => 0 }

/-- Two runs in three calls. The block of the first sample is used again for the last. -/
def exampleBatches : List Batch :=
  [[(0, numbered 0)], [(1, numbered 5), (2, numbered 0)], [(0, numbered 3)]]

theorem exampleRuns : ∀ run ∈ [[0, 5], [0, 3]], IsRun (2 ^ 64 - 17) run := by
  rw [List.forall_mem_cons, List.forall_mem_singleton]
  exact ⟨⟨rfl, by decide, by decide, by simp⟩, ⟨rfl, by decide, by decide, by simp⟩⟩

theorem examplePrepared : Hooks.Prepared [dropHook fun _ => 0] [restartHook fun _ => 0] builtinHooks :=
  ⟨List.Perm.swap _ _ _, by simp [builtinHooks, restartHook, dropHook]⟩

theorem exampleRestart : ∃ r ∈ builtinHooks, r.type = .restart ∧
    ∀ d ∈ builtinHooks, d.type = .drop → r.priority < d.priority := by
  refine ⟨restartHook fun _ => 0, List.mem_cons_self, rfl, ?_⟩
  simp [builtinHooks, restartHook, dropHook]

theorem exampleOther : ∀ hook ∈ builtinHooks, ∀ o, hook.type = .other o → o.Passes := by
  simp [builtinHooks, restartHook, dropHook]

theorem restart_stream_two_runs :
    ((Hooks.start builtinHooks fun _ => ()).calls emptyHeap exampleBatches).map CallResult.ret =
        [some 1, some 2, some 1] ∧
      ((Hooks.start builtinHooks fun _ => ()).calls emptyHeap exampleBatches).map CallResult.smps =
        [[0], [1, 2], [0]] ∧
      ((Hooks.start builtinHooks fun _ => ()).calls emptyHeap exampleBatches).flatMap
        CallResult.firsts = [false, false, true, false] :=
  restart_stream examplePrepared exampleRestart exampleOther exampleRuns rfl
    ⟨by decide, by decide, by decide, by decide, by decide, by decide, trivial⟩

/-- What a list of hooks does with runs below a limit. -/
def MarksRuns (limit : Nat) (sorted : List (Hook Unit)) : Prop :=
  ∀ (runs : List (List (BitVec 64))) (batches : List Batch), (∀ run ∈ runs, IsRun limit run) →
    numbers batches = runs.flatten → (Hooks.start sorted fun _ => ()).Fresh emptyHeap batches →
      ((Hooks.start sorted fun _ => ()).calls emptyHeap batches).map CallResult.ret =
          batches.map (fun batch => some batch.length) ∧
        ((Hooks.start sorted fun _ => ()).calls emptyHeap batches).flatMap CallResult.firsts =
          List.zipWith or (flagged batches) (firstsOfRuns runs)

/-- A run with steps of `2 ^ 30` up to `2 ^ 64 - 17`. -/
def ramp (n : Nat) : List (BitVec 64) :=
  (List.range n).map (fun i => BitVec.ofNat 64 (i * 2 ^ 30)) ++ [BitVec.ofNat 64 (2 ^ 64 - 17)]

theorem ramp_isRun {n : Nat} (hn : n * 2 ^ 30 = 2 ^ 64) : IsRun (2 ^ 64 - 16) (ramp n) := by
  have hpos : 0 < n := by omega
  have hnum : ∀ i < n, (BitVec.ofNat 64 (i * 2 ^ 30)).toNat = i * 2 ^ 30 := by
    intro i hi
    rw [BitVec.toNat_ofNat, Nat.mod_eq_of_lt (by omega)]
  have hlast : (BitVec.ofNat 64 (2 ^ 64 - 17)).toNat = 2 ^ 64 - 17 := by decide
  unfold ramp
  refine ⟨?_, ?_, ?_, ?_⟩
  · rw [List.head?_append, List.head?_map, List.head?_range, if_neg (by omega)]
    rfl
  · rw [List.length_append, List.length_map, List.length_range, List.length_singleton]
    omega
  · rw [List.isChain_append]
    refine ⟨?_, List.isChain_singleton _, ?_⟩
    · rw [List.isChain_map, List.isChain_range]
      intro m hm
      rw [BitVec.lt_def, hnum m (by omega), hnum (m + 1) (by omega)]
      omega
    · intro x hx y hy
      rw [List.getLast?_map, List.getLast?_range, if_neg (by omega)] at hx
      cases hx
      cases hy
      rw [BitVec.lt_def, hnum (n - 1) (by omega), hlast]
      omega
  · intro x hx
    rcases List.mem_append.mp hx with hx | hx
    · obtain ⟨i, hi, rfl⟩ := List.mem_map.mp hx
      rw [hnum i (List.mem_range.mp hi)]
      have := List.mem_range.mp hi
      omega
    · rw [List.mem_singleton.mp hx, hlast]
      decide

/-- Every sample comes in a call of its own. -/
def rampBatches (n : Nat) : List Batch :=
  (ramp n ++ [0, 1]).zipIdx.map fun x : BitVec 64 × Nat => [(x.2, numbered x.1)]

theorem rampBatches_flatten (n : Nat) : (rampBatches n).flatten =
    (ramp n ++ [0, 1]).zipIdx.map fun x : BitVec 64 × Nat => (x.2, numbered x.1) := by
  unfold rampBatches
  rw [← List.flatMap_def, List.map_eq_flatMap]

theorem rampBatches_fresh (n : Nat) :
    (Hooks.start builtinHooks fun _ => ()).Fresh emptyHeap (rampBatches n) := by
  apply fresh_of_nodup (S := fun _ => False)
  · exact fun s hs => by simp [Hooks.start] at hs
  · have hids : (rampBatches n).flatten.map Prod.fst = List.range' 0 (ramp n ++ [0, 1]).length := by
      rw [rampBatches_flatten, List.map_map]
      exact List.zipIdx_map_snd ..
    rw [hids]
    exact List.nodup_range'
  · exact fun _ _ => id

theorem numbers_rampBatches (n : Nat) : numbers (rampBatches n) = [ramp n, [0, 1]].flatten := by
  unfold numbers
  rw [rampBatches_flatten, List.map_map]
  exact List.zipIdx_map_fst ..

theorem numbered_first (x : BitVec 64) : (numbered x).first = false := by
  simp [Payload.first, numbered]

theorem flagged_rampBatches (n : Nat) : flagged (rampBatches n) =
    List.replicate ((ramp n).map fun _ => false).length false ++ [false, false] := by
  have hlength : (ramp n ++ [0, 1]).zipIdx.length = (ramp n).length + 2 := by
    rw [List.length_zipIdx, List.length_append]
    rfl
  have hfalse : (ramp n ++ [0, 1]).zipIdx.map (fun _ => false) =
      List.replicate (ramp n ++ [0, 1]).zipIdx.length false := List.map_const'
  unfold flagged
  rw [rampBatches_flatten, List.map_map, List.length_map]
  trans (ramp n ++ [0, 1]).zipIdx.map fun _ => false
  · apply List.map_congr_left
    intro x _
    exact numbered_first x.1
  rw [hfalse, hlength, List.replicate_add]
  rfl

theorem rampBatches_unmarked {n : Nat} (hn : n * 2 ^ 30 = 2 ^ 64) :
    ((Hooks.start builtinHooks fun _ => ()).calls emptyHeap (rampBatches n)).flatMap CallResult.firsts ≠
      List.zipWith or (flagged (rampBatches n)) (firstsOfRuns [ramp n, [0, 1]]) := by
  have hlast : (ramp n).getLast? = some (BitVec.ofNat 64 (2 ^ 64 - 17)) := by
    unfold ramp
    rw [List.getLast?_append]
    rfl
  obtain ⟨hflows, hmarks⟩ := (ramp_isRun hn).flows (q := none) (by simp)
  have hstream : Flows none (numbers (rampBatches n)) := by
    rw [numbers_rampBatches, List.flatten_cons, flows_append, hlast]
    exact ⟨hflows, ⟨by rintro _ ⟨⟩; exact .inr (by decide), by rintro _ ⟨⟩; exact .inr (by decide), trivial⟩⟩
  have hordered := ordered_of_prepared examplePrepared exampleRestart exampleOther
  have hcalls := (between_start _ _ emptyHeap).calls hordered (rampBatches_fresh n) hstream
  rw [hcalls.2.2, numbers_rampBatches, flagged_rampBatches, List.flatten_cons, newRuns_append, hlast,
    firstsOfRuns]
  have hlen : (newRuns none (ramp n)).length = ((ramp n).map fun _ => false).length := by
    rw [newRuns_length, List.length_map]
  rw [List.zipWith_append (by rw [List.length_replicate, hlen]),
    List.zipWith_append (List.length_replicate ..)]
  intro heq
  have := List.append_inj_right' heq rfl
  exact absurd this (by decide)

/-- A run that ends with `2 ^ 64 - 17`, the first number for which `RestartHook` expects a wrap
around. And other hooks may do what they like with samples and flags. -/
theorem restart_unmarked : ¬ MarksRuns (2 ^ 64 - 16) builtinHooks ∧
    ¬ MarksRuns (2 ^ 64 - 17) (builtinHooks ++ [flagHook 0 .skipSample]) ∧
    ¬ MarksRuns (2 ^ 64 - 17) (builtinHooks ++ [flagHook SampleFlags.isFirst .ok]) := by
  refine ⟨fun hclaim => ?_, fun hclaim => ?_, fun hclaim => ?_⟩
  · have hn : 2 ^ 34 * 2 ^ 30 = 2 ^ 64 := by decide
    refine rampBatches_unmarked hn (hclaim [ramp (2 ^ 34), [0, 1]] (rampBatches (2 ^ 34)) ?_
      (numbers_rampBatches _) (rampBatches_fresh _)).2
    rw [List.forall_mem_cons, List.forall_mem_singleton]
    exact ⟨ramp_isRun hn, ⟨rfl, by decide, by decide, by simp⟩⟩
  · have := (hclaim [[0, 5], [0, 3]] exampleBatches exampleRuns rfl
      ⟨by decide, by decide, by decide, by decide, by decide, by decide, trivial⟩).1
    exact absurd this (by decide)
  · have := (hclaim [[0, 5], [0, 3]] exampleBatches exampleRuns rfl
      ⟨by decide, by decide, by decide, by decide, by decide, by decide, trivial⟩).2
    exact absurd this (by decide)

end VillasNode
