import VillasNode.Lib.PartialWrites
import VillasNode.Path.Model

/-!
# Short writes

`node_write` with a driver that does not take all samples. `path_source_read`
counts on a result that says how many were taken. What a driver returns in all
of its calls, and how far the queue of a loopback is drained behind each of its
rounds, are functions of the number of the call.
-/

namespace VillasNode.ShortWrites

open PartialWrites

variable {σ : Type*}

/-! ## Any driver -/

/-- A driver with these results. Its state is the number of the call. -/
def driver (rs : Nat → DriverWrite) (i : Nat) (_tosend : Nat) : Option Nat × Nat :=
  match rs i with
  | .fail _ => (none, i + 1)
  | .sent n => (some n, i + 1)

theorem driver_state (rs : Nat → DriverWrite) (i tosend : Nat) : (driver rs i tosend).2 = i + 1 := by
  unfold driver
  split
  · rfl
  · rfl

/-- The results of the calls from `i` on, as many as `k`. -/
def resultsFrom (rs : Nat → DriverWrite) (i k : Nat) : List DriverWrite := (List.range' i k).map rs

theorem resultsFrom_succ (rs : Nat → DriverWrite) (i k : Nat) :
    resultsFrom rs i (k + 1) = rs i :: resultsFrom rs (i + 1) k := by
  unfold resultsFrom
  rw [List.range'_succ, List.map_cons]

variable {rs : Nat → DriverWrite} {vect nsent i : Nat} {smps : List SampleId} {h : Heap}

theorem writeLoop_returns {k : Nat} {given : List (List Payload)} {r : Option Nat}
    {rest : List DriverWrite}
    (hloop : writeLoop vect smps h nsent (resultsFrom rs i k) = some (given, r, rest)) :
    Returns (driver rs) vect smps.length i nsent r := by
  induction k generalizing i nsent given with
  | zero =>
    rw [resultsFrom, List.range'_zero, List.map_nil, writeLoop] at hloop
    split at hloop
    · simp at hloop
    · cases hloop
      exact .done (by omega)
  | succ k ih =>
    rw [resultsFrom_succ] at hloop
    unfold writeLoop at hloop
    split at hloop
    · rename_i hlt
      dsimp only at hloop
      split at hloop
      · rename_i hr
        cases hloop
        exact .fail hlt (by simp [driver, hr])
      · rename_i n hr
        split at hloop
        · rename_i hle
          split at hloop
          · simp at hloop
          · rename_i log r' hrest
            obtain ⟨r', rest'⟩ := r'
            cases hloop
            refine .round hlt (by simp [driver, hr]) hle ?_
            rw [driver_state]
            exact ih hrest
        · simp at hloop
    · cases hloop
      exact .done (by omega)

theorem returns_writeLoop {r : Option Nat} (hreturns : Returns (driver rs) vect smps.length i nsent r) :
    ∃ k given rest, writeLoop vect smps h nsent (resultsFrom rs i k) = some (given, r, rest) := by
  induction hreturns with
  | @done i nsent hle =>
    refine ⟨0, [], [], ?_⟩
    rw [resultsFrom, List.range'_zero, List.map_nil, writeLoop, if_neg (by omega)]
  | @fail i nsent hlt hnone =>
    refine ⟨1, [((smps.drop nsent).take (min (smps.length - nsent) vect)).map h.payload], [], ?_⟩
    rw [resultsFrom_succ, writeLoop, if_pos hlt]
    dsimp only
    split
    · rfl
    · rename_i n hr
      simp [driver, hr] at hnone
  | @round i nsent n r hlt hsome hle hrest ih =>
    obtain ⟨k, given, rest, hk⟩ := ih
    rw [driver_state] at hk
    refine ⟨k + 1, ((smps.drop nsent).take (min (smps.length - nsent) vect)).map h.payload :: given,
      rest, ?_⟩
    rw [resultsFrom_succ, writeLoop, if_pos hlt]
    dsimp only
    split
    · rename_i code hr
      simp [driver, hr] at hsome
    · rename_i n' hr
      have hn : n' = n := by simpa [driver, hr] using hsome
      subst hn
      unfold offered at hle
      rw [if_pos hle, hk]

/-- `node_write` returns, and its result is what was accepted when the driver first accepted
nothing, when it failed or when it had accepted all. -/
def WriteEnds (n : NodeDirection σ) (h : Heap) (smps : List SampleId) (rs : Nat → DriverWrite) : Prop :=
  ∃ k w, nodeWrite n h smps (resultsFrom rs 0 k) = some w ∧
    ∀ hooks h' smps' cnt, n.state = .started ∨ n.state = .connected →
      n.hooks.hookListProcess h smps = (hooks, h', smps', some cnt) → 0 < cnt →
        Stops (driver rs) (n.vect cnt) (smps'.take cnt).length 0 0 w.sent

/-- The hooks of the node do not fail, and in every call up to a failure the driver accepts at least
one of the samples it is given and no more than these. -/
def DriverProgresses (n : NodeDirection σ) (h : Heap) (smps : List SampleId) (rs : Nat → DriverWrite) :
    Prop :=
  n.state = .started ∨ n.state = .connected → ∃ hooks h' smps' cnt,
    n.hooks.hookListProcess h smps = (hooks, h', smps', some cnt) ∧
      (0 < cnt → Progresses (driver rs) (n.vect cnt) (smps'.take cnt).length 0 0)

theorem nodeWrite_running (n : NodeDirection σ) (h : Heap) (smps : List SampleId)
    (hrunning : n.state = .started ∨ n.state = .connected) (rs : List DriverWrite) :
    nodeWrite n h smps rs =
      match n.hooks.hookListProcess h smps with
      | (_, _, _, none) => none
      | (hooks, h, smps, some cnt) =>
        if cnt = 0 then some ⟨{ n with hooks }, h, smps, [], some 0, rs⟩
        else
          (writeLoop (n.vect cnt) (smps.take cnt) h 0 rs).map fun (given, sent, rs) =>
            ⟨{ n with hooks }, h, smps, given, sent, rs⟩ := by
  have hstates : ¬ (n.state = .paused ∨ n.state = .pendingConnect) ∧
      ¬ (n.state ≠ .started ∧ n.state ≠ .connected) := by
    rcases hrunning with hs | hs
    · simp [hs]
    · simp [hs]
  unfold nodeWrite
  exact (if_neg hstates.1).trans (if_neg hstates.2)

theorem nodeWrite_idle (n : NodeDirection σ) (h : Heap) (smps : List SampleId)
    (hidle : ¬ (n.state = .started ∨ n.state = .connected)) (rs : List DriverWrite) :
    ∃ w, nodeWrite n h smps rs = some w := by
  rw [not_or] at hidle
  unfold nodeWrite
  simp only [ne_eq, hidle, not_false_eq_true, and_self, if_true]
  split
  · exact ⟨_, rfl⟩
  · exact ⟨_, rfl⟩

theorem write_ends_iff (n : NodeDirection σ) (h : Heap) (smps : List SampleId) (rs : Nat → DriverWrite) :
    WriteEnds n h smps rs ↔ DriverProgresses n h smps rs := by
  unfold WriteEnds DriverProgresses
  by_cases hrunning : n.state = .started ∨ n.state = .connected
  · simp only [hrunning, true_imp_iff, nodeWrite_running n h smps hrunning]
    rcases hp : n.hooks.hookListProcess h smps with ⟨hooks, h', smps', _ | cnt⟩
    · simp
    by_cases hcnt : cnt = 0
    · subst hcnt
      simp only [if_true]
      constructor
      · intro _
        exact ⟨hooks, h', smps', 0, rfl, fun hlt => absurd hlt (Nat.lt_irrefl 0)⟩
      · intro _
        refine ⟨0, _, rfl, ?_⟩
        rintro hooks₁ h₁ smps₁ cnt₁ heq hlt
        cases heq
        exact absurd hlt (Nat.lt_irrefl 0)
    have hpos : 0 < cnt := Nat.pos_of_ne_zero hcnt
    simp only [hcnt, if_false]
    constructor
    · rintro ⟨k, w, hw, hstops⟩
      obtain ⟨⟨given, r, rest⟩, hloop, rfl⟩ := Option.map_eq_some_iff.mp hw
      refine ⟨hooks, h', smps', cnt, rfl, fun _ => ?_⟩
      exact ends_iff_progresses.mp ⟨r, writeLoop_returns hloop, hstops hooks h' smps' cnt rfl hpos⟩
    · rintro ⟨hooks₁, h₁, smps₁, cnt₁, heq, hprog⟩
      cases heq
      obtain ⟨r, hreturns, hstops⟩ := ends_iff_progresses.mpr (hprog hpos)
      obtain ⟨k, given, rest, hloop⟩ := returns_writeLoop hreturns
      refine ⟨k, ⟨{ n with hooks }, h', smps', given, r, rest⟩, ?_, ?_⟩
      · rw [hloop]
        rfl
      · rintro hooks₁ h₁ smps₁ cnt₁ heq -
        cases heq
        exact hstops
  · simp only [hrunning, false_imp_iff, implies_true, and_true, iff_true]
    exact ⟨0, nodeWrite_idle n h smps hrunning _⟩

/-! ## Loopbacks -/

/-- The node of a secondary source with what is left of the batch, in the round with this number. -/
structure Round where
  loopback : Loopback
  smps : List SampleId
  number : Nat

/-- How many samples the queue takes. -/
def pushed (l : Loopback) (smps : List SampleId) : Nat :=
  min smps.length (l.queueSize - l.queue.length)

/-- The node after a round, with `n` samples read by the other path. -/
def afterRound (l : Loopback) (smps : List SampleId) (n : Nat) : Loopback :=
  { l with queue := (l.queue ++ smps.take (pushed l smps)).drop n }

/-- `loopback_internal_write`, and the reads of the other path behind it. -/
def loopbackRound (drains : Nat → Nat) (s : Round) (tosend : Nat) : Option Nat × Round :=
  let smps := s.smps.take tosend
  (some (pushed s.loopback smps),
    ⟨afterRound s.loopback smps (drains s.number), s.smps.drop (pushed s.loopback smps), s.number + 1⟩)

def drainsFrom (drains : Nat → Nat) (i k : Nat) : List Nat := (List.range' i k).map drains

theorem drainsFrom_succ (drains : Nat → Nat) (i k : Nat) :
    drainsFrom drains i (k + 1) = drains i :: drainsFrom drains (i + 1) k := by
  unfold drainsFrom
  rw [List.range'_succ, List.map_cons]

variable {drains : Nat → Nat} {l : Loopback} {cnt j : Nat} {s : Round}

theorem pushed_le (l : Loopback) (smps : List SampleId) : pushed l smps ≤ smps.length :=
  Nat.min_le_left _ _

theorem forwardLoop_nil (l : Loopback) (h : Heap) (smps : List SampleId) :
    forwardLoop l h smps [] = if pushed l smps < smps.length then none else
      some ((loopbackInternalWrite l h smps).1, (loopbackInternalWrite l h smps).2.1) := rfl

theorem forwardLoop_cons (l : Loopback) (h : Heap) (smps : List SampleId) (n : Nat) (ns : List Nat) :
    forwardLoop l h smps (n :: ns) = if pushed l smps < smps.length then
        forwardLoop (afterRound l smps n)
          (loopbackDrain (loopbackInternalWrite l h smps).1 (loopbackInternalWrite l h smps).2.1 n).2
          (smps.drop (pushed l smps)) ns
      else some ((loopbackInternalWrite l h smps).1, (loopbackInternalWrite l h smps).2.1) := rfl

theorem loopbackRound_eq (drains : Nat → Nat) (hlen : nsent + s.smps.length = cnt) :
    loopbackRound drains s (offered cnt cnt nsent) =
      (some (pushed s.loopback s.smps), ⟨afterRound s.loopback s.smps (drains s.number),
        s.smps.drop (pushed s.loopback s.smps), s.number + 1⟩) := by
  have hall : s.smps.take (offered cnt cnt nsent) = s.smps := by
    apply List.take_of_length_le
    unfold offered
    omega
  unfold loopbackRound
  rw [hall]

theorem pushed_le_offered (hlen : nsent + s.smps.length = cnt) :
    pushed s.loopback s.smps ≤ offered cnt cnt nsent := by
  have := pushed_le s.loopback s.smps
  unfold offered
  omega

theorem returns_round {r : Option Nat} (hlen : nsent + s.smps.length = cnt) (hlt : nsent < cnt)
    (hrest : Returns (loopbackRound drains) cnt cnt ⟨afterRound s.loopback s.smps (drains s.number),
      s.smps.drop (pushed s.loopback s.smps), s.number + 1⟩ (nsent + pushed s.loopback s.smps) r) :
    Returns (loopbackRound drains) cnt cnt s nsent r := by
  have hround := loopbackRound_eq drains hlen
  apply Returns.round hlt (n := pushed s.loopback s.smps)
  · rw [hround]
  · exact pushed_le_offered hlen
  · rw [hround]
    exact hrest

theorem returns_last (hlen : nsent + s.smps.length = cnt)
    (hall : ¬ pushed s.loopback s.smps < s.smps.length) :
    ∃ r, Returns (loopbackRound drains) cnt cnt s nsent r := by
  by_cases hlt : nsent < cnt
  · exact ⟨_, returns_round hlen hlt (.done (by omega))⟩
  · exact ⟨_, .done (by omega)⟩

theorem forwardLoop_returns {k : Nat} {out : Loopback × Heap} (hlen : nsent + smps.length = cnt)
    (hloop : forwardLoop l h smps (drainsFrom drains j k) = some out) :
    ∃ r, Returns (loopbackRound drains) cnt cnt ⟨l, smps, j⟩ nsent r := by
  induction k generalizing l h smps nsent j with
  | zero =>
    rw [drainsFrom, List.range'_zero, List.map_nil, forwardLoop_nil] at hloop
    split at hloop
    · simp at hloop
    · rename_i hall
      exact returns_last hlen hall
  | succ k ih =>
    rw [drainsFrom_succ, forwardLoop_cons] at hloop
    split at hloop
    · have hle := pushed_le l smps
      have hlen' : nsent + pushed l smps + (smps.drop (pushed l smps)).length = cnt := by
        rw [List.length_drop]
        omega
      obtain ⟨r, hrest⟩ := ih hlen' hloop
      exact ⟨r, returns_round hlen (by omega) hrest⟩
    · rename_i hall
      exact returns_last hlen hall

theorem forwardLoop_all (hall : ¬ pushed l smps < smps.length) (h : Heap) :
    ∃ out, forwardLoop l h smps [] = some out := by
  rw [forwardLoop_nil, if_neg hall]
  exact ⟨_, rfl⟩

theorem returns_forwardLoop {r : Option Nat} (hreturns : Returns (loopbackRound drains) cnt cnt s nsent r)
    (hlen : nsent + s.smps.length = cnt) :
    ∃ k, ∀ h, ∃ out, forwardLoop s.loopback h s.smps (drainsFrom drains s.number k) = some out := by
  induction hreturns with
  | @done s nsent hle =>
    have hall : ¬ pushed s.loopback s.smps < s.smps.length := by omega
    exact ⟨0, forwardLoop_all hall⟩
  | fail _ hnone => simp [loopbackRound] at hnone
  | @round s nsent n r hlt hn hle hrest ih =>
    have hpushed := pushed_le s.loopback s.smps
    rw [loopbackRound_eq drains hlen] at hn ih
    cases hn
    obtain ⟨k, hk⟩ := ih (by rw [List.length_drop]; omega)
    by_cases hall : pushed s.loopback s.smps < s.smps.length
    · refine ⟨k + 1, fun h => ?_⟩
      rw [drainsFrom_succ, forwardLoop_cons, if_pos hall]
      exact hk _
    · exact ⟨0, forwardLoop_all hall⟩

/-! ## Forwarding -/

/-- In every round of `node_write` the queue has room. -/
def FindsRoom (drains : Nat → Nat) (l : Loopback) (smps : List SampleId) : Prop :=
  ∀ s m, Calls (loopbackRound drains) smps.length smps.length ⟨l, smps, 0⟩ 0 s m →
    s.loopback.queue.length < s.loopback.queueSize

theorem calls_length {s' : Round} {m : Nat} (hcalls : Calls (loopbackRound drains) cnt cnt s nsent s' m)
    (hlen : nsent + s.smps.length = cnt) : m + s'.smps.length = cnt ∧ m < cnt := by
  induction hcalls with
  | here hlt => exact ⟨hlen, hlt⟩
  | @next s s' nsent n m hlt hn hrest ih =>
    rw [loopbackRound_eq drains hlen] at hn ih
    cases hn
    have hpushed := pushed_le s.loopback s.smps
    apply ih
    rw [List.length_drop]
    omega

theorem progresses_iff (drains : Nat → Nat) (l : Loopback) (smps : List SampleId) :
    Progresses (loopbackRound drains) smps.length smps.length ⟨l, smps, 0⟩ 0 ↔ FindsRoom drains l smps := by
  have hpos : ∀ s m, Calls (loopbackRound drains) smps.length smps.length ⟨l, smps, 0⟩ 0 s m →
      ((∀ n, (loopbackRound drains s (offered smps.length smps.length m)).1 = some n →
        0 < n ∧ n ≤ offered smps.length smps.length m) ↔
          s.loopback.queue.length < s.loopback.queueSize) := by
    intro s m hcalls
    obtain ⟨hlen, hlt⟩ := calls_length hcalls (Nat.zero_add _)
    have hle := pushed_le_offered hlen
    rw [loopbackRound_eq drains hlen]
    simp only [Option.some.injEq, forall_eq']
    unfold pushed at *
    omega
  unfold Progresses FindsRoom
  constructor
  · intro h s m hcalls
    exact (hpos s m hcalls).mp (h s m hcalls)
  · intro h s m hcalls
    exact (hpos s m hcalls).mpr (h s m hcalls)

/-- The samples are forwarded. `node_write` has then returned the whole count to each secondary
source that runs, and this is the result that is due: what the queue took until it first took
nothing. -/
def ForwardingEnds (h : Heap) (smps : List SampleId) (drains : Nat → Nat → Nat)
    (ls : List Loopback) : Prop :=
  ∃ (ks : Nat → Nat) (out : List Loopback × Heap),
    forward h smps (fun i => drainsFrom (drains i) 0 (ks i)) 0 ls = some out ∧
      ∀ i l, ls[i]? = some l → l.state = .started ∨ l.state = .connected →
        Stops (loopbackRound (drains i)) smps.length smps.length ⟨l, smps, 0⟩ 0 (some smps.length)

theorem returns_whole {r : Option Nat} (hreturns : Returns (loopbackRound drains) cnt cnt s nsent r)
    (hle : nsent ≤ cnt) : r = some cnt := by
  induction hreturns with
  | done hge =>
    congr 1
    omega
  | fail _ hnone => simp [loopbackRound] at hnone
  | round hlt _ hn _ ih =>
    unfold offered at hn
    exact ih (by omega)

theorem forward_each {ds : Nat → List Nat} {ls : List Loopback} {i k : Nat}
    {out : List Loopback × Heap} (hforward : forward h smps ds i ls = some out) (hl : ls[k]? = some l) :
    ∃ h' out', forwardOne l h' smps (ds (i + k)) = some out' := by
  induction ls generalizing h i k out with
  | nil => simp at hl
  | cons l₀ ls ih =>
    unfold forward at hforward
    split at hforward
    · simp at hforward
    · rename_i l₁ h₁ hone
      obtain ⟨rest, hrest, -⟩ := Option.map_eq_some_iff.mp hforward
      cases k with
      | zero =>
        cases hl
        exact ⟨h, _, hone⟩
      | succ k =>
        rw [← Nat.add_assoc, Nat.add_right_comm]
        exact ih hrest hl

theorem forward_returns (ds : Nat → List Nat) (ls : List Loopback) (i : Nat) (h : Heap)
    (hall : ∀ k l, ls[k]? = some l → ∀ h, ∃ out, forwardOne l h smps (ds (i + k)) = some out) :
    ∃ out, forward h smps ds i ls = some out := by
  induction ls generalizing i h with
  | nil => exact ⟨_, rfl⟩
  | cons l ls ih =>
    obtain ⟨⟨l', h'⟩, hone⟩ := hall 0 l rfl h
    obtain ⟨⟨ls', h''⟩, hrest⟩ := ih (i + 1) h' fun k l hl h => by
      have := hall (k + 1) l hl h
      rwa [← Nat.add_assoc, Nat.add_right_comm] at this
    unfold forward
    rw [Nat.add_zero] at hone
    rw [hone]
    dsimp only
    rw [hrest]
    exact ⟨_, rfl⟩

theorem forwardOne_returns (drains : Nat → Nat) (l : Loopback) (smps : List SampleId)
    (h : l.state = .started ∨ l.state = .connected → FindsRoom drains l smps) :
    ∃ k, ∀ h, ∃ out, forwardOne l h smps (drainsFrom drains 0 k) = some out := by
  unfold forwardOne
  by_cases hrunning : l.state = .started ∨ l.state = .connected
  · obtain ⟨r, hreturns, -⟩ := ends_iff_progresses.mpr ((progresses_iff drains l smps).mpr (h hrunning))
    simp only [hrunning, if_true]
    exact returns_forwardLoop hreturns (Nat.zero_add _)
  · simp only [hrunning, if_false]
    exact ⟨0, fun h => ⟨_, rfl⟩⟩

theorem forwarding_ends_iff (h : Heap) (smps : List SampleId) (drains : Nat → Nat → Nat)
    (ls : List Loopback) :
    ForwardingEnds h smps drains ls ↔ ∀ i l, ls[i]? = some l →
      l.state = .started ∨ l.state = .connected → FindsRoom (drains i) l smps := by
  constructor
  · rintro ⟨ks, out, hforward, hstops⟩ i l hl hrunning
    obtain ⟨h', out', hone⟩ := forward_each hforward hl
    rw [forwardOne, if_pos hrunning] at hone
    obtain ⟨r, hreturns⟩ := forwardLoop_returns (Nat.zero_add _) hone
    rw [Nat.zero_add, returns_whole hreturns (Nat.zero_le _)] at hreturns
    exact (progresses_iff ..).mp (hreturns.progresses (hstops i l hl hrunning))
  · intro hroom
    have hone : ∀ i, ∃ k, ∀ l, ls[i]? = some l → ∀ h, ∃ out,
        forwardOne l h smps (drainsFrom (drains i) 0 k) = some out := by
      intro i
      rcases hl : ls[i]? with _ | l
      · exact ⟨0, by simp⟩
      · obtain ⟨k, hk⟩ := forwardOne_returns (drains i) l smps (hroom i l hl)
        exact ⟨k, by rintro _ ⟨⟩; exact hk⟩
    choose ks hks using hone
    obtain ⟨out, hout⟩ := forward_returns (fun i => drainsFrom (drains i) 0 (ks i)) ls 0 h
      (fun k l hl h => by rw [Nat.zero_add]; exact hks k l hl h)
    refine ⟨ks, out, hout, fun i l hl hrunning => ?_⟩
    obtain ⟨r, hreturns, hstops⟩ :=
      ends_iff_progresses.mpr ((progresses_iff ..).mpr (hroom i l hl hrunning))
    rwa [returns_whole hreturns (Nat.zero_le _)] at hstops

/-- For every driver and all its results, and for all queues of secondary sources, batches and
readers of these queues: `node_write` ends with what was accepted until nothing was accepted,
exactly when in each call at least one sample is accepted. -/
theorem short_writes_end_iff :
    (∀ (n : NodeDirection σ) (h : Heap) (smps : List SampleId) (rs : Nat → DriverWrite),
      WriteEnds n h smps rs ↔ DriverProgresses n h smps rs) ∧
    ∀ (h : Heap) (smps : List SampleId) (drains : Nat → Nat → Nat) (ls : List Loopback),
      ForwardingEnds h smps drains ls ↔ ∀ i l, ls[i]? = some l →
        l.state = .started ∨ l.state = .connected → FindsRoom (drains i) l smps :=
  ⟨write_ends_iff, forwarding_ends_iff⟩

/-! ## A full queue -/

theorem forwardLoop_full (hfull : l.queueSize ≤ l.queue.length) (hne : smps ≠ []) (h : Heap)
    (j k : Nat) : forwardLoop l h smps (drainsFrom (fun _ => 0) j k) = none := by
  have hpos : 0 < smps.length := List.length_pos_iff.mpr hne
  have hzero : pushed l smps = 0 := by
    unfold pushed
    omega
  have hsame : afterRound l smps 0 = l := by
    unfold afterRound
    simp [hzero]
  induction k generalizing h j with
  | zero => rw [drainsFrom, List.range'_zero, List.map_nil, forwardLoop_nil, hzero, if_pos hpos]
  | succ k ih => rw [drainsFrom_succ, forwardLoop_cons, hzero, if_pos hpos, hsame, List.drop_zero, ih]

/-- All places of the queue are taken. -/
def fullLoopback : Loopback := .internal (List.replicate 1024 1)

/-- One sample for a secondary source whose queue is full, and whose path does not read. -/
theorem full_queue_hangs :
    (∀ (h : Heap) (ks : Nat → Nat),
      forward h [2] (fun i => drainsFrom (fun _ => 0) 0 (ks i)) 0 [fullLoopback] = none) ∧
    ∀ h, ¬ ForwardingEnds h [2] (fun _ _ => 0) [fullLoopback] := by
  have hfull : fullLoopback.queueSize ≤ fullLoopback.queue.length := List.length_replicate.ge
  have hnone : ∀ (h : Heap) (ks : Nat → Nat),
      forward h [2] (fun i => drainsFrom (fun _ => 0) 0 (ks i)) 0 [fullLoopback] = none := by
    intro h ks
    unfold forward forwardOne
    rw [if_pos (.inl rfl), forwardLoop_full hfull (by decide)]
  refine ⟨hnone, ?_⟩
  rintro h ⟨ks, out, hforward, -⟩
  rw [hnone] at hforward
  simp at hforward

end VillasNode.ShortWrites
