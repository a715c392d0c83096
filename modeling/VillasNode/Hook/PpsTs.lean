import VillasNode.Hook.Model
import VillasNode.Lib.Ring

/-!
# The hook pps_ts

`lib/hooks/pps_ts.cpp`, up to the counts that the period is estimated from. The
number of samples at each pulse edge is stored in a ring, and the estimate is
made over the last ten periods, or over as many as there are. All counters have
64 bits. The timestamps that are made from the estimate are left out.
-/

namespace VillasNode.PpsTsHook

/-- `less` is the comparison of two `double`. Values are read as a `float` before. -/
structure Config where
  less : Value → Value → Bool
  asymm : ∀ a b, less a b → ¬ less b a
  toFloat : Value → Value
  threshold : Value
  signalIndex : Nat

structure State where
  lastValue : Value
  isSynced : Bool
  cntEdges : BitVec 64
  cntSmps : BitVec 64
  cntSmpsTotal : BitVec 64
  filterWindow : List (BitVec 64)

def horizonEstimation : Nat := 10

def initial : State :=
  { lastValue := 0, isSynced := false, cntEdges := 0, cntSmps := 0, cntSmpsTotal := 0
    filterWindow := List.replicate (horizonEstimation + 1) 0 }

structure Estimate where
  /-- The index into `filterWindow` that is written. -/
  stored : Nat
  /-- The index into it that is read. -/
  read : Nat
  difference : BitVec 64
  /-- `tmp` -/
  divisor : BitVec 64

/-- `cntSmpsAvg`. `none` for a division by zero. -/
def Estimate.average (e : Estimate) : Option (BitVec 64) :=
  if e.divisor = 0 then none else some (e.difference / e.divisor)

/-- A remainder by `filterWindow.size()`. -/
def slot (s : State) (count : BitVec 64) : Nat := count.toNat % s.filterWindow.length

variable (c : Config)

def value (smp : Payload) : Value := c.toFloat (smp.data c.signalIndex)

/-- `lastValue < threshold && value > threshold` -/
def isEdge (lastValue : Value) (smp : Payload) : Bool :=
  c.less lastValue c.threshold && c.less c.threshold (value c smp)

/-- The first edge synchronises. -/
def synchronise (s : State) : State :=
  { s with isSynced := true, cntEdges := 0, cntSmpsTotal := 0 }

/-- `tmp` -/
def lookBack (s : State) : BitVec 64 :=
  if s.cntEdges.toNat < s.filterWindow.length then s.cntEdges
  else BitVec.ofNat 64 horizonEstimation

def store (s : State) : State :=
  { s with filterWindow := s.filterWindow.set (slot s s.cntEdges) s.cntSmpsTotal }

/-- The estimate at an edge behind the first one. -/
def estimate (s : State) : Estimate :=
  let stored := store s
  let read := slot s (s.cntEdges - lookBack s)
  { stored := slot s s.cntEdges, read, difference := s.cntSmpsTotal - stored.filterWindow.getD read 0
    divisor := lookBack s }

def edge (s : State) : State × Option Estimate :=
  let (s, e) := if s.isSynced then (store s, some (estimate s)) else (synchronise s, none)
  ({ s with cntSmps := 0, cntEdges := s.cntEdges + 1 }, e)

def process (s : State) (smp : Payload) : State × Option Estimate × Reason :=
  let (s, e) :=
    if isEdge c s.lastValue smp then edge { s with lastValue := value c smp }
    else ({ s with lastValue := value c smp }, none)
  let s := { s with cntSmps := s.cntSmps + 1, cntSmpsTotal := s.cntSmpsTotal + 1 }
  (s, e, if s.cntEdges.toNat < 5 then .skipSample else .ok)

def estimates : State → List Payload → List (Option Estimate)
  | _, [] => []
  | s, smp :: smps =>
    let (s, e, _) := process c s smp
    e :: estimates s smps

/-! ## The specification -/

/-- The numbers of the samples with a pulse edge, the first sample having number `i`. -/
def edgesFrom (lastValue : Value) (i : Nat) : List Payload → List Nat
  | [] => []
  | smp :: smps => (if isEdge c lastValue smp then [i] else []) ++ edgesFrom (value c smp) (i + 1) smps

def edges (smps : List Payload) : List Nat := edgesFrom c initial.lastValue 0 smps

/-- The estimate at sample `k` is made from the samples since `k₀`, over `periods` periods. -/
def EstimatesFrom (smps : List Payload) (k k₀ periods : Nat) : Prop :=
  ∃ e a, (estimates c initial smps)[k]? = some (some e) ∧
    e.stored < horizonEstimation + 1 ∧ e.read < horizonEstimation + 1 ∧
    e.difference.toNat = k - k₀ ∧ e.divisor.toNat = periods ∧
    e.average = some a ∧ a.toNat = (k - k₀) / periods ∧ 2 ≤ a.toNat

/-! ## Edges -/

def lastFrom (lastValue : Value) : List Payload → Value
  | [] => lastValue
  | smp :: smps => lastFrom (value c smp) smps

section
variable {c} {smps later : List Payload} {smp : Payload} {lastValue : Value} {i n k : Nat}

theorem edgesFrom_append : edgesFrom c lastValue i (smps ++ later) =
    edgesFrom c lastValue i smps ++
      edgesFrom c (lastFrom c lastValue smps) (i + smps.length) later := by
  induction smps generalizing lastValue i with
  | nil => rfl
  | cons smp smps ih =>
    rw [List.cons_append, edgesFrom, ih, edgesFrom, lastFrom, List.length_cons, List.append_assoc]
    congr 3
    omega

theorem lastFrom_append : lastFrom c lastValue (smps ++ [smp]) = value c smp := by
  induction smps generalizing lastValue with
  | nil => rfl
  | cons _ smps ih => exact ih

theorem le_of_mem_edgesFrom (hk : k ∈ edgesFrom c lastValue i smps) : i ≤ k := by
  induction smps generalizing lastValue i with
  | nil => cases hk
  | cons smp smps ih =>
    rw [edgesFrom, List.mem_append] at hk
    obtain hk | hk := hk
    · split at hk
      · rw [List.mem_singleton.mp hk]
      · cases hk
    · have hle := ih hk
      omega

theorem edges_append (smps later : List Payload) : edges c (smps ++ later) =
    edges c smps ++ edgesFrom c (lastFrom c initial.lastValue smps) smps.length later := by
  unfold edges
  rw [edgesFrom_append, Nat.zero_add]

theorem edges_concat (smps : List Payload) (smp : Payload) : edges c (smps ++ [smp]) =
    edges c smps ++
      if isEdge c (lastFrom c initial.lastValue smps) smp then [smps.length] else [] := by
  rw [edges_append, edgesFrom, edgesFrom, List.append_nil]

end

/-! ## Counters -/

/-- The number of samples since the first edge, at each edge. -/
def totals (ps : List Nat) : List (BitVec 64) := ps.map fun p => BitVec.ofNat 64 (p - ps.headD 0)

structure Counts (s : State) (smps : List Payload) : Prop where
  last : s.lastValue = lastFrom c initial.lastValue smps
  synced : s.isSynced = true ↔ edges c smps ≠ []
  count : s.cntEdges = BitVec.ofNat 64 (edges c smps).length
  total : edges c smps ≠ [] →
    s.cntSmpsTotal = BitVec.ofNat 64 (smps.length - (edges c smps).headD 0)
  size : s.filterWindow.length = horizonEstimation + 1
  window : (edges c smps).length ≤ 2 ^ 64 →
    s.filterWindow = Ring.writeAll (List.replicate (horizonEstimation + 1) 0) (totals (edges c smps))
  recent : ∀ p ∈ edges c smps,
    p < smps.length ∧ (p + 1 = smps.length → c.less c.threshold s.lastValue = true)
  gaps : (edges c smps).Pairwise fun p q => p + 2 ≤ q

section
variable {c} {s : State} {smps : List Payload} {smp : Payload}

theorem counts_initial : Counts c initial [] where
  last := rfl
  synced := iff_of_false (by decide) (not_not_intro rfl)
  count := rfl
  total h := absurd rfl h
  size := rfl
  window _ := rfl
  recent p hp := by cases hp
  gaps := .nil

theorem process_of_not_edge (h : isEdge c s.lastValue smp = false) : (process c s smp).1 =
    { s with lastValue := value c smp, cntSmps := s.cntSmps + 1
             cntSmpsTotal := s.cntSmpsTotal + 1 } := by
  unfold process
  rw [h]
  rfl

theorem process_of_first (h : isEdge c s.lastValue smp = true) (hs : s.isSynced = false) :
    (process c s smp).1 =
      { s with lastValue := value c smp, isSynced := true, cntEdges := 1, cntSmps := 1
               cntSmpsTotal := 1 } := by
  unfold process edge
  rw [h]
  simp only [if_true, hs]
  rfl

theorem process_of_edge (h : isEdge c s.lastValue smp = true) (hs : s.isSynced = true) :
    (process c s smp).1 =
        { s with lastValue := value c smp, cntEdges := s.cntEdges + 1, cntSmps := 1
                 cntSmpsTotal := s.cntSmpsTotal + 1
                 filterWindow := (store s).filterWindow } ∧
      (process c s smp).2.1 = some (estimate s) := by
  unfold process edge
  rw [h]
  simp only [if_true, hs]
  exact ⟨rfl, rfl⟩

theorem ofNat_succ (n : Nat) : BitVec.ofNat 64 n + 1 = BitVec.ofNat 64 (n + 1) := by
  rw [BitVec.ofNat_add]
  rfl

theorem Counts.head_lt (h : Counts c s smps) (hne : edges c smps ≠ []) :
    (edges c smps).headD 0 < smps.length := by
  obtain ⟨p, ps, heq⟩ := List.exists_cons_of_ne_nil hne
  have hp := (h.recent p (by rw [heq]; exact List.mem_cons_self)).1
  rw [heq]
  exact hp

theorem Counts.gap (h : Counts c s smps) (hedge : isEdge c s.lastValue smp = true) {p : Nat}
    (hp : p ∈ edges c smps) : p + 2 ≤ smps.length := by
  obtain ⟨hlt, habove⟩ := h.recent p hp
  unfold isEdge at hedge
  rw [Bool.and_eq_true] at hedge
  have hne : p + 1 ≠ smps.length := fun heq => c.asymm _ _ hedge.1 (habove heq)
  omega

theorem Counts.not_edge (h : Counts c s smps) (hedge : isEdge c s.lastValue smp = false) :
    Counts c (process c s smp).1 (smps ++ [smp]) := by
  have hedges : edges c (smps ++ [smp]) = edges c smps := by
    rw [edges_concat, ← h.last, hedge]
    exact List.append_nil _
  rw [process_of_not_edge hedge]
  refine ⟨lastFrom_append.symm, ?_, ?_, ?_, h.size, ?_, ?_, ?_⟩ <;> rw [hedges]
  · exact h.synced
  · exact h.count
  · intro hne
    have hlt := h.head_lt hne
    rw [List.length_append, List.length_singleton, h.total hne, ofNat_succ,
      Nat.sub_add_comm hlt.le]
  · exact h.window
  · intro p hp
    have hlt := (h.recent p hp).1
    rw [List.length_append, List.length_singleton]
    exact ⟨by omega, fun heq => by omega⟩
  · exact h.gaps

theorem totals_concat {ps : List Nat} (hne : ps ≠ []) (p : Nat) :
    totals (ps ++ [p]) = totals ps ++ [BitVec.ofNat 64 (p - ps.headD 0)] := by
  obtain ⟨q, qs, rfl⟩ := List.exists_cons_of_ne_nil hne
  rw [totals, List.map_append]
  rfl

theorem Counts.store (h : Counts c s smps) (hne : edges c smps ≠ [])
    (hlt : (edges c smps).length < 2 ^ 64) :
    (store s).filterWindow = Ring.writeAll (List.replicate (horizonEstimation + 1) 0)
      (totals (edges c smps ++ [smps.length])) := by
  have hslot : slot s s.cntEdges = (edges c smps).length % (horizonEstimation + 1) := by
    rw [slot, h.count, h.size, BitVec.toNat_ofNat, Nat.mod_eq_of_lt hlt]
  unfold PpsTsHook.store
  rw [hslot, h.window hlt.le, h.total hne, totals_concat hne]
  unfold Ring.writeAll
  rw [Ring.storeAll_concat, Nat.zero_add, List.length_replicate, totals, List.length_map]

theorem Counts.at_edge (h : Counts c s smps) (hedge : isEdge c s.lastValue smp = true) :
    Counts c (process c s smp).1 (smps ++ [smp]) := by
  have hedges : edges c (smps ++ [smp]) = edges c smps ++ [smps.length] := by
    rw [edges_concat, ← h.last, hedge]
    rfl
  have habove : c.less c.threshold (value c smp) = true := by
    unfold isEdge at hedge
    exact (Bool.and_eq_true .. ▸ hedge).2
  have hrecent : ∀ p ∈ edges c (smps ++ [smp]), p < (smps ++ [smp]).length ∧
      (p + 1 = (smps ++ [smp]).length → c.less c.threshold (value c smp) = true) := by
    intro p hp
    rw [hedges, List.mem_append, List.mem_singleton] at hp
    rw [List.length_append, List.length_singleton]
    obtain hp | rfl := hp
    · have hlt := (h.recent p hp).1
      exact ⟨by omega, fun _ => habove⟩
    · exact ⟨by omega, fun _ => habove⟩
  have hgaps : (edges c (smps ++ [smp])).Pairwise fun p q => p + 2 ≤ q := by
    rw [hedges, List.pairwise_append]
    refine ⟨h.gaps, List.pairwise_singleton _ _, fun p hp q hq => ?_⟩
    rw [List.mem_singleton.mp hq]
    exact h.gap hedge hp
  by_cases hne : edges c smps = []
  · have hfirst : edges c (smps ++ [smp]) = [smps.length] := by rw [hedges, hne, List.nil_append]
    have hs : s.isSynced = false := by
      rw [← Bool.not_eq_true, h.synced, not_not]
      exact hne
    rw [process_of_first hedge hs]
    refine ⟨lastFrom_append.symm, ?_, ?_, ?_, h.size, ?_, hrecent, hgaps⟩ <;> rw [hfirst]
    · exact iff_of_true rfl (List.cons_ne_nil _ _)
    · rfl
    · intro _
      rw [List.length_append, List.length_singleton, List.headD_cons, Nat.add_sub_cancel_left]
      rfl
    · intro _
      have hwindow := h.window
      rw [hne] at hwindow
      rw [totals, List.map_singleton, List.headD_cons, Nat.sub_self]
      exact (hwindow (Nat.zero_le _)).trans rfl
  · have hs : s.isSynced = true := h.synced.mpr hne
    have hhead : (edges c (smps ++ [smp])).headD 0 = (edges c smps).headD 0 := by
      rw [hedges]
      obtain ⟨p, ps, heq⟩ := List.exists_cons_of_ne_nil hne
      rw [heq]
      rfl
    have hlt := h.head_lt hne
    rw [(process_of_edge hedge hs).1]
    refine ⟨lastFrom_append.symm, ?_, ?_, ?_, ?_, ?_, hrecent, hgaps⟩
    · rw [hedges]
      exact iff_of_true hs (List.append_ne_nil_of_right_ne_nil _ (List.cons_ne_nil _ _))
    · rw [hedges, List.length_append, List.length_singleton, h.count, ofNat_succ]
    · intro _
      rw [hhead, List.length_append, List.length_singleton, h.total hne, ofNat_succ,
        Nat.sub_add_comm hlt.le]
    · exact (List.length_set ..).trans h.size
    · rw [hedges]
      intro hle
      rw [List.length_append, List.length_singleton] at hle
      exact h.store hne (by omega)

theorem Counts.process (h : Counts c s smps) (smp : Payload) :
    Counts c (process c s smp).1 (smps ++ [smp]) := by
  cases hedge : isEdge c s.lastValue smp with
  | true => exact h.at_edge hedge
  | false => exact h.not_edge hedge

end

/-! ## Estimates -/

section
variable {c} {s : State} {before later smps : List Payload} {smp : Payload} {n k k₀ : Nat}

theorem getElem?_behind {E F : List Nat} (h : (E ++ F)[n]? = some k) (hE : ∀ p ∈ E, p < k) :
    E.length ≤ n ∧ F[n - E.length]? = some k := by
  obtain hlt | hge := Nat.lt_or_ge n E.length
  · rw [List.getElem?_append_left hlt] at h
    exact absurd (hE k (List.mem_of_getElem? h)) (Nat.lt_irrefl k)
  · rw [List.getElem?_append_right hge] at h
    exact ⟨hge, h⟩

theorem Counts.next_edge (h : Counts c s before)
    (hn : (edges c (before ++ smp :: later))[n]? = some before.length) :
    n = (edges c before).length ∧ isEdge c s.lastValue smp = true := by
  rw [edges_append, edgesFrom, ← h.last] at hn
  obtain ⟨hle, hat⟩ := getElem?_behind hn fun p hp => (h.recent p hp).1
  have hlater {m : Nat} (hm : (edgesFrom c (value c smp) (before.length + 1) later)[m]? =
      some before.length) : False := by
    have hge := le_of_mem_edgesFrom (List.mem_of_getElem? hm)
    omega
  cases hedge : isEdge c s.lastValue smp with
  | false =>
    rw [hedge] at hat
    exact absurd hat hlater
  | true =>
    refine ⟨?_, rfl⟩
    rw [hedge] at hat
    obtain ⟨m, hm⟩ := Nat.exists_eq_add_of_le hle
    rw [hm, Nat.add_sub_cancel_left] at hat
    cases m with
    | zero => exact hm
    | succ m => exact absurd hat hlater

theorem edge_state (h : Counts c s before) (hn : (edges c (before ++ later))[n]? = some k)
    (hk : before.length ≤ k) :
    ∃ s' smps smp rest, before ++ later = smps ++ smp :: rest ∧ smps.length = k ∧
      Counts c s' smps ∧ (edges c smps).length = n ∧ isEdge c s'.lastValue smp = true ∧
      (estimates c s later)[k - before.length]? = some (process c s' smp).2.1 := by
  induction later generalizing s before with
  | nil =>
    rw [List.append_nil] at hn
    have hlt := (h.recent k (List.mem_of_getElem? hn)).1
    omega
  | cons smp later ih =>
    obtain rfl | hlt := Nat.eq_or_lt_of_le hk
    · obtain ⟨hcount, hedge⟩ := h.next_edge hn
      refine ⟨s, before, smp, later, rfl, rfl, h, hcount.symm, hedge, ?_⟩
      rw [Nat.sub_self]
      rfl
    · rw [List.append_cons] at hn
      obtain ⟨s', smps, smp', rest, heq, hlen, hcounts, hcount, hedge, hat⟩ :=
        ih (h.process smp) hn (by rw [List.length_append, List.length_singleton]; exact hlt)
      refine ⟨s', smps, smp', rest, ?_, hlen, hcounts, hcount, hedge, ?_⟩
      · rw [List.append_cons, heq]
      · rw [List.length_append, List.length_singleton] at hat
        rw [show k - before.length = k - (before.length + 1) + 1 by omega]
        exact hat

theorem gaps_apart {ps : List Nat} (hgaps : ps.Pairwise fun p q => p + 2 ≤ q) {i m p q : Nat}
    (hp : ps[i]? = some p) (hq : ps[i + m]? = some q) : p + 2 * m ≤ q := by
  induction m generalizing q with
  | zero =>
    rw [Nat.add_zero, hp, Option.some.injEq] at hq
    omega
  | succ m ih =>
    have hlt := (List.getElem?_eq_some_iff.mp hq).1
    obtain ⟨r, hr⟩ : ∃ r, ps[i + m]? = some r := ⟨_, List.getElem?_eq_getElem (by omega)⟩
    have hle := ih hr
    obtain ⟨hi, rfl⟩ := List.getElem?_eq_some_iff.mp hr
    obtain ⟨hj, rfl⟩ := List.getElem?_eq_some_iff.mp hq
    have hgap := List.pairwise_iff_getElem.mp hgaps (i + m) (i + (m + 1)) hi hj (by omega)
    omega

theorem lookBack_toNat (h : Counts c s smps) (hn : (edges c smps).length < 2 ^ 64) :
    (lookBack s).toNat = min (edges c smps).length horizonEstimation := by
  have hcount : s.cntEdges.toNat = (edges c smps).length := by
    rw [h.count, BitVec.toNat_ofNat, Nat.mod_eq_of_lt hn]
  unfold lookBack
  rw [h.size, hcount]
  split
  · rw [hcount, Nat.min_eq_left (by omega)]
  · rw [Nat.min_eq_right (by omega)]
    rfl

theorem Counts.read (h : Counts c s smps) (hpos : 0 < (edges c smps).length)
    (hn : (edges c smps).length < 2 ^ 64)
    (hk₀ : (edges c smps)[(edges c smps).length - min (edges c smps).length horizonEstimation]? =
      some k₀) :
    (PpsTsHook.store s).filterWindow.getD (estimate s).read 0 =
      BitVec.ofNat 64 (k₀ - (edges c smps).headD 0) := by
  have hne : edges c smps ≠ [] := List.length_pos_iff.mp hpos
  generalize hm : min (edges c smps).length horizonEstimation = m at hk₀
  have hpast : 0 < m := by
    rw [← hm]
    exact Nat.lt_min.mpr ⟨hpos, by decide⟩
  have hle : m ≤ horizonEstimation := by
    rw [← hm]
    exact Nat.min_le_right _ _
  have hback := lookBack_toNat h hn
  rw [hm] at hback
  have hread : (estimate s).read = ((edges c smps).length - m) % (horizonEstimation + 1) := by
    have hsub : (s.cntEdges - lookBack s).toNat = (edges c smps).length - m := by
      rw [BitVec.toNat_sub_of_le, hback, h.count, BitVec.toNat_ofNat, Nat.mod_eq_of_lt hn]
      rw [BitVec.le_def, hback, h.count, BitVec.toNat_ofNat, Nat.mod_eq_of_lt hn]
      omega
    show slot s (s.cntEdges - lookBack s) = _
    rw [slot, hsub, h.size]
  have htotal : (totals (edges c smps ++ [smps.length]))[(edges c smps).length - m]? =
      some (BitVec.ofNat 64 (k₀ - (edges c smps).headD 0)) := by
    rw [totals_concat hne, List.getElem?_append_left
      (by rw [totals, List.length_map]; omega), totals, List.getElem?_map, hk₀]
    rfl
  have hring : List.replicate (horizonEstimation + 1) (0 : BitVec 64) ≠ [] := List.cons_ne_nil _ _
  have hslot := Ring.getElem?_writeAll hring htotal (by
    rw [totals, List.length_map, List.length_append, List.length_singleton, List.length_replicate]
    omega)
  rw [List.length_replicate] at hslot
  rw [h.store hne hn, hread, List.getD_eq_getElem?_getD, hslot]
  rfl

theorem ofNat_sub_ofNat {a b : Nat} (h : a ≤ b) (hlt : b - a < 2 ^ 64) :
    (BitVec.ofNat 64 b - BitVec.ofNat 64 a).toNat = b - a := by
  have hsum : BitVec.ofNat 64 b = BitVec.ofNat 64 (b - a) + BitVec.ofNat 64 a := by
    rw [← BitVec.ofNat_add, Nat.sub_add_cancel h]
  rw [hsum, BitVec.add_sub_cancel, BitVec.toNat_ofNat, Nat.mod_eq_of_lt hlt]

theorem Counts.estimate (h : Counts c s smps) (hedge : isEdge c s.lastValue smp = true)
    (hpos : 0 < (edges c smps).length) (hn : (edges c smps).length < 2 ^ 64)
    (hk₀ : (edges c smps)[(edges c smps).length - min (edges c smps).length horizonEstimation]? =
      some k₀) (hspan : smps.length - k₀ < 2 ^ 64) :
    (estimate s).difference.toNat = smps.length - k₀ ∧
      k₀ + 2 * min (edges c smps).length horizonEstimation ≤ smps.length := by
  have hne : edges c smps ≠ [] := List.length_pos_iff.mp hpos
  have hgaps := (h.at_edge hedge).gaps
  rw [edges_concat, ← h.last, hedge, if_pos rfl] at hgaps
  have hmin : min (edges c smps).length horizonEstimation ≤ (edges c smps).length :=
    Nat.min_le_left _ _
  have hlt := (List.getElem?_eq_some_iff.mp hk₀).1
  have hapart := gaps_apart hgaps (q := smps.length)
    ((List.getElem?_append_left hlt).trans hk₀) (by
      rw [Nat.sub_add_cancel hmin, List.getElem?_append_right (le_refl _), Nat.sub_self]
      rfl)
  have hhead : (edges c smps).headD 0 ≤ k₀ := by
    obtain ⟨p, ps, heq⟩ := List.exists_cons_of_ne_nil hne
    have hfirst := gaps_apart h.gaps (i := 0) (p := p)
      (by rw [heq]; rfl) (by rw [Nat.zero_add]; exact hk₀)
    rw [heq, List.headD_cons]
    omega
  refine ⟨?_, hapart⟩
  have hdifference : (PpsTsHook.estimate s).difference =
      s.cntSmpsTotal - (PpsTsHook.store s).filterWindow.getD (PpsTsHook.estimate s).read 0 := rfl
  rw [hdifference, h.read hpos hn hk₀, h.total hne, ofNat_sub_ofNat (by omega) (by omega)]
  omega

/-- At each edge behind the first one, up to the number `2 ^ 64`, the estimate is made from the
samples of the last ten periods, or of all if there are less. -/
theorem estimate_from_periods (hn : 0 < n) (hlt : n < 2 ^ 64) (hk : (edges c smps)[n]? = some k)
    (hk₀ : (edges c smps)[n - min n horizonEstimation]? = some k₀) (hspan : k - k₀ < 2 ^ 64) :
    EstimatesFrom c smps k k₀ (min n horizonEstimation) := by
  obtain ⟨s, before, smp, rest, heq, rfl, h, rfl, hedge, hat⟩ :=
    edge_state (counts_initial (c := c)) hk (Nat.zero_le k)
  rw [List.nil_append] at heq
  have hperiods : 0 < min (edges c before).length horizonEstimation :=
    Nat.lt_min.mpr ⟨hn, by decide⟩
  rw [heq, edges_append, List.getElem?_append_left (by omega)] at hk₀
  obtain ⟨hdifference, hapart⟩ := h.estimate hedge hn hlt hk₀ hspan
  have hs : s.isSynced = true := h.synced.mpr (List.length_pos_iff.mp hn)
  rw [List.length_nil, Nat.sub_zero, (process_of_edge hedge hs).2] at hat
  have hdivisor : (estimate s).divisor.toNat = min (edges c before).length horizonEstimation :=
    lookBack_toNat h hlt
  have haverage : (estimate s).average = some ((estimate s).difference / (estimate s).divisor) := by
    rw [Estimate.average, if_neg]
    intro hzero
    rw [hzero] at hdivisor
    exact absurd hdivisor.symm hperiods.ne'
  have hslot (count : BitVec 64) : slot s count < horizonEstimation + 1 := by
    rw [slot, h.size]
    exact Nat.mod_lt _ (Nat.succ_pos _)
  refine ⟨_, _, hat, hslot _, hslot _, hdifference, hdivisor, haverage, ?_, ?_⟩
  · rw [BitVec.toNat_udiv, hdifference, hdivisor]
  · rw [BitVec.toNat_udiv, hdifference, hdivisor, Nat.le_div_iff_mul_le hperiods]
    omega

end

/-! ## Pulses of two samples -/

/-- Values are compared as numbers, and an edge is one from 0 to 2. -/
def exampleConfig : Config where
  less a b := a.toNat < b.toNat
  asymm a b hab hba := by
    rw [decide_eq_true_eq] at hab hba
    omega
  toFloat v := v
  threshold := 1
  signalIndex := 0

def level (v : Value) : Payload := ⟨0, 1, 0, 0, ⟨0, 0⟩, ⟨0, 0⟩, fun _ => v⟩

def pulses : Nat → List Payload
  | 0 => []
  | m + 1 => level 0 :: level 2 :: pulses m

theorem pulses_edges (v : Value) (i : Nat) {m j : Nat} (hj : j < m) :
    (edgesFrom exampleConfig v i (pulses m))[j]? = some (i + 2 * j + 1) := by
  induction m generalizing v i j with
  | zero => exact absurd hj (Nat.not_lt_zero j)
  | succ m ih =>
    have hlow : isEdge exampleConfig v (level 0) = false := Bool.and_false _
    have hhigh : isEdge exampleConfig (value exampleConfig (level 0)) (level 2) = true := rfl
    rw [pulses, edgesFrom, edgesFrom, hlow, hhigh]
    cases j with
    | zero => rfl
    | succ j =>
      refine (ih (value exampleConfig (level 2)) (i + 1 + 1) (Nat.lt_of_succ_lt_succ hj)).trans ?_
      rw [show i + 1 + 1 + 2 * j + 1 = i + 2 * (j + 1) + 1 by omega]

theorem estimate_from_two :
    (edges exampleConfig (pulses 3))[2]? = some 5 ∧ EstimatesFrom exampleConfig (pulses 3) 5 1 2 :=
  ⟨pulses_edges 0 0 (by decide),
    estimate_from_periods (n := 2) (by decide) (by decide) (pulses_edges 0 0 (by decide))
      (pulses_edges 0 0 (by decide)) (by decide)⟩

/-- Behind `2 ^ 64` edges the counter is 0 again, and so is the divisor. -/
theorem divisor_is_zero :
    ¬ ∀ (c : Config) (smps : List Payload) (n k k₀ : Nat), 0 < n → (edges c smps)[n]? = some k →
      (edges c smps)[n - min n horizonEstimation]? = some k₀ →
      EstimatesFrom c smps k k₀ (min n horizonEstimation) := by
  intro hall
  have hk : (edges exampleConfig (pulses (2 ^ 64 + 1)))[2 ^ 64]? = some (0 + 2 * 2 ^ 64 + 1) :=
    pulses_edges 0 0 (Nat.lt_succ_self _)
  have hk₀ : (edges exampleConfig (pulses (2 ^ 64 + 1)))[2 ^ 64 - min (2 ^ 64) horizonEstimation]? =
      some (0 + 2 * (2 ^ 64 - min (2 ^ 64) horizonEstimation) + 1) :=
    pulses_edges 0 0 (by omega)
  obtain ⟨e, a, hat, -, -, -, hdivisor, -⟩ := hall _ _ _ _ _ (Nat.two_pow_pos 64) hk hk₀
  have hbehind : (edges exampleConfig ([] ++ pulses (2 ^ 64 + 1)))[2 ^ 64]? =
      some (0 + 2 * 2 ^ 64 + 1) := hk
  obtain ⟨s, before, smp, rest, -, hlen, h, hcount, hedge, hsame⟩ :=
    edge_state counts_initial hbehind (Nat.zero_le _)
  have hs : s.isSynced = true := by
    rw [h.synced, ← List.length_pos_iff, hcount]
    exact Nat.two_pow_pos 64
  rw [List.length_nil, Nat.sub_zero, hat, (process_of_edge hedge hs).2] at hsame
  cases hsame
  have hzero : s.cntEdges = 0 := by
    rw [h.count, hcount]
    rfl
  have hback : (estimate s).divisor = 0 := by
    show lookBack s = 0
    rw [lookBack, hzero, h.size]
    rfl
  rw [hback] at hdivisor
  exact absurd hdivisor (by decide)

end VillasNode.PpsTsHook
