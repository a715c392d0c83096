import VillasNode.Hook.Model
import VillasNode.Hook.Signals
import VillasNode.Mapping.Slots

/-!
# How far hooks write

What the hooks of `lib/hooks` do to the length of a sample and how far they
write its values, next to the lists of signals that `hook_list_prepare` makes
for them. Pools are sized by the longest of these lists.
-/

namespace VillasNode.Capacity

open SignalHooks (Signal dpOffset vlistInsert vlistRemove removeLoop insertLoop)

/-! ## Hooks -/

/-- The indices of signals are those that `MultiSignalHook::prepare` finds for their names. -/
inductive Hook where
  /-- `average` and `dp` -/
  | signals (c : SignalHooks.Config)
  | dft (indices : List Nat)
  | lua (process : Bool) (expressions : Option (List Signal))
  /-- `INVALID` keeps the type. -/
  | cast (newType : SignalType) (indices : List Nat)
  /-- It limits integers and floats. -/
  | limitValue (indices : List Nat)
  /-- `ma` and `rms` -/
  | window (indices : List Nat)
  | scale (indices : List Nat)
  | other
deriving DecidableEq

def castSignals (newType : SignalType) (l : List Signal) (indices : List Nat) : List Signal :=
  if newType = .invalid then l
  else indices.foldl (fun l i => l.modify i fun sig => { sig with type := newType }) l

/-- `offset` of the hook `limit_value`, which no setting changes. -/
def limitValueOffset : Nat := 0

/-- `none` when it throws. -/
def Hook.prepare (l : List Signal) : Hook → Option (List Signal)
  | .signals c => SignalHooks.prepare l c
  | .dft indices =>
    if ∀ i ∈ indices, i < l.length then
      some (List.replicate (4 * indices.length) ⟨.float, .new 0⟩)
    else none
  | .lua _ expressions => some (expressions.getD l)
  | .cast newType indices =>
    if ∀ i ∈ indices, i < l.length then some (castSignals newType l indices) else none
  | .limitValue indices =>
    -- It adds a signal as `average` does, though it adds no value to the samples.
    if ∀ i ∈ indices, i < l.length then some (vlistInsert l limitValueOffset ⟨.float, .new 0⟩) else none
  | .window indices =>
    if ∀ i ∈ indices, l[i]?.map Signal.type = some .float then some l else none
  | .scale indices => if ∀ i ∈ indices, i < l.length then some l else none
  | .other => some l

/-- The length that a call leaves, and one behind the last value that it writes. -/
structure Effect where
  length : Nat
  extent : Nat
deriving DecidableEq

/-- `sample_data_insert` with an offset inside of the sample. -/
def insertEffect (length offset len : Nat) : Effect :=
  ⟨u32 (length + len), offset + len + (length - offset)⟩

/-- `sample_data_remove`, which does not ask whether there are as many values. -/
def removeEffect (length offset len : Nat) : Effect := ⟨u32Sub length len, offset + len⟩

def dpRemoved (inverse : Bool) (harmonics : Nat) : Nat := if inverse then harmonics else 1

def dpInserted (inverse : Bool) (harmonics : Nat) : Nat := if inverse then 1 else harmonics

def dpEffect (length signalIndex removed inserted : Nat) : Effect :=
  let r := removeEffect length signalIndex removed
  let i := insertEffect r.length dpOffset inserted
  ⟨i.length, max r.extent i.extent⟩

def extentOf (indices : List Nat) : Nat := (indices.map (· + 1)).foldr max 0

/-- What the values and the time decide. -/
structure Choice where
  /-- The types of the selected values can be averaged or limited. -/
  supported : Bool
  /-- The hook `dft` is due, with a full window. -/
  run : Bool
  full : Bool
  reason : Reason
deriving DecidableEq

/-- `process`, for a sample of this length. `none` when an assertion fails. -/
def Hook.process (c : Choice) (length : Nat) : Hook → Option (Reason × Effect)
  | .signals (.average _ offset) =>
    if c.supported ∧ offset < length then some (.ok, insertEffect length offset 1)
    else some (.error, ⟨length, 0⟩)
  | .signals (.dp inverse signalIndex harmonics) =>
    if signalIndex > length then some (.error, ⟨length, 0⟩)
    else
      some (.ok, dpEffect length signalIndex (dpRemoved inverse harmonics)
        (dpInserted inverse harmonics))
  | .dft indices =>
    if c.run then
      if c.full then some (.ok, ⟨u32 (4 * indices.length), 4 * indices.length⟩)
      else some (.skipSample, ⟨0, 0⟩)
    else some (.skipSample, ⟨length, 0⟩)
  | .lua process none =>
    -- `lua_tosample` resets the length and then copies as many values as that.
    if process then some (c.reason, ⟨0, 0⟩) else some (.ok, ⟨length, 0⟩)
  | .lua process (some expressions) =>
    some (if process then c.reason else .ok, ⟨u32 expressions.length, expressions.length⟩)
  | .limitValue indices =>
    -- The values in front of one that cannot be limited are limited all the same.
    some (if c.supported then .ok else .error, ⟨length, extentOf indices⟩)
  | .cast _ indices | .window indices => some (.ok, ⟨length, extentOf indices⟩)
  | .scale indices =>
    if ∀ i ∈ indices, i < length then some (.ok, ⟨length, extentOf indices⟩) else none
  | .other => some (c.reason, ⟨length, 0⟩)

/-- A sample with an index that `dp` accepts has the values that `dp` removes. -/
def Hook.Has (length : Nat) : Hook → Prop
  | .signals (.dp inverse signalIndex harmonics) =>
    signalIndex ≤ length → signalIndex + dpRemoved inverse harmonics ≤ length
  | _ => True

/-- How many values a hook may write to a sample of this length. -/
def Hook.needs (length : Nat) : Hook → Nat
  | .signals (.average _ offset) => if offset < length then length + 1 else 0
  | .signals (.dp inverse signalIndex harmonics) =>
    if signalIndex ≤ length then
      length - dpRemoved inverse harmonics + dpInserted inverse harmonics
    else 0
  | .dft indices => 4 * indices.length
  | .lua _ expressions => (expressions.map List.length).getD 0
  | .cast _ indices | .limitValue indices | .window indices | .scale indices => extentOf indices
  | .other => 0

instance (length : Nat) : (h : Hook) → Decidable (h.Has length)
  | .signals (.dp ..) => inferInstanceAs (Decidable (_ → _))
  | .signals (.average ..) | .dft _ | .lua .. | .cast .. | .limitValue _ | .window _ | .scale _ | .other =>
    .isTrue trivial

/-! ## What they write -/

theorem extentOf_le {indices : List Nat} {n : Nat} :
    extentOf indices ≤ n ↔ ∀ i ∈ indices, i < n := by
  induction indices with
  | nil => simp [extentOf]
  | cons i indices ih =>
    rw [List.forall_mem_cons, ← ih]
    simp only [extentOf, List.map_cons, List.foldr_cons]
    omega

section
variable {length signalIndex removed inserted : Nat}

theorem dpEffect_length (hlen : length < 2 ^ 32) (hhas : signalIndex + removed ≤ length) :
    (dpEffect length signalIndex removed inserted).length ≤ length - removed + inserted := by
  have hsub : u32Sub length removed = length - removed := u32Sub_of_le hlen (by omega)
  simp only [dpEffect, removeEffect, insertEffect, hsub]
  exact u32_le _

theorem dpEffect_extent (hlen : length < 2 ^ 32) (hhas : signalIndex + removed ≤ length) :
    (dpEffect length signalIndex removed inserted).extent ≤
      max length (length - removed + inserted) := by
  have hsub : u32Sub length removed = length - removed := u32Sub_of_le hlen (by omega)
  simp only [dpEffect, removeEffect, insertEffect, dpOffset, hsub]
  omega

end

theorem Hook.process_le {h : Hook} {c : Choice} {length capacity : Nat} {r : Reason} {e : Effect}
    (hlen : length < 2 ^ 32) (hhas : h.Has length) (hcap : length ≤ capacity)
    (hneeds : h.needs length ≤ capacity) (hp : h.process c length = some (r, e)) :
    e.length ≤ capacity ∧ e.extent ≤ capacity := by
  unfold Hook.process at hp
  unfold Hook.Has at hhas
  unfold Hook.needs at hneeds
  split at hp
  · split at hp
    · rename_i hoffset
      cases hp
      simp only [hoffset.2, if_true] at hneeds
      have hle := u32_le (length + 1)
      simp only [insertEffect]
      omega
    · cases hp
      exact ⟨hcap, Nat.zero_le _⟩
  · split at hp
    · cases hp
      exact ⟨hcap, Nat.zero_le _⟩
    · rename_i hindex
      rw [Nat.not_lt] at hindex
      cases hp
      simp only [hindex, if_true] at hneeds
      exact ⟨Nat.le_trans (dpEffect_length hlen (hhas hindex)) hneeds,
        Nat.le_trans (dpEffect_extent hlen (hhas hindex)) (Nat.max_le.mpr ⟨hcap, hneeds⟩)⟩
  · split at hp
    · split at hp
      · cases hp
        exact ⟨Nat.le_trans (u32_le _) hneeds, hneeds⟩
      · cases hp
        exact ⟨Nat.zero_le _, Nat.zero_le _⟩
    · cases hp
      exact ⟨hcap, Nat.zero_le _⟩
  · split at hp
    · cases hp
      exact ⟨Nat.zero_le _, Nat.zero_le _⟩
    · cases hp
      exact ⟨hcap, Nat.zero_le _⟩
  · cases hp
    exact ⟨Nat.le_trans (u32_le _) hneeds, hneeds⟩
  · cases hp
    exact ⟨hcap, hneeds⟩
  · cases hp
    exact ⟨hcap, hneeds⟩
  · cases hp
    exact ⟨hcap, hneeds⟩
  · split at hp
    · cases hp
      exact ⟨hcap, hneeds⟩
    · simp at hp
  · cases hp
    exact ⟨hcap, Nat.zero_le _⟩

/-! ## The lists of signals -/

theorem vlistInsert_length (l : List Signal) (idx : Nat) (x : Signal) :
    (vlistInsert l idx x).length = l.length + 1 := by
  simp [vlistInsert]
  omega

theorem insertLoop_length (l : List Signal) (i n : Nat) :
    (insertLoop l i n).length = l.length + n := by
  induction n generalizing l i with
  | zero => rfl
  | succ n ih =>
    rw [insertLoop, ih, vlistInsert_length]
    omega

theorem vlistRemove_length {l l' : List Signal} {idx : Nat} (h : vlistRemove l idx = some l') :
    l'.length + 1 = l.length := by
  unfold vlistRemove at h
  split at h
  · cases h
    simp
    omega
  · simp at h

theorem removeLoop_length {signalIndex : Nat} {l l' : List Signal} {i n : Nat}
    (h : removeLoop signalIndex l i n = some l') : l'.length + n = l.length := by
  induction n generalizing l i with
  | zero =>
    cases h
    rfl
  | succ n ih =>
    unfold removeLoop at h
    split at h
    · simp at h
    split at h
    · obtain ⟨l₁, h₁, h₂⟩ := Option.bind_eq_some_iff.mp h
      have := vlistRemove_length h₁
      have := ih h₂
      omega
    · simp at h

theorem castSignals_length (newType : SignalType) (l : List Signal) (indices : List Nat) :
    (castSignals newType l indices).length = l.length := by
  unfold castSignals
  split
  · rfl
  · induction indices generalizing l with
    | nil => rfl
    | cons i indices ih =>
      rw [List.foldl_cons, ih, List.length_modify]

theorem average_prepare_length {l l' : List Signal} {selected : List Nat} {offset : Nat}
    (h : Hook.prepare l (.signals (.average selected offset)) = some l') :
    l'.length = l.length + 1 := by
  cases h
  exact vlistInsert_length ..

theorem dp_prepare_length {l l' : List Signal} {inverse : Bool} {signalIndex harmonics : Nat}
    (h : Hook.prepare l (.signals (.dp inverse signalIndex harmonics)) = some l') :
    dpRemoved inverse harmonics ≤ l.length ∧
      l'.length = l.length - dpRemoved inverse harmonics + dpInserted inverse harmonics := by
  unfold dpRemoved dpInserted
  cases inverse with
  | true =>
    obtain ⟨l₁, h₁, rfl⟩ := Option.map_eq_some_iff.mp h
    have := removeLoop_length h₁
    rw [vlistInsert_length]
    simp only [if_true]
    omega
  | false =>
    simp only [Hook.prepare, SignalHooks.prepare] at h
    split at h
    · simp at h
    split at h
    · obtain ⟨l₁, h₁, rfl⟩ := Option.map_eq_some_iff.mp h
      have := vlistRemove_length h₁
      rw [insertLoop_length]
      simp only [Bool.false_eq_true, if_false]
      omega
    · simp at h

theorem Hook.needs_le {h : Hook} {l l' : List Signal} {length : Nat}
    (hprep : h.prepare l = some l') (hcount : length ≤ l.length) :
    h.needs length ≤ max l.length l'.length := by
  cases h with
  | signals conf =>
    cases conf with
    | average selected offset =>
      have := average_prepare_length hprep
      simp only [Hook.needs]
      split <;> omega
    | dp inverse signalIndex harmonics =>
      have := dp_prepare_length hprep
      simp only [Hook.needs]
      split <;> omega
  | dft indices =>
    simp only [Hook.prepare, Option.ite_none_right_eq_some, Option.some.injEq] at hprep
    obtain ⟨-, rfl⟩ := hprep
    rw [List.length_replicate]
    exact Nat.le_max_right ..
  | lua process expressions =>
    cases hprep
    cases expressions with
    | none => exact Nat.zero_le _
    | some expressions => exact Nat.le_max_right ..
  | cast newType indices =>
    simp only [Hook.prepare, Option.ite_none_right_eq_some] at hprep
    exact Nat.le_trans (extentOf_le.2 hprep.1) (Nat.le_max_left ..)
  | limitValue indices =>
    simp only [Hook.prepare, Option.ite_none_right_eq_some] at hprep
    exact Nat.le_trans (extentOf_le.2 hprep.1) (Nat.le_max_left ..)
  | window indices =>
    simp only [Hook.prepare, Option.ite_none_right_eq_some] at hprep
    refine Nat.le_trans (extentOf_le.2 fun i hi => ?_) (Nat.le_max_left ..)
    obtain ⟨sig, hsig, -⟩ := Option.map_eq_some_iff.mp (hprep.1 i hi)
    exact (List.getElem?_eq_some_iff.mp hsig).1
  | scale indices =>
    simp only [Hook.prepare, Option.ite_none_right_eq_some] at hprep
    exact Nat.le_trans (extentOf_le.2 hprep.1) (Nat.le_max_left ..)
  | other => exact Nat.zero_le _

theorem Hook.process_count {h : Hook} {c : Choice} {l l' : List Signal} {length : Nat} {r : Reason}
    {e : Effect} (hprep : h.prepare l = some l') (hlen : length < 2 ^ 32) (hhas : h.Has length)
    (hcount : length ≤ l.length) (hp : h.process c length = some (r, e))
    (hr : r = .ok ∨ r = .stopProcessing) : e.length ≤ l'.length := by
  cases h with
  | signals conf =>
    cases conf with
    | average selected offset =>
      have := average_prepare_length hprep
      simp only [Hook.process] at hp
      split at hp
      · cases hp
        have := u32_le (length + 1)
        simp only [insertEffect]
        omega
      · cases hp
        simp at hr
    | dp inverse signalIndex harmonics =>
      have hdp := dp_prepare_length hprep
      simp only [Hook.process] at hp
      split at hp
      · cases hp
        simp at hr
      · rename_i hindex
        cases hp
        apply Nat.le_trans (dpEffect_length hlen (hhas (Nat.not_lt.mp hindex)))
        omega
  | dft indices =>
    simp only [Hook.prepare, Option.ite_none_right_eq_some, Option.some.injEq] at hprep
    obtain ⟨-, rfl⟩ := hprep
    simp only [Hook.process] at hp
    split at hp
    · split at hp
      · cases hp
        simpa using u32_le (4 * indices.length)
      · cases hp
        simp
    · cases hp
      simp at hr
  | lua process expressions =>
    cases hprep
    cases expressions with
    | none =>
      simp only [Hook.process] at hp
      split at hp
      · cases hp
        simp
      · cases hp
        exact hcount
    | some expressions =>
      cases hp
      exact u32_le _
  | cast newType indices =>
    simp only [Hook.prepare, Option.ite_none_right_eq_some, Option.some.injEq] at hprep
    obtain ⟨-, rfl⟩ := hprep
    cases hp
    rw [castSignals_length]
    exact hcount
  | limitValue indices =>
    simp only [Hook.prepare, Option.ite_none_right_eq_some, Option.some.injEq] at hprep
    obtain ⟨-, rfl⟩ := hprep
    cases hp
    rw [vlistInsert_length]
    exact Nat.le_succ_of_le hcount
  | window indices =>
    simp only [Hook.prepare, Option.ite_none_right_eq_some, Option.some.injEq] at hprep
    obtain ⟨-, rfl⟩ := hprep
    cases hp
    exact hcount
  | scale indices =>
    simp only [Hook.prepare, Option.ite_none_right_eq_some, Option.some.injEq] at hprep
    obtain ⟨-, rfl⟩ := hprep
    simp only [Hook.process, Option.ite_none_right_eq_some, Option.some.injEq] at hp
    cases hp.2
    exact hcount
  | other =>
    cases hprep
    cases hp
    exact hcount

/-! ## Prepared lists of hooks -/

/-- A descriptor that was never set is a null pointer, which the copy follows. -/
def signalListCopy (sigs : List (Option Signal)) : Option (List Signal) := sigs.mapM id

/-- The lists that `getSignals` of the hooks gives from then on. -/
def hookListPrepare : List (Option Signal) → List Hook → Option (List (List Signal))
  | _, [] => some []
  | sigs, h :: hs =>
    (signalListCopy sigs).bind fun l =>
      (h.prepare l).bind fun l => (hookListPrepare (l.map some) hs).map (l :: ·)

def hookListGetSignalsMaxCnt (lists : List (List Signal)) : Nat :=
  lists.foldl (fun maxCnt sigs => if maxCnt < sigs.length then sigs.length else maxCnt) 0

/-- The signals of a node's direction or of a path, with its hooks. -/
structure PreparedHooks where
  signals : List (Option Signal)
  hooks : List Hook
  lists : List (List Signal)
  prepared : hookListPrepare signals hooks = some lists

namespace PreparedHooks

/-- `node_input_signals_max_cnt` and `path_output_signals_max_cnt` -/
def maxCnt (p : PreparedHooks) : Nat :=
  if p.hooks.length > 0 then max p.signals.length (hookListGetSignalsMaxCnt p.lists)
  else p.signals.length

/-- `node_input_signals` -/
def outputSignals (p : PreparedHooks) : List (Option Signal) :=
  if p.hooks.length > 0 then (p.lists.getLastD []).map some else p.signals

/-- How many signals there are in front of a hook. -/
def count (p : PreparedHooks) (k : Nat) : Nat :=
  (p.signals.length :: p.lists.map List.length).getD k 0

@[simp]
theorem count_zero (p : PreparedHooks) : p.count 0 = p.signals.length := rfl

end PreparedHooks

theorem signalListCopy_length {sigs : List (Option Signal)} {l : List Signal}
    (h : signalListCopy sigs = some l) : l.length = sigs.length := by
  unfold signalListCopy at h
  induction sigs generalizing l with
  | nil =>
    cases h
    rfl
  | cons sig sigs ih =>
    simp only [List.mapM_cons, Option.bind_eq_bind, Option.bind_eq_some_iff] at h
    obtain ⟨x, -, l₁, h₁, h₂⟩ := h
    cases h₂
    simp [ih h₁]

theorem hookListPrepare_get {sigs : List (Option Signal)} {hs : List Hook} {ls : List (List Signal)}
    (h : hookListPrepare sigs hs = some ls) {k : Nat} {x : Hook} (hx : hs[k]? = some x) :
    ∃ l l', x.prepare l = some l' ∧
      (sigs.length :: ls.map List.length).getD k 0 = l.length ∧
      (sigs.length :: ls.map List.length).getD (k + 1) 0 = l'.length := by
  induction hs generalizing sigs ls k with
  | nil => simp at hx
  | cons y hs ih =>
    simp only [hookListPrepare, Option.bind_eq_some_iff, Option.map_eq_some_iff] at h
    obtain ⟨l, hcopy, l', hprep, ls', hrest, rfl⟩ := h
    cases k with
    | zero =>
      cases hx
      exact ⟨l, l', hprep, by simp [signalListCopy_length hcopy], by simp⟩
    | succ k =>
      obtain ⟨l₁, l₂, hprep', h₁, h₂⟩ := ih hrest hx
      rw [List.length_map] at h₁ h₂
      exact ⟨l₁, l₂, hprep', by simpa using h₁, by simpa using h₂⟩

theorem foldl_le_maxCnt (lists : List (List Signal)) (n : Nat) :
    let f := fun maxCnt (sigs : List Signal) => if maxCnt < sigs.length then sigs.length else maxCnt
    n ≤ lists.foldl f n ∧ ∀ l ∈ lists, l.length ≤ lists.foldl f n := by
  induction lists generalizing n with
  | nil => simp
  | cons l lists ih =>
    intro f
    obtain ⟨h₁, h₂⟩ := ih (f n l)
    have hl : l.length ≤ f n l ∧ n ≤ f n l := by
      dsimp only [f]
      split <;> omega
    rw [List.foldl_cons, List.forall_mem_cons]
    exact ⟨Nat.le_trans hl.2 h₁, Nat.le_trans hl.1 h₁, h₂⟩

theorem PreparedHooks.signals_le (p : PreparedHooks) : p.signals.length ≤ p.maxCnt := by
  unfold PreparedHooks.maxCnt
  split <;> omega

theorem PreparedHooks.list_le (p : PreparedHooks) {l : List Signal} (hl : l ∈ p.lists) :
    l.length ≤ p.maxCnt := by
  have hpos : p.hooks.length > 0 := by
    apply List.length_pos_iff.mpr
    intro hhooks
    have hprep := p.prepared
    simp only [hhooks, hookListPrepare, Option.some.injEq] at hprep
    simp [← hprep] at hl
  simp only [PreparedHooks.maxCnt, hpos, if_true, hookListGetSignalsMaxCnt]
  have := (foldl_le_maxCnt p.lists 0).2 l hl
  omega

theorem PreparedHooks.count_le (p : PreparedHooks) (k : Nat) : p.count k ≤ p.maxCnt := by
  cases k with
  | zero => exact p.signals_le
  | succ k =>
    rw [PreparedHooks.count, List.getD_cons_succ, List.getD_eq_getElem?_getD, List.getElem?_map]
    cases hl : p.lists[k]? with
    | none => exact Nat.zero_le _
    | some l => exact p.list_le (List.mem_of_getElem? hl)

/-- In a block with room for all lists of signals, a hook that gets a sample of the signals in
front of it writes within the block and passes on a sample of the signals behind it. -/
theorem PreparedHooks.process_spec (p : PreparedHooks) {k : Nat} {h : Hook} {c : Choice}
    {length capacity : Nat} {r : Reason} {e : Effect} (hk : p.hooks[k]? = some h)
    (hcap : p.maxCnt ≤ capacity) (hlen : length < 2 ^ 32) (hhas : h.Has length)
    (hcount : length ≤ p.count k) (hp : h.process c length = some (r, e)) :
    e.length ≤ capacity ∧ e.extent ≤ capacity ∧
      (r = .ok ∨ r = .stopProcessing → e.length ≤ p.count (k + 1)) := by
  obtain ⟨l, l', hprep, hl, hl'⟩ := hookListPrepare_get p.prepared hk
  have hfront : p.count k = l.length := hl
  have hback : p.count (k + 1) = l'.length := hl'
  have hroom : max l.length l'.length ≤ capacity := by
    have := p.count_le k
    have := p.count_le (k + 1)
    omega
  rw [hfront] at hcount
  rw [hback]
  have hneeds := Nat.le_trans (Hook.needs_le hprep hcount) hroom
  have hle := Hook.process_le hlen hhas (by omega) hneeds hp
  exact ⟨hle.1, hle.2, Hook.process_count hprep hlen hhas hcount hp⟩

end VillasNode.Capacity
