import Mathlib.Algebra.Group.Int.Defs
import Mathlib.Data.List.Basic
import VillasNode.Lib.Runs

/-!
# The round-trip time tests

`lib/nodes/test_rtt.cpp`. A case has a file and a limit of samples. The counter
is -1 between two cases. Each `fopen` that succeeds gives a new stream, and
`fclose` ends a stream whether it succeeds or not. The files and the timer are
in the environment. The formatter is left out, which `test_rtt_stop` deletes, so
that a second stop, or a start or a write behind a stop, is not defined in the
code.
-/

namespace VillasNode

open Runs

/-- The fields of a `test_rtt_case` that decide about samples. -/
structure TestRttCase where
  values : BitVec 32
  limit : BitVec 32

/-- `stream` is the pointer, and `opened` are the streams that are open. -/
structure TestRtt where
  current : Int
  counter : Int
  stream : Option Nat
  opened : List Nat
  fopens : Nat

namespace TestRtt

inductive Outcome where
  | ret (r : Int)
  | thrown

structure TestSample where
  length : BitVec 32
  sequence : Nat

/-- The batch size of a call, and what `fopen` and `fclose` make of it. -/
structure ReadCall where
  cnt : Nat
  fopen : Bool
  fclose : Bool

/-- The memory of a node before `test_rtt_start`. -/
def init : TestRtt := ⟨0, 0, none, [], 0⟩

/-! ## The functions

`none` for what is not defined: a null pointer, a stream that is not open, a
place outside the list or an `int` that is too large. -/

def fclose (t : TestRtt) : Option TestRtt :=
  match t.stream with
  | none => none
  | some k => if k ∈ t.opened then some { t with opened := t.opened.filter (· ≠ k) } else none

def caseStart (t : TestRtt) (id : Int) (fopen : Bool) : TestRtt × Int :=
  if fopen then
    ({ current := id, counter := 0, stream := some t.fopens, opened := t.fopens :: t.opened
       fopens := t.fopens + 1 }, 0)
  else ({ t with stream := none }, -1)

def caseStop (t : TestRtt) (fclose : Bool) : Option (TestRtt × Outcome) :=
  t.fclose.map fun t => (t, if fclose then .ret 0 else .thrown)

def start (cases : List TestRttCase) (mkdir : Bool) (t : TestRtt) : Option (TestRtt × Outcome) :=
  if ¬ mkdir then some (t, .thrown)
  else if cases = [] then none
  else some ({ t with current := -1, counter := -1 }, .ret 0)

def stop (fclose : Bool) (t : TestRtt) : Option (TestRtt × Outcome) :=
  if 0 ≤ t.counter then t.caseStop fclose else some (t, .ret 0)

/-- What a call leaves, and the samples of its batch. -/
abbrev Read := TestRtt × Outcome × List TestSample

def prepareSamples (cases : List TestRttCase) (cnt : Nat) (t : TestRtt) : Option Read :=
  if t.current < 0 then none
  else
    match cases[t.current.toNat]? with
    | none => none
    | some c =>
      if c.limit.toNat ≤ (t.counter % 2 ^ 32).toNat then some ({ t with counter := -1 }, .ret 0, [])
      else if 2 ^ 31 ≤ t.counter + cnt then none
      else
        some ({ t with counter := t.counter + cnt }, .ret cnt,
          (List.range cnt).map fun i => ⟨c.values, ((t.counter + i) % 2 ^ 64).toNat⟩)

def nextCase (cases : List TestRttCase) (a : ReadCall) (t : TestRtt) : Option Read :=
  if cases.length ≤ t.current.toNat then some (t, .ret (-1), [])
  else
    match t.caseStart t.current a.fopen with
    | (t, 0) => prepareSamples cases a.cnt t
    | (t, r) => some (t, .ret r, [])

def read (cases : List TestRttCase) (a : ReadCall) (t : TestRtt) : Option Read :=
  if t.counter = -1 then
    if t.current < 0 then nextCase cases a { t with current := 0 }
    else
      match t.caseStop a.fclose with
      | none => none
      | some (t, .thrown) => some (t, .thrown, [])
      | some (t, .ret _) =>
        if t.current + 1 = 2 ^ 31 then none
        else nextCase cases a { t with current := t.current + 1 }
  else prepareSamples cases a.cnt t

/-- The lengths of the samples are given. Printing needs an open stream. -/
def write (cases : List TestRttCase) (lengths : List (BitVec 32)) (t : TestRtt) :
    Option (TestRtt × Outcome) :=
  if t.current < 0 then some (t, .ret 0)
  else if lengths = [] then some (t, .ret 0)
  else
    match cases[t.current.toNat]? with
    | none => none
    | some c =>
      if c.values ∈ lengths ∧ ¬ t.stream.any (· ∈ t.opened) then none
      else some (t, .ret lengths.length)

/-! ## The specification of reading -/

/-- The samples of all calls, each with the case and its sequence number. -/
structure Run where
  node : TestRtt
  emitted : List (Nat × Nat)

def record (emitted : List (Nat × Nat)) (r : Read) : Run :=
  ⟨r.1, emitted ++ r.2.2.map fun smp => (r.1.current.toNat, smp.sequence)⟩

def step (cases : List TestRttCase) (s : Run) (a : ReadCall) : Option Run :=
  (read cases a s.node).map (record s.emitted)

def caseSamples (i : Nat) (c : TestRttCase) : List (Nat × Nat) :=
  (List.range c.limit.toNat).map (i, ·)

def expected (cases : List TestRttCase) : List (Nat × Nat) := (cases.mapIdx caseSamples).flatten

/-- The call ends, and what was emitted is the beginning of what is expected. -/
def EmitsInOrder (cases : List TestRttCase) (s : Run) (a : ReadCall) : Prop :=
  ∃ s', step cases s a = some s' ∧ s'.emitted <+: expected cases

def IsOpen (t : TestRtt) : Prop := ∃ k, t.stream = some k ∧ k ∈ t.opened

/-- The case is at its limit, or the batch does not go beyond it, nor the counter beyond an `int`. -/
def Fits (c : TestRttCase) (counter : Int) (cnt : Nat) : Prop :=
  c.limit.toNat ≤ counter ∨ (counter + cnt ≤ c.limit.toNat ∧ counter + cnt < 2 ^ 31)

def FitsNext (cases : List TestRttCase) (i : Nat) (a : ReadCall) : Prop :=
  a.fopen → ∀ c, cases[i]? = some c → Fits c 0 a.cnt

/-- The batch fits into the case it is for, and a file that is closed is open. -/
def FitsCase (cases : List TestRttCase) (s : Run) (a : ReadCall) : Prop :=
  if s.node.counter = -1 then
    if s.node.current < 0 then FitsNext cases 0 a
    else s.node.IsOpen ∧ (a.fclose → s.node.current + 1 ≠ 2 ^ 31 ∧
      FitsNext cases (s.node.current.toNat + 1) a)
  else ∀ c, cases[s.node.current.toNat]? = some c → Fits c s.node.counter a.cnt

/-! ## Files -/

section
variable {t t' : TestRtt} {id : Int} {fopen : Bool}

theorem fclose_eq (hopen : t.IsOpen) :
    ∃ t', t.fclose = some t' ∧ ¬ t'.IsOpen ∧ t'.current = t.current ∧ t'.counter = t.counter ∧
      t'.fopens = t.fopens ∧ t'.stream = t.stream ∧ ∀ k ∈ t'.opened, k ∈ t.opened := by
  obtain ⟨k, hk, hmem⟩ := hopen
  refine ⟨{ t with opened := t.opened.filter (· ≠ k) }, ?_, ?_, rfl, rfl, rfl, rfl, ?_⟩
  · simp only [fclose, hk, if_pos hmem]
  · rintro ⟨j, hj, hjmem⟩
    cases hk.symm.trans hj
    simp at hjmem
  · exact fun j hj => List.mem_of_mem_filter hj

theorem fclose_none (hclosed : ¬ t.IsOpen) : t.fclose = none := by
  cases hk : t.stream with
  | none => simp only [fclose, hk]
  | some k =>
    have hno : k ∉ t.opened := fun hmem => hclosed ⟨k, hk, hmem⟩
    simp only [fclose, hk, if_neg hno]

end

/-! ## What is expected -/

section
variable {cases : List TestRttCase} {c : TestRttCase} {i k : Nat}

theorem expected_take_succ (hi : cases[i]? = some c) :
    expected (cases.take (i + 1)) = expected (cases.take i) ++ caseSamples i c := by
  have hlt : i < cases.length := (List.getElem?_eq_some_iff.mp hi).1
  have hlen : (cases.take i).length = i := List.length_take_of_le (by omega)
  rw [expected, List.take_add_one, hi, Option.toList_some, List.mapIdx_concat, List.flatten_concat,
    hlen]
  rfl

theorem expected_take_initial (cases : List TestRttCase) (i : Nat) :
    expected (cases.take i) <+: expected cases := by
  refine ⟨((cases.drop i).mapIdx fun j => caseSamples (j + (cases.take i).length)).flatten, ?_⟩
  rw [expected, ← List.flatten_append, ← List.mapIdx_append, List.take_append_drop]
  rfl

theorem range_initial (hk : k ≤ c.limit.toNat) :
    (List.range k).map (i, ·) <+: caseSamples i c := by
  refine List.IsPrefix.map _ ⟨List.range' k (c.limit.toNat - k), ?_⟩
  have happend := @List.range'_append_1 0 k (c.limit.toNat - k)
  rw [Nat.zero_add, Nat.add_sub_cancel' hk] at happend
  rw [List.range_eq_range', happend, List.range_eq_range']

theorem not_mem_expected (hi : cases[i]? = some c) (hk : c.limit.toNat ≤ k) :
    (i, k) ∉ expected cases := by
  intro hmem
  obtain ⟨samples, hsamples, hin⟩ := List.mem_flatten.mp hmem
  obtain ⟨j, hj, rfl⟩ := List.mem_mapIdx.mp hsamples
  obtain ⟨l, hl, heq⟩ := List.mem_map.mp hin
  cases heq
  rw [List.getElem?_eq_getElem hj] at hi
  cases hi
  rw [List.mem_range] at hl
  omega

end

/-! ## A call -/

section
variable {cases : List TestRttCase} {a : ReadCall} {t : TestRtt} {emitted : List (Nat × Nat)}
  {s s' : Run} {c : TestRttCase}

/-- A case has begun, and so many of its samples are emitted. -/
structure Running (cases : List TestRttCase) (s : Run) : Prop where
  current : 0 ≤ s.node.current
  counter : 0 ≤ s.node.counter
  small : s.node.counter < 2 ^ 31
  case : ∃ c, cases[s.node.current.toNat]? = some c ∧ s.node.counter ≤ c.limit.toNat
  emitted : s.emitted = expected (cases.take s.node.current.toNat) ++
    (List.range s.node.counter.toNat).map (s.node.current.toNat, ·)

/-- No case runs. While the file of the last one is open, all of it is emitted. -/
structure Between (cases : List TestRttCase) (s : Run) : Prop where
  counter : s.node.counter = -1
  first : s.node.current < 0 → s.emitted = [] ∧ ¬ s.node.IsOpen
  done : 0 ≤ s.node.current → s.node.IsOpen →
    s.emitted = expected (cases.take (s.node.current.toNat + 1))

def Inv (cases : List TestRttCase) (s : Run) : Prop := Running cases s ∨ Between cases s

/-- A result is in order exactly if `ok`, and then the next call finds the invariant. -/
def Decides (cases : List TestRttCase) (r : Option Run) (ok : Prop) : Prop :=
  ((∃ s', r = some s' ∧ s'.emitted <+: expected cases) ↔ ok) ∧
    ∀ s', r = some s' → s'.emitted <+: expected cases → Inv cases s'

theorem Decides.of_none {ok : Prop} (hno : ¬ ok) : Decides cases none ok :=
  ⟨iff_of_false (fun ⟨_, heq, _⟩ => nomatch heq) hno, nofun⟩

theorem Decides.of_some {ok : Prop} (hok : ok) (hinitial : s.emitted <+: expected cases)
    (hinv : Inv cases s) : Decides cases (some s) ok := by
  refine ⟨iff_of_true ⟨s, rfl, hinitial⟩ hok, fun s' heq _ => ?_⟩
  cases heq
  exact hinv

theorem Decides.of_refused {ok : Prop} (hno : ¬ ok) (hinitial : ¬ s.emitted <+: expected cases) :
    Decides cases (some s) ok := by
  refine ⟨iff_of_false ?_ hno, fun s' heq hin => ?_⟩
  · rintro ⟨s', heq, hin⟩
    cases heq
    exact hinitial hin
  · cases heq
    exact absurd hin hinitial

theorem expected_range_initial {i k : Nat} (hi : cases[i]? = some c) (hk : k ≤ c.limit.toNat) :
    expected (cases.take i) ++ (List.range k).map (i, ·) <+: expected cases := by
  refine List.IsPrefix.trans ?_ (expected_take_initial cases (i + 1))
  rw [expected_take_succ hi]
  exact (List.prefix_append_right_inj _).mpr (range_initial hk)

theorem expected_range_beyond {i k : Nat} (hi : cases[i]? = some c) (hk : c.limit.toNat < k) :
    ¬ expected (cases.take i) ++ (List.range k).map (i, ·) <+: expected cases := by
  intro hinitial
  refine not_mem_expected hi (Nat.le_refl _) (hinitial.subset ?_)
  refine List.mem_append_right _ (List.mem_map.mpr ⟨c.limit.toNat, ?_, rfl⟩)
  exact List.mem_range.mpr hk

theorem map_sequence {counter : Int} {cnt : Nat} (values : BitVec 32) (i : Nat)
    (hcounter : 0 ≤ counter) (hsmall : counter + cnt < 2 ^ 31) :
    (List.range counter.toNat).map (i, ·) ++
        ((List.range cnt).map fun j =>
          (⟨values, ((counter + (j : Int)) % 2 ^ 64).toNat⟩ : TestSample)).map
          (fun smp => (i, smp.sequence)) =
      (List.range (counter.toNat + cnt)).map (i, ·) := by
  rw [List.map_map, List.range_add, List.map_append, List.map_map]
  congr 1
  apply List.map_congr_left
  intro j hj
  rw [List.mem_range] at hj
  simp only [Function.comp_apply, Prod.mk.injEq, true_and]
  omega

theorem Running.complete (hrun : Running cases ⟨t, emitted⟩) (hc : cases[t.current.toNat]? = some c)
    (hlimit : c.limit.toNat ≤ t.counter.toNat) :
    emitted = expected (cases.take (t.current.toNat + 1)) := by
  obtain ⟨-, hcounter, -, ⟨c', hc', hle⟩, hemitted⟩ := hrun
  simp only at hcounter hc' hle hemitted
  cases hc.symm.trans hc'
  have hlast : t.counter.toNat = c.limit.toNat := by omega
  rw [hemitted, hlast, expected_take_succ hc]
  rfl

theorem prepareSamples_decides (hrun : Running cases ⟨t, emitted⟩) :
    Decides cases ((prepareSamples cases a.cnt t).map (record emitted))
      (∀ c, cases[t.current.toNat]? = some c → Fits c t.counter a.cnt) := by
  have hcomplete (c : TestRttCase) := hrun.complete (c := c)
  obtain ⟨hcurrent, hcounter, hsmall, ⟨c, hc, hle⟩, hemitted⟩ := hrun
  simp only at hcurrent hcounter hsmall hc hle hemitted
  have hfits : (∀ c, cases[t.current.toNat]? = some c → Fits c t.counter a.cnt) ↔
      Fits c t.counter a.cnt := by
    rw [hc]
    exact ⟨fun hall => hall c rfl, fun hfit c' hc' => by cases hc'; exact hfit⟩
  have hunsigned : (t.counter % 2 ^ 32).toNat = t.counter.toNat := by omega
  rw [hfits, prepareSamples, if_neg (by omega), hc]
  simp only [hunsigned]
  by_cases hlimit : c.limit.toNat ≤ t.counter.toNat
  · -- The case is at its limit, so it is complete.
    rw [if_pos hlimit]
    have hall := hcomplete c hc hlimit
    refine .of_some (.inl (by omega)) ?_ (.inr ⟨rfl, fun hneg => ?_, fun _ _ => ?_⟩)
    · simp only [record, List.map_nil, List.append_nil, hall]
      exact expected_take_initial cases _
    · exact absurd hneg (Int.not_lt.mpr hcurrent)
    · simp only [record, List.map_nil, List.append_nil, hall]
  · rw [if_neg hlimit]
    by_cases hlarge : 2 ^ 31 ≤ t.counter + a.cnt
    · rw [if_pos hlarge]
      exact .of_none fun hfit => hfit.elim (fun h => by omega) fun h => by omega
    · rw [if_neg hlarge]
      have hmap : (record emitted ({ t with counter := t.counter + a.cnt }, .ret a.cnt,
            (List.range a.cnt).map fun j =>
              ⟨c.values, ((t.counter + (j : Int)) % 2 ^ 64).toNat⟩)).emitted =
          expected (cases.take t.current.toNat) ++
            (List.range (t.counter.toNat + a.cnt)).map (t.current.toNat, ·) := by
        simp only [record]
        rw [hemitted, List.append_assoc, map_sequence c.values _ hcounter (by omega)]
      by_cases hfit : t.counter.toNat + a.cnt ≤ c.limit.toNat
      · refine .of_some (.inr (by omega)) ?_ (.inl ⟨hcurrent, ?_, ?_, ⟨c, hc, ?_⟩, ?_⟩)
        · rw [hmap]
          exact expected_range_initial hc hfit
        · exact Int.add_nonneg hcounter (Int.natCast_nonneg _)
        · exact Int.not_le.mp hlarge
        · simp only [record]
          omega
        · refine hmap.trans ?_
          simp only [record]
          rw [Int.toNat_add hcounter (Int.natCast_nonneg _), Int.toNat_natCast]
      · refine .of_refused (fun h => h.elim (fun h => by omega) fun h => by omega) ?_
        rw [hmap]
        exact expected_range_beyond hc (Nat.not_le.mp hfit)

theorem nextCase_decides (hcurrent : 0 ≤ t.current) (hcounter : t.counter = -1)
    (hclosed : ¬ t.IsOpen) (hemitted : emitted = expected (cases.take t.current.toNat)) :
    Decides cases ((nextCase cases a t).map (record emitted))
      (FitsNext cases t.current.toNat a) := by
  have hnothing (r : Outcome) (t' : TestRtt) : (record emitted (t', r, [])).emitted <+:
      expected cases := by
    simp only [record, List.map_nil, List.append_nil, hemitted]
    exact expected_take_initial cases _
  rw [nextCase]
  by_cases hend : cases.length ≤ t.current.toNat
  · rw [if_pos hend]
    refine .of_some (fun _ c hc => ?_) (hnothing _ _)
      (.inr ⟨hcounter, fun hneg => ?_, fun _ hopen => absurd hopen hclosed⟩)
    · rw [List.getElem?_eq_none hend] at hc
      cases hc
    · exact absurd hneg (Int.not_lt.mpr hcurrent)
  · rw [if_neg hend, caseStart]
    by_cases hfopen : a.fopen
    · rw [if_pos hfopen, FitsNext, imp_iff_right hfopen]
      have hlt : t.current.toNat < cases.length := Nat.not_le.mp hend
      refine prepareSamples_decides
        ⟨hcurrent, Int.le_refl 0, (show (0 : Int) < 2 ^ 31 by decide), ?_, ?_⟩
      · exact ⟨_, List.getElem?_eq_getElem hlt, Int.natCast_nonneg _⟩
      · exact hemitted.trans (List.append_nil _).symm
    · rw [if_neg hfopen]
      refine .of_some (fun h => absurd h hfopen) (hnothing _ _)
        (.inr ⟨hcounter, fun hneg => ?_, fun _ hopen => ?_⟩)
      · exact absurd hneg (Int.not_lt.mpr hcurrent)
      · obtain ⟨k, hk, -⟩ := hopen
        cases hk

theorem step_decides (hinv : Inv cases s) :
    Decides cases (step cases s a) (FitsCase cases s a) := by
  obtain ⟨t, emitted⟩ := s
  rw [step, read, FitsCase]
  obtain hrun | ⟨hcounter, hfirst, hdone⟩ := hinv
  · have hcounter : t.counter ≠ -1 := by
      have hpos := hrun.counter
      simp only at hpos
      omega
    rw [if_neg hcounter, if_neg hcounter]
    exact prepareSamples_decides hrun
  · simp only at hcounter hfirst hdone ⊢
    rw [if_pos hcounter, if_pos hcounter]
    by_cases hneg : t.current < 0
    · obtain ⟨hnil, hclosed⟩ := hfirst hneg
      rw [if_pos hneg, if_pos hneg]
      exact nextCase_decides (Int.le_refl 0) hcounter hclosed hnil
    · rw [if_neg hneg, if_neg hneg, caseStop]
      have hcurrent : 0 ≤ t.current := Int.not_lt.mp hneg
      by_cases hopen : t.IsOpen
      · have hall := hdone hcurrent hopen
        obtain ⟨t', hclose, hclosed, hcur, hcount, -⟩ := fclose_eq hopen
        rw [hclose]
        cases a.fclose with
        | false =>
          refine .of_some ⟨hopen, nofun⟩ ?_ (.inr ⟨?_, ?_, fun _ hopen' => absurd hopen' hclosed⟩)
          · simp only [record, List.map_nil, List.append_nil, hall]
            exact expected_take_initial cases _
          · exact hcount.trans hcounter
          · intro hneg'
            exact absurd (hcur ▸ hneg') hneg
        | true =>
          simp only [Option.map_some, if_true, hcur, forall_const]
          by_cases hlast : t.current + 1 = 2 ^ 31
          · rw [if_pos hlast]
            exact .of_none fun hfit => hfit.2.1 hlast
          · rw [if_neg hlast]
            have hsucc : (t.current + 1).toNat = t.current.toNat + 1 := by omega
            have hnext := @nextCase_decides cases a { t' with current := t.current + 1 } emitted
              (by simp only; omega) (hcount.trans hcounter) hclosed (by simp only [hall, hsucc])
            simp only [hsucc] at hnext
            rwa [and_iff_right hopen, and_iff_right hlast]
      · rw [fclose_none hopen]
        exact .of_none fun hfit => hopen hfit.1

end

/-- After `test_rtt_start`. -/
def started : TestRtt := { init with current := -1, counter := -1 }

/-- For every list of cases and all calls, whatever files can be opened and closed: at every call
what was emitted is the beginning of all samples of all cases in their order, if and only if every
batch fits. -/
theorem emitsInOrder_iff (cases : List TestRttCase) (reads : List ReadCall) :
    Along (step cases) (EmitsInOrder cases) ⟨started, []⟩ reads ↔
      Along (step cases) (FitsCase cases) ⟨started, []⟩ reads := by
  apply along_congr (I := Inv cases)
  · exact fun s a hinv => (step_decides hinv).1
  · intro s a s' hinv hemits hstep
    obtain ⟨t, ht, hinitial⟩ := hemits
    cases hstep.symm.trans ht
    exact (step_decides hinv).2 s' hstep hinitial
  · refine .inr ⟨rfl, fun _ => ⟨rfl, ?_⟩, nofun⟩
    rintro ⟨k, hk, -⟩
    cases hk

/-- A batch of two goes beyond a limit of one. -/
theorem not_emitsInOrder_two :
    ¬ Along (step [⟨1, 1⟩]) (EmitsInOrder [⟨1, 1⟩]) ⟨started, []⟩ [⟨2, true, true⟩] := by
  rintro ⟨⟨s', heq, hinitial⟩, -⟩
  cases heq
  exact absurd hinitial (by decide)

end TestRtt

end VillasNode
