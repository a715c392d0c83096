import VillasNode.Node.TestRtt

/-!
# The files of the round-trip time tests

Whether a file is open is told by `current` and `counter`, which a failing
`fopen` and the end of a case leave as they would be with an open file.
-/

namespace VillasNode.TestRtt

open Runs

inductive Call where
  | start (mkdir : Bool)
  | read (a : ReadCall)
  | write (lengths : List (BitVec 32))
  | stop (fclose : Bool)

def call (cases : List TestRttCase) (t : TestRtt) : Call → Option TestRtt
  | .start mkdir => (start cases mkdir t).map Prod.fst
  | .read a => (read cases a t).map Prod.fst
  | .write lengths => (write cases lengths t).map Prod.fst
  | .stop fclose => (stop fclose t).map Prod.fst

/-! ## The specification -/

/-- The stream of the node is the only one that may be open, so none is lost. -/
def Paired (t : TestRtt) : Prop := ∀ k ∈ t.opened, t.stream = some k

/-- No stream is used that is not open, none is lost, and none is left at a stop. -/
def Tidy (cases : List TestRttCase) (t : TestRtt) (a : Call) : Prop :=
  ∃ t', call cases t a = some t' ∧ Paired t' ∧ ∀ fclose, a = .stop fclose → t'.opened = []

/-- There is a case, and its counter stays an `int`. -/
def Room (cases : List TestRttCase) (i : Nat) (counter : Int) (cnt : Nat) : Prop :=
  ∃ c, cases[i]? = some c ∧
    (c.limit.toNat ≤ (counter % 2 ^ 32).toNat ∨ counter + cnt < 2 ^ 31)

def RoomNext (cases : List TestRttCase) (i : Nat) (a : ReadCall) : Prop :=
  i < cases.length → a.fopen → Room cases i 0 a.cnt

/-- A file is closed or printed to while it is open, and opened or left while none is. -/
def Orderly (cases : List TestRttCase) (t : TestRtt) : Call → Prop
  | .start mkdir => mkdir → cases ≠ []
  | .read a =>
    if t.counter = -1 then
      if t.current < 0 then (cases ≠ [] → t.opened = []) ∧ RoomNext cases 0 a
      else t.IsOpen ∧ (a.fclose → t.current + 1 ≠ 2 ^ 31 ∧ RoomNext cases (t.current.toNat + 1) a)
    else 0 ≤ t.current ∧ Room cases t.current.toNat t.counter a.cnt
  | .write lengths =>
    0 ≤ t.current → lengths ≠ [] →
      ∃ c, cases[t.current.toNat]? = some c ∧ (c.values ∈ lengths → t.IsOpen)
  | .stop _ => if 0 ≤ t.counter then t.IsOpen else t.opened = []

/-! ## What the parts of a call do to the files -/

section
variable {cases : List TestRttCase} {a : ReadCall} {t t' : TestRtt} {cnt : Nat} {r : Read}

def Fresh (t : TestRtt) : Prop := ∀ k ∈ t.opened, k < t.fopens

structure SameFiles (t t' : TestRtt) : Prop where
  stream : t'.stream = t.stream
  opened : t'.opened = t.opened
  fopens : t'.fopens = t.fopens

theorem SameFiles.paired_iff (hsame : SameFiles t t') : Paired t' ↔ Paired t := by
  rw [Paired, hsame.opened, hsame.stream]
  rfl

theorem SameFiles.fresh (hsame : SameFiles t t') (hfresh : Fresh t) : Fresh t' := by
  rw [Fresh, hsame.opened, hsame.fopens]
  exact hfresh

theorem any_opened_iff : t.stream.any (· ∈ t.opened) ↔ t.IsOpen := by
  cases hstream : t.stream with
  | none => simp [IsOpen, hstream]
  | some k => simp [IsOpen, hstream]

theorem prepareSamples_iff :
    (∃ r, prepareSamples cases cnt t = some r) ↔
      0 ≤ t.current ∧ Room cases t.current.toNat t.counter cnt := by
  rw [prepareSamples, Room]
  by_cases hneg : t.current < 0
  · rw [if_pos hneg]
    refine iff_of_false ?_ fun h => absurd h.1 (Int.not_le.mpr hneg)
    rintro ⟨r, hr⟩
    cases hr
  · rw [if_neg hneg, and_iff_right (Int.not_lt.mp hneg)]
    cases hc : cases[t.current.toNat]? with
    | none =>
      refine iff_of_false ?_ ?_
      · rintro ⟨r, hr⟩
        cases hr
      · rintro ⟨c, hc', -⟩
        cases hc'
    | some c =>
      by_cases hlimit : c.limit.toNat ≤ (t.counter % 2 ^ 32).toNat
      · simp only [if_pos hlimit]
        exact iff_of_true ⟨_, rfl⟩ ⟨c, rfl, .inl hlimit⟩
      · by_cases hlarge : 2 ^ 31 ≤ t.counter + cnt
        · simp only [if_neg hlimit, if_pos hlarge]
          refine iff_of_false ?_ ?_
          · rintro ⟨r, hr⟩
            cases hr
          · rintro ⟨c', hc', hroom⟩
            cases hc'
            exact hroom.elim hlimit fun h => absurd hlarge (Int.not_le.mpr h)
        · simp only [if_neg hlimit, if_neg hlarge]
          exact iff_of_true ⟨_, rfl⟩ ⟨c, rfl, .inr (Int.not_le.mp hlarge)⟩

theorem prepareSamples_same (hr : prepareSamples cases cnt t = some r) : SameFiles t r.1 := by
  rw [prepareSamples] at hr
  split at hr
  · cases hr
  · split at hr
    · cases hr
    · split at hr
      · cases hr
        exact ⟨rfl, rfl, rfl⟩
      · split at hr
        · cases hr
        · cases hr
          exact ⟨rfl, rfl, rfl⟩

/-- The result is there, and no stream is lost. -/
def Keeps (r : Option Read) : Prop := ∃ r', r = some r' ∧ Paired r'.1

theorem not_keeps_none : ¬ Keeps none := by
  rintro ⟨r, hr, -⟩
  cases hr

theorem keeps_some_iff : Keeps (some r) ↔ Paired r.1 := by
  constructor
  · rintro ⟨r', hr, hkept⟩
    cases hr
    exact hkept
  · exact fun hkept => ⟨r, rfl, hkept⟩

theorem keeps_prepareSamples :
    Keeps (prepareSamples cases cnt t) ↔
      Paired t ∧ 0 ≤ t.current ∧ Room cases t.current.toNat t.counter cnt := by
  rw [← prepareSamples_iff]
  constructor
  · rintro ⟨r, hr, hpaired⟩
    exact ⟨(prepareSamples_same hr).paired_iff.mp hpaired, r, hr⟩
  · rintro ⟨hpaired, r, hr⟩
    exact ⟨r, hr, (prepareSamples_same hr).paired_iff.mpr hpaired⟩

theorem paired_caseStart_iff (hfresh : Fresh t) (id : Int) (fopen : Bool) :
    Paired (t.caseStart id fopen).1 ↔ t.opened = [] := by
  rw [List.eq_nil_iff_forall_not_mem, caseStart]
  cases fopen with
  | true =>
    refine ⟨fun hpaired k hk => ?_, fun hnil k hk => ?_⟩
    · have hsame : t.fopens = k := Option.some.inj (hpaired k (List.mem_cons_of_mem _ hk))
      exact absurd (hfresh k hk) (by omega)
    · rcases List.mem_cons.mp hk with rfl | hk
      · rfl
      · exact absurd hk (hnil k)
  | false =>
    refine ⟨fun hpaired k hk => ?_, fun hnil k hk => absurd hk (hnil k)⟩
    cases hpaired k hk

theorem keeps_nextCase (hpaired : Paired t) (hfresh : Fresh t) (hcurrent : 0 ≤ t.current) :
    Keeps (nextCase cases a t) ↔
      (t.current.toNat < cases.length → t.opened = []) ∧ RoomNext cases t.current.toNat a := by
  rw [nextCase, RoomNext]
  by_cases hend : cases.length ≤ t.current.toNat
  · rw [if_pos hend]
    exact iff_of_true ⟨_, rfl, hpaired⟩
      ⟨fun h => absurd h (Nat.not_lt.mpr hend), fun h => absurd h (Nat.not_lt.mpr hend)⟩
  · have hlt : t.current.toNat < cases.length := Nat.not_le.mp hend
    have hstart := paired_caseStart_iff hfresh t.current a.fopen
    rw [if_neg hend, imp_iff_right hlt, imp_iff_right hlt, ← hstart, caseStart]
    by_cases hfopen : a.fopen
    · rw [if_pos hfopen, imp_iff_right hfopen]
      exact keeps_prepareSamples.trans (and_congr_right fun _ => and_iff_right hcurrent)
    · rw [if_neg hfopen, and_iff_left fun h => absurd h hfopen]
      exact keeps_some_iff

theorem fclose_paired (hpaired : Paired t) (hopen : t.IsOpen) :
    ∃ t', t.fclose = some t' ∧ t'.opened = [] ∧ t'.current = t.current := by
  obtain ⟨t', hclose, hclosed, hcur, -, -, hstream, hsub⟩ := fclose_eq hopen
  refine ⟨t', hclose, ?_, hcur⟩
  rw [List.eq_nil_iff_forall_not_mem]
  exact fun k hk => hclosed ⟨k, hstream.trans (hpaired k (hsub k hk)), hk⟩

theorem paired_of_nil (hnil : t.opened = []) : Paired t := by
  rw [Paired, hnil]
  exact nofun

theorem fresh_of_nil (hnil : t.opened = []) : Fresh t := by
  rw [Fresh, hnil]
  exact nofun

theorem keeps_read (hpaired : Paired t) (hfresh : Fresh t) :
    Keeps (read cases a t) ↔ Orderly cases t (.read a) := by
  rw [read, Orderly]
  by_cases hcounter : t.counter = -1
  · rw [if_pos hcounter, if_pos hcounter]
    by_cases hneg : t.current < 0
    · rw [if_pos hneg, if_pos hneg]
      refine (@keeps_nextCase cases a { t with current := 0 } hpaired hfresh
        (Int.le_refl 0)).trans ?_
      rw [← List.length_pos_iff]
      rfl
    · rw [if_neg hneg, if_neg hneg, caseStop]
      by_cases hopen : t.IsOpen
      · obtain ⟨t', hclose, hnil, hcur⟩ := fclose_paired hpaired hopen
        rw [hclose, and_iff_right hopen]
        cases a.fclose with
        | false =>
          refine iff_of_true ⟨_, rfl, paired_of_nil hnil⟩ ?_
          rintro ⟨⟩
        | true =>
          simp only [Option.map_some, if_true, hcur, forall_const]
          by_cases hlast : t.current + 1 = 2 ^ 31
          · rw [if_pos hlast]
            exact iff_of_false not_keeps_none fun h => h.1 hlast
          · have hsucc : (t.current + 1).toNat = t.current.toNat + 1 := by omega
            have hnext := @keeps_nextCase cases a { t' with current := t.current + 1 }
              (paired_of_nil hnil) (fresh_of_nil hnil) (by simp only; omega)
            simp only [hsucc] at hnext
            rw [if_neg hlast, hnext, and_iff_right fun _ => hnil, and_iff_right hlast]
      · rw [fclose_none hopen]
        exact iff_of_false not_keeps_none fun h => hopen h.1
  · rw [if_neg hcounter, if_neg hcounter, keeps_prepareSamples, and_iff_right hpaired]

end

/-! ## Calls -/

section
variable {cases : List TestRttCase} {t t' : TestRtt}

theorem caseStart_fresh (hfresh : Fresh t) (id : Int) (fopen : Bool) :
    Fresh (t.caseStart id fopen).1 := by
  rw [caseStart]
  cases fopen with
  | true =>
    intro k hk
    rcases List.mem_cons.mp hk with rfl | hk
    · exact Nat.lt_succ_self _
    · exact Nat.lt_succ_of_lt (hfresh k hk)
  | false => exact hfresh

theorem nextCase_fresh {a : ReadCall} {r : Read} (hfresh : Fresh t)
    (hr : nextCase cases a t = some r) : Fresh r.1 := by
  have hstart := caseStart_fresh hfresh t.current a.fopen
  rw [nextCase] at hr
  split at hr
  · cases hr
    exact hfresh
  · split at hr
    · next heq =>
      rw [heq] at hstart
      exact (prepareSamples_same hr).fresh hstart
    · next heq =>
      rw [heq] at hstart
      cases hr
      exact hstart

theorem caseStop_fresh {fclose : Bool} {r : TestRtt × Outcome} (hfresh : Fresh t)
    (hr : t.caseStop fclose = some r) : Fresh r.1 := by
  rw [caseStop, Option.map_eq_some_iff] at hr
  obtain ⟨t', hclose, rfl⟩ := hr
  by_cases hopen : t.IsOpen
  · obtain ⟨t'', hclose', -, -, -, hfopens, -, hsub⟩ := fclose_eq hopen
    cases hclose.symm.trans hclose'
    intro k hk
    simp only [hfopens]
    exact hfresh k (hsub k hk)
  · rw [fclose_none hopen] at hclose
    cases hclose

theorem read_fresh {a : ReadCall} {r : Read} (hfresh : Fresh t) (hr : read cases a t = some r) :
    Fresh r.1 := by
  rw [read] at hr
  split at hr
  · split at hr
    · exact @nextCase_fresh cases { t with current := 0 } a r hfresh hr
    · split at hr
      · cases hr
      · next t' heq =>
        cases hr
        exact @caseStop_fresh t _ _ hfresh heq
      · next t' _ heq =>
        have hclosed : Fresh t' := @caseStop_fresh t _ _ hfresh heq
        split at hr
        · cases hr
        · exact @nextCase_fresh cases { t' with current := t'.current + 1 } a r hclosed hr
  · exact (prepareSamples_same hr).fresh hfresh

theorem write_spec {lengths : List (BitVec 32)} :
    (∃ o, write cases lengths t = some (t, o)) ∧ Orderly cases t (.write lengths) ∨
      write cases lengths t = none ∧ ¬ Orderly cases t (.write lengths) := by
  rw [write, Orderly]
  by_cases hneg : t.current < 0
  · rw [if_pos hneg]
    exact .inl ⟨⟨_, rfl⟩, fun hcurrent => absurd hneg (Int.not_lt.mpr hcurrent)⟩
  · rw [if_neg hneg, imp_iff_right (Int.not_lt.mp hneg)]
    by_cases hnil : lengths = []
    · rw [if_pos hnil]
      exact .inl ⟨⟨_, rfl⟩, fun hsome => absurd hnil hsome⟩
    · rw [if_neg hnil, imp_iff_right hnil]
      cases hc : cases[t.current.toNat]? with
      | none =>
        refine .inr ⟨rfl, ?_⟩
        rintro ⟨c, hnone, -⟩
        cases hnone
      | some c =>
        by_cases hprints : c.values ∈ lengths ∧ ¬ t.stream.any (· ∈ t.opened)
        · simp only [if_pos hprints]
          refine .inr ⟨trivial, ?_⟩
          rintro ⟨c', hc', hopen⟩
          cases hc'
          exact hprints.2 (any_opened_iff.2 (hopen hprints.1))
        · simp only [if_neg hprints]
          refine .inl ⟨⟨_, rfl⟩, c, rfl, fun hmem => ?_⟩
          by_contra hclosed
          exact hprints ⟨hmem, mt any_opened_iff.1 hclosed⟩

theorem call_fresh {a : Call} (hfresh : Fresh t) (ht' : call cases t a = some t') : Fresh t' := by
  cases a with
  | start mkdir =>
    obtain ⟨r, hr, rfl⟩ := Option.map_eq_some_iff.mp ht'
    rw [start] at hr
    split at hr
    · cases hr
      exact hfresh
    · split at hr
      · cases hr
      · cases hr
        exact hfresh
  | read a =>
    obtain ⟨r, hr, rfl⟩ := Option.map_eq_some_iff.mp ht'
    exact read_fresh hfresh hr
  | write lengths =>
    obtain ⟨r, hr, rfl⟩ := Option.map_eq_some_iff.mp ht'
    obtain ⟨⟨o, hwrite⟩, -⟩ | ⟨hnone, -⟩ := @write_spec cases t lengths
    · cases hr.symm.trans hwrite
      exact hfresh
    · rw [hnone] at hr
      cases hr
  | stop fclose =>
    obtain ⟨r, hr, rfl⟩ := Option.map_eq_some_iff.mp ht'
    rw [stop] at hr
    split at hr
    · exact caseStop_fresh hfresh hr
    · cases hr
      exact hfresh

theorem tidy_iff {a : Call} (hpaired : Paired t) (hfresh : Fresh t) :
    Tidy cases t a ↔ Orderly cases t a := by
  cases a with
  | start mkdir =>
    rw [Tidy, call, start, Orderly]
    cases mkdir with
    | false =>
      refine iff_of_true ⟨_, rfl, hpaired, ?_⟩ ?_
      · rintro fclose ⟨⟩
      · rintro ⟨⟩
    | true =>
      by_cases hnil : cases = []
      · simp [hnil]
      · rw [if_neg (by decide), if_neg hnil]
        refine iff_of_true ⟨_, rfl, hpaired, ?_⟩ fun _ => hnil
        rintro fclose ⟨⟩
  | read a =>
    rw [← keeps_read hpaired hfresh, Tidy, call]
    constructor
    · rintro ⟨t', ht', hkept, -⟩
      obtain ⟨r, hr, rfl⟩ := Option.map_eq_some_iff.mp ht'
      exact ⟨r, hr, hkept⟩
    · rintro ⟨r, hr, hkept⟩
      refine ⟨r.1, ?_, hkept, ?_⟩
      · rw [hr]
        rfl
      · rintro fclose ⟨⟩
  | write lengths =>
    rw [Tidy, call]
    obtain ⟨⟨o, hwrite⟩, horderly⟩ | ⟨hnone, hno⟩ := @write_spec cases t lengths
    · rw [hwrite]
      refine iff_of_true ⟨_, rfl, hpaired, ?_⟩ horderly
      rintro fclose ⟨⟩
    · rw [hnone]
      refine iff_of_false ?_ hno
      rintro ⟨t', ht', -⟩
      cases ht'
  | stop fclose =>
    rw [Tidy, call, stop, Orderly]
    by_cases hcounter : 0 ≤ t.counter
    · rw [if_pos hcounter, if_pos hcounter, caseStop]
      by_cases hopen : t.IsOpen
      · obtain ⟨t', hclose, hnil, -⟩ := fclose_paired hpaired hopen
        rw [hclose]
        exact iff_of_true ⟨_, rfl, paired_of_nil hnil, fun _ _ => hnil⟩ hopen
      · rw [fclose_none hopen]
        refine iff_of_false ?_ hopen
        rintro ⟨t', ht', -⟩
        cases ht'
    · rw [if_neg hcounter, if_neg hcounter]
      constructor
      · rintro ⟨t', ht', -, hnil⟩
        cases ht'
        exact hnil fclose rfl
      · exact fun hnil => ⟨_, rfl, hpaired, fun _ _ => hnil⟩

end

/-- For every list of cases and every sequence of calls, whatever files can be opened and closed:
the streams are opened and closed in pairs and only printed to between, if and only if every call is
orderly. -/
theorem along_tidy_iff (cases : List TestRttCase) (calls : List Call) :
    Along (call cases) (Tidy cases) init calls ↔ Along (call cases) (Orderly cases) init calls := by
  apply along_congr (I := fun t => Paired t ∧ Fresh t)
  · exact fun t a hinv => tidy_iff hinv.1 hinv.2
  · intro t a t' hinv htidy hcall
    obtain ⟨t'', ht'', hpaired, -⟩ := htidy
    cases hcall.symm.trans ht''
    exact ⟨hpaired, call_fresh hinv.2 hcall⟩
  · exact ⟨nofun, nofun⟩

/-- The node is stopped between two cases, or reads again after a file could not be opened. -/
theorem not_along_tidy :
    (¬ Along (call [⟨1, 1⟩]) (Tidy [⟨1, 1⟩]) init
        [.start true, .read ⟨1, true, true⟩, .read ⟨1, true, true⟩, .stop true]) ∧
      ¬ Along (call [⟨1, 1⟩]) (Tidy [⟨1, 1⟩]) init
        [.start true, .read ⟨1, false, true⟩, .read ⟨1, true, true⟩] := by
  constructor
  · rintro ⟨-, hread⟩
    obtain ⟨-, hread'⟩ := hread _ rfl
    obtain ⟨-, hstop⟩ := hread' _ rfl
    obtain ⟨⟨t', ht', -, hnil⟩, -⟩ := hstop _ rfl
    cases ht'
    cases hnil true rfl
  · rintro ⟨-, hread⟩
    obtain ⟨-, hread'⟩ := hread _ rfl
    obtain ⟨⟨t', ht', -⟩, -⟩ := hread' _ rfl
    cases ht'

end VillasNode.TestRtt
