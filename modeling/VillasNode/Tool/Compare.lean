import VillasNode.Format.Lines

/-!
# villas-compare

`Compare::main` of `src/villas-compare.cpp` with `LineFormat::scan` and
`sample_cmp`. The files are regular ones, so that reads fail only at their ends.
The comparisons of floating point numbers and of timestamps with the epsilon are
any.
-/

namespace VillasNode.Compare

open ByteOrder Strto Line

/-! ## Samples -/

/-- What is too far apart for the epsilon. -/
structure Tolerance where
  /-- `time_delta(a, b) > epsilon` -/
  later : Timespec → Timespec → Bool
  /-- `fabs(a - b) > epsilon` -/
  real : Value → Value → Bool
  /-- `std::abs(a - b) > epsilon` -/
  complex : Value → Value → Bool

def sampleFormat (s : LineSample) (i : Nat) : SignalType := s.signals.getD i .invalid

/-- The values of this type are not equal. -/
def Tolerance.differ (t : Tolerance) (a b : Value) : SignalType → Bool
  | .float => t.real a b
  | .integer => a ≠ b
  | .boolean => a.extractLsb' 0 8 ≠ b.extractLsb' 0 8
  | .complex => t.complex a b
  | .invalid => false

/-- The loop of `sample_cmp` from value `i` on, for `n` more. -/
def dataCmp (t : Tolerance) (a b : LineSample) (i : Nat) : Nat → Int
  | 0 => 0
  | n + 1 =>
    if sampleFormat a i ≠ sampleFormat b i then 6
    else if t.differ (a.payload.data i) (b.payload.data i) (sampleFormat a i) then 5
    else dataCmp t a b (i + 1) n

def sampleCmp (t : Tolerance) (flags : BitVec 32) (a b : LineSample) : Int :=
  if a.payload.flags &&& b.payload.flags &&& flags ≠ flags then -1
  else if hasFlag flags SampleFlags.hasSequence ∧ a.payload.sequence ≠ b.payload.sequence then 2
  else if hasFlag flags SampleFlags.hasTsOrigin ∧ t.later a.payload.origin b.payload.origin then 3
  else if hasFlag flags SampleFlags.hasData then
    if a.payload.length ≠ b.payload.length then 4 else dataCmp t a b 0 a.payload.length
  else 0

/-! ## Files -/

/-- What is left of a `FILE`, and its end of file indicator. -/
structure Stream where
  rest : List Byte
  eof : Bool

/-- The line with its delimiter. The last one may have none. -/
def Stream.getdelim (d : Byte) (f : Stream) : Option (List Byte) × Stream :=
  let line := f.rest.takeWhile (· ≠ d)
  if f.rest = [] then (none, ⟨[], true⟩)
  else if line.length = f.rest.length then (some line, ⟨[], true⟩)
  else (some (line ++ [d]), ⟨f.rest.drop (line.length + 1), f.eof⟩)

structure CompareSide where
  stream : Stream
  /-- `in.buffer` of the formatter. -/
  buffer : List Byte
  firstLineSkipped : Bool
  sample : Receiver

namespace CompareSide

/-- `getdelim` with the number of bytes. A NUL is put behind them. -/
def getdelim (d : Byte) (s : CompareSide) : Option Nat × CompareSide :=
  match s.stream.getdelim d with
  | (none, stream) => (none, { s with stream })
  | (some line, stream) =>
    (some line.length, { s with stream, buffer := line ++ 0 :: s.buffer.drop (line.length + 1) })

/-- Empty lines, lines of whitespace and comments. -/
def isSkipped (buffer : List Byte) : Bool :=
  let ptr := (buffer.dropWhile isSpace).headD 0
  ptr = 0 ∨ ptr = comment

/-- The label `skip`, for `n` lines. -/
def nextLine (d : Byte) : Nat → CompareSide → Option Nat × CompareSide
  | 0, s => (none, s)
  | n + 1, s =>
    match s.getdelim d with
    | (none, s) => (none, s)
    | (some bytes, s) => if isSkipped s.buffer then nextLine d n s else (some bytes, s)

variable (r : LineReader)

/-- The sample is read after the first line was skipped. -/
def scanLine (s : CompareSide) : Int × CompareSide :=
  -- A line takes at least one byte.
  match s.nextLine r.format.delimiter (s.stream.rest.length + 1) with
  | (none, s) => (-1, s)
  | (some bytes, s) =>
    let t := sscan { r with firstLineSkipped := s.firstLineSkipped } s.buffer bytes [s.sample]
    (1, { s with sample := t.smps.headD s.sample })

/-- `LineFormat::scan` for one sample. -/
def scan (s : CompareSide) : Int × CompareSide :=
  if r.skipFirstLine ∧ ¬ s.firstLineSkipped then
    match s.getdelim r.format.delimiter with
    | (none, s) => (-1, s)
    | (some _, s) => scanLine r { s with firstLineSkipped := true }
  else scanLine r s

def lineSample (s : CompareSide) : LineSample := ⟨s.sample.payload, r.types⟩

end CompareSide

/-! ## The tool -/

/-- What `main` returns, and the samples that it has compared. -/
structure Outcome where
  rc : Int
  rows : List (List LineSample)

/-- All files are compared against the first one. -/
def compareAll (t : Tolerance) (flags : BitVec 32) (first : LineSample) : List LineSample → Int
  | [] => 0
  | smp :: smps =>
    if sampleCmp t flags first smp ≠ 0 then sampleCmp t flags first smp
    else compareAll t flags first smps

def compareRow (t : Tolerance) (flags : BitVec 32) : List LineSample → Int
  | [] => 0
  | first :: smps => compareAll t flags first (first :: smps)

/-- The loop of `main`, for `n` rounds. -/
def mainLoop (r : LineReader) (t : Tolerance) (flags : BitVec 32) : Nat → List CompareSide → Option Outcome
  | 0, _ => none
  | n + 1, sides =>
    let eofs := sides.countP (·.stream.eof)
    if eofs ≠ 0 then some ⟨if eofs = sides.length then 0 else 1, []⟩
    else
      let failed := sides.countP fun side => (side.scan r).1 ≤ 0
      let sides := sides.map fun side => (side.scan r).2
      if failed ≠ 0 then mainLoop r t flags n sides
      else
        let row := sides.map (CompareSide.lineSample r)
        let ret := compareRow t flags row
        if ret ≠ 0 then some ⟨ret, [row]⟩
        else (mainLoop r t flags n sides).map fun o => { o with rows := row :: o.rows }

/-! ## What the files have -/

namespace CompareSide

variable (r : LineReader)

/-- The file after each of its samples, up to `n`. -/
def samples : Nat → CompareSide → List CompareSide
  | 0, _ => []
  | n + 1, s => if (s.scan r).1 ≤ 0 then [] else (s.scan r).2 :: samples n (s.scan r).2

/-- The samples that the file decodes to. -/
def decoded (s : CompareSide) : List LineSample :=
  (s.samples r s.stream.rest.length).map (lineSample r)

/-- The file has nothing behind its last sample, not even the delimiter. -/
def endsInSample (s : CompareSide) : Bool :=
  ((s.samples r s.stream.rest.length).getLast?.getD s).stream.eof

/-- At the end of the file nothing is left of it. -/
def WellFormed (s : CompareSide) : Prop := s.stream.eof → s.stream.rest = []

/-- A read that fails reaches the end of the file, any other takes something out of it. -/
def Reads (s s' : CompareSide) (ok : Bool) : Prop :=
  s'.WellFormed ∧
    if ok then s'.stream.rest.length < s.stream.rest.length
    else s'.stream.eof ∧ s'.stream.rest = []

section
variable {r : LineReader} {s s' s'' : CompareSide}

theorem getdelim_reads (d : Byte) (hs : s.WellFormed) :
    Reads s (s.getdelim d).2 (s.getdelim d).1.isSome := by
  unfold getdelim Stream.getdelim
  dsimp only
  by_cases hrest : s.stream.rest = []
  · rw [if_pos hrest]
    exact ⟨fun _ => rfl, rfl, rfl⟩
  · rw [if_neg hrest]
    have hpos := List.length_pos_iff.mpr hrest
    split_ifs
    · exact ⟨fun _ => rfl, hpos⟩
    · refine ⟨fun heof => absurd (hs heof) hrest, ?_⟩
      simp
      omega

theorem Reads.trans {ok : Bool} (h : Reads s s' true) (h' : Reads s' s'' ok) : Reads s s'' ok := by
  refine ⟨h'.1, ?_⟩
  have hlt := h.2
  have hok := h'.2
  cases ok with
  | true => exact Nat.lt_trans hok hlt
  | false => exact hok

theorem nextLine_reads (d : Byte) {n : Nat} (hs : s.WellFormed) (hn : s.stream.rest.length < n) :
    Reads s (s.nextLine d n).2 (s.nextLine d n).1.isSome := by
  induction n generalizing s with
  | zero => omega
  | succ n ih =>
    have hread := getdelim_reads d hs
    unfold nextLine
    rcases hget : s.getdelim d with ⟨_ | bytes, s'⟩
    · rw [hget] at hread
      exact hread
    · rw [hget] at hread
      have hlt : s'.stream.rest.length < s.stream.rest.length := hread.2
      dsimp only
      split
      · exact hread.trans (ih hread.1 (show s'.stream.rest.length < n by omega))
      · exact hread

theorem scanLine_reads (hs : s.WellFormed) :
    ((s.scanLine r).1 = -1 ∨ (s.scanLine r).1 = 1) ∧ Reads s (s.scanLine r).2 (0 < (s.scanLine r).1) := by
  have hread := nextLine_reads r.format.delimiter hs (Nat.lt_succ_self s.stream.rest.length)
  unfold scanLine
  rcases hnext : s.nextLine r.format.delimiter (s.stream.rest.length + 1) with ⟨_ | bytes, s'⟩
  · rw [hnext] at hread
    exact ⟨.inl rfl, hread⟩
  · rw [hnext] at hread
    exact ⟨.inr rfl, hread⟩

theorem scan_reads (hs : s.WellFormed) :
    ((s.scan r).1 = -1 ∨ (s.scan r).1 = 1) ∧ Reads s (s.scan r).2 (0 < (s.scan r).1) := by
  unfold scan
  split
  · have hread := getdelim_reads r.format.delimiter hs
    rcases hget : s.getdelim r.format.delimiter with ⟨_ | bytes, s'⟩
    · rw [hget] at hread
      exact ⟨.inl rfl, hread⟩
    · rw [hget] at hread
      have hline := @scanLine_reads r { s' with firstLineSkipped := true } hread.1
      exact ⟨hline.1, hread.trans hline.2⟩
  · exact scanLine_reads hs

theorem Reads.of_fail (hs : s.WellFormed) (hfail : (s.scan r).1 ≤ 0) : Reads s (s.scan r).2 false := by
  have hread := (@scan_reads r s hs).2
  rwa [decide_eq_false (by omega)] at hread

theorem Reads.of_ok (hs : s.WellFormed) (hok : ¬ (s.scan r).1 ≤ 0) : Reads s (s.scan r).2 true := by
  have hread := (@scan_reads r s hs).2
  rwa [decide_eq_true (by omega)] at hread

theorem samples_empty (hs : s.WellFormed) (hrest : s.stream.rest.length = 0) (n : Nat) :
    s.samples r n = [] := by
  cases n with
  | zero => rfl
  | succ n =>
    rw [samples, if_pos]
    by_contra hok
    have := (Reads.of_ok hs hok).2
    rw [if_pos rfl] at this
    omega

theorem samples_eq (hs : s.WellFormed) {n m : Nat} (hn : s.stream.rest.length ≤ n)
    (hm : s.stream.rest.length ≤ m) : s.samples r n = s.samples r m := by
  induction n generalizing s m with
  | zero =>
    have hrest := Nat.le_zero.mp hn
    rw [samples_empty hs hrest, samples_empty hs hrest]
  | succ n ih =>
    cases m with
    | zero =>
      have hrest := Nat.le_zero.mp hm
      rw [samples_empty hs hrest, samples_empty hs hrest]
    | succ m =>
      rw [samples, samples]
      split
      · rfl
      · rename_i hok
        have hread := Reads.of_ok hs hok
        have := hread.2
        rw [if_pos rfl] at this
        rw [@ih _ hread.1 m (by omega) (by omega)]

theorem samples_step (hs : s.WellFormed) : s.samples r s.stream.rest.length =
    if (s.scan r).1 ≤ 0 then [] else (s.scan r).2 :: (s.scan r).2.samples r (s.scan r).2.stream.rest.length := by
  rw [samples_eq hs (le_refl _) (Nat.le_succ s.stream.rest.length), samples]
  split
  · rfl
  · rename_i hok
    have hread := Reads.of_ok hs hok
    have := hread.2
    rw [if_pos rfl] at this
    rw [samples_eq hread.1 this.le (le_refl _)]

theorem decoded_fail (hs : s.WellFormed) (hfail : (s.scan r).1 ≤ 0) :
    s.decoded r = [] ∧ s.endsInSample r = s.stream.eof := by
  unfold decoded endsInSample
  rw [samples_step hs, if_pos hfail]
  exact ⟨rfl, rfl⟩

theorem decoded_ok (hs : s.WellFormed) (hok : ¬ (s.scan r).1 ≤ 0) :
    s.decoded r = (s.scan r).2.lineSample r :: (s.scan r).2.decoded r ∧
      s.endsInSample r = (s.scan r).2.endsInSample r := by
  unfold decoded endsInSample
  rw [samples_step hs, if_neg hok]
  refine ⟨rfl, ?_⟩
  rw [List.getLast?_cons, Option.getD_some]

theorem endsInSample_nil (hs : s.WellFormed) (hnil : s.decoded r = []) : s.endsInSample r = s.stream.eof := by
  by_cases hfail : (s.scan r).1 ≤ 0
  · exact (decoded_fail hs hfail).2
  · rw [(decoded_ok hs hfail).1] at hnil
    cases hnil

theorem decoded_eof (hs : s.WellFormed) (heof : s.stream.eof) :
    s.decoded r = [] ∧ s.endsInSample r = true := by
  have hrest := hs heof
  unfold decoded endsInSample
  rw [hrest]
  exact ⟨rfl, heof⟩

end

end CompareSide

/-! ## Which verdict is given -/

/-- What is compared with each other: the sample with index `k` of each file that has one. -/
def row (r : LineReader) (sides : List CompareSide) (k : Nat) : List LineSample :=
  sides.filterMap fun s => (s.decoded r)[k]?

def rows (r : LineReader) (sides : List CompareSide) (n : Nat) : List (List LineSample) :=
  (List.range n).map (row r sides)

/-- The shortest file has `n` samples. -/
def Shortest (r : LineReader) (sides : List CompareSide) (n : Nat) : Prop :=
  (∀ s ∈ sides, n ≤ (s.decoded r).length) ∧ ∃ s ∈ sides, (s.decoded r).length = n

/-- All files are at their ends when the first one is seen to be. -/
def EndTogether (r : LineReader) (sides : List CompareSide) (n : Nat) : Prop :=
  (∀ s ∈ sides, (s.decoded r).length = n ∧ s.endsInSample r) ∨
    ((∀ s ∈ sides, (s.decoded r).length = n → ¬ s.endsInSample r) ∧
      ∀ s ∈ sides, (s.decoded r).length = n ∨ (s.decoded r).length = n + 1 ∧ s.endsInSample r)

section
variable {r : LineReader} {t : Tolerance} {flags : BitVec 32} {sides : List CompareSide} {n : Nat}

theorem eofs_eq_zero : (sides.countP (·.stream.eof) = 0) ↔ ∀ s ∈ sides, s.stream.eof = false := by
  simp [List.countP_eq_zero]

theorem eofs_eq_length : (sides.countP (·.stream.eof) = sides.length) ↔ ∀ s ∈ sides, s.stream.eof = true := by
  simp [List.countP_eq_length]

theorem mainLoop_end (heof : ∃ s ∈ sides, s.stream.eof = true) :
    mainLoop r t flags (n + 1) sides =
      some ⟨if ∀ s ∈ sides, s.stream.eof = true then 0 else 1, []⟩ := by
  have hne : sides.countP (·.stream.eof) ≠ 0 := by
    rw [Ne, eofs_eq_zero]
    push Not
    simpa using heof
  rw [mainLoop]
  dsimp only
  rw [if_pos hne]
  simp only [eofs_eq_length]

theorem eof_iff {s : CompareSide} (hs : s.WellFormed) :
    s.stream.eof = true ↔ (s.decoded r).length = 0 ∧ s.endsInSample r = true := by
  rw [List.length_eq_zero_iff]
  constructor
  · exact CompareSide.decoded_eof hs
  · rintro ⟨hnil, hends⟩
    rwa [CompareSide.endsInSample_nil hs hnil] at hends

theorem eof_scan_iff {s : CompareSide} (hs : s.WellFormed) :
    (s.scan r).2.stream.eof = true ↔
      (s.decoded r).length = 0 ∨ (s.decoded r).length = 1 ∧ s.endsInSample r = true := by
  by_cases hfail : (s.scan r).1 ≤ 0
  · have heof := (CompareSide.Reads.of_fail hs hfail).2
    rw [if_neg (by simp)] at heof
    simp [(CompareSide.decoded_fail hs hfail).1, heof.1]
  · obtain ⟨hdecoded, hends⟩ := CompareSide.decoded_ok hs hfail
    rw [eof_iff (r := r) (CompareSide.Reads.of_ok hs hfail).1, hdecoded, hends]
    simp

theorem mainLoop_fail (heof : ∀ s ∈ sides, s.stream.eof = false) (hs : ∀ s ∈ sides, s.WellFormed)
    (hfail : ∃ s ∈ sides, (s.scan r).1 ≤ 0) :
    mainLoop r t flags (n + 2) sides =
      some ⟨if ∀ s ∈ sides, (s.scan r).2.stream.eof = true then 0 else 1, []⟩ := by
  obtain ⟨s, hmem, hsfail⟩ := hfail
  have hfailed : sides.countP (fun side => (side.scan r).1 ≤ 0) ≠ 0 := by
    rw [Ne, List.countP_eq_zero]
    push Not
    exact ⟨s, hmem, by simpa using hsfail⟩
  have hend := (CompareSide.Reads.of_fail (hs s hmem) hsfail).2
  rw [if_neg (by simp)] at hend
  rw [mainLoop]
  dsimp only
  rw [if_neg (not_not.mpr (eofs_eq_zero.2 heof)), if_pos hfailed, mainLoop_end]
  · simp
  · exact ⟨(s.scan r).2, List.mem_map.mpr ⟨s, hmem, rfl⟩, hend.1⟩

theorem mainLoop_row (heof : ∀ s ∈ sides, s.stream.eof = false) (hok : ∀ s ∈ sides, ¬ (s.scan r).1 ≤ 0) :
    let sides' := sides.map fun side => (side.scan r).2
    let row := sides'.map (CompareSide.lineSample r)
    mainLoop r t flags (n + 1) sides =
      if compareRow t flags row ≠ 0 then some ⟨compareRow t flags row, [row]⟩
      else (mainLoop r t flags n sides').map fun o => { o with rows := row :: o.rows } := by
  have hfailed : sides.countP (fun side => (side.scan r).1 ≤ 0) = 0 := by
    rw [List.countP_eq_zero]
    simpa using hok
  rw [mainLoop]
  dsimp only
  rw [if_neg (not_not.mpr (eofs_eq_zero.2 heof)), if_neg (not_not.mpr hfailed)]

theorem row_zero (hs : ∀ s ∈ sides, s.WellFormed) (hok : ∀ s ∈ sides, ¬ (s.scan r).1 ≤ 0) :
    row r sides 0 = (sides.map fun side => (side.scan r).2).map (CompareSide.lineSample r) := by
  unfold row
  rw [List.map_map, ← List.filterMap_eq_map]
  apply List.filterMap_congr
  intro s hmem
  rw [(CompareSide.decoded_ok (hs s hmem) (hok s hmem)).1]
  rfl

theorem row_succ (hs : ∀ s ∈ sides, s.WellFormed) (hok : ∀ s ∈ sides, ¬ (s.scan r).1 ≤ 0) (k : Nat) :
    row r sides (k + 1) = row r (sides.map fun side => (side.scan r).2) k := by
  unfold row
  rw [List.filterMap_map]
  apply List.filterMap_congr
  intro s hmem
  rw [(CompareSide.decoded_ok (hs s hmem) (hok s hmem)).1]
  rfl

theorem rows_succ (hs : ∀ s ∈ sides, s.WellFormed) (hok : ∀ s ∈ sides, ¬ (s.scan r).1 ≤ 0) (k : Nat) :
    rows r sides (k + 1) = row r sides 0 :: rows r (sides.map fun side => (side.scan r).2) k := by
  unfold rows
  rw [List.range_succ_eq_map, List.map_cons, List.map_map]
  congr 1
  exact List.map_congr_left fun k _ => row_succ hs hok k

theorem shortest_succ (hs : ∀ s ∈ sides, s.WellFormed) (hok : ∀ s ∈ sides, ¬ (s.scan r).1 ≤ 0) :
    Shortest r (sides.map fun side => (side.scan r).2) n ↔ Shortest r sides (n + 1) := by
  unfold Shortest
  have hlen : ∀ s ∈ sides, (s.decoded r).length = ((s.scan r).2.decoded r).length + 1 := by
    intro s hmem
    rw [(CompareSide.decoded_ok (hs s hmem) (hok s hmem)).1, List.length_cons]
  rw [List.forall_mem_map]
  simp only [List.mem_map, exists_exists_and_eq_and]
  apply and_congr
  · apply forall₂_congr
    intro s hmem
    rw [hlen s hmem, Nat.add_le_add_iff_right]
  · apply exists_congr
    intro s
    apply and_congr_right
    intro hmem
    rw [hlen s hmem, Nat.add_right_cancel_iff]

theorem endTogether_succ (hs : ∀ s ∈ sides, s.WellFormed) (hok : ∀ s ∈ sides, ¬ (s.scan r).1 ≤ 0) :
    EndTogether r (sides.map fun side => (side.scan r).2) n ↔ EndTogether r sides (n + 1) := by
  unfold EndTogether
  simp only [List.forall_mem_map]
  apply or_congr
  · apply forall₂_congr
    intro s hmem
    obtain ⟨hdecoded, hends⟩ := CompareSide.decoded_ok (hs s hmem) (hok s hmem)
    rw [hdecoded, hends, List.length_cons, Nat.add_right_cancel_iff]
  · apply and_congr
    all_goals
      apply forall₂_congr
      intro s hmem
      obtain ⟨hdecoded, hends⟩ := CompareSide.decoded_ok (hs s hmem) (hok s hmem)
      rw [hdecoded, hends, List.length_cons]
      simp only [Nat.add_right_cancel_iff]

theorem dataCmp_ne_one (a b : LineSample) (i n : Nat) : dataCmp t a b i n ≠ 1 := by
  induction n generalizing i with
  | zero => simp [dataCmp]
  | succ n ih =>
    rw [dataCmp]
    split_ifs
    · decide
    · decide
    · exact ih (i + 1)

theorem compareRow_ne_one (smps : List LineSample) : compareRow t flags smps ≠ 1 := by
  have hone : ∀ a b, sampleCmp t flags a b ≠ 1 := by
    intro a b
    unfold sampleCmp
    split_ifs <;> first | decide | exact dataCmp_ne_one a b 0 _
  have hall : ∀ first smps, compareAll t flags first smps ≠ 1 := by
    intro first smps
    induction smps with
    | nil => simp [compareAll]
    | cons smp smps ih =>
      rw [compareAll]
      split
      · exact hone first smp
      · exact ih
  cases smps with
  | nil => simp [compareRow]
  | cons first smps => exact hall first _

/-- No row up to the end of the shortest file has a difference. -/
def Agree (r : LineReader) (t : Tolerance) (flags : BitVec 32) (sides : List CompareSide) (n : Nat) : Prop :=
  ∀ k < n, compareRow t flags (row r sides k) = 0

theorem agree_succ (hs : ∀ s ∈ sides, s.WellFormed) (hok : ∀ s ∈ sides, ¬ (s.scan r).1 ≤ 0)
    (hsame : compareRow t flags (row r sides 0) = 0) :
    Agree r t flags (sides.map fun side => (side.scan r).2) n ↔ Agree r t flags sides (n + 1) := by
  constructor
  · intro h k hk
    cases k with
    | zero => exact hsame
    | succ k =>
      rw [row_succ hs hok]
      exact h k (by omega)
  · intro h k hk
    rw [← row_succ hs hok]
    exact h (k + 1) (by omega)

/-- What `main` does: it compares row by row up to the first difference, and then looks at the ends. -/
def Verdict (r : LineReader) (t : Tolerance) (flags : BitVec 32) (sides : List CompareSide) (n : Nat)
    (o : Outcome) : Prop :=
  (Agree r t flags sides n ∧ o.rows = rows r sides n ∧
      (o.rc = 0 ∧ EndTogether r sides n ∨ o.rc = 1 ∧ ¬ EndTogether r sides n)) ∨
    (¬ Agree r t flags sides n ∧ o.rc ≠ 0 ∧ o.rc ≠ 1 ∧ ∃ k < n, o.rows = rows r sides (k + 1))

theorem verdict_of_iff {p : Prop} [Decidable p] (hiff : p ↔ EndTogether r sides 0) :
    Verdict r t flags sides 0 ⟨if p then 0 else 1, []⟩ := by
  refine .inl ⟨fun k hk => absurd hk (Nat.not_lt_zero k), rfl, ?_⟩
  rw [← hiff]
  split
  · exact .inl ⟨rfl, ‹p›⟩
  · exact .inr ⟨rfl, ‹¬ p›⟩

theorem endTogether_scan (hs : ∀ s ∈ sides, s.WellFormed) (heof : ∀ s ∈ sides, s.stream.eof = false)
    (hshort : Shortest r sides 0) :
    (∀ s ∈ sides, (s.scan r).2.stream.eof = true) ↔ EndTogether r sides 0 := by
  have hopen : ∀ s ∈ sides, (s.decoded r).length = 0 → ¬ s.endsInSample r := by
    intro s hmem hlen hends
    have := (eof_iff (hs s hmem)).mpr ⟨hlen, hends⟩
    rw [heof s hmem] at this
    cases this
  obtain ⟨-, s₀, hmem₀, hlen₀⟩ := hshort
  unfold EndTogether
  rw [or_iff_right fun hall => hopen s₀ hmem₀ hlen₀ (hall s₀ hmem₀).2, and_iff_right hopen]
  exact forall₂_congr fun s hmem => eof_scan_iff (hs s hmem)

theorem endTogether_eof (hs : ∀ s ∈ sides, s.WellFormed) (heof : ∃ s ∈ sides, s.stream.eof = true) :
    (∀ s ∈ sides, s.stream.eof = true) ↔ EndTogether r sides 0 := by
  obtain ⟨s₁, hmem₁, heof₁⟩ := heof
  have hends := (eof_iff (r := r) (hs s₁ hmem₁)).mp heof₁
  unfold EndTogether
  rw [or_iff_left fun hnone => hnone.1 s₁ hmem₁ hends.1 hends.2]
  exact forall₂_congr fun s hmem => eof_iff (hs s hmem)

theorem mainLoop_spec (hs : ∀ s ∈ sides, s.WellFormed) (hshort : Shortest r sides n) :
    ∃ o, (∀ fuel ≥ n + 2, mainLoop r t flags fuel sides = some o) ∧ Verdict r t flags sides n o := by
  induction n generalizing sides with
  | zero =>
    by_cases heof : ∀ s ∈ sides, s.stream.eof = false
    · obtain ⟨s₀, hmem₀, hlen₀⟩ := hshort.2
      have hfail : (s₀.scan r).1 ≤ 0 := by
        by_contra hok
        rw [(CompareSide.decoded_ok (hs s₀ hmem₀) hok).1] at hlen₀
        cases hlen₀
      refine ⟨_, fun fuel hfuel => ?_, verdict_of_iff (endTogether_scan hs heof hshort)⟩
      obtain ⟨fuel, rfl⟩ := Nat.exists_eq_add_of_le' hfuel
      exact mainLoop_fail heof hs ⟨s₀, hmem₀, hfail⟩
    · push Not at heof
      have heof' : ∃ s ∈ sides, s.stream.eof = true := by simpa using heof
      refine ⟨_, fun fuel hfuel => ?_, verdict_of_iff (endTogether_eof hs heof')⟩
      obtain ⟨fuel, rfl⟩ := Nat.exists_eq_add_of_le' hfuel
      exact mainLoop_end heof'
  | succ n ih =>
    have hok : ∀ s ∈ sides, ¬ (s.scan r).1 ≤ 0 := by
      intro s hmem hfail
      have hlen := hshort.1 s hmem
      rw [(CompareSide.decoded_fail (hs s hmem) hfail).1] at hlen
      cases hlen
    have heof : ∀ s ∈ sides, s.stream.eof = false := by
      intro s hmem
      by_contra heof
      have hlen := hshort.1 s hmem
      rw [(CompareSide.decoded_eof (hs s hmem) (by simpa using heof)).1] at hlen
      cases hlen
    have hs' : ∀ s ∈ sides.map fun side => (side.scan r).2, s.WellFormed := by
      rw [List.forall_mem_map]
      exact fun s hmem => (CompareSide.Reads.of_ok (hs s hmem) (hok s hmem)).1
    obtain ⟨o, hloop, hverdict⟩ := ih hs' ((shortest_succ hs hok).mpr hshort)
    have hrow := row_zero hs hok
    by_cases hdiff : compareRow t flags (row r sides 0) ≠ 0
    · refine ⟨⟨compareRow t flags (row r sides 0), [row r sides 0]⟩, fun fuel hfuel => ?_, .inr ⟨?_, ?_⟩⟩
      · obtain ⟨fuel, rfl⟩ := Nat.exists_eq_add_of_le' hfuel
        rw [show fuel + (n + 1 + 2) = fuel + (n + 2) + 1 by omega, mainLoop_row heof hok, ← hrow]
        exact if_pos hdiff
      · exact fun hagree => hdiff (hagree 0 (Nat.succ_pos n))
      · exact ⟨hdiff, compareRow_ne_one _, 0, Nat.succ_pos n, rfl⟩
    · have hagree := @agree_succ r t flags sides n hs hok (not_not.mp hdiff)
      refine ⟨{ o with rows := row r sides 0 :: o.rows }, fun fuel hfuel => ?_, ?_⟩
      · obtain ⟨fuel, rfl⟩ := Nat.exists_eq_add_of_le' hfuel
        rw [show fuel + (n + 1 + 2) = fuel + (n + 2) + 1 by omega, mainLoop_row heof hok, ← hrow,
          if_neg hdiff, hloop _ (by omega)]
        rfl
      · unfold Verdict at hverdict ⊢
        rw [hagree] at hverdict
        rcases hverdict with ⟨hall, hrows, hrc⟩ | ⟨hnot, hzero, hone, k, hk, hrows⟩
        · rw [endTogether_succ hs hok] at hrc
          refine .inl ⟨hall, ?_, hrc⟩
          dsimp only
          rw [hrows, rows_succ hs hok]
        · refine .inr ⟨hnot, hzero, hone, k + 1, by omega, ?_⟩
          dsimp only
          rw [hrows, rows_succ hs hok]

end

/-! ## Which verdict is right -/

/-- The samples are equal in what the flags say, within the epsilon. -/
structure SampleEqual (t : Tolerance) (flags : BitVec 32) (a b : LineSample) : Prop where
  hasFlags : a.payload.flags &&& b.payload.flags &&& flags = flags
  sequence : hasFlag flags SampleFlags.hasSequence → a.payload.sequence = b.payload.sequence
  origin : hasFlag flags SampleFlags.hasTsOrigin →
    t.later a.payload.origin b.payload.origin = false ∧ t.later b.payload.origin a.payload.origin = false
  length : hasFlag flags SampleFlags.hasData → a.payload.length = b.payload.length
  data : hasFlag flags SampleFlags.hasData → ∀ i < a.payload.length, sampleFormat a i = sampleFormat b i ∧
    t.differ (a.payload.data i) (b.payload.data i) (sampleFormat a i) = false

/-- They are equal in all of this but their timestamps. -/
structure EqualOtherwise (t : Tolerance) (flags : BitVec 32) (a b : LineSample) : Prop where
  hasFlags : a.payload.flags &&& b.payload.flags &&& flags = flags
  sequence : hasFlag flags SampleFlags.hasSequence → a.payload.sequence = b.payload.sequence
  length : hasFlag flags SampleFlags.hasData → a.payload.length = b.payload.length
  data : hasFlag flags SampleFlags.hasData → ∀ i < a.payload.length, sampleFormat a i = sampleFormat b i ∧
    t.differ (a.payload.data i) (b.payload.data i) (sampleFormat a i) = false

def RowEqual (t : Tolerance) (flags : BitVec 32) : List LineSample → Prop
  | [] => True
  | first :: smps => ∀ smp ∈ first :: smps, SampleEqual t flags first smp

/-- All files are equal up to the end of the shortest one. -/
def FilesEqual (r : LineReader) (t : Tolerance) (flags : BitVec 32) (sides : List CompareSide) (n : Nat) :
    Prop :=
  ∀ k < n, RowEqual t flags (row r sides k)

def SameLength (r : LineReader) (sides : List CompareSide) (n : Nat) : Prop :=
  ∀ s ∈ sides, (s.decoded r).length = n

/-- The verdict is right, and the samples are compared row by row and each once. -/
structure Right (r : LineReader) (t : Tolerance) (flags : BitVec 32) (sides : List CompareSide) (n : Nat)
    (o : Outcome) : Prop where
  equal : o.rc = 0 ↔ SameLength r sides n ∧ FilesEqual r t flags sides n
  shorter : FilesEqual r t flags sides n → ¬ SameLength r sides n → o.rc = 1
  once : ∃ k ≤ n, o.rows = rows r sides k ∧ (o.rc = 0 → k = n ∧ SameLength r sides n)

def RowNotEarlier (t : Tolerance) : List LineSample → Prop
  | [] => True
  | first :: smps => ∀ smp ∈ first :: smps, t.later smp.payload.origin first.payload.origin = false

/-- No timestamp is earlier than the one of the first file by more than the epsilon. -/
def NotEarlier (r : LineReader) (t : Tolerance) (flags : BitVec 32) (sides : List CompareSide) (n : Nat) :
    Prop :=
  hasFlag flags SampleFlags.hasTsOrigin → ∀ k < n, RowNotEarlier t (row r sides k)

/-- In files between which `sample_cmp` finds no difference up to the end of the shortest one no
timestamp is too early, unless the files do not end together. And if none is, the files end together
just when they have the same number of samples. -/
def Fair (r : LineReader) (t : Tolerance) (flags : BitVec 32) (sides : List CompareSide) (n : Nat) : Prop :=
  Agree r t flags sides n →
    (EndTogether r sides n → NotEarlier r t flags sides n) ∧
      (NotEarlier r t flags sides n → (EndTogether r sides n ↔ SameLength r sides n))

section
variable {r : LineReader} {t : Tolerance} {flags : BitVec 32} {sides : List CompareSide} {n : Nat}
  {a b : LineSample}

theorem dataCmp_eq_zero {i : Nat} : dataCmp t a b i n = 0 ↔ ∀ k, i ≤ k → k < i + n →
    sampleFormat a k = sampleFormat b k ∧
      t.differ (a.payload.data k) (b.payload.data k) (sampleFormat a k) = false := by
  induction n generalizing i with
  | zero =>
    simp only [dataCmp, true_iff]
    intro k hk hlt
    omega
  | succ n ih =>
    rw [dataCmp]
    split_ifs with hformat hdiffer
    · refine iff_of_false (by decide) fun h => ?_
      exact hformat (h i (le_refl i) (by omega)).1
    · refine iff_of_false (by decide) fun h => ?_
      rw [(h i (le_refl i) (by omega)).2] at hdiffer
      cases hdiffer
    · rw [ih]
      constructor
      · intro h k hk hlt
        rcases Nat.eq_or_lt_of_le hk with rfl | hk
        · exact ⟨not_not.mp hformat, by simpa using hdiffer⟩
        · exact h k hk (by omega)
      · exact fun h k hk hlt => h k (by omega) (by omega)

theorem sampleCmp_eq_zero_iff : sampleCmp t flags a b = 0 ↔ EqualOtherwise t flags a b ∧
    (hasFlag flags SampleFlags.hasTsOrigin → t.later a.payload.origin b.payload.origin = false) := by
  unfold sampleCmp
  constructor
  · intro hcmp
    split at hcmp
    · exact absurd hcmp (by decide)
    rename_i hflags
    split at hcmp
    · exact absurd hcmp (by decide)
    rename_i hsequence
    split at hcmp
    · exact absurd hcmp (by decide)
    rename_i hlater
    have hsame (h : hasFlag flags SampleFlags.hasSequence) : a.payload.sequence = b.payload.sequence :=
      not_not.mp fun hne => hsequence ⟨h, hne⟩
    have horigin (h : hasFlag flags SampleFlags.hasTsOrigin) :
        t.later a.payload.origin b.payload.origin = false :=
      Bool.eq_false_iff.mpr fun h' => hlater ⟨h, h'⟩
    split at hcmp
    · rename_i hdata
      split at hcmp
      · exact absurd hcmp (by decide)
      rename_i hlength
      exact ⟨⟨not_not.mp hflags, hsame, fun _ => not_not.mp hlength,
        fun _ i hi => dataCmp_eq_zero.1 hcmp i (Nat.zero_le i) (by omega)⟩, horigin⟩
    · rename_i hdata
      exact ⟨⟨not_not.mp hflags, hsame, fun h => absurd h hdata, fun h => absurd h hdata⟩, horigin⟩
  · rintro ⟨h, horigin⟩
    rw [if_neg (not_not.mpr h.hasFlags), if_neg fun hne => hne.2 (h.sequence hne.1),
      if_neg fun hlater => by simp [horigin hlater.1] at hlater]
    split
    · rename_i hdata
      rw [if_neg (not_not.mpr (h.length hdata)), dataCmp_eq_zero]
      exact fun k _ hk => h.data hdata k (by omega)
    · rfl

theorem sampleEqual_iff : SampleEqual t flags a b ↔ sampleCmp t flags a b = 0 ∧
    (hasFlag flags SampleFlags.hasTsOrigin → t.later b.payload.origin a.payload.origin = false) := by
  rw [sampleCmp_eq_zero_iff]
  constructor
  · intro h
    exact ⟨⟨⟨h.hasFlags, h.sequence, h.length, h.data⟩, fun hts => (h.origin hts).1⟩,
      fun hts => (h.origin hts).2⟩
  · rintro ⟨⟨h, hbefore⟩, hbehind⟩
    exact ⟨h.hasFlags, h.sequence, fun hts => ⟨hbefore hts, hbehind hts⟩, h.length, h.data⟩

theorem compareAll_eq_zero {first : LineSample} {smps : List LineSample} :
    compareAll t flags first smps = 0 ↔ ∀ smp ∈ smps, sampleCmp t flags first smp = 0 := by
  induction smps with
  | nil => simp [compareAll]
  | cons smp smps ih =>
    rw [compareAll, List.forall_mem_cons]
    split
    · rename_i hne
      exact iff_of_false hne fun h => hne h.1
    · rename_i hsame
      rw [ih, and_iff_right (not_not.mp hsame)]

theorem rowEqual_iff {smps : List LineSample} : RowEqual t flags smps ↔
    compareRow t flags smps = 0 ∧ (hasFlag flags SampleFlags.hasTsOrigin → RowNotEarlier t smps) := by
  cases smps with
  | nil => simp [RowEqual, compareRow, RowNotEarlier]
  | cons first smps =>
    rw [RowEqual, compareRow, compareAll_eq_zero, RowNotEarlier]
    simp only [sampleEqual_iff]
    constructor
    · exact fun h => ⟨fun smp hmem => (h smp hmem).1, fun hts smp hmem => (h smp hmem).2 hts⟩
    · exact fun h smp hmem => ⟨h.1 smp hmem, fun hts => h.2 hts smp hmem⟩

theorem filesEqual_iff :
    FilesEqual r t flags sides n ↔ Agree r t flags sides n ∧ NotEarlier r t flags sides n := by
  unfold FilesEqual Agree NotEarlier
  simp only [rowEqual_iff]
  constructor
  · exact fun h => ⟨fun k hk => (h k hk).1, fun hts k hk => (h k hk).2 hts⟩
  · exact fun h k hk => ⟨h.1 k hk, fun hts => h.2 hts k hk⟩

theorem Verdict.right_iff {o : Outcome} (h : Verdict r t flags sides n o) :
    Right r t flags sides n o ↔ Fair r t flags sides n := by
  unfold Fair
  rcases h with ⟨hagree, hrows, ⟨hrc, htogether⟩ | ⟨hrc, hapart⟩⟩ | ⟨hdiffer, hzero, hone, k, hk, hrows⟩
  · have hequal : FilesEqual r t flags sides n ↔ NotEarlier r t flags sides n := by
      rw [filesEqual_iff, and_iff_right hagree]
    constructor
    · intro hright _
      obtain ⟨hsame, hfiles⟩ := hright.equal.mp hrc
      exact ⟨fun _ => hequal.mp hfiles, fun _ => iff_of_true htogether hsame⟩
    · intro hfair
      have hearlier := (hfair hagree).1 htogether
      have hsame := ((hfair hagree).2 hearlier).mp htogether
      exact ⟨iff_of_true hrc ⟨hsame, hequal.mpr hearlier⟩, fun _ hnot => absurd hsame hnot,
        n, le_refl n, hrows, fun _ => ⟨rfl, hsame⟩⟩
  · have hequal : FilesEqual r t flags sides n ↔ NotEarlier r t flags sides n := by
      rw [filesEqual_iff, and_iff_right hagree]
    have hne : o.rc ≠ 0 := by
      rw [hrc]
      decide
    constructor
    · intro hright _
      refine ⟨fun htogether => absurd htogether hapart, fun hearlier => iff_of_false hapart fun hsame => ?_⟩
      exact hne (hright.equal.mpr ⟨hsame, hequal.mpr hearlier⟩)
    · intro hfair
      refine ⟨iff_of_false hne fun hboth => ?_, fun _ _ => hrc, n, le_refl n, hrows, fun h => absurd h hne⟩
      exact hapart (((hfair hagree).2 (hequal.mp hboth.2)).mpr hboth.1)
  · have hnot : ¬ FilesEqual r t flags sides n := fun hfiles => hdiffer (filesEqual_iff.1 hfiles).1
    constructor
    · exact fun _ hagree => absurd hagree hdiffer
    · intro _
      exact ⟨iff_of_false hzero fun hboth => hnot hboth.2, fun hfiles => absurd hfiles hnot, k + 1, hk, hrows,
        fun h => absurd h hzero⟩

/-- The number of samples of the shortest file. -/
def shortest (r : LineReader) (sides : List CompareSide) : Nat :=
  (sides.map fun s => (s.decoded r).length).min?.getD 0

theorem shortest_spec (hne : sides ≠ []) : Shortest r sides (shortest r sides) := by
  have hsome : (sides.map fun s => (s.decoded r).length).min? ≠ none := by
    rwa [Ne, List.min?_eq_none_iff, List.map_eq_nil_iff]
  obtain ⟨n, hn⟩ := Option.ne_none_iff_exists'.mp hsome
  obtain ⟨hmem, hle⟩ := List.min?_eq_some_iff.mp hn
  unfold shortest
  rw [hn, Option.getD_some]
  rw [List.forall_mem_map] at hle
  obtain ⟨s, hs, hlen⟩ := List.mem_map.mp hmem
  exact ⟨hle, s, hs, hlen⟩

/-- For all files, whatever is in them and at their ends. -/
theorem compare_iff (r : LineReader) (t : Tolerance) (flags : BitVec 32) (hne : sides ≠ [])
    (hopen : ∀ s ∈ sides, s.stream.eof = false) :
    ∃ o, (∀ fuel ≥ shortest r sides + 2, mainLoop r t flags fuel sides = some o) ∧
      (Right r t flags sides (shortest r sides) o ↔ Fair r t flags sides (shortest r sides)) := by
  have hs : ∀ s ∈ sides, s.WellFormed := by
    intro s hmem heof
    rw [hopen s hmem] at heof
    cases heof
  obtain ⟨o, hloop, hverdict⟩ := mainLoop_spec hs (shortest_spec hne)
  exact ⟨o, hloop, hverdict.right_iff⟩

end

instance decidableRowNotEarlier (t : Tolerance) : ∀ smps, Decidable (RowNotEarlier t smps)
  | [] => .isTrue trivial
  | first :: smps =>
    inferInstanceAs (Decidable (∀ smp ∈ first :: smps, t.later smp.payload.origin first.payload.origin = false))

def nanoseconds (ts : Timespec) : Int := ts.sec.toInt * 10 ^ 9 + ts.nsec.toInt

/-- Timestamps one nanosecond apart are equal, other numbers are compared for identity. -/
def exampleTolerance : Tolerance :=
  ⟨fun a b => 1 < nanoseconds b - nanoseconds a, fun a b => a ≠ b, fun a b => a ≠ b⟩

/-- The sequence number, the timestamp and the data. -/
def exampleFlags : BitVec 32 := SampleFlags.hasSequence ||| SampleFlags.hasData ||| SampleFlags.hasTsOrigin

def openSide (text : String) : CompareSide := ⟨⟨ascii text, false⟩, [], false, exampleReceiver⟩

/-- The same sample, but for a comment and an empty line. -/
def equalFiles : List CompareSide := [openSide "1.5(7)\t5\n", openSide "# c\n1.5(7)\t5\n\n"]

/-- The second file has no newline at its end. -/
def unterminated : List CompareSide := [openSide "1.5(7)\t5\n", openSide "1.5(7)\t5"]

theorem compare_equalFiles :
    ∃ o, (∀ fuel ≥ 3, mainLoop exampleReader exampleTolerance exampleFlags fuel equalFiles = some o) ∧
      Right exampleReader exampleTolerance exampleFlags equalFiles 1 o := by
  obtain ⟨o, hloop, hright⟩ := @compare_iff equalFiles exampleReader exampleTolerance exampleFlags
    (by decide) (by decide)
  refine ⟨o, hloop, hright.mpr fun _ => ⟨fun _ _ => ?_, fun _ => iff_of_true ?_ ?_⟩⟩
  · decide
  · exact .inr ⟨by decide, by decide⟩
  · unfold SameLength
    decide

theorem unterminated_files : FilesEqual exampleReader exampleTolerance exampleFlags unterminated 1 := by
  rw [filesEqual_iff]
  unfold Agree NotEarlier
  decide

/-- Files with the same sample are found to have different lengths. -/
theorem compare_not_right : ¬ ∀ (r : LineReader) (t : Tolerance) (flags : BitVec 32)
    (sides : List CompareSide), r.format.layout = .human → 2 ≤ sides.length →
    (∀ s ∈ sides, s.stream.eof = false) →
    ∃ o, (∀ fuel ≥ shortest r sides + 2, mainLoop r t flags fuel sides = some o) ∧
      Right r t flags sides (shortest r sides) o := by
  intro hclaim
  obtain ⟨o, hloop, hright⟩ := hclaim exampleReader exampleTolerance exampleFlags unterminated rfl
    (by decide) (by decide)
  have hone : mainLoop exampleReader exampleTolerance exampleFlags 3 unterminated =
      some ⟨1, rows exampleReader unterminated 1⟩ := rfl
  cases hone.symm.trans (hloop 3 (by decide))
  have hzero := hright.equal.mpr ⟨?_, unterminated_files⟩
  · exact absurd hzero (by decide)
  · unfold SameLength
    decide

end VillasNode.Compare
