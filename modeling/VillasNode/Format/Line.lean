import VillasNode.Lib.Snprintf
import VillasNode.VillasBinary.Model

/-!
# Formats with one line for each sample

`lib/formats/line.cpp` with the lines of villas.human, csv and tsv. The texts of
floating point numbers come from the C library and are any texts.
-/

namespace VillasNode.Line

open ByteOrder Snprintf

/-! ## Texts -/

def ascii (s : String) : List Byte := s.toList.map fun c => BitVec.ofNat 8 c.toNat

/-- `%llu` -/
def decimal (n : Nat) : List Byte := (Nat.toDigits 10 n).map fun c => BitVec.ofNat 8 c.toNat

/-- `%0*lld` for some width. -/
def decimalPadded (width : Nat) (n : Int) : List Byte :=
  if n < 0 then ascii "-" ++ (decimal n.natAbs).leftpad (width - 1) 48
  else (decimal n.natAbs).leftpad width 48

/-- What the C library makes of a `double`, and `time_delta` of two timestamps. -/
structure FloatText where
  /-- `%.*f` -/
  fixed : Nat → Value → List Byte
  /-- `%+.*f` -/
  signed : Nat → Value → List Byte
  /-- `%+e` -/
  scientific : Value → List Byte
  widen : BitVec 32 → Value
  timeDelta : Timespec → Timespec → Value

/-- A value as `signal_data_print_str` prints it, on a little endian host. -/
def signalDataText (ft : FloatText) (precision : Nat) (data : Value) : SignalType → List Byte
  | .float => ft.fixed precision data
  | .integer => decimalPadded 0 data.toInt
  | .boolean => if data.extractLsb' 0 8 = 0 then ascii "0" else ascii "1"
  | .complex =>
    ft.fixed precision (ft.widen (data.extractLsb' 0 32)) ++
      ft.signed precision (ft.widen (data.extractLsb' 32 32)) ++ ascii "i"
  | .invalid => ascii "<?>"

/-- The same value of this type. A boolean is the lowest byte of the data. -/
def SameValue : SignalType → Value → Value → Prop
  | .boolean, v, w => v.extractLsb' 0 8 = 0 ↔ w.extractLsb' 0 8 = 0
  | _, v, w => v = w

/-! ## Printing -/

/-- What sets the columns of csv and tsv apart from villas.human. -/
inductive Layout where
  | human
  | column (separator : Byte)
deriving DecidableEq

/-- `parse` takes a delimiter of one character only, which is never the NUL. -/
structure LineFormat where
  layout : Layout
  flags : BitVec 32
  realPrecision : Nat
  delimiter : Byte
  delimiter_ne : delimiter ≠ 0

/-- A sample with the types of its signals. -/
structure LineSample where
  payload : Payload
  signals : List SignalType

def hasFlag (flags flag : BitVec 32) : Bool := flags &&& flag ≠ 0

section
variable (ft : FloatText) (f : LineFormat) (smp : LineSample)

/-- The loop over the values. It ends early when there is no signal for a value. -/
def sprintData (before : List Byte) (base len i : Nat) (o : Out) : Nat → Out
  | 0 => o
  | n + 1 =>
    match smp.signals[i]? with
    | none => o
    | some type =>
      let o := emit base len o before
      let o := emit base len o (signalDataText ft f.realPrecision (smp.payload.data i) type)
      sprintData before base len (i + 1) o n

/-- `VILLASHumanFormat::sprintLine` -/
def humanSprintLine (mem : Nat → Byte) (base len : Nat) : Out :=
  let s := smp.payload
  let o : Out := ⟨mem, 0, []⟩
  let o :=
    if hasFlag f.flags SampleFlags.hasTsOrigin then
      if hasFlag s.flags SampleFlags.hasTsOrigin then
        let o := emit base len o (decimal s.origin.sec.toNat)
        emit base len o (ascii "." ++ (decimal s.origin.nsec.toNat).leftpad 9 48)
      else emit base len o (ascii "nan.nan")
    else o
  let o :=
    if hasFlag f.flags SampleFlags.hasOffset ∧ hasFlag s.flags SampleFlags.hasTsReceived then
      emit base len o (ft.scientific (ft.timeDelta s.origin s.received))
    else o
  let o :=
    if hasFlag f.flags SampleFlags.hasSequence ∧ hasFlag s.flags SampleFlags.hasSequence then
      emit base len o (ascii "(" ++ decimal s.sequence.toNat ++ ascii ")")
    else o
  let o :=
    if hasFlag f.flags SampleFlags.hasData then
      sprintData ft f smp (ascii "\t") base len 0 o s.length
    else o
  emit base len o [f.delimiter]

/-- `ColumnLineFormat::sprintLine` -/
def columnSprintLine (separator : Byte) (mem : Nat → Byte) (base len : Nat) : Out :=
  let s := smp.payload
  let o : Out := ⟨mem, 0, []⟩
  let o :=
    if hasFlag s.flags SampleFlags.hasTsOrigin then
      emit base len o
        (decimalPadded 0 s.origin.sec.toInt ++ [separator] ++ decimalPadded 9 s.origin.nsec.toInt)
    else emit base len o (ascii "nan" ++ [separator] ++ ascii "nan")
  let o :=
    if hasFlag s.flags SampleFlags.hasTsReceived then
      emit base len o ([separator] ++ ft.fixed 9 (ft.timeDelta s.origin s.received))
    else emit base len o ([separator] ++ ascii "nan")
  let o :=
    if hasFlag s.flags SampleFlags.hasSequence then
      emit base len o ([separator] ++ decimal s.sequence.toNat)
    else emit base len o ([separator] ++ ascii "nan")
  let o := sprintData ft f smp [separator] base len 0 o s.length
  emit base len o [f.delimiter]

def sprintLine (mem : Nat → Byte) (base len : Nat) : Out :=
  match f.layout with
  | .human => humanSprintLine ft f smp mem base len
  | .column separator => columnSprintLine ft f smp separator mem base len

end

/-- What `sprint` returns and leaves in memory, with all its calls of `snprintf`. -/
structure Sprinted where
  mem : Nat → Byte
  wbytes : Nat
  ret : Nat
  calls : List Call

/-- The loop of `LineFormat::sprint` from the offset `off` on. -/
def sprintFrom (ft : FloatText) (f : LineFormat) (len : Nat) (mem : Nat → Byte) (off : Nat) :
    List LineSample → Sprinted
  | [] => ⟨mem, off, 0, []⟩
  | smp :: smps =>
    if off < len then
      let o := sprintLine ft f smp mem off (len - off)
      let r := sprintFrom ft f len o.mem (off + o.off) smps
      { r with ret := r.ret + 1, calls := o.calls ++ r.calls }
    else ⟨mem, off, 0, []⟩

def sprint (ft : FloatText) (f : LineFormat) (mem : Nat → Byte) (len : Nat)
    (smps : List LineSample) : Sprinted :=
  sprintFrom ft f len mem 0 smps

/-! ## The text of a line -/

section
variable (ft : FloatText) (f : LineFormat) (smp : LineSample)

def dataFields (before : List Byte) (i : Nat) : Nat → List (List Byte)
  | 0 => []
  | n + 1 =>
    match smp.signals[i]? with
    | none => []
    | some type =>
      [before, signalDataText ft f.realPrecision (smp.payload.data i) type] ++
        dataFields before (i + 1) n

def humanFields : List (List Byte) :=
  let s := smp.payload
  (if hasFlag f.flags SampleFlags.hasTsOrigin then
    if hasFlag s.flags SampleFlags.hasTsOrigin then
      [decimal s.origin.sec.toNat, ascii "." ++ (decimal s.origin.nsec.toNat).leftpad 9 48]
    else [ascii "nan.nan"]
  else []) ++
  (if hasFlag f.flags SampleFlags.hasOffset ∧ hasFlag s.flags SampleFlags.hasTsReceived then
    [ft.scientific (ft.timeDelta s.origin s.received)]
  else []) ++
  (if hasFlag f.flags SampleFlags.hasSequence ∧ hasFlag s.flags SampleFlags.hasSequence then
    [ascii "(" ++ decimal s.sequence.toNat ++ ascii ")"]
  else []) ++
  (if hasFlag f.flags SampleFlags.hasData then dataFields ft f smp (ascii "\t") 0 s.length else [])

def columnFields (separator : Byte) : List (List Byte) :=
  let s := smp.payload
  [if hasFlag s.flags SampleFlags.hasTsOrigin then
    decimalPadded 0 s.origin.sec.toInt ++ [separator] ++ decimalPadded 9 s.origin.nsec.toInt
  else ascii "nan" ++ [separator] ++ ascii "nan"] ++
  [if hasFlag s.flags SampleFlags.hasTsReceived then
    [separator] ++ ft.fixed 9 (ft.timeDelta s.origin s.received)
  else [separator] ++ ascii "nan"] ++
  [if hasFlag s.flags SampleFlags.hasSequence then [separator] ++ decimal s.sequence.toNat
  else [separator] ++ ascii "nan"] ++
  dataFields ft f smp [separator] 0 s.length

def lineFields : List (List Byte) :=
  match f.layout with
  | .human => humanFields ft f smp
  | .column separator => columnFields ft f smp separator

/-- The line of a sample with its delimiter. -/
def lineText : List Byte := (lineFields ft f smp).flatten ++ [f.delimiter]

theorem sprintData_eq (before : List Byte) (base len i : Nat) (o : Out) (n : Nat) :
    sprintData ft f smp before base len i o n =
      emits base len o (dataFields ft f smp before i n) := by
  induction n generalizing i o with
  | zero => rfl
  | succ n ih =>
    unfold sprintData dataFields
    cases smp.signals[i]? with
    | none => rfl
    | some type => exact ih ..

theorem sprintLine_eq (mem : Nat → Byte) (base len : Nat) :
    sprintLine ft f smp mem base len =
      emits base len ⟨mem, 0, []⟩ (lineFields ft f smp ++ [[f.delimiter]]) := by
  unfold sprintLine lineFields
  cases f.layout with
  | human =>
    simp only [humanSprintLine, humanFields, emits_append, emits_ite, emits_cons, emits_nil,
      sprintData_eq]
  | column separator =>
    simp only [columnSprintLine, columnFields, emits_append, emits_cons, emits_nil, sprintData_eq,
      apply_ite (emit base len _)]

end

section
variable {ft : FloatText} {f : LineFormat} {smp : LineSample} {mem : Nat → Byte} {base len : Nat}

theorem lineText_length :
    (lineText ft f smp).length = (lineFields ft f smp).flatten.length + 1 := by
  simp [lineText]

theorem sprintLine_off : (sprintLine ft f smp mem base len).off = (lineText ft f smp).length := by
  rw [sprintLine_eq, emits_off, lineText_length]
  simp

theorem sprintLine_below {a : Nat} (h : a < base) :
    (sprintLine ft f smp mem base len).mem a = mem a := by
  rw [sprintLine_eq, emits_below h]

theorem sprintLine_inBounds_iff :
    (∀ c ∈ (sprintLine ft f smp mem base len).calls, c.InBounds (base + len)) ↔
      (lineText ft f smp).length ≤ len + 1 := by
  rw [sprintLine_eq, emits_inBounds_iff (by simp), lineText_length]
  simp

theorem sprintLine_holds (h : (lineText ft f smp).length < len) :
    Holds (sprintLine ft f smp mem base len).mem base (lineText ft f smp) := by
  have hflat : lineText ft f smp = (lineFields ft f smp ++ [[f.delimiter]]).flatten := by
    simp [lineText]
  rw [sprintLine_eq, hflat]
  apply emits_holds
  rw [← hflat]
  simpa using h

theorem sprintLine_cut (h : (lineText ft f smp).length = len) :
    ¬ Holds (sprintLine ft f smp mem base len).mem base (lineText ft f smp) := by
  intro hholds
  have hoff : (emits base len ⟨mem, 0, []⟩ (lineFields ft f smp)).off =
      (lineFields ft f smp).flatten.length := by
    rw [emits_off, Nat.zero_add]
  rw [lineText_length] at h
  have hlast := hholds (lineFields ft f smp).flatten.length f.delimiter (by simp [lineText])
  rw [sprintLine_eq, emits_append, emits_cons, emits_nil, emit, hoff,
    sizeSub_of_le (by omega)] at hlast
  rw [show len - (lineFields ft f smp).flatten.length = 1 by omega] at hlast
  dsimp only at hlast
  rw [snprintf_one] at hlast
  exact f.delimiter_ne hlast.symm

end

/-! ## All lines -/

def linesText (ft : FloatText) (f : LineFormat) (smps : List LineSample) : List Byte :=
  (smps.map (lineText ft f)).flatten

/-- Nothing is written at an offset behind the buffer or with a size that underflowed, and up to
`len` reported bytes the buffer has all lines that were counted. -/
def Meets (ft : FloatText) (f : LineFormat) (len : Nat) (smps : List LineSample) (r : Sprinted) :
    Prop :=
  (∀ c ∈ r.calls, c.InBounds len) ∧
    (r.wbytes ≤ len → Holds r.mem 0 (linesText ft f (smps.take r.ret)))

/-- A line that begins inside the buffer ends before its last byte, or else only its delimiter is
left out. -/
def EndsWell (ft : FloatText) (f : LineFormat) (len : Nat) (smps : List LineSample) : Prop :=
  ∀ k < smps.length, (linesText ft f (smps.take k)).length < len →
    (linesText ft f (smps.take (k + 1))).length ≠ len ∧
      (linesText ft f (smps.take (k + 1))).length ≤ len + 1

section
variable {ft : FloatText} {f : LineFormat} {mem : Nat → Byte} {len off : Nat}
  {smps : List LineSample}

theorem linesText_take_cons (smp : LineSample) (k : Nat) :
    linesText ft f ((smp :: smps).take (k + 1)) =
      lineText ft f smp ++ linesText ft f (smps.take k) := by
  simp [linesText]

theorem sprintFrom_full (h : len ≤ off) : sprintFrom ft f len mem off smps = ⟨mem, off, 0, []⟩ := by
  cases smps with
  | nil => rfl
  | cons smp smps => rw [sprintFrom, if_neg (by omega)]

theorem sprintFrom_cons {smp : LineSample} (h : off < len) :
    sprintFrom ft f len mem off (smp :: smps) =
      let o := sprintLine ft f smp mem off (len - off)
      let r := sprintFrom ft f len o.mem (off + (lineText ft f smp).length) smps
      ⟨r.mem, r.wbytes, r.ret + 1, o.calls ++ r.calls⟩ := by
  rw [sprintFrom, if_pos h]
  simp only [sprintLine_off]

/-- `Meets` for the rest of the loop, when the buffer holds the text `pre` so far. -/
def MeetsFrom (ft : FloatText) (f : LineFormat) (len : Nat) (pre : List Byte)
    (smps : List LineSample) (r : Sprinted) : Prop :=
  (∀ c ∈ r.calls, c.InBounds len) ∧
    (r.wbytes ≤ len → Holds r.mem 0 (pre ++ linesText ft f (smps.take r.ret)))

def EndsWellFrom (ft : FloatText) (f : LineFormat) (len off : Nat) (smps : List LineSample) : Prop :=
  ∀ k < smps.length, off + (linesText ft f (smps.take k)).length < len →
    off + (linesText ft f (smps.take (k + 1))).length ≠ len ∧
      off + (linesText ft f (smps.take (k + 1))).length ≤ len + 1

theorem endsWellFrom_full (h : len ≤ off) : EndsWellFrom ft f len off smps := by
  intro k _ hk
  omega

theorem endsWellFrom_cons {smp : LineSample} (h : off < len) :
    EndsWellFrom ft f len off (smp :: smps) ↔
      (off + (lineText ft f smp).length ≠ len ∧ off + (lineText ft f smp).length ≤ len + 1) ∧
        EndsWellFrom ft f len (off + (lineText ft f smp).length) smps := by
  constructor
  · intro hall
    constructor
    · simpa [linesText] using hall 0 (by simp) (by simpa [linesText] using h)
    · intro k hk hlt
      have := hall (k + 1) (by simpa using hk)
      simp only [linesText_take_cons, List.length_append, ← Nat.add_assoc] at this
      exact this hlt
  · rintro ⟨hfirst, hrest⟩ k hk hlt
    cases k with
    | zero => simpa [linesText] using hfirst
    | succ k =>
      simp only [linesText_take_cons, List.length_append, ← Nat.add_assoc] at hlt ⊢
      exact hrest k (by simpa using hk) hlt

theorem line_inBounds_iff {smp : LineSample} (hlt : off < len) :
    (∀ c ∈ (sprintLine ft f smp mem off (len - off)).calls, c.InBounds len) ↔
      off + (lineText ft f smp).length ≤ len + 1 := by
  have hline : (∀ c ∈ (sprintLine ft f smp mem off (len - off)).calls,
      c.InBounds (off + (len - off))) ↔ _ := sprintLine_inBounds_iff
  rw [Nat.add_sub_cancel' (Nat.le_of_lt hlt)] at hline
  rw [hline]
  omega

theorem line_keeps {smp : LineSample} {pre : List Byte} {size : Nat} (hpre : Holds mem 0 pre)
    (hoff : pre.length = off) : Holds (sprintLine ft f smp mem off size).mem 0 pre := by
  apply hpre.of_eq
  intro a ha
  apply sprintLine_below
  omega

theorem meetsFrom_last {smp : LineSample} {pre : List Byte} (hoff : pre.length = off)
    (hlt : off < len) (hend : len ≤ off + (lineText ft f smp).length) :
    MeetsFrom ft f len pre (smp :: smps) (sprintFrom ft f len mem off (smp :: smps)) ↔
      off + (lineText ft f smp).length ≠ len ∧ off + (lineText ft f smp).length ≤ len + 1 := by
  simp only [sprintFrom_cons hlt, sprintFrom_full hend, MeetsFrom, List.append_nil, line_inBounds_iff hlt, linesText_take_cons]
  rw [and_comm]
  apply and_congr_left
  intro _
  have hnil : linesText ft f (smps.take 0) = [] := rfl
  rw [hnil, List.append_nil]
  constructor
  · intro hcomplete heq
    have hcut : ¬ Holds (sprintLine ft f smp mem off (len - off)).mem off (lineText ft f smp) :=
      sprintLine_cut (by omega)
    apply hcut
    have hright := (hcomplete (Nat.le_of_eq heq)).right
    rwa [hoff] at hright
  · intro hne hle
    omega

theorem sprintFrom_meets_iff {pre : List Byte} (hpre : Holds mem 0 pre) (hoff : pre.length = off) :
    MeetsFrom ft f len pre smps (sprintFrom ft f len mem off smps) ↔
      EndsWellFrom ft f len off smps := by
  induction smps generalizing mem off pre with
  | nil => simp [MeetsFrom, EndsWellFrom, sprintFrom, linesText, hpre]
  | cons smp smps ih =>
    by_cases hlt : off < len
    · rw [endsWellFrom_cons hlt]
      by_cases hend : len ≤ off + (lineText ft f smp).length
      · rw [meetsFrom_last hoff hlt hend]
        simp [endsWellFrom_full hend]
      · have hholds : Holds (sprintLine ft f smp mem off (len - off)).mem 0
            (pre ++ lineText ft f smp) := by
          apply (line_keeps hpre hoff).append
          rw [hoff, Nat.zero_add]
          exact sprintLine_holds (by omega)
        rw [← ih hholds (by simp [hoff]), sprintFrom_cons hlt]
        simp only [MeetsFrom, List.mem_append, linesText_take_cons, List.append_assoc]
        have hline : ∀ c ∈ (sprintLine ft f smp mem off (len - off)).calls, c.InBounds len :=
          (line_inBounds_iff hlt).mpr (by omega)
        constructor
        · rintro ⟨hcalls, hcomplete⟩
          exact ⟨⟨by omega, by omega⟩, fun c hc => hcalls c (.inr hc), hcomplete⟩
        · rintro ⟨-, hcalls, hcomplete⟩
          refine ⟨?_, hcomplete⟩
          rintro c (hc | hc)
          · exact hline c hc
          · exact hcalls c hc
    · rw [sprintFrom_full (by omega)]
      simp [MeetsFrom, linesText, hpre, endsWellFrom_full (Nat.le_of_not_lt hlt)]

end

/-- `sprint` keeps to its buffer, for every buffer and all samples, exactly when every line that
begins inside the buffer ends well. -/
theorem sprint_meets_iff (ft : FloatText) (f : LineFormat) (mem : Nat → Byte) (len : Nat)
    (smps : List LineSample) :
    Meets ft f len smps (sprint ft f mem len smps) ↔ EndsWell ft f len smps := by
  have hloop : MeetsFrom ft f len [] smps (sprintFrom ft f len mem 0 smps) ↔
      EndsWellFrom ft f len 0 smps :=
    sprintFrom_meets_iff (by simp [Holds]) rfl
  simp only [MeetsFrom, EndsWellFrom, List.nil_append, Nat.zero_add] at hloop
  exact hloop

/-- Any texts for floating point numbers. -/
def exampleText : FloatText := ⟨fun _ _ => ascii "0.0", fun _ _ => ascii "+0.0",
  fun _ => ascii "+0.0e+00", fun _ => 0, fun _ _ => 0⟩

def humanFormat : LineFormat :=
  ⟨.human, SampleFlags.hasTsOrigin ||| SampleFlags.hasSequence ||| SampleFlags.hasData, 17, 10,
    by decide⟩

/-- A sample with one integer. Its line is `1.000000002(7)`, a tab, `5` and a newline. -/
def exampleSample : LineSample where
  payload := ⟨7, 1, SampleFlags.hasTsOrigin ||| SampleFlags.hasSequence ||| SampleFlags.hasData, 0,
    ⟨1, 2⟩, ⟨0, 0⟩, fun _ => 5⟩
  signals := [.integer]

/-- With a buffer of 8 bytes the sequence number is written behind it, with a size of nearly
`2 ^ 64` bytes. -/
theorem sprint_leaves_buffer :
    ⟨11, 2 ^ 64 - 3⟩ ∈ (sprint exampleText humanFormat (fun _ => 0) 8 [exampleSample]).calls ∧
      ¬ Meets exampleText humanFormat 8 [exampleSample]
        (sprint exampleText humanFormat (fun _ => 0) 8 [exampleSample]) := by
  have hcall : ⟨11, 2 ^ 64 - 3⟩ ∈
      (sprint exampleText humanFormat (fun _ => 0) 8 [exampleSample]).calls := by
    decide
  refine ⟨hcall, ?_⟩
  intro hmeets
  have := hmeets.1 _ hcall
  simp [Call.InBounds] at this

end VillasNode.Line
