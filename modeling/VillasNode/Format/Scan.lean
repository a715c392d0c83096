import VillasNode.Lib.Strto
import VillasNode.Format.Line

/-!
# Reading lines

`LineFormat::sscan` of `lib/formats/line.cpp` with `sscanLine` of villas.human,
csv and tsv, and `signal_data_parse_str`. `sscanLine` moves a pointer `stop`
(`end` in the source) over the text with the functions of the C library. Behind
the bytes in memory that are given there is a NUL. The values of floating point
numbers and `time_add(time_from_double(..))` are any functions.
-/

namespace VillasNode.Line

open ByteOrder Strto

/-- What the C library makes of the text of a floating point number. -/
structure FloatScan where
  toDouble : List Byte → Value
  toFloat : List Byte → BitVec 32
  narrow : Value → BitVec 32
  /-- `time_add` of a timestamp and `time_from_double` of an offset. -/
  timeAdd : Timespec → BitVec 32 → Timespec

def FloatScan.strtod (fs : FloatScan) (ptr : Cursor) : Value × Cursor :=
  let (text, stop) := ptr.convert real
  (if text = [] then 0 else fs.toDouble text, stop)

def FloatScan.strtof (fs : FloatScan) (ptr : Cursor) : BitVec 32 × Cursor :=
  let (text, stop) := ptr.convert real
  (if text = [] then 0 else fs.toFloat text, stop)

/-- A format with the signals that `start` has set, which reads. -/
structure LineReader where
  format : LineFormat
  conv : FloatScan
  signals : Nat
  types : List SignalType
  skipFirstLine : Bool
  firstLineSkipped : Bool

/-- The prefix of comment lines, which no plugin sets to another one. -/
def comment : Byte := ch '#'

/-! ## Values -/

/-- `ret` is what `signal_data_parse_str` returns, and `stop` is `*end`. -/
structure ParsedValue where
  data : Value
  ret : Int
  stop : Cursor
  looks : List Look

/-- `std::complex<float>(real, imag)` -/
def complexValue (real imag : BitVec 32) : Value := imag ++ real

def isImaginary (b : Byte) : Bool := b = ch 'i' ∨ b = ch 'j'

def parseComplex (fs : FloatScan) (data : Value) (ptr : Cursor) : ParsedValue :=
  let (real, stop) := fs.strtod ptr
  if stop.pos = ptr.pos then ⟨data, -1, stop, [ptr.look]⟩
  else if isImaginary stop.peek then
    ⟨complexValue 0 (fs.narrow real), 0, stop.next, [ptr.look]⟩
  else if isSign stop.peek then
    let sign := stop
    let (imag, stop) := fs.strtod sign
    if stop.pos = sign.pos then ⟨data, -1, stop, [ptr.look, sign.look]⟩
    else if ¬ isImaginary stop.peek then ⟨data, -1, stop, [ptr.look, sign.look]⟩
    else ⟨complexValue (fs.narrow real) (fs.narrow imag), 0, stop.next, [ptr.look, sign.look]⟩
  else ⟨complexValue (fs.narrow real) 0, 0, stop, [ptr.look]⟩

/-- `signal_data_parse_str`, where `*end` was `stop` before. A boolean is the lowest byte. -/
def signalDataParseStr (fs : FloatScan) (data : Value) (type : SignalType) (ptr stop : Cursor) :
    ParsedValue :=
  match type with
  | .float =>
    let (f, stop) := fs.strtod ptr
    ⟨f, 0, stop, [ptr.look]⟩
  | .integer =>
    let (i, stop) := strtol ptr
    ⟨i, 0, stop, [ptr.look]⟩
  | .boolean =>
    let (b, stop) := strtol ptr
    ⟨data.extractLsb' 8 56 ++ (if b = 0 then 0#8 else 1#8), 0, stop, [ptr.look]⟩
  | .complex => parseComplex fs data ptr
  | .invalid => ⟨data, -1, stop, []⟩

/-! ## Lines -/

/-- A negative `ret` is an error. -/
structure ReadLine where
  smp : Payload
  ret : Int
  looks : List Look

/-- Where the loop over the values ends, with `length` values. -/
structure ReadValues where
  smp : Payload
  length : Nat
  stop : Cursor
  looks : List Look

section
variable (r : LineReader)

/-- The loop over the values from index `i` on, for `n` more that there is memory for. -/
def valueLoop (smp : Payload) (stop : Cursor) (looks : List Look) (i : Nat) : Nat → ReadValues
  | 0 => ⟨smp, i, stop, looks⟩
  | n + 1 =>
    if stop.peek = r.format.delimiter then ⟨smp, i, stop, looks⟩
    else
      match r.types[i]? with
      | none => ⟨smp, i, stop, looks⟩
      | some type =>
        let v := signalDataParseStr r.conv (smp.data i) type stop.next stop
        let smp := smp.setData i v.data
        let looks := looks ++ v.looks
        if v.ret ≠ 0 ∨ v.stop.pos = stop.next.pos then ⟨smp, i, v.stop, looks⟩
        else valueLoop smp v.stop looks (i + 1) n

theorem valueLoop_succ {smp : Payload} {stop : Cursor} {looks : List Look} {i n : Nat} :
    valueLoop r smp stop looks i (n + 1) =
      if stop.peek = r.format.delimiter then ⟨smp, i, stop, looks⟩
      else
        match r.types[i]? with
        | none => ⟨smp, i, stop, looks⟩
        | some type =>
          let v := signalDataParseStr r.conv (smp.data i) type stop.next stop
          if v.ret ≠ 0 ∨ v.stop.pos = stop.next.pos then
            ⟨smp.setData i v.data, i, v.stop, looks ++ v.looks⟩
          else valueLoop r (smp.setData i v.data) v.stop (looks ++ v.looks) (i + 1) n := rfl

/-- The label `out`. -/
def finishLine (v : ReadValues) : ReadLine :=
  let stop := if v.stop.peek = r.format.delimiter then v.stop.next else v.stop
  let smp : Payload := { v.smp with length := v.length }
  let smp := if 0 < smp.length then { smp with flags := smp.flags ||| SampleFlags.hasData } else smp
  ⟨smp, stop.pos, v.looks⟩

/-! `VILLASHumanFormat::sscanLine`, part by part. -/

def humanFinish (offset : BitVec 32) (v : ReadValues) : ReadLine :=
  let line := finishLine r v
  if hasFlag line.smp.flags SampleFlags.hasOffset then
    { line with
      smp :=
        { line.smp with
          received := r.conv.timeAdd line.smp.origin offset
          flags := line.smp.flags ||| SampleFlags.hasTsReceived } }
  else line

def humanValues (capacity : Nat) (smp : Payload) (offset : BitVec 32) (stop : Cursor)
    (looks : List Look) : ReadLine :=
  humanFinish r offset (valueLoop r smp stop looks 0 capacity)

def humanSequence (capacity : Nat) (smp : Payload) (offset : BitVec 32) (stop : Cursor)
    (looks : List Look) : ReadLine :=
  if stop.peek = ch '(' then
    let ptr := stop.next
    let (sequence, stop) := strtoul ptr
    let smp := { smp with sequence }
    let looks := looks ++ [ptr.look]
    if stop.pos ≠ ptr.pos then
      let smp := { smp with flags := smp.flags ||| SampleFlags.hasSequence }
      humanValues r capacity smp offset (if stop.peek = ch ')' then stop.next else stop) looks
    else ⟨smp, -5, looks⟩
  else humanValues r capacity smp offset stop looks

def humanOffset (capacity : Nat) (smp : Payload) (stop : Cursor) (looks : List Look) : ReadLine :=
  if isSign stop.peek then
    let ptr := stop
    let (offset, stop) := r.conv.strtof ptr
    let looks := looks ++ [ptr.look]
    if stop.pos ≠ ptr.pos then
      let smp := { smp with flags := smp.flags ||| SampleFlags.hasOffset }
      humanSequence r capacity smp offset stop looks
    else ⟨smp, -4, looks⟩
  else humanSequence r capacity smp 0 stop looks

/-- `(uint32_t)` of an `unsigned long`, in a `time_t` or `long`. -/
def truncated (x : BitVec 64) : BitVec 64 := (x.setWidth 32).setWidth 64

def humanNanoseconds (capacity : Nat) (smp : Payload) (stop : Cursor) (looks : List Look) :
    ReadLine :=
  if stop.peek = ch '.' then
    let ptr := stop.next
    let (nsec, stop) := strtoul ptr
    let smp := { smp with origin := { smp.origin with nsec := truncated nsec } }
    let looks := looks ++ [ptr.look]
    if stop.pos = ptr.pos then ⟨smp, -3, looks⟩
    else humanOffset r capacity smp stop looks
  else humanOffset r capacity { smp with origin := { smp.origin with nsec := 0 } } stop looks

def humanSscanLine (capacity : Nat) (buf : List Byte) (smp : Payload) : ReadLine :=
  let smp := { smp with flags := 0, signals := r.signals }
  let ptr : Cursor := ⟨0, buf⟩
  let (sec, stop) := strtoul ptr
  let smp := { smp with origin := { smp.origin with sec := truncated sec } }
  if stop.pos = ptr.pos ∨ stop.peek = r.format.delimiter then ⟨smp, -1, [ptr.look]⟩
  else
    let smp := { smp with flags := smp.flags ||| SampleFlags.hasTsOrigin }
    humanNanoseconds r capacity smp stop [ptr.look]

/-! `ColumnLineFormat::sscanLine`, column by column. The fields in front of the values end the line
when there is no number, or nothing behind it. -/

def columnEnds (ptr stop : Cursor) : Bool := stop.pos = ptr.pos ∨ stop.peek = r.format.delimiter

def columnSequence (capacity : Nat) (smp : Payload) (ptr : Cursor) (looks : List Look) : ReadLine :=
  let (sequence, stop) := strtoul ptr
  let smp := { smp with sequence }
  let looks := looks ++ [ptr.look]
  if columnEnds r ptr stop then finishLine r ⟨smp, 0, stop, looks⟩
  else
    let smp := { smp with flags := smp.flags ||| SampleFlags.hasSequence }
    finishLine r (valueLoop r smp stop looks 0 capacity)

def columnOffset (capacity : Nat) (smp : Payload) (ptr : Cursor) (looks : List Look) : ReadLine :=
  let (offset, stop) := r.conv.strtof ptr
  let looks := looks ++ [ptr.look]
  if columnEnds r ptr stop then finishLine r ⟨smp, 0, stop, looks⟩
  else
    let smp :=
      { smp with
        received := r.conv.timeAdd smp.origin offset
        flags := smp.flags ||| SampleFlags.hasTsReceived }
    columnSequence r capacity smp stop.next looks

def columnNanoseconds (capacity : Nat) (smp : Payload) (ptr : Cursor) (looks : List Look) :
    ReadLine :=
  let (nsec, stop) := strtoul ptr
  let smp := { smp with origin := { smp.origin with nsec } }
  let looks := looks ++ [ptr.look]
  if columnEnds r ptr stop then finishLine r ⟨smp, 0, stop, looks⟩
  else
    let smp := { smp with flags := smp.flags ||| SampleFlags.hasTsOrigin }
    columnOffset r capacity smp stop.next looks

def columnSscanLine (capacity : Nat) (buf : List Byte) (smp : Payload) : ReadLine :=
  let smp := { smp with flags := 0, signals := r.signals }
  let ptr : Cursor := ⟨0, buf⟩
  let (sec, stop) := strtoul ptr
  let smp := { smp with origin := { smp.origin with sec } }
  let looks := [ptr.look]
  if columnEnds r ptr stop then finishLine r ⟨smp, 0, stop, looks⟩
  else columnNanoseconds r capacity smp stop.next looks

def sscanLine (capacity : Nat) (buf : List Byte) (smp : Payload) : ReadLine :=
  match r.format.layout with
  | .human => humanSscanLine r capacity buf smp
  | .column _ => columnSscanLine r capacity buf smp

end

/-! ## Texts -/

/-- What `sscan` returns and leaves in the samples. `results` are the values that `sscanLine` has
returned for the samples that are counted. -/
structure ReadText where
  smps : List Receiver
  rbytes : Nat
  ret : Nat
  results : List Int
  looks : List Look

/-- `off += ret`, where both are a `size_t`. -/
def sizeAdd (off : Nat) (ret : Int) : Nat := ((off + ret) % 2 ^ 64).toNat

/-- `while (off < len) if (buf[++off] == delimiter) break`, where `n` is `len - off`. -/
def skipComment (delimiter : Byte) (mem : List Byte) (off : Nat) : Nat → Nat
  | 0 => off
  | n + 1 =>
    if mem.getD (off + 1) 0 = delimiter then off + 1
    else skipComment delimiter mem (off + 1) n

/-- `while (off < len) if (buf[off++] == delimiter) break`. -/
def skipLine (delimiter : Byte) (mem : List Byte) (off : Nat) : Nat → Nat
  | 0 => off
  | n + 1 =>
    if mem.getD off 0 = delimiter then off + 1 else skipLine delimiter mem (off + 1) n

section
variable (r : LineReader)

/-- A comment line is skipped up to its delimiter: where the next line begins and what was read. -/
def skipCommentAt (mem : List Byte) (len off : Nat) : Nat × List Look :=
  if mem.getD off 0 = comment then
    let stop := skipComment r.format.delimiter mem off (len - off)
    (stop, [⟨off, stop - off + 1⟩])
  else (off, [])

/-- The loop of `sscan` from the offset `off` on. -/
def sscanFrom (mem : List Byte) (len off : Nat) : List Receiver → ReadText
  | [] => ⟨[], off, 0, [], []⟩
  | smp :: smps =>
    if off < len then
      let (start, skipped) := skipCommentAt r mem len off
      if start = len then ⟨smp :: smps, start, 0, [], skipped⟩
      else
        let line := sscanLine r smp.capacity (mem.drop start) smp.payload
        let rest := sscanFrom mem len (sizeAdd start line.ret) smps
        { smps := { smp with payload := line.smp } :: rest.smps
          rbytes := rest.rbytes
          ret := rest.ret + 1
          results := line.ret :: rest.results
          looks := skipped ++ (line.looks.map fun l => ⟨start + l.start, l.size⟩) ++ rest.looks }
    else ⟨smp :: smps, off, 0, [], []⟩

/-- Where the first line that is not to be skipped begins. -/
def firstLine (mem : List Byte) (len : Nat) : Nat :=
  if r.skipFirstLine ∧ ¬ r.firstLineSkipped then skipLine r.format.delimiter mem 0 len else 0

/-- `LineFormat::sscan` of `len` bytes. -/
def sscan (mem : List Byte) (len : Nat) (smps : List Receiver) : ReadText :=
  sscanFrom r mem len (firstLine r mem len) smps

end

end VillasNode.Line
