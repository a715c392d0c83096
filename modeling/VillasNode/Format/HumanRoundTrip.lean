import Mathlib.Data.BitVec
import VillasNode.Format.RoundTrip

/-!
# Reading what was printed as villas.human

A line of villas.human ends at the first byte that is no part of it, so samples
with a timestamp come back as they were.
-/

namespace VillasNode.Line

open ByteOrder Snprintf Strto

/-! ## The front of a line -/

theorem SignedNumeral.reads {text s : List Byte} {z : Int} {e : Byte} (h : SignedNumeral text z)
    (he : isDigit e = false) (pos : Nat) :
    Reads (numberText integer) ⟨pos, text ++ e :: s⟩ text (e :: s) := by
  obtain ⟨hspaced, hconvert⟩ := h.convert (s := s) he pos
  exact ⟨_, _, by rw [numberText, hspaced, hconvert]; rfl⟩

theorem reads_marked {m : Char} {text s : List Byte} {z : Int} {e : Byte} (h : SignedNumeral text z)
    (he : isDigit e = false) (pos : Nat) :
    Reads (marked m) ⟨pos, ch m :: (text ++ e :: s)⟩ text (e :: s) :=
  (Reads.byte (by simp) pos _).bind fun _ => h.reads he _

/-- The sequence number in its parentheses. -/
def sequenceIn : Option (List Byte) → List Byte
  | none => []
  | some text => ch '(' :: (text ++ [ch ')'])

theorem reads_sequence {sequence : Option (List Byte)} (h : ∀ text ∈ sequence, ∃ n, Numeral text n)
    {e : Byte} (he : e ≠ ch '(') (pos : Nat) (s : List Byte) :
    Reads (whenNext (· = ch '(') sequencePart) ⟨pos, sequenceIn sequence ++ e :: s⟩ sequence (e :: s) := by
  cases sequence with
  | none => exact .absent (by simpa [Cursor.peek, sequenceIn] using he)
  | some text =>
    obtain ⟨n, hn⟩ := h text rfl
    have htext : sequenceIn (some text) ++ e :: s = ch '(' :: (text ++ ch ')' :: e :: s) := by
      simp [sequenceIn]
    rw [htext]
    apply Reads.whenNext (by simp [Cursor.peek])
    apply (reads_marked hn.signed (by decide) pos).bind
    intro pos
    apply (Reads.whenNext (by simp [Cursor.peek]) (.byte (by simp) pos _)).bind
    exact fun pos => .pure _ _

theorem reads_header {sec nsec : List Byte} {m n : Nat} {sequence : Option (List Byte)} {d : Byte}
    (hsec : Numeral sec m) (hnsec : Numeral nsec n) (h : ∀ text ∈ sequence, ∃ n, Numeral text n)
    (hd : d ≠ ch '.') {e : Byte} (hdigit : isDigit e = false) (hsign : isSign e = false)
    (he : e ≠ ch '(') (s : List Byte) :
    Reads (humanHeader d) ⟨0, sec ++ ch '.' :: (nsec ++ (sequenceIn sequence ++ e :: s))⟩
      ⟨sec, some nsec, none, sequence⟩ (e :: s) := by
  -- Behind the nanoseconds there is the sequence or `e`.
  obtain ⟨e', s', he', hsign', hes⟩ : ∃ e' s', isDigit e' = false ∧ isSign e' = false ∧
      sequenceIn sequence ++ e :: s = e' :: s' := by
    cases sequence with
    | none => exact ⟨e, s, hdigit, hsign, rfl⟩
    | some text => exact ⟨ch '(', _, by decide, by decide, rfl⟩
  apply (hsec.signed.reads (by decide) 0).bind
  intro pos
  apply (Reads.ensure (by simpa [Cursor.peek] using Ne.symm hd)).bind
  intro pos
  rw [hes]
  apply (Reads.whenNext (by simp [Cursor.peek]) (reads_marked hnsec.signed he' pos)).bind
  intro pos
  apply (Reads.absent (by simpa [Cursor.peek] using hsign')).bind
  intro pos
  dsimp only
  rw [← hes]
  apply (reads_sequence h he pos s).bind
  exact fun pos => .pure _ _

/-! ## Lines -/

/-- The format prints the timestamp, the sequence and the values on lines, but no offset. -/
structure HumanFormat (f : LineFormat) : Prop where
  layout : f.layout = .human
  delimiter : f.delimiter = 10
  origin : hasFlag f.flags SampleFlags.hasTsOrigin
  sequence : hasFlag f.flags SampleFlags.hasSequence
  data : hasFlag f.flags SampleFlags.hasData
  offset : ¬ hasFlag f.flags SampleFlags.hasOffset

/-- A timestamp in the range of a line of villas.human. -/
structure HumanStamped (smp : Payload) : Prop where
  origin : hasFlag smp.flags SampleFlags.hasTsOrigin
  sec : smp.origin.sec.toNat < 2 ^ 32
  nsec : smp.origin.nsec.toNat < 10 ^ 9

/-- The same sample, with a sequence exactly if there was one. -/
structure SameHumanSample (types : List SignalType) (src new : Payload) : Prop
    extends SameSample types src new where
  present : hasFlag new.flags SampleFlags.hasSequence = hasFlag src.flags SampleFlags.hasSequence

section
variable {r : LineReader} {ft : FloatText} {smp : LineSample}

def sequenceText? (s : Payload) : Option (List Byte) :=
  if hasFlag s.flags SampleFlags.hasSequence then some (decimal s.sequence.toNat) else none

theorem humanLine_eq (hf : HumanFormat r.format) (hs : HumanStamped smp.payload) :
    (lineFields ft r.format smp).flatten = decimal smp.payload.origin.sec.toNat ++ ch '.' ::
      ((decimal smp.payload.origin.nsec.toNat).leftpad 9 48 ++ (sequenceIn (sequenceText? smp.payload) ++
        (dataFields ft r.format smp (ascii "\t") 0 smp.payload.length).flatten)) := by
  have hpoint : ascii "." = [ch '.'] := by decide
  have hleft : ascii "(" = [ch '('] := by decide
  have hright : ascii ")" = [ch ')'] := by decide
  have hoffset : hasFlag r.format.flags SampleFlags.hasOffset = false := by simpa using hf.offset
  unfold lineFields humanFields sequenceText?
  simp only [hf.layout, hf.origin, hf.sequence, hf.data, hoffset, hs.origin, if_true, if_false,
    Bool.false_eq_true, false_and, true_and, hpoint, hleft, hright]
  split_ifs <;> simp [sequenceIn]

/-- The front of a printed line. -/
def printedHeader (s : Payload) : Header :=
  ⟨decimal s.origin.sec.toNat, some ((decimal s.origin.nsec.toNat).leftpad 9 48), none, sequenceText? s⟩

theorem sequenceText_numeral (s : Payload) : ∀ text ∈ sequenceText? s, ∃ n, Numeral text n := by
  intro text htext
  unfold sequenceText? at htext
  split_ifs at htext
  · cases htext
    exact ⟨_, numeral_decimal _⟩
  · cases htext

/-- Values with signals whose texts are read back in front of a tab and of the byte `e` behind the
line. -/
structure HumanReadable (r : LineReader) (ft : FloatText) (e : Byte) (smp : LineSample) : Prop where
  signals : smp.signals = r.types
  values : ∀ j < smp.payload.length, ∃ t, r.types[j]? = some t ∧
    TextBack r ft r.format.realPrecision 9 t (smp.payload.data j) ∧
      TextBack r ft r.format.realPrecision e t (smp.payload.data j)

theorem DiscreteSample.humanReadable (h : DiscreteSample r.types smp) {e : Byte} (he : isDigit e = false) :
    HumanReadable r ft e smp := by
  refine ⟨h.signals, fun j hj => ?_⟩
  obtain ⟨t, ht, hdisc⟩ := h.values j hj
  exact ⟨t, ht, textBack_discrete hdisc _ (by decide) _, textBack_discrete hdisc _ he _⟩

theorem humanLine_header (hf : HumanFormat r.format) (hs : HumanStamped smp.payload) {e : Byte}
    (he : e = 10 ∨ e = 0) (hsmp : HumanReadable r ft e smp) (b : List Byte) :
    Reads (humanHeader r.format.delimiter)
      ⟨0, (lineFields ft r.format smp).flatten ++ e :: b⟩
      (printedHeader smp.payload)
      ((dataFields ft r.format smp [9] 0 smp.payload.length).flatten ++ e :: b) := by
  have htab : ascii "\t" = [9] := by decide
  have hd : r.format.delimiter = 10 := hf.delimiter
  obtain ⟨s, hes⟩ := @dataFields_begin _ ft r.format _ 9 hsmp.signals 0 smp.payload.length
    (fun j _ hlt => (hsmp.values j (by omega)).imp fun _ ht => ht.1) e b
  have he' : (if smp.payload.length = 0 then e else 9) = 9 ∨
      (if smp.payload.length = 0 then e else 9) = 10 ∨ (if smp.payload.length = 0 then e else 9) = 0 := by
    split_ifs
    · exact .inr he
    · exact .inl rfl
  generalize (if smp.payload.length = 0 then e else 9) = e' at he' hes
  have hline : (lineFields ft r.format smp).flatten ++ e :: b =
      decimal smp.payload.origin.sec.toNat ++ ch '.' ::
        ((decimal smp.payload.origin.nsec.toNat).leftpad 9 48 ++
          (sequenceIn (sequenceText? smp.payload) ++ e' :: s)) := by
    rw [← hes]
    simp only [humanLine_eq hf hs, htab, List.append_assoc, List.cons_append]
  rw [hline, hes]
  apply reads_header (numeral_decimal _) ((numeral_decimal _).leftpad 9) (sequenceText_numeral _)
  · rw [hd]
    decide
  · rcases he' with rfl | rfl | rfl <;> decide
  · rcases he' with rfl | rfl | rfl <;> decide
  · rcases he' with rfl | rfl | rfl <;> decide

/-- What the front of a printed line leaves in the sample. -/
structure HeaderBack (src new : Payload) : Prop where
  flags : new.flags = SampleFlags.hasTsOrigin |||
    (if hasFlag src.flags SampleFlags.hasSequence then SampleFlags.hasSequence else 0)
  origin : new.origin = src.origin
  sequence : hasFlag src.flags SampleFlags.hasSequence → new.sequence = src.sequence

theorem header_printed (hs : HumanStamped smp.payload) (old : Payload) :
    HeaderBack smp.payload (r.header old (printedHeader smp.payload)) := by
  have hnsec := hs.nsec
  refine ⟨?_, ?_, fun hseq => ?_⟩
  · unfold printedHeader sequenceText?
    split_ifs <;> simp [LineReader.header, Header.flags]
  · simp only [printedHeader, LineReader.header, Option.map_some, Option.getD_some,
      (numeral_decimal _).ulongValue, ((numeral_decimal _).leftpad 9).ulongValue,
      truncated_small hs.sec, truncated_small (show smp.payload.origin.nsec.toNat < 2 ^ 32 by omega)]
  · simp only [printedHeader, LineReader.header, sequenceText?, hseq, if_true, Option.map_some,
      Option.getD_some, (numeral_decimal _).ulongValue]

theorem HeaderBack.same {start new : Payload} (hstart : HeaderBack smp.payload start)
    (hback : ReadsBack r.types smp.payload 0 smp.payload.length start new) :
    SameHumanSample r.types smp.payload (counted new smp.payload.length) ∧
      r.delayed 0 (counted new smp.payload.length) = counted new smp.payload.length := by
  obtain ⟨⟨data, hkept⟩, -, hvalues⟩ := hback
  have hflags : ∀ flag, hasFlag (counted new smp.payload.length).flags flag =
      hasFlag (if 0 < smp.payload.length then start.flags ||| SampleFlags.hasData else start.flags)
        flag := by
    intro flag
    rw [hkept]
    rfl
  have hpresent : hasFlag (counted new smp.payload.length).flags SampleFlags.hasSequence =
      hasFlag smp.payload.flags SampleFlags.hasSequence := by
    rw [hflags, hstart.flags]
    cases hseq : hasFlag smp.payload.flags SampleFlags.hasSequence with
    | true =>
      rw [if_pos rfl]
      split_ifs <;> decide
    | false =>
      rw [if_neg Bool.false_ne_true]
      split_ifs <;> decide
  refine ⟨⟨⟨fun _ => ⟨?_, ?_⟩, fun hseq => ⟨?_, ?_⟩, rfl, ?_⟩, hpresent⟩, ?_⟩
  · rw [hflags, hstart.flags]
    split_ifs <;> decide
  · rw [← hstart.origin, hkept]
    rfl
  · rw [hpresent, hseq]
  · rw [← hstart.sequence hseq, hkept]
    rfl
  · intro j hj t ht
    exact hvalues j t (Nat.zero_le j) (by omega) ht
  · rw [LineReader.delayed, hflags, hstart.flags, if_neg]
    split_ifs <;> decide

theorem humanSscanLine_values (hf : HumanFormat r.format) (hs : HumanStamped smp.payload) {e : Byte}
    (he : e = 10 ∨ e = 0) (hsmp : HumanReadable r ft e smp) (m : Nat) (b : List Byte) (old : Payload) :
    let L := (lineFields ft r.format smp).flatten
    ∃ start new looks, humanSscanLine r (smp.payload.length + m) (L ++ e :: b) old =
        humanFinish r 0 (valueLoop r new ⟨L.length, e :: b⟩ looks smp.payload.length m) ∧
      HeaderBack smp.payload start ∧ ReadsBack r.types smp.payload 0 smp.payload.length start new := by
  intro L
  have hd : r.format.delimiter = 10 := hf.delimiter
  obtain ⟨looks, pos, hread⟩ := humanLine_header (r := r) hf hs he hsmp b
  have hpos := (exact_humanHeader hread).2
  rcases follows_humanHeader (r := r) (L ++ e :: b) with ⟨hnone, -⟩ | ⟨u, hu, heq⟩
  · rw [hread] at hnone
    cases hnone
  rw [hread] at hu
  cases hu
  have hstart := @header_printed r _ hs old
  dsimp only at heq
  generalize r.header old (printedHeader smp.payload) = start at heq hstart
  obtain ⟨new, looks', hloop, hback⟩ := @valueLoop_values r ft r.format smp 9 e (by rw [hd]; decide)
    hsmp.signals 0 smp.payload.length m (fun j _ hlt => hsmp.values j (by omega)) start pos b looks
  have hlen : pos + (dataFields ft r.format smp [9] 0 smp.payload.length).flatten.length = L.length := by
    simp only [L, List.length_append, List.length_cons] at hpos ⊢
    omega
  rw [hlen, Nat.zero_add] at hloop
  refine ⟨start, new, looks', ?_, hstart, hback⟩
  rw [heq, humanValues, hloop]
  rfl

theorem humanSscanLine_printed (hf : HumanFormat r.format) (hs : HumanStamped smp.payload)
    (hsmp : DiscreteSample r.types smp) {capacity : Nat} (hcapacity : smp.payload.length ≤ capacity)
    (b : List Byte) (old : Payload) :
    let L := (lineFields ft r.format smp).flatten
    ∃ new looks, humanSscanLine r capacity (L ++ r.format.delimiter :: b) old =
      ⟨new, (L.length + 1 : Nat), looks⟩ ∧ SameHumanSample r.types smp.payload new := by
  intro L
  obtain ⟨m, rfl⟩ := Nat.exists_eq_add_of_le hcapacity
  have hdigit : isDigit r.format.delimiter = false := by
    rw [hf.delimiter]
    decide
  obtain ⟨start, new, looks, heq, hstart, hback⟩ := humanSscanLine_values (r := r) hf hs
    (.inl hf.delimiter) (@DiscreteSample.humanReadable r ft smp hsmp _ hdigit) m b old
  obtain ⟨hsame, hdelayed⟩ := hstart.same hback
  refine ⟨counted new smp.payload.length, looks, ?_, hsame⟩
  rw [heq, valueLoop_end rfl, humanFinish_eq, finishLine_end rfl]
  exact congrArg (ReadLine.mk · _ _) hdelayed

theorem humanLine_head (hf : HumanFormat r.format) (hs : HumanStamped smp.payload) :
    ∃ c text, (lineFields ft r.format smp).flatten = c :: text ∧ isDigit c := by
  obtain ⟨c, text, htext⟩ :=
    List.exists_cons_of_ne_nil (numeral_decimal smp.payload.origin.sec.toNat).ne
  have hdigit := (numeral_decimal smp.payload.origin.sec.toNat).digits c (by simp [htext])
  have hline := @humanLine_eq r ft smp hf hs
  rw [htext, List.cons_append] at hline
  exact ⟨c, _, hline, hdigit⟩

theorem digit_ne_comment {c : Byte} (h : isDigit c) : c ≠ comment := by
  rintro rfl
  exact absurd h (by decide)

theorem humanLine_reads (hf : HumanFormat r.format) (hs : HumanStamped smp.payload)
    (hsmp : DiscreteSample r.types smp) {capacity : Nat} (hcapacity : smp.payload.length ≤ capacity) :
    LineReads (SameHumanSample r.types) r ft smp capacity := by
  constructor
  · intro b
    obtain ⟨c, text, htext, hdigit⟩ := @humanLine_head r ft smp hf hs
    rw [lineText, htext]
    exact digit_ne_comment hdigit
  · intro b old
    obtain ⟨new, looks, hread, hsame⟩ :=
      humanSscanLine_printed (r := r) hf hs hsmp hcapacity b old
    refine ⟨new, looks, ?_, hsame⟩
    rw [lineText_length, ← hread, sscanLine, hf.layout, lineText, List.append_assoc]
    rfl

end

/-- Samples that are printed as villas.human into a large enough buffer are read back, and all
bytes are consumed. -/
theorem human_roundTrip {r : LineReader} {ft : FloatText} {mem : Nat → Byte} {len : Nat}
    {smps : List LineSample} {rcvs : List Receiver} (hf : HumanFormat r.format)
    (hfirst : r.firstLines = 0)
    (hsmps : ∀ smp ∈ smps, HumanStamped smp.payload ∧ DiscreteSample r.types smp)
    (hrcvs : Fits smps rcvs) (hlen : (linesText ft r.format smps).length < len)
    (hsize : len < 2 ^ 64) :
    RoundTrip (SameHumanSample r.types) r ft mem len smps rcvs ∧
      let o := sprint ft r.format mem len smps
      (sscan r ((List.range len).map o.mem) o.wbytes rcvs).rbytes = o.wbytes := by
  apply roundTrip_of_lines hfirst hrcvs.length _ hlen hsize
  intro p hp
  obtain ⟨hs, hsmp⟩ := hsmps p.1 (List.of_mem_zip hp).1
  exact humanLine_reads hf hs hsmp (hrcvs.capacity p hp)

/-- A sample without values and one with a negative value and a false boolean. -/
theorem human_roundTrip_two :
    let types := [SignalType.integer, .boolean]
    let stamped := SampleFlags.hasTsOrigin ||| SampleFlags.hasSequence
    let smps : List LineSample :=
      [⟨⟨2 ^ 64 - 1, 0, stamped, 0, ⟨1, 2⟩, ⟨0, 0⟩, fun _ => 0⟩, types⟩,
        ⟨⟨0, 2, SampleFlags.hasTsOrigin, 0, ⟨2 ^ 32 - 1, 999999999⟩, ⟨0, 0⟩,
          fun i => if i = 0 then -5 else 0⟩, types⟩]
    let r : LineReader := ⟨humanFormat, exampleScan, 2, types, false, false⟩
    RoundTrip (SameHumanSample types) r exampleText (fun _ => 0) 100 smps
        [exampleReceiver, exampleReceiver] ∧
      let o := sprint exampleText humanFormat (fun _ => 0) 100 smps
      (sscan r ((List.range 100).map o.mem) o.wbytes [exampleReceiver, exampleReceiver]).rbytes =
        o.wbytes := by
  intro types stamped smps r
  have hfits : Fits smps [exampleReceiver, exampleReceiver] := by
    constructor
    · decide
    · simp [smps, exampleReceiver]
  apply human_roundTrip (r := r) (by constructor <;> decide) rfl _ hfits (by decide +kernel) (by decide)
  intro smp hsmp
  simp only [smps, List.mem_cons, List.not_mem_nil, or_false] at hsmp
  rcases hsmp with rfl | rfl
  · refine ⟨by constructor <;> decide, rfl, ?_⟩
    intro j hj
    cases hj
  · refine ⟨by constructor <;> decide, rfl, ?_⟩
    intro j hj
    obtain rfl | rfl : j = 0 ∨ j = 1 := by
      simp only at hj
      omega
    · exact ⟨.integer, rfl, .inl rfl⟩
    · exact ⟨.boolean, rfl, .inr rfl⟩

end VillasNode.Line
