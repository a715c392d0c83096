import VillasNode.Format.RoundTrip

/-!
# Reading what was printed as csv or tsv

The columns of the timestamp and the sequence are read back, unless there is
`nan` in them: the parser does not get past it. Without values the line ends
too early for the sequence.
-/

namespace VillasNode.Line

open ByteOrder Snprintf Strto

/-- A sample with everything that the columns need. -/
structure Complete (smp : Payload) : Prop where
  origin : hasFlag smp.flags SampleFlags.hasTsOrigin
  sequence : hasFlag smp.flags SampleFlags.hasSequence
  values : 0 < smp.length

instance (smp : Payload) : Decidable (Complete smp) :=
  decidable_of_iff (hasFlag smp.flags SampleFlags.hasTsOrigin ∧
    hasFlag smp.flags SampleFlags.hasSequence ∧ 0 < smp.length)
    ⟨fun ⟨horigin, hsequence, hvalues⟩ => ⟨horigin, hsequence, hvalues⟩,
      fun ⟨horigin, hsequence, hvalues⟩ => ⟨horigin, hsequence, hvalues⟩⟩

/-- Columns whose separator and delimiter are different and no part of a number. -/
structure ColumnFormat (f : LineFormat) (c : Byte) : Prop where
  layout : f.layout = .column c
  separator : inNumber c = false
  delimiter : inNumber f.delimiter = false
  ne : c ≠ f.delimiter

/-- `strtof` takes all of what `%.09f` prints. -/
def FloatText.Readable (ft : FloatText) : Prop := ∀ v, spaced real (ft.fixed 9 v) = some []

theorem digit_inNumber {b : Byte} (h : inNumber b = false) : isDigit b = false := by
  unfold inNumber at h
  simp only [decide_eq_false_iff_not, not_or] at h
  simpa using h.2.1

section
variable {r : LineReader} {ft : FloatText} {smp : LineSample} {c : Byte}

def offsetText (ft : FloatText) (s : Payload) : List Byte :=
  if hasFlag s.flags SampleFlags.hasTsReceived then ft.fixed 9 (ft.timeDelta s.origin s.received)
  else ascii "nan"

def sequenceColumn (s : Payload) : List Byte :=
  if hasFlag s.flags SampleFlags.hasSequence then decimal s.sequence.toNat else ascii "nan"

/-- A line up to the column of the sequence. -/
def columnFront (ft : FloatText) (c : Byte) (s : Payload) : List Byte :=
  decimalPadded 0 s.origin.sec.toInt ++ c ::
    (decimalPadded 9 s.origin.nsec.toInt ++ c :: (offsetText ft s ++ [c]))

theorem columnLine_eq (hf : ColumnFormat r.format c)
    (horigin : hasFlag smp.payload.flags SampleFlags.hasTsOrigin) :
    lineText ft r.format smp = columnFront ft c smp.payload ++ (sequenceColumn smp.payload ++
      ((dataFields ft r.format smp [c] 0 smp.payload.length).flatten ++ [r.format.delimiter])) := by
  unfold lineText lineFields columnFields columnFront offsetText sequenceColumn
  simp only [hf.layout, horigin, if_true]
  split_ifs <;> simp

theorem columnLine_nan (hf : ColumnFormat r.format c)
    (horigin : ¬ hasFlag smp.payload.flags SampleFlags.hasTsOrigin) :
    ∃ s, lineText ft r.format smp = ascii "nan" ++ c :: s := by
  unfold lineText lineFields columnFields
  simp only [hf.layout, horigin]
  exact ⟨_, by simp; rfl⟩

theorem readable_offsetText (hft : ft.Readable) (s : Payload) :
    spaced real (offsetText ft s) = some [] := by
  unfold offsetText
  split_ifs
  · exact hft _
  · decide

/-! ## The front of a line -/

theorem columnField_reads {f : Scan} {set mark : List Byte → Payload → Payload}
    {next : Payload → Cursor → List Look → ReadLine} {text t s : List Byte} {p : Nat} {e : Byte}
    (hconvert : (⟨p, text ++ e :: s⟩ : Cursor).convert f = (t, ⟨p + text.length, e :: s⟩))
    (hne : text ≠ []) (he : e ≠ r.format.delimiter) (old : Payload) (looks : List Look) :
    columnField r f set mark next old ⟨p, text ++ e :: s⟩ looks =
      next (mark t (set t old)) ⟨p + text.length, e :: s⟩
        (looks ++ [(⟨p, text ++ e :: s⟩ : Cursor).look]) := by
  have hmoved : p < p + text.length := Nat.lt_add_of_pos_right (List.length_pos_iff.mpr hne)
  rw [columnField_eq looks hconvert, if_neg (not_columnEnds hmoved he s)]

theorem convert_offset (hft : ft.Readable) (hc : inNumber c = false) (s : Payload) (p : Nat)
    (rest : List Byte) :
    ∃ t, (⟨p, offsetText ft s ++ c :: rest⟩ : Cursor).convert real =
      (t, ⟨p + (offsetText ft s).length, c :: rest⟩) := by
  have hs := readable_offsetText hft s
  refine ⟨token (offsetText ft s) [], ?_⟩
  exact convert_line moves_real hs (spaced_line (bounded_real hc) rfl hs)

/-- A sample with its timestamp, in front of the column of the sequence. -/
structure Stamped (src smp : Payload) : Prop where
  flags : smp.flags = SampleFlags.hasTsOrigin ||| SampleFlags.hasTsReceived
  origin : smp.origin = src.origin

theorem columnSscanLine_front (hf : ColumnFormat r.format c) (hft : ft.Readable) (capacity : Nat)
    (s : Payload) (rest : List Byte) (old : Payload) :
    ∃ smp looks, Stamped s smp ∧ columnSscanLine r capacity (columnFront ft c s ++ rest) old =
      columnField r integer sequenceText sequenceMark (valuesNext r capacity) smp
        ⟨(columnFront ft c s).length, rest⟩ looks := by
  have hdigit := digit_inNumber hf.separator
  have hsec := signedNumeral_decimalPadded 0 s.origin.sec.toInt
  have hnsec := signedNumeral_decimalPadded 9 s.origin.nsec.toInt
  unfold columnFront
  generalize decimalPadded 0 s.origin.sec.toInt = sec at hsec
  generalize decimalPadded 9 s.origin.nsec.toInt = nsec at hnsec
  have hoffset : offsetText ft s ≠ [] := by
    intro hnil
    have hread := readable_offsetText hft s
    rw [hnil] at hread
    exact absurd hread (by decide)
  obtain ⟨t, ht⟩ := convert_offset hft hf.separator s (sec.length + 1 + nsec.length + 1) rest
  have hlen : (sec ++ c :: (nsec ++ c :: (offsetText ft s ++ [c]))).length =
      sec.length + 1 + nsec.length + 1 + (offsetText ft s).length + 1 := by
    simp only [List.length_append, List.length_cons, List.length_nil]
    omega
  rw [hlen]
  simp only [List.append_assoc, List.cons_append, List.nil_append]
  rw [columnSscanLine_eq, columnField_reads ((hsec.convert hdigit 0).2) hsec.ne hf.ne, nsecNext,
    Nat.zero_add]
  simp only [Cursor.next, List.tail_cons]
  rw [columnField_reads ((hnsec.convert hdigit _).2) hnsec.ne hf.ne, offsetNext]
  simp only [Cursor.next, List.tail_cons]
  rw [columnField_reads ht hoffset hf.ne, sequenceNext]
  refine ⟨_, _, ⟨?_, ?_⟩, rfl⟩
  · simp only [offsetMark, nsecMark, nsecText, secText]
    decide
  · simp only [offsetMark, nsecMark, nsecText, secText, hsec.ulongValue, hnsec.ulongValue]

/-! ## Complete samples -/

theorem SignedNumeral.head {text : List Byte} {z : Int} (h : SignedNumeral text z) (b : List Byte) :
    (text ++ b).headD 0 ≠ comment := by
  rcases h with ⟨-, h⟩ | ⟨-, ds, rfl, -⟩
  · obtain ⟨digit, ds, rfl⟩ := List.exists_cons_of_ne_nil h.ne
    have hdigit : isDigit digit := h.digits digit List.mem_cons_self
    rintro rfl
    exact absurd hdigit (by decide)
  · exact (by decide : ch '-' ≠ comment)

theorem columnLine_head (hf : ColumnFormat r.format c) (b : List Byte) :
    (lineText ft r.format smp ++ b).headD 0 ≠ comment := by
  by_cases horigin : hasFlag smp.payload.flags SampleFlags.hasTsOrigin
  · rw [columnLine_eq hf horigin, columnFront]
    simp only [List.append_assoc]
    exact (signedNumeral_decimalPadded 0 _).head _
  · obtain ⟨s, hs⟩ := columnLine_nan hf horigin
    rw [hs]
    exact (by decide : ch 'n' ≠ comment)

theorem columnLine_reads (hf : ColumnFormat r.format c) (hft : ft.Readable)
    (hcomplete : Complete smp.payload) (hsmp : DiscreteSample r.types smp) {capacity : Nat}
    (hcapacity : smp.payload.length ≤ capacity) :
    LineReads (SameSample r.types) r ft smp capacity := by
  have hdigit := digit_inNumber hf.separator
  have hline := @columnLine_eq _ ft _ _ hf hcomplete.origin
  constructor
  · exact columnLine_head hf
  · intro b old
    -- The values begin with a separator.
    obtain ⟨s, hs⟩ : ∃ s, (dataFields ft r.format smp [c] 0 smp.payload.length).flatten ++
        r.format.delimiter :: b = c :: s := by
      have hbegin := @dataFields_begin _ ft r.format _ c hsmp.signals 0 smp.payload.length
        (fun j _ hlt => (hsmp.values j (by omega)).imp fun _ ht => ht.1) r.format.delimiter b
      rwa [if_neg (Nat.ne_of_gt hcomplete.values)] at hbegin
    have hseq : sequenceColumn smp.payload = decimal smp.payload.sequence.toNat :=
      if_pos hcomplete.sequence
    have hnumeral := numeral_decimal smp.payload.sequence.toNat
    obtain ⟨front, looks, hstamped, hfront⟩ := columnSscanLine_front hf hft capacity smp.payload
      (decimal smp.payload.sequence.toNat ++ c :: s) old
    rw [columnField_reads ((hnumeral.signed.convert hdigit _).2) hnumeral.ne hf.ne,
      valuesNext] at hfront
    obtain ⟨new, looks', hloop, ⟨data, hkept⟩, -, hvalues⟩ := valueLoop_printed (r := r)
      (f := r.format) hdigit hf.ne (digit_inNumber hf.delimiter) hsmp.signals (i := 0)
      hcapacity (fun j _ hlt => hsmp.values j (by omega))
      (sequenceMark (decimal smp.payload.sequence.toNat)
        (sequenceText (decimal smp.payload.sequence.toNat) front))
      ((columnFront ft c smp.payload).length + (decimal smp.payload.sequence.toNat).length) b
      (looks ++ [(⟨(columnFront ft c smp.payload).length,
        decimal smp.payload.sequence.toNat ++ c :: s⟩ : Cursor).look])
    rw [hs, Nat.zero_add] at hloop
    rw [hloop, finishLine_end rfl] at hfront
    have hflags : (counted new smp.payload.length).flags = SampleFlags.hasTsOrigin |||
        SampleFlags.hasTsReceived ||| SampleFlags.hasSequence ||| SampleFlags.hasData := by
      rw [counted, if_pos hcomplete.values, hkept, ← hstamped.flags]
      rfl
    refine ⟨counted new smp.payload.length, looks', ?_, ?_⟩
    · have htext : lineText ft r.format smp ++ b = columnFront ft c smp.payload ++
          (decimal smp.payload.sequence.toNat ++ c :: s) := by
        rw [hline, hseq, ← hs]
        simp only [List.append_assoc, List.singleton_append]
      have hlen : (lineText ft r.format smp).length = (columnFront ft c smp.payload).length +
          (decimal smp.payload.sequence.toNat).length +
          (dataFields ft r.format smp [c] 0 smp.payload.length).flatten.length + 1 := by
        rw [hline, hseq]
        simp only [List.length_append, List.length_singleton]
        omega
      rw [htext, hlen, sscanLine, hf.layout]
      exact hfront
    · refine ⟨fun _ => ⟨?_, ?_⟩, fun _ => ⟨?_, ?_⟩, rfl, ?_⟩
      · rw [hflags]
        decide
      · rw [← hstamped.origin, counted, hkept]
        rfl
      · rw [hflags]
        decide
      · rw [counted, hkept]
        exact hnumeral.ulongValue
      · intro j hj t ht
        exact hvalues j t (Nat.zero_le j) (by omega) ht

/-! ## Incomplete samples -/

/-- A text at which no number begins, nor a line. -/
structure Stuck (r : LineReader) (s : List Byte) : Prop where
  number : spaced integer s = none
  delimiter : s.headD 0 ≠ r.format.delimiter
  comment : s.headD 0 ≠ comment

theorem stuck_nan (hf : ColumnFormat r.format c) (s : List Byte) : Stuck r (ascii "nan" ++ s) := by
  refine ⟨rfl, ?_, (by decide : ch 'n' ≠ comment)⟩
  intro h
  have hd := hf.delimiter
  rw [← h] at hd
  cases hd

theorem columnField_stuck {set mark : List Byte → Payload → Payload}
    {next : Payload → Cursor → List Look → ReadLine} {s : List Byte} (h : Stuck r s) (p : Nat)
    (old : Payload) (looks : List Look) :
    (columnField r integer set mark next old ⟨p, s⟩ looks).ret = p := by
  have hconvert : (⟨p, s⟩ : Cursor).convert integer = ([], ⟨p, s⟩) := convert_none (c := ⟨p, s⟩) h.number
  have hends : columnEnds r ⟨p, s⟩ ⟨p, s⟩ := by simp [columnEnds]
  rw [columnField_eq looks hconvert, if_pos hends]
  unfold finishLine
  rw [if_neg (show (⟨p, s⟩ : Cursor).peek ≠ r.format.delimiter from h.delimiter)]

theorem columnField_last {set mark : List Byte → Payload → Payload}
    {next : Payload → Cursor → List Look → ReadLine} {text s : List Byte} {z : Int}
    (h : SignedNumeral text z) (hd : inNumber r.format.delimiter = false) (p : Nat) (old : Payload)
    (looks : List Look) :
    (columnField r integer set mark next old ⟨p, text ++ r.format.delimiter :: s⟩ looks).smp.flags =
      (set text old).flags := by
  rw [columnField_eq looks (h.convert (digit_inNumber hd) p).2, if_pos (columnEnds_delimiter ..),
    finishLine_end rfl]
  rfl

theorem sscanFrom_stuck (hf : ColumnFormat r.format c) {mem : List Byte} {len off : Nat}
    (h : Stuck r (mem.drop off)) (hoff : off < len) (hsize : len < 2 ^ 64) (rcvs : List Receiver) :
    (sscanFrom r mem len off rcvs).ret = rcvs.length := by
  induction rcvs with
  | nil => rfl
  | cons rcv rcvs ih =>
    have hline : (sscanLine r rcv.capacity (mem.drop off) rcv.payload).ret = (0 : Nat) := by
      rw [sscanLine, hf.layout]
      dsimp only
      rw [columnSscanLine_eq]
      exact columnField_stuck h 0 _ _
    have hstays : sizeAdd off (0 : Nat) = off := sizeAdd_of_lt (by omega)
    obtain ⟨hret, -⟩ := sscanFrom_uncommented h.comment hoff rcv rcvs
    rw [hret, hline, hstays, ih, List.length_cons]

/-- The parser is stuck in front of this line or inside it, or the sequence is lost. -/
def Spoilt (r : LineReader) (capacity : Nat) (src old : Payload) (L b : List Byte) : Prop :=
  let line := sscanLine r capacity (L ++ b) old
  Stuck r (L ++ b) ∨
    (∃ p : Nat, p < L.length ∧ line.ret = p ∧ Stuck r ((L ++ b).drop p)) ∨
    (hasFlag src.flags SampleFlags.hasSequence ∧
      ¬ hasFlag line.smp.flags SampleFlags.hasSequence)

theorem columnLine_spoilt (hf : ColumnFormat r.format c) (hft : ft.Readable)
    (hincomplete : ¬ Complete smp.payload) (capacity : Nat) (b : List Byte) (old : Payload) :
    Spoilt r capacity smp.payload old (lineText ft r.format smp) b := by
  by_cases horigin : hasFlag smp.payload.flags SampleFlags.hasTsOrigin
  · refine .inr ?_
    have hline := @columnLine_eq _ ft _ _ hf horigin
    by_cases hsequence : hasFlag smp.payload.flags SampleFlags.hasSequence
    · -- The delimiter is right behind the sequence.
      have hzero : smp.payload.length = 0 :=
        Nat.eq_zero_of_not_pos fun hpos => hincomplete ⟨horigin, hsequence, hpos⟩
      have hseq : sequenceColumn smp.payload = decimal smp.payload.sequence.toNat := if_pos hsequence
      rw [hseq, hzero] at hline
      have htext : lineText ft r.format smp ++ b = columnFront ft c smp.payload ++
          (decimal smp.payload.sequence.toNat ++ r.format.delimiter :: b) := by
        rw [hline]
        simp only [dataFields, List.flatten_nil, List.nil_append, List.append_assoc,
          List.singleton_append]
      obtain ⟨front, looks, hstamped, hfront⟩ := columnSscanLine_front hf hft capacity smp.payload
        (decimal smp.payload.sequence.toNat ++ r.format.delimiter :: b) old
      refine .inr ⟨hsequence, ?_⟩
      rw [htext, sscanLine, hf.layout]
      dsimp only
      rw [hfront, columnField_last (numeral_decimal _).signed hf.delimiter, sequenceText, hstamped.flags]
      decide
    · have hseq : sequenceColumn smp.payload = ascii "nan" := if_neg hsequence
      rw [hseq] at hline
      have htext : ∃ s, lineText ft r.format smp ++ b =
          columnFront ft c smp.payload ++ (ascii "nan" ++ s) := by
        rw [hline]
        simp only [List.append_assoc]
        exact ⟨_, rfl⟩
      obtain ⟨s, hs⟩ := htext
      have hstuck := stuck_nan hf s
      obtain ⟨front, looks, -, hfront⟩ := columnSscanLine_front hf hft capacity smp.payload
        (ascii "nan" ++ s) old
      refine .inl ⟨(columnFront ft c smp.payload).length, ?_, ?_, ?_⟩
      · rw [hline]
        simp only [List.length_append, List.length_singleton]
        omega
      · rw [hs, sscanLine, hf.layout]
        dsimp only
        rw [hfront]
        exact columnField_stuck hstuck _ _ _
      · rw [hs, List.drop_left]
        exact hstuck
  · obtain ⟨s, hs⟩ := columnLine_nan hf horigin
    refine .inl ?_
    rw [hs, List.append_assoc]
    exact stuck_nan hf _

/-- With an incomplete sample and one receiver more than samples, there are too many samples or one
without its sequence. -/
theorem not_roundTrip (hf : ColumnFormat r.format c) (hft : ft.Readable) (hfirst : r.firstLines = 0)
    {mem : Nat → Byte} {len : Nat} {smps good rest : List LineSample} {rcvs : List Receiver}
    (hsplit : smps = good ++ smp :: rest) (hincomplete : ¬ Complete smp.payload)
    (hgood : ∀ smp ∈ good, Complete smp.payload) (hdiscrete : ∀ smp ∈ smps, DiscreteSample r.types smp)
    (hfits : Fits smps rcvs) (hmore : rcvs.length = smps.length + 1)
    (hlen : (linesText ft r.format smps).length < len) (hsize : len < 2 ^ 64) :
    ¬ RoundTrip (SameSample r.types) r ft mem len smps rcvs := by
  rintro ⟨-, hscanned⟩
  obtain ⟨-, hwbytes, behind, hbuf⟩ := sprint_complete (f := r.format) hlen
  dsimp only at hscanned
  rw [hbuf, hwbytes, sscan, firstLine_zero hfirst] at hscanned
  obtain ⟨hret, hsame⟩ := hscanned
  have htext : linesText ft r.format smps =
      linesText ft r.format good ++ (lineText ft r.format smp ++ linesText ft r.format rest) := by
    simp [hsplit, linesText]
  have hlength : smps.length = good.length + (rest.length + 1) := by simp [hsplit]
  have hmem : linesText ft r.format smps ++ behind = [] ++ (linesText ft r.format good ++
      (lineText ft r.format smp ++ (linesText ft r.format rest ++ behind))) := by
    simp [htext]
  -- The receiver of the first incomplete sample.
  obtain ⟨rcv, rcvs', hrcvs⟩ : ∃ rcv rcvs', rcvs.drop good.length = rcv :: rcvs' :=
    List.exists_cons_of_ne_nil fun hnil => by
      have := congrArg List.length hnil
      rw [List.length_drop, List.length_nil] at this
      omega
  have hrcvs' : rcvs'.length = rest.length + 1 := by
    have := congrArg List.length hrcvs
    rw [List.length_drop, List.length_cons] at this
    omega
  have hreads : ∀ p ∈ good.zip rcvs, LineReads (SameSample r.types) r ft p.1 p.2.capacity := by
    intro p hp
    have hp' := (List.of_mem_zip hp).1
    have hfits' : Fits good rcvs := (hsplit ▸ hfits).left
    exact columnLine_reads hf hft (hgood p.1 hp')
      (hdiscrete p.1 (by rw [hsplit]; exact List.mem_append_left _ hp')) (hfits'.capacity p hp)
  obtain ⟨done, hdone, hret', -, hsmps⟩ := @sscanFrom_lines _ r _ _
    (linesText ft r.format smps).length _ _ _ _ (by omega) hreads hmem
    (by rw [htext, List.nil_append, List.length_append]; omega) (by omega)
  rw [hrcvs, List.nil_append, List.length_nil] at hret' hsmps
  rw [hret'] at hret
  have hoff : (linesText ft r.format good).length < (linesText ft r.format smps).length := by
    rw [htext, List.length_append, List.length_append, lineText_length]
    omega
  have hdrop : (linesText ft r.format smps ++ behind).drop (linesText ft r.format good).length =
      lineText ft r.format smp ++ (linesText ft r.format rest ++ behind) := by
    rw [hmem, List.nil_append, List.drop_left]
  obtain ⟨hstep, -, hread⟩ := sscanFrom_uncommented (r := r)
    (by rw [hdrop]; exact columnLine_head hf _) hoff rcv
    rcvs'
  rcases columnLine_spoilt hf hft hincomplete rcv.capacity (linesText ft r.format rest ++ behind)
    rcv.payload with hstuck | ⟨p, hp, hline, hstuck⟩ | ⟨hsequence, hlost⟩
  · rw [← hdrop] at hstuck
    rw [sscanFrom_stuck hf hstuck hoff (by omega), List.length_cons] at hret
    omega
  · rw [← hdrop, List.drop_drop] at hstuck
    have hle : (linesText ft r.format good).length + p < (linesText ft r.format smps).length := by
      rw [htext, List.length_append, List.length_append]
      omega
    rw [hstep, hdrop, hline, sizeAdd_of_lt (by omega), sscanFrom_stuck hf hstuck hle (by omega)] at hret
    omega
  · rw [hsmps, hread, hdrop, hlength, hdone.length_eq, List.take_length_add_append, List.take_succ_cons,
      hsplit] at hsame
    have hrest := List.forall₂_drop good.length hsame
    rw [List.drop_left, hdone.length_eq, List.drop_left, List.forall₂_cons] at hrest
    exact hlost (hrest.1.sequence hsequence).1

end

/-- Samples that are printed as csv or tsv into a large enough buffer are read back, whatever the
number of receivers, exactly when all of them are complete. -/
theorem column_roundTrip_iff {r : LineReader} {ft : FloatText} {c : Byte} {mem : Nat → Byte} {len : Nat}
    {smps : List LineSample} (hf : ColumnFormat r.format c) (hft : ft.Readable)
    (hfirst : r.firstLines = 0) (hdiscrete : ∀ smp ∈ smps, DiscreteSample r.types smp)
    (hlen : (linesText ft r.format smps).length < len) (hsize : len < 2 ^ 64) :
    (∀ rcvs, Fits smps rcvs → RoundTrip (SameSample r.types) r ft mem len smps rcvs) ↔
      ∀ smp ∈ smps, Complete smp.payload := by
  constructor
  · intro h
    by_contra hnot
    have hsome : (smps.find? fun smp => ¬ Complete smp.payload).isSome := by
      rw [List.find?_isSome]
      simpa using hnot
    obtain ⟨smp, hfind⟩ := Option.isSome_iff_exists.mp hsome
    obtain ⟨hincomplete, good, rest, hsplit, hgood⟩ := List.find?_eq_some_iff_append.mp hfind
    have hfits : Fits smps (List.replicate (smps.length + 1)
        ⟨(smps.map fun smp => smp.payload.length).max?.getD 0, smp.payload⟩) := by
      refine ⟨by simp, ?_⟩
      intro p hp
      obtain ⟨hp', hrcv⟩ := List.of_mem_zip hp
      rw [List.eq_of_mem_replicate hrcv]
      exact List.le_max?_getD_of_mem (List.mem_map_of_mem hp')
    exact not_roundTrip hf hft hfirst hsplit (by simpa using hincomplete) (by simpa using hgood)
      hdiscrete hfits (List.length_replicate ..) hlen hsize (h _ hfits)
  · intro h rcvs hfits
    apply (roundTrip_of_lines hfirst hfits.length _ hlen hsize).1
    intro p hp
    have hp' := (List.of_mem_zip hp).1
    exact columnLine_reads hf hft (h p.1 hp') (hdiscrete p.1 hp') (hfits.capacity p hp)

def csvFormat : LineFormat := { humanFormat with layout := .column (ch ',') }

def csvReader : LineReader := { exampleReader with format := csvFormat }

theorem columnFormat_csv : ColumnFormat csvFormat (ch ',') := by
  constructor <;> decide

theorem column_roundTrip_complete :
    RoundTrip (SameSample [.integer]) csvReader exampleText (fun _ => 0) 100 [exampleSample]
      [exampleReceiver] := by
  have hfits : Fits [exampleSample] [exampleReceiver] := by
    constructor
    · decide
    · simp [exampleSample, exampleReceiver]
  have hdiscrete : ∀ smp ∈ [exampleSample], DiscreteSample csvReader.types smp := by
    intro smp hsmp
    rw [List.mem_singleton] at hsmp
    subst hsmp
    refine ⟨rfl, ?_⟩
    intro j hj
    obtain rfl : j = 0 := Nat.lt_one_iff.mp hj
    exact ⟨.integer, rfl, .inl rfl⟩
  have hiff := @column_roundTrip_iff csvReader exampleText (ch ',') (fun _ => 0) 100 _
    columnFormat_csv (fun _ => rfl) rfl hdiscrete (by decide) (by decide)
  exact hiff.mpr (by decide) _ hfits

/-- A sample without a sequence number loses its value, and the next sample is read from the rest of
its line. -/
theorem column_not_roundTrip :
    let flags := SampleFlags.hasTsOrigin ||| SampleFlags.hasData
    let smp : LineSample := { exampleSample with payload := { exampleSample.payload with flags } }
    Fits [smp] [exampleReceiver, exampleReceiver] ∧
      ¬ RoundTrip (SameSample [.integer]) csvReader exampleText (fun _ => 0) 100 [smp]
        [exampleReceiver, exampleReceiver] := by
  intro flags smp
  refine ⟨⟨by decide, ?_⟩, ?_⟩
  · simp [smp, exampleReceiver, exampleSample]
  · rintro ⟨-, hret, -⟩
    exact absurd hret (by decide)

end VillasNode.Line
