import Mathlib.Data.List.Forall2
import VillasNode.Format.Numerals
import VillasNode.Format.Lines

/-!
# Reading what was printed

The values of INTEGER and BOOLEAN signals are read back. Every text ends right
in front of the byte that comes next, so no line gets into the next one, and a
text comes back when each of its lines does.
-/

namespace VillasNode.Line

open ByteOrder Snprintf Strto

/-! ## Values -/

/-- Types whose values are printed as integers. -/
def SignalType.discrete (t : SignalType) : Prop := t = .integer ∨ t = .boolean

theorem numeral_zero : Numeral (ascii "0") 0 := ⟨by decide, by decide, by decide⟩

theorem numeral_one : Numeral (ascii "1") 1 := ⟨by decide, by decide, by decide⟩

theorem SignedNumeral.ne {text : List Byte} {z : Int} (h : SignedNumeral text z) : text ≠ [] := by
  rcases h with ⟨-, h⟩ | ⟨-, ds, rfl, -⟩
  · exact h.ne
  · exact List.cons_ne_nil _ _

section
variable {r : LineReader} {ft : FloatText}

theorem parse_printed {t : SignalType} (ht : SignalType.discrete t) {precision : Nat} {data : Value}
    {text : List Byte} (htext : signalDataText ft precision data t = text) {e : Byte}
    (he : isDigit e = false) (old : Value) (p : Nat) (s : List Byte) (stop : Cursor) :
    text ≠ [] ∧ ∃ v, signalDataParseStr r.conv old t ⟨p, text ++ e :: s⟩ stop =
        ⟨v, 0, ⟨p + text.length, e :: s⟩, [(⟨p, text ++ e :: s⟩ : Cursor).look]⟩ ∧ SameValue t v data := by
  rcases ht with rfl | rfl
  · have hz : SignedNumeral text data.toInt := by
      rw [← htext]
      exact signedNumeral_decimalPadded ..
    refine ⟨hz.ne, data, ?_, rfl⟩
    simp only [signalDataParseStr, strtol, (hz.convert (s := s) he p).2, hz.longValue]
  · have hbool : ∀ n, Numeral text n → (longValue text = 0 ↔ data.extractLsb' 0 8 = 0) →
        text ≠ [] ∧ ∃ v, signalDataParseStr r.conv old .boolean ⟨p, text ++ e :: s⟩ stop =
          ⟨v, 0, ⟨p + text.length, e :: s⟩, [(⟨p, text ++ e :: s⟩ : Cursor).look]⟩ ∧
          SameValue .boolean v data := by
      intro n hn hlong
      refine ⟨hn.ne, old.extractLsb' 8 56 ++ (if longValue text = 0 then 0#8 else 1#8), ?_, ?_⟩
      · unfold signalDataParseStr strtol
        rw [(hn.signed.convert (s := s) he p).2]
      · rw [SameValue, BitVec.extractLsb'_append_eq_right, ← hlong]
        by_cases hzero : longValue text = 0
        · simp only [hzero, if_true, iff_true]
          rfl
        · simp only [hzero, if_false, iff_false]
          decide
    by_cases hdata : data.extractLsb' 0 8 = 0
    · obtain rfl : ascii "0" = text := by simpa only [signalDataText, hdata, if_true] using htext
      exact hbool 0 numeral_zero ⟨fun _ => hdata, fun _ => by decide⟩
    · obtain rfl : ascii "1" = text := by simpa only [signalDataText, hdata, if_false] using htext
      exact hbool 1 numeral_one ⟨fun h => absurd h (by decide), fun h => absurd h hdata⟩

/-- The values from index `i` on are the ones that were printed, and everything else is kept. -/
structure ReadsBack (types : List SignalType) (src : Payload) (i n : Nat) (old new : Payload) : Prop where
  kept : ∃ data, new = { old with data }
  before : ∀ j < i, new.data j = old.data j
  same : ∀ j t, i ≤ j → j < i + n → types[j]? = some t → SameValue t (new.data j) (src.data j)

/-- The text of a value is read back in front of a byte `e`. -/
structure TextBack (r : LineReader) (ft : FloatText) (precision : Nat) (e : Byte) (t : SignalType)
    (data : Value) : Prop where
  ne : signalDataText ft precision data t ≠ []
  parse : ∀ old p s stop, ∃ v looks,
    signalDataParseStr r.conv old t ⟨p, signalDataText ft precision data t ++ e :: s⟩ stop =
      ⟨v, 0, ⟨p + (signalDataText ft precision data t).length, e :: s⟩, looks⟩ ∧ SameValue t v data

theorem textBack_discrete {t : SignalType} (ht : SignalType.discrete t) (precision : Nat) {e : Byte}
    (he : isDigit e = false) (data : Value) : TextBack r ft precision e t data := by
  refine ⟨(parse_printed (r := r) ht rfl he data 0 [] ⟨0, []⟩).1, fun old p s stop => ?_⟩
  obtain ⟨-, v, hparse, hsame⟩ := parse_printed (r := r) ht rfl he old p s stop
  exact ⟨v, _, hparse, hsame⟩

theorem ReadsBack.setData {types : List SignalType} {src old new : Payload} {i n j : Nat}
    (h : ReadsBack types src i n old new) (hj : i + n ≤ j) (v : Value) :
    ReadsBack types src i n old (new.setData j v) := by
  obtain ⟨⟨data, hkept⟩, hbefore, hsame⟩ := h
  refine ⟨⟨_, by rw [hkept]; rfl⟩, fun k hk => ?_, fun k t hle hlt ht => ?_⟩
  · rw [setData_data, if_neg (by omega)]
    exact hbefore k hk
  · rw [setData_data, if_neg (by omega)]
    exact hsame k t hle hlt ht

theorem dataFields_begin {f : LineFormat} {smp : LineSample} (c : Byte)
    (htypes : smp.signals = r.types) {i n : Nat}
    (hall : ∀ j, i ≤ j → j < i + n → ∃ t, r.types[j]? = some t) (e : Byte) (b : List Byte) :
    ∃ s, (dataFields ft f smp [c] i n).flatten ++ e :: b = (if n = 0 then e else c) :: s := by
  cases n with
  | zero => exact ⟨b, rfl⟩
  | succ n =>
    obtain ⟨t, ht⟩ := hall i (le_refl i) (by omega)
    rw [dataFields, htypes, ht]
    exact ⟨_, rfl⟩

theorem valueLoop_values {f : LineFormat} {smp : LineSample} {c e : Byte} (hcd : c ≠ r.format.delimiter)
    (htypes : smp.signals = r.types) {i n m : Nat}
    (hvalues : ∀ j, i ≤ j → j < i + n → ∃ t, r.types[j]? = some t ∧
      TextBack r ft f.realPrecision c t (smp.payload.data j) ∧
        TextBack r ft f.realPrecision e t (smp.payload.data j))
    (old : Payload) (p : Nat) (b : List Byte) (looks : List Look) :
    ∃ new looks', valueLoop r old ⟨p, (dataFields ft f smp [c] i n).flatten ++ e :: b⟩ looks i (n + m) =
        valueLoop r new ⟨p + (dataFields ft f smp [c] i n).flatten.length, e :: b⟩ looks' (i + n) m ∧
      ReadsBack r.types smp.payload i n old new := by
  induction n generalizing i old p looks with
  | zero =>
    refine ⟨old, looks, ?_, ⟨old.data, rfl⟩, fun _ _ => rfl, ?_⟩
    · rw [Nat.zero_add]
      rfl
    · intro j t hle hlt
      omega
  | succ n ih =>
    obtain ⟨t, ht, htab, hend⟩ := hvalues i (le_refl i) (by omega)
    have hfields : dataFields ft f smp [c] i (n + 1) =
        [[c], signalDataText ft f.realPrecision (smp.payload.data i) t] ++
          dataFields ft f smp [c] (i + 1) n := by
      rw [dataFields, htypes, ht]
    -- Behind the value there is another separator or `e`.
    obtain ⟨s, hes⟩ := @dataFields_begin _ ft f _ c htypes (i + 1) n
      (fun j hle hlt => (hvalues j (by omega) (by omega)).imp fun _ h => h.1) e b
    have hback : TextBack r ft f.realPrecision (if n = 0 then e else c) t (smp.payload.data i) := by
      split_ifs
      · exact hend
      · exact htab
    generalize (if n = 0 then e else c) = e' at hback hes
    obtain ⟨hne, hparse⟩ := hback
    generalize signalDataText ft f.realPrecision (smp.payload.data i) t = text at hfields hne hparse
    have hrest : (dataFields ft f smp [c] i (n + 1)).flatten ++ e :: b = c :: (text ++ e' :: s) := by
      rw [hfields, ← hes]
      simp
    obtain ⟨v, vlooks, hparse, hsame⟩ := hparse (old.data i) (p + 1) s ⟨p, c :: (text ++ e' :: s)⟩
    obtain ⟨new, looks', hloop, hback⟩ := @ih (i + 1)
      (fun j hle hlt => hvalues j (by omega) (by omega)) (old.setData i v) (p + 1 + text.length)
      (looks ++ vlooks)
    refine ⟨new, looks', ?_, ?_⟩
    · have hpeek : (⟨p, c :: (text ++ e' :: s)⟩ : Cursor).peek ≠ r.format.delimiter := hcd
      rw [hrest, show n + 1 + m = n + m + 1 by omega, valueLoop_continues hpeek ht hparse]
      · dsimp only
        rw [hes] at hloop
        rw [hloop, hfields]
        simp only [List.flatten_append, List.length_append, List.flatten_cons, List.flatten_nil,
          List.length_cons, List.length_nil, List.append_nil]
        rw [show p + 1 + text.length + (dataFields ft f smp [c] (i + 1) n).flatten.length =
          p + (0 + 1 + text.length + (dataFields ft f smp [c] (i + 1) n).flatten.length) by omega,
          show i + 1 + n = i + (n + 1) by omega]
      · have := List.length_pos_iff.mpr hne
        simp only [Cursor.next_pos, ne_eq, not_true_eq_false, false_or]
        omega
    · obtain ⟨⟨data, hkept⟩, hbefore, hsame'⟩ := hback
      refine ⟨⟨data, by rw [hkept]; rfl⟩, ?_, ?_⟩
      · intro j hj
        rw [hbefore j (by omega), setData_data, if_neg (by omega)]
      · intro j t' hle hlt ht'
        rcases Nat.eq_or_lt_of_le hle with rfl | hlt'
        · rw [hbefore i (by omega), setData_data, if_pos rfl]
          rw [ht] at ht'
          cases ht'
          exact hsame
        · exact hsame' j t' hlt' (by omega) ht'

theorem valueLoop_printed {f : LineFormat} {smp : LineSample} {c : Byte} (hc : isDigit c = false)
    (hcd : c ≠ r.format.delimiter) (hd : isDigit r.format.delimiter = false)
    (htypes : smp.signals = r.types) {i n capacity : Nat} (hcapacity : n ≤ capacity)
    (hdiscrete : ∀ j, i ≤ j → j < i + n → ∃ t, r.types[j]? = some t ∧ SignalType.discrete t)
    (old : Payload) (p : Nat) (b : List Byte) (looks : List Look) :
    ∃ new looks', valueLoop r old
        ⟨p, (dataFields ft f smp [c] i n).flatten ++ r.format.delimiter :: b⟩ looks i capacity =
          ⟨new, i + n, ⟨p + (dataFields ft f smp [c] i n).flatten.length, r.format.delimiter :: b⟩,
            looks'⟩ ∧ ReadsBack r.types smp.payload i n old new := by
  obtain ⟨m, rfl⟩ := Nat.exists_eq_add_of_le hcapacity
  obtain ⟨new, looks', hloop, hback⟩ := @valueLoop_values r ft f smp c r.format.delimiter hcd htypes i n m
    (fun j hle hlt => (hdiscrete j hle hlt).imp fun t ht =>
      ⟨ht.1, textBack_discrete ht.2 _ hc _, textBack_discrete ht.2 _ hd _⟩) old p b looks
  exact ⟨new, looks', hloop.trans (valueLoop_end rfl), hback⟩

end

/-! ## Samples -/

/-- The same timestamp and sequence as far as they are there, the same length and the same values. -/
structure SameSample (types : List SignalType) (src new : Payload) : Prop where
  origin : hasFlag src.flags SampleFlags.hasTsOrigin →
    hasFlag new.flags SampleFlags.hasTsOrigin ∧ new.origin = src.origin
  sequence : hasFlag src.flags SampleFlags.hasSequence →
    hasFlag new.flags SampleFlags.hasSequence ∧ new.sequence = src.sequence
  length : new.length = src.length
  values : ∀ j < src.length, ∀ t, types[j]? = some t → SameValue t (new.data j) (src.data j)

/-- A sample whose values have signals and are printed as integers. -/
structure DiscreteSample (types : List SignalType) (smp : LineSample) : Prop where
  signals : smp.signals = types
  values : ∀ j < smp.payload.length, ∃ t, types[j]? = some t ∧ SignalType.discrete t

theorem truncated_small {x : BitVec 64} (h : x.toNat < 2 ^ 32) : truncated x = x := by
  apply BitVec.eq_of_toNat_eq
  simp only [truncated, BitVec.toNat_setWidth]
  omega

/-- The first receivers have enough room for the samples, one each. -/
structure Fits (smps : List LineSample) (rcvs : List Receiver) : Prop where
  length : smps.length ≤ rcvs.length
  capacity : ∀ p ∈ smps.zip rcvs, p.1.payload.length ≤ p.2.capacity

theorem Fits.left {smps rest : List LineSample} {rcvs : List Receiver} (h : Fits (smps ++ rest) rcvs) :
    Fits smps rcvs := by
  have hlength := h.length
  rw [List.length_append] at hlength
  have hzip : ∀ tail, (smps ++ tail).zip rcvs =
      smps.zip (rcvs.take smps.length) ++ tail.zip (rcvs.drop smps.length) := by
    intro tail
    conv_lhs => rw [← List.take_append_drop smps.length rcvs]
    exact List.zip_append (by rw [List.length_take]; omega)
  have hnil := hzip []
  rw [List.append_nil, List.zip_nil_left, List.append_nil] at hnil
  refine ⟨by omega, fun p hp => h.capacity p ?_⟩
  rw [hzip, ← hnil]
  exact List.mem_append_left _ hp

/-! ## Texts -/

/-- The line of a sample is read with its delimiter, whatever follows. -/
structure LineReads (Same : Payload → Payload → Prop) (r : LineReader) (ft : FloatText)
    (smp : LineSample) (capacity : Nat) : Prop where
  head : ∀ b, (lineText ft r.format smp ++ b).headD 0 ≠ comment
  line : ∀ b old, ∃ new looks, sscanLine r capacity (lineText ft r.format smp ++ b) old =
    ⟨new, ((lineText ft r.format smp).length : Nat), looks⟩ ∧ Same smp.payload new

section
variable {Same : Payload → Payload → Prop} {r : LineReader} {ft : FloatText} {mem : List Byte}
  {len off : Nat}

theorem sscanFrom_uncommented (hhead : (mem.drop off).headD 0 ≠ comment) (hoff : off < len)
    (smp : Receiver) (smps : List Receiver) :
    let line := sscanLine r smp.capacity (mem.drop off) smp.payload
    let rest := sscanFrom r mem len (sizeAdd off line.ret) smps
    let t := sscanFrom r mem len off (smp :: smps)
    t.ret = rest.ret + 1 ∧ t.rbytes = rest.rbytes ∧
      t.smps = { smp with payload := line.smp } :: rest.smps := by
  have hskip : skipCommentAt r mem len off = (off, []) := by
    rw [skipCommentAt, getD_eq_headD_drop, if_neg hhead]
  rw [sscanFrom, if_pos hoff, hskip]
  simp only [Nat.ne_of_lt hoff, if_false, and_self]

theorem sscanFrom_lines {smps : List LineSample} {rcvs : List Receiver} {pre behind : List Byte}
    (hlength : smps.length ≤ rcvs.length)
    (hreads : ∀ p ∈ smps.zip rcvs, LineReads Same r ft p.1 p.2.capacity)
    (hmem : mem = pre ++ (linesText ft r.format smps ++ behind))
    (hlen : (pre ++ linesText ft r.format smps).length ≤ len) (hsize : len < 2 ^ 64) :
    let rest := sscanFrom r mem len (pre ++ linesText ft r.format smps).length
      (rcvs.drop smps.length)
    let t := sscanFrom r mem len pre.length rcvs
    ∃ done, List.Forall₂ (fun smp rcv => Same smp.payload (Receiver.payload rcv)) smps done ∧
      t.ret = smps.length + rest.ret ∧ t.rbytes = rest.rbytes ∧ t.smps = done ++ rest.smps := by
  induction smps generalizing pre rcvs with
  | nil =>
    refine ⟨[], .nil, ?_⟩
    simp [linesText]
  | cons smp smps ih =>
    cases rcvs with
    | nil => cases hlength
    | cons rcv rcvs =>
      obtain ⟨hfirst, hreads⟩ := List.forall_mem_cons.mp hreads
      have hcons : linesText ft r.format (smp :: smps) =
          lineText ft r.format smp ++ linesText ft r.format smps := by simp [linesText]
      have hpos : 0 < (lineText ft r.format smp).length := by
        rw [lineText_length]
        exact Nat.succ_pos _
      rw [hcons] at hmem hlen ⊢
      simp only [List.length_append] at hlen
      have hdrop : mem.drop pre.length =
          lineText ft r.format smp ++ (linesText ft r.format smps ++ behind) := by
        rw [hmem, List.drop_left, List.append_assoc]
      obtain ⟨new, looks, hline, hsame⟩ :=
        hfirst.line (linesText ft r.format smps ++ behind) rcv.payload
      obtain ⟨hret, hrbytes, hsmps⟩ := @sscanFrom_uncommented r _ len _
        (by rw [hdrop]; exact hfirst.head _) (by omega) rcv rcvs
      rw [hdrop, hline] at hret hrbytes hsmps
      dsimp only at hret hrbytes hsmps
      rw [sizeAdd_of_lt (by omega), ← List.length_append] at hret hrbytes hsmps
      obtain ⟨done, hdone, hret', hrbytes', hsmps'⟩ := @ih
        rcvs (pre ++ lineText ft r.format smp) (Nat.le_of_succ_le_succ hlength) hreads
        (by rw [hmem]; simp only [List.append_assoc])
        (by simp only [List.length_append]; omega)
      rw [List.append_assoc] at hret' hrbytes' hsmps'
      refine ⟨{ rcv with payload := new } :: done, .cons hsame hdone, ?_, ?_, ?_⟩
      · rw [hret, hret']
        simp only [List.length_cons, List.drop_succ_cons]
        omega
      · rw [hrbytes, hrbytes', List.length_cons, List.drop_succ_cons]
      · rw [hsmps, hsmps', List.length_cons, List.drop_succ_cons, List.cons_append]

theorem sprintFrom_complete {f : LineFormat} {smps : List LineSample} {mem : Nat → Byte}
    {pre : List Byte} (hpre : Holds mem 0 pre)
    (hlen : (pre ++ linesText ft f smps).length < len) :
    let o := sprintFrom ft f len mem pre.length smps
    o.ret = smps.length ∧ o.wbytes = (pre ++ linesText ft f smps).length ∧
      Holds o.mem 0 (pre ++ linesText ft f smps) := by
  induction smps generalizing mem pre with
  | nil => exact ⟨rfl, by simp [linesText, sprintFrom], by simpa [linesText, sprintFrom] using hpre⟩
  | cons smp smps ih =>
    have hcons : linesText ft f (smp :: smps) = lineText ft f smp ++ linesText ft f smps := by
      simp [linesText]
    rw [hcons] at hlen ⊢
    simp only [List.length_append] at hlen
    have hholds : Holds (sprintLine ft f smp mem pre.length (len - pre.length)).mem 0
        (pre ++ lineText ft f smp) := by
      apply (line_keeps hpre rfl).append
      rw [Nat.zero_add]
      exact sprintLine_holds (by omega)
    obtain ⟨hret, hwbytes, hmem⟩ := ih hholds (by simp only [List.length_append]; omega)
    rw [sprintFrom_cons (by omega)]
    rw [List.length_append] at hret hwbytes hmem
    dsimp only
    rw [hret, hwbytes, ← List.append_assoc]
    exact ⟨rfl, rfl, hmem⟩

end

theorem holds_range {mem : Nat → Byte} {text : List Byte} (h : Holds mem 0 text) {size : Nat}
    (hsize : text.length ≤ size) : ∃ behind, (List.range size).map mem = text ++ behind := by
  refine ⟨((List.range size).map mem).drop text.length, ?_⟩
  have htake : ((List.range size).map mem).take text.length = text := by
    apply List.ext_getElem?
    intro i
    by_cases hi : i < text.length
    · rw [List.getElem?_take_of_lt hi, List.getElem?_map, List.getElem?_range (by omega),
        List.getElem?_eq_getElem hi, Option.map_some]
      have := h i text[i] (List.getElem?_eq_getElem hi)
      rw [Nat.zero_add] at this
      rw [this]
    · rw [List.getElem?_eq_none (by simp; omega), List.getElem?_eq_none (by omega)]
  conv_lhs => rw [← List.take_append_drop text.length ((List.range size).map mem), htake]

theorem sprint_complete {ft : FloatText} {f : LineFormat} {mem : Nat → Byte} {len : Nat}
    {smps : List LineSample} (hlen : (linesText ft f smps).length < len) :
    let o := sprint ft f mem len smps
    o.ret = smps.length ∧ o.wbytes = (linesText ft f smps).length ∧
      ∃ behind, (List.range len).map o.mem = linesText ft f smps ++ behind := by
  have hempty : Holds mem 0 [] := by simp [Holds]
  obtain ⟨hret, hwbytes, hholds⟩ := sprintFrom_complete (f := f) hempty hlen
  exact ⟨hret, hwbytes, holds_range hholds (Nat.le_of_lt hlen)⟩

theorem firstLine_zero {r : LineReader} (h : r.firstLines = 0) (mem : List Byte) (len : Nat) :
    firstLine r mem len = 0 := by
  unfold LineReader.firstLines at h
  rw [firstLine, if_neg]
  intro hpending
  rw [if_pos hpending] at h
  cases h

/-- What `sprint` prints into a buffer of `len` bytes is read back by `sscan`. -/
structure RoundTrip (Same : Payload → Payload → Prop) (r : LineReader) (ft : FloatText)
    (mem : Nat → Byte) (len : Nat) (smps : List LineSample) (rcvs : List Receiver) : Prop where
  sprinted : (sprint ft r.format mem len smps).ret = smps.length
  sscanned :
    let o := sprint ft r.format mem len smps
    let t := sscan r ((List.range len).map o.mem) o.wbytes rcvs
    t.ret = smps.length ∧
      List.Forall₂ (fun smp rcv => Same smp.payload (Receiver.payload rcv)) smps
        (t.smps.take smps.length)

theorem roundTrip_of_lines {Same : Payload → Payload → Prop} {r : LineReader} {ft : FloatText}
    {mem : Nat → Byte} {len : Nat} {smps : List LineSample} {rcvs : List Receiver}
    (hfirst : r.firstLines = 0) (hlength : smps.length ≤ rcvs.length)
    (hreads : ∀ p ∈ smps.zip rcvs, LineReads Same r ft p.1 p.2.capacity)
    (hlen : (linesText ft r.format smps).length < len) (hsize : len < 2 ^ 64) :
    RoundTrip Same r ft mem len smps rcvs ∧
      let o := sprint ft r.format mem len smps
      (sscan r ((List.range len).map o.mem) o.wbytes rcvs).rbytes = o.wbytes := by
  obtain ⟨hsprinted, hwbytes, behind, hbuf⟩ := sprint_complete (f := r.format) hlen
  obtain ⟨done, hdone, hret, hrbytes, hsmps⟩ := @sscanFrom_lines _ r _ _
    (linesText ft r.format smps).length _ _ [] _ hlength hreads rfl (le_refl _) (by omega)
  simp only [List.nil_append, List.length_nil, sscanFrom_end (le_refl _), Nat.add_zero]
    at hret hrbytes hsmps
  constructor
  · refine ⟨hsprinted, ?_⟩
    dsimp only
    rw [hbuf, hwbytes, sscan, firstLine_zero hfirst]
    refine ⟨hret, ?_⟩
    rw [hsmps, hdone.length_eq, List.take_left]
    exact hdone
  · dsimp only
    rw [hbuf, hwbytes, sscan, firstLine_zero hfirst]
    exact hrbytes

end VillasNode.Line
