import VillasNode.Format.HumanRoundTrip
import VillasNode.Format.Malformed

/-!
# Samples that a sub-process sends back

`exec_write` and `exec_read` of `lib/nodes/exec.cpp` with villas.human. A line is
read out of the string that `std::getline` has left, with the NUL behind it and
whatever comes next in memory.
-/

namespace VillasNode.ExecNode

open ByteOrder Snprintf Strto Line

/-! ## The code -/

/-- What `<<` takes of a buffer. -/
def cString (buffer : List Byte) : List Byte := buffer.takeWhile (· ≠ 0)

/-- The bytes that `exec_write` sends, where the memory of its buffer was `mem`. -/
def execWrite (ft : FloatText) (f : LineFormat) (mem : Nat → Byte) (smps : List LineSample) : List Byte :=
  cString ((List.range 1024).map (sprint ft f mem 1024 smps).mem)

def getline (stream : List Byte) : List Byte × List Byte :=
  (stream.takeWhile (· ≠ 10), (stream.dropWhile (· ≠ 10)).tail)

structure ExecRead where
  ret : Int
  text : ReadText
  /-- What is left of the stream. -/
  stream : List Byte

/-- `rbytes - 1` is a `size_t`. -/
def execRead (r : LineReader) (behind stream : List Byte) (rcvs : List Receiver) : ExecRead :=
  let line := (getline stream).1
  let t := sscan r (line ++ 0 :: behind) line.length rcvs
  ⟨if sizeAdd t.rbytes (-1) ≠ line.length then -1 else t.ret, t, (getline stream).2⟩

/-! ## The specification -/

/-- The sample that is sent back as it was is read, where `behind` is in memory behind the line. -/
def Echoes (r : LineReader) (ft : FloatText) (mem : Nat → Byte) (behind : List Byte) (smp : LineSample)
    (rcvs : List Receiver) : Prop :=
  let e := execRead r behind (execWrite ft r.format mem [smp]) rcvs
  e.ret = 1 ∧ ∃ rcv ∈ e.text.smps.head?, SameHumanSample r.types smp.payload rcv.payload

/-! ## When it is met -/

/-- A sample whose line is printed as a whole and has no NUL and one newline in it, and that there
is a place for. -/
structure Echoable (r : LineReader) (ft : FloatText) (smp : LineSample) (rcvs : List Receiver) : Prop where
  stamped : HumanStamped smp.payload
  readable : HumanReadable r ft 0 smp
  plain : ∀ b ∈ (lineFields ft r.format smp).flatten, b ≠ 0 ∧ b ≠ 10
  fits : (lineText ft r.format smp).length < 1024
  room : ∃ rcv ∈ rcvs.head?, smp.payload.length ≤ rcv.capacity
  first : r.firstLines = 0

/-- One more value is looked for behind the NUL, where there is neither a number nor a newline. -/
def Overlooked (r : LineReader) (behind : List Byte) (smp : LineSample) (rcvs : List Receiver) : Prop :=
  (∃ rcv ∈ rcvs.head?, smp.payload.length < rcv.capacity) ∧
    ∃ t ∈ r.types[smp.payload.length]?, t ≠ .invalid ∧ begins t behind = false ∧ behind.headD 0 ≠ 10

/-! ## The end of a line -/

section
variable {r : LineReader} {smp : Payload} {looks : List Look} {p i n : Nat} {t : SignalType} {s b : List Byte}

theorem valueLoop_nul (ht : r.types[i]? = some t) (hinvalid : t ≠ .invalid) :
    (begins t b = true → p + 1 < (valueLoop r smp ⟨p, 0 :: b⟩ looks i (n + 1)).stop.pos) ∧
      (begins t b = false → ∃ data looks', valueLoop r smp ⟨p, 0 :: b⟩ looks i (n + 1) =
        ⟨smp.setData i data, i, ⟨p + 1, b⟩, looks'⟩) := by
  have hends := @parse_begins r.conv (smp.data i) ⟨p + 1, b⟩ ⟨p, 0 :: b⟩ _ hinvalid
  have hpeek := nul_peek r p b
  generalize hv : signalDataParseStr r.conv (smp.data i) t ⟨p + 1, b⟩ ⟨p, 0 :: b⟩ = v at hends
  constructor
  · intro hb
    have hlt := hends.1 hb
    by_cases hstops : v.ret ≠ 0 ∨ v.stop.pos = (⟨p, 0 :: b⟩ : Cursor).next.pos
    · rw [valueLoop_stops hpeek ht hv hstops]
      exact hlt
    · rw [valueLoop_continues hpeek ht hv hstops]
      exact hlt.trans_le valueLoop_forward
  · intro hb
    have hstop := hends.2 hb
    rw [valueLoop_stops hpeek ht hv (.inr (congrArg Cursor.pos hstop)), hstop]
    exact ⟨_, _, rfl⟩

theorem valueLoop_within {stop : Cursor} :
    (valueLoop r smp stop looks i n).stop.pos + (valueLoop r smp stop looks i n).stop.rest.length ≤
      stop.pos + stop.rest.length + 1 := by
  induction n generalizing smp stop looks i with
  | zero => exact Nat.le_succ _
  | succ n ih =>
    by_cases hpeek : stop.peek = r.format.delimiter
    · rw [valueLoop_end hpeek]
      exact Nat.le_succ _
    cases ht : r.types[i]? with
    | none =>
      rw [valueLoop_full ht]
      exact Nat.le_succ _
    | some t =>
      by_cases hinvalid : t = .invalid
      · subst hinvalid
        rw [valueLoop_stops hpeek ht rfl (.inl neg_one_ne)]
        exact Nat.le_succ _
      obtain ⟨u, -, hu, hstop⟩ := @parse_ends r.conv (smp.data i) stop.next stop _ hinvalid
      generalize hv : signalDataParseStr r.conv (smp.data i) t stop.next stop = v at hstop
      have hlength := hu.length_le
      have hnext : stop.next.rest.length = stop.rest.length - 1 := List.length_tail
      have hend : v.stop.pos + v.stop.rest.length = stop.pos + 1 + stop.next.rest.length := by
        rw [hstop, Cursor.upTo, Cursor.next_pos]
        dsimp only
        omega
      by_cases hstops : v.ret ≠ 0 ∨ v.stop.pos = stop.next.pos
      · rw [valueLoop_stops hpeek ht hv hstops]
        dsimp only
        omega
      · rw [valueLoop_continues hpeek ht hv hstops]
        -- There was a byte to go over.
        have hpos : v.stop.pos ≠ stop.pos + 1 := (not_or.mp hstops).2
        rw [hstop, Cursor.upTo, Cursor.next_pos] at hpos
        dsimp only at hpos
        have hrest := @ih (smp.setData i v.data) (looks ++ v.looks) (i + 1) v.stop
        omega

theorem valueLoop_nul_end (h : ¬ (0 < n ∧ ∃ t ∈ r.types[i]?, t ≠ .invalid)) :
    (valueLoop r smp ⟨p, 0 :: b⟩ looks i n).stop = ⟨p, 0 :: b⟩ := by
  cases n with
  | zero => rfl
  | succ n =>
    cases ht : r.types[i]? with
    | none => rw [valueLoop_full ht]
    | some t =>
      have hinvalid : t = .invalid := by
        by_contra hne
        exact h ⟨Nat.succ_pos n, t, ht, hne⟩
      subst hinvalid
      rw [valueLoop_stops (nul_peek r p b) ht rfl (.inl neg_one_ne)]
      rfl

theorem valueLoop_line_end (hd : r.format.delimiter = 10) :
    let v := valueLoop r smp ⟨p, 0 :: b⟩ looks i n
    ((lineEnd r v.stop).pos = p + 1 ↔
      0 < n ∧ ∃ t ∈ r.types[i]?, t ≠ .invalid ∧ begins t b = false ∧ b.headD 0 ≠ 10) ∧
    ((lineEnd r v.stop).pos = p + 1 → v.length = i ∧ ∃ data, v.smp = smp.setData i data) := by
  by_cases hlooks : 0 < n ∧ ∃ t ∈ r.types[i]?, t ≠ .invalid
  · obtain ⟨hn, t, ht, hinvalid⟩ := hlooks
    obtain ⟨n, rfl⟩ := Nat.exists_eq_add_one_of_ne_zero hn.ne'
    obtain ⟨hbegins, hquiet⟩ := @valueLoop_nul r smp looks p i n t b ht hinvalid
    cases hb : begins t b with
    | true =>
      have hne := ((hbegins hb).trans_le (lineEnd_le r _).1).ne'
      refine ⟨iff_of_false hne ?_, fun h => absurd h hne⟩
      rintro ⟨-, t', ht', -, hb', -⟩
      obtain rfl : t = t' := Option.mem_unique ht ht'
      rw [hb] at hb'
      cases hb'
    | false =>
      obtain ⟨data, looks', heq⟩ := hquiet hb
      have hpeek : (⟨p + 1, b⟩ : Cursor).peek = b.headD 0 := rfl
      rw [heq]
      refine ⟨?_, fun _ => ⟨rfl, data, rfl⟩⟩
      rw [lineEnd, hpeek, hd]
      split_ifs with hnewline
      · refine iff_of_false (Nat.succ_ne_self (p + 1)) ?_
        rintro ⟨-, -, -, -, -, hne⟩
        exact hne hnewline
      · exact iff_of_true rfl ⟨Nat.succ_pos n, t, ht, hinvalid, hb, hnewline⟩
  · have hne : (lineEnd r (valueLoop r smp ⟨p, 0 :: b⟩ looks i n).stop).pos ≠ p + 1 := by
      rw [valueLoop_nul_end hlooks, lineEnd, if_neg (nul_peek r p b)]
      exact (Nat.succ_ne_self p).symm
    refine ⟨iff_of_false hne ?_, fun h => absurd h hne⟩
    rintro ⟨hn, t, ht, hinvalid, -⟩
    exact hlooks ⟨hn, t, ht, hinvalid⟩

end

/-! ## A printed line -/

section
variable {r : LineReader} {ft : FloatText} {mem : Nat → Byte} {smp : LineSample} {rcv : Receiver}
  {rcvs : List Receiver} {behind : List Byte}

theorem getline_execWrite (hf : HumanFormat r.format)
    (hplain : ∀ b ∈ (lineFields ft r.format smp).flatten, b ≠ 0 ∧ b ≠ 10)
    (hfits : (lineText ft r.format smp).length < 1024) :
    (getline (execWrite ft r.format mem [smp])).1 = (lineFields ft r.format smp).flatten := by
  have htext : linesText ft r.format [smp] = (lineFields ft r.format smp).flatten ++ [10] := by
    rw [linesText, List.map_singleton, List.flatten_singleton, lineText, hf.delimiter]
  obtain ⟨-, -, rest, hrest⟩ := @sprint_complete ft r.format mem 1024 [smp] (by
    rw [linesText, List.map_singleton, List.flatten_singleton]
    exact hfits)
  rw [getline, execWrite, cString, hrest, htext]
  generalize (lineFields ft r.format smp).flatten = L at hplain
  have hnul : (L ++ [10] ++ rest).takeWhile (· ≠ 0) = L ++ 10 :: rest.takeWhile (· ≠ 0) := by
    rw [List.append_assoc, List.takeWhile_append_of_pos fun b hb => decide_eq_true (hplain b hb).1]
    rfl
  rw [hnul]
  dsimp only
  rw [List.takeWhile_append_of_pos fun b hb => decide_eq_true (hplain b hb).2]
  exact List.append_nil L

theorem humanSscanLine_line (hf : HumanFormat r.format) (hs : HumanStamped smp.payload)
    (hsmp : HumanReadable r ft 0 smp) {capacity : Nat} (hroom : smp.payload.length ≤ capacity)
    (behind : List Byte) (old : Payload) :
    let L := (lineFields ft r.format smp).flatten
    ∃ new looks q, humanSscanLine r capacity (L ++ 0 :: behind) old = ⟨new, (q : Nat), looks⟩ ∧
      L.length ≤ q ∧ q ≤ L.length + behind.length + 3 ∧
      (q = L.length + 1 ↔ smp.payload.length < capacity ∧ ∃ t ∈ r.types[smp.payload.length]?,
        t ≠ .invalid ∧ begins t behind = false ∧ behind.headD 0 ≠ 10) ∧
      (q = L.length + 1 → SameHumanSample r.types smp.payload new) := by
  intro L
  obtain ⟨m, rfl⟩ := Nat.exists_eq_add_of_le hroom
  obtain ⟨start, new, looks, heq, hstart, hback⟩ :=
    humanSscanLine_values (r := r) hf hs (.inr rfl) hsmp m behind old
  have hwithin := @valueLoop_within r new looks smp.payload.length m ⟨L.length, 0 :: behind⟩
  have hforward := @valueLoop_forward r new ⟨L.length, 0 :: behind⟩ looks smp.payload.length m
  obtain ⟨hiff, hend⟩ := @valueLoop_line_end r new looks L.length smp.payload.length m behind hf.delimiter
  generalize valueLoop r new ⟨L.length, 0 :: behind⟩ looks smp.payload.length m = v at *
  have hret : (finishLine r v).ret = (lineEnd r v.stop).pos := rfl
  rw [humanFinish_eq, hret] at heq
  refine ⟨_, _, (lineEnd r v.stop).pos, heq, ?_, ?_, ?_, fun hq => ?_⟩
  · exact hforward.trans (lineEnd_le r v.stop).1
  · have hle := (lineEnd_le r v.stop).2
    dsimp only at hwithin
    rw [List.length_cons] at hwithin
    omega
  · rw [hiff, Nat.lt_add_right_iff_pos]
  · obtain ⟨hlength, data, hsmp⟩ := hend hq
    obtain ⟨hsame, hdelayed⟩ := hstart.same (hback.setData (Nat.zero_add _).le data)
    rw [finishLine_smp, hlength, hsmp, hdelayed]
    exact hsame

theorem sizeAdd_lt (off : Nat) (ret : Int) : sizeAdd off ret < 2 ^ 64 := by
  unfold sizeAdd
  omega

theorem accepted_iff {n len : Nat} (hn : n < 2 ^ 64) (hlen : len + 1 < 2 ^ 64) :
    sizeAdd n (-1) = len ↔ n = len + 1 := by
  unfold sizeAdd
  omega

theorem sscan_line (hf : HumanFormat r.format) (h : Echoable r ft smp (rcv :: rcvs))
    (hsize : behind.length < 2 ^ 63) :
    let L := (lineFields ft r.format smp).flatten
    let t := sscan r (L ++ 0 :: behind) L.length (rcv :: rcvs)
    t.ret = 1 ∧ t.rbytes < 2 ^ 64 ∧
      (t.rbytes = L.length + 1 ↔ Overlooked r behind smp (rcv :: rcvs)) ∧
      (t.rbytes = L.length + 1 → ∃ rcv ∈ t.smps.head?, SameHumanSample r.types smp.payload rcv.payload) := by
  intro L t
  obtain ⟨c, text, htext, hdigit⟩ := @humanLine_head r ft smp hf h.stamped
  have hpos : 0 < L.length := by
    rw [show L = c :: text from htext]
    exact Nat.succ_pos _
  have hhead : ((L ++ 0 :: behind).drop 0).headD 0 ≠ comment := by
    rw [show L = c :: text from htext]
    exact digit_ne_comment hdigit
  obtain ⟨_, hrcv, hroom⟩ := h.room
  cases hrcv
  obtain ⟨new, looks, q, hline, hle, hq, hiff, hsame⟩ :=
    humanSscanLine_line hf h.stamped h.readable hroom behind rcv.payload
  change L.length ≤ q at hle
  change q ≤ L.length + behind.length + 3 at hq
  have hL : L.length < 1024 := by
    have hfits := h.fits
    rw [lineText, List.length_append] at hfits
    exact (Nat.le_add_right _ _).trans_lt hfits
  have hsscan : sscanLine r rcv.capacity ((L ++ 0 :: behind).drop 0) rcv.payload = ⟨new, (q : Nat), looks⟩ := by
    rw [List.drop_zero, sscanLine, hf.layout]
    exact hline
  obtain ⟨hret, hrbytes, hsmps⟩ := sscanFrom_uncommented (r := r) hhead hpos rcv rcvs
  rw [hsscan] at hret hrbytes hsmps
  have hoff : sizeAdd 0 (q : Nat) = q := by
    rw [sizeAdd_of_lt (by omega), Nat.zero_add]
  dsimp only at hret hrbytes hsmps
  rw [hoff, sscanFrom_end hle] at hret hrbytes hsmps
  have ht : t = sscanFrom r (L ++ 0 :: behind) L.length 0 (rcv :: rcvs) := by
    rw [← firstLine_zero h.first (L ++ 0 :: behind) L.length]
    rfl
  rw [ht, hret, hrbytes, hsmps]
  refine ⟨rfl, show q < 2 ^ 64 by omega, ?_, fun hq => ⟨_, rfl, hsame hq⟩⟩
  rw [hiff, Overlooked]
  constructor
  · rintro ⟨hlt, hnext⟩
    exact ⟨⟨rcv, rfl, hlt⟩, hnext⟩
  · rintro ⟨⟨_, hrcv, hlt⟩, hnext⟩
    cases hrcv
    exact ⟨hlt, hnext⟩

theorem echoes_iff (hf : HumanFormat r.format) (h : Echoable r ft smp rcvs) (hsize : behind.length < 2 ^ 63) :
    Echoes r ft mem behind smp rcvs ↔ Overlooked r behind smp rcvs := by
  have hline := @getline_execWrite r ft mem smp hf h.plain h.fits
  obtain ⟨rcv, hrcv, -⟩ := h.room
  obtain ⟨rcvs, rfl⟩ : ∃ rest, rcvs = rcv :: rest := by
    cases rcvs with
    | nil => cases hrcv
    | cons _ rest =>
      cases hrcv
      exact ⟨rest, rfl⟩
  obtain ⟨hret, hlt, hiff, hsame⟩ := sscan_line hf h hsize
  have hL : (lineFields ft r.format smp).flatten.length + 1 < 2 ^ 64 := by
    have hfits := h.fits
    rw [lineText, List.length_append, List.length_singleton] at hfits
    omega
  rw [← hiff, ← accepted_iff hlt hL]
  unfold Echoes execRead
  dsimp only
  rw [hline, hret]
  constructor
  · rintro ⟨hone, -⟩
    by_contra hne
    rw [if_pos hne] at hone
    exact absurd hone (by decide)
  · intro haccepted
    rw [if_neg (not_not.mpr haccepted)]
    exact ⟨rfl, hsame ((accepted_iff hlt hL).mp haccepted)⟩

end

/-! ## Any line with a newline behind the NUL -/

section
variable {r : LineReader} {capacity len off : Nat} {smp : Payload} {s line : List Byte}

theorem human_ret_ge (buf : List Byte) : -5 ≤ (humanSscanLine r capacity buf smp).ret := by
  have hvalues : ∀ smp offset stop looks, -5 ≤ (humanValues r capacity smp offset stop looks).ret := by
    intro smp offset stop looks
    have hforward := @humanValues_forward r capacity smp offset stop looks
    omega
  have hsequence : ∀ smp offset stop looks, -5 ≤ (humanSequence r capacity smp offset stop looks).ret := by
    intro smp offset stop looks
    unfold humanSequence
    dsimp only
    split_ifs
    · exact hvalues ..
    · exact hvalues ..
    · exact le_rfl
    · exact hvalues ..
  have hoffset : ∀ smp stop looks, -5 ≤ (humanOffset r capacity smp stop looks).ret := by
    intro smp stop looks
    unfold humanOffset
    dsimp only
    split_ifs
    · exact hsequence ..
    · exact show (-5 : Int) ≤ -4 by decide
    · exact hsequence ..
  unfold humanSscanLine humanNanoseconds
  dsimp only
  split_ifs
  · exact show (-5 : Int) ≤ -1 by decide
  · exact show (-5 : Int) ≤ -3 by decide
  · exact hoffset ..
  · exact hoffset ..

theorem begins_newline (t : SignalType) : begins t [10] = false := by
  cases t <;> decide

theorem human_misses (hd : r.format.delimiter = 10) :
    (humanSscanLine r capacity (s ++ 0 :: [10]) smp).ret ≤ s.length + 2 ∧
      (humanSscanLine r capacity (s ++ 0 :: [10]) smp).ret ≠ s.length + 1 := by
  obtain ⟨s', -, -, hret, -⟩ | ⟨-, hneg | ⟨v, ⟨smp', looks, j, m, t, ht, hinvalid, hv⟩, hret, -⟩⟩ :=
    @human_text r capacity smp s [10]
  · omega
  · omega
  · obtain ⟨data, looks', hstop⟩ := (valueLoop_nul ht hinvalid).2 (begins_newline t)
    have hend : lineEnd r ⟨s.length + 1, [10]⟩ = ⟨s.length + 2, []⟩ := if_pos hd.symm
    rw [hret, hv, hstop, hend]
    dsimp only
    omega

theorem sscanFrom_misses (hlayout : r.format.layout = .human) (hd : r.format.delimiter = 10)
    (hlen : line.length < 2 ^ 63) (hoff : off < 2 ^ 64) (hne : off ≠ line.length + 1) (rcvs : List Receiver) :
    (sscanFrom r (line ++ 0 :: [10]) line.length off rcvs).rbytes < 2 ^ 64 ∧
      (sscanFrom r (line ++ 0 :: [10]) line.length off rcvs).rbytes ≠ line.length + 1 := by
  induction rcvs generalizing off with
  | nil => exact ⟨hoff, hne⟩
  | cons rcv rcvs ih =>
    rw [sscanFrom]
    split_ifs with hlt
    · obtain ⟨hstart, -⟩ := @skipCommentAt_text r (line.take off) (line.drop off) [10]
      have hle : (afterComment r.format.delimiter (line.drop off)).length ≤ (line.drop off).length :=
        (afterComment_suffix _ _).length_le
      rw [List.length_drop] at hle
      rw [← List.append_assoc, List.take_append_drop, List.length_take_of_le hlt.le, List.length_drop,
        Nat.add_sub_cancel' hlt.le] at hstart
      generalize skipCommentAt r (line ++ 0 :: [10]) line.length off = skipped at hstart ⊢
      obtain ⟨start, looks⟩ := skipped
      dsimp only at hstart ⊢
      split_ifs with hend
      · exact ⟨by dsimp only; omega, by dsimp only; omega⟩
      · have hstart' : start ≤ line.length := by omega
        have hge := @human_ret_ge r rcv.capacity rcv.payload (line.drop start ++ 0 :: [10])
        obtain ⟨hret, hret'⟩ := @human_misses r rcv.capacity rcv.payload (line.drop start) hd
        rw [List.length_drop] at hret hret'
        have hline : sscanLine r rcv.capacity ((line ++ 0 :: [10]).drop start) rcv.payload =
            humanSscanLine r rcv.capacity (line.drop start ++ 0 :: [10]) rcv.payload := by
          rw [sscanLine, hlayout, List.drop_append_of_le_length hstart']
        rw [hline]
        refine ih (sizeAdd_lt _ _) ?_
        unfold sizeAdd
        omega
    · exact ⟨hoff, hne⟩

theorem execRead_rejects (hlayout : r.format.layout = .human) (hd : r.format.delimiter = 10)
    {stream : List Byte} (hlen : (getline stream).1.length < 2 ^ 63) (rcvs : List Receiver) :
    (execRead r [10] stream rcvs).ret = -1 := by
  have hfirst : firstLine r ((getline stream).1 ++ 0 :: [10]) (getline stream).1.length ≤
      (getline stream).1.length := by
    unfold firstLine
    split_ifs
    · rw [skipLine_eq, Nat.zero_add]
      · exact min_le_left _ _
      · rw [List.drop_zero, List.length_append]
        omega
    · exact Nat.zero_le _
  obtain ⟨hlt, hne⟩ := sscanFrom_misses hlayout hd hlen (by omega) (Nat.ne_of_lt (Nat.lt_succ_of_le hfirst)) rcvs
  exact if_pos (mt (accepted_iff hlt (by omega)).mp hne)

end

/-! ## Echoes -/

theorem getline_length (stream : List Byte) : (getline stream).1.length ≤ stream.length :=
  (List.takeWhile_prefix _).length_le

theorem execWrite_length {ft : FloatText} {f : LineFormat} {mem : Nat → Byte} {smps : List LineSample} :
    (execWrite ft f mem smps).length ≤ 1024 := by
  unfold execWrite cString
  refine (List.takeWhile_prefix _).length_le.trans_eq ?_
  rw [List.length_map, List.length_range]

/-- No sample comes back for certain. With what is behind the line, it comes back exactly if one more
value is looked for there and none is found. -/
theorem exec_echoes_iff {r : LineReader} (hf : HumanFormat r.format) (ft : FloatText) (mem : Nat → Byte)
    (smp : LineSample) (rcvs : List Receiver) :
    (¬ ∀ behind, Echoes r ft mem behind smp rcvs) ∧
      (Echoable r ft smp rcvs → ∀ behind : List Byte, behind.length < 2 ^ 63 →
        (Echoes r ft mem behind smp rcvs ↔ Overlooked r behind smp rcvs)) := by
  refine ⟨fun hall => ?_, fun h behind hsize => echoes_iff hf h hsize⟩
  have hlen : (getline (execWrite ft r.format mem [smp])).1.length < 2 ^ 63 := by
    have hline := getline_length (execWrite ft r.format mem [smp])
    have hsent := @execWrite_length ft r.format mem [smp]
    omega
  have hrejected := execRead_rejects hf.layout hf.delimiter hlen rcvs
  obtain ⟨hone, -⟩ := hall [10]
  exact absurd (hrejected.symm.trans hone) (by decide)

/-! A sample with one value, for readers with one signal and with two. -/

def readerOf (types : List SignalType) : LineReader := { exampleReader with types }

def sampleOf (types : List SignalType) : LineSample := { Line.exampleSample with signals := types }

theorem humanFormat_human : HumanFormat humanFormat := by
  constructor <;> decide

theorem sampleOf_echoable (types : List SignalType) :
    Echoable (readerOf (.integer :: types)) exampleText (sampleOf (.integer :: types)) [exampleReceiver] := by
  have hstamped : HumanStamped Line.exampleSample.payload := by constructor <;> decide
  have hline : lineFields exampleText humanFormat (sampleOf (.integer :: types)) =
      lineFields exampleText humanFormat Line.exampleSample := rfl
  have hdiscrete : DiscreteSample (.integer :: types) (sampleOf (.integer :: types)) := by
    refine ⟨rfl, fun j hj => ⟨.integer, ?_, .inl rfl⟩⟩
    rw [Nat.lt_one_iff.mp hj]
    rfl
  have hroom : Line.exampleSample.payload.length ≤ exampleReceiver.capacity := by decide
  refine ⟨hstamped, hdiscrete.humanReadable (by decide), ?_, ?_, ⟨_, rfl, hroom⟩, rfl⟩
  · have hplain : ((lineFields exampleText humanFormat Line.exampleSample).flatten.all
        fun b => b ≠ 0 ∧ b ≠ 10) = true := rfl
    rw [show (readerOf (.integer :: types)).format = humanFormat from rfl, hline]
    exact fun b hb => of_decide_eq_true (List.all_eq_true.mp hplain b hb)
  · rw [lineText, show (readerOf (.integer :: types)).format = humanFormat from rfl, hline]
    decide

theorem exec_echoes_one : Echoes (readerOf [.integer, .integer]) exampleText (fun _ => 0) []
    (sampleOf [.integer, .integer]) [exampleReceiver] :=
  ((exec_echoes_iff humanFormat_human exampleText (fun _ => 0) (sampleOf [.integer, .integer])
    [exampleReceiver]).2 (sampleOf_echoable [.integer]) [] (by decide)).mpr
      ⟨⟨exampleReceiver, rfl, by decide⟩, .integer, rfl, by decide, by decide, by decide⟩

/-- A sample with a value for each signal is rejected, whatever is in memory. -/
theorem exec_rejects_all_values :
    (getline (execWrite exampleText humanFormat (fun _ => 0) [sampleOf [.integer]])).1 =
      ascii "1.000000002(7)\t5" ∧
    ∀ behind : List Byte, behind.length < 2 ^ 63 →
      ¬ Echoes (readerOf [.integer]) exampleText (fun _ => 0) behind (sampleOf [.integer])
        [exampleReceiver] := by
  have hechoable := sampleOf_echoable []
  constructor
  · have hline := @getline_execWrite (readerOf [.integer]) exampleText (fun _ => 0) _ humanFormat_human
      hechoable.plain hechoable.fits
    exact hline.trans (by decide)
  · intro behind hsize hechoes
    obtain ⟨-, t, ht, -⟩ := (echoes_iff humanFormat_human hechoable hsize).mp hechoes
    cases ht

end VillasNode.ExecNode
