import VillasNode.Lib.Parts
import VillasNode.Format.Fields

/-!
# The front of a line of villas.human

Seconds, nanoseconds, offset and sequence as one part of the line. `sscanLine`
takes this part apart with one error for each number that is missing.
-/

namespace VillasNode.Line

open ByteOrder Strto

/-- The texts in front of the values. -/
structure Header where
  sec : List Byte
  nsec : Option (List Byte)
  offset : Option (List Byte)
  sequence : Option (List Byte)

/-- A number behind one byte. -/
def marked (c : Char) : LinePart (List Byte) := do
  byte (· = ch c)
  numberText integer

def sequencePart : LinePart (List Byte) := do
  let sequence ← marked '('
  let _ ← whenNext (· = ch ')') (byte (· = ch ')'))
  return sequence

/-- What may follow the seconds. -/
def headerRest (d : Byte) (sec : List Byte) : LinePart Header := do
  ensure (· ≠ d)
  let nsec ← whenNext (· = ch '.') (marked '.')
  let offset ← whenNext isSign (numberText real)
  let sequence ← whenNext (· = ch '(') sequencePart
  return ⟨sec, nsec, offset, sequence⟩

def humanHeader (d : Byte) : LinePart Header := do
  let sec ← numberText integer
  headerRest d sec

/-! ## Where the front of a line ends -/

section
variable {d : Byte}

theorem exact_marked (c : Char) : Exact (marked c) :=
  exact_byte.bind fun _ => exact_numberText moves_integer

theorem exact_sequencePart : Exact sequencePart :=
  (exact_marked _).bind fun _ => exact_byte.whenNext.bind fun _ => .pure _

theorem exact_headerRest (sec : List Byte) : Exact (headerRest d sec) := by
  apply exact_ensure.bind
  intro _
  apply (exact_marked _).whenNext.bind
  intro _
  apply (exact_numberText moves_real).whenNext.bind
  intro _
  exact exact_sequencePart.whenNext.bind fun _ => .pure _

theorem exact_humanHeader : Exact (humanHeader d) :=
  (exact_numberText moves_integer).bind exact_headerRest

theorem stays_integer (hd : inNumber d = false) : Stays d (numberText integer) :=
  stays_numberText hd (bounded_integer hd) moves_integer

theorem stays_char (hd : inNumber d = false) {c : Char} (hc : inNumber (ch c) = true) :
    Stays d (byte (· = ch c)) := by
  apply stays_byte
  rw [decide_eq_false_iff_not]
  rintro rfl
  exact absurd (hc.symm.trans hd) (by decide)

theorem stays_marked (hd : inNumber d = false) {c : Char} (hc : inNumber (ch c) = true) :
    Stays d (marked c) :=
  (stays_char hd hc).bind (fun _ => stays_integer hd) fun _ => exact_numberText moves_integer

theorem stays_sequencePart (hd : inNumber d = false) : Stays d sequencePart := by
  apply (stays_marked hd (by decide)).bind
  · intro _
    exact (stays_char hd (by decide)).whenNext.bind (fun _ => .pure _) fun _ => .pure _
  · intro _
    exact exact_byte.whenNext.bind fun _ => .pure _

theorem stays_headerRest (hd : inNumber d = false) (d' : Byte) (sec : List Byte) :
    Stays d (headerRest d' sec) := by
  have hsequence : Exact (whenNext (· = ch '(') sequencePart) := exact_sequencePart.whenNext
  have hoffset : Exact (whenNext isSign (numberText real)) := (exact_numberText moves_real).whenNext
  have hnsec : Exact (whenNext (· = ch '.') (marked '.')) := (exact_marked '.').whenNext
  apply stays_ensure.bind
  · intro _
    apply (stays_marked hd (by decide)).whenNext.bind
    · intro _
      apply (stays_numberText hd (bounded_real hd) moves_real).whenNext.bind
      · intro _
        exact (stays_sequencePart hd).whenNext.bind (fun _ => .pure _) fun _ => .pure _
      · exact fun _ => hsequence.bind fun _ => .pure _
    · exact fun _ => hoffset.bind fun _ => hsequence.bind fun _ => .pure _
  · exact fun _ => hnsec.bind fun _ => hoffset.bind fun _ => hsequence.bind fun _ => .pure _

theorem stays_humanHeader (hd : inNumber d = false) (d' : Byte) : Stays d (humanHeader d') :=
  (stays_integer hd).bind (stays_headerRest hd d') exact_headerRest

/-- A front that ends in the line is read in the same way wherever the line stands, also behind
white space, and whatever follows it. -/
theorem humanHeader_line (hd : inNumber d = false) {d' : Byte} {L s : List Byte} {u : PartRead Header}
    (h : humanHeader d' ⟨0, L ++ [d]⟩ = some u) (hs : u.stop.rest = s ++ [d]) :
    s <:+ L ∧ ∀ p pre b, pre.all isSpace → ∃ looks, humanHeader d' ⟨p, pre ++ (L ++ d :: b)⟩ =
        some ⟨u.val, looks, ⟨p + pre.length + (L.length - s.length), s ++ d :: b⟩⟩ ∧
      ∀ l ∈ looks, 0 < l.size ∧ l.start + l.size ≤ p + pre.length + L.length + 1 := by
  rcases stays_humanHeader hd d' h with ⟨-, hlt⟩ | ⟨s', hsuffix, hstop, -, hsame⟩
  · exact absurd hlt (Nat.not_lt_zero _)
  rw [hstop] at hs
  obtain rfl : s' = s := List.append_cancel_right hs
  refine ⟨hsuffix, ?_⟩
  intro p pre b hpre
  obtain ⟨looks, hread⟩ := hsame (p + pre.length) b
  have hwithin : ∀ l ∈ looks, 0 < l.size ∧ l.start + l.size ≤ p + pre.length + L.length + 1 := by
    rcases stays_humanHeader hd d' hread with ⟨-, hlt⟩ | ⟨-, -, -, hlooks, -⟩
    · simp only [List.length_append, List.length_cons] at hlt
      omega
    · exact hlooks
  obtain ⟨v, w, hv, hw, heq⟩ := bind_eq_some.mp hread
  simp only [PartRead.mk.injEq] at heq
  obtain ⟨hval, rfl, hstop'⟩ := heq
  obtain ⟨look, hlook, hend⟩ := numberText_behind moves_integer hpre hv
  refine ⟨look :: w.looks, ?_, ?_⟩
  · rw [hval, hstop']
    exact bind_eq_some.mpr ⟨_, _, hlook, hw, rfl⟩
  · intro l hl
    rcases List.mem_cons.mp hl with rfl | hl
    · exact hend _ fun l hl => hwithin l (List.mem_append_left _ hl)
    · exact hwithin l (List.mem_append_right _ hl)

end

/-! ## `sscanLine` reads the front of the line -/

section
variable (r : LineReader)

def LineReader.offset (h : Header) : BitVec 32 := (h.offset.map r.conv.toFloat).getD 0

def Header.flags (h : Header) : BitVec 32 :=
  SampleFlags.hasTsOrigin ||| (if h.offset.isSome then SampleFlags.hasOffset else 0) |||
    (if h.sequence.isSome then SampleFlags.hasSequence else 0)

/-- The sample with what stands in front of the values. -/
def LineReader.header (smp : Payload) (h : Header) : Payload :=
  { smp with
    flags := h.flags
    signals := r.signals
    origin := ⟨truncated (ulongValue h.sec), (h.nsec.map fun t => truncated (ulongValue t)).getD 0⟩
    sequence := (h.sequence.map ulongValue).getD smp.sequence }

end

/-- A line is refused with its part, or it goes on as `next` says. -/
def Follows {α : Type} (read : Option (PartRead α)) (line : ReadLine) (next : PartRead α → ReadLine) :
    Prop :=
  read = none ∧ line.ret < 0 ∨ ∃ u, read = some u ∧ line = next u

section
variable {α β : Type} {x : LinePart α} {y : α → LinePart β} {c : Cursor} {line : ReadLine}

theorem Follows.bind {k : PartRead α → ReadLine} {final : PartRead β → ReadLine}
    (hx : Follows (x c) line k)
    (hy : ∀ u, x c = some u → Follows (y u.val u.stop) (k u) fun v =>
      final ⟨v.val, u.looks ++ v.looks, v.stop⟩) :
    Follows ((x >>= y) c) line final := by
  rcases hx with ⟨hnone, hret⟩ | ⟨u, hu, rfl⟩
  · refine .inl ⟨?_, hret⟩
    rw [← Option.not_isSome_iff_eq_none]
    intro hread
    obtain ⟨v, hv⟩ := Option.isSome_iff_exists.mp hread
    obtain ⟨u, w, hu, -, -⟩ := bind_eq_some.mp hv
    rw [hnone] at hu
    cases hu
  rcases hy u hu with ⟨hnone, hret⟩ | ⟨w, hw, heq⟩
  · refine .inl ⟨?_, hret⟩
    rw [← Option.not_isSome_iff_eq_none]
    intro hread
    obtain ⟨v, hv⟩ := Option.isSome_iff_exists.mp hread
    obtain ⟨u', w, hu', hw, -⟩ := bind_eq_some.mp hv
    rw [hu] at hu'
    cases hu'
    rw [hnone] at hw
    cases hw
  · exact .inr ⟨_, bind_eq_some.mpr ⟨u, w, hu, hw, rfl⟩, heq⟩

theorem Follows.congr {read : Option (PartRead α)} {next next' : PartRead α → ReadLine}
    (h : Follows read line next) (heq : ∀ u, next u = next' u) : Follows read line next' := by
  rwa [← funext heq]

theorem Follows.pure {a : α} {next : PartRead α → ReadLine} (h : line = next ⟨a, [], c⟩) :
    Follows ((pure a : LinePart α) c) line next :=
  .inr ⟨_, rfl, h⟩

theorem Follows.byte {e : Byte} {next : PartRead Unit → ReadLine} (he : e ≠ 0) (hpeek : c.peek = e)
    (h : line = next ⟨(), [], c.next⟩) : Follows (byte (· = e) c) line next :=
  .inr ⟨_, byte_peek he hpeek, h⟩

theorem Follows.ensure {p : Byte → Bool} {next : PartRead Unit → ReadLine}
    (h : p c.peek → line = next ⟨(), [], c⟩) (hnot : ¬ p c.peek → line.ret < 0) :
    Follows (ensure p c) line next := by
  unfold Strto.ensure
  by_cases hp : p c.peek
  · rw [if_pos hp]
    exact .inr ⟨_, rfl, h hp⟩
  · rw [if_neg hp]
    exact .inl ⟨rfl, hnot hp⟩

theorem Follows.number {f : Scan} {next : PartRead (List Byte) → ReadLine} (hf : Moves f)
    (h : (c.convert f).2.pos ≠ c.pos → line = next ⟨(c.convert f).1, [c.look], (c.convert f).2⟩)
    (hnot : (c.convert f).2.pos = c.pos → line.ret < 0) : Follows (numberText f c) line next := by
  rcases numberText_cases hf c with ⟨hnone, hpos⟩ | ⟨hsome, hpos⟩
  · exact .inl ⟨hnone, hnot hpos⟩
  · exact .inr ⟨_, hsome, h hpos⟩

theorem Follows.whenNext {p : Byte → Bool} {next : PartRead (Option α) → ReadLine}
    (h : p c.peek → Follows (x c) line fun u => next ⟨some u.val, u.looks, u.stop⟩)
    (hnot : ¬ p c.peek → line = next ⟨none, [], c⟩) : Follows (whenNext p x c) line next := by
  by_cases hp : p c.peek
  · rcases h hp with ⟨hnone, hret⟩ | ⟨u, hu, heq⟩
    · refine .inl ⟨?_, hret⟩
      unfold Strto.whenNext
      rw [if_pos hp, hnone, Option.map_none]
    · exact .inr ⟨_, (whenNext_eq_some hp).mpr ⟨u, hu, rfl⟩, heq⟩
  · refine .inr ⟨_, if_neg hp, hnot hp⟩

theorem Follows.marked {m : Char} {next : PartRead (List Byte) → ReadLine} (hm : ch m ≠ 0)
    (hpeek : c.peek = ch m)
    (h : (c.next.convert integer).2.pos ≠ c.next.pos →
      line = next ⟨(c.next.convert integer).1, [c.next.look], (c.next.convert integer).2⟩)
    (hnot : (c.next.convert integer).2.pos = c.next.pos → line.ret < 0) :
    Follows (marked m c) line next := by
  apply Follows.bind (k := fun _ => line) (.byte hm hpeek rfl)
  intro u hu
  rw [byte_peek hm hpeek] at hu
  cases hu
  exact .number moves_integer h hnot

theorem convert_text_ne {f : Scan} (hf : Moves f) (h : (c.convert f).2.pos ≠ c.pos) :
    (c.convert f).1 ≠ [] := by
  rw [Ne, convert_pos_iff hf] at h
  obtain ⟨s, hs⟩ := Option.ne_none_iff_exists'.mp h
  rw [convert_some hs]
  exact token_ne hf hs

end

section
variable {r : LineReader} {capacity : Nat} {smp : Payload} {stop : Cursor} {looks : List Look}

theorem follows_sequence (offset : BitVec 32) :
    Follows (whenNext (· = ch '(') sequencePart stop)
      (humanSequence r capacity smp offset stop looks) fun u =>
        humanValues r capacity
          { smp with
            sequence := (u.val.map ulongValue).getD smp.sequence
            flags := smp.flags ||| if u.val.isSome then SampleFlags.hasSequence else 0 }
          offset u.stop (looks ++ u.looks) := by
  unfold humanSequence strtoul
  apply Follows.whenNext
  · intro hpeek
    rw [decide_eq_true_eq] at hpeek
    rw [if_pos hpeek]
    apply Follows.bind (k := fun u => humanValues r capacity
      { smp with sequence := ulongValue u.val, flags := smp.flags ||| SampleFlags.hasSequence } offset
      (if u.stop.peek = ch ')' then u.stop.next else u.stop) (looks ++ u.looks))
    · apply Follows.marked (by decide) hpeek
      · intro hpos
        exact if_pos hpos
      · intro hpos
        dsimp only
        rw [if_neg (not_not.mpr hpos)]
        exact Int.negSucc_lt_zero 4
    · intro u _
      apply Follows.bind (k := fun v => humanValues r capacity
        { smp with sequence := ulongValue u.val, flags := smp.flags ||| SampleFlags.hasSequence } offset
        v.stop (looks ++ u.looks ++ v.looks))
      · apply Follows.whenNext
        · intro hright
          rw [decide_eq_true_eq] at hright
          apply Follows.byte (by decide) hright
          rw [if_pos hright, List.append_nil]
        · intro hright
          rw [decide_eq_true_eq] at hright
          rw [if_neg hright, List.append_nil]
      · intro v _
        apply Follows.pure
        simp only [Option.map_some, Option.getD_some, Option.isSome_some, if_true, List.append_nil,
          List.append_assoc]
  · intro hpeek
    rw [decide_eq_true_eq] at hpeek
    rw [if_neg hpeek]
    simp only [Option.map_none, Option.getD_none, Option.isSome_none, Bool.false_eq_true, if_false,
      List.append_nil, BitVec.ofNat_eq_ofNat, BitVec.or_zero]

/-- The sample with its timestamp only. -/
def LineReader.stamped (r : LineReader) (smp : Payload) (sec : List Byte) (nsec : BitVec 64) : Payload :=
  { smp with
    flags := SampleFlags.hasTsOrigin
    signals := r.signals
    origin := ⟨truncated (ulongValue sec), nsec⟩ }

theorem follows_offset (sec : List Byte) (nsec : Option (List Byte)) :
    Follows ((do
        let offset ← whenNext isSign (numberText real)
        let sequence ← whenNext (· = ch '(') sequencePart
        return ⟨sec, nsec, offset, sequence⟩ : LinePart Header) stop)
      (humanOffset r capacity
        (r.stamped smp sec ((nsec.map fun t => truncated (ulongValue t)).getD 0)) stop looks)
      fun u => humanValues r capacity (r.header smp u.val) (r.offset u.val) u.stop (looks ++ u.looks) := by
  unfold humanOffset FloatScan.strtof
  generalize hstamped : r.stamped smp sec ((nsec.map fun t => truncated (ulongValue t)).getD 0) = smp'
  apply Follows.bind (k := fun u => humanSequence r capacity
    { smp' with flags := smp'.flags ||| if u.val.isSome then SampleFlags.hasOffset else 0 }
    ((u.val.map r.conv.toFloat).getD 0) u.stop (looks ++ u.looks))
  · apply Follows.whenNext
    · intro hsign
      rw [if_pos hsign]
      apply Follows.number moves_real
      · intro hpos
        dsimp only
        rw [if_pos hpos, if_neg (convert_text_ne moves_real hpos)]
        rfl
      · intro hpos
        dsimp only
        rw [if_neg (not_not.mpr hpos)]
        exact Int.negSucc_lt_zero 3
    · intro hsign
      rw [if_neg hsign]
      simp only [Option.map_none, Option.getD_none, Option.isSome_none, Bool.false_eq_true, if_false,
        List.append_nil, BitVec.ofNat_eq_ofNat, BitVec.or_zero]
  · intro u _
    apply (follows_sequence _).bind
    intro v _
    apply Follows.pure
    simp only [LineReader.offset, List.append_nil, List.append_assoc, ← hstamped]
    rfl

theorem follows_humanHeader (buf : List Byte) :
    Follows (humanHeader r.format.delimiter ⟨0, buf⟩) (humanSscanLine r capacity buf smp) fun u =>
      humanValues r capacity (r.header smp u.val) (r.offset u.val) u.stop u.looks := by
  unfold humanSscanLine strtoul
  apply Follows.bind (k := fun u =>
    if u.stop.peek = r.format.delimiter then
      ⟨{ r.stamped smp u.val smp.origin.nsec with flags := 0 }, -1, u.looks⟩
    else humanNanoseconds r capacity (r.stamped smp u.val smp.origin.nsec) u.stop u.looks)
  · apply Follows.number moves_integer
    · intro hpos
      dsimp only
      by_cases hd : ((⟨0, buf⟩ : Cursor).convert integer).2.peek = r.format.delimiter
      · rw [if_pos (.inr hd), if_pos hd]
        rfl
      · rw [if_neg (not_or.mpr ⟨hpos, hd⟩), if_neg hd]
        rfl
    · intro hpos
      dsimp only
      rw [if_pos (.inl hpos)]
      exact Int.negSucc_lt_zero 0
  · intro u _
    apply Follows.bind (k := fun v =>
      humanNanoseconds r capacity (r.stamped smp u.val smp.origin.nsec) v.stop (u.looks ++ v.looks))
    · apply Follows.ensure
      · intro hd
        rw [decide_eq_true_eq] at hd
        rw [if_neg hd, List.append_nil]
      · intro hd
        rw [decide_eq_true_eq, ne_eq, not_not] at hd
        rw [if_pos hd]
        exact Int.negSucc_lt_zero 0
    · intro v _
      apply Follows.bind (k := fun w => humanOffset r capacity
        (r.stamped smp u.val ((w.val.map fun t => truncated (ulongValue t)).getD 0)) w.stop
        (u.looks ++ v.looks ++ w.looks))
      · unfold humanNanoseconds strtoul
        apply Follows.whenNext
        · intro hpeek
          rw [decide_eq_true_eq] at hpeek
          rw [if_pos hpeek]
          apply Follows.marked (by decide) hpeek
          · intro hpos
            exact if_neg hpos
          · intro hpos
            dsimp only
            rw [if_pos hpos]
            exact Int.negSucc_lt_zero 2
        · intro hpeek
          rw [decide_eq_true_eq] at hpeek
          rw [if_neg hpeek, List.append_nil]
          rfl
      · intro w _
        apply (follows_offset u.val w.val).congr
        intro x
        simp only [List.append_assoc]

end

end VillasNode.Line
