import VillasNode.Format.Lines

/-!
# Malformed texts

What `sscan` of villas.human makes of any bytes with a NUL behind them. It stays
in the text and counts parsed lines only, exactly when the front of every line
is right and no value is read where the text has ended.
-/

namespace VillasNode.Line

open ByteOrder Strto

/-! ## The end of the values -/

/-- What is left behind a delimiter at the front. -/
def afterDelimiter (d : Byte) (s : List Byte) : List Byte := if s.headD 0 = d then s.tail else s

/-- What is left behind the values of a line from their first separator on. There is nothing when a
value is read behind the end of the text. -/
def valuesEnd (d : Byte) : List SignalType → List Byte → Option (List Byte)
  | [], s => some (afterDelimiter d s)
  | t :: ts, s =>
    if s.headD 0 = d ∨ t = .invalid then some (afterDelimiter d s)
    else
      match s with
      | [] => none
      | _ :: s =>
        match scanValue t s with
        | .ok s' => valuesEnd d ts s'
        | .error s' => some (afterDelimiter d s')

/-- The pointer behind a delimiter. -/
def lineEnd (r : LineReader) (stop : Cursor) : Cursor :=
  if stop.peek = r.format.delimiter then stop.next else stop

section
variable {r : LineReader} {smp : Payload} {looks : List Look} {p i n : Nat} {s b : List Byte}

theorem afterDelimiter_suffix (d : Byte) (s : List Byte) : afterDelimiter d s <:+ s := by
  unfold afterDelimiter
  split_ifs
  · exact List.tail_suffix s
  · exact List.suffix_rfl

theorem peek_text (p : Nat) (s b : List Byte) : (⟨p, s ++ 0 :: b⟩ : Cursor).peek = s.headD 0 := by
  cases s <;> rfl

theorem lineEnd_text (r : LineReader) (p : Nat) (s b : List Byte) :
    lineEnd r ⟨p, s ++ 0 :: b⟩ = ⟨p + (s.length - (afterDelimiter r.format.delimiter s).length),
      afterDelimiter r.format.delimiter s ++ 0 :: b⟩ := by
  unfold lineEnd afterDelimiter
  rw [peek_text]
  by_cases h : s.headD 0 = r.format.delimiter
  · cases s with
    | nil => exact absurd h.symm r.format.delimiter_ne
    | cons c s =>
      simp only [h, if_true, List.length_cons, List.tail_cons, Cursor.next, List.cons_append,
        Nat.add_sub_cancel_left]
  · simp only [h, if_false, Nat.sub_self, Nat.add_zero]

theorem lineEnd_le (r : LineReader) (c : Cursor) :
    c.pos ≤ (lineEnd r c).pos ∧ (lineEnd r c).pos ≤ c.pos + 1 := by
  unfold lineEnd
  split_ifs
  · exact ⟨Nat.le_succ _, le_rfl⟩
  · exact ⟨le_rfl, Nat.le_succ _⟩

theorem parse_looks_first {fs : FloatScan} {data : Value} {t : SignalType} {ptr stop : Cursor}
    (ht : t ≠ .invalid) : ptr.look ∈ (signalDataParseStr fs data t ptr stop).looks := by
  cases t with
  | invalid => exact absurd rfl ht
  | float | integer | boolean => exact List.mem_singleton.mpr rfl
  | complex =>
    simp only [signalDataParseStr, parseComplex]
    split_ifs <;> simp

/-- The values from `p` on, where the text goes on with `s`, are read up to `s'`. -/
structure ReadsTo (r : LineReader) (p : Nat) (s b : List Byte) (looks : List Look) (s' : List Byte)
    (v : ReadValues) : Prop where
  suffix : s' <:+ s
  stop : lineEnd r v.stop = ⟨p + (s.length - s'.length), s' ++ 0 :: b⟩
  looks : ∃ new, v.looks = looks ++ new ∧ ∀ l ∈ new, l.start ≤ p + s.length

theorem ReadsTo.here (smp : Payload) (k : Nat) :
    ReadsTo r p s b looks (afterDelimiter r.format.delimiter s) ⟨smp, k, ⟨p, s ++ 0 :: b⟩, looks⟩ := by
  refine ⟨afterDelimiter_suffix _ s, lineEnd_text r p s b, [], (List.append_nil _).symm, ?_⟩
  intro l hl
  cases hl

theorem ReadsTo.behind {s' u : List Byte} {v : ReadValues} {new : List Look} (hu : u <:+ s)
    (hnew : ∀ l ∈ new, l.start ≤ p + s.length)
    (h : ReadsTo r (p + (s.length - u.length)) u b (looks ++ new) s' v) :
    ReadsTo r p s b looks s' v := by
  obtain ⟨hsuffix, hstop, new', hlooks, hnew'⟩ := h
  have hle := hu.length_le
  have hle' := hsuffix.length_le
  refine ⟨hsuffix.trans hu, ?_, new ++ new', ?_, ?_⟩
  · rw [hstop, show p + (s.length - u.length) + (u.length - s'.length) = p + (s.length - s'.length) by
      omega]
  · rw [hlooks, List.append_assoc]
  · intro l hl
    rcases List.mem_append.mp hl with hl | hl
    · exact hnew l hl
    · have := hnew' l hl
      omega

/-- One more value is looked for at the end of the text, behind which there is `b`. -/
def Overruns (r : LineReader) (p : Nat) (b : List Byte) (v : ReadValues) : Prop :=
  ∃ smp looks j m t, r.types[j]? = some t ∧ t ≠ .invalid ∧
    v = valueLoop r smp ⟨p, 0 :: b⟩ looks j (m + 1)

theorem nul_peek (r : LineReader) (p : Nat) (b : List Byte) :
    (⟨p, 0 :: b⟩ : Cursor).peek ≠ r.format.delimiter := fun h => r.format.delimiter_ne h.symm

theorem Overruns.looks_behind {v : ReadValues} (h : Overruns r p b v) : ∃ l ∈ v.looks, p < l.start := by
  obtain ⟨smp, looks, j, m, t, ht, hinvalid, rfl⟩ := h
  have hfirst := @parse_looks_first r.conv (smp.data j) _ (⟨p, 0 :: b⟩ : Cursor).next ⟨p, 0 :: b⟩ hinvalid
  refine ⟨(⟨p, 0 :: b⟩ : Cursor).next.look, ?_, Nat.lt_succ_self p⟩
  by_cases hstops : (signalDataParseStr r.conv (smp.data j) t (⟨p, 0 :: b⟩ : Cursor).next
      ⟨p, 0 :: b⟩).ret ≠ 0 ∨ (signalDataParseStr r.conv (smp.data j) t (⟨p, 0 :: b⟩ : Cursor).next
        ⟨p, 0 :: b⟩).stop.pos = (⟨p, 0 :: b⟩ : Cursor).next.pos
  · rw [valueLoop_stops (nul_peek r p b) ht rfl hstops]
    exact List.mem_append_right _ hfirst
  · rw [valueLoop_continues (nul_peek r p b) ht rfl hstops]
    exact valueLoop_looks (List.mem_append_right _ hfirst)

theorem nul_plain : inNumber 0 = false := by decide

theorem nul_blank (s : List Byte) : ¬ Blank 0 s := fun h => absurd h.2 (by decide)

theorem valueLoop_text :
    match valuesEnd r.format.delimiter ((r.types.drop i).take n) s with
    | some s' => ReadsTo r p s b looks s' (valueLoop r smp ⟨p, s ++ 0 :: b⟩ looks i n)
    | none => Overruns r (p + s.length) b (valueLoop r smp ⟨p, s ++ 0 :: b⟩ looks i n) := by
  induction n generalizing smp p s looks i with
  | zero => exact .here smp i
  | succ n ih =>
    cases ht : r.types[i]? with
    | none =>
      rw [types_take_none ht, valueLoop_full ht]
      exact .here smp i
    | some t =>
      rw [types_take_some ht]
      unfold valuesEnd
      by_cases hpeek : s.headD 0 = r.format.delimiter
      · rw [if_pos (.inl hpeek), valueLoop_end ((peek_text p s b).trans hpeek)]
        exact .here smp i
      have hpeek' : (⟨p, s ++ 0 :: b⟩ : Cursor).peek ≠ r.format.delimiter := by
        rw [peek_text]
        exact hpeek
      by_cases hinvalid : t = .invalid
      · subst hinvalid
        rw [if_pos (.inr rfl), valueLoop_stops hpeek' ht rfl (.inl neg_one_ne)]
        have hhere := @ReadsTo.here r (looks ++ []) p s b
          (smp.setData i (signalDataParseStr r.conv (smp.data i) .invalid
            (⟨p, s ++ 0 :: b⟩ : Cursor).next ⟨p, s ++ 0 :: b⟩).data) i
        rw [List.append_nil] at hhere
        simpa only [signalDataParseStr, List.append_nil] using hhere
      rw [if_neg (not_or.mpr ⟨hpeek, hinvalid⟩)]
      cases s with
      | nil =>
        exact ⟨smp, looks, i, n, t, ht, hinvalid, rfl⟩
      | cons c s =>
        have hc : c ≠ r.format.delimiter := hpeek
        have hlooks : ∀ l ∈ (valueAt r (smp.data i) t p s).looks, l.start ≤ p + (c :: s).length := by
          intro l hl
          have := parse_looks l hl
          dsimp only at this
          rw [List.length_cons]
          omega
        have hpos : ∀ u : List Byte, u.length ≤ s.length →
            p + ((c :: s).length - u.length) = p + 1 + (s.length - u.length) := by
          intro u hu
          rw [List.length_cons]
          omega
        dsimp only
        cases hscan : scanValue t s with
        | ok u =>
          obtain ⟨hu, -, heq⟩ := field_read (p := p) (b := b) (n := n)
            nul_plain hc ht hinvalid (nul_blank s) hscan
          rw [List.cons_append, heq, ← hpos u hu.length_le]
          dsimp only
          have hrest := @ih (smp.setData i (valueAt r (smp.data i) t p s).data)
            (looks ++ (valueAt r (smp.data i) t p s).looks) (p + ((c :: s).length - u.length))
            (i + 1) u
          cases hend : valuesEnd r.format.delimiter ((r.types.drop (i + 1)).take n) u with
          | none =>
            have := hu.length_le
            rw [hend, show p + ((c :: s).length - u.length) + u.length = p + (c :: s).length by
              rw [List.length_cons]
              omega] at hrest
            exact hrest
          | some s' =>
            rw [hend] at hrest
            exact .behind (hu.trans (List.suffix_cons c s)) hlooks hrest
        | error u =>
          obtain ⟨hu, heq⟩ := field_gives_up (p := p) (b := b) (n := n)
            nul_plain hc ht hinvalid (nul_blank s) hscan
          rw [List.cons_append, heq, ← hpos u hu.length_le]
          exact .behind (hu.trans (List.suffix_cons c s)) hlooks (.here _ i)

end

/-! ## Lines -/

/-- A line of villas.human that is parsed, and what is left of the text behind it. -/
def LineTo (r : LineReader) (capacity : Nat) (s s' : List Byte) : Prop :=
  ∃ u rest, humanHeader r.format.delimiter ⟨0, s ++ [0]⟩ = some u ∧ u.stop.rest = rest ++ [0] ∧
    valuesEnd r.format.delimiter (r.types.take capacity) rest = some s'

section
variable {r : LineReader} {capacity : Nat} {smp : Payload} {s b : List Byte}

theorem humanValues_eq (offset : BitVec 32) (stop : Cursor) (looks : List Look) :
    let v := valueLoop r smp stop looks 0 capacity
    (humanValues r capacity smp offset stop looks).ret = (lineEnd r v.stop).pos ∧
      (humanValues r capacity smp offset stop looks).looks = v.looks := by
  rw [humanValues, humanFinish_eq]
  exact ⟨rfl, rfl⟩

theorem human_text :
    (∃ s', LineTo r capacity s s' ∧ s' <:+ s ∧
      (humanSscanLine r capacity (s ++ 0 :: b) smp).ret = (s.length - s'.length : Nat) ∧
      ∀ l ∈ (humanSscanLine r capacity (s ++ 0 :: b) smp).looks, l.start ≤ s.length) ∨
    (¬ ∃ s', LineTo r capacity s s') ∧
      ((humanSscanLine r capacity (s ++ 0 :: b) smp).ret < 0 ∨
        ∃ v, Overruns r s.length b v ∧
          (humanSscanLine r capacity (s ++ 0 :: b) smp).ret = (lineEnd r v.stop).pos ∧
          (humanSscanLine r capacity (s ++ 0 :: b) smp).looks = v.looks) := by
  rcases follows_humanHeader (r := r) (s ++ 0 :: b) with
    ⟨hnone, hret⟩ | ⟨v, hv, heq⟩
  · refine .inr ⟨?_, .inl hret⟩
    rintro ⟨s', u, rest, hu, hrest, -⟩
    obtain ⟨-, hread⟩ := humanHeader_line nul_plain hu hrest
    obtain ⟨looks, hread, -⟩ := hread 0 [] b rfl
    rw [List.nil_append, hnone] at hread
    cases hread
  rcases stays_humanHeader nul_plain r.format.delimiter hv with ⟨hspace, -⟩ |
    ⟨rest, hrest, hstop, hlooks, hsame⟩
  · exact absurd hspace (by decide)
  obtain ⟨looks, hread⟩ := hsame 0 []
  have hlen := hrest.length_le
  have hiff : ∀ s', LineTo r capacity s s' ↔
      valuesEnd r.format.delimiter (r.types.take capacity) rest = some s' := by
    intro s'
    constructor
    · rintro ⟨u, rest', hu, hrest', hend⟩
      rw [hread] at hu
      cases hu
      rwa [List.append_cancel_right hrest']
    · exact fun hend => ⟨_, rest, hread, rfl, hend⟩
  have hvalues := @valueLoop_text r (r.header smp v.val) v.looks (s.length - rest.length) 0 capacity
    rest b
  obtain ⟨hret, hlooks'⟩ := humanValues_eq (r := r) (r.offset v.val) v.stop v.looks
  rw [hstop, Nat.zero_add] at hret hlooks'
  rw [heq]
  dsimp only
  rw [hstop, Nat.zero_add, hret, hlooks']
  rw [List.drop_zero] at hvalues
  cases hend : valuesEnd r.format.delimiter (r.types.take capacity) rest with
  | none =>
    rw [hend, Nat.sub_add_cancel hlen] at hvalues
    refine .inr ⟨?_, .inr ⟨_, hvalues, rfl, rfl⟩⟩
    rintro ⟨s', hs'⟩
    rw [hiff, hend] at hs'
    cases hs'
  | some s' =>
    rw [hend] at hvalues
    obtain ⟨hsuffix, hstop', new, hnew, hwithin⟩ := hvalues
    have hle := hsuffix.length_le
    refine .inl ⟨s', (hiff s').mpr hend, hsuffix.trans hrest, ?_, ?_⟩
    · rw [hstop']
      dsimp only
      omega
    · intro l hl
      rw [hnew] at hl
      rcases List.mem_append.mp hl with hl | hl
      · have := hlooks l hl
        omega
      · have := hwithin l hl
        omega

end

/-! ## Texts -/

/-- What is left of a text behind a comment at its front, from the delimiter on. -/
def afterComment (d : Byte) (s : List Byte) : List Byte :=
  if s.headD 0 = comment then s.tail.dropWhile (· ≠ d) else s

/-- The text is comments and parsed lines, as far as there are samples for it. -/
def Clean (r : LineReader) : List Byte → List Receiver → Prop
  | _, [] => True
  | s, smp :: smps =>
    let line := afterComment r.format.delimiter s
    line = [] ∨ ∃ s', LineTo r smp.capacity line s' ∧ Clean r s' smps

/-- Nothing is scanned outside of the `len` bytes, no more than these are consumed, and only lines
that have been parsed are counted. -/
structure Contained (len : Nat) (t : ReadText) : Prop where
  rbytes : t.rbytes ≤ len
  looks : ∀ l ∈ t.looks, l.start ≤ len
  results : ∀ ret ∈ t.results, 0 ≤ ret

section
variable {r : LineReader} {pre s b : List Byte} {smps : List Receiver}

theorem afterComment_suffix (d : Byte) (s : List Byte) : afterComment d s <:+ s := by
  unfold afterComment
  split_ifs
  · exact (List.dropWhile_suffix _).trans (List.tail_suffix s)
  · exact List.suffix_rfl

theorem skipCommentAt_text :
    (skipCommentAt r (pre ++ (s ++ 0 :: b)) (pre.length + s.length) pre.length).1 =
      pre.length + (s.length - (afterComment r.format.delimiter s).length) ∧
    ∀ l ∈ (skipCommentAt r (pre ++ (s ++ 0 :: b)) (pre.length + s.length) pre.length).2,
      l.start ≤ pre.length + s.length := by
  unfold skipCommentAt afterComment
  rw [getD_eq_headD_drop, List.drop_left]
  cases s with
  | nil =>
    have hnul : (0 : Byte) ≠ comment := by decide
    simp only [List.nil_append, List.headD_cons, List.headD_nil, hnul, if_false]
    simp
  | cons c s =>
    simp only [List.cons_append, List.headD_cons, List.tail_cons]
    by_cases hc : c = comment
    · have hdrop : (pre ++ c :: (s ++ 0 :: b)).drop (pre.length + 1) = s ++ 0 :: b := by
        rw [← List.drop_drop, List.drop_left, List.drop_one, List.tail_cons]
      have hsplit := congrArg List.length
        (List.takeWhile_append_dropWhile (p := (· ≠ r.format.delimiter)) (l := s))
      rw [List.length_append] at hsplit
      simp only [hc, if_true, List.mem_singleton, forall_eq, List.length_cons]
      refine ⟨?_, by omega⟩
      rw [← hc, skipComment_eq, hdrop]
      · rw [List.takeWhile_append]
        split_ifs with hall
        · -- The comment goes on to the end of the text.
          simp only [List.length_append]
          omega
        · omega
      · rw [hdrop]
        simp only [List.length_append, List.length_cons]
        omega
    · simp [hc]

theorem LineTo.unique {capacity : Nat} {s' u : List Byte} (h : LineTo r capacity s s')
    (h' : LineTo r capacity s u) : u = s' := by
  obtain ⟨v, rest, hv, hrest, hend⟩ := h
  obtain ⟨v', rest', hv', hrest', hend'⟩ := h'
  rw [hv] at hv'
  cases hv'
  rw [hrest] at hrest'
  rw [List.append_cancel_right hrest', hend'] at hend
  exact Option.some.inj hend

theorem sscanFrom_contained_iff (hlayout : r.format.layout = .human) {mem : List Byte} {len : Nat}
    (hmem : mem = pre ++ (s ++ 0 :: b)) (hlen : len = pre.length + s.length) (hsize : len < 2 ^ 64) :
    Contained len (sscanFrom r mem len pre.length smps) ↔ Clean r s smps := by
  induction smps generalizing pre s with
  | nil =>
    simp only [Clean, iff_true]
    exact ⟨by simp [sscanFrom, hlen], by simp [sscanFrom], by simp [sscanFrom]⟩
  | cons smp smps ih =>
    obtain ⟨hstart, hskipped⟩ := skipCommentAt_text (r := r) (s := s) (b := b)
    have hsuffix := afterComment_suffix r.format.delimiter s
    unfold Clean
    generalize hline : afterComment r.format.delimiter s = line at hstart hsuffix
    have hle := hsuffix.length_le
    by_cases hoff : pre.length < len
    · rw [sscanFrom, if_pos hoff]
      rw [← hmem, ← hlen] at hstart hskipped
      dsimp only
      rw [hstart]
      by_cases hnil : line = []
      · subst hnil
        rw [if_pos (by simp [hlen])]
        simp only [true_or, iff_true]
        exact ⟨by simp [hlen], hskipped, by simp⟩
      · have hpos := List.length_pos_iff.mpr hnil
        rw [if_neg (by omega)]
        obtain ⟨front, rfl⟩ := hsuffix
        have hdrop : mem.drop (pre.length + ((front ++ line).length - line.length)) = line ++ 0 :: b := by
          rw [hmem, ← List.drop_drop, List.drop_left, List.length_append, Nat.add_sub_cancel,
            List.append_assoc, List.drop_left]
        have hsscan : sscanLine r smp.capacity (line ++ 0 :: b) smp.payload =
            humanSscanLine r smp.capacity (line ++ 0 :: b) smp.payload := by
          simp only [sscanLine, hlayout]
        rw [hdrop, hsscan]
        simp only [List.length_append] at hlen hstart ⊢
        rw [Nat.add_sub_cancel]
        rcases human_text (r := r) (s := line) (b := b)
          with ⟨s', hs', hsuffix, hret, hlooks⟩ | ⟨hnot, hbad⟩
        · have hle := hsuffix.length_le
          obtain ⟨parsed, rfl⟩ := hsuffix
          have hadd : sizeAdd (pre.length + front.length) (humanSscanLine r smp.capacity
              (parsed ++ s' ++ 0 :: b) smp.payload).ret = (pre ++ (front ++ parsed)).length := by
            rw [hret, sizeAdd_of_lt]
            · simp only [List.length_append]
              omega
            · simp only [List.length_append] at hlen ⊢
              omega
          have hrest := @ih (pre ++ (front ++ parsed)) s' (by simp [hmem])
            (by simp only [List.length_append] at hlen ⊢; omega)
          have hclean : (parsed ++ s' = [] ∨ ∃ u, LineTo r smp.capacity (parsed ++ s') u ∧
              Clean r u smps) ↔ Clean r s' smps := by
            simp only [hnil, false_or]
            constructor
            · rintro ⟨u, hu, hclean⟩
              rwa [← hs'.unique hu]
            · exact fun hclean => ⟨s', hs', hclean⟩
          rw [hadd, hclean, ← hrest]
          constructor
          · rintro ⟨hrbytes, hlooks', hresults⟩
            exact ⟨hrbytes, fun l hl => hlooks' l (List.mem_append_right _ hl),
              fun x hx => hresults x (List.mem_cons_of_mem _ hx)⟩
          · rintro ⟨hrbytes, hlooks', hresults⟩
            refine ⟨hrbytes, ?_, ?_⟩
            · intro l hl
              simp only [List.mem_append, List.mem_map] at hl
              rcases hl with (hl | ⟨l, hl, rfl⟩) | hl
              · exact hskipped l hl
              · have := hlooks l hl
                simp only [List.length_append] at hlen this ⊢
                omega
              · exact hlooks' l hl
            · intro x hx
              rcases List.mem_cons.mp hx with rfl | hx
              · rw [hret]
                exact Int.natCast_nonneg _
              · exact hresults x hx
        · constructor
          · rintro ⟨-, hlooks, hresults⟩
            rcases hbad with hneg | ⟨v, hv, -, heq⟩
            · exact absurd (hresults _ List.mem_cons_self) (by omega)
            · obtain ⟨l, hl, hlt⟩ := hv.looks_behind
              rw [← heq] at hl
              have := hlooks ⟨pre.length + front.length + l.start, l.size⟩
                (List.mem_append_left _ (List.mem_append_right _ (List.mem_map.mpr ⟨l, hl, rfl⟩)))
              dsimp only at this
              omega
          · rintro (hempty | ⟨s', hs', -⟩)
            · exact absurd hempty hnil
            · exact absurd ⟨s', hs'⟩ hnot
    · have hnil : line = [] := List.eq_nil_of_length_eq_zero (by omega)
      rw [sscanFrom_end (by omega)]
      simp only [hnil, true_or, iff_true]
      exact ⟨by dsimp only; omega, by simp, by simp⟩

end

/-- What is left of the text behind the lines that are skipped in front of the first sample. -/
def afterFirstLine (r : LineReader) (s : List Byte) : List Byte :=
  if r.skipFirstLine ∧ ¬ r.firstLineSkipped then
    afterDelimiter r.format.delimiter (s.dropWhile (· ≠ r.format.delimiter))
  else s

/-- For every text with a NUL behind it, every number of samples and any delimiter, `sscan` of
villas.human stays in the text and counts parsed lines only exactly when the text is clean. -/
theorem sscan_contained_iff (r : LineReader) (s b : List Byte) (smps : List Receiver)
    (hlayout : r.format.layout = .human) (hsize : s.length < 2 ^ 64) :
    Contained s.length (sscan r (s ++ 0 :: b) s.length smps) ↔ Clean r (afterFirstLine r s) smps := by
  have hfirst : ∃ front, s = front ++ afterFirstLine r s ∧
      firstLine r (s ++ 0 :: b) s.length = front.length := by
    unfold firstLine afterFirstLine
    split_ifs
    · have hsplit := List.takeWhile_append_dropWhile (p := (· ≠ r.format.delimiter)) (l := s)
      rw [skipLine_eq]
      · rw [List.drop_zero, Nat.zero_add, List.takeWhile_append]
        generalize hline : s.takeWhile (· ≠ r.format.delimiter) = line at hsplit
        cases hrest : s.dropWhile (· ≠ r.format.delimiter) with
        | nil =>
          rw [hrest, List.append_nil] at hsplit
          refine ⟨s, by simp [afterDelimiter], ?_⟩
          rw [hsplit, if_pos rfl]
          simp only [List.length_append]
          omega
        | cons c rest =>
          have hc : c = r.format.delimiter := by
            have hhead := List.head_dropWhile_not (l := s) (· ≠ r.format.delimiter) (by rw [hrest]; simp)
            simp only [hrest, List.head_cons, decide_eq_false_iff_not, not_not] at hhead
            exact hhead
          rw [hrest] at hsplit
          refine ⟨line ++ [c], by simp [afterDelimiter, hc, ← hsplit], ?_⟩
          have hlen := congrArg List.length hsplit
          simp only [List.length_append, List.length_cons] at hlen
          rw [if_neg (by omega)]
          simp only [List.length_append, List.length_singleton]
          omega
      · simp only [List.drop_zero, List.length_append, List.length_cons]
        omega
    · exact ⟨[], rfl, rfl⟩
  obtain ⟨front, hs, hfront⟩ := hfirst
  unfold sscan
  rw [hfront]
  apply sscanFrom_contained_iff (b := b) hlayout _ _ hsize
  · rw [← List.append_assoc, ← hs]
  · rw [← List.length_append, ← hs]

/-- Two lines with a comment between them. -/
def exampleClean : List Byte := ascii "1.5(7)\t5\n# two\n2.5\t-6\n"

theorem exampleClean_clean : Clean exampleReader exampleClean [exampleReceiver, exampleReceiver] :=
  (sscan_contained_iff exampleReader exampleClean [] _ rfl (by decide)).mp
    ⟨by decide, by decide, by decide⟩

/-- A text without a number: `sscan` counts one sample and reports nearly `2 ^ 64` bytes. -/
theorem sscan_not_contained : ¬ Contained (ascii "abc").length
    (sscan exampleReader (ascii "abc" ++ [0]) (ascii "abc").length [exampleReceiver]) := by
  intro h
  exact absurd h.rbytes (by decide)

end VillasNode.Line
