import VillasNode.Format.Header

/-!
# Regular lines

The lines that `sscanLine` reads up to their delimiter. What it makes of such a
line is the same wherever the line stands and whatever follows it.
-/

namespace VillasNode.Line

open ByteOrder Strto

/-- All of these are read up to byte `n` at most. -/
def Within (looks : List Look) (n : Nat) : Prop := ∀ l ∈ looks, l.start + l.size ≤ n

section
variable {r : LineReader} {v : ReadValues} {p q : Nat} {L b : List Byte}

theorem within_append {looks looks' : List Look} {n : Nat} :
    Within (looks ++ looks') n ↔ Within looks n ∧ Within looks' n := List.forall_mem_append

/-! ## The end of a line -/

theorem finishLine_ret (r : LineReader) (v : ReadValues) :
    (finishLine r v).ret = v.stop.pos + if v.stop.peek = r.format.delimiter then 1 else 0 := by
  unfold finishLine
  split_ifs <;> simp

theorem finishLine_forward (r : LineReader) (v : ReadValues) : v.stop.pos ≤ (finishLine r v).ret := by
  rw [finishLine_ret]
  split_ifs <;> omega

/-- The sample with the number of its values. -/
def counted (smp : Payload) (length : Nat) : Payload :=
  { smp with
    length
    flags := if 0 < length then smp.flags ||| SampleFlags.hasData else smp.flags }

theorem finishLine_smp (r : LineReader) (v : ReadValues) : (finishLine r v).smp = counted v.smp v.length := by
  unfold finishLine counted
  dsimp only
  split_ifs <;> rfl

theorem finishLine_end (h : v.stop = ⟨q, r.format.delimiter :: b⟩) :
    finishLine r v = ⟨counted v.smp v.length, (q + 1 : Nat), v.looks⟩ := by
  have hpeek : v.stop.peek = r.format.delimiter := by
    rw [h]
    rfl
  unfold finishLine counted
  rw [if_pos hpeek, h]
  dsimp only
  split_ifs <;> rfl

theorem finishLine_astray (hL : r.format.delimiter ∉ L)
    (h : Astray r.format.delimiter b p L v.stop) : (finishLine r v).ret ≠ p + L.length + 1 := by
  rcases h with ⟨s, hne, hs, hstop⟩ | hlt
  · have hle := hs.length_le
    have hpos := List.length_pos_iff.mpr hne
    have hpeek : v.stop.peek ≠ r.format.delimiter := by
      rw [hstop]
      intro heq
      cases s with
      | nil => exact hne rfl
      | cons e s => exact hL (hs.subset (heq ▸ List.mem_cons_self))
    rw [finishLine_ret, if_neg hpeek, hstop]
    dsimp only
    omega
  · have := finishLine_forward r v
    omega

end

/-! ## Columns -/

/-- One of the columns in front of the values, with the rest of the line in `next`. -/
def columnField (r : LineReader) (f : Scan) (set mark : List Byte → Payload → Payload)
    (next : Payload → Cursor → List Look → ReadLine) (smp : Payload) (ptr : Cursor)
    (looks : List Look) : ReadLine :=
  let (text, stop) := ptr.convert f
  let smp := set text smp
  let looks := looks ++ [ptr.look]
  if columnEnds r ptr stop then finishLine r ⟨smp, 0, stop, looks⟩
  else next (mark text smp) stop looks

/-- The rest of a line from a separator `c` on is read up to the delimiter exactly when `P` holds of
what is behind `c`, and is then read in the same way wherever it stands. -/
structure Isolates (r : LineReader) (next : Payload → Cursor → List Look → ReadLine)
    (P : List Byte → List Byte → Prop) : Prop where
  ret : ∀ ⦃smp p c L⦄ b looks, c ≠ r.format.delimiter → r.format.delimiter ∉ L →
    ((next smp ⟨p, c :: (L ++ r.format.delimiter :: b)⟩ looks).ret = p + L.length + 2 ↔ P b L)
  same : ∀ ⦃smp c L⦄, c ≠ r.format.delimiter → r.format.delimiter ∉ L → ∃ smp', ∀ p b looks,
    P b L → ∃ new, next smp ⟨p, c :: (L ++ r.format.delimiter :: b)⟩ looks =
        ⟨smp', (p + L.length + 2 : Nat), looks ++ new⟩ ∧
      ((∀ b, P b L) → Within new (p + L.length + 2))
  forward : ∀ smp stop looks, stop.pos ≤ (next smp stop looks).ret

section
variable {r : LineReader} {capacity : Nat}

theorem isolates_values (hd : inNumber r.format.delimiter = false) :
    Isolates r (fun smp stop looks => finishLine r (valueLoop r smp stop looks 0 capacity))
      (fun b L => Fields r.format.delimiter b (r.types.take capacity) L) where
  ret := by
    intro smp p c L b looks hc hL
    have hL' : r.format.delimiter ∉ c :: L := by simp [Ne.symm hc, hL]
    have hends := @valueLoop_ends r smp looks p 0 capacity _ b hd hL'
    rw [List.cons_append, List.drop_zero, Tail] at hends
    rcases hends with ⟨hfields, hstop⟩ | ⟨hfields, hastray⟩
    · rw [finishLine_end hstop]
      simp only [hfields, iff_true, List.length_cons]
      omega
    · have hne := finishLine_astray hL' hastray
      simp only [hfields, iff_false]
      rw [List.length_cons] at hne
      omega
  same := by
    intro smp c L hc hL
    have hL' : r.format.delimiter ∉ c :: L := by simp [Ne.symm hc, hL]
    obtain ⟨smp', k, hline⟩ := valueLoop_line (r := r) (i := 0) (n := capacity) hd hL'
    refine ⟨counted smp' k, ?_⟩
    intro p b looks hfields
    obtain ⟨new, heq, hnew⟩ := hline p b looks hfields
    rw [List.cons_append] at heq
    refine ⟨new, ?_, ?_⟩
    · rw [heq, finishLine_end rfl]
      rfl
    · intro hall l hl
      have := hnew hall l hl
      rw [List.length_cons] at this
      omega
  forward := by
    intro smp stop looks
    have := finishLine_forward r (valueLoop r smp stop looks 0 capacity)
    have := @valueLoop_forward r smp stop looks 0 capacity
    omega

end

section
variable {r : LineReader} {f : Scan} {set mark : List Byte → Payload → Payload}
  {next : Payload → Cursor → List Look → ReadLine} {t : SignalType} {ts : List SignalType}

/-- The type of a column in front of the values. -/
structure Column (f : Scan) (t : SignalType) : Prop where
  moves : Moves f
  bounded : ∀ ⦃d⦄, inNumber d = false → Bounded d f
  nothing : f [] = none
  valid : t ≠ .invalid
  scan : ∀ s, scanValue t s = scanNumber f s
  begins : ∀ s, begins t s = (spaced f s).isSome

theorem column_integer : Column integer .integer :=
  ⟨moves_integer, fun _ h => bounded_integer h, by decide, by decide, fun _ => rfl, fun _ => rfl⟩

theorem column_float : Column real .float :=
  ⟨moves_real, fun _ h => bounded_real h, by decide, by decide, fun _ => rfl, fun _ => rfl⟩

theorem columnField_eq {smp : Payload} {ptr stop : Cursor} {text : List Byte} (looks : List Look)
    (h : ptr.convert f = (text, stop)) :
    columnField r f set mark next smp ptr looks =
      if columnEnds r ptr stop then finishLine r ⟨set text smp, 0, stop, looks ++ [ptr.look]⟩
      else next (mark text (set text smp)) stop (looks ++ [ptr.look]) := by
  simp only [columnField, h]

theorem columnField_behind (hforward : ∀ smp stop looks, stop.pos ≤ (next smp stop looks).ret)
    (smp : Payload) (ptr : Cursor) (looks : List Look) :
    (ptr.convert f).2.pos ≤ (columnField r f set mark next smp ptr looks).ret := by
  rw [columnField_eq looks rfl]
  split_ifs
  · exact finishLine_forward r ⟨set (ptr.convert f).1 smp, 0, (ptr.convert f).2, looks ++ [ptr.look]⟩
  · exact hforward ..

theorem columnField_forward (hforward : ∀ smp stop looks, stop.pos ≤ (next smp stop looks).ret)
    (smp : Payload) (ptr : Cursor) (looks : List Look) :
    ptr.pos ≤ (columnField r f set mark next smp ptr looks).ret := by
  have hbehind := @columnField_behind r f set mark _ hforward smp ptr looks
  have hle : ptr.pos ≤ (ptr.convert f).2.pos := by
    cases h : spaced f ptr.rest with
    | none => rw [convert_none h]
    | some s =>
      rw [convert_some h]
      exact Cursor.le_upTo ..
  omega

theorem spaced_line {d : Byte} {L s b : List Byte} (hf : Bounded d f) (hnothing : f [] = none)
    (hs : spaced f L = some s) : spaced f (L ++ d :: b) = some (s ++ d :: b) := by
  rw [hf.spaced, hs, Option.map_some]
  rintro ⟨hall, -⟩
  rw [spaced_all hnothing hall] at hs
  cases hs

theorem convert_line {d : Byte} {p : Nat} {L s b : List Byte} (hf : Moves f) (hs : spaced f L = some s)
    (hspaced : spaced f (L ++ d :: b) = some (s ++ d :: b)) :
    (⟨p, L ++ d :: b⟩ : Cursor).convert f =
      (token L s, ⟨p + (L.length - s.length), s ++ d :: b⟩) := by
  rw [convert_some (c := ⟨p, L ++ d :: b⟩) hspaced]
  simp only [Cursor.upTo, List.length_append, Nat.add_sub_add_right, token_append hf hs]

theorem Column.error (hcolumn : Column f t) {s : List Byte} (hs : spaced f s = none) :
    scanValue t s = .error s := by
  rw [hcolumn.scan, scanNumber_error hs]

theorem Column.ok (hcolumn : Column f t) {L s : List Byte} (hs : spaced f L = some s) :
    scanValue t L = .ok s := by
  rw [hcolumn.scan, scanNumber, hs]

theorem columnEnds_delimiter (ptr : Cursor) (q : Nat) (b : List Byte) :
    columnEnds r ptr ⟨q, r.format.delimiter :: b⟩ := by
  simp [columnEnds, Cursor.peek]

theorem not_columnEnds {ptr : Cursor} {c : Byte} {q : Nat} (hlt : ptr.pos < q)
    (hc : c ≠ r.format.delimiter) (s : List Byte) : ¬ columnEnds r ptr ⟨q, c :: s⟩ := by
  simp only [columnEnds, Cursor.peek, List.headD_cons, hc, or_false, decide_eq_true_eq]
  omega

theorem look_line {pre L : List Byte} (hd : inNumber r.format.delimiter = false)
    (hblank : ¬ Blank r.format.delimiter L) (hpre : pre.all isSpace) (p : Nat) (b : List Byte) :
    Within [(⟨p, pre ++ (L ++ r.format.delimiter :: b)⟩ : Cursor).look]
      (p + pre.length + L.length + 1) := by
  intro l hl
  have happend := look_append (c := ⟨p + pre.length, L⟩) (b := b) hd hblank
  have hle := look_le ⟨p + pre.length, L⟩
  rw [Cursor.append] at happend
  rw [look_behind hpre, happend, List.mem_singleton] at hl
  rw [hl]
  simp only [Cursor.look] at hle ⊢
  omega

theorem columnField_ret (hcolumn : Column f t) (hd : inNumber r.format.delimiter = false)
    (hnext : Isolates r next fun b L => Fields r.format.delimiter b ts L) {smp : Payload} {p : Nat}
    {L : List Byte} (b : List Byte) (looks : List Look) (hL : r.format.delimiter ∉ L) :
    (columnField r f set mark next smp ⟨p, L ++ r.format.delimiter :: b⟩ looks).ret = p + L.length + 1 ↔
      Fields r.format.delimiter b (t :: ts) L := by
  -- Without a number the line ends here, which is right at the delimiter only.
  have hends : spaced f (L ++ r.format.delimiter :: b) = none →
      ((columnField r f set mark next smp ⟨p, L ++ r.format.delimiter :: b⟩ looks).ret =
        p + L.length + 1 ↔ L = []) := by
    intro hs
    rw [columnField_eq looks (convert_none (c := ⟨p, L ++ r.format.delimiter :: b⟩) hs),
      if_pos (by simp [columnEnds]), finishLine_ret]
    cases L with
    | nil => simp [Cursor.peek]
    | cons e L =>
      have he : e ≠ r.format.delimiter := fun h => hL (h ▸ List.mem_cons_self)
      simp only [Cursor.peek, List.cons_append, List.headD_cons, he, if_false, List.length_cons,
        reduceCtorEq, iff_false]
      omega
  by_cases hblank : Blank r.format.delimiter L
  · have hs : spaced f L = none := spaced_all hcolumn.nothing hblank.1
    have hb := spaced_blank (f := f) (b := b) hblank.1 hblank.2
    rw [fields_error hcolumn.valid (hcolumn.error hs), hcolumn.begins]
    cases hbehind : spaced f b with
    | none =>
      rw [hends (hb.trans hbehind)]
      simp
    | some s =>
      have hlt := (hcolumn.moves.spaced hbehind).2
      have hret := @columnField_behind r f set mark _ hnext.forward smp
        ⟨p, L ++ r.format.delimiter :: b⟩ looks
      rw [convert_some (c := ⟨p, L ++ r.format.delimiter :: b⟩) (hb.trans hbehind)] at hret
      simp only [Cursor.upTo, List.length_append, List.length_cons] at hret
      have hne : (columnField r f set mark next smp ⟨p, L ++ r.format.delimiter :: b⟩ looks).ret ≠
          p + L.length + 1 := by omega
      simp only [hne, false_iff]
      rintro ⟨hnil, hnot⟩
      exact hnot ⟨hnil, hblank.2, rfl⟩
  · have hs := (hcolumn.bounded hd).spaced (b := b) hblank
    cases hscan : spaced f L with
    | none =>
      rw [hscan] at hs
      rw [fields_error hcolumn.valid (hcolumn.error hscan), hends hs]
      exact ⟨fun h => ⟨h, not_empty_field hblank⟩, fun h => h.1⟩
    | some s =>
      rw [hscan] at hs
      obtain ⟨hsuffix, hlt⟩ := hcolumn.moves.spaced hscan
      rw [fields_ok hcolumn.valid (hcolumn.ok hscan),
        columnField_eq looks (convert_line hcolumn.moves hscan hs)]
      cases s with
      | nil =>
        rw [List.nil_append, if_pos (columnEnds_delimiter ..), finishLine_end rfl]
        simp [Tail]
      | cons c s =>
        have hc : c ≠ r.format.delimiter := fun h => hL (hsuffix.subset (h ▸ List.mem_cons_self))
        have hs' : r.format.delimiter ∉ s :=
          fun h => hL (hsuffix.subset (List.mem_cons_of_mem _ h))
        have hmoved : p < p + (L.length - (c :: s).length) := by omega
        rw [List.cons_append, if_neg (not_columnEnds hmoved hc _), Tail,
          ← hnext.ret (p := p + (L.length - (c :: s).length)) b
            (looks ++ [(⟨p, L ++ r.format.delimiter :: b⟩ : Cursor).look]) hc hs']
        rw [List.length_cons] at hlt ⊢
        rw [show ((p + (L.length - (s.length + 1)) : Nat) : Int) + s.length + 2 = p + L.length + 1 by
          omega]

theorem columnField_empty (hcolumn : Column f t) (hd : inNumber r.format.delimiter = false)
    {L : List Byte} (hscan : spaced f L = none) (smp : Payload) (p : Nat) (b : List Byte)
    (looks : List Look) (hfields : Fields r.format.delimiter b (t :: ts) L) :
    L = [] ∧ columnField r f set mark next smp ⟨p, r.format.delimiter :: b⟩ looks =
      ⟨counted (set [] smp) 0, (p + 1 : Nat), looks ++ [(⟨p, r.format.delimiter :: b⟩ : Cursor).look]⟩ := by
  obtain ⟨rfl, hnot⟩ := (fields_error hcolumn.valid (hcolumn.error hscan)).mp hfields
  have hs : spaced f ([] ++ r.format.delimiter :: b) = none := by
    by_cases hspace : isSpace r.format.delimiter
    · rw [spaced_blank rfl hspace, ← Option.not_isSome_iff_eq_none, ← hcolumn.begins]
      exact fun h => hnot ⟨rfl, hspace, h⟩
    · rw [(hcolumn.bounded hd).spaced (fun h => hspace h.2), hscan, Option.map_none]
  refine ⟨rfl, ?_⟩
  rw [columnField_eq looks (convert_none (c := ⟨p, r.format.delimiter :: b⟩) hs),
    if_pos (columnEnds_delimiter ..), finishLine_end rfl]

theorem columnField_same (hcolumn : Column f t) (hd : inNumber r.format.delimiter = false)
    (hnext : Isolates r next fun b L => Fields r.format.delimiter b ts L) (smp : Payload)
    {L : List Byte} (hL : r.format.delimiter ∉ L) :
    ∃ smp', ∀ p pre b looks, pre.all isSpace → (pre = [] ∨ (spaced f L).isSome) →
      Fields r.format.delimiter b (t :: ts) L →
      ∃ new, columnField r f set mark next smp ⟨p, pre ++ (L ++ r.format.delimiter :: b)⟩ looks =
          ⟨smp', (p + pre.length + L.length + 1 : Nat), looks ++ new⟩ ∧
        ((∀ b, Fields r.format.delimiter b (t :: ts) L) → Within new (p + pre.length + L.length + 1)) := by
  cases hscan : spaced f L with
  | none =>
    refine ⟨counted (set [] smp) 0, ?_⟩
    intro p pre b looks hpre hnumber hfields
    obtain ⟨rfl, heq⟩ := @columnField_empty r f set mark next t ts hcolumn hd _ hscan smp p b looks hfields
    obtain rfl : pre = [] := by simpa using hnumber
    refine ⟨[(⟨p, r.format.delimiter :: b⟩ : Cursor).look], heq, fun hall => ?_⟩
    have hblank : ¬ Blank r.format.delimiter [] := by
      intro hblank
      exact ((fields_error hcolumn.valid (hcolumn.error hscan)).mp (hall [ch '1'])).2
        ⟨rfl, hblank.2, begins_one hcolumn.valid⟩
    exact look_line hd hblank hpre p b
  | some s =>
    have hblank : ¬ Blank r.format.delimiter L := by
      intro hblank
      rw [spaced_all hcolumn.nothing hblank.1] at hscan
      cases hscan
    have hok := hcolumn.ok hscan
    have hs : ∀ b, spaced f (L ++ r.format.delimiter :: b) = some (s ++ r.format.delimiter :: b) :=
      fun _ => spaced_line (hcolumn.bounded hd) hcolumn.nothing hscan
    obtain ⟨hsuffix, hlt⟩ := hcolumn.moves.spaced hscan
    have hconvert : ∀ p pre b, pre.all isSpace →
        (⟨p, pre ++ (L ++ r.format.delimiter :: b)⟩ : Cursor).convert f =
          (token L s, ⟨p + pre.length + (L.length - s.length), s ++ r.format.delimiter :: b⟩) := by
      intro p pre b hpre
      rw [convert_behind hcolumn.moves hpre (hs b), convert_line hcolumn.moves hscan (hs b)]
    cases s with
    | nil =>
      refine ⟨counted (set (token L []) smp) 0, ?_⟩
      intro p pre b looks hpre _ _
      refine ⟨[(⟨p, pre ++ (L ++ r.format.delimiter :: b)⟩ : Cursor).look], ?_,
        fun _ => look_line hd hblank hpre p b⟩
      rw [columnField_eq looks (hconvert p pre b hpre), List.nil_append,
        if_pos (columnEnds_delimiter ..), finishLine_end rfl]
      rfl
    | cons c s =>
      have hc : c ≠ r.format.delimiter := fun h => hL (hsuffix.subset (h ▸ List.mem_cons_self))
      have hs' : r.format.delimiter ∉ s := fun h => hL (hsuffix.subset (List.mem_cons_of_mem _ h))
      obtain ⟨smp', hsame⟩ := hnext.same hc hs'
      refine ⟨smp', ?_⟩
      intro p pre b looks hpre _ hfields
      have hmoved : p < p + pre.length + (L.length - (c :: s).length) := by omega
      have hpos : p + pre.length + (L.length - (c :: s).length) + s.length + 2 =
          p + pre.length + L.length + 1 := by
        rw [List.length_cons] at hlt ⊢
        omega
      obtain ⟨new, heq, hnew⟩ := hsame (p + pre.length + (L.length - (c :: s).length)) b
        (looks ++ [(⟨p, pre ++ (L ++ r.format.delimiter :: b)⟩ : Cursor).look])
        ((fields_ok hcolumn.valid hok).mp hfields)
      rw [hpos] at heq hnew
      refine ⟨(⟨p, pre ++ (L ++ r.format.delimiter :: b)⟩ : Cursor).look :: new, ?_, ?_⟩
      · rw [columnField_eq looks (hconvert p pre b hpre), List.cons_append,
          if_neg (not_columnEnds hmoved hc _), heq, List.append_assoc, List.singleton_append]
      · intro hall
        exact within_append.2 ⟨look_line hd hblank hpre p b,
          hnew fun b => (fields_ok hcolumn.valid hok).mp (hall b)⟩

theorem isolates_field (hcolumn : Column f t) (hd : inNumber r.format.delimiter = false)
    (hnext : Isolates r next fun b L => Fields r.format.delimiter b ts L) :
    Isolates r (fun smp stop looks => columnField r f set mark next smp stop.next looks)
      (fun b L => Fields r.format.delimiter b (t :: ts) L) where
  ret := by
    intro smp p c L b looks _ hL
    rw [← columnField_ret (p := p + 1) hcolumn hd hnext b looks hL]
    rw [show ((p : Nat) : Int) + L.length + 2 = ((p + 1 : Nat) : Int) + L.length + 1 by omega]
    rfl
  same := by
    intro smp c L _ hL
    obtain ⟨smp', hsame⟩ := columnField_same hcolumn hd hnext smp hL
    refine ⟨smp', ?_⟩
    intro p b looks hfields
    have hline := hsame (p + 1) [] b looks rfl (.inl rfl) hfields
    rw [List.length_nil, Nat.add_zero, Nat.add_right_comm p 1] at hline
    exact hline
  forward := by
    intro smp stop looks
    have := @columnField_forward r f set mark _ hnext.forward smp stop.next looks
    rw [Cursor.next_pos] at this
    omega

end

/-! ## Lines of csv and tsv -/

/-- The columns of a line up to the values. -/
def columns (r : LineReader) (capacity : Nat) : List SignalType :=
  [.integer, .integer, .float, .integer] ++ r.types.take capacity

section
variable {r : LineReader} {capacity : Nat}

/-! What a column does to the sample, and what it does when there are more columns. -/

def nsecText (text : List Byte) (smp : Payload) : Payload :=
  { smp with origin := { smp.origin with nsec := ulongValue text } }

def nsecMark (_ : List Byte) (smp : Payload) : Payload :=
  { smp with flags := smp.flags ||| SampleFlags.hasTsOrigin }

def offsetMark (r : LineReader) (text : List Byte) (smp : Payload) : Payload :=
  { smp with
    received := r.conv.timeAdd smp.origin (if text = [] then 0 else r.conv.toFloat text)
    flags := smp.flags ||| SampleFlags.hasTsReceived }

def sequenceText (text : List Byte) (smp : Payload) : Payload := { smp with sequence := ulongValue text }

def sequenceMark (_ : List Byte) (smp : Payload) : Payload :=
  { smp with flags := smp.flags ||| SampleFlags.hasSequence }

/-- The values of a line. -/
def valuesNext (r : LineReader) (capacity : Nat) : Payload → Cursor → List Look → ReadLine :=
  fun smp stop looks => finishLine r (valueLoop r smp stop looks 0 capacity)

/-- The columns behind the offset. -/
def sequenceNext (r : LineReader) (capacity : Nat) : Payload → Cursor → List Look → ReadLine :=
  fun smp stop looks =>
    columnField r integer sequenceText sequenceMark (valuesNext r capacity) smp stop.next looks

/-- The columns behind the nanoseconds. -/
def offsetNext (r : LineReader) (capacity : Nat) : Payload → Cursor → List Look → ReadLine :=
  fun smp stop looks =>
    columnField r real (fun _ smp => smp) (offsetMark r) (sequenceNext r capacity) smp stop.next looks

/-- The columns behind the seconds. -/
def nsecNext (r : LineReader) (capacity : Nat) : Payload → Cursor → List Look → ReadLine :=
  fun smp stop looks =>
    columnField r integer nsecText nsecMark (offsetNext r capacity) smp stop.next looks

theorem isolates_offsetNext (hd : inNumber r.format.delimiter = false) :
    Isolates r (offsetNext r capacity)
      fun b L => Fields r.format.delimiter b ([.float, .integer] ++ r.types.take capacity) L :=
  isolates_field column_float hd (isolates_field column_integer hd (isolates_values hd))

theorem isolates_nsecNext (hd : inNumber r.format.delimiter = false) :
    Isolates r (nsecNext r capacity)
      fun b L => Fields r.format.delimiter b ([.integer, .float, .integer] ++ r.types.take capacity) L :=
  isolates_field column_integer hd (isolates_offsetNext hd)

/-- The sample with the seconds only. -/
def secText (r : LineReader) (text : List Byte) (smp : Payload) : Payload :=
  { smp with flags := 0, signals := r.signals, origin := { smp.origin with sec := ulongValue text } }

theorem columnSscanLine_eq (buf : List Byte) (smp : Payload) :
    columnSscanLine r capacity buf smp =
      columnField r integer (secText r) (fun _ smp => smp) (nsecNext r capacity) smp ⟨0, buf⟩
        [] := rfl

end

/-! ## Lines of villas.human -/

/-- The front of the line, and the fields of the values behind it. -/
def HumanLine (d : Byte) (b : List Byte) (ts : List SignalType) (L : List Byte) : Prop :=
  ∃ u s, humanHeader d ⟨0, L ++ [d]⟩ = some u ∧ u.stop.rest = s ++ [d] ∧ Tail d b ts s

section
variable {r : LineReader} {capacity : Nat} {L b : List Byte}

/-- The sample with the time of its reception when there is an offset. -/
def LineReader.delayed (r : LineReader) (offset : BitVec 32) (smp : Payload) : Payload :=
  if hasFlag smp.flags SampleFlags.hasOffset then
    { smp with
      received := r.conv.timeAdd smp.origin offset
      flags := smp.flags ||| SampleFlags.hasTsReceived }
  else smp

theorem humanFinish_eq (offset : BitVec 32) (v : ReadValues) :
    humanFinish r offset v =
      ⟨r.delayed offset (finishLine r v).smp, (finishLine r v).ret, (finishLine r v).looks⟩ := by
  unfold humanFinish LineReader.delayed
  dsimp only
  split_ifs <;> rfl

theorem humanValues_forward {smp : Payload} {offset : BitVec 32} {stop : Cursor} {looks : List Look} :
    stop.pos ≤ (humanValues r capacity smp offset stop looks).ret := by
  have hfinish := finishLine_forward r (valueLoop r smp stop looks 0 capacity)
  have hloop := @valueLoop_forward r smp stop looks 0 capacity
  rw [humanValues, humanFinish_eq]
  dsimp only
  omega

theorem humanValues_ret (hd : inNumber r.format.delimiter = false) {smp : Payload}
    {offset : BitVec 32} {p : Nat} {looks : List Look} (hL : r.format.delimiter ∉ L) :
    (humanValues r capacity smp offset ⟨p, L ++ r.format.delimiter :: b⟩ looks).ret = p + L.length + 1 ↔
      Tail r.format.delimiter b (r.types.take capacity) L := by
  rw [humanValues, humanFinish_eq]
  dsimp only
  rcases valueLoop_ends (p := p) (i := 0) (n := capacity) (b := b) hd hL
    with ⟨htail, hstop⟩ | ⟨htail, hastray⟩
  · rw [List.drop_zero] at htail
    rw [finishLine_end hstop]
    simp [htail]
  · rw [List.drop_zero] at htail
    simp only [finishLine_astray hL hastray, htail]

theorem humanValues_same (hd : inNumber r.format.delimiter = false) (smp : Payload)
    (offset : BitVec 32) (hL : r.format.delimiter ∉ L) :
    ∃ smp', ∀ p b looks, Tail r.format.delimiter b (r.types.take capacity) L →
      ∃ new, humanValues r capacity smp offset ⟨p, L ++ r.format.delimiter :: b⟩ looks =
          ⟨smp', (p + L.length + 1 : Nat), looks ++ new⟩ ∧
        ((∀ b, Tail r.format.delimiter b (r.types.take capacity) L) → Within new (p + L.length + 1)) := by
  obtain ⟨smp', k, hline⟩ := valueLoop_line (r := r) (i := 0) (n := capacity) hd hL
  refine ⟨r.delayed offset (counted smp' k), ?_⟩
  intro p b looks htail
  obtain ⟨new, heq, hnew⟩ := hline p b looks htail
  refine ⟨new, ?_, hnew⟩
  rw [humanValues, heq, humanFinish_eq, finishLine_end (b := b) rfl]

theorem human_ret (hd : inNumber r.format.delimiter = false) (hL : r.format.delimiter ∉ L)
    (b : List Byte) (smp : Payload) :
    (humanSscanLine r capacity (L ++ r.format.delimiter :: b) smp).ret = L.length + 1 ↔
      HumanLine r.format.delimiter b (r.types.take capacity) L := by
  have hline : ∀ u s, humanHeader r.format.delimiter ⟨0, L ++ [r.format.delimiter]⟩ = some u →
      u.stop.rest = s ++ [r.format.delimiter] → s <:+ L ∧ ∃ looks,
        humanHeader r.format.delimiter ⟨0, L ++ r.format.delimiter :: b⟩ =
          some ⟨u.val, looks, ⟨L.length - s.length, s ++ r.format.delimiter :: b⟩⟩ := by
    intro u s hu hs
    obtain ⟨hsuffix, hread⟩ := humanHeader_line hd hu hs
    obtain ⟨looks, hread, -⟩ := hread 0 [] b rfl
    refine ⟨hsuffix, looks, hread.trans ?_⟩
    rw [List.length_nil, Nat.zero_add]
  rcases @follows_humanHeader r capacity smp (L ++ r.format.delimiter :: b)
    with ⟨hnone, hret⟩ | ⟨v, hv, heq⟩
  · constructor
    · intro h
      omega
    · rintro ⟨u, s, hu, hs, -⟩
      obtain ⟨-, looks, hread⟩ := hline u s hu hs
      rw [hnone] at hread
      cases hread
  rw [heq]
  dsimp only
  rcases stays_humanHeader hd r.format.delimiter hv with ⟨-, hlt⟩ | ⟨s, hs, hstop, -, hsame⟩
  · -- The front ends behind the delimiter.
    have hexact := (exact_humanHeader hv).2
    have hforward := @humanValues_forward r capacity (r.header smp v.val) (r.offset v.val) v.stop
      v.looks
    simp only [List.length_append, List.length_cons] at hexact
    constructor
    · intro h
      omega
    · rintro ⟨u, s, hu, hs, -⟩
      obtain ⟨-, looks, hread⟩ := hline u s hu hs
      rw [hv] at hread
      cases hread
      simp only [List.length_append, List.length_cons] at hlt
      omega
  · have hle := hs.length_le
    have hs' : r.format.delimiter ∉ s := fun h => hL (hs.subset h)
    have hvalues := @humanValues_ret _ capacity _ b hd (r.header smp v.val) (r.offset v.val)
      (L.length - s.length) v.looks hs'
    rw [show ((L.length - s.length : Nat) : Int) + s.length + 1 = L.length + 1 by omega] at hvalues
    rw [hstop, Nat.zero_add, hvalues]
    constructor
    · intro htail
      obtain ⟨looks, hread⟩ := hsame 0 []
      exact ⟨_, s, hread, rfl, htail⟩
    · rintro ⟨u, s', hu, hs', htail⟩
      obtain ⟨-, looks, hread⟩ := hline u s' hu hs'
      rw [hv] at hread
      cases hread
      rw [Cursor.mk.injEq] at hstop
      rwa [← List.append_cancel_right hstop.2]

theorem human_same (hd : inNumber r.format.delimiter = false) (hL : r.format.delimiter ∉ L)
    (smp : Payload) :
    ∃ smp', ∀ pre b, pre.all isSpace → HumanLine r.format.delimiter b (r.types.take capacity) L →
      ∃ looks, humanSscanLine r capacity (pre ++ (L ++ r.format.delimiter :: b)) smp =
          ⟨smp', (pre.length + L.length + 1 : Nat), looks⟩ ∧
        ((∀ b, HumanLine r.format.delimiter b (r.types.take capacity) L) →
          Within looks (pre.length + L.length + 1)) := by
  by_cases hfront : ∃ u s, humanHeader r.format.delimiter ⟨0, L ++ [r.format.delimiter]⟩ = some u ∧
      u.stop.rest = s ++ [r.format.delimiter]
  · obtain ⟨u, s, hu, hs⟩ := hfront
    obtain ⟨hsuffix, hread⟩ := humanHeader_line hd hu hs
    have htail : ∀ b, HumanLine r.format.delimiter b (r.types.take capacity) L →
        Tail r.format.delimiter b (r.types.take capacity) s := by
      rintro b ⟨v, s', hv, hs', htail⟩
      rw [hu] at hv
      cases hv
      rw [hs] at hs'
      rwa [List.append_cancel_right hs']
    obtain ⟨smp', hsame⟩ := humanValues_same hd (r.header smp u.val)
      (r.offset u.val) (fun h => hL (hsuffix.subset h))
    refine ⟨smp', ?_⟩
    intro pre b hpre hline
    obtain ⟨looks, hheader, hlooks⟩ := hread 0 pre b hpre
    obtain ⟨new, hvalues, hnew⟩ := hsame (0 + pre.length + (L.length - s.length)) b looks (htail b hline)
    have hpos : 0 + pre.length + (L.length - s.length) + s.length + 1 = pre.length + L.length + 1 := by
      have := hsuffix.length_le
      omega
    rw [hpos] at hvalues hnew
    rcases follows_humanHeader (r := r)
      (pre ++ (L ++ r.format.delimiter :: b)) with ⟨hnone, -⟩ | ⟨v, hv, heq⟩
    · rw [hheader] at hnone
      cases hnone
    · rw [hheader] at hv
      cases hv
      refine ⟨_, heq.trans hvalues, ?_⟩
      intro hall
      rw [Nat.zero_add] at hlooks
      exact within_append.2 ⟨fun l hl => (hlooks l hl).2, hnew fun b => htail b (hall b)⟩
  · refine ⟨smp, ?_⟩
    rintro pre b - ⟨u, s, hu, hs, -⟩
    exact absurd ⟨u, s, hu, hs⟩ hfront

end

/-! ## Lines of either kind -/

/-- The lines that are read up to their delimiter when `b` follows it. -/
def Regular (r : LineReader) (capacity : Nat) (b L : List Byte) : Prop :=
  match r.format.layout with
  | .human => HumanLine r.format.delimiter b (r.types.take capacity) L
  | .column _ => Fields r.format.delimiter b (columns r capacity) L

section
variable {r : LineReader} {capacity : Nat} {L : List Byte}

theorem line_ret (hd : inNumber r.format.delimiter = false) (hL : r.format.delimiter ∉ L)
    (b : List Byte) (smp : Payload) :
    (sscanLine r capacity (L ++ r.format.delimiter :: b) smp).ret = L.length + 1 ↔
      Regular r capacity b L := by
  unfold sscanLine Regular
  cases r.format.layout with
  | human => exact human_ret hd hL b smp
  | column separator =>
    dsimp only
    rw [columnSscanLine_eq, columns, List.cons_append, ← @columnField_ret _ _ (secText r)
      (fun _ smp => smp) _ _ _ column_integer hd (isolates_nsecNext hd) smp 0 _ b [] hL]
    simp

theorem line_same (hd : inNumber r.format.delimiter = false) (hL : r.format.delimiter ∉ L)
    (smp : Payload) :
    ∃ smp', ∀ pre b, pre.all isSpace → (pre = [] ∨ (spaced integer L).isSome) → Regular r capacity b L →
      ∃ looks, sscanLine r capacity (pre ++ (L ++ r.format.delimiter :: b)) smp =
          ⟨smp', (pre.length + L.length + 1 : Nat), looks⟩ ∧
        ((∀ b, Regular r capacity b L) → Within looks (pre.length + L.length + 1)) := by
  unfold sscanLine Regular
  cases r.format.layout with
  | human =>
    obtain ⟨smp', hsame⟩ := human_same hd hL smp
    exact ⟨smp', fun pre b hpre _ hline => hsame pre b hpre hline⟩
  | column separator =>
    obtain ⟨smp', hsame⟩ := @columnField_same _ _ (secText r) (fun _ smp => smp) _ _ _
      column_integer hd (isolates_nsecNext hd) smp _ hL
    refine ⟨smp', ?_⟩
    intro pre b hpre hnumber hfields
    obtain ⟨new, heq, hnew⟩ := hsame 0 pre b [] hpre hnumber hfields
    rw [Nat.zero_add] at heq hnew
    exact ⟨new, heq, hnew⟩

end

end VillasNode.Line
