import VillasNode.Format.Regular

/-!
# Closed lines

A delimiter may be a byte that can stand in a number. A line is closed when each
number of it ends in front of the delimiter all the same, with what follows in
memory. It is then read up to the delimiter, and as it is read alone. With a
delimiter that no number contains the closed lines are the regular ones.
-/

namespace VillasNode.Line

open ByteOrder Strto

/-! ## Values -/

/-- Neither the parts of the number nor its `i` are looked for behind `s`. -/
def KeepsComplex (d : Byte) (b s : List Byte) : Prop :=
  Strto.Keeps real d b s ∧ ∀ r, spaced real s = some r →
    (r = [] → isImaginary d = false ∧ isSign d = false) ∧
      (isSign (r.headD 0) → Strto.Keeps real d b r ∧ (spaced real r = some [] → isImaginary d = false))

/-- A value at the front of `s` is read as it is when `d` and `b` follow. -/
def KeepsValue (d : Byte) (b : List Byte) : SignalType → List Byte → Prop
  | .float, s => Strto.Keeps real d b s
  | .integer, s => Strto.Keeps integer d b s
  | .boolean, s => Strto.Keeps integer d b s
  | .complex, s => KeepsComplex d b s
  | .invalid, _ => True

section
variable {fs : FloatScan} {data : Value} {ptr stop stop' : Cursor} {d : Byte} {b : List Byte}

theorem strtod_keeps (h : Strto.Keeps real d b ptr.rest) :
    fs.strtod (ptr.append (d :: b)) = ((fs.strtod ptr).1, (fs.strtod ptr).2.append (d :: b)) := by
  unfold FloatScan.strtod
  rw [h.convert moves_real]

theorem peek_append_of (p : Byte → Bool) (hnul : p 0 = false) {c : Cursor} (h : c.rest = [] → p d = false) :
    p (c.append (d :: b)).peek = p c.peek := by
  unfold Cursor.peek Cursor.append
  cases hrest : c.rest with
  | nil => exact (h hrest).trans hnul.symm
  | cons _ _ => rfl

theorem strtod_rest {r : List Byte} (h : spaced real ptr.rest = some r) : (fs.strtod ptr).2.rest = r := by
  unfold FloatScan.strtod
  rw [convert_some h]
  rfl

theorem parseComplex_keeps (h : KeepsComplex d b ptr.rest) :
    ∃ looks, parseComplex fs data (ptr.append (d :: b)) =
      ⟨(parseComplex fs data ptr).data, (parseComplex fs data ptr).ret,
        (parseComplex fs data ptr).stop.append (d :: b), looks⟩ := by
  obtain ⟨hfirst, hrest⟩ := h
  have hnext : ∀ c : Cursor, isImaginary c.peek → (c.append (d :: b)).next = c.next.append (d :: b) :=
    fun c hc => Cursor.next_append (imaginary_ne_nil hc) _
  unfold parseComplex
  rw [strtod_keeps hfirst]
  cases hs : spaced real ptr.rest with
  | none =>
    unfold FloatScan.strtod
    rw [convert_none hs]
    simp only [Cursor.append_pos, if_true]
    exact ⟨_, rfl⟩
  | some r =>
    obtain ⟨hend, hsecond⟩ := hrest r hs
    have hr := @strtod_rest fs _ _ hs
    generalize fs.strtod ptr = v at hr ⊢
    rcases v with ⟨f, c⟩
    obtain rfl : c.rest = r := hr
    have himaginary : isImaginary (c.append (d :: b)).peek = isImaginary c.peek :=
      peek_append_of _ (by decide) fun h => (hend h).1
    have hsign : isSign (c.append (d :: b)).peek = isSign c.peek :=
      peek_append_of _ (by decide) fun h => (hend h).2
    simp only [Cursor.append_pos, himaginary, hsign]
    by_cases hpos : c.pos = ptr.pos
    · simp only [hpos, if_true]
      exact ⟨_, rfl⟩
    by_cases hc : isImaginary c.peek
    · simp only [hpos, hc, if_true, if_false, hnext c hc]
      exact ⟨_, rfl⟩
    by_cases hsigned : isSign c.peek
    · obtain ⟨hkeeps, hlast⟩ := hsecond hsigned
      simp only [hpos, hc, hsigned, if_true, if_false, Bool.false_eq_true, strtod_keeps hkeeps,
        Cursor.append_pos]
      cases hs' : spaced real c.rest with
      | none =>
        unfold FloatScan.strtod
        rw [convert_none hs']
        simp only [if_true]
        exact ⟨_, rfl⟩
      | some u =>
        have hu := @strtod_rest fs _ _ hs'
        generalize fs.strtod c = v at hu ⊢
        rcases v with ⟨f', c'⟩
        obtain rfl : c'.rest = u := hu
        have himaginary' : isImaginary (c'.append (d :: b)).peek = isImaginary c'.peek :=
          peek_append_of _ (by decide) fun h => hlast (h ▸ hs')
        simp only [himaginary']
        by_cases hpos' : c'.pos = c.pos
        · simp only [hpos', if_true]
          exact ⟨_, rfl⟩
        by_cases hc' : isImaginary c'.peek
        · simp only [hpos', hc', not_true_eq_false, if_false, hnext c' hc']
          exact ⟨_, rfl⟩
        · simp only [hpos', hc', not_false_eq_true, if_true, if_false, Bool.false_eq_true]
          exact ⟨_, rfl⟩
    · simp only [hpos, hc, hsigned, if_false, Bool.false_eq_true]
      exact ⟨_, rfl⟩

theorem parse_keeps {type : SignalType} (htype : type ≠ .invalid) (h : KeepsValue d b type ptr.rest) :
    ∃ looks, signalDataParseStr fs data type (ptr.append (d :: b)) stop =
      ⟨(signalDataParseStr fs data type ptr stop').data, (signalDataParseStr fs data type ptr stop').ret,
        (signalDataParseStr fs data type ptr stop').stop.append (d :: b), looks⟩ := by
  cases type with
  | invalid => exact absurd rfl htype
  | float =>
    simp only [signalDataParseStr, strtod_keeps h]
    exact ⟨_, rfl⟩
  | integer | boolean =>
    unfold signalDataParseStr strtol
    rw [Strto.Keeps.convert h moves_integer]
    exact ⟨_, rfl⟩
  | complex => exact parseComplex_keeps h

/-- With a delimiter that no number contains all values are kept, but for white space with a number
behind the delimiter. -/
theorem keepsValue_bounded {t : SignalType} {s : List Byte} (hd : inNumber d = false)
    (hblank : ¬ Blank d s) : KeepsValue d b t s := by
  have hreal : ∀ u, ¬ Blank d u → Strto.Keeps real d b u := fun _ h => (bounded_real hd).spaced h
  cases t with
  | invalid => trivial
  | float => exact hreal s hblank
  | integer | boolean => exact (bounded_integer hd).spaced hblank
  | complex =>
    refine ⟨hreal s hblank, fun r _ => ⟨fun _ => ⟨isImaginary_plain hd, not_sign hd⟩, ?_⟩⟩
    intro hsign
    exact ⟨hreal r (sign_not_blank hsign), fun _ => isImaginary_plain hd⟩

theorem keepsValue_blank {t : SignalType} (ht : t ≠ .invalid) {s : List Byte} (h : Blank d s) :
    KeepsValue d b t s ↔ begins t b = false := by
  have hreal : Strto.Keeps real d b s ↔ (spaced real b).isSome = false := keeps_blank (by decide) h.1 h.2
  cases t with
  | invalid => exact absurd rfl ht
  | float => exact hreal
  | integer | boolean => exact keeps_blank (by decide) h.1 h.2
  | complex =>
    rw [KeepsValue, KeepsComplex, hreal, begins, spaced_all (by decide) h.1]
    simp

end

/-! ## Fields -/

/-- The fields of a line from the start of one on, where `b` follows the delimiter. Each of them is
kept, and the last one may be a value that is given up right at the delimiter. -/
def ClosedFields (d : Byte) (b : List Byte) : List SignalType → List Byte → Prop
  | [], _ => False
  | t :: ts, s =>
    t ≠ .invalid ∧ KeepsValue d b t s ∧
      match scanValue t s with
      | .ok [] => True
      | .ok (_ :: s') => ClosedFields d b ts s'
      | .error s' => s' = []

/-- The rest of a line behind a field: nothing, or a separator and more fields. -/
def ClosedTail (d : Byte) (b : List Byte) (ts : List SignalType) : List Byte → Prop
  | [] => True
  | _ :: s => ClosedFields d b ts s

section
variable {d : Byte} {b s s' : List Byte} {t : SignalType} {ts : List SignalType}

theorem closedFields_ok (h : scanValue t s = .ok s') :
    ClosedFields d b (t :: ts) s ↔ t ≠ .invalid ∧ KeepsValue d b t s ∧ ClosedTail d b ts s' := by
  unfold ClosedFields
  rw [h]
  cases s' <;> simp [ClosedTail]

theorem closedFields_error (h : scanValue t s = .error s') :
    ClosedFields d b (t :: ts) s ↔ t ≠ .invalid ∧ KeepsValue d b t s ∧ s' = [] := by
  unfold ClosedFields
  rw [h]

theorem closedFields_iff (hd : inNumber d = false) : ClosedFields d b ts s ↔ Fields d b ts s := by
  induction ts generalizing s with
  | nil => rfl
  | cons t ts ih =>
    by_cases ht : t = .invalid
    · subst ht
      simp [ClosedFields, Fields]
    by_cases hblank : Blank d s
    · have hscan := @scanValue_blank t _ hblank.1
      rw [closedFields_error hscan, fields_error ht hscan, keepsValue_blank ht hblank]
      constructor
      · rintro ⟨-, hb, rfl⟩
        refine ⟨rfl, ?_⟩
        rintro ⟨-, -, hbegins⟩
        rw [hb] at hbegins
        cases hbegins
      · rintro ⟨rfl, hnot⟩
        refine ⟨ht, ?_, rfl⟩
        rw [← Bool.not_eq_true]
        exact fun hb => hnot ⟨rfl, hblank.2, hb⟩
    · have hkeeps := @keepsValue_bounded d b t s hd hblank
      cases hscan : scanValue t s with
      | ok s' =>
        rw [closedFields_ok hscan, fields_ok ht hscan]
        cases s' with
        | nil => exact ⟨fun _ => trivial, fun _ => ⟨ht, hkeeps, trivial⟩⟩
        | cons c s' => exact ⟨fun h => ih.mp h.2.2, fun h => ⟨ht, hkeeps, ih.mpr h⟩⟩
      | error s' =>
        rw [closedFields_error hscan, fields_error ht hscan]
        constructor
        · rintro ⟨-, -, rfl⟩
          exact ⟨rfl, not_empty_field hblank⟩
        · exact fun h => ⟨ht, hkeeps, h.1⟩

theorem closedTail_iff (hd : inNumber d = false) : ClosedTail d b ts s ↔ Tail d b ts s := by
  cases s with
  | nil => rfl
  | cons c s => exact closedFields_iff hd

end

section
variable {r : LineReader} {smp : Payload} {p i n : Nat} {L : List Byte}

theorem field_keeps {c : Byte} {b : List Byte} {t : SignalType} (hc : c ≠ r.format.delimiter)
    (ht : r.types[i]? = some t) (hinvalid : t ≠ .invalid)
    (hkeeps : KeepsValue r.format.delimiter b t L) (looks : List Look) :
    ∃ looks', valueLoop r smp ⟨p, c :: (L ++ r.format.delimiter :: b)⟩ looks i (n + 1) =
      match scanValue t L with
      | .ok s => valueLoop r (smp.setData i (valueAt r (smp.data i) t p L).data)
          ⟨p + 1 + (L.length - s.length), s ++ r.format.delimiter :: b⟩ looks' (i + 1) n
      | .error s => ⟨smp.setData i (valueAt r (smp.data i) t p L).data, i,
          ⟨p + 1 + (L.length - s.length), s ++ r.format.delimiter :: b⟩, looks'⟩ := by
  have hpeek : (⟨p, c :: (L ++ r.format.delimiter :: b)⟩ : Cursor).peek ≠ r.format.delimiter := hc
  obtain ⟨new, hparse⟩ := @parse_keeps r.conv (smp.data i) ⟨p + 1, L⟩
    ⟨p, c :: (L ++ r.format.delimiter :: b)⟩ ⟨0, []⟩ _ b t hinvalid hkeeps
  have hscans := @parse_scans r.conv (smp.data i) ⟨p + 1, L⟩ ⟨0, []⟩ t hinvalid
  refine ⟨looks ++ new, ?_⟩
  cases hscan : scanValue t L with
  | ok s =>
    obtain ⟨hret, hstop, -, hlt⟩ := hscans.ok s hscan
    rw [valueLoop_continues hpeek ht hparse]
    · rw [hstop]
      rfl
    · dsimp only at hlt
      simp only [hret, hstop, Cursor.append_pos, Cursor.upTo, Cursor.next_pos, ne_eq,
        not_true_eq_false, false_or]
      omega
  | error s =>
    obtain ⟨hret, hstop, -⟩ := hscans.error s hscan
    rw [valueLoop_stops hpeek ht hparse hret, hstop]
    rfl

theorem valueLoop_closed (hL : r.format.delimiter ∉ L) :
    ∃ smp' k, ∀ b looks, ClosedTail r.format.delimiter b ((r.types.drop i).take n) L →
      ∃ looks', valueLoop r smp ⟨p, L ++ r.format.delimiter :: b⟩ looks i n =
        ⟨smp', k, ⟨p + L.length, r.format.delimiter :: b⟩, looks'⟩ := by
  induction n generalizing smp L i p with
  | zero =>
    cases L with
    | nil => exact ⟨smp, i, fun b looks _ => ⟨looks, valueLoop_end rfl⟩⟩
    | cons c L => exact ⟨smp, 0, fun _ _ h => h.elim⟩
  | succ n ih =>
    cases L with
    | nil => exact ⟨smp, i, fun b looks _ => ⟨looks, valueLoop_end rfl⟩⟩
    | cons c L =>
      obtain ⟨hc, hL⟩ := not_or.mp (mt List.mem_cons.mpr hL)
      cases ht : r.types[i]? with
      | none =>
        rw [types_take_none ht]
        exact ⟨smp, 0, fun _ _ h => h.elim⟩
      | some t =>
        rw [types_take_some ht]
        have hfield := fun b hinvalid hkeeps => @field_keeps r smp p i n L c b t (Ne.symm hc) ht
          hinvalid hkeeps
        cases hscan : scanValue t L with
        | ok s =>
          by_cases hinvalid : t = .invalid
          · subst hinvalid
            cases hscan
          obtain ⟨-, -, hs, hlt⟩ := (@parse_scans r.conv (smp.data i) ⟨p + 1, L⟩ ⟨0, []⟩ t hinvalid).ok s hscan
          obtain ⟨smp', k, hrest⟩ := @ih (smp.setData i (valueAt r (smp.data i) t p L).data)
            (p + 1 + (L.length - s.length)) (i + 1) s fun h => hL (hs.subset h)
          refine ⟨smp', k, fun b looks h => ?_⟩
          obtain ⟨-, hkeeps, htail⟩ := (closedFields_ok hscan).mp h
          obtain ⟨looks', heq⟩ := hfield b hinvalid hkeeps looks
          obtain ⟨looks'', hend⟩ := hrest b looks' htail
          dsimp only at hlt
          refine ⟨looks'', ?_⟩
          rw [List.cons_append, heq, hscan]
          dsimp only
          rw [hend, List.length_cons, show p + 1 + (L.length - s.length) + s.length = p + (L.length + 1) by
            omega]
        | error s =>
          refine ⟨smp.setData i (valueAt r (smp.data i) t p L).data, i, fun b looks h => ?_⟩
          obtain ⟨hinvalid, hkeeps, rfl⟩ := (closedFields_error hscan).mp h
          obtain ⟨looks', heq⟩ := hfield b hinvalid hkeeps looks
          refine ⟨looks', ?_⟩
          rw [List.cons_append, heq, hscan]
          dsimp only
          rw [List.length_cons, List.length_nil, Nat.sub_zero, List.nil_append, Nat.add_right_comm,
            Nat.add_assoc]

end

/-! ## Columns -/

/-- The rest of a line from a separator on is read up to the delimiter, and the same for all that may
follow it. -/
def Closes (r : LineReader) (next : Payload → Cursor → List Look → ReadLine)
    (P : List Byte → List Byte → Prop) : Prop :=
  ∀ smp p c L, c ≠ r.format.delimiter → r.format.delimiter ∉ L → ∃ smp', ∀ b looks, P b L →
    ∃ looks', next smp ⟨p, c :: (L ++ r.format.delimiter :: b)⟩ looks =
      ⟨smp', (p + L.length + 2 : Nat), looks'⟩

section
variable {r : LineReader} {capacity : Nat} {f : Scan} {set mark : List Byte → Payload → Payload}
  {next : Payload → Cursor → List Look → ReadLine} {t : SignalType} {ts : List SignalType}

theorem closes_values : Closes r (valuesNext r capacity)
    (fun b L => ClosedFields r.format.delimiter b (r.types.take capacity) L) := by
  intro smp p c L hc hL
  have hL' : r.format.delimiter ∉ c :: L := by simp [Ne.symm hc, hL]
  obtain ⟨smp', k, hline⟩ := @valueLoop_closed r smp p 0 capacity _ hL'
  refine ⟨counted smp' k, fun b looks h => ?_⟩
  obtain ⟨looks', heq⟩ := hline b looks h
  refine ⟨looks', ?_⟩
  rw [List.cons_append] at heq
  rw [valuesNext, heq, finishLine_end rfl]
  rfl

theorem columnField_closed (hcolumn : Column f t)
    (hkeeps : ∀ {b s}, KeepsValue r.format.delimiter b t s → Strto.Keeps f r.format.delimiter b s)
    (hnext : Closes r next fun b L => ClosedFields r.format.delimiter b ts L) (smp : Payload) (p : Nat)
    {L : List Byte} (hL : r.format.delimiter ∉ L) :
    ∃ smp', ∀ b looks, ClosedFields r.format.delimiter b (t :: ts) L →
      ∃ looks', columnField r f set mark next smp ⟨p, L ++ r.format.delimiter :: b⟩ looks =
        ⟨smp', (p + L.length + 1 : Nat), looks'⟩ := by
  cases hscan : spaced f L with
  | none =>
    refine ⟨counted (set [] smp) 0, fun b looks h => ?_⟩
    obtain ⟨-, hvalue, rfl⟩ := (closedFields_error (hcolumn.error hscan)).mp h
    have hs : spaced f (r.format.delimiter :: b) = none := by
      have := hkeeps hvalue
      rwa [Strto.Keeps, hscan] at this
    rw [List.nil_append,
      columnField_eq looks (convert_none (c := ⟨p, r.format.delimiter :: b⟩) hs),
      if_pos (columnEnds_delimiter ..), finishLine_end rfl]
    exact ⟨_, rfl⟩
  | some s =>
    have hok := hcolumn.ok hscan
    obtain ⟨hsuffix, hlt⟩ := hcolumn.moves.spaced hscan
    have hconvert : ∀ b, KeepsValue r.format.delimiter b t L →
        (⟨p, L ++ r.format.delimiter :: b⟩ : Cursor).convert f =
          (token L s, ⟨p + (L.length - s.length), s ++ r.format.delimiter :: b⟩) := by
      intro b hvalue
      have hs := hkeeps hvalue
      rw [Strto.Keeps, hscan] at hs
      exact convert_line hcolumn.moves hscan hs
    cases s with
    | nil =>
      refine ⟨counted (set (token L []) smp) 0, fun b looks h => ?_⟩
      obtain ⟨-, hvalue, -⟩ := (closedFields_ok hok).mp h
      rw [columnField_eq looks (hconvert b hvalue), List.nil_append, if_pos (columnEnds_delimiter ..),
        finishLine_end rfl]
      exact ⟨_, rfl⟩
    | cons c s =>
      have hc : c ≠ r.format.delimiter := fun h => hL (hsuffix.subset (h ▸ List.mem_cons_self))
      have hs' : r.format.delimiter ∉ s := fun h => hL (hsuffix.subset (List.mem_cons_of_mem _ h))
      have hmoved : p < p + (L.length - (c :: s).length) := by omega
      obtain ⟨smp', hsame⟩ := hnext (mark (token L (c :: s)) (set (token L (c :: s)) smp))
        (p + (L.length - (c :: s).length)) c s hc hs'
      refine ⟨smp', fun b looks h => ?_⟩
      obtain ⟨-, hvalue, htail⟩ := (closedFields_ok hok).mp h
      obtain ⟨looks', heq⟩ :=
        hsame b (looks ++ [(⟨p, L ++ r.format.delimiter :: b⟩ : Cursor).look]) htail
      refine ⟨looks', ?_⟩
      rw [columnField_eq looks (hconvert b hvalue), List.cons_append, if_neg (not_columnEnds hmoved hc _),
        heq]
      rw [List.length_cons] at hlt ⊢
      rw [show p + (L.length - (s.length + 1)) + s.length + 2 = p + L.length + 1 by omega]

theorem closes_field (hcolumn : Column f t)
    (hkeeps : ∀ {b s}, KeepsValue r.format.delimiter b t s → Strto.Keeps f r.format.delimiter b s)
    (hnext : Closes r next fun b L => ClosedFields r.format.delimiter b ts L) :
    Closes r (fun smp stop looks => columnField r f set mark next smp stop.next looks)
      (fun b L => ClosedFields r.format.delimiter b (t :: ts) L) := by
  intro smp p c L _ hL
  obtain ⟨smp', hsame⟩ := columnField_closed hcolumn hkeeps hnext smp (p + 1) hL
  refine ⟨smp', fun b looks h => ?_⟩
  obtain ⟨looks', heq⟩ := hsame b looks h
  rw [Nat.add_right_comm p 1] at heq
  exact ⟨looks', heq⟩

theorem column_closed (smp : Payload) {L : List Byte} (hL : r.format.delimiter ∉ L) :
    ∃ smp', ∀ b, ClosedFields r.format.delimiter b (columns r capacity) L →
      ∃ looks, columnSscanLine r capacity (L ++ r.format.delimiter :: b) smp =
        ⟨smp', (L.length + 1 : Nat), looks⟩ := by
  have hsequence : Closes r (sequenceNext r capacity) _ := closes_field column_integer id closes_values
  have hoffset : Closes r (offsetNext r capacity) _ := closes_field column_float id hsequence
  have hnsec : Closes r (nsecNext r capacity) _ := closes_field column_integer id hoffset
  obtain ⟨smp', hsame⟩ := @columnField_closed r _ (secText r) (fun _ smp => smp) _ _ _ column_integer id
    hnsec smp 0 _ hL
  refine ⟨smp', fun b h => ?_⟩
  obtain ⟨looks, heq⟩ := hsame b [] h
  rw [Nat.zero_add] at heq
  exact ⟨looks, heq⟩

end

/-! ## Lines -/

/-- The front of the line is read as it is alone, and the fields behind it are closed. -/
def ClosedHuman (d : Byte) (b : List Byte) (ts : List SignalType) (L : List Byte) : Prop :=
  ∃ u v s, humanHeader d ⟨0, L ++ [d]⟩ = some u ∧ u.stop.rest = s ++ [d] ∧
    humanHeader d ⟨0, L ++ d :: b⟩ = some v ∧ v.val = u.val ∧ v.stop.rest = s ++ d :: b ∧
      ClosedTail d b ts s

/-- Nothing of the line is looked for behind it when `b` follows the delimiter. -/
def Closed (r : LineReader) (capacity : Nat) (b L : List Byte) : Prop :=
  match r.format.layout with
  | .human => ClosedHuman r.format.delimiter b (r.types.take capacity) L
  | .column _ => ClosedFields r.format.delimiter b (columns r capacity) L

section
variable {r : LineReader} {capacity : Nat} {L b : List Byte}

theorem human_closed (smp : Payload) (hL : r.format.delimiter ∉ L) :
    ∃ smp', ∀ b, ClosedHuman r.format.delimiter b (r.types.take capacity) L →
      ∃ looks, humanSscanLine r capacity (L ++ r.format.delimiter :: b) smp =
        ⟨smp', (L.length + 1 : Nat), looks⟩ := by
  by_cases hfront : ∃ u s, humanHeader r.format.delimiter ⟨0, L ++ [r.format.delimiter]⟩ = some u ∧
      u.stop.rest = s ++ [r.format.delimiter]
  · obtain ⟨u, s, hu, hs⟩ := hfront
    have hsuffix : s <:+ L := by
      have hexact := (exact_humanHeader hu).1
      rwa [hs, List.suffix_append_self_iff] at hexact
    obtain ⟨smp', k, hloop⟩ := @valueLoop_closed r (r.header smp u.val) (L.length - s.length) 0 capacity s
      fun h => hL (hsuffix.subset h)
    refine ⟨r.delayed (r.offset u.val) (counted smp' k), ?_⟩
    rintro b ⟨u', v, s', hu', hs', hv, hval, hstop, htail⟩
    rw [hu] at hu'
    cases hu'
    rw [hs] at hs'
    obtain rfl : s = s' := List.append_cancel_right hs'
    have hlen := (exact_humanHeader hv).2
    have hle := hsuffix.length_le
    have hpos : v.stop = ⟨L.length - s.length, s ++ r.format.delimiter :: b⟩ := by
      rw [hstop] at hlen
      simp only [List.length_append, List.length_cons, Nat.zero_add] at hlen
      have hmoved : v.stop.pos = L.length - s.length := by omega
      rw [← hstop, ← hmoved]
    rcases @follows_humanHeader r capacity smp (L ++ r.format.delimiter :: b) with ⟨hnone, -⟩ | ⟨w, hw, heq⟩
    · rw [hv] at hnone
      cases hnone
    rw [hv] at hw
    cases hw
    obtain ⟨looks, hvalues⟩ := hloop b v.looks htail
    refine ⟨looks, ?_⟩
    rw [heq]
    dsimp only
    rw [hval, hpos, humanValues, hvalues, humanFinish_eq, finishLine_end (b := b) rfl,
      show L.length - s.length + s.length + 1 = L.length + 1 by omega]
  · refine ⟨smp, ?_⟩
    rintro b ⟨u, -, s, hu, hs, -⟩
    exact absurd ⟨u, s, hu, hs⟩ hfront

theorem line_closed (smp : Payload) (hL : r.format.delimiter ∉ L) :
    ∃ smp', ∀ b, Closed r capacity b L →
      ∃ looks, sscanLine r capacity (L ++ r.format.delimiter :: b) smp =
        ⟨smp', (L.length + 1 : Nat), looks⟩ := by
  unfold sscanLine Closed
  cases r.format.layout with
  | human => exact human_closed smp hL
  | column separator => exact column_closed smp hL

theorem closed_iff (hd : inNumber r.format.delimiter = false) :
    Closed r capacity b L ↔ Regular r capacity b L := by
  unfold Closed Regular
  cases r.format.layout with
  | column separator => exact closedFields_iff hd
  | human =>
    constructor
    · rintro ⟨u, -, s, hu, hs, -, -, -, htail⟩
      exact ⟨u, s, hu, hs, (closedTail_iff hd).mp htail⟩
    · rintro ⟨u, s, hu, hs, htail⟩
      obtain ⟨-, hread⟩ := humanHeader_line hd hu hs
      obtain ⟨looks, hread, -⟩ := hread 0 [] b rfl
      exact ⟨u, _, s, hu, hs, hread, rfl, rfl, (closedTail_iff hd).mpr htail⟩

end

end VillasNode.Line
