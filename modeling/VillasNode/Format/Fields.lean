import VillasNode.Format.Scan

/-!
# Fields of a line

What the text between two delimiters must be like for the loop over the values
to end at its delimiter. `signal_data_parse_str` reads the same value for
whatever follows the delimiter, unless it finds only white space in the line and
goes on behind a delimiter that is white space itself.
-/

namespace VillasNode.Line

open ByteOrder Strto

/-! ## Values -/

/-- Where `signal_data_parse_str` leaves `*end`: behind a value, or where it has given up. -/
def scanNumber (f : Scan) (s : List Byte) : Except (List Byte) (List Byte) :=
  match spaced f s with
  | none => .error s
  | some r => .ok r

def scanComplex (s : List Byte) : Except (List Byte) (List Byte) :=
  match spaced real s with
  | none => .error s
  | some r =>
    if isImaginary (r.headD 0) then .ok r.tail
    else if isSign (r.headD 0) then
      match spaced real r with
      | none => .error r
      | some u => if isImaginary (u.headD 0) then .ok u.tail else .error u
    else .ok r

def scanValue : SignalType → List Byte → Except (List Byte) (List Byte)
  | .float => scanNumber real
  | .integer => scanNumber integer
  | .boolean => scanNumber integer
  | .complex => scanComplex
  | .invalid => .error

/-- A number that a value of the type can begin with is at the front, or behind white space. -/
def begins : SignalType → List Byte → Bool
  | .float, s => (spaced real s).isSome
  | .integer, s => (spaced integer s).isSome
  | .boolean, s => (spaced integer s).isSome
  | .complex, s => (spaced real s).isSome
  | .invalid, _ => false

/-- What the result of `signal_data_parse_str` has to do with `scanValue`. -/
structure Scans (ptr : Cursor) (v : ParsedValue) (e : Except (List Byte) (List Byte)) : Prop where
  ok : ∀ r, e = .ok r →
    v.ret = 0 ∧ v.stop = ptr.upTo r ∧ r <:+ ptr.rest ∧ r.length < ptr.rest.length
  error : ∀ r, e = .error r →
    (v.ret ≠ 0 ∨ v.stop.pos = ptr.pos) ∧ v.stop = ptr.upTo r ∧ r <:+ ptr.rest

section
variable {fs : FloatScan} {data : Value} {ptr stop : Cursor} {r : List Byte}

theorem Scans.read (hr : r <:+ ptr.rest) (hlt : r.length < ptr.rest.length) (data : Value)
    (looks : List Look) : Scans ptr ⟨data, 0, ptr.upTo r, looks⟩ (.ok r) := by
  constructor
  · intro r' h
    cases h
    exact ⟨rfl, rfl, hr, hlt⟩
  · intro r' h
    cases h

theorem Scans.gives_up {v : ParsedValue} (hret : v.ret ≠ 0 ∨ v.stop.pos = ptr.pos)
    (hstop : v.stop = ptr.upTo r) (hr : r <:+ ptr.rest) : Scans ptr v (.error r) := by
  constructor
  · intro r' h
    cases h
  · intro r' h
    cases h
    exact ⟨hret, hstop, hr⟩

theorem Scans.stay (data : Value) (ret : Int) (looks : List Look) :
    Scans ptr ⟨data, ret, ptr, looks⟩ (.error ptr.rest) :=
  .gives_up (.inr rfl) (Cursor.upTo_self ptr).symm List.suffix_rfl

theorem scans_number {f : Scan} (hf : Moves f) (data : Value) (looks : List Look) :
    Scans ptr ⟨data, 0, (ptr.convert f).2, looks⟩ (scanNumber f ptr.rest) := by
  unfold scanNumber
  cases h : spaced f ptr.rest with
  | none =>
    rw [convert_none h]
    exact .stay ..
  | some r =>
    obtain ⟨hr, hlt⟩ := hf.spaced h
    rw [convert_some h]
    exact .read hr hlt ..

theorem neg_one_ne : (-1 : Int) ≠ 0 := by decide

theorem imaginary_ne_nil {s : List Byte} (h : isImaginary (s.headD 0)) : s ≠ [] := by
  rintro rfl
  exact absurd h (by decide)

theorem scans_complex : Scans ptr (parseComplex fs data ptr) (scanComplex ptr.rest) := by
  unfold parseComplex scanComplex FloatScan.strtod
  cases h : spaced real ptr.rest with
  | none =>
    simp only [convert_none h, if_true]
    exact .stay ..
  | some r =>
    obtain ⟨hr, hlt⟩ := moves_real.spaced h
    have hpos : ¬ (ptr.upTo r).pos = ptr.pos := by
      simp only [Cursor.upTo]
      omega
    simp only [convert_some h, hpos, if_false, Cursor.peek, Cursor.upTo_rest]
    by_cases himaginary : isImaginary (r.headD 0)
    · have htail := List.tail_suffix r
      simp only [himaginary, if_true, Cursor.upTo_next hr (imaginary_ne_nil himaginary)]
      exact .read (htail.trans hr) (Nat.lt_of_le_of_lt htail.length_le hlt) ..
    · simp only [himaginary, if_false, Bool.false_eq_true]
      by_cases hsign : isSign (r.headD 0)
      · simp only [hsign, if_true]
        cases hs : spaced real r with
        | none =>
          simp only [convert_none (c := ptr.upTo r) hs, if_true]
          exact .gives_up (.inl neg_one_ne) rfl hr
        | some u =>
          obtain ⟨hu, hlt'⟩ := moves_real.spaced hs
          have hpos' : ¬ (ptr.upTo u).pos = (ptr.upTo r).pos := by
            simp only [Cursor.upTo]
            omega
          simp only [convert_some (c := ptr.upTo r) hs, Cursor.upTo_upTo hr hu, hpos', if_false,
            Cursor.upTo_rest]
          by_cases himaginary' : isImaginary (u.headD 0)
          · have htail := List.tail_suffix u
            simp only [himaginary', not_true_eq_false, if_true, if_false,
              Cursor.upTo_next (hu.trans hr) (imaginary_ne_nil himaginary')]
            exact .read (htail.trans (hu.trans hr)) (by have := htail.length_le; omega) ..
          · simp only [himaginary', not_false_eq_true, if_true, if_false, Bool.false_eq_true]
            exact .gives_up (.inl neg_one_ne) rfl (hu.trans hr)
      · simp only [hsign, if_false, Bool.false_eq_true]
        exact .read hr hlt ..

theorem parse_scans {type : SignalType} (h : type ≠ .invalid) :
    Scans ptr (signalDataParseStr fs data type ptr stop) (scanValue type ptr.rest) := by
  cases type with
  | invalid => exact absurd rfl h
  | float => exact scans_number moves_real ..
  | integer | boolean => exact scans_number moves_integer ..
  | complex => exact scans_complex

end

/-! ## What follows the delimiter -/

section
variable {fs : FloatScan} {data : Value} {ptr stop stop' : Cursor} {d : Byte} {b : List Byte}

/-- There is nothing but white space up to and with the delimiter. -/
def Blank (d : Byte) (s : List Byte) : Prop := s.all isSpace ∧ isSpace d

theorem strtod_append (hd : inNumber d = false) (h : ¬ Blank d ptr.rest) :
    fs.strtod (ptr.append (d :: b)) = ((fs.strtod ptr).1, (fs.strtod ptr).2.append (d :: b)) := by
  unfold FloatScan.strtod
  rw [convert_append (bounded_real hd) moves_real h]

theorem isImaginary_plain (hd : inNumber d = false) : isImaginary d = false := by
  have hi := not_letter (c := 'i') hd (by decide)
  have hj := not_letter (c := 'j') hd (by decide)
  simp only [isLetter, decide_eq_false_iff_not, not_or] at hi hj
  simp [isImaginary, hi.1, hj.1]

theorem sign_not_blank {s : List Byte} (h : isSign (s.headD 0)) : ¬ Blank d s := by
  rintro ⟨hall, -⟩
  cases s with
  | nil => exact absurd h (by decide)
  | cons x s =>
    simp only [List.headD_cons, List.all_cons, Bool.and_eq_true] at h hall
    simp only [isSign, decide_eq_true_eq] at h
    obtain rfl | rfl := h <;> exact absurd hall.1 (by decide)

theorem parseComplex_append (hd : inNumber d = false) (h : ¬ Blank d ptr.rest) :
    parseComplex fs data (ptr.append (d :: b)) =
      { parseComplex fs data ptr with stop := (parseComplex fs data ptr).stop.append (d :: b) } := by
  have himaginary : ∀ c : Cursor, isImaginary (c.append (d :: b)).peek = isImaginary c.peek :=
    fun c => Cursor.peek_append_class (isImaginary_plain hd) (by decide) c b
  have hsign : ∀ c : Cursor, isSign (c.append (d :: b)).peek = isSign c.peek :=
    fun c => Cursor.peek_append_class (not_sign hd) (by decide) c b
  have hnext : ∀ c : Cursor, isImaginary c.peek → (c.append (d :: b)).next = c.next.append (d :: b) :=
    fun c hc => Cursor.next_append (imaginary_ne_nil hc) _
  unfold parseComplex
  rw [strtod_append hd h, look_append hd h]
  rcases fs.strtod ptr with ⟨f, c⟩
  simp only [Cursor.append_pos, himaginary, hsign]
  by_cases hpos : c.pos = ptr.pos
  · simp only [hpos, if_true]
  by_cases hc : isImaginary c.peek
  · simp only [hpos, hc, if_true, if_false, hnext c hc]
  by_cases hs : isSign c.peek
  · have hblank : ¬ Blank d c.rest := sign_not_blank hs
    simp only [hpos, hc, hs, if_true, if_false, Bool.false_eq_true, strtod_append hd hblank,
      look_append hd hblank, Cursor.append_pos, himaginary]
    rcases fs.strtod c with ⟨f', c'⟩
    dsimp only
    by_cases hpos' : c'.pos = c.pos
    · simp only [hpos', if_true]
    by_cases hc' : isImaginary c'.peek
    · simp only [hpos', hc', not_true_eq_false, if_false, hnext c' hc']
    · simp only [hpos', hc', not_false_eq_true, if_true, if_false, Bool.false_eq_true]
  · simp only [hpos, hc, hs, if_false, Bool.false_eq_true]

theorem parse_append {type : SignalType} (htype : type ≠ .invalid) (hd : inNumber d = false)
    (h : ¬ Blank d ptr.rest) :
    signalDataParseStr fs data type (ptr.append (d :: b)) stop =
      { signalDataParseStr fs data type ptr stop' with
        stop := (signalDataParseStr fs data type ptr stop').stop.append (d :: b) } := by
  cases type with
  | invalid => exact absurd rfl htype
  | float => simp only [signalDataParseStr, strtod_append hd h, look_append hd h]
  | integer =>
    simp only [signalDataParseStr, strtol, convert_append (bounded_integer hd) moves_integer h,
      look_append hd h]
  | boolean =>
    unfold signalDataParseStr strtol
    rw [convert_append (bounded_integer hd) moves_integer h, look_append hd h]
  | complex => exact parseComplex_append hd h

theorem parse_shift {type : SignalType} (k : Nat) :
    (signalDataParseStr fs data type (ptr.shift k) stop).data =
      (signalDataParseStr fs data type ptr stop').data := by
  have hstrtod : ∀ c : Cursor, fs.strtod (c.shift k) = ((fs.strtod c).1, (fs.strtod c).2.shift k) := by
    intro c
    unfold FloatScan.strtod
    rw [convert_shift]
  cases type with
  | float => simp only [signalDataParseStr, hstrtod]
  | integer => simp only [signalDataParseStr, strtol, convert_shift]
  | boolean =>
    unfold signalDataParseStr strtol
    rw [convert_shift]
  | complex =>
    simp only [signalDataParseStr, parseComplex, hstrtod, Cursor.shift_pos, Cursor.shift_peek,
      Nat.add_right_cancel_iff]
    split_ifs <;> rfl
  | invalid => rfl

theorem scanNumber_error {f : Scan} {s : List Byte} (h : spaced f s = none) :
    scanNumber f s = .error s := by
  simp only [scanNumber, h]

theorem scanValue_blank {type : SignalType} {s : List Byte} (h : s.all isSpace) :
    scanValue type s = .error s := by
  have hreal : spaced real s = none := spaced_all (by decide) h
  have hinteger : spaced integer s = none := spaced_all (by decide) h
  cases type <;> simp [scanValue, scanNumber, scanComplex, hreal, hinteger]

theorem parse_blank {type : SignalType} (htype : type ≠ .invalid) (h : Blank d ptr.rest)
    (hb : begins type b = false) :
    let v := signalDataParseStr fs data type (ptr.append (d :: b)) stop
    let v' := signalDataParseStr fs data type ptr stop'
    v.data = v'.data ∧ v.stop = ptr.append (d :: b) ∧ (v.ret ≠ 0 ∨ v.stop.pos = ptr.pos) := by
  have hnone : ∀ f : Scan, f [] = none → (spaced f b).isSome = false →
      (ptr.append (d :: b)).convert f = ([], ptr.append (d :: b)) ∧ ptr.convert f = ([], ptr) := by
    intro f hf hb
    rw [Option.isSome_eq_false_iff, Option.isNone_iff_eq_none] at hb
    constructor
    · exact convert_none ((spaced_blank h.1 h.2).trans hb)
    · exact convert_none (spaced_all hf h.1)
  cases type with
  | invalid => exact absurd rfl htype
  | float =>
    obtain ⟨h₁, h₂⟩ := hnone real (by decide) hb
    simp [signalDataParseStr, FloatScan.strtod, h₁, h₂]
  | integer | boolean =>
    obtain ⟨h₁, h₂⟩ := hnone integer (by decide) hb
    simp [signalDataParseStr, strtol, h₁, h₂]
  | complex =>
    obtain ⟨h₁, h₂⟩ := hnone real (by decide) hb
    simp [signalDataParseStr, parseComplex, FloatScan.strtod, h₁, h₂]

theorem scanValue_none {t : SignalType} {s : List Byte} (h : begins t s = false) :
    scanValue t s = .error s := by
  have hnone : ∀ f, (spaced f s).isSome = false → spaced f s = none := fun f hs =>
    Option.isNone_iff_eq_none.mp (Option.isSome_eq_false_iff.mp hs)
  cases t with
  | invalid => rfl
  | float => exact scanNumber_error (hnone real h)
  | integer | boolean => exact scanNumber_error (hnone integer h)
  | complex => simp only [scanValue, scanComplex, hnone real h]

theorem scanComplex_moves {s r u : List Byte} (hreal : spaced real s = some r)
    (hscan : scanComplex s = .ok u ∨ scanComplex s = .error u) : u.length ≤ r.length := by
  unfold scanComplex at hscan
  rw [hreal] at hscan
  dsimp only at hscan
  split_ifs at hscan
  · obtain heq | heq := hscan <;> cases heq
    exact (List.tail_suffix r).length_le
  · cases hs : spaced real r with
    | none =>
      rw [hs] at hscan
      obtain heq | heq := hscan <;> cases heq
      exact le_rfl
    | some w =>
      have hw := (moves_real.spaced hs).1.length_le
      rw [hs] at hscan
      dsimp only at hscan
      split_ifs at hscan
      · obtain heq | heq := hscan <;> cases heq
        exact (List.tail_suffix w).length_le.trans hw
      · obtain heq | heq := hscan <;> cases heq
        exact hw
  · obtain heq | heq := hscan <;> cases heq
    exact le_rfl

theorem scanValue_moves {t : SignalType} {s u : List Byte} (h : begins t s = true)
    (hscan : scanValue t s = .ok u ∨ scanValue t s = .error u) : u.length < s.length := by
  have hnumber : ∀ f, Moves f → (spaced f s).isSome → scanNumber f s = .ok u ∨ scanNumber f s = .error u →
      u.length < s.length := by
    intro f hf hs hscan
    obtain ⟨r, hr⟩ := Option.isSome_iff_exists.mp hs
    rw [scanNumber, hr] at hscan
    obtain heq | heq := hscan <;> cases heq
    exact (hf.spaced hr).2
  cases t with
  | invalid => cases h
  | float => exact hnumber real moves_real h hscan
  | integer | boolean => exact hnumber integer moves_integer h hscan
  | complex =>
    obtain ⟨r, hr⟩ := Option.isSome_iff_exists.mp h
    exact (scanComplex_moves hr hscan).trans_lt (moves_real.spaced hr).2

theorem scanValue_spaced {t : SignalType} {s : List Byte} (h : Blank d s) (hb : begins t b = true) :
    scanValue t (s ++ d :: b) = scanValue t b := by
  have hspaced : ∀ f, spaced f (s ++ d :: b) = spaced f b := fun f => spaced_blank h.1 h.2
  have hnumber : ∀ f, (spaced f b).isSome → scanNumber f (s ++ d :: b) = scanNumber f b := by
    intro f hs
    obtain ⟨r, hr⟩ := Option.isSome_iff_exists.mp hs
    simp only [scanNumber, hspaced, hr]
  cases t with
  | invalid => cases hb
  | float => exact hnumber real hb
  | integer | boolean => exact hnumber integer hb
  | complex =>
    obtain ⟨r, hr⟩ := Option.isSome_iff_exists.mp hb
    simp only [scanValue, scanComplex, hspaced, hr]

theorem parse_ends {type : SignalType} (htype : type ≠ .invalid) : ∃ u,
    (scanValue type ptr.rest = .ok u ∨ scanValue type ptr.rest = .error u) ∧ u <:+ ptr.rest ∧
      (signalDataParseStr fs data type ptr stop).stop = ptr.upTo u := by
  have hscan := @parse_scans fs data ptr stop _ htype
  cases h : scanValue type ptr.rest with
  | ok u =>
    obtain ⟨-, hstop, hu, -⟩ := hscan.ok u h
    exact ⟨u, .inl rfl, hu, hstop⟩
  | error u =>
    obtain ⟨-, hstop, hu⟩ := hscan.error u h
    exact ⟨u, .inr rfl, hu, hstop⟩

theorem parse_leaks {type : SignalType} (h : Blank d ptr.rest) (hb : begins type b = true) :
    ptr.pos + ptr.rest.length + 1 <
      (signalDataParseStr fs data type (ptr.append (d :: b)) stop).stop.pos := by
  have htype : type ≠ .invalid := by
    rintro rfl
    cases hb
  obtain ⟨u, hscan, -, hstop⟩ := @parse_ends fs data (ptr.append (d :: b)) stop _ htype
  rw [Cursor.append_rest, scanValue_spaced h hb] at hscan
  have hlt := scanValue_moves hb hscan
  rw [hstop]
  simp only [Cursor.upTo, Cursor.append_rest, Cursor.append_pos, List.length_append, List.length_cons]
  omega

theorem parse_begins {type : SignalType} (htype : type ≠ .invalid) :
    (begins type ptr.rest = true → ptr.pos < (signalDataParseStr fs data type ptr stop).stop.pos) ∧
      (begins type ptr.rest = false → (signalDataParseStr fs data type ptr stop).stop = ptr) := by
  obtain ⟨u, hscan, -, hstop⟩ := @parse_ends fs data ptr stop _ htype
  constructor
  · intro hb
    have hlt := scanValue_moves hb hscan
    rw [hstop, Cursor.upTo]
    dsimp only
    omega
  · intro hb
    rw [scanValue_none hb] at hscan
    obtain heq | heq := hscan <;> cases heq
    rw [hstop, Cursor.upTo_self]

end

/-! ## The loop over the values -/

/-- The rest of a line from the start of a field on, where `b` follows the delimiter. All fields
hold values, but the last one may be empty, or a value that is given up right at the delimiter. -/
def Fields (d : Byte) (b : List Byte) : List SignalType → List Byte → Prop
  | [], _ => False
  | t :: ts, s =>
    t ≠ .invalid ∧
      match scanValue t s with
      | .ok [] => True
      | .ok (_ :: s') => Fields d b ts s'
      | .error s' => s' = [] ∧ ¬ (s = [] ∧ isSpace d ∧ begins t b)

/-- The rest of a line behind a field: nothing, or a separator and more fields. -/
def Tail (d : Byte) (b : List Byte) (ts : List SignalType) : List Byte → Prop
  | [] => True
  | _ :: s => Fields d b ts s

theorem fields_ok {d : Byte} {b s s' : List Byte} {t : SignalType} {ts : List SignalType}
    (ht : t ≠ .invalid) (h : scanValue t s = .ok s') :
    Fields d b (t :: ts) s ↔ Tail d b ts s' := by
  unfold Fields
  rw [h]
  cases s' with
  | nil => simp [ht, Tail]
  | cons => simp [ht, Tail]

theorem fields_error {d : Byte} {b s s' : List Byte} {t : SignalType} {ts : List SignalType}
    (ht : t ≠ .invalid) (h : scanValue t s = .error s') :
    Fields d b (t :: ts) s ↔ s' = [] ∧ ¬ (s = [] ∧ isSpace d ∧ begins t b) := by
  unfold Fields
  rw [h]
  simp [ht]

theorem begins_one {t : SignalType} (ht : t ≠ .invalid) : begins t [ch '1'] := by
  cases t with
  | invalid => exact absurd rfl ht
  | float | integer | boolean | complex => decide

theorem parse_looks {fs : FloatScan} {data : Value} {type : SignalType} {ptr stop : Cursor} :
    ∀ l ∈ (signalDataParseStr fs data type ptr stop).looks,
      1 ≤ l.size ∧ l.start + l.size ≤ ptr.pos + ptr.rest.length + 1 := by
  have hptr : 1 ≤ ptr.look.size ∧ ptr.look.start + ptr.look.size ≤ ptr.pos + ptr.rest.length + 1 :=
    ⟨Nat.le_add_left .., look_le ptr⟩
  cases type with
  | float | integer | boolean => simpa [signalDataParseStr] using hptr
  | complex =>
    have hsign : 1 ≤ (fs.strtod ptr).2.look.size ∧
        (fs.strtod ptr).2.look.start + (fs.strtod ptr).2.look.size ≤
          ptr.pos + ptr.rest.length + 1 := by
      refine ⟨Nat.le_add_left .., ?_⟩
      rw [← convert_length (c := ptr) moves_real]
      exact look_le (fs.strtod ptr).2
    simp only [signalDataParseStr, parseComplex]
    split_ifs <;> simp [hptr, hsign]
  | invalid => simp [signalDataParseStr]

section
variable {r : LineReader} {smp : Payload} {stop : Cursor} {looks : List Look} {i n : Nat}
  {t : SignalType}

theorem valueLoop_end (h : stop.peek = r.format.delimiter) :
    valueLoop r smp stop looks i n = ⟨smp, i, stop, looks⟩ := by
  cases n with
  | zero => rfl
  | succ n => exact if_pos h

theorem valueLoop_full (h : r.types[i]? = none) :
    valueLoop r smp stop looks i n = ⟨smp, i, stop, looks⟩ := by
  cases n with
  | zero => rfl
  | succ n =>
    rw [valueLoop_succ, h]
    exact ite_self _

theorem valueLoop_some (hpeek : stop.peek ≠ r.format.delimiter) (ht : r.types[i]? = some t)
    {v : ParsedValue} (hv : signalDataParseStr r.conv (smp.data i) t stop.next stop = v) :
    valueLoop r smp stop looks i (n + 1) =
      if v.ret ≠ 0 ∨ v.stop.pos = stop.next.pos then
        ⟨smp.setData i v.data, i, v.stop, looks ++ v.looks⟩
      else valueLoop r (smp.setData i v.data) v.stop (looks ++ v.looks) (i + 1) n := by
  rw [valueLoop_succ, if_neg hpeek, ht, ← hv]

theorem valueLoop_stops (hpeek : stop.peek ≠ r.format.delimiter) (ht : r.types[i]? = some t)
    {v : ParsedValue} (hv : signalDataParseStr r.conv (smp.data i) t stop.next stop = v)
    (h : v.ret ≠ 0 ∨ v.stop.pos = stop.next.pos) :
    valueLoop r smp stop looks i (n + 1) = ⟨smp.setData i v.data, i, v.stop, looks ++ v.looks⟩ := by
  rw [valueLoop_some hpeek ht hv, if_pos h]

theorem valueLoop_continues (hpeek : stop.peek ≠ r.format.delimiter) (ht : r.types[i]? = some t)
    {v : ParsedValue} (hv : signalDataParseStr r.conv (smp.data i) t stop.next stop = v)
    (h : ¬ (v.ret ≠ 0 ∨ v.stop.pos = stop.next.pos)) :
    valueLoop r smp stop looks i (n + 1) =
      valueLoop r (smp.setData i v.data) v.stop (looks ++ v.looks) (i + 1) n := by
  rw [valueLoop_some hpeek ht hv, if_neg h]

theorem parse_forward : stop.pos ≤ (signalDataParseStr r.conv (smp.data i) t stop.next stop).stop.pos := by
  by_cases ht : t = .invalid
  · subst ht
    exact le_refl _
  · have hscan := @parse_scans r.conv (smp.data i) stop.next stop _ ht
    have hle : ∀ s, stop.pos ≤ (stop.next.upTo s).pos := fun s =>
      le_trans (Nat.le_succ _) (Cursor.le_upTo stop.next s)
    cases h : scanValue t stop.next.rest with
    | ok s =>
      rw [(hscan.ok s h).2.1]
      exact hle s
    | error s =>
      rw [(hscan.error s h).2.1]
      exact hle s

theorem valueLoop_forward : stop.pos ≤ (valueLoop r smp stop looks i n).stop.pos := by
  induction n generalizing smp stop looks i with
  | zero => exact le_refl _
  | succ n ih =>
    by_cases hpeek : stop.peek = r.format.delimiter
    · rw [valueLoop_end hpeek]
    cases ht : r.types[i]? with
    | none => rw [valueLoop_full ht]
    | some t =>
      by_cases h : (signalDataParseStr r.conv (smp.data i) t stop.next stop).ret ≠ 0 ∨
          (signalDataParseStr r.conv (smp.data i) t stop.next stop).stop.pos = stop.next.pos
      · rw [valueLoop_stops hpeek ht rfl h]
        exact parse_forward
      · rw [valueLoop_continues hpeek ht rfl h]
        exact le_trans parse_forward ih

theorem valueLoop_looks {stop : Cursor} {l : Look} (hl : l ∈ looks) :
    l ∈ (valueLoop r smp stop looks i n).looks := by
  induction n generalizing smp stop looks i with
  | zero => exact hl
  | succ n ih =>
    by_cases hpeek : stop.peek = r.format.delimiter
    · rw [valueLoop_end hpeek]
      exact hl
    cases ht : r.types[i]? with
    | none =>
      rw [valueLoop_full ht]
      exact hl
    | some t =>
      by_cases h : (signalDataParseStr r.conv (smp.data i) t stop.next stop).ret ≠ 0 ∨
          (signalDataParseStr r.conv (smp.data i) t stop.next stop).stop.pos = stop.next.pos
      · rw [valueLoop_stops hpeek ht rfl h]
        exact List.mem_append_left _ hl
      · rw [valueLoop_continues hpeek ht rfl h]
        exact ih (List.mem_append_left _ hl)

end

section
variable {r : LineReader} {smp : Payload} {looks : List Look} {p i n : Nat} {L b : List Byte}

theorem types_take_none (h : r.types[i]? = none) (n : Nat) : (r.types.drop i).take n = [] := by
  rw [List.getElem?_eq_none_iff] at h
  rw [List.drop_eq_nil_of_le h, List.take_nil]

theorem types_take_some {t : SignalType} (h : r.types[i]? = some t) (n : Nat) :
    (r.types.drop i).take (n + 1) = t :: (r.types.drop (i + 1)).take n := by
  obtain ⟨hlt, rfl⟩ := List.getElem?_eq_some_iff.mp h
  rw [List.drop_eq_getElem_cons hlt, List.take_succ_cons]

/-- The value that is read from the line alone, behind the byte at `p`. -/
def valueAt (r : LineReader) (data : Value) (t : SignalType) (p : Nat) (L : List Byte) : ParsedValue :=
  signalDataParseStr r.conv data t ⟨p + 1, L⟩ ⟨0, []⟩

theorem valueAt_data (r : LineReader) (data : Value) (t : SignalType) (p : Nat) (L : List Byte) :
    (valueAt r data t p L).data = (valueAt r data t 0 L).data := by
  have h := @parse_shift r.conv data ⟨0 + 1, L⟩ ⟨0, []⟩ ⟨0, []⟩ t p
  rw [Cursor.shift, Nat.add_right_comm, Nat.zero_add] at h
  exact h

/-! The first field of a line, behind its separator `c` at `p`. A value that stands in front of a byte
`e` that no number contains is read as it stands there. -/

section
variable {c e : Byte} {t : SignalType} {s : List Byte}

theorem field_leaks (hpeek : c ≠ r.format.delimiter) (ht : r.types[i]? = some t)
    (hblank : Blank r.format.delimiter L) (hb : begins t b) :
    p + L.length + 2 <
      (valueLoop r smp ⟨p, c :: (L ++ r.format.delimiter :: b)⟩ looks i (n + 1)).stop.pos := by
  have hpeek' : (⟨p, c :: (L ++ r.format.delimiter :: b)⟩ : Cursor).peek ≠ r.format.delimiter := hpeek
  have hleak := @parse_leaks r.conv (smp.data i) ⟨p + 1, L⟩ ⟨p, c :: (L ++ r.format.delimiter :: b)⟩
    _ _ _ hblank hb
  generalize hv : signalDataParseStr r.conv (smp.data i) t
    ((⟨p + 1, L⟩ : Cursor).append (r.format.delimiter :: b))
    ⟨p, c :: (L ++ r.format.delimiter :: b)⟩ = v at hleak
  dsimp only at hleak
  by_cases h : v.ret ≠ 0 ∨ v.stop.pos = p + 1
  · rw [valueLoop_stops hpeek' ht hv h]
    dsimp only
    omega
  · rw [valueLoop_continues hpeek' ht hv h]
    refine lt_of_lt_of_le ?_ valueLoop_forward
    omega

theorem field_empty (hpeek : c ≠ r.format.delimiter) (ht : r.types[i]? = some t)
    (hinvalid : t ≠ .invalid) (hblank : Blank r.format.delimiter L) (hb : begins t b = false) :
    ∃ new, valueLoop r smp ⟨p, c :: (L ++ r.format.delimiter :: b)⟩ looks i (n + 1) =
      ⟨smp.setData i (valueAt r (smp.data i) t p L).data, i,
        ⟨p + 1, L ++ r.format.delimiter :: b⟩, looks ++ new⟩ := by
  have hpeek' : (⟨p, c :: (L ++ r.format.delimiter :: b)⟩ : Cursor).peek ≠ r.format.delimiter := hpeek
  obtain ⟨hdata, hstop, hret⟩ := @parse_blank _ _ ⟨p + 1, L⟩ _ _ _ _ _ hinvalid hblank hb
  generalize hv : signalDataParseStr r.conv (smp.data i) t
    ((⟨p + 1, L⟩ : Cursor).append (r.format.delimiter :: b))
    ⟨p, c :: (L ++ r.format.delimiter :: b)⟩ = v at hdata hstop hret
  refine ⟨v.looks, ?_⟩
  rw [valueLoop_stops hpeek' ht hv hret, hdata, hstop]
  rfl

theorem field_read (he : inNumber e = false) (hpeek : c ≠ r.format.delimiter)
    (ht : r.types[i]? = some t) (hinvalid : t ≠ .invalid) (hblank : ¬ Blank e L)
    (hscan : scanValue t L = .ok s) :
    s <:+ L ∧ s.length < L.length ∧
      valueLoop r smp ⟨p, c :: (L ++ e :: b)⟩ looks i (n + 1) =
        valueLoop r (smp.setData i (valueAt r (smp.data i) t p L).data)
          ⟨p + 1 + (L.length - s.length), s ++ e :: b⟩
          (looks ++ (valueAt r (smp.data i) t p L).looks) (i + 1) n := by
  have hpeek' : (⟨p, c :: (L ++ e :: b)⟩ : Cursor).peek ≠ r.format.delimiter := hpeek
  have hparse := @parse_append r.conv (smp.data i) ⟨p + 1, L⟩ ⟨p, c :: (L ++ e :: b)⟩ ⟨0, []⟩ _ b _
    hinvalid he hblank
  obtain ⟨hret, hstop, hs, hlt⟩ := (@parse_scans _ _ ⟨p + 1, L⟩ _ _ hinvalid).ok s hscan
  refine ⟨hs, hlt, ?_⟩
  rw [valueLoop_continues hpeek' ht hparse]
  · unfold valueAt
    dsimp only
    rw [hstop]
    rfl
  · dsimp only at hlt
    simp only [hret, hstop, Cursor.append_pos, Cursor.upTo, Cursor.next_pos, ne_eq,
      not_true_eq_false, false_or]
    omega

theorem field_gives_up (he : inNumber e = false) (hpeek : c ≠ r.format.delimiter)
    (ht : r.types[i]? = some t) (hinvalid : t ≠ .invalid) (hblank : ¬ Blank e L)
    (hscan : scanValue t L = .error s) :
    s <:+ L ∧
      valueLoop r smp ⟨p, c :: (L ++ e :: b)⟩ looks i (n + 1) =
        ⟨smp.setData i (valueAt r (smp.data i) t p L).data, i,
          ⟨p + 1 + (L.length - s.length), s ++ e :: b⟩,
          looks ++ (valueAt r (smp.data i) t p L).looks⟩ := by
  have hpeek' : (⟨p, c :: (L ++ e :: b)⟩ : Cursor).peek ≠ r.format.delimiter := hpeek
  have hparse := @parse_append r.conv (smp.data i) ⟨p + 1, L⟩ ⟨p, c :: (L ++ e :: b)⟩ ⟨0, []⟩ _ b _
    hinvalid he hblank
  obtain ⟨hret, hstop, hs⟩ := (@parse_scans _ _ ⟨p + 1, L⟩ _ _ hinvalid).error s hscan
  refine ⟨hs, ?_⟩
  rw [valueLoop_stops hpeek' ht hparse hret]
  unfold valueAt
  dsimp only
  rw [hstop]
  rfl

end

/-! ### The whole line -/

/-- A pointer that is in the line, but not at its end, or behind the delimiter and one more byte. -/
def Astray (d : Byte) (b : List Byte) (p : Nat) (L : List Byte) (stop : Cursor) : Prop :=
  (∃ s, s ≠ [] ∧ s <:+ L ∧ stop = ⟨p + (L.length - s.length), s ++ d :: b⟩) ∨
    p + L.length + 1 < stop.pos

theorem astray_here {d : Byte} (hL : L ≠ []) : Astray d b p L ⟨p, L ++ d :: b⟩ :=
  .inl ⟨L, hL, List.suffix_rfl, by rw [Nat.sub_self, Nat.add_zero]⟩

theorem Astray.of_suffix {d c : Byte} {s : List Byte} {stop : Cursor} (hs : s <:+ L)
    (h : Astray d b (p + 1 + (L.length - s.length)) s stop) : Astray d b p (c :: L) stop := by
  have hle := hs.length_le
  rcases h with ⟨u, hne, hu, rfl⟩ | hlt
  · refine .inl ⟨u, hne, (hu.trans hs).trans (List.suffix_cons c L), ?_⟩
    have hu := hu.length_le
    rw [List.length_cons, show p + 1 + (L.length - s.length) + (s.length - u.length) =
      p + (L.length + 1 - u.length) by omega]
  · refine .inr ?_
    rw [List.length_cons]
    omega

theorem not_empty_field {d : Byte} {t : SignalType} (h : ¬ Blank d L) :
    ¬ (L = [] ∧ isSpace d ∧ begins t b) := by
  rintro ⟨rfl, hspace, -⟩
  exact h ⟨rfl, hspace⟩

theorem valueLoop_ends (hd : inNumber r.format.delimiter = false) (hL : r.format.delimiter ∉ L) :
    Tail r.format.delimiter b ((r.types.drop i).take n) L ∧
        (valueLoop r smp ⟨p, L ++ r.format.delimiter :: b⟩ looks i n).stop =
          ⟨p + L.length, r.format.delimiter :: b⟩ ∨
      ¬ Tail r.format.delimiter b ((r.types.drop i).take n) L ∧
        Astray r.format.delimiter b p L
          (valueLoop r smp ⟨p, L ++ r.format.delimiter :: b⟩ looks i n).stop := by
  induction n generalizing smp p L looks i with
  | zero =>
    cases L with
    | nil => exact .inl ⟨trivial, rfl⟩
    | cons c L => exact .inr ⟨id, astray_here (List.cons_ne_nil _ _)⟩
  | succ n ih =>
    cases L with
    | nil => exact .inl ⟨trivial, by rw [valueLoop_end rfl]; rfl⟩
    | cons c L =>
      obtain ⟨hc, hL⟩ := not_or.mp (mt List.mem_cons.mpr hL)
      have hpeek : c ≠ r.format.delimiter := Ne.symm hc
      have hhere : Astray r.format.delimiter b p (c :: L) ⟨p, c :: (L ++ r.format.delimiter :: b)⟩ :=
        astray_here (List.cons_ne_nil _ _)
      rw [List.cons_append]
      cases ht : r.types[i]? with
      | none =>
        rw [valueLoop_full ht, types_take_none ht]
        exact .inr ⟨id, hhere⟩
      | some t =>
        rw [types_take_some ht, Tail]
        by_cases hinvalid : t = .invalid
        · subst hinvalid
          have hpeek' : (⟨p, c :: (L ++ r.format.delimiter :: b)⟩ : Cursor).peek ≠
              r.format.delimiter := hpeek
          rw [valueLoop_stops hpeek' ht rfl (.inl neg_one_ne)]
          exact .inr ⟨fun h => h.1 rfl, hhere⟩
        by_cases hblank : Blank r.format.delimiter L
        · rw [fields_error hinvalid (scanValue_blank hblank.1)]
          cases hb : begins t b with
          | true =>
            refine .inr ⟨?_, .inr ?_⟩
            · rintro ⟨hnil, hnot⟩
              exact hnot ⟨hnil, hblank.2, rfl⟩
            · rw [List.length_cons]
              exact field_leaks hpeek ht hblank hb
          | false =>
            obtain ⟨new, heq⟩ := field_empty (p := p) (n := n) hpeek ht hinvalid hblank hb
            rw [heq]
            by_cases hnil : L = []
            · subst hnil
              exact .inl ⟨⟨rfl, by simp⟩, rfl⟩
            · refine .inr ⟨fun h => hnil h.1, .of_suffix List.suffix_rfl ?_⟩
              rw [Nat.sub_self, Nat.add_zero]
              exact astray_here hnil
        · cases hscan : scanValue t L with
          | ok s =>
            obtain ⟨hs, hlt, heq⟩ := field_read (p := p) (b := b) (n := n)
              hd hpeek ht hinvalid hblank hscan
            rw [fields_ok hinvalid hscan, heq, List.length_cons]
            rcases ih (p := p + 1 + (L.length - s.length))
              (i := i + 1)
              (fun h => hL (hs.subset h)) with ⟨htail, hstop⟩ | ⟨htail, hstop⟩
            · refine .inl ⟨htail, ?_⟩
              rw [hstop, show p + 1 + (L.length - s.length) + s.length = p + (L.length + 1) by omega]
            · exact .inr ⟨htail, hstop.of_suffix hs⟩
          | error s =>
            obtain ⟨hs, heq⟩ := field_gives_up (p := p) (b := b) (n := n)
              hd hpeek ht hinvalid hblank hscan
            rw [fields_error hinvalid hscan, heq]
            by_cases hnil : s = []
            · subst hnil
              refine .inl ⟨⟨rfl, not_empty_field hblank⟩, ?_⟩
              rw [List.length_cons, List.length_nil, Nat.sub_zero, List.nil_append, Nat.add_right_comm,
                Nat.add_assoc]
            · exact .inr ⟨fun h => hnil h.1, .of_suffix hs (astray_here hnil)⟩

/-- What is read from a line with the right fields depends neither on where the line stands nor on
what is behind it, and nothing behind it is looked at if its fields are right for whatever follows. -/
theorem valueLoop_line (hd : inNumber r.format.delimiter = false) (hL : r.format.delimiter ∉ L) :
    ∃ smp' k, ∀ p b looks, Tail r.format.delimiter b ((r.types.drop i).take n) L →
      ∃ new, valueLoop r smp ⟨p, L ++ r.format.delimiter :: b⟩ looks i n =
          ⟨smp', k, ⟨p + L.length, r.format.delimiter :: b⟩, looks ++ new⟩ ∧
        ((∀ b, Tail r.format.delimiter b ((r.types.drop i).take n) L) →
          ∀ l ∈ new, l.start + l.size ≤ p + L.length + 1) := by
  have hend : ∀ (smp : Payload) (i n : Nat), ∃ smp' k, ∀ p b looks,
      Tail r.format.delimiter b ((r.types.drop i).take n) [] →
      ∃ new, valueLoop r smp ⟨p, [] ++ r.format.delimiter :: b⟩ looks i n =
          ⟨smp', k, ⟨p, r.format.delimiter :: b⟩, looks ++ new⟩ ∧
        ((∀ b, Tail r.format.delimiter b ((r.types.drop i).take n) []) →
          ∀ l ∈ new, l.start + l.size ≤ p + 1) := by
    intro smp i n
    refine ⟨smp, i, fun p b looks _ => ⟨[], ?_, by simp⟩⟩
    rw [valueLoop_end rfl, List.append_nil]
    rfl
  induction n generalizing smp L i with
  | zero =>
    cases L with
    | nil => exact hend smp i 0
    | cons c L => exact ⟨smp, 0, fun _ _ _ h => h.elim⟩
  | succ n ih =>
    cases L with
    | nil => exact hend smp i (n + 1)
    | cons c L =>
      obtain ⟨hc, hL⟩ := not_or.mp (mt List.mem_cons.mpr hL)
      have hpeek : c ≠ r.format.delimiter := Ne.symm hc
      cases ht : r.types[i]? with
      | none =>
        rw [types_take_none ht]
        exact ⟨smp, 0, fun _ _ _ h => h.elim⟩
      | some t =>
        rw [types_take_some ht]
        by_cases hinvalid : t = .invalid
        · exact ⟨smp, 0, fun _ _ _ h => absurd hinvalid h.1⟩
        by_cases hblank : Blank r.format.delimiter L
        · refine ⟨smp.setData i (valueAt r (smp.data i) t 0 L).data, i, fun p b looks h => ?_⟩
          obtain ⟨hnil, hnot⟩ := (fields_error hinvalid (scanValue_blank hblank.1)).mp h
          have hb : begins t b = false := by
            rw [← Bool.not_eq_true]
            exact fun hb => hnot ⟨hnil, hblank.2, hb⟩
          obtain ⟨new, heq⟩ := field_empty (p := p) (n := n) hpeek ht hinvalid hblank hb
          refine ⟨new, ?_, ?_⟩
          · rw [List.cons_append, heq, hnil, valueAt_data]
            rfl
          · intro hall
            exact absurd ⟨hnil, hblank.2, begins_one hinvalid⟩
              ((fields_error hinvalid (scanValue_blank hblank.1)).mp (hall [ch '1'])).2
        · have hlooks : ∀ p, ∀ l ∈ (valueAt r (smp.data i) t p L).looks,
              l.start + l.size ≤ p + (c :: L).length + 1 := by
            intro p l hl
            have := (parse_looks l hl).2
            dsimp only at this
            rw [List.length_cons]
            omega
          cases hscan : scanValue t L with
          | ok s =>
            have hread := fun p b looks => @field_read _ smp looks p _ n _ b _ _ _ _ hd hpeek ht
              hinvalid hblank hscan
            obtain ⟨hs, hlt, -⟩ := hread 0 [] []
            obtain ⟨smp', k, hrest⟩ := ih (i := i + 1) fun h => hL (hs.subset h)
            refine ⟨smp', k, fun p b looks h => ?_⟩
            have hlen : p + 1 + (L.length - s.length) + s.length = p + (c :: L).length := by
              rw [List.length_cons]
              omega
            obtain ⟨new, heq, hnew⟩ := hrest (p + 1 + (L.length - s.length)) b
              (looks ++ (valueAt r (smp.data i) t p L).looks) ((fields_ok hinvalid hscan).mp h)
            refine ⟨(valueAt r (smp.data i) t p L).looks ++ new, ?_, ?_⟩
            · rw [List.cons_append, (hread p b looks).2.2, valueAt_data, heq, hlen, List.append_assoc]
            · intro hall l hl
              rcases List.mem_append.mp hl with hl | hl
              · exact hlooks p l hl
              · rw [← hlen]
                exact hnew (fun b => (fields_ok hinvalid hscan).mp (hall b)) l hl
          | error s =>
            refine ⟨smp.setData i (valueAt r (smp.data i) t 0 L).data, i, fun p b looks h => ?_⟩
            obtain ⟨rfl, -⟩ := (fields_error hinvalid hscan).mp h
            have heq := (@field_gives_up _ smp looks p _ n _ b _ _ _ _ hd hpeek ht hinvalid hblank
              hscan).2
            refine ⟨(valueAt r (smp.data i) t p L).looks, ?_, fun _ => hlooks p⟩
            rw [List.cons_append, heq, valueAt_data, List.length_cons, List.length_nil, Nat.sub_zero,
              List.nil_append, Nat.add_right_comm, Nat.add_assoc]

end

end VillasNode.Line
