import VillasNode.Lib.Fallible
import VillasNode.Mapping.Entry

/-!
# What mapping expressions are prepared to

The entry that is parsed from the text of an expression, and what
`mapping_entry_prepare` makes of it.
-/

namespace VillasNode.MappingExpr

open ByteOrder Strto Line Regex MachineInt MappingRegex Fallible

/-! ## What an expression is parsed to -/

def SignalRange.type (r : SignalRange) : EntryType :=
  .data (some r.first.text) (r.last.map Word.text)

def Target.type : Target → Except MappingError EntryType
  | .stats metric type => do
    let type ← lookupType type.text
    let metric ← lookupMetric metric.text
    .ok (.stats metric type)
  | .header type => .ok (.header type)
  | .timestamp type => .ok (.timestamp type)
  | .data range => .ok range.type
  | .signal _ name => .ok (.data (some name.text) none)

def Expr.type : Expr → Except MappingError EntryType
  | .part _ target => target.type
  | .signals _ none => .ok (.data none none)
  | .signals _ (some range) => .ok range.type

section
variable {me me' : Entry} {str : List Byte}

theorem parseType_target (t : Target) (c : Captures Byte) (h6 : c 6 = none) (h10 : c 10 = none)
    (h8 : c 8 = none) (h2 : c 2 = none) (h5 : c 5 = none) (h7 : c 7 = none) :
    parseType (t.captures c) str me = t.type := by
  cases t with
  | stats metric type => simp [parseType, Target.captures, Target.type, h6, h10, h8]
  | header type =>
    have hne : ascii "length" ≠ ascii "sequence" := by decide
    cases type with
    | sequence => simp [parseType, Target.captures, Target.type, h6, h10, h8, h2, h5, headerText]
    | length => simp [parseType, Target.captures, Target.type, h6, h10, h8, h2, h5, headerText, hne]
  | timestamp type =>
    have hne : ascii "received" ≠ ascii "origin" := by decide
    cases type with
    | origin => simp [parseType, Target.captures, Target.type, h6, h10, h8, h2, timestampText]
    | received => simp [parseType, Target.captures, Target.type, h6, h10, h8, h2, timestampText, hne]
  | data range =>
    obtain ⟨first, last⟩ := range
    cases last with
    | none => simp [parseType, Target.captures, SignalRange.captures, Target.type, SignalRange.type, h7]
    | some last => simp [parseType, Target.captures, SignalRange.captures, Target.type, SignalRange.type]
  | signal named name => simp [parseType, Target.captures, Target.type, h6, h10]

theorem parseType_text (e : Expr) (h : me.nodeName = some e.node.text) :
    parseType e.captures str me = e.type := by
  cases e with
  | part node target =>
    apply parseType_target
    · rfl
    · rfl
    · rfl
    · rfl
    · rfl
    · rfl
  | signals node range =>
    cases range with
    | none => simp [parseType, Expr.captures, Captures.none, Expr.type, h]
    | some range =>
      obtain ⟨first, last⟩ := range
      cases last with
      | none =>
        simp [parseType, Expr.captures, SignalRange.captures, Captures.none, Expr.type, SignalRange.type]
      | some last =>
        simp [parseType, Expr.captures, SignalRange.captures, Captures.none, Expr.type, SignalRange.type]

theorem SignalRange.captures_other {r : SignalRange} {i j n : Nat} (c : Captures Byte) (hi : n ≠ i)
    (hj : n ≠ j) : r.captures i j c n = c n := by
  obtain ⟨first, last⟩ := r
  cases last with
  | none => simp [captures, hi]
  | some last => simp [captures, hi, hj]

theorem parseName_text (e : Expr) : parseName e.captures (mappingEntryInit me) =
    { me with nodeName := some e.node.text, node := none, type := .unknown } := by
  have hname : (e.captures 1 = some e.node.text ∧ e.captures 9 = none) ∨
      (e.captures 1 = none ∧ e.captures 9 = some e.node.text) := by
    cases e with
    | part node target =>
      left
      cases target with
      | stats metric type => exact ⟨rfl, rfl⟩
      | header type => exact ⟨rfl, rfl⟩
      | timestamp type => exact ⟨rfl, rfl⟩
      | data range =>
        exact ⟨range.captures_other _ (by decide) (by decide),
          range.captures_other _ (by decide) (by decide)⟩
      | signal named name => exact ⟨rfl, rfl⟩
    | signals node range =>
      right
      cases range with
      | none => exact ⟨rfl, rfl⟩
      | some range =>
        exact ⟨range.captures_other _ (by decide) (by decide),
          range.captures_other _ (by decide) (by decide)⟩
  unfold parseName mappingEntryInit
  rcases hname with ⟨h1, h9⟩ | ⟨h1, h9⟩
  · simp [h1, h9]
  · simp [h1, h9]

theorem parseStr_text (e : Expr) : mappingEntryParseStr (mappingEntryInit me) e.text =
    e.type.map fun type => { me with nodeName := some e.node.text, node := none, type } := by
  unfold mappingEntryParseStr
  rw [regexMatch_text]
  dsimp only
  rw [parseName_text, parseType_text e rfl]

theorem parseStr_invalid (h : ∀ e : Expr, e.text ≠ str) :
    mappingEntryParseStr me str = .error (invalidFormat str) := by
  unfold mappingEntryParseStr
  rw [regexMatch_none h]

theorem parseStr_ok (h : mappingEntryParseStr (mappingEntryInit me) str = .ok me') :
    ∃ e : Expr, ∃ type, str = e.text ∧ e.type = .ok type ∧
      me' = { me with nodeName := some e.node.text, node := none, type } := by
  by_cases htext : ∃ e : Expr, e.text = str
  · obtain ⟨e, rfl⟩ := htext
    rw [parseStr_text] at h
    cases htype : e.type with
    | error err =>
      rw [htype] at h
      cases h
    | ok type =>
      rw [htype] at h
      cases h
      exact ⟨e, type, rfl, htype, rfl⟩
  · rw [parseStr_invalid (not_exists.mp htext)] at h
    cases h

end

/-! ## Indices -/

/-- The signal is found, and its index is an `int`. -/
def Found (signals : List (List Byte)) (str : List Byte) : Prop :=
  str ∈ signals ∧ 0 ≤ toInt (signals.idxOf str)

instance (signals : List (List Byte)) (str : List Byte) : Decidable (Found signals str) :=
  inferInstanceAs (Decidable (_ ∧ _))

/-- The index as the `int` that `vlist_lookup_index` or `strtoul` leaves. -/
def intIndex (signals : List (List Byte)) (str : List Byte) : Int :=
  if Found signals str then toInt (signals.idxOf str)
  else toInt (min (number str) (2 ^ 64 - 1))

theorem indexChar_number {b : Byte} (h : indexChar b) : isSpace b = false ∧ isSign b = false := by
  unfold indexChar at h
  rw [decide_eq_true_eq] at h
  constructor
  · simp only [isAlpha, isDigit, isSpace, decide_eq_true_eq, decide_eq_false_iff_not] at h ⊢
    rcases h with h | h | rfl
    · omega
    · omega
    · decide
  · simp only [isSign, decide_eq_false_iff_not, not_or]
    constructor
    · rintro rfl
      revert h
      decide
    · rintro rfl
      revert h
      decide

theorem convert_word (w : Word indexChar) :
    (⟨0, w.text ++ [0]⟩ : Cursor).convert integer =
      (w.text.takeWhile isDigit,
        ⟨(w.text.takeWhile isDigit).length, w.text.dropWhile isDigit ++ [0]⟩) := by
  obtain ⟨text, chars, pos⟩ := w
  obtain ⟨c, t, rfl⟩ := List.exists_cons_of_length_pos pos
  dsimp only at *
  obtain ⟨hspace, hsign⟩ := indexChar_number (chars c List.mem_cons_self)
  by_cases hc : isDigit c
  · have hnumeral : Numeral ((c :: t).takeWhile isDigit) (number ((c :: t).takeWhile isDigit)) := by
      refine ⟨?_, fun b hb => List.mem_takeWhile_imp hb, rfl⟩
      rw [List.takeWhile_cons_of_pos hc]
      exact List.cons_ne_nil _ _
    obtain ⟨e, s, hrest, he⟩ : ∃ e s, (c :: t).dropWhile isDigit ++ [0] = e :: s ∧ isDigit e = false := by
      cases hdrop : (c :: t).dropWhile isDigit with
      | nil => exact ⟨0, [], rfl, by decide⟩
      | cons e s =>
        refine ⟨e, s ++ [0], rfl, ?_⟩
        have hne : (c :: t).dropWhile isDigit ≠ [] := by
          rw [hdrop]
          exact List.cons_ne_nil _ _
        have hhead := List.head_dropWhile_not isDigit hne
        simp only [hdrop, List.head_cons] at hhead
        exact hhead
    have hconvert := (hnumeral.signed.convert (s := s) he 0).2
    rw [← hrest, ← List.append_assoc, List.takeWhile_append_dropWhile, Nat.zero_add] at hconvert
    exact hconvert
  · have hnone : spaced integer (c :: t ++ [0]) = none := by
      simp [spaced, integer, Scan.andThen, Scan.optional, Scan.one, Strto.digits, hspace, hsign, hc]
    rw [convert_none (c := ⟨0, c :: t ++ [0]⟩) hnone, List.takeWhile_cons_of_neg hc,
      List.dropWhile_cons_of_neg hc]
    rfl

section
variable {lookup : LookupIndex} {n : SourceNode} {me me' : Entry} {x : Int}

theorem strtoul_word (w : Word indexChar) :
    ((strtoul ⟨0, w.text ++ [0]⟩).2.pos = w.text.length ↔ ∀ b ∈ w.text, isDigit b) ∧
      ((∀ b ∈ w.text, isDigit b) →
        (strtoul ⟨0, w.text ++ [0]⟩).1.toNat = min (number w.text) (2 ^ 64 - 1)) := by
  have hsplit := List.takeWhile_append_dropWhile (p := isDigit) (l := w.text)
  unfold strtoul
  rw [convert_word]
  dsimp only
  constructor
  · rw [← List.dropWhile_eq_nil_iff, ← List.length_eq_zero_iff]
    have hlength := congrArg List.length hsplit
    rw [List.length_append] at hlength
    omega
  · intro h
    have hnumeral : Numeral w.text (number w.text) := by
      refine ⟨?_, h, rfl⟩
      rintro hnil
      have := w.pos
      rw [hnil] at this
      cases this
    rw [List.takeWhile_eq_self_iff.mpr h]
    unfold ulongValue
    rw [hnumeral.negative]
    split
    · rw [Nat.min_eq_right (by omega)]
      rfl
    · rw [if_neg (by decide), BitVec.toNat_ofNat]
      omega

theorem dataIndex_ok_iff (hlookup : lookup.Lawful) (w : Word indexChar) :
    dataIndex lookup (some n) w.text = .ok x ↔
      (Found n.signals w.text ∨ ∀ b ∈ w.text, isDigit b) ∧ x = intIndex n.signals w.text := by
  obtain ⟨hall, hvalue⟩ := strtoul_word w
  have hnegative : lookup n.signals w.text < 0 ↔ ¬ Found n.signals w.text := by
    rw [hlookup]
    unfold Found
    split
    · rename_i hmem
      rw [and_iff_right hmem, Int.not_le]
    · rename_i hmem
      exact iff_of_true (by decide) (fun h => hmem h.1)
  unfold dataIndex intIndex
  dsimp only
  by_cases hfound : Found n.signals w.text
  · have hindex : lookup n.signals w.text = toInt (n.signals.idxOf w.text) := by
      rw [hlookup, if_pos hfound.1]
    rw [if_neg (mt hnegative.mp (not_not.mpr hfound)), if_pos hfound, hindex]
    rw [Except.ok.injEq, and_iff_right (Or.inl hfound), eq_comm]
  · rw [if_pos (hnegative.mpr hfound), if_neg hfound]
    by_cases hdigits : ∀ b ∈ w.text, isDigit b
    · rw [if_neg (not_not.mpr (hall.mpr hdigits)), hvalue hdigits]
      rw [Except.ok.injEq, and_iff_right (Or.inr hdigits), eq_comm]
    · rw [if_pos (mt hall.mp hdigits)]
      refine iff_of_false (fun h => (by cases h)) ?_
      rintro ⟨h | h, -⟩
      · exact hfound h
      · exact hdigits h

/-! ## Preparing -/

/-- The values that an expression stands for. -/
inductive Extent where
  | fixed (n : Nat)
  | all
  | range (first last : Word indexChar)

def Target.extent : Target → Extent
  | .stats .. | .header _ => .fixed 1
  | .timestamp _ => .fixed 2
  | .data range => .range range.first (range.last.getD range.first)
  | .signal _ name => .range name name

def Expr.extent : Expr → Extent
  | .part _ target => target.extent
  | .signals _ none => .all
  | .signals _ (some range) =>
    .range range.first (range.last.getD range.first)

/-- A negative length is replaced by the number of signals. -/
def refill (n : SourceNode) (length : Int) : Int :=
  if length < 0 then toInt n.signals.length else length

/-- A signal that is found, or a number. -/
def Accepted (signals : List (List Byte)) (str : List Byte) : Prop :=
  Found signals str ∨ ∀ b ∈ str, isDigit b

/-- What is made of an entry whose node is `n`. -/
def Extent.Prepares (n : SourceNode) (me me' : Entry) : Extent → Prop
  | .fixed _ => me' = { me with node := some n, length := refill n me.length }
  | .all => me' = { me with node := some n, dataOffset := 0, length := refill n (-1) }
  | .range first last =>
    Accepted n.signals first.text ∧ Accepted n.signals last.text ∧
      intIndex n.signals first.text ≤ intIndex n.signals last.text ∧
      me' = { me with
        node := some n
        dataOffset := intIndex n.signals first.text
        length := refill n
          (toInt (intIndex n.signals last.text - intIndex n.signals first.text + 1).toNat) }

theorem prepareLength_eq (h : me.node = some n) :
    prepareLength me = { me with length := refill n me.length } := by
  have hsignals : me.signals = n.signals := by
    unfold Entry.signals
    rw [h]
    rfl
  unfold prepareLength refill
  rw [hsignals]
  split
  · rfl
  · rfl

theorem lastIndex_ok_iff (hlookup : lookup.Lawful) {first : Word indexChar}
    (hfirst : Accepted n.signals first.text) (last : Option (Word indexChar)) :
    lastIndex lookup (some n) (intIndex n.signals first.text) (last.map Word.text) = .ok x ↔
      Accepted n.signals (last.getD first).text ∧ x = intIndex n.signals (last.getD first).text := by
  cases last with
  | none =>
    refine Iff.trans ?_ (and_iff_right hfirst).symm
    rw [eq_comm]
    exact Iff.of_eq (Except.ok.injEq ..)
  | some last => exact dataIndex_ok_iff hlookup last

theorem prepareData_ok_iff (hlookup : lookup.Lawful) (h : me.node = some n) (first : Word indexChar)
    (last : Option (Word indexChar)) :
    prepareData lookup me (some first.text) (last.map Word.text) = .ok me' ↔
      Accepted n.signals first.text ∧ Accepted n.signals (last.getD first).text ∧
        intIndex n.signals first.text ≤ intIndex n.signals (last.getD first).text ∧
        me' = { me with
          dataOffset := intIndex n.signals first.text
          length := toInt (intIndex n.signals (last.getD first).text -
            intIndex n.signals first.text + 1).toNat } := by
  unfold prepareData
  rw [h, bind_eq_ok]
  constructor
  · rintro ⟨x, hx, hprepare⟩
    obtain ⟨hfirst, rfl⟩ := (dataIndex_ok_iff hlookup first).mp hx
    obtain ⟨y, hy, hprepare⟩ := bind_eq_ok.mp hprepare
    obtain ⟨hlast, rfl⟩ := (lastIndex_ok_iff hlookup hfirst last).mp hy
    split at hprepare
    · cases hprepare
    · rename_i hle
      cases hprepare
      exact ⟨hfirst, hlast, Int.not_lt.mp hle, rfl⟩
  · rintro ⟨hfirst, hlast, hle, rfl⟩
    refine ⟨_, (dataIndex_ok_iff hlookup first).mpr ⟨hfirst, rfl⟩, ?_⟩
    rw [bind_eq_ok]
    refine ⟨_, (lastIndex_ok_iff hlookup hfirst last).mpr ⟨hlast, rfl⟩, ?_⟩
    rw [if_neg (Int.not_lt.mpr hle)]

/-- The fields of the union for each extent. -/
def Extent.Of (type : EntryType) : Extent → Prop
  | .fixed _ => ∀ first last, type ≠ .data first last
  | .all => type = .data none none
  | .range first last => ∃ last' : Option (Word indexChar),
    type = .data (some first.text) (last'.map Word.text) ∧ last = last'.getD first

theorem Expr.type_cases {e : Expr} {type : EntryType} (h : e.type = .ok type) : match type with
    | .stats metric type => ∃ node m t, e = .part node (.stats m t) ∧
        lookupMetric m.text = .ok metric ∧ lookupType t.text = .ok type
    | .header type => ∃ node, e = .part node (.header type)
    | .timestamp type => ∃ node, e = .part node (.timestamp type)
    | .data first last => e.extent.Of (.data first last)
    | .unknown => False := by
  cases e with
  | part node target =>
    cases target with
    | stats metric type =>
      obtain ⟨_, htype, h⟩ := bind_eq_ok.mp h
      obtain ⟨_, hmetric, h⟩ := bind_eq_ok.mp h
      cases h
      exact ⟨node, metric, type, rfl, hmetric, htype⟩
    | header type =>
      cases h
      exact ⟨node, rfl⟩
    | timestamp type =>
      cases h
      exact ⟨node, rfl⟩
    | data range =>
      cases h
      exact ⟨range.last, rfl, rfl⟩
    | signal named name =>
      cases h
      exact ⟨none, rfl, rfl⟩
  | signals node range =>
    cases range with
    | none =>
      cases h
      rfl
    | some range =>
      cases h
      exact ⟨range.last, rfl, rfl⟩

theorem Expr.extent_of {e : Expr} {type : EntryType} (h : e.type = .ok type) : e.extent.Of type := by
  have hcases := Expr.type_cases h
  cases type with
  | unknown => exact absurd hcases id
  | data first last => exact hcases
  | stats metric type =>
    obtain ⟨node, m, t, rfl, -⟩ := hcases
    rintro _ _ ⟨⟩
  | header type =>
    obtain ⟨node, rfl⟩ := hcases
    rintro _ _ ⟨⟩
  | timestamp type =>
    obtain ⟨node, rfl⟩ := hcases
    rintro _ _ ⟨⟩

theorem prepareType_ok_iff (hlookup : lookup.Lawful) {e : Extent} (he : e.Of me.type) :
    (prepareType lookup { me with node := some n }).map prepareLength = .ok me' ↔
      e.Prepares n me me' := by
  rw [map_eq_ok]
  cases e with
  | fixed k =>
    have htype : prepareType lookup { me with node := some n } = .ok { me with node := some n } := by
      unfold prepareType
      split
      · rename_i hdata
        exact absurd hdata (he _ _)
      · rfl
    rw [htype]
    constructor
    · rintro ⟨_, ⟨⟩, rfl⟩
      exact prepareLength_eq rfl
    · intro h
      refine ⟨_, rfl, ?_⟩
      rw [prepareLength_eq (n := n) rfl]
      exact h
  | all =>
    have htype : prepareType lookup { me with node := some n } =
        .ok { me with node := some n, dataOffset := 0, length := -1 } := by
      unfold prepareType
      dsimp only
      rw [he]
      rfl
    rw [htype]
    constructor
    · rintro ⟨_, ⟨⟩, rfl⟩
      exact prepareLength_eq rfl
    · intro h
      refine ⟨_, rfl, ?_⟩
      rw [prepareLength_eq (n := n) rfl]
      exact h
  | range first last =>
    obtain ⟨last', htype, rfl⟩ := he
    have htype : prepareType lookup { me with node := some n } =
        prepareData lookup { me with node := some n } (some first.text) (last'.map Word.text) := by
      unfold prepareType
      dsimp only
      rw [htype]
    rw [htype]
    constructor
    · rintro ⟨me₁, h, rfl⟩
      obtain ⟨hfirst, hlast, hle, rfl⟩ := (prepareData_ok_iff hlookup rfl first last').mp h
      exact ⟨hfirst, hlast, hle, prepareLength_eq rfl⟩
    · rintro ⟨hfirst, hlast, hle, h⟩
      refine ⟨_, (prepareData_ok_iff hlookup rfl first last').mpr ⟨hfirst, hlast, hle, rfl⟩, ?_⟩
      rw [prepareLength_eq (n := n) rfl]
      exact h

theorem prepareNode_eq {nodes : List SourceNode} {name : List Byte} (hname : me.nodeName = some name)
    (hnode : me.node = none) : prepareNode nodes me = match lookupNode nodes name with
      | some n => .ok { me with node := some n }
      | none => .error (.runtime (ascii "Invalid node name in mapping: " ++ name)) := by
  obtain ⟨nodeName, node, type, length, offset, dataOffset⟩ := me
  obtain rfl : nodeName = some name := hname
  obtain rfl : node = none := hnode
  rfl

theorem prepare_ok_iff (hlookup : lookup.Lawful) {nodes : List SourceNode} {e : Expr}
    (htype : e.type = .ok me.type) (hname : me.nodeName = some e.node.text) (hnode : me.node = none) :
    mappingEntryPrepare lookup nodes me = .ok me' ↔
      ∃ n, lookupNode nodes e.node.text = some n ∧ e.extent.Prepares n me me' := by
  unfold mappingEntryPrepare
  rw [prepareNode_eq hname hnode]
  cases hlook : lookupNode nodes e.node.text with
  | none =>
    refine iff_of_false (fun h => (by cases h)) ?_
    rintro ⟨n, ⟨⟩, -⟩
  | some n =>
    have hstep : (prepareType lookup { me with node := some n }).map prepareLength = .ok me' ↔ _ :=
      prepareType_ok_iff hlookup (Expr.extent_of htype)
    dsimp only
    rw [ok_bind]
    constructor
    · intro h
      obtain ⟨me₁, hme₁, h⟩ := bind_eq_ok.mp h
      cases h
      exact ⟨n, rfl, hstep.mp (map_eq_ok.mpr ⟨me₁, hme₁, rfl⟩)⟩
    · rintro ⟨_, ⟨⟩, h⟩
      obtain ⟨me₁, hme₁, rfl⟩ := map_eq_ok.mp (hstep.mpr h)
      exact bind_eq_ok.mpr ⟨me₁, hme₁, rfl⟩

/-! ## What is kept and what is set -/

theorem intIndex_lt (signals : List (List Byte)) (str : List Byte) : intIndex signals str < 2 ^ 31 := by
  unfold intIndex
  split
  · exact toInt_lt _
  · exact toInt_lt _

theorem le_intIndex (signals : List (List Byte)) (str : List Byte) :
    -2 ^ 31 ≤ intIndex signals str := by
  unfold intIndex
  split
  · exact le_toInt _
  · exact le_toInt _

theorem refill_lt {length : Int} (h : length < 2 ^ 31) : refill n length < 2 ^ 31 := by
  unfold refill
  split
  · exact toInt_lt _
  · exact h

theorem prepares_type {e : Extent} (h : e.Prepares n me me') :
    me'.type = me.type := by
  cases e with
  | fixed k =>
    obtain rfl := h
    rfl
  | all =>
    obtain rfl := h
    rfl
  | range first last =>
    obtain ⟨-, -, -, rfl⟩ := h
    rfl

theorem prepares_node {e : Extent} (h : e.Prepares n me me') : me'.node = some n := by
  cases e with
  | fixed k =>
    obtain rfl := h
    rfl
  | all =>
    obtain rfl := h
    rfl
  | range first last =>
    obtain ⟨-, -, -, rfl⟩ := h
    rfl

theorem prepares_data_lt {e : Extent} (he : e.Of me.type) (h : e.Prepares n me me')
    (hdata : ∃ first last, me.type = .data first last) : me'.length < 2 ^ 31 := by
  obtain ⟨first, last, hdata⟩ := hdata
  cases e with
  | fixed k => exact absurd hdata (he first last)
  | all =>
    obtain rfl := h
    dsimp only
    exact refill_lt (by decide)
  | range first last =>
    obtain ⟨-, -, -, rfl⟩ := h
    exact refill_lt (toInt_lt _)

end

/-! ## A lookup and a memory -/

/-- The first element with the name. -/
def firstIndex : LookupIndex := fun names name =>
  if names.contains name then toInt (names.idxOf name) else -1

theorem firstIndex_lawful : firstIndex.Lawful := by
  intro names name
  unfold firstIndex
  by_cases h : name ∈ names
  · rw [if_pos (List.contains_iff_mem.mpr h), if_pos h]
  · rw [if_neg (mt List.contains_iff_mem.mp h), if_neg h]

/-- The memory of a new entry. -/
def leftover : Entry := ⟨none, none, .unknown, 7, 0, 0⟩

end VillasNode.MappingExpr
