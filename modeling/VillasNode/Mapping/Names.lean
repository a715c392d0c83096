import VillasNode.Mapping.Prepared

/-!
# Names of mapped values

The text that `mapping_entry_to_str` prints for one value of an entry, read
again as an expression. The printer gives the position in the entry where the
parser expects the position in the sample.
-/

namespace VillasNode.MappingExpr

open ByteOrder Strto Line Regex MachineInt MappingRegex Fallible

/-! ## The specification -/

/-- An entry that comes from the text of an expression. -/
def FromText (lookup : LookupIndex) (nodes : List SourceNode) (me : Entry) : Prop :=
  ∃ fresh str parsed, mappingEntryParseStr (mappingEntryInit fresh) str = .ok parsed ∧
    mappingEntryPrepare lookup nodes parsed = .ok me

/-- The names are different from each other and from numbers. -/
def DistinctNames (signals : List (List Byte)) : Prop :=
  signals.Nodup ∧ ∀ name ∈ signals, name ≠ [] → ¬ ∀ b ∈ name, isDigit b

def SameKind : EntryType → EntryType → Prop
  | .data _ _, .data _ _ => True
  | type, type' => type = type'

/-- The entry stands for this one value of the node. -/
def Recovers (me : Entry) (index : Nat) (me' : Entry) : Prop :=
  me'.node = me.node ∧ SameKind me.type me'.type ∧
    ((∃ first last, me.type = .data first last) →
      me'.dataOffset = me.dataOffset + index ∧ me'.length = 1)

/-- The text for one value is accepted, and stands for this value. -/
def RoundTrips (lookup : LookupIndex) (nodes : List SourceNode) (fresh me : Entry) (index : Nat) : Prop :=
  ∃ str parsed me', mappingEntryToStr me index = some str ∧
    mappingEntryParseStr (mappingEntryInit fresh) str = .ok parsed ∧
    mappingEntryPrepare lookup nodes parsed = .ok me' ∧ Recovers me index me'

/-! ## When it is met -/

/-- A range `a-b` from and to the element, as indices of signals or as numbers. If the node has one
signal only, also a range whose length is no `int`. -/
def RangeOfOne (signals : List (List Byte)) (name : List Byte) (element : Int) : Prop :=
  ∃ first last : Word indexChar, name = first.text ++ (ascii "-" ++ last.text) ∧
    Accepted signals first.text ∧ Accepted signals last.text ∧
    intIndex signals first.text = element ∧
    (intIndex signals last.text = element ∨
      2 ^ 31 ≤ intIndex signals last.text - element + 1 ∧
        intIndex signals last.text - element + 1 < 2 ^ 32 ∧ toInt signals.length = 1)

/-- The element is printed by a name or a number that the parser reads as this element. -/
def Printable (me : Entry) (index : Nat) : Prop :=
  match me.type with
  | .stats .. | .header _ => True
  | .timestamp _ | .unknown => False
  | .data _ _ =>
    match me.signals[index]? with
    | none => me.dataOffset = 0
    | some name =>
      (name ≠ [] ∧ ∀ b ∈ name, indexChar b) ∧ me.dataOffset = 0 ∨
        RangeOfOne me.signals name (me.dataOffset + index)

/-! ## Reading what was printed -/

section
variable {lookup : LookupIndex} {nodes : List SourceNode} {fresh me : Entry} {index : Nat}

/-- The expression that an entry comes from. -/
structure Origin (nodes : List SourceNode) (me : Entry) (e : Expr) (n : SourceNode) : Prop where
  node : me.node = some n
  found : lookupNode nodes e.node.text = some n
  name : n.name = e.node.text
  type : e.type = .ok me.type
  length : (∃ first last, me.type = .data first last) → me.length < 2 ^ 31

theorem FromText.origin (hlookup : lookup.Lawful) (h : FromText lookup nodes me) :
    ∃ e n, Origin nodes me e n := by
  obtain ⟨fresh, str, parsed, hparse, hprepare⟩ := h
  obtain ⟨e, type, rfl, htype, rfl⟩ := parseStr_ok hparse
  obtain ⟨n, hlook, hprepares⟩ := (prepare_ok_iff hlookup htype rfl rfl).mp hprepare
  have hsame := prepares_type hprepares
  have hname := List.find?_some hlook
  refine ⟨e, n, prepares_node hprepares, hlook, ?_, ?_, fun hdata => ?_⟩
  · rw [decide_eq_true_eq] at hname
    exact hname.symm
  · rw [hsame]
    exact htype
  · rw [hsame] at hdata
    refine prepares_data_lt ?_ hprepares hdata
    exact Expr.extent_of htype

theorem reads_iff (hlookup : lookup.Lawful) {str : List Byte} {P : Entry → Prop} :
    (∃ parsed me', mappingEntryParseStr (mappingEntryInit fresh) str = .ok parsed ∧
      mappingEntryPrepare lookup nodes parsed = .ok me' ∧ P me') ↔
    ∃ (e : Expr) (type : EntryType) (n : SourceNode) (me' : Entry), str = e.text ∧
      e.type = .ok type ∧ lookupNode nodes e.node.text = some n ∧
      e.extent.Prepares n { fresh with nodeName := some e.node.text, node := none, type } me' ∧
      P me' := by
  constructor
  · rintro ⟨parsed, me', hparse, hprepare, hme'⟩
    obtain ⟨e, type, rfl, htype, rfl⟩ := parseStr_ok hparse
    obtain ⟨n, hlook, hprepares⟩ := (prepare_ok_iff hlookup htype rfl rfl).mp hprepare
    exact ⟨e, type, n, me', rfl, htype, hlook, hprepares, hme'⟩
  · rintro ⟨e, type, n, me', rfl, htype, hlook, hprepares, hme'⟩
    refine ⟨_, me', ?_, (prepare_ok_iff hlookup ?_ rfl rfl).mpr ⟨n, hlook, hprepares⟩, hme'⟩
    · rw [parseStr_text, htype]
      rfl
    · exact htype

/-! ## Texts of targets -/

theorem Expr.text_part {e : Expr} {node : NodeName} {rest : List Byte}
    (h : e.text = node.text ++ (ascii "." ++ rest)) : ∃ t, e = .part node t ∧ t.text = rest := by
  rw [e.text_eq] at h
  have hstop : ∀ b ∈ (ascii "." ++ rest).head?, nodeChar b = false := by
    rintro _ ⟨⟩
    decide
  obtain ⟨hnode, htail⟩ := append_unique e.node.chars node.chars e.tail_stop hstop h
  cases e with
  | part node' t =>
    obtain rfl : node' = node := NodeName.ext hnode
    exact ⟨t, rfl, (List.cons.inj htail).2⟩
  | signals node' range =>
    cases range with
    | none => cases htail
    | some range => cases htail

theorem Target.text_data {t : Target} {name : List Byte}
    (h : t.text = ascii "data[" ++ (name ++ ascii "]")) : ∃ r, t = .data r ∧ r.text = name := by
  have hsplit : t.head ++ t.tail = ascii "data" ++ (ch '[' :: (name ++ ascii "]")) :=
    t.text_eq.symm.trans h
  have hstop : ∀ b ∈ (ch '[' :: (name ++ ascii "]")).head?, indexChar b = false := by
    rintro _ ⟨⟩
    decide
  obtain ⟨hhead, htail⟩ := append_unique t.head_chars (List.all_eq_true.mp rfl) t.tail_stop hstop hsplit
  cases t with
  | stats metric type => cases hhead
  | header type => cases hhead
  | timestamp type => cases hhead
  | data range => exact ⟨range, rfl, List.append_cancel_right (List.cons.inj htail).2⟩
  | signal named name =>
    cases named with
    | true => cases htail
    | false => cases htail

theorem Target.text_ne {t : Target} {type : MappingTimestampType} {suffix : List Byte} :
    t.text ≠ ascii "ts." ++ (timestampText type ++ (ascii "." ++ suffix)) := by
  intro h
  have hsplit : t.head ++ t.tail =
      ascii "ts" ++ (ch '.' :: (timestampText type ++ (ascii "." ++ suffix))) :=
    t.text_eq.symm.trans h
  have hstop : ∀ b ∈ (ch '.' :: (timestampText type ++ (ascii "." ++ suffix))).head?,
      indexChar b = false := by
    rintro _ ⟨⟩
    decide
  obtain ⟨hhead, htail⟩ := append_unique t.head_chars (List.all_eq_true.mp rfl) t.tail_stop hstop hsplit
  cases t with
  | stats metric type => cases hhead
  | header type => cases hhead
  | timestamp type' =>
    cases type' with
    | origin =>
      cases type with
      | origin => cases htail
      | received => cases htail
    | received =>
      cases type with
      | origin => cases htail
      | received => cases htail
  | data range => cases hhead
  | signal named name =>
    cases named with
    | true => cases hhead
    | false => cases htail

/-! ## Expressions of the kinds -/

theorem lookupMetric_ok {str : List Byte} {metric : Metric} (h : lookupMetric str = .ok metric) :
    str = metric.name := by
  unfold lookupMetric at h
  split at h
  · rename_i hfind
    cases h
    have hname := List.find?_some hfind
    exact of_decide_eq_true hname
  · cases h

theorem lookupType_ok {str : List Byte} {type : StatsType} (h : lookupType str = .ok type) :
    str = type.name := by
  unfold lookupType at h
  split at h
  · rename_i hfind
    cases h
    have hname := List.find?_some hfind
    exact of_decide_eq_true hname
  · cases h

/-- What is printed behind the name of the node, where it is the same for every value. -/
def EntryType.text : EntryType → Option (List Byte)
  | .stats metric type => some (ascii "stats." ++ (metric.name ++ (ascii "." ++ type.name)))
  | .header type => some (ascii "hdr." ++ headerText type)
  | .timestamp _ | .data _ _ | .unknown => none

theorem Expr.text_of_type {e : Expr} {type : EntryType} {rest : List Byte} (h : e.type = .ok type)
    (hrest : type.text = some rest) : e.text = e.node.text ++ (ascii "." ++ rest) := by
  have hcases := Expr.type_cases h
  cases type with
  | stats metric type =>
    obtain ⟨node, m, t, rfl, hmetric, htype⟩ := hcases
    cases hrest
    rw [← lookupMetric_ok hmetric, ← lookupType_ok htype]
    rfl
  | header type =>
    obtain ⟨node, rfl⟩ := hcases
    cases hrest
    rfl
  | timestamp type => cases hrest
  | data first last => cases hrest
  | unknown => cases hrest

theorem Expr.type_ne_unknown (e : Expr) : e.type ≠ .ok .unknown := fun h => Expr.type_cases h

theorem sameKind_refl (type : EntryType) : SameKind type type := by
  cases type with
  | data first last => trivial
  | unknown => rfl
  | stats metric type => rfl
  | header type => rfl
  | timestamp type => rfl

theorem toStr_of_text {n : SourceNode} (hnode : me.node = some n) {rest : List Byte}
    (hrest : me.type.text = some rest) :
    mappingEntryToStr me index = some (n.name ++ (ascii "." ++ rest)) := by
  unfold mappingEntryToStr
  rw [hnode]
  dsimp only
  cases htype : me.type with
  | stats metric type =>
    rw [htype] at hrest
    cases hrest
    dsimp only
    rw [List.append_assoc]
  | header type =>
    rw [htype] at hrest
    cases hrest
    dsimp only
    rw [List.append_assoc]
  | timestamp type =>
    rw [htype] at hrest
    cases hrest
  | data first last =>
    rw [htype] at hrest
    cases hrest
  | unknown =>
    rw [htype] at hrest
    cases hrest

theorem toStr_timestamp {n : SourceNode} (hnode : me.node = some n) {type : MappingTimestampType}
    (htype : me.type = .timestamp type) (index : Nat) : ∃ suffix, mappingEntryToStr me index =
      some (n.name ++ (ascii "." ++ (ascii "ts." ++ (timestampText type ++ (ascii "." ++ suffix))))) := by
  refine ⟨if index = 0 then ascii "sec" else ascii "nsec", ?_⟩
  unfold mappingEntryToStr
  rw [hnode, htype]
  dsimp only
  rw [List.append_assoc]

theorem toStr_data {n : SourceNode} (hnode : me.node = some n) {first last : Option (List Byte)}
    (htype : me.type = .data first last) : mappingEntryToStr me index =
      some (n.name ++ (ascii "." ++ (ascii "data[" ++
        ((me.signals[index]?).getD (decimal index) ++ ascii "]")))) := by
  unfold mappingEntryToStr
  rw [hnode, htype]
  dsimp only
  cases me.signals[index]? with
  | none =>
    dsimp only
    rw [List.append_assoc]
    rfl
  | some name =>
    dsimp only
    rw [List.append_assoc]
    rfl

theorem Origin.roundTrips {e : Expr} {n : SourceNode} (hlookup : lookup.Lawful)
    (h : Origin nodes me e n) {rest : List Byte} (hrest : me.type.text = some rest) :
    RoundTrips lookup nodes fresh me index := by
  have hdata : ∀ first last, me.type ≠ .data first last := by
    intro first last htype
    rw [htype] at hrest
    cases hrest
  have hstr : mappingEntryToStr me index = some e.text := by
    rw [Expr.text_of_type h.type hrest, ← h.name]
    exact toStr_of_text h.node hrest
  have hof := Expr.extent_of h.type
  obtain ⟨me', hprepares⟩ : ∃ me', e.extent.Prepares n
      { fresh with nodeName := some e.node.text, node := none, type := me.type } me' := by
    cases hextent : e.extent with
    | fixed k => exact ⟨_, rfl⟩
    | all =>
      rw [hextent] at hof
      exact absurd hof (hdata _ _)
    | range first last =>
      rw [hextent] at hof
      obtain ⟨last', htype, -⟩ := hof
      exact absurd htype (hdata _ _)
  have hrecovers : Recovers me index me' := by
    refine ⟨?_, ?_, ?_⟩
    · rw [prepares_node hprepares, h.node]
    · rw [prepares_type hprepares]
      exact sameKind_refl _
    · rintro ⟨first, last, htype⟩
      exact absurd htype (hdata first last)
  obtain ⟨parsed, me', hparse, hprepare, hrecovers⟩ := (reads_iff hlookup).mpr
    ⟨e, me.type, n, me', rfl, h.type, h.found, hprepares, hrecovers⟩
  exact ⟨e.text, parsed, me', hstr, hparse, hprepare, hrecovers⟩

/-! ## Data -/

theorem refill_eq_one_iff {n : SourceNode} {x y : Int} (hle : x ≤ y) (hx : -2 ^ 31 ≤ x)
    (hy : y < 2 ^ 31) : refill n (toInt (y - x + 1).toNat) = 1 ↔
      y = x ∨ 2 ^ 31 ≤ y - x + 1 ∧ y - x + 1 < 2 ^ 32 ∧ toInt n.signals.length = 1 := by
  unfold refill
  obtain hfits | hbig := Int.lt_or_le (y - x + 1) (2 ^ 31)
  · rw [toInt_of_lt (by omega), if_neg (by omega)]
    omega
  obtain hneg | hwraps := Int.lt_or_le (y - x + 1) (2 ^ 32)
  · rw [if_pos (toInt_neg (by omega) (by omega))]
    omega
  · have hzero : toInt (y - x + 1).toNat = 0 := by
      rw [show (y - x + 1).toNat = 2 ^ 32 by omega]
      decide
    rw [hzero]
    omega

theorem roundTrips_data_iff {e : Expr} {n : SourceNode} (hlookup : lookup.Lawful)
    (h : Origin nodes me e n) (hdata : ∃ first last, me.type = .data first last) {name : List Byte}
    (hstr : mappingEntryToStr me index =
      some (n.name ++ (ascii "." ++ (ascii "data[" ++ (name ++ ascii "]"))))) :
    RoundTrips lookup nodes fresh me index ↔ ∃ r : SignalRange, r.text = name ∧
      Accepted n.signals r.first.text ∧ Accepted n.signals (r.last.getD r.first).text ∧
      intIndex n.signals r.first.text ≤ intIndex n.signals (r.last.getD r.first).text ∧
      intIndex n.signals r.first.text = me.dataOffset + index ∧
      refill n (toInt (intIndex n.signals (r.last.getD r.first).text -
        intIndex n.signals r.first.text + 1).toNat) = 1 := by
  rw [h.name] at hstr
  constructor
  · rintro ⟨str, parsed, me', hstr', hparse, hprepare, hrecovers⟩
    rw [hstr] at hstr'
    cases hstr'
    obtain ⟨e', type, n', me', htext, htype, hlook, hprepares, hnode, -, hvalue⟩ :=
      (reads_iff hlookup).mp ⟨parsed, me', hparse, hprepare, hrecovers⟩
    obtain ⟨t, rfl, ht⟩ := Expr.text_part htext.symm
    obtain ⟨r, rfl, hr⟩ := Target.text_data ht
    obtain rfl : n = n' := Option.some.inj (h.found.symm.trans hlook)
    obtain ⟨hfirst, hlast, hle, rfl⟩ := hprepares
    obtain ⟨hoffset, hlength⟩ := hvalue hdata
    exact ⟨r, hr, hfirst, hlast, hle, hoffset, hlength⟩
  · rintro ⟨r, rfl, hfirst, hlast, hle, hoffset, hlength⟩
    obtain ⟨f, l, htype⟩ := hdata
    have hkind : SameKind me.type r.type := by
      rw [htype]
      trivial
    obtain ⟨me', hprepares, hrecovers⟩ : ∃ me', (Extent.range r.first (r.last.getD r.first)).Prepares n
        { fresh with nodeName := some e.node.text, node := none, type := r.type } me' ∧
        Recovers me index me' :=
      ⟨_, ⟨hfirst, hlast, hle, rfl⟩, h.node.symm, hkind, fun _ => ⟨hoffset, hlength⟩⟩
    obtain ⟨parsed, me', hparse, hprepare, hrecovers⟩ := (reads_iff hlookup).mpr
      ⟨.part e.node (.data r), r.type, n, me', rfl, rfl, h.found, hprepares, hrecovers⟩
    exact ⟨_, parsed, me', hstr, hparse, hprepare, hrecovers⟩

theorem ranges_iff {n : SourceNode} {name : List Byte} {element : Int} :
    (∃ r : SignalRange, r.text = name ∧ Accepted n.signals r.first.text ∧
      Accepted n.signals (r.last.getD r.first).text ∧
      intIndex n.signals r.first.text ≤ intIndex n.signals (r.last.getD r.first).text ∧
      intIndex n.signals r.first.text = element ∧
      refill n (toInt (intIndex n.signals (r.last.getD r.first).text -
        intIndex n.signals r.first.text + 1).toNat) = 1) ↔
    (∃ w : Word indexChar, w.text = name ∧ Accepted n.signals name ∧ intIndex n.signals name = element) ∨
      RangeOfOne n.signals name element := by
  constructor
  · rintro ⟨⟨first, last⟩, rfl, hfirst, hlast, hle, rfl, hone⟩
    cases last with
    | none =>
      left
      have htext : (⟨first, none⟩ : SignalRange).text = first.text := List.append_nil _
      rw [htext]
      exact ⟨first, rfl, hfirst, rfl⟩
    | some last =>
      right
      refine ⟨first, last, rfl, hfirst, hlast, rfl, ?_⟩
      exact (refill_eq_one_iff hle (le_intIndex _ _) (intIndex_lt _ _)).mp hone
  · rintro (⟨w, rfl, haccepted, rfl⟩ | ⟨first, last, rfl, hfirst, hlast, rfl, hone⟩)
    · refine ⟨⟨w, none⟩, List.append_nil _, haccepted, haccepted, Int.le_refl _, rfl, ?_⟩
      exact (refill_eq_one_iff (Int.le_refl _) (le_intIndex _ _) (intIndex_lt _ _)).mpr (.inl rfl)
    · have hle : intIndex n.signals first.text ≤ intIndex n.signals last.text := by omega
      refine ⟨⟨first, some last⟩, rfl, hfirst, hlast, hle, rfl, ?_⟩
      exact (refill_eq_one_iff hle (le_intIndex _ _) (intIndex_lt _ _)).mpr hone

theorem decimal_chars (k : Nat) : ∀ b ∈ decimal k, isDigit b ∧ indexChar b := by
  intro b hb
  have hdigit := (numeral_decimal k).digits b hb
  refine ⟨hdigit, ?_⟩
  unfold indexChar
  rw [decide_eq_true_eq]
  exact .inr (.inl hdigit)

def decimalWord (k : Nat) : Word indexChar where
  text := decimal k
  chars b hb := (decimal_chars k b hb).2
  pos := List.length_pos_iff.mpr (numeral_decimal k).ne

theorem accepted_decimal {signals : List (List Byte)} (hnames : DistinctNames signals) {k : Nat}
    (hk : k < 2 ^ 31) : Accepted signals (decimal k) ∧ intIndex signals (decimal k) = k := by
  have hdigits : ∀ b ∈ decimal k, isDigit b := fun b hb => (decimal_chars k b hb).1
  have hmissing : ¬ Found signals (decimal k) := by
    rintro ⟨hmem, -⟩
    exact hnames.2 _ hmem (numeral_decimal k).ne hdigits
  refine ⟨.inr hdigits, ?_⟩
  unfold intIndex
  rw [if_neg hmissing, (numeral_decimal k).value, Nat.min_eq_left (by omega), toInt_of_lt hk]

theorem accepted_name {signals : List (List Byte)} (hnames : DistinctNames signals) {k : Nat}
    (hk : k < 2 ^ 31) {name : List Byte} (hget : signals[k]? = some name) :
    Accepted signals name ∧ intIndex signals name = k := by
  obtain ⟨hlt, rfl⟩ := List.getElem?_eq_some_iff.mp hget
  have hindex : signals.idxOf signals[k] = k := hnames.1.idxOf_getElem k hlt
  have hfound : Found signals signals[k] := by
    refine ⟨List.getElem_mem hlt, ?_⟩
    rw [hindex, toInt_of_lt hk]
    omega
  refine ⟨.inl hfound, ?_⟩
  unfold intIndex
  rw [if_pos hfound, hindex, toInt_of_lt hk]

theorem not_rangeOfOne_decimal {signals : List (List Byte)} {k : Nat} {element : Int} :
    ¬ RangeOfOne signals (decimal k) element := by
  rintro ⟨first, last, htext, -⟩
  have hmem : ch '-' ∈ decimal k := by
    rw [htext]
    apply List.mem_append_right
    apply List.mem_append_left
    exact List.mem_singleton_self _
  exact absurd (decimal_chars k _ hmem).1 (by decide)

end

/-! ## The round trip -/

/-- For every entry that was parsed and prepared and every value of it: what is printed is read as
this value exactly when it is printable. -/
theorem printed_iff {lookup : LookupIndex} (hlookup : lookup.Lawful) {nodes : List SourceNode}
    {fresh me : Entry} {index : Nat} (hme : FromText lookup nodes me)
    (hnames : DistinctNames me.signals) (hindex : index < me.length) :
    RoundTrips lookup nodes fresh me index ↔ Printable me index := by
  obtain ⟨e, n, h⟩ := hme.origin hlookup
  unfold Printable
  cases htype : me.type with
  | unknown =>
    have hunknown := h.type
    rw [htype] at hunknown
    exact absurd hunknown e.type_ne_unknown
  | stats metric type =>
    exact iff_of_true (h.roundTrips hlookup (congrArg EntryType.text htype)) trivial
  | header type =>
    exact iff_of_true (h.roundTrips hlookup (congrArg EntryType.text htype)) trivial
  | timestamp type =>
    refine iff_of_false ?_ id
    rintro ⟨str, parsed, me', hstr, hparse, -⟩
    obtain ⟨suffix, hts⟩ := toStr_timestamp h.node htype index
    obtain ⟨e', type', rfl, -⟩ := parseStr_ok hparse
    rw [hts, h.name] at hstr
    obtain ⟨t, rfl, ht⟩ := Expr.text_part (Option.some.inj hstr).symm
    exact Target.text_ne ht
  | data first last =>
    have hdata : ∃ first last, me.type = .data first last := ⟨first, last, htype⟩
    have hsmall : index < 2 ^ 31 := by
      have := h.length hdata
      omega
    have hsignals : me.signals = n.signals := by
      unfold Entry.signals
      rw [h.node]
      rfl
    rw [roundTrips_data_iff hlookup h hdata (toStr_data h.node htype), ranges_iff]
    rw [hsignals] at hnames ⊢
    cases hget : n.signals[index]? with
    | none =>
      obtain ⟨haccepted, hvalue⟩ := accepted_decimal hnames hsmall
      dsimp only [Option.getD_none]
      rw [or_iff_left not_rangeOfOne_decimal, hvalue]
      constructor
      · rintro ⟨-, -, -, hoffset⟩
        omega
      · intro hoffset
        exact ⟨decimalWord index, rfl, haccepted, by omega⟩
    | some name =>
      obtain ⟨haccepted, hvalue⟩ := accepted_name hnames hsmall hget
      dsimp only [Option.getD_some]
      rw [hvalue]
      refine or_congr_left ?_
      constructor
      · rintro ⟨w, rfl, -, hoffset⟩
        exact ⟨⟨List.length_pos_iff.mp w.pos, w.chars⟩, by omega⟩
      · rintro ⟨⟨hne, hchars⟩, hoffset⟩
        exact ⟨⟨name, hchars, List.length_pos_iff.mpr hne⟩, rfl, haccepted, by omega⟩

/-! ## Two signals -/

def twoSignals : SourceNode := ⟨ascii "na", [ascii "a", ascii "b"]⟩

theorem twoSignals_distinct : DistinctNames twoSignals.signals := ⟨by decide, by decide⟩

/-- `na.data[a-1]` -/
def bothSignals : Entry :=
  ⟨some (ascii "na"), some twoSignals, .data (some (ascii "a")) (some (ascii "1")), 2, 0, 0⟩

theorem printed_second :
    RoundTrips firstIndex [twoSignals] leftover bothSignals 1 ↔ Printable bothSignals 1 := by
  have hparse : mappingEntryParseStr (mappingEntryInit leftover) (ascii "na.data[a-1]") =
      .ok ⟨some (ascii "na"), none, .data (some (ascii "a")) (some (ascii "1")), 7, 0, 0⟩ := by
    decide
  apply printed_iff firstIndex_lawful
  · exact ⟨leftover, _, _, hparse, by decide⟩
  · exact twoSignals_distinct
  · decide

/-- `na.data[b]` -/
def secondSignal : Entry :=
  ⟨some (ascii "na"), some twoSignals, .data (some (ascii "b")) none, 1, 0, 1⟩

/-- The second signal is printed under the name of the first one. -/
theorem printed_as_first :
    FromText firstIndex [twoSignals] secondSignal ∧ DistinctNames secondSignal.signals ∧
      0 < secondSignal.length ∧ mappingEntryToStr secondSignal 0 = some (ascii "na.data[a]") ∧
      ¬ RoundTrips firstIndex [twoSignals] leftover secondSignal 0 := by
  have hparse : mappingEntryParseStr (mappingEntryInit leftover) (ascii "na.data[b]") =
      .ok ⟨some (ascii "na"), none, .data (some (ascii "b")) none, 7, 0, 0⟩ := by
    decide
  have hfirst : mappingEntryParseStr (mappingEntryInit leftover) (ascii "na.data[a]") =
      .ok ⟨some (ascii "na"), none, .data (some (ascii "a")) none, 7, 0, 0⟩ := by
    decide
  have hprepared : mappingEntryPrepare firstIndex [twoSignals]
      ⟨some (ascii "na"), none, .data (some (ascii "a")) none, 7, 0, 0⟩ =
      .ok ⟨some (ascii "na"), some twoSignals, .data (some (ascii "a")) none, 1, 0, 0⟩ := by
    decide
  have hstr : mappingEntryToStr secondSignal 0 = some (ascii "na.data[a]") := by decide
  refine ⟨⟨leftover, _, _, hparse, by decide⟩, twoSignals_distinct, by decide, hstr, ?_⟩
  rintro ⟨str, parsed, me', hstr', hparse', hprepare, -, -, hdata⟩
  rw [hstr] at hstr'
  cases hstr'
  rw [hfirst] at hparse'
  cases hparse'
  rw [hprepared] at hprepare
  cases hprepare
  exact absurd (hdata ⟨_, _, rfl⟩).1 (by decide)

end VillasNode.MappingExpr
