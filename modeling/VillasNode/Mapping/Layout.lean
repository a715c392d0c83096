import VillasNode.Mapping.Prepared

/-!
# The layout of a mapping

The ranges of slots that `mapping_list_prepare` gives to the entries of a list.
Only data entries get a length from it. The lengths of the others are what was
in the memory of the entry before.
-/

namespace VillasNode.MappingExpr

open ByteOrder Strto Line MachineInt MappingRegex Fallible

/-! ## The specification -/

/-- The index of the signal with this name, or else the number. -/
def signalIndex (signals : List (List Byte)) (str : List Byte) : Nat :=
  if signals.contains str then signals.idxOf str else number str

def Extent.size (signals : List (List Byte)) : Extent → Int
  | .fixed n => n
  | .all => signals.length
  | .range first last => signalIndex signals last.text - signalIndex signals first.text + 1

/-- The signals of the node that an expression names. -/
def Expr.signalsOf (nodes : List SourceNode) (e : Expr) : List (List Byte) :=
  ((lookupNode nodes e.node.text).map SourceNode.signals).getD []

def Expr.size (nodes : List SourceNode) (e : Expr) : Int := e.extent.size (e.signalsOf nodes)

/-- The entries have the lengths of their expressions and follow one another from `off` on. -/
def Layout (nodes : List SourceNode) : Int → List Expr → List Entry → Prop
  | _, [], [] => True
  | off, e :: exprs, me :: ml =>
    me.length = e.size nodes ∧ 0 ≤ me.length ∧ me.offset = off ∧
      ((∃ first last, me.type = .data first last) → 0 ≤ me.dataOffset) ∧
      Layout nodes (off + me.length) exprs ml
  | _, _, _ => False

/-! ## When it is met -/

/-- A range of at most 2^31 - 1 values that is as long as the numbers are apart, from an index on that
is not negative. A length that is not an `int` is replaced by the number of signals. -/
def RegularRange (signals : List (List Byte)) (first last : List Byte) : Prop :=
  let length := intIndex signals last - intIndex signals first + 1
  let size : Int := signalIndex signals last - signalIndex signals first + 1
  0 ≤ intIndex signals first ∧ (length < 2 ^ 31 ∧ length = size ∨
    2 ^ 31 ≤ length ∧ 0 ≤ size ∧ toInt signals.length = size)

/-- A length is right by itself, or it is negative and the number of signals is right instead. -/
def Extent.Regular (signals : List (List Byte)) (fresh : Int) : Extent → Prop
  | .fixed k => fresh = k ∨ fresh < 0 ∧ toInt signals.length = k
  | .all => signals.length < 2 ^ 31
  | .range first last => RegularRange signals first.text last.text

/-- Every entry is regular, and every offset is an `unsigned`. -/
def Regular (nodes : List SourceNode) (fresh : Nat → Entry) : Nat → Int → List Expr → Prop
  | _, _, [] => True
  | i, off, e :: exprs =>
    e.extent.Regular (e.signalsOf nodes) (fresh i).length ∧ off < 2 ^ 32 ∧
      Regular nodes fresh (i + 1) (off + e.size nodes) exprs

def MappingJson.entries : MappingJson → List (Option (List Byte))
  | .string str => [some str]
  | .array entries => entries
  | .other => []

/-! ## One entry -/

section
variable {n : SourceNode} {me me' : Entry}

theorem regularRange_iff {first last : List Byte}
    (hle : intIndex n.signals first ≤ intIndex n.signals last) :
    let length := refill n (toInt (intIndex n.signals last - intIndex n.signals first + 1).toNat)
    (length = (signalIndex n.signals last : Int) - signalIndex n.signals first + 1 ∧ 0 ≤ length ∧
      0 ≤ intIndex n.signals first) ↔ RegularRange n.signals first last := by
  intro length
  have hlt := intIndex_lt n.signals last
  unfold RegularRange
  dsimp only
  by_cases hneg : intIndex n.signals first < 0
  · omega
  obtain hfits | hbig := Int.lt_or_le (intIndex n.signals last - intIndex n.signals first + 1) (2 ^ 31)
  · have hlength : length = intIndex n.signals last - intIndex n.signals first + 1 := by
      change refill n _ = _
      rw [toInt_of_lt (by omega)]
      unfold refill
      rw [if_neg (by omega)]
      omega
    omega
  · have hlength : length = toInt n.signals.length := by
      change refill n _ = _
      unfold refill
      rw [if_pos (toInt_neg (by omega) (by omega))]
    omega

theorem prepares_iff {e : Extent} (he : e.Of me.type) (h : e.Prepares n me me') :
    (me'.length = e.size n.signals ∧ 0 ≤ me'.length ∧
      ((∃ first last, me'.type = .data first last) → 0 ≤ me'.dataOffset)) ↔
      e.Regular n.signals me.length := by
  cases e with
  | fixed k =>
    obtain rfl := h
    have hdata : (∃ first last, me.type = .data first last) → 0 ≤ me.dataOffset := by
      rintro ⟨first, last, hdata⟩
      exact absurd hdata (he first last)
    rw [and_iff_left hdata]
    unfold refill Extent.size Extent.Regular
    dsimp only
    split
    · omega
    · omega
  | all =>
    obtain rfl := h
    have hlength : refill n (-1) = toInt n.signals.length := if_pos (by decide)
    rw [and_iff_left fun _ => Int.le_refl 0]
    unfold Extent.size Extent.Regular
    dsimp only
    rw [hlength, ← toInt_eq_iff]
    omega
  | range first last =>
    obtain ⟨-, -, hle, rfl⟩ := h
    obtain ⟨last', htype, -⟩ := he
    refine Iff.trans ?_ (regularRange_iff hle)
    have hdata : ∃ first last, me.type = .data first last := ⟨_, _, htype⟩
    rw [forall_prop_of_true hdata]
    rfl

end

/-! ## All entries -/

/-- The entries behind `mapping_list_parse`. -/
def Parsed (fresh : Nat → Entry) : Nat → List Expr → List Entry → Prop
  | _, [], [] => True
  | i, e :: exprs, me :: ml =>
    (∃ type, e.type = .ok type ∧
      me = { fresh i with nodeName := some e.node.text, node := none, type }) ∧
      Parsed fresh (i + 1) exprs ml
  | _, _, _ => False

theorem parseEntries_parsed {fresh : Nat → Entry} {i : Nat} {entries : List (Option (List Byte))}
    {ml : List Entry} (h : parseEntries fresh i entries = .ok ml) :
    ∃ exprs : List Expr, entries = exprs.map (fun e => some e.text) ∧ Parsed fresh i exprs ml := by
  induction entries generalizing i ml with
  | nil =>
    cases h
    exact ⟨[], rfl, trivial⟩
  | cons entry entries ih =>
    cases entry with
    | none => cases h
    | some str =>
      obtain ⟨me, hme, h⟩ := bind_eq_ok.mp h
      obtain ⟨ml', hml, h⟩ := bind_eq_ok.mp h
      cases h
      obtain ⟨e, type, rfl, htype, rfl⟩ := parseStr_ok hme
      obtain ⟨exprs, rfl, hparsed⟩ := ih hml
      exact ⟨e :: exprs, rfl, ⟨type, htype, rfl⟩, hparsed⟩

theorem prepareEntries_layout {lookup : LookupIndex} (hlookup : lookup.Lawful)
    {nodes : List SourceNode} {fresh : Nat → Entry} {i : Nat} {off : Int} {exprs : List Expr}
    {parsed ml : List Entry} (hparsed : Parsed fresh i exprs parsed) (hoff : 0 ≤ off)
    (h : prepareEntries lookup nodes (off % 2 ^ 64).toNat parsed = .ok ml) :
    Layout nodes off exprs ml ↔ Regular nodes fresh i off exprs := by
  induction exprs generalizing i off parsed ml with
  | nil =>
    cases parsed with
    | nil =>
      cases h
      exact Iff.rfl
    | cons me parsed => cases hparsed
  | cons e exprs ih =>
    cases parsed with
    | nil => cases hparsed
    | cons me parsed =>
      obtain ⟨⟨type, htype, rfl⟩, hparsed⟩ := hparsed
      obtain ⟨me', hme', h⟩ := bind_eq_ok.mp h
      obtain ⟨ml', hml', h⟩ := bind_eq_ok.mp h
      cases h
      obtain ⟨n, hlook, hprepares⟩ := (prepare_ok_iff hlookup htype rfl rfl).mp hme'
      have hentry := prepares_iff (Expr.extent_of htype) hprepares
      have hsignals : e.signalsOf nodes = n.signals := by
        unfold Expr.signalsOf
        rw [hlook]
        rfl
      have hoffset : (u32 (off % 2 ^ 64).toNat : Int) = off ↔ off < 2 ^ 32 := by
        unfold u32
        omega
      have hnext : (((off % 2 ^ 64).toNat + me'.length) % 2 ^ 64).toNat =
          ((off + me'.length) % 2 ^ 64).toNat := by omega
      rw [hnext] at hml'
      rw [← hsignals] at hentry
      unfold Layout Regular
      dsimp only
      rw [hoffset, ← hentry]
      constructor
      · rintro ⟨hsize, hnonneg, hlt, hdata, hrest⟩
        refine ⟨⟨hsize, hnonneg, hdata⟩, hlt, ?_⟩
        rw [← hsize]
        exact (ih hparsed (by omega) hml').mp hrest
      · rintro ⟨⟨hsize, hnonneg, hdata⟩, hlt, hrest⟩
        refine ⟨hsize, hnonneg, hlt, hdata, (ih hparsed (by omega) hml').mpr ?_⟩
        rw [hsize]
        exact hrest

theorem listParse_parsed {fresh : Nat → Entry} {json : MappingJson} {parsed : List Entry}
    (h : mappingListParse fresh json = .ok parsed) :
    ∃ exprs : List Expr, json.entries = exprs.map (fun e => some e.text) ∧ Parsed fresh 0 exprs parsed := by
  cases json with
  | string str => exact parseEntries_parsed h
  | array entries => exact parseEntries_parsed h
  | other => cases h

/-! ## The list -/

/-- For every accepted list of expressions, whatever was in the memory of the entries: the entries lie
one behind the other with their lengths exactly when all are regular. -/
theorem layout_iff {lookup : LookupIndex} (hlookup : lookup.Lawful) {nodes : List SourceNode}
    {fresh : Nat → Entry} {json : MappingJson} {parsed ml : List Entry}
    (hparse : mappingListParse fresh json = .ok parsed)
    (hprepare : mappingListPrepare lookup nodes parsed = .ok ml) :
    ∃ exprs : List Expr, json.entries = exprs.map (fun e => some e.text) ∧
      (Layout nodes 0 exprs ml ↔ Regular nodes fresh 0 0 exprs) := by
  obtain ⟨exprs, hentries, hparsed⟩ := listParse_parsed hparse
  exact ⟨exprs, hentries, prepareEntries_layout hlookup hparsed (Int.le_refl 0) hprepare⟩

theorem layout_two_signals :
    ∃ exprs : List Expr,
      (MappingJson.string (ascii "na.data[a-1]")).entries = exprs.map (fun e => some e.text) ∧
        (Layout [⟨ascii "na", [ascii "a", ascii "b"]⟩] 0 exprs
          [⟨some (ascii "na"), some ⟨ascii "na", [ascii "a", ascii "b"]⟩,
            .data (some (ascii "a")) (some (ascii "1")), 2, 0, 0⟩] ↔
        Regular [⟨ascii "na", [ascii "a", ascii "b"]⟩] (fun _ => leftover) 0 0 exprs) := by
  have hparse : mappingListParse (fun _ => leftover) (.string (ascii "na.data[a-1]")) =
      .ok [⟨some (ascii "na"), none, .data (some (ascii "a")) (some (ascii "1")), 7, 0, 0⟩] := by
    decide
  apply layout_iff firstIndex_lawful hparse
  decide

def meanOwd : Expr :=
  .part ⟨ascii "na", List.all_eq_true.mp rfl, by decide, by decide⟩
    (.stats ⟨ascii "owd", List.all_eq_true.mp rfl, by decide⟩ ⟨ascii "mean", List.all_eq_true.mp rfl, by decide⟩)

/-- The length of an entry for statistics is what was in its memory before. -/
theorem length_left_over :
    mappingListParse (fun _ => leftover) (.string (ascii "na.stats.owd.mean")) =
        .ok [⟨some (ascii "na"), none, .stats .owd .mean, 7, 0, 0⟩] ∧
      mappingListPrepare firstIndex [⟨ascii "na", []⟩]
          [⟨some (ascii "na"), none, .stats .owd .mean, 7, 0, 0⟩] =
        .ok [⟨some (ascii "na"), some ⟨ascii "na", []⟩, .stats .owd .mean, 7, 0, 0⟩] ∧
      ∀ exprs : List Expr,
        [some (ascii "na.stats.owd.mean")] = exprs.map (fun e => some e.text) →
        ¬ Layout [⟨ascii "na", []⟩] 0 exprs
          [⟨some (ascii "na"), some ⟨ascii "na", []⟩, .stats .owd .mean, 7, 0, 0⟩] := by
  refine ⟨by decide, by decide, fun exprs hexprs hlayout => ?_⟩
  match exprs with
  | [] => cases hexprs
  | e :: exprs =>
    have htext : meanOwd.text = e.text := Option.some.inj (List.cons.inj hexprs).1
    obtain rfl := Expr.text_injective htext
    exact absurd hlayout.1 (by decide)

end VillasNode.MappingExpr
