import Mathlib.Data.BitVec
import VillasNode.Lib.MachineInt
import VillasNode.Mapping.Syntax

/-!
# Mapping entries

Parsing, preparing and printing of mapping entries in `lib/mapping.cpp`. A new
entry is in memory that nobody has cleared, and `mapping_entry_init` sets three
of its fields.
-/

namespace VillasNode.MappingExpr

open ByteOrder Strto Line Regex MachineInt MappingRegex

/-! ## The data -/

/-- `Stats::Metric` -/
inductive Metric where
  | smpsSkipped
  | smpsReordered
  | gapSample
  | gapReceived
  | owd
  | age
  | rtpLossFraction
  | rtpPktsLost
  | rtpJitter
deriving DecidableEq

/-- `Stats::Type` -/
inductive StatsType where
  | last
  | highest
  | lowest
  | mean
  | var
  | stddev
  | total
deriving DecidableEq

def Metric.all : List Metric :=
  [.smpsSkipped, .smpsReordered, .gapSample, .gapReceived, .owd, .age, .rtpLossFraction,
    .rtpPktsLost, .rtpJitter]

def StatsType.all : List StatsType := [.last, .highest, .lowest, .mean, .var, .stddev, .total]

/-- `Stats::metrics` -/
def Metric.name : Metric → List Byte
  | .smpsSkipped => ascii "skipped"
  | .smpsReordered => ascii "reordered"
  | .gapSample => ascii "gap_sent"
  | .gapReceived => ascii "gap_received"
  | .owd => ascii "owd"
  | .age => ascii "age"
  | .rtpLossFraction => ascii "rtp.loss_fraction"
  | .rtpPktsLost => ascii "rtp.pkts_lost"
  | .rtpJitter => ascii "rtp.jitter"

/-- `Stats::types` -/
def StatsType.name : StatsType → List Byte
  | .last => ascii "last"
  | .highest => ascii "highest"
  | .lowest => ascii "lowest"
  | .mean => ascii "mean"
  | .var => ascii "var"
  | .stddev => ascii "stddev"
  | .total => ascii "total"

/-- A node with the names of its input signals. -/
structure SourceNode where
  name : List Byte
  signals : List (List Byte)
deriving DecidableEq

/-- `enum class MappingType` with the fields of the union that it selects, without `data.offset`. -/
inductive EntryType where
  | unknown
  | data (first last : Option (List Byte))
  | stats (metric : Metric) (type : StatsType)
  | header (type : MappingHeaderType)
  | timestamp (type : MappingTimestampType)
deriving DecidableEq

/-- `struct mapping_entry` -/
structure Entry where
  nodeName : Option (List Byte)
  node : Option SourceNode
  type : EntryType
  length : Int
  offset : Nat
  dataOffset : Int
deriving DecidableEq

inductive MappingError where
  /-- `RuntimeError` -/
  | runtime (what : List Byte)
  /-- `std::invalid_argument` -/
  | argument (what : List Byte)
  | ret (code : Int)
deriving DecidableEq

/-- The value of `mapping` or of its entries. `none` is no string. -/
inductive MappingJson where
  | string (str : List Byte)
  | array (entries : List (Option (List Byte)))
  | other

/-! ## Parsing -/

/-- `Stats::lookupMetric` -/
def lookupMetric (str : List Byte) : Except MappingError Metric :=
  match Metric.all.find? fun m => str = m.name with
  | some m => .ok m
  | none => .error (.argument (ascii "Invalid stats metric"))

/-- `Stats::lookupType` -/
def lookupType (str : List Byte) : Except MappingError StatsType :=
  match StatsType.all.find? fun t => str = t.name with
  | some t => .ok t
  | none => .error (.argument (ascii "Invalid stats type"))

def invalidFormat (str : List Byte) : MappingError :=
  .runtime (ascii "Failed to parse mapping expression: " ++ str)

/-- `mapping_entry_init` -/
def mappingEntryInit (me : Entry) : Entry :=
  { me with type := .unknown, node := none, nodeName := none }

def parseName (mr : Captures Byte) (me : Entry) : Entry :=
  let me := if (mr 1).isSome then { me with nodeName := mr 1 } else me
  if (mr 9).isSome then { me with nodeName := mr 9 } else me

/-- The union, from the groups of the match. -/
def parseType (mr : Captures Byte) (str : List Byte) (me : Entry) : Except MappingError EntryType :=
  if (mr 6).isSome then .ok (.data (mr 6) (mr 7))
  else if (mr 10).isSome then .ok (.data (mr 10) (mr 11))
  else if (mr 8).isSome then .ok (.data (mr 8) none)
  else if (mr 2).isSome then do
    let type ← lookupType ((mr 3).getD [])
    let metric ← lookupMetric ((mr 2).getD [])
    .ok (.stats metric type)
  else if (mr 5).isSome then
    if mr 5 = some (ascii "origin") then .ok (.timestamp .origin)
    else if mr 5 = some (ascii "received") then .ok (.timestamp .received)
    else .error (invalidFormat str)
  else if (mr 4).isSome then
    if mr 4 = some (ascii "sequence") then .ok (.header .sequence)
    else if mr 4 = some (ascii "length") then .ok (.header .length)
    else .error (invalidFormat str)
  else if me.nodeName.isSome then .ok (.data none none)
  else .ok me.type

/-- `mapping_entry_parse_str` -/
def mappingEntryParseStr (me : Entry) (str : List Byte) : Except MappingError Entry :=
  match mapping.regexMatch str with
  | none => .error (invalidFormat str)
  | some mr =>
    let me := parseName mr me
    (parseType mr str me).map fun type => { me with type }

/-- The loop of `mapping_list_parse`, with the memory of the new entries from number `i` on. -/
def parseEntries (fresh : Nat → Entry) : Nat → List (Option (List Byte)) → Except MappingError (List Entry)
  | _, [] => .ok []
  | _, none :: _ => .error (.ret (-1))
  | i, some str :: entries => do
    let me ← mappingEntryParseStr (mappingEntryInit (fresh i)) str
    let ml ← parseEntries fresh (i + 1) entries
    .ok (me :: ml)

/-- `mapping_list_parse` -/
def mappingListParse (fresh : Nat → Entry) : MappingJson → Except MappingError (List Entry)
  | .string str => parseEntries fresh 0 [some str]
  | .array entries => parseEntries fresh 0 entries
  | .other => .error (.ret (-1))

/-! ## Preparing -/

/-- `vlist_lookup_index`, with its result as an `int`. -/
abbrev LookupIndex := List (List Byte) → List Byte → Int

/-- The index of the first element with the name, or -1. -/
def LookupIndex.Lawful (lookup : LookupIndex) : Prop :=
  ∀ names name, lookup names name = if name ∈ names then toInt (names.idxOf name) else -1

/-- `NodeList::lookup` -/
def lookupNode (nodes : List SourceNode) (name : List Byte) : Option SourceNode :=
  nodes.find? fun n => name = n.name

/-- `node_input_signals(me->node)` -/
def Entry.signals (me : Entry) : List (List Byte) := (me.node.map SourceNode.signals).getD []

variable (lookup : LookupIndex)

/-- `first` and `last` of `mapping_entry_prepare`: the index of a signal or a number. -/
def dataIndex (node : Option SourceNode) (str : List Byte) : Except MappingError Int :=
  let index : Int := match node with
    | some n => lookup n.signals str
    | none => -1
  if index < 0 then
    let (value, endptr) := strtoul ⟨0, str ++ [0]⟩
    if endptr.pos ≠ str.length then
      .error (.runtime (ascii "Failed to parse data index in mapping: " ++ str))
    else .ok (toInt value.toNat)
  else .ok index

def prepareNode (nodes : List SourceNode) (me : Entry) : Except MappingError Entry :=
  match me.nodeName, me.node with
  | some name, none =>
    match lookupNode nodes name with
    | some n => .ok { me with node := some n }
    | none => .error (.runtime (ascii "Invalid node name in mapping: " ++ name))
  | _, _ => .ok me

/-- `last`, which is `first` where none is given. -/
def lastIndex (node : Option SourceNode) (first : Int) : Option (List Byte) → Except MappingError Int
  | some str => dataIndex lookup node str
  | none => .ok first

/-- The branch for `MappingType::DATA`. -/
def prepareData (me : Entry) : Option (List Byte) → Option (List Byte) → Except MappingError Entry
  | none, _ => .ok { me with dataOffset := 0, length := -1 }
  | some str, last => do
    let first ← dataIndex lookup me.node str
    let last ← lastIndex lookup me.node first last
    if last < first then
      .error (.runtime (ascii "Invalid data range indices for mapping: " ++
        (decimalPadded 0 last ++ (ascii " < " ++ decimalPadded 0 first))))
    else .ok { me with dataOffset := first, length := toInt (last - first + 1).toNat }

/-- The code behind the label `end`. -/
def prepareLength (me : Entry) : Entry :=
  if me.length < 0 then { me with length := toInt me.signals.length } else me

def prepareType (me : Entry) : Except MappingError Entry :=
  match me.type with
  | .data first last => prepareData lookup me first last
  | _ => .ok me

/-- `mapping_entry_prepare` -/
def mappingEntryPrepare (nodes : List SourceNode) (me : Entry) : Except MappingError Entry := do
  let me ← prepareNode nodes me
  let me ← prepareType lookup me
  .ok (prepareLength me)

/-- The loop of `mapping_list_prepare`, with `off`. -/
def prepareEntries (nodes : List SourceNode) : Nat → List Entry → Except MappingError (List Entry)
  | _, [] => .ok []
  | off, me :: ml => do
    let me ← mappingEntryPrepare lookup nodes me
    let ml ← prepareEntries nodes ((off + me.length) % 2 ^ 64).toNat ml
    .ok ({ me with offset := u32 off } :: ml)

/-- `mapping_list_prepare` -/
def mappingListPrepare (nodes : List SourceNode) (ml : List Entry) : Except MappingError (List Entry) :=
  prepareEntries lookup nodes 0 ml

/-! ## Printing -/

/-- `mapping_entry_to_str`. `none` stands for `-1`. -/
def mappingEntryToStr (me : Entry) (index : Nat) : Option (List Byte) :=
  let node := match me.node with
    | some n => n.name ++ ascii "."
    | none => []
  match me.type with
  | .stats metric type =>
    some (node ++ (ascii "stats." ++ (metric.name ++ (ascii "." ++ type.name))))
  | .header type => some (node ++ (ascii "hdr." ++ headerText type))
  | .timestamp type =>
    some (node ++ (ascii "ts." ++ (timestampText type ++
      (ascii "." ++ if index = 0 then ascii "sec" else ascii "nsec"))))
  | .data _ _ =>
    match me.signals[index]? with
    | some name => some (node ++ (ascii "data[" ++ (name ++ ascii "]")))
    | none => some (node ++ (ascii "data[" ++ (decimal index ++ ascii "]")))
  | .unknown => none

end VillasNode.MappingExpr
