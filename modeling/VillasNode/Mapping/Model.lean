import VillasNode.Sample.Model

/-!
# Mappings

`mapping_update` and `mapping_list_remap` of `lib/mapping.cpp`: the entries of
a source copy values of its samples, or facts about them, into the slots of a
muxed sample. All index arithmetic is on `unsigned`.
-/

namespace VillasNode

inductive MappingHeaderType where
  | length
  | sequence
deriving DecidableEq

inductive MappingTimestampType where
  | origin
  | received
deriving DecidableEq

/-- `enum class MappingType` with the field of the union that it selects. -/
inductive MappingType where
  | unknown
  | data (offset : Nat)
  | stats (metric type : Nat)
  | header (type : MappingHeaderType)
  | timestamp (type : MappingTimestampType)
deriving DecidableEq

structure MappingEntry where
  node : Nat
  type : MappingType
  /-- Not negative after `mapping_entry_prepare`, which sets it for `data` only. -/
  length : Nat
  offset : Nat
deriving DecidableEq

def u32 (n : Nat) : Nat := n % 2 ^ 32

def u32Sub (n m : Nat) : Nat := u32 (n + (2 ^ 32 - u32 m))

/-- The loop of the `DATA` case: slots `i`, `i + 1` up to `n` of them, from index `j` on. -/
def copyData (remapped original : Payload) (i j : Nat) : Nat → Payload
  | 0 => remapped
  | n + 1 => copyData (remapped.setData i (original.data j)) original (i + 1) (j + 1) n

/-- The `switch` of `mapping_update`, with the `len` it leaves. -/
def mappingWrite (stats : Nat → Nat → Value) (me : MappingEntry) (remapped original : Payload) :
    Option (Payload × Nat) :=
  match me.type with
  | .stats metric type => some (remapped.setData me.offset (stats metric type), me.length)
  | .timestamp type =>
    let ts := match type with
      | .received => original.received
      | .origin => original.origin
    some ((remapped.setData me.offset ts.sec).setData (me.offset + 1) ts.nsec, me.length)
  | .header .length => some (remapped.setData me.offset (BitVec.ofNat 64 original.length), me.length)
  | .header .sequence => some (remapped.setData me.offset original.sequence, me.length)
  | .data offset =>
    let n := min original.length (u32 (offset + me.length)) - offset
    some (copyData remapped original me.offset offset n, min me.length (u32Sub original.length offset))
  | .unknown => none

/-- `mapping_update`. `none` stands for `-1`. -/
def mappingUpdate (stats : Nat → Nat → Value) (me : MappingEntry) (capacity : Nat)
    (remapped original : Payload) : Option Payload :=
  if capacity < u32 (me.offset + me.length) then none
  else
    match mappingWrite stats me remapped original with
    | none => none
    | some (remapped, len) =>
      if remapped.length < u32 (me.offset + len) then
        some { remapped with length := u32 (me.offset + len) }
      else some remapped

/-- `mapping_list_remap`. The sample is handed back also when an entry fails. -/
def mappingListRemap (stats : Nat → Nat → Value) (capacity : Nat) (original : Payload) :
    List MappingEntry → Payload → Payload × Bool
  | [], remapped => (remapped, true)
  | me :: ml, remapped =>
    match mappingUpdate stats me capacity remapped original with
    | none => (remapped, false)
    | some remapped => mappingListRemap stats capacity original ml remapped

end VillasNode
