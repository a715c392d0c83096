import Mathlib.Data.List.Basic

/-!
# Trees of JSON values

The functions of jansson that build a tree and read it again, as an interface
with the laws that its documentation states. Numbers are bit patterns. Trees of
an inductive type are lawful.
-/

namespace Jansson

inductive JsonType where
  | object
  | array
  | string
  | integer
  | real
  | true
  | false
  | null
deriving DecidableEq

/-- A `double` with another exponent than that of infinities and NaNs. -/
def finite (v : BitVec 64) : Bool := v.extractLsb' 52 11 ≠ 2047#11

structure Api (J : Type) where
  object : J
  array : J
  integer : BitVec 64 → J
  /-- `NULL` for a number that is not finite. -/
  real : BitVec 64 → Option J
  boolean : Bool → J
  objectSet : J → String → J → J
  arrayAppend : J → J → J
  typeof : J → JsonType
  objectGet : J → String → Option J
  elements : J → List J
  integerValue : J → BitVec 64
  realValue : J → BitVec 64

/-- What is built is what is read. -/
structure Api.Lawful {J : Type} (api : Api J) : Prop where
  typeof_object : api.typeof api.object = .object
  typeof_array : api.typeof api.array = .array
  typeof_integer : ∀ v, api.typeof (api.integer v) = .integer
  typeof_boolean : ∀ b, api.typeof (api.boolean b) = if b then .true else .false
  typeof_objectSet : ∀ j k v, api.typeof (api.objectSet j k v) = api.typeof j
  typeof_arrayAppend : ∀ j v, api.typeof (api.arrayAppend j v) = api.typeof j
  integerValue : ∀ v, api.integerValue (api.integer v) = v
  real : ∀ v, finite v → ∃ j, api.real v = some j ∧ api.typeof j = .real ∧ api.realValue j = v
  objectGet_object : ∀ k, api.objectGet api.object k = none
  objectGet_set : ∀ j k v k', api.typeof j = .object →
    api.objectGet (api.objectSet j k v) k' = if k' = k then some v else api.objectGet j k'
  elements_array : api.elements api.array = []
  elements_append : ∀ j v, api.typeof j = .array → api.elements (api.arrayAppend j v) = api.elements j ++ [v]

/-- There is no JSON for other numbers. -/
def Api.Strict {J : Type} (api : Api J) : Prop := ∀ v, ¬ finite v → api.real v = none

namespace Api

variable {J : Type} (api : Api J)

/-! ## Packing and unpacking -/

/-- `json_object_set_new`, which does nothing for `NULL`. -/
def objectSetNew (json : J) (key : String) (value : Option J) : J :=
  match value with
  | none => json
  | some value => api.objectSet json key value

/-- `json_array_append_new`, which does nothing for `NULL`. -/
def arrayAppendNew (json : J) (value : Option J) : J :=
  match value with
  | none => json
  | some value => api.arrayAppend json value

/-- The array of these elements. -/
def arrayOf (values : List J) : J := values.foldl api.arrayAppend api.array

/-- `json_pack("[ I, I ]", a, b)` -/
def packIntegers (a b : BitVec 64) : J :=
  api.arrayAppend (api.arrayAppend api.array (api.integer a)) (api.integer b)

/-- `json_pack("{ s: f, s: f }", k, a, l, b)` -/
def packReals (k : String) (a : BitVec 64) (l : String) (b : BitVec 64) : Option J :=
  (api.real a).bind fun x => (api.real b).map fun y => api.objectSet (api.objectSet api.object k x) l y

/-- `I` of `json_unpack`. -/
def unpackInteger (json : J) : Option (BitVec 64) :=
  if api.typeof json = .integer then some (api.integerValue json) else none

/-- `F` of `json_unpack`, where `ofInteger` makes a `double` of an integer. -/
def unpackNumber (ofInteger : BitVec 64 → BitVec 64) (json : J) : Option (BitVec 64) :=
  match api.typeof json with
  | .real => some (api.realValue json)
  | .integer => some (ofInteger (api.integerValue json))
  | _ => none

/-- `json_unpack("[ I, I ]", &a, &b)`: the targets with what they were before, and whether it
succeeds. -/
def unpackIntegers (json : J) (a b : BitVec 64) : BitVec 64 × BitVec 64 × Bool :=
  if api.typeof json ≠ .array then (a, b, false)
  else
    match ((api.elements json)[0]?).bind api.unpackInteger with
    | none => (a, b, false)
    | some a =>
      match ((api.elements json)[1]?).bind api.unpackInteger with
      | none => (a, b, false)
      | some b => (a, b, true)

/-- `json_unpack("{ s: F, s: F }", k, &a, l, &b)` -/
def unpackReals (ofInteger : BitVec 64 → BitVec 64) (json : J) (k l : String) :
    Option (BitVec 64 × BitVec 64) :=
  if api.typeof json ≠ .object then none
  else
    ((api.objectGet json k).bind (api.unpackNumber ofInteger)).bind fun a =>
      ((api.objectGet json l).bind (api.unpackNumber ofInteger)).map fun b => (a, b)

end Api

section
variable {J : Type} {api : Api J}

theorem Api.Lawful.unpackInteger (h : api.Lawful) (v : BitVec 64) : api.unpackInteger (api.integer v) = some v := by
  rw [Api.unpackInteger, if_pos (h.typeof_integer v), h.integerValue]

theorem Api.Lawful.unpackIntegers (h : api.Lawful) (a b x y : BitVec 64) :
    api.unpackIntegers (api.packIntegers a b) x y = (a, b, true) := by
  have helements : api.elements (api.packIntegers a b) = [api.integer a, api.integer b] := by
    rw [Api.packIntegers, h.elements_append _ _ (by rw [h.typeof_arrayAppend, h.typeof_array]),
      h.elements_append _ _ h.typeof_array, h.elements_array]
    rfl
  have htype : api.typeof (api.packIntegers a b) = .array := by
    rw [Api.packIntegers, h.typeof_arrayAppend, h.typeof_arrayAppend, h.typeof_array]
  rw [Api.unpackIntegers, if_neg (by simp [htype]), helements]
  simp only [List.getElem?_cons_zero, List.getElem?_cons_succ, Option.bind_some, h.unpackInteger]

theorem Api.Lawful.elements_foldl (h : api.Lawful) {json : J} (htype : api.typeof json = .array)
    (values : List J) : api.typeof (values.foldl api.arrayAppend json) = .array ∧
      api.elements (values.foldl api.arrayAppend json) = api.elements json ++ values := by
  induction values generalizing json with
  | nil => exact ⟨htype, (List.append_nil _).symm⟩
  | cons value values ih =>
    obtain ⟨harray, helements⟩ := @ih (api.arrayAppend json value) (by rw [h.typeof_arrayAppend, htype])
    refine ⟨harray, ?_⟩
    rw [List.foldl_cons, helements, h.elements_append _ _ htype, List.append_assoc]
    rfl

theorem Api.Lawful.typeof_arrayOf (h : api.Lawful) (values : List J) :
    api.typeof (api.arrayOf values) = .array := (h.elements_foldl h.typeof_array values).1

theorem Api.Lawful.elements_arrayOf (h : api.Lawful) (values : List J) :
    api.elements (api.arrayOf values) = values := by
  have helements := (h.elements_foldl h.typeof_array values).2
  rwa [h.elements_array] at helements

theorem Api.Lawful.unpackReals (h : api.Lawful) {k l : String} (hkeys : k ≠ l) {a b : BitVec 64} (ha : finite a)
    (hb : finite b) (ofInteger : BitVec 64 → BitVec 64) :
    ∃ json, api.packReals k a l b = some json ∧ api.typeof json = .object ∧
      api.unpackReals ofInteger json k l = some (a, b) := by
  obtain ⟨x, hx, hxtype, hxvalue⟩ := h.real a ha
  obtain ⟨y, hy, hytype, hyvalue⟩ := h.real b hb
  have hobject : api.typeof (api.objectSet api.object k x) = .object := by
    rw [h.typeof_objectSet, h.typeof_object]
  have htype : api.typeof (api.objectSet (api.objectSet api.object k x) l y) = .object := by
    rw [h.typeof_objectSet, hobject]
  refine ⟨_, by rw [Api.packReals, hx, hy]; rfl, htype, ?_⟩
  rw [Api.unpackReals, if_neg (by simp [htype]), h.objectGet_set _ _ _ _ hobject,
    h.objectGet_set _ _ _ _ hobject, if_neg hkeys, if_pos rfl,
    h.objectGet_set _ _ _ _ h.typeof_object, if_pos rfl]
  simp only [Option.bind_some, Option.map_some, Api.unpackNumber, hxtype, hytype, hxvalue, hyvalue]

end

/-! ## Text -/

/-- Trees as bytes, with some flags for the dump. -/
structure Text (J : Type) where
  dump : J → List (BitVec 8)
  /-- What a buffer contains that is smaller than the text. -/
  cut : J → List (BitVec 8) → List (BitVec 8)
  /-- `json_loadb`: a tree and the number of bytes that were read for it. -/
  load : List (BitVec 8) → Option (J × Nat)

namespace Text

variable {J : Type} (text : Text J)

/-- `json_dumpb` returns the size of the text, which may be more than the buffer has. -/
def dumpb (json : J) (buf : List (BitVec 8)) : List (BitVec 8) × Nat :=
  let size := (text.dump json).length
  (if size ≤ buf.length then text.dump json ++ buf.drop size else text.cut json buf, size)

/-- The text of this tree is loaded as this tree. -/
def Faithful (json : J) : Prop := ∃ position, text.load (text.dump json) = some (json, position)

theorem dumpb_take (json : J) {buf : List (BitVec 8)} (h : (text.dump json).length ≤ buf.length) :
    (text.dumpb json buf).1.take (text.dumpb json buf).2 = text.dump json := by
  unfold dumpb
  dsimp only
  rw [if_pos h, List.take_left']
  rfl

end Text

/-! ## Files -/

/-- What is left of a file, and whether its end has been read. -/
structure File where
  rest : List (BitVec 8)
  eof : Bool

/-- `json_loadf` with `JSON_DISABLE_EOF_CHECK`: the tree, and the file behind it. A tree has at least
one byte. -/
structure Documents (J : Type) extends Text J where
  loadf : List (BitVec 8) → Option J × File
  loadf_lt : ∀ bytes json, (loadf bytes).1 = some json → (loadf bytes).2.rest.length < bytes.length

def newline : BitVec 8 := 10#8

namespace Documents

variable {J : Type} (d : Documents J)

/-- These trees are loaded one after another, and nothing else. -/
def Reads : List J → List (BitVec 8) → Prop
  | [], bytes => (d.loadf bytes).1 = none
  | json :: rest, bytes => ∃ bytes', d.loadf bytes = (some json, ⟨bytes', false⟩) ∧ Reads rest bytes'

/-- The texts, each in a line. -/
def lines (jsons : List J) : List (BitVec 8) := jsons.flatMap fun json => d.dump json ++ [newline]

/-- The text of any of these trees is loaded as this tree, behind white space and whatever follows. -/
structure FaithfulAll (jsons : List J) : Prop where
  loaded : ∀ json ∈ jsons, ∀ blank, (∀ c ∈ blank, c = newline) → ∀ rest,
    d.loadf (blank ++ (d.dump json ++ rest)) = (some json, ⟨rest, false⟩)
  ended : ∀ blank, (∀ c ∈ blank, c = newline) → (d.loadf blank).1 = none

variable {d}

theorem FaithfulAll.reads_blank {jsons : List J} (h : d.FaithfulAll jsons) {blank : List (BitVec 8)}
    (hblank : ∀ c ∈ blank, c = newline) : d.Reads jsons (blank ++ d.lines jsons) := by
  induction jsons generalizing blank with
  | nil =>
    unfold lines Reads
    rw [List.flatMap_nil, List.append_nil]
    exact h.ended blank hblank
  | cons json rest ih =>
    refine ⟨[newline] ++ d.lines rest, ?_, ?_⟩
    · unfold lines
      rw [List.flatMap_cons, List.append_assoc]
      exact h.loaded json List.mem_cons_self blank hblank _
    · have hrest : d.FaithfulAll rest :=
        ⟨fun json hjson => h.loaded json (List.mem_cons_of_mem _ hjson), h.ended⟩
      exact ih hrest fun c hc => List.mem_singleton.mp hc

theorem FaithfulAll.reads {jsons : List J} (h : d.FaithfulAll jsons) : d.Reads jsons (d.lines jsons) :=
  h.reads_blank fun _ hc => absurd hc List.not_mem_nil

end Documents

/-! ## Strings -/

/-- `json_string` and `json_string_value`. -/
structure Strings (J : Type) where
  string : String → J
  stringValue : J → String

structure Strings.Lawful {J : Type} (strings : Strings J) (api : Api J) : Prop where
  typeof_string : ∀ s, api.typeof (strings.string s) = .string
  stringValue : ∀ s, strings.stringValue (strings.string s) = s

/-! ## Trees -/

inductive Tree where
  | object (members : List (String × Tree))
  | array (elements : List Tree)
  | integer (v : BitVec 64)
  | real (v : BitVec 64)
  | boolean (b : Bool)
  | string (s : String)

namespace Tree

/-- The first member of this name gets the value, or there is a new one at the end. -/
def setMember (key : String) (value : Tree) : List (String × Tree) → List (String × Tree)
  | [] => [(key, value)]
  | (k, v) :: members => if k = key then (k, value) :: members else (k, v) :: setMember key value members

theorem lookup_setMember (members : List (String × Tree)) (k : String) (v : Tree) (k' : String) :
    (setMember k v members).lookup k' = if k' = k then some v else members.lookup k' := by
  induction members with
  | nil =>
    by_cases hk : k' = k
    · simp [setMember, hk]
    · simp [setMember, List.lookup_cons, hk, beq_eq_false_iff_ne.mpr hk]
  | cons member members ih =>
    obtain ⟨l, w⟩ := member
    rw [setMember]
    split_ifs with hl hk hk
    · subst hl hk
      rw [List.lookup_cons_self]
    · subst hl
      rw [List.lookup_cons, List.lookup_cons, beq_eq_false_iff_ne.mpr hk]
    · subst hk
      rw [List.lookup_cons, beq_eq_false_iff_ne.mpr (Ne.symm hl), ih, if_pos rfl]
    · rw [List.lookup_cons, List.lookup_cons, ih, if_neg hk]

def api : Api Tree where
  object := .object []
  array := .array []
  integer := .integer
  real v := if finite v then some (.real v) else none
  boolean := .boolean
  objectSet
    | .object members, key, value => .object (setMember key value members)
    | json, _, _ => json
  arrayAppend
    | .array elements, value => .array (elements ++ [value])
    | json, _ => json
  typeof
    | .object _ => .object
    | .array _ => .array
    | .integer _ => .integer
    | .real _ => .real
    | .boolean true => .true
    | .boolean false => .false
    | .string _ => .string
  objectGet
    | .object members, key => members.lookup key
    | _, _ => none
  elements
    | .array elements => elements
    | _ => []
  integerValue
    | .integer v => v
    | _ => 0
  realValue
    | .real v => v
    | _ => 0

theorem lawful_api : api.Lawful := by
  constructor
  · rfl
  · rfl
  · exact fun _ => rfl
  · intro b
    cases b <;> rfl
  · intro j k v
    cases j <;> rfl
  · intro j v
    cases j <;> rfl
  · exact fun _ => rfl
  · intro v hv
    exact ⟨.real v, if_pos hv, rfl, rfl⟩
  · exact fun _ => rfl
  · intro j k v k' hj
    cases j with
    | object members => exact lookup_setMember members k v k'
    | boolean b => cases b <;> cases hj
    | _ => cases hj
  · rfl
  · intro j v hj
    cases j with
    | array elements => rfl
    | boolean b => cases b <;> cases hj
    | _ => cases hj

theorem strict_api : api.Strict := fun _ hv => if_neg hv

def strings : Strings Tree where
  string := .string
  stringValue
    | .string s => s
    | _ => ""

theorem lawful_strings : strings.Lawful api := ⟨fun _ => rfl, fun _ => rfl⟩

end Tree

end Jansson
