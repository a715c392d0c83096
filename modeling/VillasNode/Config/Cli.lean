import Mathlib.Data.List.Induction
import VillasNode.Config.Extend
import VillasNode.Lib.CText
import VillasNode.Lib.Strto

/-!
# Options of the command line

`json_load_cli` of `lib/config_helper.cpp`. An object that is changed in place is
a value that is set again. The values of floating point numbers are any function
of their text.
-/

namespace VillasNode.ConfigHelper

open ByteOrder CText Jansson Libconfig Members Strto

/-! ## The code -/

def word (s : String) : List Byte := s.toList.map ch

/-- `json_object_get` -/
def jsonObjectGet (json : Json) (key : List Byte) : Option Json :=
  match json with
  | .object members => (decode key).bind fun key => members.lookup key
  | _ => none

/-- `json_object_set`, which does nothing for `NULL` and for a key that is not UTF-8. -/
def jsonObjectSet (json : Json) (key : List Byte) (value : Option Json) : Json :=
  match json with
  | .object members => .object (jsonObjectSetNew members (decode key) value)
  | _ => json

/-- What a token stands for, or `NULL`. -/
def scalar (toDouble : List Byte → BitVec 64) (value : List Byte) : Option Json :=
  let ptr : Cursor := ⟨0, value⟩
  let (integer, stop) := strtolAny ptr
  if stop.peek = 0 then some (.integer integer)
  else
    let (text, stop) := ptr.convert real
    if stop.peek = 0 then jsonReal (toDouble text)
    else if value = word "true" then some (.boolean true)
    else if value = word "false" then some (.boolean false)
    else if value = word "null" then some .null
    else (decode value).map .string

/-- The label `success`. -/
def addValue (add : Option Json) (subobj : Json) (key : List Byte) : Json :=
  match jsonObjectGet subobj key with
  | some (.array elements) => jsonObjectSet subobj key (some (.array (jsonArrayAppendNew elements add)))
  | some existing => jsonObjectSet subobj key (some (.array (jsonArrayAppendNew [existing] add)))
  | none => jsonObjectSet subobj key add

/-- The way down along the tokens of the key. -/
def extendAt (add : Option Json) : List (List Byte) → Json → Json
  | [], obj => obj
  | [key], obj => addValue add obj key
  | key :: key' :: keys, obj =>
    let subobj := (jsonObjectGet obj key).getD (.object [])
    jsonObjectSet obj key (some (extendAt add (key' :: keys) subobj))

section
variable (toDouble : List Byte → BitVec 64)

def jsonObjectExtendKeyValue (obj : Json) (key value : List Byte) : Json :=
  extendAt (scalar toDouble value) (tokens (ch '.') key) obj

def jsonObjectExtendKeyValueToken (obj : Json) (key value : List Byte) : Json :=
  (tokens (ch ',') value).foldl (fun obj token => jsonObjectExtendKeyValue toDouble obj key token) obj

/-- The loop over the arguments. `none` when a null pointer is taken for a string, and `some none`
for the result `nullptr`. -/
def loadArguments (json : Json) (key : Option (List Byte)) : List (List Byte) → Option (Option Json)
  | [] => some (some json)
  | opt :: args =>
    if opt.headD 0 = ch '-' ∧ opt.tail.headD 0 = ch '-' then
      match key with
      | some _ => some none
      | none =>
        let key := opt.drop 2
        if ch '=' ∈ key then
          match strtok (ch '=') key with
          | none | some (_, []) => none
          | some (key, value) => loadArguments (jsonObjectExtendKeyValueToken toDouble json key value) none args
        else loadArguments json (some key) args
    else
      match key with
      | none => some none
      | some key => loadArguments (jsonObjectExtendKeyValueToken toDouble json key opt) none args

def jsonLoadCli (argv : List (List Byte)) : Option (Option Json) := loadArguments toDouble (.object []) none argv.tail

end

/-! ## The specification -/

/-- `--key=value` if it is joined, `--key value` otherwise. -/
structure CliOption where
  keys : List (List Byte)
  tokens : List (List Byte)
  isJoined : Bool

namespace CliOption

def key (o : CliOption) : List Byte := joined (ch '.') o.keys

def value (o : CliOption) : List Byte := joined (ch ',') o.tokens

def arguments (o : CliOption) : List (List Byte) :=
  if o.isJoined then [word "--" ++ (o.key ++ ch '=' :: o.value)] else [word "--" ++ o.key, o.value]

/-- A value in an argument of its own does not look like an option. -/
structure WellFormed (o : CliOption) : Prop where
  keys_ne : o.keys ≠ []
  keys : ∀ key ∈ o.keys, key ≠ [] ∧ ch '.' ∉ key
  key : ch '=' ∉ o.key
  tokens_ne : o.tokens ≠ []
  tokens : ∀ token ∈ o.tokens, token ≠ [] ∧ ch ',' ∉ token
  value : o.isJoined ∨ ¬ word "--" <+: o.value

end CliOption

/-- No path is a proper prefix of another one. -/
def PrefixFree (opts : List CliOption) : Prop :=
  ∀ o ∈ opts, ∀ o' ∈ opts, o.keys <+: o'.keys → o.keys = o'.keys

/-- All tokens for a path, in the order in which they appear. -/
def tokensFor (opts : List CliOption) (keys : List (List Byte)) : List (List Byte) :=
  (opts.filter (·.keys = keys)).flatMap CliOption.tokens

def collected : List Json → Json
  | [value] => value
  | values => .array values

/-- What is found below keys that are C strings. -/
def jsonAt : List (List Byte) → Json → Option Json
  | [], json => some json
  | key :: keys, json => (jsonObjectGet json key).bind (jsonAt keys)

/-- Each path leads to what its tokens stand for, and there is nothing else. -/
structure Loads (toDouble : List Byte → BitVec 64) (opts : List CliOption) (json : Json) : Prop where
  object : json.isObject
  values : ∀ o ∈ opts, ∃ values,
    List.Forall₂ (fun token value => scalar toDouble token = some value) (tokensFor opts o.keys) values ∧
      jsonAt o.keys json = some (collected values)
  nothing_else : ∀ path value, path ≠ [] → json.atPath path = some value →
    ∃ o ∈ opts, path.map bytes <+: o.keys

/-! ## One token -/

/-- What a key has after one more value. -/
def appended (old : Option Json) (value : Json) : Json :=
  match old with
  | none => value
  | some (.array elements) => .array (elements ++ [value])
  | some existing => .array [existing, value]

section
variable {json : Json} {members : List (CString × Json)} {key : CString} {path : List CString} {value : Json}

theorem jsonObjectGet_bytes : jsonObjectGet (.object members) (bytes key) = members.lookup key := by
  rw [jsonObjectGet, decode_bytes, Option.bind_some]

theorem jsonObjectSet_bytes :
    jsonObjectSet (.object members) (bytes key) (some value) = .object (setMember key value members) := by
  rw [jsonObjectSet, decode_bytes]
  rfl

theorem atPath_cons : (Json.object members).atPath (key :: path) = (members.lookup key).bind (Json.atPath path) := rfl

theorem jsonAt_bytes (path : List CString) (json : Json) : jsonAt (path.map bytes) json = json.atPath path := by
  induction path generalizing json with
  | nil => rfl
  | cons key path ih =>
    rw [List.map_cons, jsonAt]
    cases json with
    | object members =>
      rw [jsonObjectGet_bytes, atPath_cons]
      exact congrArg _ (funext ih)
    | _ => rfl

theorem addValue_eq : addValue (some value) (.object members) (bytes key) =
    .object (setMember key (appended (members.lookup key) value) members) := by
  rw [addValue, jsonObjectGet_bytes]
  split
  · rename_i elements hlookup
    rw [jsonObjectSet_bytes, hlookup]
    rfl
  · rename_i existing hother hlookup
    rw [jsonObjectSet_bytes, hlookup]
    cases existing with
    | array elements => exact absurd rfl (hother elements)
    | _ => rfl
  · rename_i hlookup
    rw [jsonObjectSet_bytes, hlookup]
    rfl

/-- All that is on the way to a path is an object. -/
def Walkable (path : List CString) (json : Json) : Prop :=
  ∀ q, q <+: path → q ≠ path → ∀ x, json.atPath q = some x → x.isObject

/-- The value is added at the path, and what is elsewhere stays. -/
structure AddedAt (path : List CString) (value : Json) (json json' : Json) : Prop where
  object : json'.isObject
  value : json'.atPath path = some (appended (json.atPath path) value)
  others : ∀ q, ¬ q <+: path → ¬ path <+: q → json'.atPath q = json.atPath q

theorem addedAt_key (members : List (CString × Json)) (key : CString) (value : Json) :
    AddedAt [key] value (.object members) (addValue (some value) (.object members) (bytes key)) := by
  rw [addValue_eq]
  refine ⟨rfl, ?_, fun q hq hq' => ?_⟩
  · rw [atPath_cons, atPath_cons, lookup_setMember, if_pos rfl, Option.bind_some]
    cases members.lookup key <;> rfl
  · cases q with
    | nil => exact absurd (List.nil_prefix ..) hq
    | cons k q =>
      have hne : k ≠ key := by
        rintro rfl
        exact hq' (List.prefix_append [k] q)
      rw [atPath_cons, atPath_cons, lookup_setMember_ne hne]

/-- The object that is already there, or the one that is made for the key. -/
def subobject (members : List (CString × Json)) (key : CString) : Json :=
  (members.lookup key).getD (.object [])

theorem subobject_atPath (k : CString) (q : List CString) :
    (subobject members key).atPath (k :: q) = (members.lookup key).bind (Json.atPath (k :: q)) := by
  unfold subobject
  cases members.lookup key <;> rfl

theorem Walkable.subobject {k : CString} {path : List CString} (h : Walkable (key :: k :: path) (.object members)) :
    (subobject members key).isObject ∧ Walkable (k :: path) (subobject members key) := by
  have hobject : (ConfigHelper.subobject members key).isObject := by
    unfold ConfigHelper.subobject
    cases hlookup : members.lookup key with
    | none => rfl
    | some x =>
      refine h [key] (List.prefix_append [key] (k :: path)) (by simp) x ?_
      rw [atPath_cons, hlookup]
      rfl
  refine ⟨hobject, fun q hq hne x hx => ?_⟩
  cases q with
  | nil =>
    cases hx
    exact hobject
  | cons l q =>
    rw [subobject_atPath] at hx
    exact h (key :: l :: q) (List.cons_prefix_cons.mpr ⟨rfl, hq⟩) (by simpa using hne) x hx

theorem extendAt_added (hobject : json.isObject) (hne : path ≠ []) (hwalk : Walkable path json) (value : Json) :
    AddedAt path value json (extendAt (some value) (path.map bytes) json) := by
  induction path generalizing json with
  | nil => exact absurd rfl hne
  | cons key path ih =>
    obtain ⟨members, rfl⟩ := isObject_iff.mp hobject
    cases path with
    | nil => exact addedAt_key members key value
    | cons k path =>
      obtain ⟨hsubobject, hsubwalk⟩ := hwalk.subobject
      have hadded := ih hsubobject (List.cons_ne_nil k path) hsubwalk
      rw [List.map_cons, List.map_cons, extendAt, jsonObjectGet_bytes, jsonObjectSet_bytes]
      refine ⟨rfl, ?_, fun q hq hq' => ?_⟩
      · rw [atPath_cons, atPath_cons, lookup_setMember, if_pos rfl, Option.bind_some, ← subobject_atPath]
        exact hadded.value
      · cases q with
        | nil => exact absurd (List.nil_prefix ..) hq
        | cons l q =>
          by_cases hl : l = key
          · rw [hl, List.cons_prefix_cons, and_iff_right rfl] at hq hq'
            rw [hl, atPath_cons, atPath_cons, lookup_setMember, if_pos rfl, Option.bind_some]
            cases q with
            | nil => exact absurd (List.nil_prefix ..) hq
            | cons l' q =>
              rw [← subobject_atPath]
              exact hadded.others _ hq hq'
          · rw [atPath_cons, atPath_cons, lookup_setMember_ne hl]

end

/-! ## All tokens -/

def Json.isScalar : Json → Bool
  | .object _ | .array _ => false
  | _ => true

/-- Values with the paths to which they are added. -/
abbrev Additions := List (List CString × Json)

/-- The values for a path. -/
def valuesFor (adds : Additions) (path : List CString) : List Json := (adds.filter (·.1 = path)).map Prod.snd

/-- The object that results from additions to an empty one. -/
structure Holding (adds : Additions) (json : Json) : Prop where
  object : json.isObject
  values : ∀ path ∈ adds.map Prod.fst, json.atPath path = some (collected (valuesFor adds path))
  nothing_else : ∀ q x, q ≠ [] → json.atPath q = some x → ∃ path ∈ adds.map Prod.fst, q <+: path

section
variable {adds : Additions} {json : Json} {path q : List CString} {value : Json}

/-- What is added are scalars, and no path goes on behind another one. -/
structure Addable (adds : Additions) : Prop where
  scalar : ∀ a ∈ adds, a.2.isScalar
  path_ne : ∀ a ∈ adds, a.1 ≠ []
  free : ∀ a ∈ adds, ∀ b ∈ adds, a.1 <+: b.1 → a.1 = b.1

theorem Addable.init (h : Addable (adds ++ [(path, value)])) : Addable adds :=
  ⟨fun a ha => h.scalar a (List.mem_append_left _ ha), fun a ha => h.path_ne a (List.mem_append_left _ ha),
    fun a ha b hb => h.free a (List.mem_append_left _ ha) b (List.mem_append_left _ hb)⟩

theorem valuesFor_snoc (adds : Additions) (path q : List CString) (value : Json) :
    valuesFor (adds ++ [(path, value)]) q =
      if q = path then valuesFor adds q ++ [value] else valuesFor adds q := by
  unfold valuesFor
  by_cases hq : q = path
  · simp [hq]
  · simp [hq, Ne.symm hq]

theorem appended_collected {values : List Json} (hne : values ≠ []) (hscalar : ∀ v ∈ values, v.isScalar)
    (value : Json) : appended (some (collected values)) value = collected (values ++ [value]) := by
  cases values with
  | nil => exact absurd rfl hne
  | cons v values =>
    cases values with
    | nil =>
      have hv := hscalar v (List.mem_singleton_self v)
      cases v with
      | object | array => cases hv
      | _ => rfl
    | cons v' values => rfl

theorem collected_not_object {values : List Json} (hscalar : ∀ v ∈ values, v.isScalar) :
    ¬ (collected values).isObject := by
  cases values with
  | nil => exact Bool.false_ne_true
  | cons v values =>
    cases values with
    | nil =>
      have hv := hscalar v (List.mem_singleton_self v)
      cases v with
      | object => cases hv
      | _ => exact Bool.false_ne_true
    | cons v' values => exact Bool.false_ne_true

theorem valuesFor_scalar (h : Addable adds) : ∀ v ∈ valuesFor adds path, v.isScalar := by
  intro v hv
  obtain ⟨a, ha, rfl⟩ := List.mem_map.mp hv
  exact h.scalar a (List.mem_of_mem_filter ha)

theorem valuesFor_ne (h : path ∈ adds.map Prod.fst) : valuesFor adds path ≠ [] := by
  obtain ⟨a, ha, rfl⟩ := List.mem_map.mp h
  refine List.ne_nil_of_mem (a := a.2) (List.mem_map.mpr ⟨a, List.mem_filter.mpr ⟨ha, ?_⟩, rfl⟩)
  simp

theorem valuesFor_nil (h : path ∉ adds.map Prod.fst) : valuesFor adds path = [] := by
  rw [valuesFor, List.map_eq_nil_iff, List.filter_eq_nil_iff]
  intro a ha heq
  rw [decide_eq_true_eq] at heq
  exact h (List.mem_map.mpr ⟨a, ha, heq⟩)

theorem atPath_prefix {x : Json} (hq : q <+: path) (hx : json.atPath path = some x) (hne : q ≠ path) :
    ∃ y, json.atPath q = some y ∧ y.isObject := by
  induction q generalizing json path with
  | nil =>
    cases path with
    | nil => exact absurd rfl hne
    | cons key path => exact ⟨json, rfl, isObject_of_atPath hx⟩
  | cons key q ih =>
    obtain ⟨rest, rfl⟩ := hq
    cases json with
    | object members =>
      rw [List.cons_append, atPath_cons] at hx
      obtain ⟨y, hy, hx⟩ := Option.bind_eq_some_iff.mp hx
      obtain ⟨z, hz, hzobject⟩ := ih (List.prefix_append q rest) hx (by simpa using hne)
      refine ⟨z, ?_, hzobject⟩
      rw [atPath_cons, hy]
      exact hz
    | _ => cases hx

theorem Holding.walkable (h : Holding adds json) (hadds : Addable (adds ++ [(path, value)])) :
    Walkable path json := by
  intro q hq hne x hx
  cases q with
  | nil =>
    cases hx
    exact h.object
  | cons key q =>
    obtain ⟨path', hpath', hq'⟩ := h.nothing_else _ x (List.cons_ne_nil key q) hx
    obtain ⟨a, ha, rfl⟩ := List.mem_map.mp hpath'
    have hproper : key :: q ≠ a.1 := by
      intro heq
      have hfree := hadds.free a (List.mem_append_left _ ha) (path, value) (by simp)
      exact hne (heq.trans (hfree (heq ▸ hq)))
    obtain ⟨y, hy, hyobject⟩ := atPath_prefix hq' (h.values _ hpath') hproper
    rw [hx, Option.some.injEq] at hy
    rwa [hy]

theorem Holding.atPath (h : Holding adds json) (hadds : Addable (adds ++ [(path, value)])) :
    json.atPath path = if path ∈ adds.map Prod.fst then some (collected (valuesFor adds path)) else none := by
  split_ifs with hmem
  · exact h.values path hmem
  · cases hx : json.atPath path with
    | none => rfl
    | some x =>
      obtain ⟨path', hpath', hq⟩ := h.nothing_else path x (hadds.path_ne (path, value) (by simp)) hx
      obtain ⟨a, ha, rfl⟩ := List.mem_map.mp hpath'
      have heq : path = a.1 := hadds.free (path, value) (by simp) a (List.mem_append_left _ ha) hq
      exact absurd (heq ▸ hpath') hmem

theorem Holding.add (h : Holding adds json) (hadds : Addable (adds ++ [(path, value)])) :
    Holding (adds ++ [(path, value)]) (extendAt (some value) (path.map bytes) json) := by
  have hadded := extendAt_added h.object (hadds.path_ne (path, value) (by simp)) (h.walkable hadds) value
  have hkeys : (adds ++ [(path, value)]).map Prod.fst = adds.map Prod.fst ++ [path] := List.map_append
  have hnew : (extendAt (some value) (path.map bytes) json).atPath path =
      some (collected (valuesFor adds path ++ [value])) := by
    rw [hadded.value, h.atPath hadds]
    split_ifs with hmem
    · rw [appended_collected (valuesFor_ne hmem) (valuesFor_scalar hadds.init)]
    · rw [valuesFor_nil hmem]
      rfl
  refine ⟨hadded.object, fun q hq => ?_, fun q x hne hx => ?_⟩
  · rw [valuesFor_snoc]
    split_ifs with heq
    · rw [heq, hnew]
    · rw [hkeys, List.mem_append, List.mem_singleton, or_iff_left heq] at hq
      obtain ⟨a, ha, rfl⟩ := List.mem_map.mp hq
      have hbefore := hadds.free a (List.mem_append_left _ ha) (path, value) (by simp)
      have hbehind := hadds.free (path, value) (by simp) a (List.mem_append_left _ ha)
      rw [hadded.others _ (fun hq => heq (hbefore hq)) fun hq => heq (hbehind hq).symm]
      exact h.values _ hq
  · rw [hkeys]
    by_cases hq : q <+: path
    · exact ⟨path, by simp, hq⟩
    by_cases hq' : path <+: q
    · -- Nothing is found behind the value.
      obtain ⟨y, hy, hyobject⟩ := atPath_prefix hq' hx fun heq => hq (heq ▸ List.prefix_rfl)
      rw [hnew, Option.some.injEq] at hy
      rw [← hy] at hyobject
      refine absurd hyobject (collected_not_object fun v hv => ?_)
      obtain hv | hv := List.mem_append.mp hv
      · exact valuesFor_scalar hadds.init v hv
      · rw [List.mem_singleton.mp hv]
        exact hadds.scalar (path, value) (by simp)
    · rw [hadded.others q hq hq'] at hx
      obtain ⟨path', hpath', hq⟩ := h.nothing_else q x hne hx
      exact ⟨path', List.mem_append_left _ hpath', hq⟩

theorem holding_additions (hadds : Addable adds) :
    Holding adds (adds.foldl (fun obj a => extendAt (some a.2) (a.1.map bytes) obj) (.object [])) := by
  induction adds using List.reverseRecOn with
  | nil =>
    refine ⟨rfl, nofun, fun q x hne hx => ?_⟩
    cases q with
    | nil => exact absurd rfl hne
    | cons key q => cases hx
  | append_singleton adds a ih =>
    rw [List.foldl_append]
    exact (ih hadds.init).add hadds

end

/-! ## All options -/

section
variable {toDouble : List Byte → BitVec 64} {o : CliOption} {opts : List CliOption} {keys : List (List Byte)}

theorem joined_ne {d : Byte} {pieces : List (List Byte)} (hne : pieces ≠ [])
    (h : ∀ piece ∈ pieces, piece ≠ []) : joined d pieces ≠ [] := by
  cases pieces with
  | nil => exact absurd rfl hne
  | cons piece pieces =>
    have hpiece := h piece (List.mem_cons_self ..)
    cases pieces with
    | nil => exact hpiece
    | cons piece' pieces => exact List.append_ne_nil_of_left_ne_nil hpiece _

/-- What an option does to the object. -/
def optionAdded (toDouble : List Byte → BitVec 64) (json : Json) (o : CliOption) : Json :=
  o.tokens.foldl (fun obj token => extendAt (scalar toDouble token) o.keys obj) json

theorem extendKeyValueToken_option (h : o.WellFormed) (json : Json) :
    jsonObjectExtendKeyValueToken toDouble json o.key o.value = optionAdded toDouble json o := by
  unfold jsonObjectExtendKeyValueToken jsonObjectExtendKeyValue optionAdded
  rw [show tokens (ch ',') o.value = o.tokens from tokens_joined h.tokens,
    show tokens (ch '.') o.key = o.keys from tokens_joined h.keys]

theorem loadArguments_joined (h : o.WellFormed) (json : Json) (args : List (List Byte)) :
    loadArguments toDouble json none ((word "--" ++ (o.key ++ ch '=' :: o.value)) :: args) =
      loadArguments toDouble (optionAdded toDouble json o) none args := by
  have hkey : o.key ≠ [] := joined_ne h.keys_ne fun key hkey => (h.keys key hkey).1
  have hvalue : o.value ≠ [] := joined_ne h.tokens_ne fun token htoken => (h.tokens token htoken).1
  have hdrop : (word "--" ++ (o.key ++ ch '=' :: o.value)).drop 2 = o.key ++ ch '=' :: o.value := rfl
  rw [loadArguments, if_pos ⟨rfl, rfl⟩]
  dsimp only
  rw [hdrop, if_pos (by simp), strtok_piece hkey h.key]
  obtain ⟨b, value, hb⟩ := List.exists_cons_of_ne_nil hvalue
  rw [hb]
  dsimp only
  rw [← hb, extendKeyValueToken_option h]

theorem loadArguments_separated (h : o.WellFormed) (hvalue : ¬ word "--" <+: o.value) (json : Json)
    (args : List (List Byte)) :
    loadArguments toDouble json none ((word "--" ++ o.key) :: o.value :: args) =
      loadArguments toDouble (optionAdded toDouble json o) none args := by
  have hdrop : (word "--" ++ o.key).drop 2 = o.key := rfl
  have hplain : ¬ (o.value.headD 0 = ch '-' ∧ o.value.tail.headD 0 = ch '-') := by
    rintro ⟨hfirst, hsecond⟩
    refine hvalue ?_
    cases hv : o.value with
    | nil =>
      rw [hv] at hfirst
      cases hfirst
    | cons a value =>
      rw [hv] at hfirst hsecond
      cases value with
      | nil => cases hsecond
      | cons b value =>
        obtain rfl : a = ch '-' := hfirst
        obtain rfl : b = ch '-' := hsecond
        exact List.prefix_append (word "--") value
  rw [loadArguments, if_pos ⟨rfl, rfl⟩]
  dsimp only
  rw [hdrop, if_neg h.key, loadArguments, if_neg hplain, extendKeyValueToken_option h]

theorem loadArguments_options (h : ∀ o ∈ opts, o.WellFormed) (json : Json) :
    loadArguments toDouble json none (opts.flatMap CliOption.arguments) =
      some (some (opts.foldl (optionAdded toDouble) json)) := by
  induction opts generalizing json with
  | nil => rfl
  | cons o opts ih =>
    obtain ⟨ho, hopts⟩ := List.forall_mem_cons.mp h
    rw [List.flatMap_cons, CliOption.arguments, List.foldl_cons, ← ih hopts]
    split_ifs with hjoined
    · exact loadArguments_joined ho json _
    · exact loadArguments_separated ho (ho.value.resolve_left hjoined) json _

/-! What is added to the object. -/

def pathOf (keys : List (List Byte)) : List CString := keys.filterMap decode

def valueOf (toDouble : List Byte → BitVec 64) (token : List Byte) : Json := (scalar toDouble token).getD .null

def additions (toDouble : List Byte → BitVec 64) (opts : List CliOption) : Additions :=
  opts.flatMap fun o => o.tokens.map fun token => (pathOf o.keys, valueOf toDouble token)

theorem additions_cons (toDouble : List Byte → BitVec 64) (o : CliOption) (opts : List CliOption) :
    additions toDouble (o :: opts) =
      (o.tokens.map fun token => (pathOf o.keys, valueOf toDouble token)) ++ additions toDouble opts := rfl

/-- JSON has the keys, and a value for each of the tokens. -/
def Expressible (toDouble : List Byte → BitVec 64) (opts : List CliOption) : Prop :=
  ∀ o ∈ opts, (∀ key ∈ o.keys, (decode key).isSome) ∧ ∀ token ∈ o.tokens, (scalar toDouble token).isSome

theorem bytes_pathOf (h : ∀ key ∈ keys, (decode key).isSome) : (pathOf keys).map bytes = keys := by
  induction keys with
  | nil => rfl
  | cons key keys ih =>
    obtain ⟨hkey, hkeys⟩ := List.forall_mem_cons.mp h
    obtain ⟨s, hs⟩ := Option.isSome_iff_exists.mp hkey
    have hrest := ih hkeys
    rw [pathOf] at hrest
    rw [pathOf, List.filterMap_cons_some hs, List.map_cons, hrest, decode_eq_some.mp hs]

theorem scalar_valueOf {token : List Byte} (h : (scalar toDouble token).isSome) :
    scalar toDouble token = some (valueOf toDouble token) := by
  obtain ⟨v, hv⟩ := Option.isSome_iff_exists.mp h
  rw [valueOf, hv]
  rfl

theorem jsonReal_scalar {v : BitVec 64} {json : Json} (h : jsonReal v = some json) : json.isScalar := by
  obtain ⟨_, h⟩ := Option.dite_none_right_eq_some.mp h
  cases h
  rfl

theorem scalar_isScalar {token : List Byte} {json : Json} (h : scalar toDouble token = some json) :
    json.isScalar := by
  unfold scalar at h
  dsimp only at h
  split_ifs at h
  · cases h
    rfl
  · exact jsonReal_scalar h
  · cases h
    rfl
  · cases h
    rfl
  · cases h
    rfl
  · obtain ⟨_, -, rfl⟩ := Option.map_eq_some_iff.mp h
    rfl

theorem foldl_additions (h : Expressible toDouble opts) (json : Json) :
    opts.foldl (optionAdded toDouble) json =
      (additions toDouble opts).foldl (fun obj a => extendAt (some a.2) (a.1.map bytes) obj) json := by
  induction opts generalizing json with
  | nil => rfl
  | cons o opts ih =>
    obtain ⟨⟨hkeys, htokens⟩, hopts⟩ := List.forall_mem_cons.mp h
    rw [List.foldl_cons, ih hopts, additions_cons, List.foldl_append, List.foldl_map, optionAdded]
    congr 1
    refine List.foldl_ext _ _ json fun obj token htoken => ?_
    rw [scalar_valueOf (htokens token htoken), bytes_pathOf hkeys]

theorem mem_additions {a : List CString × Json} : a ∈ additions toDouble opts ↔
    ∃ o ∈ opts, ∃ token ∈ o.tokens, a = (pathOf o.keys, valueOf toDouble token) := by
  simp only [additions, List.mem_flatMap, List.mem_map, eq_comm]

theorem addable_additions (hopts : ∀ o ∈ opts, o.WellFormed) (hfree : PrefixFree opts)
    (h : Expressible toDouble opts) : Addable (additions toDouble opts) := by
  refine ⟨fun a ha => ?_, fun a ha => ?_, fun a ha b hb hab => ?_⟩
  · obtain ⟨o, ho, token, htoken, rfl⟩ := mem_additions.1 ha
    exact scalar_isScalar (scalar_valueOf ((h o ho).2 token htoken))
  · obtain ⟨o, ho, token, htoken, rfl⟩ := mem_additions.1 ha
    intro hnil
    dsimp only at hnil
    refine (hopts o ho).keys_ne ?_
    rw [← bytes_pathOf (h o ho).1, hnil]
    rfl
  · obtain ⟨o, ho, token, htoken, rfl⟩ := mem_additions.1 ha
    obtain ⟨o', ho', token', htoken', rfl⟩ := mem_additions.1 hb
    have hkeys := hab.map bytes
    rw [bytes_pathOf (h o ho).1, bytes_pathOf (h o' ho').1] at hkeys
    dsimp only
    rw [hfree o ho o' ho' hkeys]

theorem valuesFor_additions (h : Expressible toDouble opts) (hkeys : ∀ key ∈ keys, (decode key).isSome) :
    valuesFor (additions toDouble opts) (pathOf keys) = (tokensFor opts keys).map (valueOf toDouble) := by
  induction opts with
  | nil => rfl
  | cons o opts ih =>
    obtain ⟨⟨hokeys, -⟩, hopts⟩ := List.forall_mem_cons.mp h
    have hpath : pathOf o.keys = pathOf keys ↔ o.keys = keys := by
      constructor
      · intro heq
        rw [← bytes_pathOf hokeys, heq, bytes_pathOf hkeys]
      · exact congrArg pathOf
    have hrest := ih hopts
    unfold valuesFor tokensFor at hrest ⊢
    rw [additions_cons, List.filter_append, List.map_append, hrest]
    by_cases heq : o.keys = keys
    · rw [List.filter_cons_of_pos (by simpa using heq), List.flatMap_cons, List.map_append, List.filter_map]
      simp [Function.comp_def, heq]
    · rw [List.filter_cons_of_neg (by simpa using heq), List.filter_map]
      simp [Function.comp_def, hpath, heq]

theorem jsonLoadCli_options (program : List Byte) (hopts : ∀ o ∈ opts, o.WellFormed) :
    jsonLoadCli toDouble (program :: opts.flatMap CliOption.arguments) =
      some (some (opts.foldl (optionAdded toDouble) (.object []))) := loadArguments_options hopts _

theorem loads_of_expressible (hopts : ∀ o ∈ opts, o.WellFormed) (hfree : PrefixFree opts)
    (h : Expressible toDouble opts) : Loads toDouble opts (opts.foldl (optionAdded toDouble) (.object [])) := by
  have hholding := holding_additions (addable_additions hopts hfree h)
  rw [← foldl_additions h] at hholding
  refine ⟨hholding.object, fun o ho => ?_, fun path value hne hvalue => ?_⟩
  · obtain ⟨token, tokens, htokens⟩ := List.exists_cons_of_ne_nil (hopts o ho).tokens_ne
    have hpath : pathOf o.keys ∈ (additions toDouble opts).map Prod.fst :=
      List.mem_map.mpr ⟨_, mem_additions.2 ⟨o, ho, token, by simp [htokens], rfl⟩, rfl⟩
    refine ⟨(tokensFor opts o.keys).map (valueOf toDouble), ?_, ?_⟩
    · rw [List.forall₂_map_right_iff, List.forall₂_same]
      intro token htoken
      obtain ⟨o', ho', htoken⟩ := List.mem_flatMap.mp htoken
      exact scalar_valueOf ((h o' (List.mem_of_mem_filter ho')).2 token htoken)
    · rw [← valuesFor_additions h (h o ho).1, ← hholding.values _ hpath, ← jsonAt_bytes, bytes_pathOf (h o ho).1]
  · obtain ⟨path', hpath', hq⟩ := hholding.nothing_else path value hne hvalue
    obtain ⟨a, ha, rfl⟩ := List.mem_map.mp hpath'
    obtain ⟨o, ho, token, htoken, rfl⟩ := mem_additions.1 ha
    refine ⟨o, ho, ?_⟩
    rw [← bytes_pathOf (h o ho).1]
    exact hq.map bytes

theorem jsonAt_decode {json value : Json} (h : jsonAt keys json = some value) : ∀ key ∈ keys, (decode key).isSome := by
  induction keys generalizing json with
  | nil => exact List.forall_mem_nil _
  | cons key keys ih =>
    obtain ⟨json', hjson', h⟩ := Option.bind_eq_some_iff.mp h
    refine List.forall_mem_cons.mpr ⟨?_, ih h⟩
    cases json with
    | object members =>
      obtain ⟨s, hs, -⟩ := Option.bind_eq_some_iff.mp hjson'
      exact Option.isSome_of_eq_some hs
    | _ => cases hjson'

theorem Loads.expressible {json : Json} (h : Loads toDouble opts json) : Expressible toDouble opts := by
  intro o ho
  obtain ⟨values, hvalues, hat⟩ := h.values o ho
  refine ⟨jsonAt_decode hat, fun token htoken => ?_⟩
  have hmem : token ∈ tokensFor opts o.keys :=
    List.mem_flatMap.mpr ⟨o, List.mem_filter.mpr ⟨ho, by simp⟩, htoken⟩
  obtain ⟨n, hn, rfl⟩ := List.getElem_of_mem hmem
  have hlength := hvalues.length_eq
  have hvalue := hvalues.get hn (hlength ▸ hn)
  exact Option.isSome_of_eq_some hvalue

end

/-- Each path leads to its value or to the array of its values, and there is nothing else, exactly
when JSON has the keys and the values. -/
theorem jsonLoadCli_loads_iff (toDouble : List Byte → BitVec 64) (program : List Byte) {opts : List CliOption}
    (hopts : ∀ o ∈ opts, o.WellFormed) (hfree : PrefixFree opts) :
    (∃ json, jsonLoadCli toDouble (program :: opts.flatMap CliOption.arguments) = some (some json) ∧
      Loads toDouble opts json) ↔ Expressible toDouble opts := by
  constructor
  · rintro ⟨json, -, hjson⟩
    exact hjson.expressible
  · exact fun h => ⟨_, jsonLoadCli_options program hopts, loads_of_expressible hopts hfree h⟩

/-- `strtod` for the texts of the examples: the one number is 1.5, and the other is infinite. -/
def exampleToDouble (text : List Byte) : BitVec 64 :=
  if text = word "1.5" then 0x3FF8000000000000#64 else 0x7FF0000000000000#64

/-- `--gain 1.5`, or any other token. -/
def gainOption (token : String) : CliOption := ⟨[word "gain"], [word token], false⟩

theorem gainOption_wellFormed {token : String} (h : word token ≠ [] ∧ ch ',' ∉ word token)
    (hvalue : ¬ word "--" <+: word token) : (gainOption token).WellFormed where
  keys_ne := List.cons_ne_nil _ _
  keys := by
    rw [gainOption, List.forall_mem_singleton]
    decide
  key := by
    unfold gainOption CliOption.key joined
    decide
  tokens_ne := List.cons_ne_nil _ _
  tokens := by
    rw [gainOption, List.forall_mem_singleton]
    exact h
  value := Or.inr hvalue

theorem prefixFree_singleton (o : CliOption) : PrefixFree [o] := by
  intro o₁ ho₁ o₂ ho₂ _
  rw [List.mem_singleton.mp ho₁, List.mem_singleton.mp ho₂]

/-- `--node.gain 1.5 --node.tags=a,b --node.tags 7` -/
def exampleOptions : List CliOption :=
  [⟨[word "node", word "gain"], [word "1.5"], false⟩,
    ⟨[word "node", word "tags"], [word "a", word "b"], true⟩,
    ⟨[word "node", word "tags"], [word "7"], false⟩]

theorem exampleOptions_wellFormed : ∀ o ∈ exampleOptions, o.WellFormed := by
  rw [exampleOptions, List.forall_mem_cons, List.forall_mem_cons, List.forall_mem_singleton]
  refine ⟨?_, ?_, ?_⟩ <;> constructor <;> decide

theorem jsonLoadCli_loads_example : ∃ json,
    jsonLoadCli exampleToDouble (word "villas" :: exampleOptions.flatMap CliOption.arguments) =
      some (some json) ∧ Loads exampleToDouble exampleOptions json := by
  refine (jsonLoadCli_loads_iff exampleToDouble (word "villas") exampleOptions_wellFormed ?_).mpr ?_
  · unfold PrefixFree
    decide
  · unfold Expressible
    decide

/-- An infinite gain is not set at all. -/
theorem jsonLoadCli_drops : (gainOption "inf").WellFormed ∧ PrefixFree [gainOption "inf"] ∧
    jsonLoadCli exampleToDouble [word "villas", word "--gain", word "inf"] = some (some (.object [])) ∧
    ¬ ∃ json, jsonLoadCli exampleToDouble (word "villas" :: [gainOption "inf"].flatMap CliOption.arguments) =
      some (some json) ∧ Loads exampleToDouble [gainOption "inf"] json := by
  have hwellFormed : (gainOption "inf").WellFormed := gainOption_wellFormed (by decide) (by decide)
  refine ⟨hwellFormed, prefixFree_singleton _, ?_, ?_⟩
  · exact @jsonLoadCli_options exampleToDouble [gainOption "inf"] (word "villas")
      (List.forall_mem_singleton.mpr hwellFormed)
  · rintro ⟨json, -, hjson⟩
    have hinf := (hjson.expressible _ (List.mem_singleton_self _)).2 (word "inf") (List.mem_singleton_self _)
    revert hinf
    decide

end VillasNode.ConfigHelper
