import Mathlib.Data.List.Nodup
import VillasNode.Lib.Jansson
import VillasNode.Lib.Libconfig

/-!
# Configurations as JSON

`config_to_json` and `json_to_config` of `lib/config_helper.cpp`, over any
faithful configuration trees.
-/

namespace VillasNode.ConfigHelper

open Jansson Libconfig

/-- A value of jansson. It has no real numbers that are not finite, and no strings with a NUL but
those that are parsed with `JSON_ALLOW_NUL`, which nothing sets. -/
inductive Json where
  | object (members : List (CString × Json))
  | array (elements : List Json)
  | string (value : CString)
  | integer (value : BitVec 64)
  | real (value : { v : BitVec 64 // finite v })
  | boolean (value : Bool)
  | null

def Json.typeof : Json → JsonType
  | .object _ => .object
  | .array _ => .array
  | .string _ => .string
  | .integer _ => .integer
  | .real _ => .real
  | .boolean b => if b then .true else .false
  | .null => .null

/-- Objects have each key once, and one that is a name for libconfig. There is no null. -/
inductive Json.Convertible : Json → Prop
  | object {members : List (CString × Json)} (hkeys : (members.map Prod.fst).Nodup)
      (hvalid : ∀ m ∈ members, validName m.1) (hmembers : ∀ m ∈ members, m.2.Convertible) :
      (object members).Convertible
  | array {elements : List Json} (helements : ∀ e ∈ elements, e.Convertible) :
      (array elements).Convertible
  | string (value : CString) : (string value).Convertible
  | integer (value : BitVec 64) : (integer value).Convertible
  | real (value : { v : BitVec 64 // finite v }) : (real value).Convertible
  | boolean (value : Bool) : (boolean value).Convertible

theorem Json.induct {motive : Json → Prop}
    (hobject : ∀ members, (∀ m ∈ members, motive m.2) → motive (.object members))
    (harray : ∀ elements, (∀ e ∈ elements, motive e) → motive (.array elements))
    (hstring : ∀ value, motive (.string value)) (hinteger : ∀ value, motive (.integer value))
    (hreal : ∀ value, motive (.real value)) (hboolean : ∀ value, motive (.boolean value))
    (hnull : motive .null) :
    ∀ json, motive json
  | .object members => hobject members fun m hm => by
    have := List.sizeOf_lt_of_mem hm
    have : sizeOf m.2 < sizeOf m := by
      obtain ⟨key, value⟩ := m
      simp
    exact induct hobject harray hstring hinteger hreal hboolean hnull m.2
  | .array elements => harray elements fun e he => by
    have := List.sizeOf_lt_of_mem he
    exact induct hobject harray hstring hinteger hreal hboolean hnull e
  | .string value => hstring value
  | .integer value => hinteger value
  | .real value => hreal value
  | .boolean value => hboolean value
  | .null => hnull

/-! ## From JSON -/

def jsonToConfigType : JsonType → SettingType
  | .object => .group
  | .array => .list
  | .string => .string
  | .integer => .int64
  | .real => .float
  | .true | .false | .null => .bool

section
variable {C S : Type} (api : Api C S)

mutual

/-- `none` when it reads the parent of a setting that was not added. -/
def jsonToConfig (c : C) (json : Json) (parent : S) : Option (C × Int) :=
  if (api.setting c parent).isRoot ∧ json.typeof ≠ .object then some (c, -1)
  else
    match json with
    | .object members => membersToConfig c members parent
    | .array elements => elementsToConfig c elements parent
    | .string value => some (api.setString c parent value, 0)
    | .integer value => some (api.setInt64 c parent value, 0)
    | .real value => some (api.setFloat c parent value.val, 0)
    | .boolean value => some (api.setBool c parent value, 0)
    | .null => some (api.setBool c parent false, 0)

def membersToConfig (c : C) (members : List (CString × Json)) (parent : S) : Option (C × Int) :=
  match members with
  | [] => some (c, 0)
  | (key, value) :: members =>
    match api.add c parent (some key) (jsonToConfigType value.typeof) with
    | none => none
    | some (c, cfg) =>
      match jsonToConfig c value cfg with
      | none => none
      | some (c, ret) => if ret ≠ 0 then some (c, ret) else membersToConfig c members parent

def elementsToConfig (c : C) (elements : List Json) (parent : S) : Option (C × Int) :=
  match elements with
  | [] => some (c, 0)
  | value :: elements =>
    match api.add c parent none (jsonToConfigType value.typeof) with
    | none => none
    | some (c, cfg) =>
      match jsonToConfig c value cfg with
      | none => none
      | some (c, ret) => if ret ≠ 0 then some (c, ret) else elementsToConfig c elements parent

end

/-! ## To JSON -/

/-- `NULL` for a number that is not finite. -/
def jsonReal (v : BitVec 64) : Option Json :=
  if h : finite v then some (.real ⟨v, h⟩) else none

def jsonArrayAppendNew (elements : List Json) (value : Option Json) : List Json :=
  match value with
  | none => elements
  | some value => elements ++ [value]

/-- The first member of this key gets the value, or there is a new one at the end. -/
def setMember (key : CString) (value : Json) : List (CString × Json) → List (CString × Json)
  | [] => [(key, value)]
  | (k, v) :: members => if k = key then (k, value) :: members else (k, v) :: setMember key value members

def jsonObjectSetNew (members : List (CString × Json)) (key : Option CString) (value : Option Json) :
    List (CString × Json) :=
  match key, value with
  | some key, some value => setMember key value members
  | _, _ => members

/-- The loop over the settings of an array or a list. -/
def elementsToJson (toJson : S → Option (Option Json)) :
    List S → List Json → Option (List Json)
  | [], json => some json
  | cfg :: cfgs, json =>
    (toJson cfg).bind fun value => elementsToJson toJson cfgs (jsonArrayAppendNew json value)

/-- The loop over the settings of a group. -/
def membersToJson (c : C) (toJson : S → Option (Option Json)) :
    List S → List (CString × Json) → Option (List (CString × Json))
  | [], json => some json
  | cfg :: cfgs, json =>
    (toJson cfg).bind fun value =>
      membersToJson c toJson cfgs (jsonObjectSetNew json (api.setting c cfg).name value)

/-- The recursion is over the depth of the tree. `none` when it is not enough. -/
def configToJson (c : C) : Nat → S → Option (Option Json)
  | 0, _ => none
  | depth + 1, cfg =>
    let setting := api.setting c cfg
    match setting.type with
    | .int => some (some (.integer (setting.int.signExtend 64)))
    | .int64 => some (some (.integer setting.int64))
    | .float => some (jsonReal setting.float)
    | .string => some (setting.string.map .string)
    | .bool => some (some (.boolean setting.bool))
    | .array | .list =>
      (elementsToJson (configToJson c depth) setting.elements []).map fun json => some (.array json)
    | .group =>
      (membersToJson api c (configToJson c depth) setting.elements []).map fun json => some (.object json)
    | .none => some (some (.object []))

end

/-! ## Which value a tree holds -/

section
variable {C S : Type}

mutual

/-- Below this setting the tree holds the value, in settings of `dom`. -/
def Holds (setting : S → Setting S) (dom : S → Prop) (json : Json) (s : S) : Prop :=
  dom s ∧ (setting s).type = jsonToConfigType json.typeof ∧
    match json with
    | .object members => HoldsMembers setting dom members (setting s).elements
    | .array elements => HoldsElements setting dom elements (setting s).elements
    | .string value => (setting s).string = some value
    | .integer value => (setting s).int64 = value
    | .real value => (setting s).float = value.val
    | .boolean value => (setting s).bool = value
    | .null => False

def HoldsMembers (setting : S → Setting S) (dom : S → Prop) (members : List (CString × Json))
    (qs : List S) : Prop :=
  match members, qs with
  | [], [] => True
  | (key, value) :: members, q :: qs =>
    (setting q).name = some key ∧ Holds setting dom value q ∧ HoldsMembers setting dom members qs
  | _, _ => False

def HoldsElements (setting : S → Setting S) (dom : S → Prop) (elements : List Json) (qs : List S) : Prop :=
  match elements, qs with
  | [], [] => True
  | value :: elements, q :: qs => Holds setting dom value q ∧ HoldsElements setting dom elements qs
  | _, _ => False

end

variable {setting setting' : S → Setting S} {dom dom' : S → Prop}

mutual

theorem Holds.frame (hagree : ∀ q, dom q → dom' q ∧ setting' q = setting q) (json : Json) {s : S}
    (h : Holds setting dom json s) : Holds setting' dom' json s := by
  unfold Holds at h ⊢
  obtain ⟨hdom, htype, hvalue⟩ := h
  obtain ⟨hdom', heq⟩ := hagree s hdom
  rw [heq]
  refine ⟨hdom', htype, ?_⟩
  match json with
  | .object members => exact HoldsMembers.frame hagree members hvalue
  | .array elements => exact HoldsElements.frame hagree elements hvalue
  | .string _ | .integer _ | .real _ | .boolean _ => exact hvalue
  | .null => exact hvalue

theorem HoldsMembers.frame (hagree : ∀ q, dom q → dom' q ∧ setting' q = setting q)
    (members : List (CString × Json)) {qs : List S} (h : HoldsMembers setting dom members qs) :
    HoldsMembers setting' dom' members qs := by
  match members, qs with
  | [], [] => trivial
  | (key, value) :: members, q :: qs =>
    unfold HoldsMembers at h ⊢
    obtain ⟨hname, hvalue, hmembers⟩ := h
    have hdom : dom q := by
      unfold Holds at hvalue
      exact hvalue.1
    rw [(hagree q hdom).2]
    exact ⟨hname, Holds.frame hagree value hvalue, HoldsMembers.frame hagree members hmembers⟩

theorem HoldsElements.frame (hagree : ∀ q, dom q → dom' q ∧ setting' q = setting q)
    (elements : List Json) {qs : List S} (h : HoldsElements setting dom elements qs) :
    HoldsElements setting' dom' elements qs := by
  match elements, qs with
  | [], [] => trivial
  | value :: elements, q :: qs =>
    unfold HoldsElements at h ⊢
    exact ⟨Holds.frame hagree value h.1, HoldsElements.frame hagree elements h.2⟩

end

end

/-! ## What is read -/

theorem setMember_new {key : CString} {value : Json} {members : List (CString × Json)}
    (hnew : key ∉ members.map Prod.fst) : setMember key value members = members ++ [(key, value)] := by
  induction members with
  | nil => rfl
  | cons member members ih =>
    rw [List.map_cons, List.mem_cons, not_or] at hnew
    rw [setMember, if_neg (Ne.symm hnew.1), ih hnew.2]
    rfl

theorem Json.type_boolean (b : Bool) : jsonToConfigType (boolean b).typeof = .bool := by
  cases b <;> rfl

section
variable {C S : Type} {api : Api C S} {c : C} {dom : S → Prop}

/-- From some depth on, this is what is read. -/
def Reads (api : Api C S) (c : C) (s : S) (json : Json) : Prop :=
  ∃ n, ∀ depth ≥ n, configToJson api c depth s = some (some json)

theorem elementsToJson_holds {elements : List Json} {qs : List S}
    (ih : ∀ e ∈ elements, ∀ s, Holds (api.setting c) dom e s → Reads api c s e)
    (h : HoldsElements (api.setting c) dom elements qs) :
    ∃ n, ∀ depth ≥ n, ∀ json, elementsToJson (configToJson api c depth) qs json = some (json ++ elements) := by
  induction elements generalizing qs with
  | nil =>
    cases qs with
    | nil => exact ⟨0, fun _ _ json => by rw [elementsToJson, List.append_nil]⟩
    | cons => exact absurd h (by simp [HoldsElements])
  | cons value elements ihelements =>
    cases qs with
    | nil => exact absurd h (by simp [HoldsElements])
    | cons q qs =>
      unfold HoldsElements at h
      obtain ⟨n, hn⟩ := ih value (by simp) q h.1
      obtain ⟨m, hm⟩ := ihelements (fun e he => ih e (by simp [he])) h.2
      refine ⟨max n m, fun depth hdepth json => ?_⟩
      rw [elementsToJson, hn depth (Nat.le_trans (Nat.le_max_left n m) hdepth), Option.bind_some,
        hm depth (Nat.le_trans (Nat.le_max_right n m) hdepth), jsonArrayAppendNew, List.append_assoc]
      rfl

theorem membersToJson_holds {members : List (CString × Json)} {qs : List S}
    (ih : ∀ m ∈ members, ∀ s, Holds (api.setting c) dom m.2 s → Reads api c s m.2)
    (h : HoldsMembers (api.setting c) dom members qs) :
    ∃ n, ∀ depth ≥ n, ∀ json, ((json ++ members).map Prod.fst).Nodup →
      membersToJson api c (configToJson api c depth) qs json = some (json ++ members) := by
  induction members generalizing qs with
  | nil =>
    cases qs with
    | nil => exact ⟨0, fun _ _ json _ => by rw [membersToJson, List.append_nil]⟩
    | cons => exact absurd h (by simp [HoldsMembers])
  | cons member members ihmembers =>
    obtain ⟨key, value⟩ := member
    cases qs with
    | nil => exact absurd h (by simp [HoldsMembers])
    | cons q qs =>
      unfold HoldsMembers at h
      obtain ⟨hname, hvalue, hmembers⟩ := h
      obtain ⟨n, hn⟩ := ih (key, value) (by simp) q hvalue
      obtain ⟨m, hm⟩ := ihmembers (fun e he => ih e (by simp [he])) hmembers
      refine ⟨max n m, fun depth hdepth json hkeys => ?_⟩
      have hnew : key ∉ json.map Prod.fst := by
        rw [List.map_append, List.map_cons] at hkeys
        exact fun hmem => (List.nodup_middle.mp hkeys).notMem (List.mem_append_left _ hmem)
      rw [List.append_cons] at hkeys ⊢
      rw [membersToJson, hn depth (Nat.le_trans (Nat.le_max_left n m) hdepth), Option.bind_some, hname, jsonObjectSetNew,
        setMember_new hnew, hm depth (Nat.le_trans (Nat.le_max_right n m) hdepth) _ hkeys]

theorem Reads.of_succ {s : S} {json : Json} (n : Nat)
    (h : ∀ depth ≥ n, configToJson api c (depth + 1) s = some (some json)) : Reads api c s json := by
  refine ⟨n + 1, fun depth hdepth => ?_⟩
  cases depth with
  | zero => omega
  | succ depth => exact h depth (by omega)

theorem Holds.reads {json : Json} (hjson : json.Convertible) {s : S} (h : Holds (api.setting c) dom json s) :
    Reads api c s json := by
  induction hjson generalizing s with
  | object hkeys _ _ ih =>
    unfold Holds at h
    obtain ⟨-, htype, hmembers⟩ := h
    obtain ⟨n, hn⟩ := membersToJson_holds ih hmembers
    refine .of_succ n fun depth hdepth => ?_
    unfold configToJson
    dsimp only
    rw [show (api.setting c s).type = .group from htype]
    dsimp only
    rw [hn depth hdepth [] (by simpa using hkeys)]
    rfl
  | array _ ih =>
    unfold Holds at h
    obtain ⟨-, htype, helements⟩ := h
    obtain ⟨n, hn⟩ := elementsToJson_holds ih helements
    refine .of_succ n fun depth hdepth => ?_
    unfold configToJson
    dsimp only
    rw [show (api.setting c s).type = .list from htype]
    dsimp only
    rw [hn depth hdepth []]
    rfl
  | string value =>
    unfold Holds at h
    obtain ⟨-, htype, hvalue⟩ := h
    refine .of_succ 0 fun depth _ => ?_
    unfold configToJson
    dsimp only at hvalue ⊢
    rw [show (api.setting c s).type = .string from htype, hvalue]
    rfl
  | integer value =>
    unfold Holds at h
    obtain ⟨-, htype, hvalue⟩ := h
    refine .of_succ 0 fun depth _ => ?_
    unfold configToJson
    dsimp only at hvalue ⊢
    rw [show (api.setting c s).type = .int64 from htype, hvalue]
  | real value =>
    unfold Holds at h
    obtain ⟨-, htype, hvalue⟩ := h
    refine .of_succ 0 fun depth _ => ?_
    unfold configToJson
    dsimp only at hvalue ⊢
    rw [show (api.setting c s).type = .float from htype, hvalue]
    exact congrArg some (dif_pos value.property)
  | boolean value =>
    unfold Holds at h
    obtain ⟨-, htype, hvalue⟩ := h
    refine .of_succ 0 fun depth _ => ?_
    unfold configToJson
    dsimp only at hvalue ⊢
    rw [htype.trans (Json.type_boolean value), hvalue]

end

/-! ## What is built -/

section
variable {C S : Type} {api : Api C S} {live : C → S → Prop} {c c₁ c₂ : C} {p s : S}

/-- A setting that `json_to_config` is called with for this value. -/
structure Fits (api : Api C S) (live : C → S → Prop) (c : C) (json : Json) (s : S) : Prop where
  live : live c s
  type : (api.setting c s).type = jsonToConfigType json.typeof
  elements : (api.setting c s).elements = []
  root : (api.setting c s).isRoot = true → json.typeof = .object

/-- The value is built below the setting, from settings that were not there before. -/
structure Built (api : Api C S) (live : C → S → Prop) (c c' : C) (json : Json) (s : S) : Prop where
  grows : ∀ q, live c q → live c' q
  others : ∀ q, live c q → q ≠ s → api.setting c' q = api.setting c q
  name : (api.setting c' s).name = (api.setting c s).name
  holds : Holds (api.setting c') (fun q => live c' q ∧ (live c q → q = s)) json s

/-- These settings are added to the parent, with all that is below them. -/
structure Filled (api : Api C S) (live : C → S → Prop) (c c' : C) (p : S) (new : List S) : Prop where
  grows : ∀ q, live c q → live c' q
  others : ∀ q, live c q → q ≠ p → api.setting c' q = api.setting c q
  parent : api.setting c' p = { api.setting c p with elements := (api.setting c p).elements ++ new }

theorem Filled.refl (c : C) (p : S) : Filled api live c c p [] :=
  ⟨fun _ => id, fun _ _ _ => rfl, by rw [List.append_nil]⟩

theorem Filled.trans {as bs : List S} (h₁ : Filled api live c c₁ p as) (h₂ : Filled api live c₁ c₂ p bs) :
    Filled api live c c₂ p (as ++ bs) where
  grows q hq := h₂.grows q (h₁.grows q hq)
  others q hq hne := (h₂.others q (h₁.grows q hq) hne).trans (h₁.others q hq hne)
  parent := by
    rw [h₂.parent, h₁.parent, List.append_assoc]

theorem Filled.agree {new : List S} (hp : live c p) (h : Filled api live c₁ c₂ p new) (q : S)
    (hq : live c₁ q ∧ ¬ live c q) : (live c₂ q ∧ ¬ live c q) ∧ api.setting c₂ q = api.setting c₁ q := by
  refine ⟨⟨h.grows q hq.1, hq.2⟩, h.others q hq.1 ?_⟩
  rintro rfl
  exact hq.2 hp

/-- What the induction says of a value. -/
def Builds (api : Api C S) (live : C → S → Prop) (json : Json) : Prop :=
  ∀ c s, Fits api live c json s → ∃ c', jsonToConfig api c json s = some (c', 0) ∧ Built api live c c' json s

theorem Builds.child {value : Json} (hvalue : Builds api live value) (hapi : api.Faithful live) (hp : live c p)
    {name : Option CString} (hadd : api.Addable c p name) :
    ∃ c₁ s c₂, api.add c p name (jsonToConfigType value.typeof) = some (c₁, s) ∧
      jsonToConfig api c₁ value s = some (c₂, 0) ∧ Filled api live c c₂ p [s] ∧ ¬ live c s ∧ live c₂ s ∧
      (api.setting c₂ s).name = name ∧
      Holds (api.setting c₂) (fun q => live c₂ q ∧ ¬ live c q) value s := by
  obtain ⟨c₁, s, hc₁, hfresh, hlive, hs, hparent, hothers⟩ :=
    hapi.add c p name (jsonToConfigType value.typeof) hp hadd
  have hfits : Fits api live c₁ value s := by
    refine ⟨(hlive s).mpr (.inr rfl), ?_, ?_, ?_⟩
    all_goals rw [hs]
    · rfl
    · rfl
    · intro hroot
      cases hroot
  obtain ⟨c₂, hc₂, hbuilt⟩ := hvalue c₁ s hfits
  have hne : p ≠ s := by
    rintro rfl
    exact hfresh hp
  refine ⟨c₁, s, c₂, hc₁, hc₂, ⟨fun q hq => ?_, fun q hq hqp => ?_, ?_⟩, hfresh, ?_, ?_, ?_⟩
  · exact hbuilt.grows q ((hlive q).mpr (.inl hq))
  · rw [hbuilt.others q ((hlive q).mpr (.inl hq)) (fun hqs => hfresh (hqs ▸ hq)), hothers q hq hqp]
  · rw [hbuilt.others p ((hlive p).mpr (.inl hp)) hne, hparent]
  · exact hbuilt.grows s hfits.live
  · rw [hbuilt.name, hs]
    rfl
  · refine Holds.frame (fun q hq => ⟨⟨hq.1, fun hold => ?_⟩, rfl⟩) value hbuilt.holds
    exact hfresh (hq.2 ((hlive q).mpr (.inl hold)) ▸ hold)

theorem elementsToConfig_spec (hapi : api.Faithful live) {elements : List Json}
    (ih : ∀ e ∈ elements, Builds api live e) (hp : live c p) (htype : (api.setting c p).type = .list) :
    ∃ c' new, elementsToConfig api c elements p = some (c', 0) ∧ Filled api live c c' p new ∧
      HoldsElements (api.setting c') (fun q => live c' q ∧ ¬ live c q) elements new := by
  induction elements generalizing c with
  | nil => exact ⟨c, [], rfl, .refl c p, by simp [HoldsElements]⟩
  | cons value elements ihelements =>
    obtain ⟨c₁, s, c₂, hadd, hjson, hfilled, hfresh, hlive, -, hholds⟩ :=
      (ih value (by simp)).child hapi hp (.inl ⟨htype, rfl⟩)
    obtain ⟨c', new, hrest, hfilled', hholds'⟩ :=
      ihelements (fun e he => ih e (by simp [he])) (hfilled.grows p hp) (by rw [hfilled.parent]; exact htype)
    refine ⟨c', s :: new, ?_, hfilled.trans hfilled', ?_⟩
    · unfold elementsToConfig
      rw [hadd]
      dsimp only
      rw [hjson]
      exact hrest
    · unfold HoldsElements
      refine ⟨Holds.frame (hfilled'.agree hp) value hholds, HoldsElements.frame ?_ elements hholds'⟩
      exact fun q hq => ⟨⟨hq.1, fun hold => hq.2 (hfilled.grows q hold)⟩, rfl⟩

theorem membersToConfig_spec (hapi : api.Faithful live) {members : List (CString × Json)}
    (ih : ∀ m ∈ members, Builds api live m.2) (hkeys : (members.map Prod.fst).Nodup)
    (hvalid : ∀ m ∈ members, validName m.1) (hp : live c p) (htype : (api.setting c p).type = .group)
    (hold : ∀ e ∈ (api.setting c p).elements, live c e ∧ e ≠ p ∧
      ∀ m ∈ members, (api.setting c e).name ≠ some m.1) :
    ∃ c' new, membersToConfig api c members p = some (c', 0) ∧ Filled api live c c' p new ∧
      HoldsMembers (api.setting c') (fun q => live c' q ∧ ¬ live c q) members new := by
  induction members generalizing c with
  | nil => exact ⟨c, [], rfl, .refl c p, by simp [HoldsMembers]⟩
  | cons member members ihmembers =>
    obtain ⟨key, value⟩ := member
    rw [List.map_cons, List.nodup_cons] at hkeys
    obtain ⟨c₁, s, c₂, hadd, hjson, hfilled, hfresh, hlive, hname, hholds⟩ :=
      @Builds.child _ _ _ _ c p value (ih (key, value) (by simp)) hapi hp (some key)
        (.inr ⟨htype, key, rfl, hvalid (key, value) (by simp), fun e he => (hold e he).2.2 (key, value) (by simp)⟩)
    have hold' : ∀ e ∈ (api.setting c₂ p).elements, live c₂ e ∧ e ≠ p ∧
        ∀ m ∈ members, (api.setting c₂ e).name ≠ some m.1 := by
      rw [hfilled.parent]
      intro e he
      rcases List.mem_append.mp he with he | he
      · obtain ⟨hlive', hne, hnames⟩ := hold e he
        rw [hfilled.others e hlive' hne]
        exact ⟨hfilled.grows e hlive', hne, fun m hm => hnames m (by simp [hm])⟩
      · cases List.mem_singleton.mp he
        rw [hname]
        refine ⟨hlive, fun h => hfresh (h ▸ hp), fun m hm hkey => hkeys.1 ?_⟩
        cases hkey
        exact List.mem_map.mpr ⟨m, hm, rfl⟩
    obtain ⟨c', new, hrest, hfilled', hholds'⟩ :=
      ihmembers (fun m hm => ih m (by simp [hm])) hkeys.2 (fun m hm => hvalid m (by simp [hm]))
        (hfilled.grows p hp) (by rw [hfilled.parent]; exact htype) hold'
    refine ⟨c', s :: new, ?_, hfilled.trans hfilled', ?_⟩
    · unfold membersToConfig
      rw [hadd]
      dsimp only
      rw [hjson]
      exact hrest
    · unfold HoldsMembers
      refine ⟨?_, Holds.frame (hfilled'.agree hp) value hholds, HoldsMembers.frame ?_ members hholds'⟩
      · rw [(hfilled'.agree hp s ⟨hlive, hfresh⟩).2]
        exact hname
      · exact fun q hq => ⟨⟨hq.1, fun hold => hq.2 (hfilled.grows q hold)⟩, rfl⟩

theorem Fits.not_refused {json : Json} (h : Fits api live c json s) :
    ¬ ((api.setting c s).isRoot ∧ json.typeof ≠ .object) :=
  fun hrefused => hrefused.2 (h.root hrefused.1)

theorem Fits.stores {json : Json} {c' : C} {new : Setting S} (h : Fits api live c json s)
    (hconfig : jsonToConfig api c json s =
      if (api.setting c s).isRoot ∧ json.typeof ≠ .object then some (c, -1) else some (c', 0))
    (hstores : api.Stores live c c' s new) (hname : new.name = (api.setting c s).name)
    (hholds : ∀ setting : S → Setting S, setting s = new → ∀ dom : S → Prop, dom s →
      Holds setting dom json s) :
    ∃ c', jsonToConfig api c json s = some (c', 0) ∧ Built api live c c' json s := by
  refine ⟨c', hconfig.trans (if_neg h.not_refused), fun q hq => ?_, hstores.others, ?_, ?_⟩
  · exact (hstores.kept q).mpr hq
  · rw [hstores.stored, hname]
  · exact hholds _ hstores.stored _ ⟨(hstores.kept s).mpr h.live, fun _ => rfl⟩

theorem Fits.fills {json : Json} {c' : C} {new : List S} (h : Fits api live c json s)
    (hconfig : jsonToConfig api c json s =
      if (api.setting c s).isRoot ∧ json.typeof ≠ .object then some (c, -1) else some (c', 0))
    (hfilled : Filled api live c c' s new)
    (hholds : (api.setting c' s).type = jsonToConfigType json.typeof → (api.setting c' s).elements = new →
      Holds (api.setting c') (fun q => live c' q ∧ (live c q → q = s)) json s) :
    ∃ c', jsonToConfig api c json s = some (c', 0) ∧ Built api live c c' json s := by
  refine ⟨c', hconfig.trans (if_neg h.not_refused), hfilled.grows, hfilled.others, ?_, hholds ?_ ?_⟩
  · rw [hfilled.parent]
  · rw [hfilled.parent]
    exact h.type
  · rw [hfilled.parent, h.elements]
    rfl

theorem new_or_parent (q : S) (hq : live c₁ q ∧ ¬ live c q) :
    (live c₁ q ∧ (live c q → q = p)) ∧ api.setting c₁ q = api.setting c₁ q :=
  ⟨⟨hq.1, fun hold => absurd hold hq.2⟩, rfl⟩

theorem Json.Convertible.builds {json : Json} (hapi : api.Faithful live) (hjson : json.Convertible) :
    Builds api live json := by
  induction hjson with
  | object hkeys hvalid _ ih =>
    intro c s hfits
    obtain ⟨c', new, hconfig, hfilled, hholds⟩ := membersToConfig_spec hapi ih hkeys hvalid hfits.live
      hfits.type (by simp [hfits.elements])
    refine hfits.fills ?_ hfilled fun htype hnew => ?_
    · unfold jsonToConfig
      rw [← hconfig]
    · unfold Holds
      dsimp only
      rw [hnew]
      exact ⟨⟨hfilled.grows s hfits.live, fun _ => rfl⟩, htype,
        HoldsMembers.frame new_or_parent _ hholds⟩
  | array _ ih =>
    intro c s hfits
    obtain ⟨c', new, hconfig, hfilled, hholds⟩ := elementsToConfig_spec hapi ih hfits.live hfits.type
    refine hfits.fills ?_ hfilled fun htype hnew => ?_
    · unfold jsonToConfig
      rw [← hconfig]
    · unfold Holds
      dsimp only
      rw [hnew]
      exact ⟨⟨hfilled.grows s hfits.live, fun _ => rfl⟩, htype,
        HoldsElements.frame new_or_parent _ hholds⟩
  | string value =>
    intro c s hfits
    refine hfits.stores ?_ (hapi.setString c s value hfits.live hfits.type) rfl ?_
    · unfold jsonToConfig
      rfl
    · intro setting heq dom hdom
      unfold Holds
      rw [heq]
      exact ⟨hdom, hfits.type, rfl⟩
  | integer value =>
    intro c s hfits
    refine hfits.stores ?_ (hapi.setInt64 c s value hfits.live hfits.type) rfl ?_
    · unfold jsonToConfig
      rfl
    · intro setting heq dom hdom
      unfold Holds
      rw [heq]
      exact ⟨hdom, hfits.type, rfl⟩
  | real value =>
    intro c s hfits
    refine hfits.stores ?_ (hapi.setFloat c s value.val hfits.live hfits.type) rfl ?_
    · unfold jsonToConfig
      rfl
    · intro setting heq dom hdom
      unfold Holds
      rw [heq]
      exact ⟨hdom, hfits.type, rfl⟩
  | boolean value =>
    intro c s hfits
    have htype := hfits.type.trans (Json.type_boolean value)
    refine hfits.stores ?_ (hapi.setBool c s value hfits.live htype) rfl ?_
    · unfold jsonToConfig
      rfl
    · intro setting heq dom hdom
      unfold Holds
      rw [heq]
      exact ⟨hdom, hfits.type, rfl⟩

/-- From some depth on, what is read is the object that was put below the root. -/
theorem config_roundTrip (hapi : api.Faithful live) {root : S} (hroot : live c root)
    (hgroup : (api.setting c root).type = .group) (hempty : (api.setting c root).elements = [])
    {members : List (CString × Json)} (hjson : (Json.object members).Convertible) :
    ∃ c', jsonToConfig api c (.object members) root = some (c', 0) ∧
      ∃ n, ∀ depth ≥ n, configToJson api c' depth root = some (some (.object members)) := by
  obtain ⟨c', hconfig, hbuilt⟩ := hjson.builds hapi c root ⟨hroot, hgroup, hempty, fun _ => rfl⟩
  exact ⟨c', hconfig, hbuilt.holds.reads hjson⟩

end

/-- `{"a": [1, 2.5, {"b": "a"}], "b": true}` -/
def exampleMembers : List (CString × Json) :=
  let a : CString := ⟨"a", by decide⟩
  let b : CString := ⟨"b", by decide⟩
  [(a, .array [.integer 1, .real ⟨0x4004000000000000, by decide⟩, .object [(b, .string a)]]),
    (b, .boolean true)]

theorem exampleMembers_convertible : (Json.object exampleMembers).Convertible := by
  have hinner (a b : CString) (hb : validName b) : (Json.object [(b, .string a)]).Convertible := by
    refine .object (List.nodup_singleton b) ?_ ?_
    · simpa using hb
    · simpa using .string a
  refine .object (by decide) (by decide) ?_
  simp only [exampleMembers, List.mem_cons, List.not_mem_nil, or_false]
  rintro m (rfl | rfl)
  · refine .array ?_
    simp only [List.mem_cons, List.not_mem_nil, or_false]
    rintro e (rfl | rfl | rfl)
    · exact .integer 1
    · exact .real _
    · exact hinner _ _ (by decide)
  · exact .boolean true

/-- A tree with nothing but its root. -/
def emptyStore : Store := [{ Setting.fresh none .group with isRoot := true }]

theorem config_roundTrip_emptyStore :
    ∃ c', jsonToConfig Store.api emptyStore (.object exampleMembers) 0 = some (c', 0) ∧
      ∃ n, ∀ depth ≥ n, configToJson Store.api c' depth 0 = some (some (.object exampleMembers)) :=
  @config_roundTrip _ _ _ _ emptyStore Store.faithful_api 0 Nat.zero_lt_one rfl rfl _ exampleMembers_convertible

end VillasNode.ConfigHelper
