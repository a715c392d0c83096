import VillasNode.Config.EnvVars
import VillasNode.Lib.Inclusion

/-!
# Included configurations

`Config::load` and `Config::resolveIncludes` of `lib/config.cpp`. A file stays
open while those that it includes are loaded, so that the number of descriptors
bounds how deep the inclusions go. The standard input is no file here.
-/

namespace VillasNode.ConfigHelper

open ByteOrder CText Libconfig Members Strto

/-! ## The code -/

/-- What is decoded of a file is an object or an array. -/
def Json.isContainer : Json → Bool
  | .object _ => true
  | .array _ => true
  | _ => false

structure Document where
  root : Json
  keyed : root.Keyed
  container : root.isContainer

/-- `@include ` -/
def kw : List Byte := "@include ".toList.map ch

/-- What is behind the keyword of a text that begins with it. -/
def includePath (str : CString) : Option (List Byte) :=
  if kw <+: bytes str then some ((bytes str).drop kw.length) else none

/-- `none` when a file cannot be loaded. -/
def resolveIncludes (load : List Byte → Option (Option Json)) (root : Json) : Option (Option Json) :=
  walkStrings (fun str =>
    match includePath str with
    | none => some (some (.string str))
    | some path => (load path).bind fun incl => incl.map some) root

section
variable (files : List Byte → Option Document) (getenv : List Byte → Option (List Byte))

/-- With so many descriptors left. In each string up to `turns` variables are replaced. -/
def load (turns : Nat) : Nat → List Byte → Option (Option Json)
  | 0, _ => none
  | descriptors + 1, u =>
    (files u).bind fun doc =>
      (resolveIncludes (load turns descriptors) doc.root).bind fun root =>
        root.bind (expandEnvVars getenv (turns + 1))

end

/-! ## Trees in the places of strings -/

section
variable (g : CString → Option Json)

mutual

/-- Each string becomes a tree, or goes. -/
def Json.graft : Json → Option Json
  | .string value => g value
  | .object members => some (.object (graftMembers members))
  | .array elements => some (.array (graftElements elements))
  | json => some json

def graftMembers : List (CString × Json) → List (CString × Json)
  | [] => []
  | (key, value) :: members =>
    match value.graft with
    | none => graftMembers members
    | some value => (key, value) :: graftMembers members

def graftElements : List Json → List Json
  | [] => []
  | value :: elements =>
    match value.graft with
    | none => graftElements elements
    | some value => value :: graftElements elements

end

end

section
variable {g h : CString → Option Json} {cb cb' : CString → Option (Option Json)} {json json' : Json}
  {s : CString}

theorem graftMembers_cons (m : CString × Json) (members : List (CString × Json)) :
    graftMembers g (m :: members) = match m.2.graft g with
      | none => graftMembers g members
      | some value => (m.1, value) :: graftMembers g members := rfl

theorem graftElements_cons (value : Json) (elements : List Json) :
    graftElements g (value :: elements) = match value.graft g with
      | none => graftElements g elements
      | some value => value :: graftElements g elements := rfl

theorem graftMembers_eq (members : List (CString × Json)) :
    graftMembers g members = members.filterMap fun m => (m.2.graft g).map (Prod.mk m.1) := by
  induction members with
  | nil => rfl
  | cons m members ih =>
    rw [graftMembers_cons, ih]
    cases hm : m.2.graft g <;> simp [hm]

theorem graftMembers_keys (members : List (CString × Json)) :
    ((graftMembers g members).map Prod.fst).Sublist (members.map Prod.fst) := by
  induction members with
  | nil => exact .slnil
  | cons m members ih =>
    rw [graftMembers_cons]
    cases m.2.graft g with
    | none => exact ih.cons _
    | some t => exact ih.cons_cons _

theorem graftElements_eq (elements : List Json) :
    graftElements g elements = elements.filterMap (Json.graft g) := by
  induction elements with
  | nil => rfl
  | cons value elements ih =>
    rw [graftElements_cons, ih]
    cases hvalue : value.graft g <;> simp [hvalue]

theorem graft_object (members : List (CString × Json)) : (Json.object members).graft g =
    some (.object (members.filterMap fun m => (m.2.graft g).map (Prod.mk m.1))) := by
  rw [← graftMembers_eq]
  rfl

theorem graft_array (elements : List Json) :
    (Json.array elements).graft g = some (.array (elements.filterMap (Json.graft g))) := by
  rw [← graftElements_eq]
  rfl

theorem mem_strings_object {members : List (CString × Json)} :
    s ∈ (Json.object members).strings ↔ ∃ m ∈ members, s ∈ m.2.strings := by
  rw [Json.strings, stringsOfMembers_eq, List.mem_flatMap]

theorem mem_strings_array {elements : List Json} :
    s ∈ (Json.array elements).strings ↔ ∃ e ∈ elements, s ∈ e.strings := by
  rw [Json.strings, stringsOfElements_eq, List.mem_flatMap]

theorem graft_congr (hgh : ∀ s ∈ json.strings, g s = h s) : json.graft g = json.graft h := by
  induction json using Json.induct with
  | hobject members ih =>
    rw [graft_object, graft_object]
    congr 2
    apply List.filterMap_congr
    intro m hm
    rw [ih m hm fun s hs => hgh s (mem_strings_object.2 ⟨m, hm, hs⟩)]
  | harray elements ih =>
    rw [graft_array, graft_array]
    congr 2
    apply List.filterMap_congr
    intro e he
    rw [ih e he fun s hs => hgh s (mem_strings_array.2 ⟨e, he, hs⟩)]
  | hstring value => exact hgh value (by simp [Json.strings])
  | _ => rfl

theorem graft_string : json.graft (fun s => some (.string s)) = some json := by
  induction json using Json.induct with
  | hobject members ih =>
    rw [graft_object]
    congr 2
    conv => rhs; rw [← List.filterMap_some (l := members)]
    apply List.filterMap_congr
    intro m hm
    rw [ih m hm]
    rfl
  | harray elements ih =>
    rw [graft_array]
    congr 2
    conv => rhs; rw [← List.filterMap_some (l := elements)]
    exact List.filterMap_congr ih
  | _ => rfl

theorem graft_graft : (json.graft h).bind (Json.graft g) = json.graft fun s => (h s).bind (Json.graft g) := by
  induction json using Json.induct with
  | hobject members ih =>
    simp only [graft_object, Option.bind_some, List.filterMap_filterMap]
    congr 2
    apply List.filterMap_congr
    intro m hm
    rw [← ih m hm]
    cases m.2.graft h <;> rfl
  | harray elements ih =>
    simp only [graft_array, Option.bind_some, List.filterMap_filterMap]
    congr 2
    exact List.filterMap_congr ih
  | _ => rfl

theorem graft_isSome (hs : s ∈ json.strings) (hg : (g s).isSome) : (json.graft g).isSome := by
  cases json with
  | string value =>
    obtain rfl := List.mem_singleton.mp hs
    exact hg
  | _ => rfl

theorem mem_strings_graft (hjson : json.graft g = some json') :
    s ∈ json'.strings ↔ ∃ s' ∈ json.strings, ∃ t, g s' = some t ∧ s ∈ t.strings := by
  induction json using Json.induct generalizing json' with
  | hobject members ih =>
    rw [graft_object] at hjson
    obtain rfl := Option.some.inj hjson
    rw [mem_strings_object]
    constructor
    · rintro ⟨m', hm', hs⟩
      obtain ⟨m, hm, hmap⟩ := List.mem_filterMap.mp hm'
      obtain ⟨value, hvalue, rfl⟩ := Option.map_eq_some_iff.mp hmap
      obtain ⟨s', hs', t, ht⟩ := (ih m hm hvalue).mp hs
      exact ⟨s', mem_strings_object.2 ⟨m, hm, hs'⟩, t, ht⟩
    · rintro ⟨s', hs', t, hg, hs⟩
      obtain ⟨m, hm, hs'⟩ := mem_strings_object.1 hs'
      obtain ⟨value, hvalue⟩ := Option.isSome_iff_exists.mp (graft_isSome hs' (Option.isSome_of_eq_some hg))
      refine ⟨(m.1, value), List.mem_filterMap.mpr ⟨m, hm, by rw [hvalue]; rfl⟩, ?_⟩
      exact (ih m hm hvalue).mpr ⟨s', hs', t, hg, hs⟩
  | harray elements ih =>
    rw [graft_array] at hjson
    obtain rfl := Option.some.inj hjson
    rw [mem_strings_array]
    constructor
    · rintro ⟨e', he', hs⟩
      obtain ⟨e, he, hvalue⟩ := List.mem_filterMap.mp he'
      obtain ⟨s', hs', t, ht⟩ := (ih e he hvalue).mp hs
      exact ⟨s', mem_strings_array.2 ⟨e, he, hs'⟩, t, ht⟩
    · rintro ⟨s', hs', t, hg, hs⟩
      obtain ⟨e, he, hs'⟩ := mem_strings_array.1 hs'
      obtain ⟨value, hvalue⟩ := Option.isSome_iff_exists.mp (graft_isSome hs' (Option.isSome_of_eq_some hg))
      exact ⟨value, List.mem_filterMap.mpr ⟨e, he, hvalue⟩, (ih e he hvalue).mpr ⟨s', hs', t, hg, hs⟩⟩
  | hstring value =>
    rw [Json.graft] at hjson
    simp [Json.strings, hjson]
  | _ =>
    obtain rfl := Option.some.inj hjson
    simp [Json.strings]

theorem Json.Keyed.graft (hjson : json.Keyed) (hg : ∀ s ∈ json.strings, ∀ t, g s = some t → t.Keyed)
    (hgraft : json.graft g = some json') : json'.Keyed := by
  induction hjson generalizing json' with
  | @object members hkeys _ ih =>
    rw [graft_object] at hgraft
    obtain rfl := Option.some.inj hgraft
    refine .object (hkeys.sublist (graftMembers_eq members ▸ graftMembers_keys members)) fun m' hm' => ?_
    obtain ⟨m, hm, hmap⟩ := List.mem_filterMap.mp hm'
    obtain ⟨value, hvalue, rfl⟩ := Option.map_eq_some_iff.mp hmap
    exact ih m hm (fun s hs => hg s (mem_strings_object.2 ⟨m, hm, hs⟩)) hvalue
  | @array elements _ ih =>
    rw [graft_array] at hgraft
    obtain rfl := Option.some.inj hgraft
    refine .array fun e' he' => ?_
    obtain ⟨e, he, hvalue⟩ := List.mem_filterMap.mp he'
    exact ih e he (fun s hs => hg s (mem_strings_array.2 ⟨e, he, hs⟩)) hvalue
  | string value => exact hg value (List.mem_singleton_self value) _ hgraft
  | integer value =>
    obtain rfl := Option.some.inj hgraft
    exact .integer value
  | real value =>
    obtain rfl := Option.some.inj hgraft
    exact .real value
  | boolean value =>
    obtain rfl := Option.some.inj hgraft
    exact .boolean value
  | null =>
    obtain rfl := Option.some.inj hgraft
    exact .null

theorem isContainer_graft (hjson : json.isContainer) :
    ∃ json', json.graft g = some json' ∧ json'.isContainer := by
  cases json with
  | object members => exact ⟨_, rfl, rfl⟩
  | array elements => exact ⟨_, rfl, rfl⟩
  | _ => simp [Json.isContainer] at hjson

/-! ## Walking over strings -/

theorem walkMembers_graft {members new : List (CString × Json)}
    (hcb : ∀ m ∈ members, walkStrings cb m.2 = some (m.2.graft g))
    (hkeys : ((new ++ members).map Prod.fst).Nodup) :
    walkMembers cb members new = some (new ++ graftMembers g members) := by
  induction members generalizing new with
  | nil => simp [walkMembers, graftMembers]
  | cons m members ih =>
    obtain ⟨key, value⟩ := m
    obtain ⟨hvalue, hmembers⟩ := List.forall_mem_cons.mp hcb
    rw [walkMembers, hvalue, Option.bind_some, graftMembers_cons]
    have hnew : key ∉ new.map Prod.fst := by
      rw [List.map_append, List.map_cons] at hkeys
      exact fun hmem => (List.nodup_middle.mp hkeys).notMem (List.mem_append_left _ hmem)
    cases value.graft g with
    | none =>
      apply ih hmembers
      exact hkeys.sublist (((List.sublist_cons_self _ members).append_left new).map Prod.fst)
    | some t =>
      rw [jsonObjectSetNew, setMember_new hnew, ih hmembers (by simpa using hkeys), List.append_assoc]
      rfl

theorem walkElements_graft {elements new : List Json}
    (hcb : ∀ e ∈ elements, walkStrings cb e = some (e.graft g)) :
    walkElements cb elements new = some (new ++ graftElements g elements) := by
  induction elements generalizing new with
  | nil => simp [walkElements, graftElements]
  | cons value elements ih =>
    obtain ⟨hvalue, helements⟩ := List.forall_mem_cons.mp hcb
    rw [walkElements, hvalue, Option.bind_some, graftElements_cons, ih helements]
    cases value.graft g <;> simp [jsonArrayAppendNew]

theorem walkStrings_graft (hjson : json.Keyed) (hcb : ∀ s ∈ json.strings, cb s = some (g s)) :
    walkStrings cb json = some (json.graft g) := by
  induction hjson with
  | @object members hkeys _ ih =>
    have hmembers := @walkMembers_graft g cb members []
      (fun m hm => ih m hm fun s hs => hcb s (mem_strings_object.2 ⟨m, hm, hs⟩)) hkeys
    rw [walkStrings, hmembers]
    rfl
  | @array elements _ ih =>
    have helements := @walkElements_graft g cb elements []
      fun e he => ih e he fun s hs => hcb s (mem_strings_array.2 ⟨e, he, hs⟩)
    rw [walkStrings, helements]
    rfl
  | string value => exact hcb value (List.mem_singleton_self value)
  | _ => rfl

theorem walkMembers_mono {members new out : List (CString × Json)}
    (h : ∀ m ∈ members, ∀ t, walkStrings cb m.2 = some t → walkStrings cb' m.2 = some t)
    (hwalk : walkMembers cb members new = some out) : walkMembers cb' members new = some out := by
  induction members generalizing new with
  | nil => exact hwalk
  | cons m members ih =>
    obtain ⟨hfirst, hrest⟩ := List.forall_mem_cons.mp h
    obtain ⟨t, ht, hwalk⟩ := Option.bind_eq_some_iff.mp hwalk
    rw [walkMembers, hfirst t ht, Option.bind_some]
    exact ih hrest hwalk

theorem walkElements_mono {elements new out : List Json}
    (h : ∀ e ∈ elements, ∀ t, walkStrings cb e = some t → walkStrings cb' e = some t)
    (hwalk : walkElements cb elements new = some out) : walkElements cb' elements new = some out := by
  induction elements generalizing new with
  | nil => exact hwalk
  | cons e elements ih =>
    obtain ⟨hfirst, hrest⟩ := List.forall_mem_cons.mp h
    obtain ⟨t, ht, hwalk⟩ := Option.bind_eq_some_iff.mp hwalk
    rw [walkElements, hfirst t ht, Option.bind_some]
    exact ih hrest hwalk

theorem walkStrings_mono (h : ∀ s ∈ json.strings, ∀ t, cb s = some t → cb' s = some t) :
    ∀ t, walkStrings cb json = some t → walkStrings cb' json = some t := by
  induction json using Json.induct with
  | hobject members ih =>
    intro t ht
    obtain ⟨out, hout, rfl⟩ := Option.map_eq_some_iff.mp ht
    have hmembers := fun m hm => ih m hm fun s hs => h s (mem_strings_object.2 ⟨m, hm, hs⟩)
    rw [walkStrings, walkMembers_mono hmembers hout]
    rfl
  | harray elements ih =>
    intro t ht
    obtain ⟨out, hout, rfl⟩ := Option.map_eq_some_iff.mp ht
    have helements := fun e he => ih e he fun s hs => h s (mem_strings_array.2 ⟨e, he, hs⟩)
    rw [walkStrings, walkElements_mono helements hout]
    rfl
  | hstring value => exact h value (List.mem_singleton_self value)
  | _ => exact fun t ht => ht

theorem isSome_of_walkStrings (h : (walkStrings cb json).isSome) : ∀ s ∈ json.strings, (cb s).isSome := by
  induction json using Json.induct with
  | hobject members ih =>
    rw [walkStrings, Option.isSome_map] at h
    obtain ⟨new, hnew⟩ := Option.isSome_iff_exists.mp h
    intro s hs
    obtain ⟨m, hm, hs⟩ := mem_strings_object.1 hs
    exact ih m hm (walkMembers_returns hnew m hm) s hs
  | harray elements ih =>
    rw [walkStrings, Option.isSome_map] at h
    obtain ⟨new, hnew⟩ := Option.isSome_iff_exists.mp h
    intro s hs
    obtain ⟨e, he, hs⟩ := mem_strings_array.1 hs
    exact ih e he (walkElements_returns hnew e he) s hs
  | hstring value =>
    intro s hs
    obtain rfl := List.mem_singleton.mp hs
    exact h
  | _ => simp [Json.strings]

theorem walkStrings_eq_some {out : Option Json} (hjson : json.Keyed) : walkStrings cb json = some out ↔
    (∀ s ∈ json.strings, (cb s).isSome) ∧ json.graft (fun s => (cb s).join) = out := by
  have hgraft (h : ∀ s ∈ json.strings, (cb s).isSome) :
      walkStrings cb json = some (json.graft fun s => (cb s).join) := by
    refine walkStrings_graft hjson fun s hs => ?_
    obtain ⟨r, hr⟩ := Option.isSome_iff_exists.mp (h s hs)
    rw [hr, Option.join_some]
  constructor
  · intro h
    have hcb := isSome_of_walkStrings (Option.isSome_of_eq_some h)
    rw [hgraft hcb] at h
    exact ⟨hcb, Option.some.inj h⟩
  · rintro ⟨hcb, rfl⟩
    exact hgraft hcb

end

/-! ## Expansion -/

section
variable {getenv : List Byte → Option (List Byte)} {turns turns' n : Nat} {text t : List Byte}
  {json json' : Json} {s : CString}

theorem expandLoop_done (h : expandLoop getenv n text = .done t) : ¬ Refers t := by
  induction n generalizing text with
  | zero => cases h
  | succ n ih =>
    rw [expandLoop] at h
    split at h
    · rename_i hsearch
      cases h
      exact search_none_iff.mp hsearch
    · split at h
      · cases h
      · exact ih h

theorem expandLoop_plain (h : ¬ Refers text) : expandLoop getenv (n + 1) text = .done text := by
  rw [expandLoop, search_none_iff.mpr h]

theorem expandString_eq_some {r : Option Json} : expandString getenv n s = some r ↔
    ∃ t, expandLoop getenv n (bytes s) = .done t ∧ (decode t).map .string = r := by
  unfold expandString
  split <;> simp_all

theorem expandString_mono (hturns : turns ≤ turns') {r : Option Json}
    (h : expandString getenv turns s = some r) :
    expandString getenv turns' s = some r := by
  obtain ⟨t, ht, hr⟩ := expandString_eq_some.1 h
  obtain ⟨k, rfl⟩ := Nat.exists_eq_add_of_le hturns
  exact expandString_eq_some.2 ⟨t, expandLoop_mono ht k, hr⟩

/-- No string refers to a variable, and each key is there once. -/
structure Settled (json : Json) : Prop where
  keyed : json.Keyed
  plain : ∀ s ∈ json.strings, ¬ Refers (bytes s)

theorem Settled.expandEnvVars (h : Settled json) : expandEnvVars getenv (n + 1) json = some (some json) := by
  have hcb : ∀ s ∈ json.strings, expandString getenv (n + 1) s = some (some (.string s)) := by
    intro s hs
    rw [expandString_eq_some]
    exact ⟨bytes s, expandLoop_plain (h.plain s hs), by rw [decode_bytes]; rfl⟩
  rw [ConfigHelper.expandEnvVars, walkStrings_graft h.keyed hcb, graft_string]

theorem expandEnvVars_eq_some {out : Option Json} (hjson : json.Keyed) :
    expandEnvVars getenv n json = some out ↔
    (∀ s ∈ json.strings, ∃ t, expandLoop getenv n (bytes s) = .done t) ∧
      json.graft (fun s => (expandString getenv n s).join) = out := by
  simp only [expandEnvVars, walkStrings_eq_some hjson, expandString_isSome]

theorem expandEnvVars_settled (hjson : json.Keyed) (h : expandEnvVars getenv n json = some (some json')) :
    Settled json' := by
  obtain ⟨-, hgraft⟩ := (expandEnvVars_eq_some hjson).mp h
  have hstring {s : CString} {t : Json} (h : (expandString getenv n s).join = some t) :
      ∃ s', t = .string s' ∧ ¬ Refers (bytes s') := by
    obtain ⟨text, htext, hdecode⟩ := expandString_eq_some.1 (Option.join_eq_some_iff.mp h)
    obtain ⟨s', hs', rfl⟩ := Option.map_eq_some_iff.mp hdecode
    exact ⟨s', rfl, decode_eq_some.mp hs' ▸ expandLoop_done htext⟩
  refine ⟨hjson.graft (fun s _ t ht => ?_) hgraft, fun s hs => ?_⟩
  · obtain ⟨s', rfl, -⟩ := hstring ht
    exact .string s'
  · obtain ⟨s', -, t, ht, hs⟩ := (mem_strings_graft hgraft).mp hs
    obtain ⟨s'', rfl, hplain⟩ := hstring ht
    obtain rfl := List.mem_singleton.mp hs
    exact hplain

end

/-! ## Loading -/

section
variable (files : List Byte → Option Document) (getenv : List Byte → Option (List Byte))

def loader : Loader (List Byte) Document Json where
  file := files
  includes doc := doc.root.strings.filterMap includePath
  build turns doc f :=
    ((resolveIncludes (fun path => (f path).map some) doc.root).bind fun root =>
      root.bind (expandEnvVars getenv (turns + 1))).join

end

/-- What takes the place of a string, with the trees of the files. -/
def included (f : List Byte → Option Json) (str : CString) : Option Json :=
  match includePath str with
  | none => some (.string str)
  | some path => f path

section
variable {files : List Byte → Option Document} {getenv : List Byte → Option (List Byte)}
  {f g : List Byte → Option Json} {doc : Document} {turns : Nat} {out t : Json} {s : CString}
  {path : List Byte}

theorem mem_includes :
    path ∈ (loader files getenv).includes doc ↔ ∃ s ∈ doc.root.strings, includePath s = some path :=
  List.mem_filterMap

theorem resolveIncludes_eq_some {r : Option Json} :
    resolveIncludes (fun path => (f path).map some) doc.root = some r ↔
      (∀ p ∈ (loader files getenv).includes doc, (f p).isSome) ∧ doc.root.graft (included f) = r := by
  rw [resolveIncludes, walkStrings_eq_some doc.keyed]
  refine and_congr ⟨fun h p hp => ?_, fun h s hs => ?_⟩ ?_
  · obtain ⟨s, hs, hpath⟩ := mem_includes.1 hp
    have hsome := h s hs
    rw [hpath] at hsome
    cases hf : f p <;> simp_all
  · cases hpath : includePath s with
    | none => rfl
    | some p =>
      obtain ⟨t, ht⟩ := Option.isSome_iff_exists.mp (h p (mem_includes.2 ⟨s, hs, hpath⟩))
      simp [ht]
  · rw [graft_congr fun s _ => ?_]
    unfold included
    cases includePath s with
    | none => rfl
    | some p => cases hf : f p <;> simp [hf]

theorem build_eq_some : (loader files getenv).build turns doc f = some out ↔
    (∀ p ∈ (loader files getenv).includes doc, (f p).isSome) ∧
      ∃ t, doc.root.graft (included f) = some t ∧ expandEnvVars getenv (turns + 1) t = some (some out) := by
  have hbuild : (loader files getenv).build turns doc f =
    ((resolveIncludes (fun path => (f path).map some) doc.root).bind fun root =>
      root.bind (expandEnvVars getenv (turns + 1))).join := rfl
  rw [hbuild, Option.join_eq_some_iff, Option.bind_eq_some_iff]
  simp only [@resolveIncludes_eq_some files getenv]
  constructor
  · rintro ⟨r, ⟨hall, hgraft⟩, hexpand⟩
    obtain ⟨t, rfl, hexpand⟩ := Option.bind_eq_some_iff.mp hexpand
    exact ⟨hall, t, hgraft, hexpand⟩
  · rintro ⟨hall, t, hgraft, hexpand⟩
    exact ⟨some t, ⟨hall, hgraft⟩, hexpand⟩

theorem resolved (hf : ∀ p ∈ (loader files getenv).includes doc, ∃ o, f p = some o ∧ Settled o) :
    ∃ t, doc.root.graft (included f) = some t ∧ t.isContainer ∧ t.Keyed ∧
      ∀ s ∈ t.strings, Refers (bytes s) → s ∈ doc.root.strings ∧ includePath s = none := by
  obtain ⟨t, ht, hcontainer⟩ := @isContainer_graft (included f) _ doc.container
  refine ⟨t, ht, hcontainer, doc.keyed.graft (fun s hs o ho => ?_) ht, fun s hs hrefers => ?_⟩
  · unfold included at ho
    split at ho
    · cases ho
      exact .string s
    · rename_i p hpath
      obtain ⟨o', ho', hsettled⟩ := hf p (mem_includes.2 ⟨s, hs, hpath⟩)
      obtain rfl := Option.some.inj (ho.symm.trans ho')
      exact hsettled.keyed
  · obtain ⟨s', hs', o, ho, hs⟩ := (mem_strings_graft ht).mp hs
    unfold included at ho
    split at ho
    · rename_i hpath
      cases ho
      obtain rfl := List.mem_singleton.mp hs
      exact ⟨hs', hpath⟩
    · rename_i p hpath
      obtain ⟨o', ho', hsettled⟩ := hf p (mem_includes.2 ⟨s', hs', hpath⟩)
      obtain rfl := Option.some.inj (ho.symm.trans ho')
      exact absurd hrefers (hsettled.plain s hs)

theorem own_expand (h : ((loader files getenv).build turns doc f).isSome) (hs : s ∈ doc.root.strings)
    (hpath : includePath s = none) : ∃ t, expandLoop getenv (turns + 1) (bytes s) = .done t := by
  obtain ⟨out, hout⟩ := Option.isSome_iff_exists.mp h
  obtain ⟨-, t, hgraft, hexpand⟩ := build_eq_some.1 hout
  have hmem : s ∈ t.strings := by
    refine (mem_strings_graft hgraft).mpr ⟨s, hs, .string s, ?_, List.mem_singleton_self s⟩
    rw [included, hpath]
  exact expandString_isSome.mp (isSome_of_walkStrings (Option.isSome_of_eq_some hexpand) s hmem)

theorem build_isSome (hf : ∀ p ∈ (loader files getenv).includes doc, ∃ o, f p = some o ∧ Settled o)
    (hown : ∀ s ∈ doc.root.strings, includePath s = none →
      ∃ t, expandLoop getenv (turns + 1) (bytes s) = .done t) :
    ((loader files getenv).build turns doc f).isSome := by
  obtain ⟨t, hgraft, hcontainer, hkeyed, hstrings⟩ := resolved hf
  obtain ⟨out, hout, -⟩ := @isContainer_graft (fun s => (expandString getenv (turns + 1) s).join) t hcontainer
  refine Option.isSome_of_eq_some (build_eq_some.2 ⟨fun p hp => ?_, t, hgraft,
    (expandEnvVars_eq_some hkeyed).mpr ⟨fun s hs => ?_, hout⟩⟩)
  · obtain ⟨o, ho, -⟩ := hf p hp
    exact Option.isSome_of_eq_some ho
  · by_cases hrefers : Refers (bytes s)
    · obtain ⟨hs, hpath⟩ := hstrings s hs hrefers
      exact hown s hs hpath
    · exact ⟨_, expandLoop_plain hrefers⟩

theorem loader_lawful (files : List Byte → Option Document) (getenv : List Byte → Option (List Byte)) :
    (loader files getenv).Lawful Settled where
  congr := by
    intro turns doc f g hfg
    have hgraft : doc.root.graft (included f) = doc.root.graft (included g) := by
      apply graft_congr
      intro s hs
      unfold included
      split
      · rfl
      · rename_i p hpath
        exact hfg p (mem_includes.2 ⟨s, hs, hpath⟩)
    apply Option.ext
    intro out
    rw [build_eq_some, build_eq_some, hgraft]
    refine and_congr_left fun _ => forall₂_congr fun p hp => ?_
    rw [hfg p hp]
  needs h := (build_eq_some.1 h).1
  mono := by
    intro turns turns' doc f out hturns h
    obtain ⟨hneeds, t, hgraft, hexpand⟩ := build_eq_some.1 h
    refine build_eq_some.2 ⟨hneeds, t, hgraft, ?_⟩
    exact walkStrings_mono (fun s _ r hr => expandString_mono (Nat.add_le_add_right hturns 1) hr) _ hexpand
  fits hf hg := build_isSome hg fun _ hs hpath => own_expand hf hs hpath
  good := by
    intro turns doc f out hf hbuild
    obtain ⟨hneeds, t, hgraft, hexpand⟩ := build_eq_some.1 hbuild
    obtain ⟨t', hgraft', -, hkeyed, -⟩ := @resolved files getenv f doc fun p hp => by
      obtain ⟨o, ho⟩ := Option.isSome_iff_exists.mp (hneeds p hp)
      exact ⟨o, ho, hf p hp o ho⟩
    obtain rfl := Option.some.inj (hgraft.symm.trans hgraft')
    exact expandEnvVars_settled hkeyed hexpand

theorem own_turns {P : CString → List Byte → Prop}
    (h : ∀ s ∈ doc.root.strings, includePath s = none →
      ∃ n, ∃ t, expandLoop getenv n (bytes s) = .done t ∧ P s t) :
    ∃ n, ∀ s ∈ doc.root.strings, includePath s = none →
      ∃ t, expandLoop getenv n (bytes s) = .done t ∧ P s t := by
  apply Loader.exists_bound
    (P := fun s n => includePath s = none → ∃ t, expandLoop getenv n (bytes s) = .done t ∧ P s t)
  · intro s m n hmn hm hpath
    obtain ⟨t, ht, hP⟩ := hm hpath
    obtain ⟨k, rfl⟩ := Nat.exists_eq_add_of_le hmn
    exact ⟨t, expandLoop_mono ht k, hP⟩
  · intro s hs
    cases hpath : includePath s with
    | none =>
      obtain ⟨n, hn⟩ := h s hs hpath
      exact ⟨n, fun _ => hn⟩
    | some p => exact ⟨0, by simp⟩

theorem fits_iff : (loader files getenv).Fits doc ↔
    ∀ s ∈ doc.root.strings, includePath s = none → ∃ n t, expandLoop getenv n (bytes s) = .done t := by
  constructor
  · rintro ⟨turns, f, h⟩ s hs hpath
    exact ⟨turns + 1, own_expand h hs hpath⟩
  · intro h
    have htext (s : CString) (hs : s ∈ doc.root.strings) (hpath : includePath s = none) :
        ∃ n, ∃ t, expandLoop getenv n (bytes s) = .done t ∧ True := by
      obtain ⟨n, t, ht⟩ := h s hs hpath
      exact ⟨n, t, ht, trivial⟩
    obtain ⟨n, hn⟩ := own_turns htext
    refine ⟨n, fun _ => some (.array []), build_isSome (fun p _ => ⟨_, rfl, .array (by simp), by
      simp [Json.strings, stringsOfElements]⟩) fun s hs hpath => ?_⟩
    obtain ⟨t, ht, -⟩ := hn s hs hpath
    exact ⟨t, expandLoop_mono ht 1⟩

theorem walkStrings_ne_null {cb : CString → Option (Option Json)} (h : t.isContainer) :
    walkStrings cb t ≠ some none := by
  cases t with
  | object members => simp [walkStrings]
  | array elements => simp [walkStrings]
  | _ => simp [Json.isContainer] at h

theorem load_eq (turns descriptors : Nat) (u : List Byte) :
    load files getenv turns descriptors u = ((loader files getenv).load turns descriptors u).map some := by
  induction descriptors generalizing u with
  | zero => rfl
  | succ descriptors ih =>
    have hload : load files getenv turns descriptors =
        fun path => ((loader files getenv).load turns descriptors path).map some := funext ih
    cases hfile : files u with
    | none => simp [load, Loader.load, loader, hfile]
    | some doc =>
      rw [load, hfile, Option.bind_some, hload, Loader.load_succ (L := loader files getenv) hfile]
      have hnull : ((resolveIncludes
          (fun path => ((loader files getenv).load turns descriptors path).map some) doc.root).bind fun root =>
            root.bind (expandEnvVars getenv (turns + 1))) ≠ some none := by
        intro hnull
        obtain ⟨r, hr, hexpand⟩ := Option.bind_eq_some_iff.mp hnull
        obtain ⟨-, hgraft⟩ := (@resolveIncludes_eq_some files getenv _ _ _).mp hr
        obtain ⟨t, ht, hcontainer⟩ := @isContainer_graft
          (included ((loader files getenv).load turns descriptors)) _ doc.container
        obtain rfl := hgraft.symm.trans ht
        exact walkStrings_ne_null hcontainer hexpand
      change _ = Option.map some (Option.join _)
      generalize ((resolveIncludes _ doc.root).bind fun root =>
        root.bind (expandEnvVars getenv (turns + 1))) = r at hnull ⊢
      cases r with
      | none => rfl
      | some r =>
        cases r with
        | none => exact absurd rfl hnull
        | some t => rfl

theorem load_eq_some {descriptors : Nat} {u : List Byte} :
    load files getenv turns descriptors u = some (some out) ↔
    (loader files getenv).load turns descriptors u = some out := by
  rw [load_eq]
  simp

theorem build_value {text : CString → List Byte}
    (hf : ∀ p ∈ (loader files getenv).includes doc, ∃ o, f p = some o ∧ Settled o)
    (htext : ∀ s ∈ doc.root.strings, includePath s = none →
      expandLoop getenv (turns + 1) (bytes s) = .done (text s)) :
    (loader files getenv).build turns doc f = doc.root.graft fun s =>
      match includePath s with
      | none => (decode (text s)).map .string
      | some path => f path := by
  obtain ⟨out, hout⟩ := Option.isSome_iff_exists.mp (build_isSome hf fun s hs hpath => ⟨_, htext s hs hpath⟩)
  obtain ⟨-, t, hgraft, hexpand⟩ := build_eq_some.1 hout
  obtain ⟨t', hgraft', -, hkeyed, -⟩ := resolved hf
  obtain rfl := Option.some.inj (hgraft.symm.trans hgraft')
  obtain ⟨-, hvalue⟩ := (expandEnvVars_eq_some hkeyed).mp hexpand
  have hboth := @graft_graft (fun s => (expandString getenv (turns + 1) s).join) (included f) doc.root
  rw [hgraft, Option.bind_some, hvalue] at hboth
  rw [hout, hboth]
  apply graft_congr
  intro s hs
  unfold included
  cases hpath : includePath s with
  | none =>
    rw [Option.bind_some, Json.graft, expandString_eq_some.2 ⟨_, htext s hs hpath, rfl⟩, Option.join_some]
  | some p =>
    obtain ⟨o, ho, hsettled⟩ := hf p (mem_includes.2 ⟨s, hs, hpath⟩)
    dsimp only
    rw [ho, Option.bind_some]
    exact ((expandEnvVars_eq_some hsettled.keyed).mp hsettled.expandEnvVars).2

end

/-! ## What a configuration means -/

section
variable (files : List Byte → Option Document) (getenv : List Byte → Option (List Byte))

/-- In the place of each string there is the configuration of the file that it includes, or the text
without references to variables. -/
inductive Meaning : List Byte → Json → Prop
  | file {u : List Byte} {doc : Document} {json : Json} (tree : List Byte → Json) (text : CString → List Byte)
      (hfile : files u = some doc)
      (htree : ∀ s ∈ doc.root.strings, ∀ path, includePath s = some path → Meaning path (tree path))
      (htext : ∀ s ∈ doc.root.strings, includePath s = none →
        ∃ n, expandLoop getenv n (bytes s) = .done (text s))
      (hjson : (doc.root.graft fun s =>
        match includePath s with
        | none => (decode (text s)).map .string
        | some path => some (tree path)) = some json) : Meaning u json

/-- The text in the end, after so many turns. -/
def expandedText (turns : Nat) (str : CString) : List Byte :=
  match expandLoop getenv turns (bytes str) with
  | .done text => text
  | _ => []

end

section
variable {files : List Byte → Option Document} {getenv : List Byte → Option (List Byte)} {u : List Byte}
  {json : Json}

theorem means_settled (h : (loader files getenv).Means u json) : Settled json := by
  obtain ⟨turns, descriptors, h⟩ := (Loader.means_iff (loader_lawful files getenv)).mp h
  exact Loader.load_good (loader_lawful files getenv) h

theorem Meaning.means (h : Meaning files getenv u json) : (loader files getenv).Means u json := by
  induction h with
  | @file u doc json tree text hfile _ htext hjson ih =>
    have hturns (s : CString) (hs : s ∈ doc.root.strings) (hpath : includePath s = none) :
        ∃ n, ∃ t, expandLoop getenv n (bytes s) = .done t ∧ t = text s := by
      obtain ⟨n, hn⟩ := htext s hs hpath
      exact ⟨n, _, hn, rfl⟩
    obtain ⟨n, hn⟩ := own_turns hturns
    have hmeans : ∀ p ∈ (loader files getenv).includes doc, (loader files getenv).Means p (tree p) := by
      intro p hp
      obtain ⟨s, hs, hpath⟩ := mem_includes.1 hp
      exact ih s hs p hpath
    refine .file n (fun p => some (tree p)) hfile (fun p hp o ho => Option.some.inj ho ▸ hmeans p hp) ?_
    rw [← hjson]
    exact build_value (fun p hp => ⟨_, rfl, means_settled (hmeans p hp)⟩)
      fun s hs hpath => by
        obtain ⟨_, ht, rfl⟩ := hn s hs hpath
        exact expandLoop_mono ht 1

theorem Meaning.of_means (h : (loader files getenv).Means u json) : Meaning files getenv u json := by
  induction h with
  | @file u doc json turns f hfile hincludes hbuild ih =>
    have hneeds := (loader_lawful files getenv).needs hbuild
    have htext : ∀ s ∈ doc.root.strings, includePath s = none →
        expandLoop getenv (turns + 1) (bytes s) = .done (expandedText getenv (turns + 1) s) := by
      intro s hs hpath
      obtain ⟨t, ht⟩ := own_expand (Option.isSome_of_eq_some hbuild) hs hpath
      rw [expandedText, ht]
    have hsome : ∀ s ∈ doc.root.strings, ∀ p, includePath s = some p → f p = some ((f p).getD .null) := by
      intro s hs p hpath
      obtain ⟨o, ho⟩ := Option.isSome_iff_exists.mp (hneeds p (mem_includes.2 ⟨s, hs, hpath⟩))
      rw [ho, Option.getD_some]
    refine .file (fun p => (f p).getD .null) (expandedText getenv (turns + 1)) hfile (fun s hs p hpath => ?_)
      (fun s hs hpath => ⟨_, htext s hs hpath⟩) ?_
    · exact ih p (mem_includes.2 ⟨s, hs, hpath⟩) _ (hsome s hs p hpath)
    · rw [← hbuild, build_value (fun p hp => ?_) htext]
      · apply graft_congr
        intro s hs
        cases hpath : includePath s with
        | none => rfl
        | some p => exact (hsome s hs p hpath).symm
      · obtain ⟨o, ho⟩ := Option.isSome_iff_exists.mp (hneeds p hp)
        exact ⟨o, ho, means_settled (hincludes p hp o ho)⟩

end

/-- With so many descriptors, a configuration is loaded exactly if the inclusions are not as deep, and
if every file that is reached can be read and its own strings come to an end. There are enough of them
exactly if no chain of inclusions goes on for ever. -/
theorem load_returns_iff (files : List Byte → Option Document) (getenv : List Byte → Option (List Byte))
    (u : List Byte) :
    (∀ descriptors, (∃ turns json, load files getenv turns descriptors u = some (some json)) ↔
      (loader files getenv).Within descriptors u ∧
        ∀ path, Relation.ReflTransGen (loader files getenv).Includes path u → ∃ doc, files path = some doc ∧
          ∀ s ∈ doc.root.strings, includePath s = none → ∃ n t, expandLoop getenv n (bytes s) = .done t) ∧
    ((∃ descriptors, (loader files getenv).Within descriptors u) ↔ Acc (loader files getenv).Includes u) := by
  refine ⟨fun descriptors => ?_, Loader.acc_iff.symm⟩
  have hreturns := @Loader.load_isSome_iff _ _ _ _ _ descriptors u (loader_lawful files getenv)
  simp only [fits_iff, Option.isSome_iff_exists] at hreturns
  simp only [load_eq_some]
  exact hreturns

/-- What is loaded does not depend on how much there is of descriptors and turns. It is what the
configuration means, and no variable is referred to in it. -/
theorem load_meaning (files : List Byte → Option Document) (getenv : List Byte → Option (List Byte))
    (u : List Byte) (json : Json) :
    ((∃ turns descriptors, load files getenv turns descriptors u = some (some json)) ↔
      Meaning files getenv u json) ∧
    (Meaning files getenv u json →
      (∀ json', Meaning files getenv u json' → json' = json) ∧ ∀ s ∈ json.strings, ¬ Refers (bytes s)) := by
  have hL := loader_lawful files getenv
  constructor
  · simp only [load_eq_some]
    rw [← Loader.means_iff hL]
    exact ⟨Meaning.of_means, Meaning.means⟩
  · intro h
    exact ⟨fun json' h' => h'.means.unique hL h.means, (means_settled h.means).plain⟩

end VillasNode.ConfigHelper
