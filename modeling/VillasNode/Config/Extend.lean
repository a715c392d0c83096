import VillasNode.Config.Helper
import VillasNode.Lib.Members

/-!
# Merging configurations

`json_object_extend` of `lib/config_helper.cpp`. Objects are values here, with
their members in the order in which the keys were set first.
-/

namespace VillasNode.ConfigHelper

open Jansson Libconfig Members

mutual

/-- The object as it is left, and what is returned. -/
def jsonObjectExtend (obj merge : Json) : Json × Int :=
  match merge with
  | .object merge =>
    match obj with
    | .object members =>
      let (members, ret) := extendMembers members merge
      (.object members, ret)
    | _ => (obj, -1)
  | _ => (obj, -1)
termination_by structural merge

/-- The loop over the members that are merged. -/
def extendMembers (members merge : List (CString × Json)) : List (CString × Json) × Int :=
  match merge with
  | [] => (members, 0)
  | (key, mergeValue) :: merge =>
    match members.lookup key with
    | some (.object objMembers) =>
      let (objValue, ret) := jsonObjectExtend (.object objMembers) mergeValue
      let members := setMember key objValue members
      if ret ≠ 0 then (members, ret) else extendMembers members merge
    | _ => extendMembers (setMember key mergeValue members) merge
termination_by structural merge

end

/-- The hash table of an object has each key once. -/
inductive Json.Keyed : Json → Prop
  | object {members : List (CString × Json)} (hkeys : (members.map Prod.fst).Nodup)
      (hmembers : ∀ m ∈ members, m.2.Keyed) : (object members).Keyed
  | array {elements : List Json} (helements : ∀ e ∈ elements, e.Keyed) : (array elements).Keyed
  | string (value : CString) : (string value).Keyed
  | integer (value : BitVec 64) : (integer value).Keyed
  | real (value : { v : BitVec 64 // finite v }) : (real value).Keyed
  | boolean (value : Bool) : (boolean value).Keyed
  | null : null.Keyed

def Json.isObject : Json → Bool
  | .object _ => true
  | _ => false

/-- What is found below these keys. -/
def Json.atPath : List CString → Json → Option Json
  | [], json => some json
  | key :: path, .object members => (members.lookup key).bind (atPath path)
  | _ :: _, _ => none

/-- At a common path there is an object, and another kind of value that is to be merged there. -/
def Conflict (obj merge : Json) : Prop :=
  ∃ path x y, obj.atPath path = some x ∧ merge.atPath path = some y ∧ x.isObject ∧ ¬ y.isObject

/-! ## Members -/

section
variable {members members' : List (CString × Json)} {key : CString} {value : Json}

theorem Json.Keyed.keys (h : (Json.object members).Keyed) : (members.map Prod.fst).Nodup := by
  cases h with
  | object hkeys _ => exact hkeys

theorem Json.Keyed.member (h : (Json.object members).Keyed) (hvalue : members.lookup key = some value) :
    value.Keyed := by
  cases h with
  | object _ hmembers => exact hmembers _ (mem_of_lookup hvalue)

theorem lookup_setMember (members : List (CString × Json)) (key : CString) (value : Json) (k : CString) :
    (setMember key value members).lookup k = if k = key then some value else members.lookup k := by
  induction members with
  | nil =>
    by_cases hk : k = key
    · rw [setMember, hk, List.lookup_cons_self, if_pos rfl]
    · rw [setMember, lookup_cons_ne hk, if_neg hk]
  | cons m members ih =>
    obtain ⟨l, v⟩ := m
    rw [setMember]
    by_cases hl : l = key
    · rw [if_pos hl, hl]
      by_cases hk : k = key
      · rw [hk, List.lookup_cons_self, if_pos rfl]
      · rw [lookup_cons_ne hk, lookup_cons_ne hk, if_neg hk]
    · rw [if_neg hl]
      by_cases hk : k = l
      · rw [hk, List.lookup_cons_self, List.lookup_cons_self, if_neg hl]
      · rw [lookup_cons_ne hk, lookup_cons_ne hk, ih]

theorem keys_setMember (members : List (CString × Json)) (key : CString) (value : Json) :
    (setMember key value members).map Prod.fst =
      if key ∈ members.map Prod.fst then members.map Prod.fst else members.map Prod.fst ++ [key] := by
  induction members with
  | nil => simp [setMember]
  | cons m members ih =>
    obtain ⟨l, v⟩ := m
    rw [setMember]
    by_cases hl : l = key
    · simp [hl]
    · rw [if_neg hl, List.map_cons, ih]
      split_ifs with hmem hmem' hmem' <;> simp_all [eq_comm]

end

/-! ## One merge -/

/-- What an object becomes, `none` for an error. -/
def extended (obj merge : Json) : Option Json :=
  if (jsonObjectExtend obj merge).2 = 0 then some (jsonObjectExtend obj merge).1 else none

def extendedMembers (members merge : List (CString × Json)) : Option (List (CString × Json)) :=
  if (extendMembers members merge).2 = 0 then some (extendMembers members merge).1 else none

/-- What a key gets when this is merged into what it has. -/
def put (old : Option Json) (value : Json) : Option Json :=
  match old with
  | some (.object members) => extended (.object members) value
  | _ => some value

/-- What a key has after the merge, if that is no error. -/
def combine (old new : Option Json) : Option (Option Json) :=
  match new with
  | none => some old
  | some value => (put old value).map some

section
variable {obj json json' : Json} {members merge new : List (CString × Json)} {old : Option Json}
  {value : Json} {key : CString}

theorem extended_eq_some : extended obj json = some json' ↔ jsonObjectExtend obj json = (json', 0) := by
  rw [extended, Option.ite_none_right_eq_some, Option.some.injEq, Prod.ext_iff]
  exact and_comm

theorem put_other (h : ∀ members, old ≠ some (.object members)) : put old value = some value := by
  unfold put
  split
  · exact absurd rfl (h _)
  · rfl

theorem put_scalar {x : Json} (h : ¬ x.isObject) : put (some x) value = some value := by
  refine put_other ?_
  rintro members heq
  cases heq
  exact h rfl

theorem extended_object :
    extended (.object members) (.object merge) = (extendedMembers members merge).map .object := by
  unfold extended extendedMembers jsonObjectExtend
  dsimp only
  split_ifs <;> rfl

theorem extended_other (h : ¬ json.isObject) : extended obj json = none := by
  cases json with
  | object => exact absurd rfl h
  | _ => rfl

theorem extended_objects (h : extended obj json = some json') :
    obj.isObject ∧ json.isObject ∧ json'.isObject := by
  have hjson : json.isObject := by
    by_contra hother
    rw [extended_other hother] at h
    cases h
  cases json with
  | object merge =>
    cases obj with
    | object members =>
      rw [extended_object, Option.map_eq_some_iff] at h
      obtain ⟨_, _, rfl⟩ := h
      exact ⟨rfl, rfl, rfl⟩
    | _ => cases h
  | _ => cases hjson

theorem extendedMembers_cons : extendedMembers members ((key, value) :: merge) =
    (put (members.lookup key) value).bind fun v => extendedMembers (setMember key v members) merge := by
  unfold extendedMembers
  rw [extendMembers]
  split
  · rename_i objMembers hlookup
    rw [hlookup, put, extended]
    dsimp only
    split_ifs <;> simp_all
  · rename_i hother
    rw [put_other hother, Option.bind_some]

theorem lookup_setMember_ne {k : CString} (h : k ≠ key) :
    (setMember key value members).lookup k = members.lookup k := by
  rw [lookup_setMember, if_neg h]

theorem extendedMembers_isSome (hkeys : (merge.map Prod.fst).Nodup) :
    (extendedMembers members merge).isSome ↔ ∀ m ∈ merge, (put (members.lookup m.1) m.2).isSome := by
  induction merge generalizing members with
  | nil => exact iff_of_true rfl fun m hm => absurd hm List.not_mem_nil
  | cons m merge ih =>
    obtain ⟨key, value⟩ := m
    obtain ⟨hnew, hkeys⟩ := List.nodup_cons.mp hkeys
    rw [extendedMembers_cons, List.forall_mem_cons]
    cases hput : put (members.lookup key) value with
    | none => simp
    | some v =>
      rw [Option.bind_some, ih hkeys]
      simp only [Option.isSome_some, true_and]
      refine forall₂_congr fun m hm => ?_
      have hne : m.1 ≠ key := by
        rintro rfl
        exact hnew (List.mem_map.mpr ⟨m, hm, rfl⟩)
      rw [lookup_setMember_ne hne]

/-- The keys that are merged come behind those that are there. -/
def mergedKeys (keys merge : List CString) : List CString := keys ++ merge.filter (· ∉ keys)

theorem extendedMembers_keys (hkeys : (merge.map Prod.fst).Nodup) (h : extendedMembers members merge = some new) :
    new.map Prod.fst = mergedKeys (members.map Prod.fst) (merge.map Prod.fst) := by
  induction merge generalizing members with
  | nil =>
    cases h
    exact (List.append_nil _).symm
  | cons m merge ih =>
    obtain ⟨key, value⟩ := m
    obtain ⟨hnew, hkeys⟩ := List.nodup_cons.mp hkeys
    rw [extendedMembers_cons] at h
    obtain ⟨v, -, h⟩ := Option.bind_eq_some_iff.mp h
    rw [ih hkeys h, keys_setMember, mergedKeys, mergedKeys, List.map_cons]
    by_cases hmem : key ∈ members.map Prod.fst
    · rw [if_pos hmem, List.filter_cons_of_neg (by simpa using hmem)]
    · rw [if_neg hmem, List.filter_cons_of_pos (by simpa using hmem), List.append_assoc]
      have hrest : (merge.map Prod.fst).filter (· ∉ members.map Prod.fst ++ [key]) =
          (merge.map Prod.fst).filter (· ∉ members.map Prod.fst) := by
        refine List.filter_congr fun k hk => ?_
        have hne : k ≠ key := by
          rintro rfl
          exact hnew hk
        simp [hne]
      rw [hrest]
      rfl

theorem extendedMembers_lookup (hkeys : (merge.map Prod.fst).Nodup) (h : extendedMembers members merge = some new)
    (k : CString) : combine (members.lookup k) (merge.lookup k) = some (new.lookup k) := by
  induction merge generalizing members with
  | nil =>
    cases h
    rfl
  | cons m merge ih =>
    obtain ⟨key, value⟩ := m
    obtain ⟨hnew, hkeys⟩ := List.nodup_cons.mp hkeys
    rw [extendedMembers_cons] at h
    obtain ⟨v, hput, h⟩ := Option.bind_eq_some_iff.mp h
    have hrest := ih hkeys h
    by_cases hk : k = key
    · rw [hk, lookup_setMember, if_pos rfl, lookup_eq_none.mpr hnew] at hrest
      rw [hk, List.lookup_cons_self, combine, hput]
      exact hrest
    · rw [lookup_setMember_ne hk] at hrest
      rwa [lookup_cons_ne hk]

theorem nodup_mergedKeys {keys merged : List CString} (hkeys : keys.Nodup) (hmerged : merged.Nodup) :
    (mergedKeys keys merged).Nodup := by
  refine List.Nodup.append hkeys (hmerged.filter _) fun k hk hk' => ?_
  have hnot := (List.mem_filter.mp hk').2
  simp [hk] at hnot

theorem extendedMembers_eq_some (hmembers : (members.map Prod.fst).Nodup)
    (hmerge : (merge.map Prod.fst).Nodup) : extendedMembers members merge = some new ↔
      new.map Prod.fst = mergedKeys (members.map Prod.fst) (merge.map Prod.fst) ∧
      ∀ k, combine (members.lookup k) (merge.lookup k) = some (new.lookup k) := by
  refine ⟨fun h => ⟨extendedMembers_keys hmerge h, extendedMembers_lookup hmerge h⟩, ?_⟩
  rintro ⟨hkeys, hlookup⟩
  have hsome : (extendedMembers members merge).isSome := by
    rw [extendedMembers_isSome hmerge]
    rintro ⟨k, v⟩ hm
    have h := hlookup k
    rw [lookup_of_mem hmerge hm, combine, Option.map_eq_some_iff] at h
    obtain ⟨x, hx, -⟩ := h
    exact Option.isSome_of_eq_some hx
  obtain ⟨new', hnew'⟩ := Option.isSome_iff_exists.mp hsome
  rw [hnew', Option.some.injEq]
  refine ext ((extendedMembers_keys hmerge hnew').trans hkeys.symm) ?_ fun k => ?_
  · rw [extendedMembers_keys hmerge hnew']
    exact nodup_mergedKeys hmembers hmerge
  · have h := (extendedMembers_lookup hmerge hnew' k).symm.trans (hlookup k)
    exact Option.some.inj h

end

/-! ## The laws -/

section
variable {a b c d e : Json} {path : List CString} {members : List (CString × Json)} {x y : Option Json}

theorem isObject_iff : a.isObject ↔ ∃ members, a = .object members := by
  cases a <;> simp [Json.isObject]

theorem isObject_of_atPath {key : CString} (h : a.atPath (key :: path) = some b) : a.isObject := by
  cases a with
  | object => rfl
  | _ => cases h

theorem conflict_members {merge : List (CString × Json)} :
    Conflict (.object members) (.object merge) ↔ ∃ key x y, members.lookup key = some x ∧
      merge.lookup key = some y ∧ x.isObject ∧ Conflict x y := by
  constructor
  · rintro ⟨path, u, v, hu, hv, huobject, hvother⟩
    cases path with
    | nil =>
      cases hv
      exact absurd rfl hvother
    | cons key path =>
      obtain ⟨x, hx, hu⟩ := Option.bind_eq_some_iff.mp hu
      obtain ⟨y, hy, hv⟩ := Option.bind_eq_some_iff.mp hv
      refine ⟨key, x, y, hx, hy, ?_, path, u, v, hu, hv, huobject, hvother⟩
      cases path with
      | nil =>
        cases hu
        exact huobject
      | cons k path => exact isObject_of_atPath hu
  · rintro ⟨key, x, y, hx, hy, -, path, u, v, hu, hv, huobject, hvother⟩
    refine ⟨key :: path, u, v, ?_, ?_, huobject, hvother⟩
    · rw [Json.atPath, hx, Option.bind_some, hu]
    · rw [Json.atPath, hy, Option.bind_some, hv]

theorem extended_isSome_iff (ha : a.Keyed) (hobject : a.isObject) (hb : b.Keyed) :
    (extended a b).isSome ↔ ¬ Conflict a b := by
  induction ha generalizing b with
  | object hkeys hmembers ih =>
    rename_i members
    cases b with
    | object merge =>
      rw [extended_object, Option.isSome_map, extendedMembers_isSome hb.keys, conflict_members]
      constructor
      · rintro h ⟨key, x, y, hx, hy, hxobject, hconflict⟩
        have hput := h _ (mem_of_lookup hy)
        obtain ⟨members', rfl⟩ := isObject_iff.1 hxobject
        dsimp only at hput
        rw [hx, put, ih (key, _) (mem_of_lookup hx) rfl (hb.member hy)] at hput
        exact hput hconflict
      · rintro h ⟨key, y⟩ hy
        have hylookup := lookup_of_mem hb.keys hy
        dsimp only
        cases hx : members.lookup key with
        | none => rfl
        | some x =>
          by_cases hxobject : x.isObject
          · obtain ⟨members', rfl⟩ := isObject_iff.1 hxobject
            rw [put, ih (key, _) (mem_of_lookup hx) rfl (hb.member hylookup)]
            exact fun hconflict => h ⟨key, _, y, hx, hylookup, rfl, hconflict⟩
          · rw [put_scalar hxobject]
            rfl
    | _ =>
      simp only [extended_other, Json.isObject, Bool.false_eq_true, not_false_eq_true, Option.isSome_none,
        false_iff, not_not]
      exact ⟨[], _, _, rfl, rfl, rfl, Bool.false_ne_true⟩
  | _ => cases hobject

/-- What is at a path after a merge that succeeds. -/
structure MergedAt (old new merged : Option Json) : Prop where
  absent : new = none → merged = old
  objects : ∀ members value, old = some (.object members) → new = some value →
    ∃ json, jsonObjectExtend (.object members) value = (json, 0) ∧ merged = some json
  replaced : ∀ value, (∀ members, old ≠ some (.object members)) → new = some value → merged = some value

theorem extended_atPath (ha : a.Keyed) (hb : b.Keyed) (h : extended a b = some d) :
    MergedAt (a.atPath path) (b.atPath path) (d.atPath path) := by
  obtain ⟨haobject, hbobject, hdobject⟩ := extended_objects h
  obtain ⟨as, rfl⟩ := isObject_iff.1 haobject
  obtain ⟨bs, rfl⟩ := isObject_iff.1 hbobject
  obtain ⟨ds, rfl⟩ := isObject_iff.1 hdobject
  induction path generalizing as bs ds with
  | nil =>
    refine ⟨nofun, ?_, fun _ hother => absurd rfl (hother as)⟩
    rintro members value hmembers hvalue
    cases hmembers
    cases hvalue
    exact ⟨_, extended_eq_some.1 h, rfl⟩
  | cons key path ih =>
    rw [extended_object, Option.map_eq_some_iff] at h
    obtain ⟨ds', h, hds'⟩ := h
    cases hds'
    have hkey := extendedMembers_lookup hb.keys h key
    rw [Json.atPath, Json.atPath, Json.atPath]
    cases hy : bs.lookup key with
    | none =>
      rw [hy, combine, Option.some.injEq] at hkey
      rw [hkey]
      exact ⟨fun _ => rfl, nofun, nofun⟩
    | some y =>
      rw [hy, combine, Option.map_eq_some_iff] at hkey
      obtain ⟨z, hput, hz⟩ := hkey
      rw [← hz, Option.bind_some, Option.bind_some]
      by_cases hx : ∃ members, as.lookup key = some (.object members)
      · obtain ⟨members, hx⟩ := hx
        rw [hx, put] at hput
        rw [hx, Option.bind_some]
        obtain ⟨-, hyobject, hzobject⟩ := extended_objects hput
        obtain ⟨ys, rfl⟩ := isObject_iff.1 hyobject
        obtain ⟨zs, rfl⟩ := isObject_iff.1 hzobject
        exact ih members (ha.member hx) rfl ys (hb.member hy) rfl zs rfl hput
      · rw [put_other (not_exists.mp hx), Option.some.injEq] at hput
        rw [← hput]
        -- The member is replaced as a whole, and the target has nothing below it.
        have hnone (k : CString) (path : List CString) : (as.lookup key).bind (Json.atPath (k :: path)) = none := by
          rw [Option.bind_eq_none_iff]
          intro x hlookup
          by_contra hsome
          obtain ⟨u, hu⟩ := Option.ne_none_iff_exists'.mp hsome
          obtain ⟨members, rfl⟩ := isObject_iff.1 (isObject_of_atPath hu)
          exact hx ⟨members, hlookup⟩
        cases path with
        | nil =>
          refine ⟨nofun, fun members _ hmembers => absurd ⟨members, ?_⟩ hx, fun _ _ hvalue => hvalue⟩
          obtain ⟨x, hx, hxmembers⟩ := Option.bind_eq_some_iff.mp hmembers
          cases hxmembers
          exact hx
        | cons k path =>
          rw [hnone]
          exact ⟨id, nofun, fun _ _ hvalue => hvalue⟩

theorem mem_mergedKeys {keys merge : List CString} {key : CString} (h : key ∈ merge) :
    key ∈ mergedKeys keys merge := by
  rw [mergedKeys, List.mem_append, List.mem_filter]
  by_cases hkey : key ∈ keys
  · exact Or.inl hkey
  · exact Or.inr ⟨h, by simpa using hkey⟩

theorem mergedKeys_absorb {keys merge : List CString} (h : ∀ k ∈ merge, k ∈ keys) : mergedKeys keys merge = keys := by
  have hnil : merge.filter (· ∉ keys) = [] := by
    rw [List.filter_eq_nil_iff]
    intro k hk
    simpa using h k hk
  rw [mergedKeys, hnil, List.append_nil]

theorem mergedKeys_assoc (as bs cs : List CString) :
    mergedKeys (mergedKeys as bs) cs = mergedKeys as (mergedKeys bs cs) := by
  simp only [mergedKeys, List.filter_append, List.append_assoc, List.filter_filter]
  congr 2
  refine List.filter_congr fun k _ => ?_
  by_cases ha : k ∈ as <;> simp [ha]

theorem put_self (h : a.isObject → extended a a = some a) : put (some a) a = some a := by
  by_cases hobject : a.isObject
  · have heq := h hobject
    obtain ⟨members, rfl⟩ := isObject_iff.1 hobject
    exact heq
  · exact put_scalar hobject

theorem extended_self (hb : b.Keyed) (hobject : b.isObject) : extended b b = some b := by
  induction hb with
  | object hkeys hmembers ih =>
    rename_i members
    rw [extended_object, (extendedMembers_eq_some hkeys hkeys).mpr ⟨?_, fun k => ?_⟩]
    · rfl
    · exact (mergedKeys_absorb fun _ => id).symm
    · cases hlookup : members.lookup k with
      | none => rfl
      | some v =>
        rw [combine, put_self (ih (k, _) (mem_of_lookup hlookup)), Option.map_some]
  | _ => cases hobject

theorem extended_again (hb : b.Keyed) (ha : a.Keyed) (h : extended a b = some d) : extended d b = some d := by
  induction hb generalizing a d with
  | object hkeys hmembers ih =>
    rename_i bs
    obtain ⟨haobject, -, hdobject⟩ := extended_objects h
    obtain ⟨as, rfl⟩ := isObject_iff.1 haobject
    obtain ⟨ds, rfl⟩ := isObject_iff.1 hdobject
    rw [extended_object, Option.map_eq_some_iff] at h
    obtain ⟨ds', h, hds'⟩ := h
    cases hds'
    have hdkeys := extendedMembers_keys hkeys h
    have hdnodup : (ds.map Prod.fst).Nodup := by
      rw [hdkeys]
      exact nodup_mergedKeys ha.keys hkeys
    rw [extended_object, (extendedMembers_eq_some hdnodup hkeys).mpr ⟨?_, fun k => ?_⟩]
    · rfl
    · rw [mergedKeys_absorb]
      intro k hk
      rw [hdkeys]
      exact mem_mergedKeys hk
    · have hkey := extendedMembers_lookup hkeys h k
      cases hy : bs.lookup k with
      | none => rfl
      | some y =>
        rw [hy, combine, Option.map_eq_some_iff] at hkey
        obtain ⟨z, hput, hz⟩ := hkey
        rw [← hz, combine]
        by_cases hx : ∃ members, as.lookup k = some (.object members)
        · obtain ⟨members, hx⟩ := hx
          rw [hx, put] at hput
          obtain ⟨-, -, hzobject⟩ := extended_objects hput
          obtain ⟨zs, rfl⟩ := isObject_iff.1 hzobject
          rw [put, ih (k, _) (mem_of_lookup hy) (ha.member hx) hput, Option.map_some]
        · rw [put_other (not_exists.mp hx), Option.some.injEq] at hput
          rw [← hput, put_self (extended_self (hmembers _ (mem_of_lookup hy))), Option.map_some]
  | _ =>
    rw [extended_other (fun hobject => by cases hobject)] at h
    cases h

theorem combine_assoc {x y z u w : Option Json}
    (ih : ∀ members v d t e, x = some (.object members) → y = some v → z = some t →
      extended (.object members) v = some d → extended d t = some e →
      ∃ f, extended v t = some f ∧ extended (.object members) f = some e)
    (hu : combine x y = some u) (hw : combine u z = some w) :
    ∃ f, combine y z = some f ∧ combine x f = some w := by
  cases y with
  | none =>
    cases hu
    cases z with
    | none => exact ⟨none, rfl, hw⟩
    | some t => exact ⟨some t, rfl, hw⟩
  | some v =>
    rw [combine, Option.map_eq_some_iff] at hu
    obtain ⟨d, hput, rfl⟩ := hu
    cases z with
    | none =>
      cases hw
      refine ⟨some v, rfl, ?_⟩
      rw [combine, hput]
      rfl
    | some t =>
      rw [combine, Option.map_eq_some_iff] at hw
      obtain ⟨e, hput', rfl⟩ := hw
      by_cases hx : ∃ members, x = some (.object members)
      · obtain ⟨members, rfl⟩ := hx
        rw [put] at hput
        obtain ⟨-, hvobject, hdobject⟩ := extended_objects hput
        obtain ⟨vs, rfl⟩ := isObject_iff.1 hvobject
        obtain ⟨ds, rfl⟩ := isObject_iff.1 hdobject
        obtain ⟨f, hf, hf'⟩ := ih members _ _ t e rfl rfl rfl hput hput'
        refine ⟨some f, ?_, ?_⟩
        · rw [combine, put, hf]
          rfl
        · rw [combine, put, hf']
          rfl
      · rw [put_other (not_exists.mp hx), Option.some.injEq] at hput
        rw [hput]
        refine ⟨some e, ?_, ?_⟩
        · rw [combine, hput']
          rfl
        · rw [combine, put_other (not_exists.mp hx)]
          rfl

theorem extended_assoc (ha : a.Keyed) (hb : b.Keyed) (hc : c.Keyed) (hd : extended a b = some d)
    (he : extended d c = some e) : ∃ f, extended b c = some f ∧ extended a f = some e := by
  induction ha generalizing b c d e with
  | object hkeys hmembers ih =>
    rename_i as
    obtain ⟨-, hbobject, hdobject⟩ := extended_objects hd
    obtain ⟨-, hcobject, heobject⟩ := extended_objects he
    obtain ⟨bs, rfl⟩ := isObject_iff.1 hbobject
    obtain ⟨cs, rfl⟩ := isObject_iff.1 hcobject
    obtain ⟨ds, rfl⟩ := isObject_iff.1 hdobject
    obtain ⟨es, rfl⟩ := isObject_iff.1 heobject
    rw [extended_object, Option.map_eq_some_iff] at hd he
    obtain ⟨ds', hd, hds'⟩ := hd
    obtain ⟨es', he, hes'⟩ := he
    cases hds'
    cases hes'
    have hassoc (k : CString) :
        ∃ f, combine (bs.lookup k) (cs.lookup k) = some f ∧ combine (as.lookup k) f = some (es.lookup k) := by
      refine combine_assoc ?_ (extendedMembers_lookup hb.keys hd k) (extendedMembers_lookup hc.keys he k)
      intro members v d t e hx hy hz
      exact ih (k, _) (mem_of_lookup hx) (hb.member hy) (hc.member hz)
    have hsome : (extendedMembers bs cs).isSome := by
      rw [extendedMembers_isSome hc.keys]
      rintro ⟨k, t⟩ hm
      obtain ⟨f, hf, -⟩ := hassoc k
      rw [lookup_of_mem hc.keys hm, combine, Option.map_eq_some_iff] at hf
      obtain ⟨z, hz, -⟩ := hf
      exact Option.isSome_of_eq_some hz
    obtain ⟨fs, hfs⟩ := Option.isSome_iff_exists.mp hsome
    have hfkeys := extendedMembers_keys hc.keys hfs
    have hfnodup : (fs.map Prod.fst).Nodup := by
      rw [hfkeys]
      exact nodup_mergedKeys hb.keys hc.keys
    refine ⟨.object fs, by rw [extended_object, hfs]; rfl, ?_⟩
    rw [extended_object, (extendedMembers_eq_some hkeys hfnodup).mpr ⟨?_, fun k => ?_⟩]
    · rfl
    · rw [extendedMembers_keys hc.keys he, extendedMembers_keys hb.keys hd, hfkeys, mergedKeys_assoc]
    · obtain ⟨f, hf, hf'⟩ := hassoc k
      have hlookup := extendedMembers_lookup hc.keys hfs k
      rw [hf, Option.some.injEq] at hlookup
      rwa [← hlookup]
  | _ =>
    obtain ⟨haobject, -, -⟩ := extended_objects hd
    cases haobject

end

/-- `json_object_extend` is the deep merge of objects in which the second one prevails. It fails
exactly for a conflict, is idempotent, and is associative as far as it succeeds. -/
theorem jsonObjectExtend_merges {as bs cs : List (CString × Json)} (ha : (Json.object as).Keyed)
    (hb : (Json.object bs).Keyed) (hc : (Json.object cs).Keyed) :
    ((jsonObjectExtend (.object as) (.object bs)).2 = 0 ↔ ¬ Conflict (.object as) (.object bs)) ∧
    ∀ ab, jsonObjectExtend (.object as) (.object bs) = (ab, 0) →
      (∀ path, MergedAt (Json.atPath path (.object as)) (Json.atPath path (.object bs)) (ab.atPath path)) ∧
      jsonObjectExtend ab (.object bs) = (ab, 0) ∧
      ∀ abc, jsonObjectExtend ab (.object cs) = (abc, 0) →
        ∃ bc, jsonObjectExtend (.object bs) (.object cs) = (bc, 0) ∧
          jsonObjectExtend (.object as) bc = (abc, 0) := by
  constructor
  · rw [← extended_isSome_iff ha rfl hb, extended]
    split_ifs with hret <;> simp [hret]
  · intro ab hab
    rw [← extended_eq_some] at hab
    refine ⟨fun path => extended_atPath ha hb hab, extended_eq_some.1 (extended_again hb ha hab), ?_⟩
    intro abc habc
    obtain ⟨bc, hbc, habc⟩ := extended_assoc ha hb hc hab (extended_eq_some.2 habc)
    exact ⟨bc, extended_eq_some.1 hbc, extended_eq_some.1 habc⟩

def extendKey : CString := ⟨"in", by decide⟩

def extendTarget : List (CString × Json) := [(extendKey, .object [(extendKey, .integer 1)])]

def extendMerge : List (CString × Json) := [(extendKey, .object [(extendKey, .boolean true)])]

theorem extendExample_keyed (value : Json) (h : value.Keyed) :
    (Json.object [(extendKey, .object [(extendKey, value)])]).Keyed := by
  refine .object (List.nodup_singleton _) (List.forall_mem_singleton.mpr ?_)
  exact .object (List.nodup_singleton _) (List.forall_mem_singleton.mpr h)

theorem jsonObjectExtend_merges_example :
    jsonObjectExtend (.object extendTarget) (.object extendMerge) = (.object extendMerge, 0) ∧
      jsonObjectExtend (.object extendMerge) (.object extendMerge) = (.object extendMerge, 0) := by
  have h : jsonObjectExtend (.object extendTarget) (.object extendMerge) = (.object extendMerge, 0) := rfl
  exact ⟨h, ((jsonObjectExtend_merges (extendExample_keyed _ (.integer 1)) (extendExample_keyed _ (.boolean true))
    (extendExample_keyed _ .null)).2 _ h).2.1⟩

end VillasNode.ConfigHelper
