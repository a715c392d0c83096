import Mathlib.Data.List.Basic

/-!
# Configuration trees

The functions of libconfig that build a tree of settings and read it again, as
an interface with the laws that its documentation states. Settings are told
apart by their addresses.
-/

namespace Libconfig

/-- A C string. -/
def CString := { s : String // '\x00' ∉ s.toList }
deriving DecidableEq

inductive SettingType where
  | none
  | int
  | int64
  | float
  | string
  | bool
  | array
  | list
  | group
deriving DecidableEq

/-- What the accessors return for a setting. A `double` is its bit pattern. -/
structure Setting (S : Type) where
  type : SettingType
  name : Option CString
  isRoot : Bool
  elements : List S
  int : BitVec 32
  int64 : BitVec 64
  float : BitVec 64
  string : Option CString
  bool : Bool

/-- As `config_setting_add` makes it. -/
def Setting.fresh {S : Type} (name : Option CString) (type : SettingType) : Setting S :=
  ⟨type, name, false, [], 0, 0, 0, none, false⟩

/-- A letter or `*`, then letters, digits and `*`, `_` and `-`. -/
def validName (name : CString) : Bool :=
  match name.val.toList with
  | [] => false
  | c :: cs => (c.isAlpha || c == '*') && cs.all fun c => c.isAlphanum || c == '*' || c == '_' || c == '-'

structure Api (C S : Type) where
  setting : C → S → Setting S
  /-- `NULL` if the setting is not added. -/
  add : C → S → Option CString → SettingType → Option (C × S)
  setInt64 : C → S → BitVec 64 → C
  setFloat : C → S → BitVec 64 → C
  setString : C → S → CString → C
  setBool : C → S → Bool → C

variable {C S : Type}

/-- A setting may be added to a list without a name, and to a group with a valid one that no other
setting in it has. -/
def Api.Addable (api : Api C S) (c : C) (parent : S) (name : Option CString) : Prop :=
  ((api.setting c parent).type = .list ∧ name = none) ∨
    ((api.setting c parent).type = .group ∧ ∃ k, name = some k ∧ validName k ∧
      ∀ e ∈ (api.setting c parent).elements, (api.setting c e).name ≠ some k)

/-- Only this setting of the tree is another one afterwards. -/
structure Api.Stores (api : Api C S) (live : C → S → Prop) (c c' : C) (s : S) (new : Setting S) :
    Prop where
  kept : ∀ q, live c' q ↔ live c q
  stored : api.setting c' s = new
  others : ∀ q, live c q → q ≠ s → api.setting c' q = api.setting c q

/-- What is stored is what is read, and in order. `live` are the settings of the tree. -/
structure Api.Faithful (api : Api C S) (live : C → S → Prop) : Prop where
  add : ∀ c p name type, live c p → api.Addable c p name →
    ∃ c' s, api.add c p name type = some (c', s) ∧ ¬ live c s ∧ (∀ q, live c' q ↔ live c q ∨ q = s) ∧
      api.setting c' s = .fresh name type ∧
      api.setting c' p =
        { api.setting c p with elements := (api.setting c p).elements ++ [s] } ∧
      ∀ q, live c q → q ≠ p → api.setting c' q = api.setting c q
  setInt64 : ∀ c s v, live c s → (api.setting c s).type = .int64 →
    api.Stores live c (api.setInt64 c s v) s { api.setting c s with int64 := v }
  setFloat : ∀ c s v, live c s → (api.setting c s).type = .float →
    api.Stores live c (api.setFloat c s v) s { api.setting c s with float := v }
  setString : ∀ c s v, live c s → (api.setting c s).type = .string →
    api.Stores live c (api.setString c s v) s { api.setting c s with string := some v }
  setBool : ∀ c s v, live c s → (api.setting c s).type = .bool →
    api.Stores live c (api.setBool c s v) s { api.setting c s with bool := v }

/-! ## A tree in a list -/

/-- The address of a setting is its index. -/
abbrev Store := List (Setting Nat)

namespace Store

def setting (c : Store) (s : Nat) : Setting Nat := c.getD s (.fresh none .none)

def addable (c : Store) (parent : Nat) (name : Option CString) : Bool :=
  match (setting c parent).type, name with
  | .list, none => true
  | .group, some k => validName k && (setting c parent).elements.all fun e => (setting c e).name ≠ some k
  | _, _ => false

/-- The value of a setting of this type. -/
def set (c : Store) (s : Nat) (type : SettingType) (new : Setting Nat → Setting Nat) : Store :=
  if (setting c s).type = type then List.set c s (new (setting c s)) else c

def api : Api Store Nat where
  setting
  add c parent name type :=
    if addable c parent name then
      some (List.set c parent
        { setting c parent with elements := (setting c parent).elements ++ [c.length] } ++
          [.fresh name type], c.length)
    else none
  setInt64 c s v := set c s .int64 fun setting => { setting with int64 := v }
  setFloat c s v := set c s .float fun setting => { setting with float := v }
  setString c s v := set c s .string fun setting => { setting with string := some v }
  setBool c s v := set c s .bool fun setting => { setting with bool := v }

def live (c : Store) (s : Nat) : Prop := s < c.length

theorem stores_set {c : Store} {s : Nat} {type : SettingType} (new : Setting Nat → Setting Nat) (hs : live c s)
    (htype : (setting c s).type = type) : api.Stores live c (set c s type new) s (new (setting c s)) := by
  unfold set
  rw [if_pos htype]
  refine ⟨fun q => ?_, ?_, fun q _ hq => ?_⟩
  · simp [live]
  · unfold live at hs
    simp [api, setting, List.getD_eq_getElem?_getD, hs]
  · simp [api, setting, List.getD_eq_getElem?_getD, Ne.symm hq]

theorem addable_of {c : Store} {p : Nat} {name : Option CString} (h : api.Addable c p name) :
    addable c p name = true := by
  unfold addable
  obtain ⟨htype, rfl⟩ | ⟨htype, k, rfl, hvalid, hnew⟩ := h
  · rw [show (setting c p).type = .list from htype]
  · rw [show (setting c p).type = .group from htype]
    simp only [hvalid, Bool.true_and, List.all_eq_true, decide_eq_true_eq]
    exact hnew

theorem faithful_api : api.Faithful live where
  add c p name type hp h := by
    unfold live at hp
    refine ⟨_, c.length, if_pos (addable_of h), Nat.lt_irrefl _, fun q => ?_, ?_, ?_, fun q hq hne => ?_⟩
    · unfold live
      simp
      omega
    · simp [api, setting, List.getD_eq_getElem?_getD]
    · simp [api, setting, List.getD_eq_getElem?_getD, List.getElem?_append_left, hp]
    · unfold live at hq
      simp [api, setting, List.getD_eq_getElem?_getD, List.getElem?_append_left, hq, Ne.symm hne]
  setInt64 c s v hs htype := stores_set (fun setting => { setting with int64 := v }) hs htype
  setFloat c s v hs htype := stores_set (fun setting => { setting with float := v }) hs htype
  setString c s v hs htype := stores_set (fun setting => { setting with string := some v }) hs htype
  setBool c s v hs htype := stores_set (fun setting => { setting with bool := v }) hs htype

end Store

end Libconfig
