import VillasNode.Config.Extend
import VillasNode.Lib.CText
import VillasNode.Lib.Regex
import VillasNode.Lib.Strto

/-!
# Environment variables in configurations

`Config::walkStrings` and `Config::expandEnvVars` of `lib/config.cpp`. The name
is handed to `getenv` by a pointer into a string that is gone by then, so the
name that is read is any function of it.
-/

namespace VillasNode.ConfigHelper

open ByteOrder CText Libconfig Members Strto

/-! ## The code -/

section
variable (cb : CString → Option (Option Json))

mutual

/-- `none` when a callback does not return. -/
def walkStrings : Json → Option (Option Json)
  | .string value => cb value
  | .object members => (walkMembers members []).map fun newRoot => some (.object newRoot)
  | .array elements => (walkElements elements []).map fun newRoot => some (.array newRoot)
  | root => some (some root)

def walkMembers : List (CString × Json) → List (CString × Json) → Option (List (CString × Json))
  | [], newRoot => some newRoot
  | (key, val) :: members, newRoot =>
    (walkStrings val).bind fun newVal => walkMembers members (jsonObjectSetNew newRoot (some key) newVal)

def walkElements : List Json → List Json → Option (List Json)
  | [], newRoot => some newRoot
  | val :: elements, newRoot =>
    (walkStrings val).bind fun newVal => walkElements elements (jsonArrayAppendNew newRoot newVal)

end

end

/-- `\$\{([^}]+)\}` -/
def envRe : Regex Byte :=
  .seq (.text [ch '$', ch '\x7b']) (.seq (.group 1 (.run (· ≠ ch '\x7d') 1 none)) (.text [ch '\x7d']))

/-- The text in front of a match, the name in it, and the text behind it. -/
structure Found where
  before : List Byte
  name : List Byte
  behind : List Byte
deriving DecidableEq

def search (text : List Byte) : Option Found :=
  (envRe.regexSearch text).map fun m => ⟨m.1, (m.2.1 1).getD [], m.2.2⟩

inductive Expansion where
  /-- The loop goes on. -/
  | running
  /-- A null pointer is handed to `replace`. -/
  | null
  | done (text : List Byte)
deriving DecidableEq

section
variable (getenv : List Byte → Option (List Byte))

/-- The loop for a number of turns. -/
def expandLoop : Nat → List Byte → Expansion
  | 0, _ => .running
  | n + 1, text =>
    match search text with
    | none => .done text
    | some found =>
      match getenv found.name with
      | none => .null
      | some value => expandLoop n (found.before ++ (value ++ found.behind))

/-- The callback. `none` when it does not come to its end in so many turns. -/
def expandString (n : Nat) (str : CString) : Option (Option Json) :=
  match expandLoop getenv n (bytes str) with
  | .done text => some ((decode text).map .string)
  | _ => none

def expandEnvVars (n : Nat) (root : Json) : Option (Option Json) := walkStrings (expandString getenv n) root

end

/-! ## The specification -/

/-- The names and values of the environment. -/
abbrev Environment := List (List Byte × List Byte)

/-- There is no variable with an empty name. -/
def getenv (env : Environment) (name : List Byte) : Option (List Byte) :=
  if name = [] then none else env.lookup name

mutual

def Json.strings : Json → List CString
  | .string value => [value]
  | .object members => stringsOfMembers members
  | .array elements => stringsOfElements elements
  | _ => []

def stringsOfMembers : List (CString × Json) → List CString
  | [] => []
  | (_, value) :: members => value.strings ++ stringsOfMembers members

def stringsOfElements : List Json → List CString
  | [] => []
  | value :: elements => value.strings ++ stringsOfElements elements

end

section
variable (f : CString → CString)

mutual

/-- The same tree with other strings. -/
def Json.mapStrings : Json → Json
  | .string value => .string (f value)
  | .object members => .object (mapMembers members)
  | .array elements => .array (mapElements elements)
  | json => json

def mapMembers : List (CString × Json) → List (CString × Json)
  | [] => []
  | (key, value) :: members => (key, value.mapStrings) :: mapMembers members

def mapElements : List Json → List Json
  | [] => []
  | value :: elements => value.mapStrings :: mapElements elements

end

end

/-- `${NAME}` with at least one character that is no closing brace. -/
def reference (name : List Byte) : List Byte := ch '$' :: ch '\x7b' :: (name ++ [ch '\x7d'])

structure IsName (name : List Byte) : Prop where
  ne : name ≠ []
  closed : ch '\x7d' ∉ name

def Refers (text : List Byte) : Prop :=
  ∃ before name behind, text = before ++ (reference name ++ behind) ∧ IsName name

/-! ## Searching -/

section
variable {text before name behind value s t : List Byte} {x : Byte}

/-- A reference is at the front of the text. -/
def Front (text name behind : List Byte) : Prop := text = reference name ++ behind ∧ IsName name

theorem front_mem (c : Regex.Captures Byte) (h : (c, behind) ∈ envRe.search text Regex.Captures.none) :
    ∃ name, Front text name behind ∧ c 1 = some name := by
  obtain ⟨t, rfl, s₁, s₂, c₁, rfl, ⟨rfl, rfl⟩, s₃, s₄, c₂, rfl, ⟨c₃, hrun, rfl⟩, rfl, rfl⟩ := Regex.mem_search.mp h
  obtain ⟨hall, hlength, -, rfl⟩ := hrun
  refine ⟨s₃, ⟨?_, ⟨List.ne_nil_of_length_pos hlength, fun hmem => ?_⟩⟩, ?_⟩
  · simp [reference]
  · simpa using hall _ hmem
  · rw [Function.update_self]

theorem mem_front (h : Front text name behind) :
    ∃ c, (c, behind) ∈ envRe.search text Regex.Captures.none ∧ c 1 = some name := by
  obtain ⟨rfl, hname⟩ := h
  refine ⟨Function.update Regex.Captures.none 1 (some name), ?_, by rw [Function.update_self]⟩
  refine Regex.mem_search.mpr ⟨reference name, rfl, [ch '$', ch '\x7b'], name ++ [ch '\x7d'], _, rfl, ⟨rfl, rfl⟩,
    name, [ch '\x7d'], _, rfl, ⟨_, ⟨fun b hb => ?_, List.length_pos_iff.mpr hname.ne, nofun, rfl⟩, rfl⟩, rfl, rfl⟩
  rw [decide_eq_true_eq]
  rintro rfl
  exact hname.closed hb

theorem Front.unique {name' behind' : List Byte} (h : Front text name behind) (h' : Front text name' behind') :
    name = name' ∧ behind = behind' := by
  obtain ⟨rfl, hname⟩ := h
  obtain ⟨heq, hname'⟩ := h'
  simp only [reference, List.cons_append, List.cons.injEq, true_and, List.append_assoc, List.nil_append] at heq
  have hclosed {name : List Byte} (hname : IsName name) : ∀ b ∈ name, (decide (b ≠ ch '\x7d')) = true := by
    intro b hb
    rw [decide_eq_true_eq]
    rintro rfl
    exact hname.closed hb
  obtain ⟨rfl, hbehind⟩ := Regex.append_unique (hclosed hname) (hclosed hname') (by simp) (by simp) heq
  cases hbehind
  exact ⟨rfl, rfl⟩

theorem search_front (h : Front text name behind) : search text = some ⟨[], name, behind⟩ := by
  obtain ⟨c, hmem, hc⟩ := mem_front h
  cases hhead : (envRe.search text Regex.Captures.none).head? with
  | none =>
    rw [List.head?_eq_none_iff] at hhead
    rw [hhead] at hmem
    cases hmem
  | some m =>
    obtain ⟨c', behind'⟩ := m
    obtain ⟨name', hfront, hc'⟩ := front_mem c' (List.mem_of_head? hhead)
    obtain ⟨rfl, rfl⟩ := h.unique hfront
    rw [search, Regex.regexSearch_here hhead, Option.map_some]
    dsimp only
    rw [hc']
    rfl

theorem search_nil : search [] = none := rfl

theorem search_cons (h : ∀ name behind, ¬ Front (x :: text) name behind) :
    search (x :: text) = (search text).map fun found => { found with before := x :: found.before } := by
  have hnil : envRe.search (x :: text) Regex.Captures.none = [] := by
    rw [List.eq_nil_iff_forall_not_mem]
    rintro ⟨c, behind⟩ hmem
    obtain ⟨name, hfront, -⟩ := front_mem c hmem
    exact h name behind hfront
  rw [search, Regex.regexSearch_later hnil, search, Option.map_map, Option.map_map]
  rfl

theorem search_some {found : Found} (h : search text = some found) :
    text = found.before ++ (reference found.name ++ found.behind) ∧ IsName found.name ∧
      ∀ s t, found.before = s ++ t → t ≠ [] → ∀ name behind,
        ¬ Front (t ++ (reference found.name ++ found.behind)) name behind := by
  induction text generalizing found with
  | nil => cases h
  | cons x text ih =>
    by_cases hfront : ∃ name behind, Front (x :: text) name behind
    · obtain ⟨name, behind, hfront⟩ := hfront
      rw [search_front hfront, Option.some.injEq] at h
      rw [← h]
      refine ⟨hfront.1, hfront.2, fun s t hst hne => ?_⟩
      exact absurd (List.append_eq_nil_iff.mp hst.symm).2 hne
    · have hnone : ∀ name behind, ¬ Front (x :: text) name behind := fun name behind hf => hfront ⟨name, behind, hf⟩
      rw [search_cons hnone] at h
      obtain ⟨found', hfound', rfl⟩ := Option.map_eq_some_iff.mp h
      obtain ⟨htext, hname, hfirst⟩ := ih hfound'
      refine ⟨by rw [htext, List.cons_append], hname, fun s t hst hne => ?_⟩
      cases s with
      | nil =>
        rw [List.nil_append] at hst
        rw [← hst, List.cons_append, ← htext]
        exact hnone
      | cons y s =>
        rw [List.cons_append, List.cons.injEq] at hst
        exact hfirst s t hst.2 hne

theorem search_none_iff : search text = none ↔ ¬ Refers text := by
  constructor
  · rintro h ⟨before, name, behind, rfl, hname⟩
    induction before with
    | nil =>
      rw [List.nil_append, search_front ⟨rfl, hname⟩] at h
      cases h
    | cons x before ih =>
      by_cases hfront : ∃ name' behind', Front (x :: (before ++ (reference name ++ behind))) name' behind'
      · obtain ⟨name', behind', hfront⟩ := hfront
        rw [List.cons_append, search_front hfront] at h
        cases h
      · rw [List.cons_append, search_cons fun name' behind' hf => hfront ⟨name', behind', hf⟩,
          Option.map_eq_none_iff] at h
        exact ih h
  · intro h
    cases hsearch : search text with
    | none => rfl
    | some found =>
      obtain ⟨htext, hname, -⟩ := search_some hsearch
      exact absurd ⟨_, _, _, htext, hname⟩ h

theorem search_behind {found : Found} (h : search text = some found) : found.behind.length < text.length := by
  obtain ⟨htext, -, -⟩ := search_some h
  rw [htext]
  simp only [reference, List.length_append, List.length_cons]
  omega

end

/-! ## All references of a text -/

/-- The references with the text in front of each of them, and the text behind the last one. -/
def parts (text : List Byte) : List (List Byte × List Byte) × List Byte :=
  match h : search text with
  | none => ([], text)
  | some found =>
    have := search_behind h
    let rest := parts found.behind
    ((found.before, found.name) :: rest.1, rest.2)
termination_by text.length

def references (text : List Byte) : List (List Byte) := (parts text).1.map Prod.snd

/-- All references are replaced at once. -/
def substituted (getenv : List Byte → Option (List Byte)) (text : List Byte) : List Byte :=
  ((parts text).1.flatMap fun part => part.1 ++ (getenv part.2).getD []) ++ (parts text).2

structure Plain (value : List Byte) : Prop where
  dollar : ch '$' ∉ value
  opening : ch '\x7b' ∉ value
  closing : ch '\x7d' ∉ value

/-- It comes to its end without a null pointer. All but the strings is as it was, and references to
plain values are replaced at once. -/
def Expands (env : Environment) (stale : List Byte → List Byte) (json : Json) : Prop :=
  ∃ n f, expandEnvVars (fun name => getenv env (stale name)) n json = some (some (json.mapStrings f)) ∧
    ((∀ value ∈ env.map Prod.snd, Plain value) →
      ∀ s ∈ json.strings, bytes (f s) = substituted (getenv env) (bytes s))

section
variable {text pre before name behind value s t : List Byte} {found : Found}

theorem parts_none (h : search text = none) : parts text = ([], text) := by
  rw [parts]
  split
  · rfl
  · simp_all

theorem parts_some (h : search text = some found) :
    parts text = ((found.before, found.name) :: (parts found.behind).1, (parts found.behind).2) := by
  rw [parts]
  split <;> simp_all

/-- No reference begins in `pre` when this is in front of `s`. -/
def Inert (pre s : List Byte) : Prop :=
  ∀ u v, pre = u ++ v → v ≠ [] → ∀ name behind, ¬ Front (v ++ s) name behind

theorem inert_nil (s : List Byte) : Inert [] s := fun _ _ h hne =>
  absurd (List.append_eq_nil_iff.mp h.symm).2 hne

theorem Inert.append (h : Inert pre (before ++ t)) (h' : Inert before t) : Inert (pre ++ before) t := by
  intro u v huv hne
  obtain ⟨w, hu, hv⟩ | ⟨w, hu, hv⟩ := List.append_eq_append_iff.mp huv
  · exact h' w v hv hne
  · rw [hv, List.append_assoc]
    by_cases hw : w = []
    · rw [hw, List.nil_append] at hv ⊢
      exact h' [] before rfl (hv ▸ hne)
    · exact h u w hu hw

theorem search_inert (h : Inert pre s) :
    search (pre ++ s) = (search s).map fun found => { found with before := pre ++ found.before } := by
  induction pre with
  | nil => exact Option.map_id'.symm
  | cons x pre ih =>
    have hrest : Inert pre s := by
      rintro u v rfl hne
      exact h (x :: u) v rfl hne
    have hnone : ∀ name behind, ¬ Front (x :: (pre ++ s)) name behind := h [] (x :: pre) rfl (List.cons_ne_nil x pre)
    rw [List.cons_append, search_cons hnone, ih hrest, Option.map_map]
    rfl

theorem front_of_closed (hmem : ch '\x7d' ∈ s) (hhead : s.head? ≠ some (ch '\x7d')) :
    ∃ name behind, Front (ch '$' :: ch '\x7b' :: s) name behind := by
  have htake (b : Byte) (hb : b ∈ s.takeWhile (· ≠ ch '\x7d')) : b ≠ ch '\x7d' := by
    simpa using List.mem_takeWhile_imp hb
  have hsplit := List.takeWhile_append_dropWhile (p := fun b => decide (b ≠ ch '\x7d')) (l := s)
  cases hdrop : s.dropWhile (· ≠ ch '\x7d') with
  | nil =>
    rw [hdrop, List.append_nil] at hsplit
    exact absurd rfl (htake _ (hsplit.symm ▸ hmem))
  | cons b behind =>
    have hb : b = ch '\x7d' := by
      have hnot := List.head?_dropWhile_not (fun b => decide (b ≠ ch '\x7d')) s
      rw [hdrop] at hnot
      simpa using hnot
    refine ⟨s.takeWhile (· ≠ ch '\x7d'), behind, ?_, ?_, fun hmem => htake _ hmem rfl⟩
    · rw [hdrop, hb] at hsplit
      conv => lhs; rw [← hsplit]
      simp [reference]
    · intro hnil
      rw [hnil, hdrop, List.nil_append, hb] at hsplit
      rw [← hsplit] at hhead
      exact hhead rfl

theorem Inert.replaced (h : Inert pre (reference name ++ behind)) (hplain : Plain value) (hne : value ≠ []) :
    Inert (pre ++ value) behind := by
  intro u v huv hvne name' behind' hfront
  obtain ⟨hv, hname'⟩ := hfront
  rw [reference, List.cons_append, List.cons_append] at hv
  obtain ⟨w, hu, hvalue⟩ | ⟨w, hpre, hw⟩ := List.append_eq_append_iff.mp huv
  · -- It would begin in the value.
    obtain ⟨b, v, rfl⟩ := List.exists_cons_of_ne_nil hvne
    obtain rfl := (List.cons.inj hv).1
    exact hplain.dollar (hvalue ▸ List.mem_append_right w (List.mem_cons_self ..))
  · rw [hw, List.append_assoc] at hv
    cases w with
    | nil =>
      obtain ⟨b, value, rfl⟩ := List.exists_cons_of_ne_nil hne
      obtain rfl := (List.cons.inj hv).1
      exact hplain.dollar (List.mem_cons_self ..)
    | cons a w =>
      obtain ⟨rfl, hsecond⟩ := List.cons.inj hv
      cases w with
      | nil =>
        obtain ⟨b, value, rfl⟩ := List.exists_cons_of_ne_nil hne
        obtain rfl := (List.cons.inj hsecond).1
        exact hplain.opening (List.mem_cons_self ..)
      | cons a w =>
        -- It would be one already in front of the reference that is replaced.
        obtain ⟨rfl, hrest⟩ := List.cons.inj hsecond
        have hhead : (w ++ (reference name ++ behind)).head? ≠ some (ch '\x7d') := by
          cases w with
          | nil => simp [reference, ch]
          | cons c w =>
            obtain ⟨d, name', rfl⟩ := List.exists_cons_of_ne_nil hname'.ne
            obtain rfl : c = d := (List.cons.inj hrest).1
            intro hc
            rw [List.cons_append, List.head?_cons, Option.some.injEq] at hc
            exact hname'.closed (hc ▸ List.mem_cons_self ..)
        obtain ⟨name₀, behind₀, hfront⟩ := front_of_closed (by simp [reference]) hhead
        exact h u _ hpre (List.cons_ne_nil _ _) name₀ behind₀ hfront

/-! ## The loop -/

theorem expandLoop_mono {getenv : List Byte → Option (List Byte)} {n : Nat} (h : expandLoop getenv n text = .done t)
    (k : Nat) : expandLoop getenv (n + k) text = .done t := by
  induction n generalizing text with
  | zero => cases h
  | succ n ih =>
    rw [Nat.add_right_comm]
    unfold expandLoop at h ⊢
    cases hsearch : search text with
    | none =>
      rw [hsearch] at h
      exact h
    | some found =>
      rw [hsearch] at h
      dsimp only at h ⊢
      cases hvalue : getenv found.name with
      | none =>
        rw [hvalue] at h
        cases h
      | some value =>
        rw [hvalue] at h
        exact ih h

theorem expandLoop_parts {getenv : List Byte → Option (List Byte)}
    (hplain : ∀ name value, getenv name = some value → Plain value ∧ value ≠ []) (hinert : Inert pre s) {n : Nat}
    (hn : (parts s).1.length < n) :
    expandLoop getenv n (pre ++ s) =
      if ∀ name ∈ references s, (getenv name).isSome then .done (pre ++ substituted getenv s) else .null := by
  induction s using parts.induct generalizing pre n with
  | case1 s hnone =>
    obtain ⟨n, rfl⟩ := Nat.exists_eq_add_one_of_ne_zero (Nat.ne_of_gt (Nat.zero_lt_of_lt hn))
    rw [expandLoop, search_inert hinert, hnone, Option.map_none, references, substituted, parts_none hnone]
    exact (if_pos (List.forall_mem_nil _)).symm
  | case2 s found hsome _ ih =>
    obtain ⟨n, rfl⟩ := Nat.exists_eq_add_one_of_ne_zero (Nat.ne_of_gt (Nat.zero_lt_of_lt hn))
    obtain ⟨htext, hname, hfirst⟩ := search_some hsome
    have hparts := parts_some hsome
    rw [expandLoop, search_inert hinert, hsome, Option.map_some]
    dsimp only
    cases hvalue : getenv found.name with
    | none =>
      rw [if_neg]
      intro hall
      have hset := hall found.name (by simp [references, hparts])
      rw [hvalue] at hset
      cases hset
    | some value =>
      obtain ⟨hvalueplain, hvaluene⟩ := hplain _ _ hvalue
      have hnext : Inert (pre ++ found.before ++ value) found.behind :=
        Inert.replaced (Inert.append (htext ▸ hinert) hfirst) hvalueplain hvaluene
      have hlength : (parts found.behind).1.length < n := by
        rw [hparts, List.length_cons] at hn
        omega
      have hrest := ih hnext hlength
      have hreferences : references s = found.name :: references found.behind := by
        rw [references, hparts]
        rfl
      have hsubstituted : substituted getenv s = found.before ++ (value ++ substituted getenv found.behind) := by
        rw [substituted, hparts, substituted]
        simp [hvalue]
      simp only [List.append_assoc] at hrest ⊢
      rw [hrest, hreferences, hsubstituted]
      simp only [List.forall_mem_cons, hvalue, Option.isSome_some, true_and]

end

/-! ## Trees -/

section
variable {cb : CString → Option (Option Json)} {f : CString → CString} {json : Json}

theorem stringsOfMembers_eq (members : List (CString × Json)) :
    stringsOfMembers members = members.flatMap fun m => m.2.strings := by
  induction members with
  | nil => rfl
  | cons m members ih =>
    rw [List.flatMap_cons, ← ih]
    rfl

theorem stringsOfElements_eq (elements : List Json) :
    stringsOfElements elements = elements.flatMap Json.strings := by
  induction elements with
  | nil => rfl
  | cons value elements ih =>
    rw [List.flatMap_cons, ← ih]
    rfl

theorem walkMembers_map {members new : List (CString × Json)}
    (h : ∀ m ∈ members, walkStrings cb m.2 = some (some (m.2.mapStrings f)))
    (hkeys : ((new ++ members).map Prod.fst).Nodup) :
    walkMembers cb members new = some (new ++ mapMembers f members) := by
  induction members generalizing new with
  | nil => exact congrArg some (List.append_nil new).symm
  | cons m members ih =>
    obtain ⟨key, value⟩ := m
    obtain ⟨hvalue, hmembers⟩ := List.forall_mem_cons.mp h
    have hnew : key ∉ new.map Prod.fst := by
      rw [List.map_append, List.map_cons] at hkeys
      exact fun hmem => (List.nodup_middle.mp hkeys).notMem (List.mem_append_left _ hmem)
    have hkeys' : ((new ++ [(key, value.mapStrings f)] ++ members).map Prod.fst).Nodup := by
      simpa using hkeys
    rw [walkMembers, hvalue, Option.bind_some, jsonObjectSetNew, setMember_new hnew, ih hmembers hkeys',
      List.append_assoc]
    rfl

theorem walkElements_map {elements new : List Json}
    (h : ∀ e ∈ elements, walkStrings cb e = some (some (e.mapStrings f))) :
    walkElements cb elements new = some (new ++ mapElements f elements) := by
  induction elements generalizing new with
  | nil => exact congrArg some (List.append_nil new).symm
  | cons value elements ih =>
    obtain ⟨hvalue, helements⟩ := List.forall_mem_cons.mp h
    rw [walkElements, hvalue, Option.bind_some, jsonArrayAppendNew, ih helements, List.append_assoc]
    rfl

theorem walkStrings_map (hjson : json.Keyed) (h : ∀ s ∈ json.strings, cb s = some (some (.string (f s)))) :
    walkStrings cb json = some (some (json.mapStrings f)) := by
  induction hjson with
  | object hkeys hkeyed ih =>
    rename_i members
    rw [Json.strings, stringsOfMembers_eq] at h
    have hmembers := @walkMembers_map cb f members []
      (fun m hm => ih m hm fun s hs => h s (List.mem_flatMap.mpr ⟨m, hm, hs⟩)) hkeys
    rw [walkStrings, hmembers]
    rfl
  | array _ ih =>
    rw [Json.strings, stringsOfElements_eq] at h
    rw [walkStrings, walkElements_map fun e he => ih e he fun s hs => h s (List.mem_flatMap.mpr ⟨e, he, hs⟩)]
    rfl
  | string value => exact h value (List.mem_singleton_self value)
  | _ => rfl

theorem walkMembers_returns {members new new' : List (CString × Json)} (h : walkMembers cb members new = some new') :
    ∀ m ∈ members, (walkStrings cb m.2).isSome := by
  induction members generalizing new with
  | nil => exact List.forall_mem_nil _
  | cons m members ih =>
    obtain ⟨key, value⟩ := m
    obtain ⟨newVal, hvalue, h⟩ := Option.bind_eq_some_iff.mp h
    exact List.forall_mem_cons.mpr ⟨Option.isSome_of_eq_some hvalue, ih h⟩

theorem walkElements_returns {elements new new' : List Json} (h : walkElements cb elements new = some new') :
    ∀ e ∈ elements, (walkStrings cb e).isSome := by
  induction elements generalizing new with
  | nil => exact List.forall_mem_nil _
  | cons value elements ih =>
    obtain ⟨newVal, hvalue, h⟩ := Option.bind_eq_some_iff.mp h
    exact List.forall_mem_cons.mpr ⟨Option.isSome_of_eq_some hvalue, ih h⟩

theorem walkStrings_returns (hjson : json.Keyed) (h : (walkStrings cb json).isSome) :
    ∀ s ∈ json.strings, (cb s).isSome := by
  induction hjson with
  | object _ _ ih =>
    rw [walkStrings, Option.isSome_map] at h
    obtain ⟨new, hnew⟩ := Option.isSome_iff_exists.mp h
    rw [Json.strings, stringsOfMembers_eq]
    intro s hs
    obtain ⟨m, hm, hs⟩ := List.mem_flatMap.mp hs
    exact ih m hm (walkMembers_returns hnew m hm) s hs
  | array _ ih =>
    rw [walkStrings, Option.isSome_map] at h
    obtain ⟨new, hnew⟩ := Option.isSome_iff_exists.mp h
    rw [Json.strings, stringsOfElements_eq]
    intro s hs
    obtain ⟨e, he, hs⟩ := List.mem_flatMap.mp hs
    exact ih e he (walkElements_returns hnew e he) s hs
  | string value => exact fun s hs => (List.mem_singleton.mp hs) ▸ h
  | _ => exact List.forall_mem_nil _

end

/-! ## When it expands -/

section
variable {env : Environment} {stale : List Byte → List Byte} {json : Json} {s : CString} {n : Nat}

theorem expandString_isSome {get : List Byte → Option (List Byte)} :
    (expandString get n s).isSome ↔ ∃ t, expandLoop get n (bytes s) = .done t := by
  unfold expandString
  split <;> simp_all

theorem expandLoop_unset {get : List Byte → Option (List Byte)} (h : ∀ name, get name = none) {text : List Byte}
    (hrefers : Refers text) : ∀ t, expandLoop get n text ≠ .done t := by
  intro t
  cases n with
  | zero => exact Expansion.noConfusion
  | succ n =>
    cases hsearch : search text with
    | none => exact absurd hrefers (search_none_iff.1 hsearch)
    | some found =>
      rw [expandLoop, hsearch]
      dsimp only
      rw [h]
      exact Expansion.noConfusion

theorem expands_plain (hjson : json.Keyed) (h : ∀ s ∈ json.strings, ¬ Refers (bytes s)) :
    Expands env stale json := by
  refine ⟨1, id, walkStrings_map hjson fun s hs => ?_, fun _ s hs => ?_⟩
  · have hsearch := search_none_iff.2 (h s hs)
    rw [expandString, expandLoop, hsearch]
    dsimp only
    rw [decode_bytes]
    rfl
  · rw [substituted, parts_none (search_none_iff.2 (h s hs))]
    rfl

theorem exists_above {α : Type} (g : α → Nat) (l : List α) : ∃ n, ∀ a ∈ l, g a < n := by
  induction l with
  | nil => exact ⟨0, List.forall_mem_nil _⟩
  | cons a l ih =>
    obtain ⟨n, hn⟩ := ih
    refine ⟨g a + 1 + n, List.forall_mem_cons.mpr ⟨by omega, fun b hb => ?_⟩⟩
    have := hn b hb
    omega

theorem getenv_mem {name value : List Byte} (h : getenv env name = some value) : value ∈ env.map Prod.snd := by
  unfold getenv at h
  split_ifs at h
  exact List.mem_map.mpr ⟨_, mem_of_lookup h, rfl⟩

/-- Where the name is still there, and with plain values that are not empty, all variables have to be
set. -/
theorem expands_iff (hjson : json.Keyed) (hstale : ∀ name, getenv env (stale name) = getenv env name)
    (hplain : ∀ value ∈ env.map Prod.snd, Plain value ∧ value ≠ [])
    (hutf8 : ∀ s ∈ json.strings, (decode (substituted (getenv env) (bytes s))).isSome) :
    Expands env stale json ↔ ∀ s ∈ json.strings, ∀ name ∈ references (bytes s), (getenv env name).isSome := by
  have hvalues (name value : List Byte) (h : getenv env name = some value) : Plain value ∧ value ≠ [] :=
    hplain value (getenv_mem h)
  have hloop (s : CString) (n : Nat) (hn : (parts (bytes s)).1.length < n) :=
    expandLoop_parts hvalues (inert_nil (bytes s)) hn
  have hget : (fun name => getenv env (stale name)) = getenv env := funext hstale
  unfold Expands
  rw [hget]
  constructor
  · rintro ⟨n, f, hexpand, -⟩ s hs
    obtain ⟨t, ht⟩ := expandString_isSome.1 (walkStrings_returns hjson (Option.isSome_of_eq_some hexpand) s hs)
    have hdone := expandLoop_mono ht ((parts (bytes s)).1.length + 1)
    have hend := hloop s (n + ((parts (bytes s)).1.length + 1)) (by omega)
    rw [List.nil_append, hdone] at hend
    by_contra hunset
    rw [if_neg hunset] at hend
    cases hend
  · intro hset
    obtain ⟨n, hn⟩ := exists_above (fun s : CString => (parts (bytes s)).1.length) json.strings
    refine ⟨n, fun s => (decode (substituted (getenv env) (bytes s))).getD s, walkStrings_map hjson fun s hs => ?_,
      fun _ s hs => ?_⟩
    · obtain ⟨t, ht⟩ := Option.isSome_iff_exists.mp (hutf8 s hs)
      have hend := hloop s n (hn s hs)
      rw [List.nil_append, if_pos (hset s hs), List.nil_append] at hend
      rw [expandString, hend]
      dsimp only
      rw [ht]
      rfl
    · obtain ⟨t, ht⟩ := Option.isSome_iff_exists.mp (hutf8 s hs)
      dsimp only
      rw [ht]
      exact decode_eq_some.mp ht

end

/-- Whatever is read by the pointer to the name, it expands exactly when there is nothing to expand.
If the name is read, all variables that are referred to have to be set, as far as values are plain. -/
theorem expandEnvVars_expands_iff (env : Environment) {json : Json} (hjson : json.Keyed) :
    ((∀ stale, Expands env stale json) ↔ ∀ s ∈ json.strings, ¬ Refers (bytes s)) ∧
    ∀ stale, (∀ name, getenv env (stale name) = getenv env name) →
      (∀ value ∈ env.map Prod.snd, Plain value ∧ value ≠ []) →
      (∀ s ∈ json.strings, (decode (substituted (getenv env) (bytes s))).isSome) →
      (Expands env stale json ↔ ∀ s ∈ json.strings, ∀ name ∈ references (bytes s), (getenv env name).isSome) := by
  refine ⟨⟨fun h s hs hrefers => ?_, fun h stale => expands_plain hjson h⟩,
    fun stale hstale hplain hutf8 => expands_iff hjson hstale hplain hutf8⟩
  obtain ⟨n, f, hexpand, -⟩ := h fun _ => []
  obtain ⟨t, ht⟩ := expandString_isSome.1 (walkStrings_returns hjson (Option.isSome_of_eq_some hexpand) s hs)
  exact expandLoop_unset (fun _ => rfl) hrefers t ht

/-- A string with a reference to the variable `A`. -/
def exampleString : CString := ⟨"$\x7bA\x7d", by decide⟩

theorem exampleString_bytes : bytes exampleString = reference [ch 'A'] := by decide

theorem exampleString_name : IsName [ch 'A'] := ⟨List.cons_ne_nil _ _, by decide⟩

theorem exampleString_search : search (bytes exampleString) = some ⟨[], [ch 'A'], []⟩ :=
  search_front ⟨by rw [exampleString_bytes, List.append_nil], exampleString_name⟩

theorem expandEnvVars_expands_example :
    Expands [([ch 'A'], [ch 'x'])] id (.string exampleString) := by
  have hparts : parts (bytes exampleString) = ([([], [ch 'A'])], []) := by
    rw [parts_some exampleString_search, parts_none search_nil]
  refine ((expandEnvVars_expands_iff [([ch 'A'], [ch 'x'])] (.string exampleString)).2 id (fun _ => rfl) ?_ ?_).mpr ?_
  · exact List.forall_mem_singleton.mpr ⟨⟨by decide, by decide, by decide⟩, List.cons_ne_nil _ _⟩
  · refine List.forall_mem_singleton.mpr ?_
    rw [substituted, hparts]
    decide
  · refine List.forall_mem_singleton.mpr ?_
    rw [references, hparts]
    decide

/-- With the name still there, a variable that is not set is a null pointer, and one that refers to
itself is replaced for ever. -/
theorem expandEnvVars_fails :
    (∀ n, expandLoop (getenv []) (n + 1) (bytes exampleString) = .null) ∧
    (∀ n, expandLoop (getenv [([ch 'A'], bytes exampleString)]) n (bytes exampleString) = .running) ∧
    ¬ Expands [] id (.string exampleString) ∧
    ¬ Expands [([ch 'A'], bytes exampleString)] id (.string exampleString) := by
  have hnull (n : Nat) : expandLoop (getenv []) (n + 1) (bytes exampleString) = .null := by
    rw [expandLoop, exampleString_search]
    rfl
  have hrunning (n : Nat) :
      expandLoop (getenv [([ch 'A'], bytes exampleString)]) n (bytes exampleString) = .running := by
    induction n with
    | zero => rfl
    | succ n ih =>
      rw [expandLoop, exampleString_search]
      exact ih
  have hends {env : Environment} (h : Expands env id (.string exampleString)) :
      ∃ n t, expandLoop (getenv env) n (bytes exampleString) = .done t := by
    obtain ⟨n, f, hexpand, -⟩ := h
    exact ⟨n, expandString_isSome.1 (Option.isSome_of_eq_some hexpand)⟩
  refine ⟨hnull, hrunning, fun h => ?_, fun h => ?_⟩
  · obtain ⟨n, t, ht⟩ := hends h
    cases n with
    | zero => cases ht
    | succ n =>
      rw [hnull] at ht
      cases ht
  · obtain ⟨n, t, ht⟩ := hends h
    rw [hrunning] at ht
    cases ht

end VillasNode.ConfigHelper
