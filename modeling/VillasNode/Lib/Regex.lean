import Mathlib.Data.List.TakeWhile
import Mathlib.Logic.Function.Basic

/-!
# Regular expressions with groups

The part of ECMAScript expressions without repeated groups. A match is searched
with backtracking: the matches of an expression are tried in their order.
-/

inductive Regex (α : Type*) where
  | text (s : List α)
  /-- A class of characters that is repeated, as often as possible first. -/
  | run (p : α → Bool) (lo : Nat) (hi : Option Nat)
  | seq (a b : Regex α)
  | alt (a b : Regex α)
  | opt (a : Regex α)
  | group (n : Nat) (a : Regex α)

namespace Regex

/-- What each group has matched. -/
abbrev Captures (α : Type*) := Nat → Option (List α)

def Captures.none {α : Type*} : Captures α := fun _ => Option.none

variable {α : Type*}

/-! ## Searching -/

/-- What is left behind each match of a run, the longest first. -/
def runRests (p : α → Bool) (lo : Nat) (hi : Option Nat) (s : List α) : List (List α) :=
  let most := match hi with
    | Option.none => (s.takeWhile p).length
    | some hi => min hi (s.takeWhile p).length
  ((List.range (most + 1)).reverse.filter fun k => lo ≤ k).map s.drop

/-- All matches at the front of `s`, each with what is left. -/
def search [DecidableEq α] : Regex α → List α → Captures α → List (Captures α × List α)
  | text t, s, c => if t <+: s then [(c, s.drop t.length)] else []
  | run p lo hi, s, c => (runRests p lo hi s).map fun rest => (c, rest)
  | seq a b, s, c => (search a s c).flatMap fun (c, rest) => search b rest c
  | alt a b, s, c => search a s c ++ search b s c
  | opt a, s, c => search a s c ++ [(c, s)]
  | group n a, s, c =>
    (search a s c).map fun (c, rest) =>
      (Function.update c n (some (s.take (s.length - rest.length))), rest)

/-- The first match of the whole text. -/
def regexMatch [DecidableEq α] (r : Regex α) (s : List α) : Option (Captures α) :=
  ((r.search s Captures.none).find? fun m => m.2.isEmpty).map Prod.fst

/-! ## What is matched -/

/-- The expression matches exactly this text, and the groups change so. -/
def Matches : Regex α → List α → Captures α → Captures α → Prop
  | text t, s, c, c' => s = t ∧ c' = c
  | run p lo hi, s, c, c' => (∀ x ∈ s, p x) ∧ lo ≤ s.length ∧ (∀ n ∈ hi, s.length ≤ n) ∧ c' = c
  | seq a b, s, c, c' => ∃ s₁ s₂ c₁, s = s₁ ++ s₂ ∧ Matches a s₁ c c₁ ∧ Matches b s₂ c₁ c'
  | alt a b, s, c, c' => Matches a s c c' ∨ Matches b s c c'
  | opt a, s, c, c' => Matches a s c c' ∨ s = [] ∧ c' = c
  | group n a, s, c, c' => ∃ c₁, Matches a s c c₁ ∧ c' = Function.update c₁ n (some s)

theorem mem_runRests {p : α → Bool} {lo : Nat} {hi : Option Nat} {s rest : List α} :
    rest ∈ runRests p lo hi s ↔
      ∃ t, s = t ++ rest ∧ (∀ x ∈ t, p x) ∧ lo ≤ t.length ∧ ∀ n ∈ hi, t.length ≤ n := by
  have hmost (k : Nat) : (k < (match hi with
      | Option.none => (s.takeWhile p).length
      | some hi => min hi (s.takeWhile p).length) + 1) ↔
      k ≤ (s.takeWhile p).length ∧ ∀ n ∈ hi, k ≤ n := by
    cases hi with
    | none =>
      rw [and_iff_left (by rintro n ⟨⟩)]
      exact Nat.lt_succ_iff
    | some n =>
      simp only [Option.mem_some_iff, forall_eq']
      omega
  unfold runRests
  simp only [List.mem_map, List.mem_filter, List.mem_reverse, List.mem_range, decide_eq_true_eq, hmost]
  constructor
  · rintro ⟨k, ⟨⟨hk, hn⟩, hlo⟩, rfl⟩
    have hfront : s.take k = (s.takeWhile p).take k := by
      conv => lhs; rw [← List.takeWhile_append_dropWhile (p := p) (l := s)]
      rw [List.take_append_of_le_length hk]
    have hlength : (s.take k).length = k := by
      rw [hfront, List.length_take, Nat.min_eq_left hk]
    refine ⟨s.take k, (List.take_append_drop k s).symm, ?_, by omega, ?_⟩
    · intro x hx
      rw [hfront] at hx
      exact List.mem_takeWhile_imp (List.mem_of_mem_take hx)
    · rw [hlength]
      exact hn
  · rintro ⟨t, rfl, ht, hlo, hn⟩
    refine ⟨t.length, ⟨⟨?_, hn⟩, hlo⟩, List.drop_left⟩
    rw [List.takeWhile_append_of_pos ht, List.length_append]
    omega

theorem append_unique {p : α → Bool} {a b s t : List α} (ha : ∀ x ∈ a, p x) (hb : ∀ x ∈ b, p x)
    (hs : ∀ x ∈ s.head?, p x = false) (ht : ∀ x ∈ t.head?, p x = false) (h : a ++ s = b ++ t) :
    a = b ∧ s = t := by
  have hstop (u : List α) (hu : ∀ x ∈ u.head?, p x = false) : u.takeWhile p = [] := by
    cases u with
    | nil => rfl
    | cons x u => rw [List.takeWhile_cons_of_neg (by simp [hu x rfl])]
  have hab := congrArg (List.takeWhile p) h
  rw [List.takeWhile_append_of_pos ha, List.takeWhile_append_of_pos hb, hstop s hs, hstop t ht,
    List.append_nil, List.append_nil] at hab
  rw [hab] at h
  exact ⟨hab, List.append_cancel_left h⟩

variable [DecidableEq α]

/-- The search finds all that is matched and nothing else. -/
theorem mem_search {r : Regex α} {s rest : List α} {c c' : Captures α} :
    (c', rest) ∈ r.search s c ↔ ∃ t, s = t ++ rest ∧ r.Matches t c c' := by
  induction r generalizing s rest c c' with
  | text t =>
    unfold search Matches
    constructor
    · intro h
      split at h
      · rename_i hfront
        obtain ⟨u, rfl⟩ := hfront
        rw [List.drop_left, List.mem_singleton, Prod.mk.injEq] at h
        obtain ⟨rfl, rfl⟩ := h
        exact ⟨t, rfl, rfl, rfl⟩
      · cases h
    · rintro ⟨t, rfl, rfl, rfl⟩
      rw [if_pos (List.prefix_append ..), List.drop_left]
      exact List.mem_singleton_self _
  | run p lo hi =>
    unfold search Matches
    rw [List.mem_map]
    constructor
    · rintro ⟨rest', hrest, h⟩
      cases h
      obtain ⟨t, hs, ht, hlo, hhi⟩ := mem_runRests.1 hrest
      exact ⟨t, hs, ht, hlo, hhi, rfl⟩
    · rintro ⟨t, hs, ht, hlo, hhi, rfl⟩
      exact ⟨rest, mem_runRests.2 ⟨t, hs, ht, hlo, hhi⟩, rfl⟩
  | seq a b iha ihb =>
    unfold search Matches
    rw [List.mem_flatMap]
    constructor
    · rintro ⟨⟨c₁, rest₁⟩, ha, hb⟩
      obtain ⟨s₁, rfl, h₁⟩ := iha.mp ha
      obtain ⟨s₂, rfl, h₂⟩ := ihb.mp hb
      exact ⟨s₁ ++ s₂, (List.append_assoc ..).symm, s₁, s₂, c₁, rfl, h₁, h₂⟩
    · rintro ⟨t, rfl, s₁, s₂, c₁, rfl, h₁, h₂⟩
      refine ⟨(c₁, s₂ ++ rest), ?_, ?_⟩
      · exact iha.mpr ⟨s₁, List.append_assoc .., h₁⟩
      · exact ihb.mpr ⟨s₂, rfl, h₂⟩
  | alt a b iha ihb =>
    unfold search Matches
    rw [List.mem_append, iha, ihb]
    constructor
    · rintro (⟨t, hs, ht⟩ | ⟨t, hs, ht⟩)
      · exact ⟨t, hs, .inl ht⟩
      · exact ⟨t, hs, .inr ht⟩
    · rintro ⟨t, hs, ht | ht⟩
      · exact .inl ⟨t, hs, ht⟩
      · exact .inr ⟨t, hs, ht⟩
  | opt a ih =>
    unfold search Matches
    rw [List.mem_append, ih, List.mem_singleton, Prod.mk.injEq]
    constructor
    · rintro (⟨t, hs, ht⟩ | ⟨rfl, rfl⟩)
      · exact ⟨t, hs, .inl ht⟩
      · exact ⟨[], rfl, .inr ⟨rfl, rfl⟩⟩
    · rintro ⟨t, rfl, ht | ⟨rfl, rfl⟩⟩
      · exact .inl ⟨t, rfl, ht⟩
      · exact .inr ⟨rfl, rfl⟩
  | group n a ih =>
    have htake (t u : List α) : (t ++ u).take ((t ++ u).length - u.length) = t := by
      rw [List.length_append, Nat.add_sub_cancel, List.take_left]
    unfold search Matches
    rw [List.mem_map]
    constructor
    · rintro ⟨⟨c₁, rest₁⟩, ha, h⟩
      obtain ⟨t, rfl, ht⟩ := ih.mp ha
      cases h
      exact ⟨t, rfl, c₁, ht, by rw [htake]⟩
    · rintro ⟨t, rfl, c₁, ht, rfl⟩
      refine ⟨(c₁, rest), ih.mpr ⟨t, rfl, ht⟩, ?_⟩
      dsimp only
      rw [htake]

theorem Matches.of_regexMatch {r : Regex α} {s : List α} {c : Captures α}
    (h : r.regexMatch s = some c) : r.Matches s Captures.none c := by
  obtain ⟨⟨c', rest⟩, hfind, rfl⟩ := Option.map_eq_some_iff.mp h
  have hempty := List.find?_some hfind
  obtain rfl : rest = [] := List.isEmpty_iff.mp hempty
  obtain ⟨t, hs, ht⟩ := mem_search.1 (List.mem_of_find?_eq_some hfind)
  rw [List.append_nil] at hs
  rw [hs]
  exact ht

theorem regexMatch_none_iff {r : Regex α} {s : List α} :
    r.regexMatch s = none ↔ ∀ c, ¬ r.Matches s Captures.none c := by
  constructor
  · intro h c hc
    have hnone := List.find?_eq_none.mp (Option.map_eq_none_iff.mp h)
    apply hnone (c, []) (mem_search.2 ⟨s, (List.append_nil s).symm, hc⟩)
    rfl
  · intro h
    cases hmatch : r.regexMatch s with
    | none => rfl
    | some c => exact absurd (Matches.of_regexMatch hmatch) (h c)

/-- Where the text can be matched in one way only, the order of the search does not matter. -/
theorem regexMatch_eq_some {r : Regex α} {s : List α} {c : Captures α}
    (h : r.Matches s Captures.none c)
    (hunique : ∀ c', r.Matches s Captures.none c' → c' = c) : r.regexMatch s = some c := by
  cases hmatch : r.regexMatch s with
  | none => exact absurd h (regexMatch_none_iff.1 hmatch c)
  | some c' => rw [hunique c' (Matches.of_regexMatch hmatch)]

/-! ## Searching in a text -/

/-- `regex_search`: what is in front of the leftmost match, its groups, and what is behind it. -/
def regexSearch (r : Regex α) : List α → Option (List α × Captures α × List α)
  | [] => (r.search [] Captures.none).head?.map fun m => ([], m)
  | x :: s =>
    match (r.search (x :: s) Captures.none).head? with
    | some m => some ([], m)
    | none => (regexSearch r s).map fun m => (x :: m.1, m.2)

theorem regexSearch_here {r : Regex α} {s rest : List α} {c : Captures α}
    (h : (r.search s Captures.none).head? = some (c, rest)) : r.regexSearch s = some ([], c, rest) := by
  cases s with
  | nil => rw [regexSearch, h, Option.map_some]
  | cons x s => rw [regexSearch, h]

theorem regexSearch_later {r : Regex α} {x : α} {s : List α} (h : r.search (x :: s) Captures.none = []) :
    r.regexSearch (x :: s) = (r.regexSearch s).map fun m => (x :: m.1, m.2) := by
  rw [regexSearch, h]
  rfl

end Regex
