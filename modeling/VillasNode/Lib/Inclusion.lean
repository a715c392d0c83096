import Mathlib.Data.List.Basic
import Mathlib.Logic.Relation

/-!
# Files that include each other

A loader opens a file, loads the files that this one includes while it is open,
and makes its result of them. Whether it comes to an end is a matter of the
inclusions alone, and of whether each file can be made a result of.
-/

structure Loader (Path Doc Out : Type*) where
  file : Path → Option Doc
  includes : Doc → List Path
  /-- The result of a file for those of the files that it includes, in so many turns. -/
  build : ℕ → Doc → (Path → Option Out) → Option Out

namespace Loader

variable {Path Doc Out : Type*} (L : Loader Path Doc Out)

/-- At most `depth` files are open at the same time. -/
def load (turns : ℕ) : ℕ → Path → Option Out
  | 0, _ => none
  | depth + 1, path => (L.file path).bind fun doc => L.build turns doc (load turns depth)

/-- The file of the second path includes that of the first one. -/
def Includes (included path : Path) : Prop := ∃ doc, L.file path = some doc ∧ included ∈ L.includes doc

/-- The inclusions below a path are less than `depth` deep. -/
inductive Within : ℕ → Path → Prop
  | file {depth : ℕ} {path : Path} (h : ∀ p, L.Includes p path → Within depth p) : Within (depth + 1) path

/-- A result can be made of this file, once there are those of the files that it includes. -/
def Fits (doc : Doc) : Prop := ∃ turns f, (L.build turns doc f).isSome

/-- What a file means, where there is no end to the turns and to the files that may be open. -/
inductive Means : Path → Out → Prop
  | file {path : Path} {doc : Doc} {out : Out} (turns : ℕ) (f : Path → Option Out)
      (hfile : L.file path = some doc) (hincludes : ∀ p ∈ L.includes doc, ∀ o, f p = some o → Means p o)
      (hbuild : L.build turns doc f = some out) :
      Means path out

/-- A result is made of the included files' results. That they are good is enough to use them. -/
structure Lawful (good : Out → Prop) : Prop where
  congr : ∀ {turns doc f g}, (∀ p ∈ L.includes doc, f p = g p) → L.build turns doc f = L.build turns doc g
  needs : ∀ {turns doc f out}, L.build turns doc f = some out → ∀ p ∈ L.includes doc, (f p).isSome
  mono : ∀ {turns turns' doc f out}, turns ≤ turns' → L.build turns doc f = some out →
    L.build turns' doc f = some out
  fits : ∀ {turns doc f g}, (L.build turns doc f).isSome →
    (∀ p ∈ L.includes doc, ∃ o, g p = some o ∧ good o) →
    (L.build turns doc g).isSome
  good : ∀ {turns doc f out}, (∀ p ∈ L.includes doc, ∀ o, f p = some o → good o) →
    L.build turns doc f = some out → good out

variable {L} {good : Out → Prop} {turns turns' depth depth' : ℕ} {path : Path} {doc : Doc} {out out' : Out}

theorem exists_bound {α : Type*} {P : α → ℕ → Prop} {l : List α} (hmono : ∀ a m n, m ≤ n → P a m → P a n)
    (h : ∀ a ∈ l, ∃ n, P a n) : ∃ n, ∀ a ∈ l, P a n := by
  induction l with
  | nil => exact ⟨0, by simp⟩
  | cons a l ih =>
    rw [List.forall_mem_cons] at h
    obtain ⟨m, hm⟩ := h.1
    obtain ⟨n, hn⟩ := ih h.2
    refine ⟨max m n, List.forall_mem_cons.mpr ⟨?_, fun b hb => ?_⟩⟩
    · exact hmono _ _ _ (Nat.le_max_left m n) hm
    · exact hmono _ _ _ (Nat.le_max_right m n) (hn b hb)

/-! ## Depths -/

theorem Within.mono (h : L.Within depth path) (hdepth : depth ≤ depth') : L.Within depth' path := by
  induction h generalizing depth' with
  | file _ ih =>
    obtain ⟨depth', rfl⟩ := Nat.exists_eq_add_one_of_ne_zero (Nat.ne_zero_of_lt hdepth)
    exact .file fun p hp => ih p hp (Nat.le_of_succ_le_succ hdepth)

theorem Within.acc (h : L.Within depth path) : Acc L.Includes path := by
  induction h with
  | file _ ih => exact .intro _ ih

/-- Each file includes finitely many others, so that no cycle means a bound. -/
theorem acc_iff : Acc L.Includes path ↔ ∃ depth, L.Within depth path := by
  constructor
  · intro h
    induction h with
    | intro path _ ih =>
      cases hfile : L.file path with
      | none =>
        refine ⟨1, .file fun p hp => ?_⟩
        obtain ⟨doc, hdoc, -⟩ := hp
        simp [hfile] at hdoc
      | some doc =>
        obtain ⟨depth, hdepth⟩ := exists_bound (P := fun p n => L.Within n p)
          (fun p m n hmn h => h.mono hmn) fun p hp => ih p ⟨doc, hfile, hp⟩
        refine ⟨depth + 1, .file fun p hp => ?_⟩
        obtain ⟨doc', hdoc, hp⟩ := hp
        obtain rfl := Option.some.inj (hfile.symm.trans hdoc)
        exact hdepth p hp
  · rintro ⟨depth, h⟩
    exact h.acc

/-! ## Loading -/

theorem load_succ (hfile : L.file path = some doc) :
    L.load turns (depth + 1) path = L.build turns doc (L.load turns depth) := by
  change (L.file path).bind _ = _
  rw [hfile, Option.bind_some]

section
variable (hL : L.Lawful good)

include hL

theorem load_good (h : L.load turns depth path = some out) : good out := by
  induction depth generalizing path out with
  | zero => cases h
  | succ depth ih =>
    obtain ⟨doc, hfile, hbuild⟩ := Option.bind_eq_some_iff.mp h
    exact hL.good (fun p _ o ho => ih ho) hbuild

theorem load_mono (hturns : turns ≤ turns') (hdepth : depth ≤ depth')
    (h : L.load turns depth path = some out) :
    L.load turns' depth' path = some out := by
  induction depth generalizing path out depth' with
  | zero => cases h
  | succ depth ih =>
    obtain ⟨doc, hfile, hbuild⟩ := Option.bind_eq_some_iff.mp h
    obtain ⟨depth', rfl⟩ := Nat.exists_eq_add_one_of_ne_zero (Nat.ne_zero_of_lt hdepth)
    rw [load_succ hfile, ← hL.mono hturns hbuild]
    apply hL.congr
    intro p hp
    obtain ⟨o, ho⟩ := Option.isSome_iff_exists.mp (hL.needs hbuild p hp)
    rw [ho, ih (Nat.le_of_succ_le_succ hdepth) ho]

theorem load_unique (h : L.load turns depth path = some out) (h' : L.load turns' depth' path = some out') :
    out = out' := by
  have hmax := load_mono hL (Nat.le_max_left turns turns') (Nat.le_max_left depth depth') h
  have hmax' := load_mono hL (Nat.le_max_right turns turns') (Nat.le_max_right depth depth') h'
  exact Option.some.inj (hmax.symm.trans hmax')

theorem means_iff : L.Means path out ↔ ∃ turns depth, L.load turns depth path = some out := by
  constructor
  · intro h
    induction h with
    | @file path doc out turns f hfile _ hbuild ih =>
      have hloads : ∀ p ∈ L.includes doc, ∃ n, f p = L.load n n p := by
        intro p hp
        obtain ⟨o, ho⟩ := Option.isSome_iff_exists.mp (hL.needs hbuild p hp)
        obtain ⟨turns, depth, hload⟩ := ih p hp o ho
        refine ⟨max turns depth, ?_⟩
        rw [ho, load_mono hL (Nat.le_max_left turns depth) (Nat.le_max_right turns depth) hload]
      obtain ⟨n, hn⟩ := exists_bound (P := fun p n => L.load n n p = f p ∧ (f p).isSome)
        (fun p m n hmn ⟨heq, hsome⟩ => by
          obtain ⟨o, ho⟩ := Option.isSome_iff_exists.mp hsome
          rw [ho] at heq
          exact ⟨by rw [ho, load_mono hL hmn hmn heq], hsome⟩)
        fun p hp => (hloads p hp).imp fun n hn => ⟨hn.symm, hL.needs hbuild p hp⟩
      refine ⟨max turns n, n + 1, ?_⟩
      rw [load_succ hfile, ← hL.mono (Nat.le_max_left turns n) hbuild]
      apply hL.congr
      intro p hp
      obtain ⟨heq, hsome⟩ := hn p hp
      obtain ⟨o, ho⟩ := Option.isSome_iff_exists.mp hsome
      rw [ho] at heq ⊢
      exact load_mono hL (Nat.le_max_right turns n) (Nat.le_refl n) heq
  · rintro ⟨turns, depth, h⟩
    induction depth generalizing path out with
    | zero => cases h
    | succ depth ih =>
      obtain ⟨doc, hfile, hbuild⟩ := Option.bind_eq_some_iff.mp h
      exact .file turns (L.load turns depth) hfile (fun p _ o ho => ih ho) hbuild

theorem Means.unique (h : L.Means path out) (h' : L.Means path out') : out = out' := by
  obtain ⟨turns, depth, h⟩ := (means_iff hL).mp h
  obtain ⟨turns', depth', h'⟩ := (means_iff hL).mp h'
  exact load_unique hL h h'

/-- It returns if the inclusions are not too deep and every file below the path can be read and used. -/
theorem load_isSome_iff : (∃ turns, (L.load turns depth path).isSome) ↔
    L.Within depth path ∧
      ∀ p, Relation.ReflTransGen L.Includes p path → ∃ doc, L.file p = some doc ∧ L.Fits doc := by
  constructor
  · rintro ⟨turns, h⟩
    induction depth generalizing path with
    | zero => cases h
    | succ depth ih =>
      obtain ⟨out, hout⟩ := Option.isSome_iff_exists.mp h
      obtain ⟨doc, hfile, hbuild⟩ := Option.bind_eq_some_iff.mp hout
      have hbelow (p : Path) (hp : L.Includes p path) : L.Within depth p ∧
          ∀ q, Relation.ReflTransGen L.Includes q p → ∃ doc, L.file q = some doc ∧ L.Fits doc := by
        obtain ⟨doc', hdoc, hp⟩ := hp
        obtain rfl := Option.some.inj (hfile.symm.trans hdoc)
        exact ih (hL.needs hbuild p hp)
      refine ⟨.file fun p hp => (hbelow p hp).1, fun p hp => ?_⟩
      obtain rfl | ⟨q, hpq, hq⟩ := Relation.ReflTransGen.cases_tail hp
      · exact ⟨doc, hfile, turns, _, Option.isSome_of_eq_some hbuild⟩
      · exact (hbelow q hq).2 p hpq
  · rintro ⟨hwithin, hfits⟩
    induction hwithin with
    | @file depth path _ ih =>
      obtain ⟨doc, hfile, turns, f, hbuild⟩ := hfits path .refl
      obtain ⟨n, hn⟩ := exists_bound (P := fun p n => (L.load n depth p).isSome)
        (fun p m n hmn h => by
          obtain ⟨o, ho⟩ := Option.isSome_iff_exists.mp h
          exact Option.isSome_of_eq_some (load_mono hL hmn (Nat.le_refl depth) ho))
        fun p hp => ih p ⟨doc, hfile, hp⟩ fun q hq => hfits q (hq.tail ⟨doc, hfile, hp⟩)
      refine ⟨max turns n, ?_⟩
      obtain ⟨o, ho⟩ := Option.isSome_iff_exists.mp hbuild
      rw [load_succ hfile]
      refine hL.fits (Option.isSome_of_eq_some (hL.mono (Nat.le_max_left turns n) ho)) fun p hp => ?_
      obtain ⟨o, ho⟩ := Option.isSome_iff_exists.mp (hn p hp)
      have hload := load_mono hL (Nat.le_max_right turns n) (Nat.le_refl depth) ho
      exact ⟨o, hload, load_good hL hload⟩

end

end Loader
