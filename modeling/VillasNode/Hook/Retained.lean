import Mathlib.Algebra.Ring.Int.Defs
import VillasNode.Hook.Builtin
import VillasNode.Lib.Runs

/-!
# What hooks hold on to

The references that `lib/hooks/drop.cpp`, `restart.cpp`, `stats.cpp` and
`ebm.cpp` take and give back, from the call of `start` to that of `stop`. A
call in the wrong state fails an assertion, where there is one.
-/

namespace VillasNode.Retained

open Runs

inductive RefOp where
  | incref (s : SampleId)
  | decref (s : SampleId)
deriving DecidableEq

/-- `State::PREPARED`, `State::STARTED` and `State::STOPPED` -/
inductive Life where
  | prepared
  | started
  | stopped
deriving DecidableEq

structure State where
  life : Life
  /-- `prev` or `last` -/
  kept : Option SampleId
  /-- All calls of `sample_incref` and `sample_decref` so far. -/
  refs : List RefOp

inductive Call where
  | start
  /-- With what the samples hold at that time. -/
  | process (smp : SampleId) (payload : SampleId → Payload)
  | restart
  | stop

/-- The methods of a hook. `none` when an assertion fails. -/
structure Methods where
  start : State → Option State
  process : State → SampleId → (SampleId → Payload) → Option (State × Reason)
  restart : State → Option State
  stop : State → Option State

/-! ## The hooks -/

/-- `assert(state == life)` -/
def asserting (life : Life) (s : State) (next : State) : Option State :=
  if s.life = life then some next else none

/-- `if (prev) sample_decref(prev)` -/
def State.giveBack (s : State) : State :=
  { s with refs := s.refs ++ (s.kept.map RefOp.decref).toList }

/-- `sample_incref(smp); if (prev) sample_decref(prev); prev = smp;` -/
def State.take (s : State) (smp : SampleId) : State :=
  { s with kept := some smp, refs := s.refs ++ (.incref smp :: (s.kept.map RefOp.decref).toList) }

/-- `restart` of a hook that does not care. -/
def State.ignore (s : State) : Option State := asserting .started s s

namespace DropHook

/-- Also after a stop. -/
def start (s : State) : Option State :=
  if s.life = .prepared ∨ s.life = .stopped then some { s with life := .started, kept := none }
  else none

def stop (s : State) : Option State := asserting .started s { s.giveBack with life := .stopped }

def process (s : State) (smp : SampleId) (payload : SampleId → Payload) :
    Option (State × Reason) :=
  if s.life = .started then
    if s.kept.any fun prev => dropDist (payload smp).sequence (payload prev).sequence ≤ 0 then
      some (s, .skipSample)
    else some (s.take smp, .ok)
  else none

def restart (s : State) : Option State := asserting .started s { s.giveBack with kept := none }

def methods : Methods := ⟨start, process, restart, stop⟩

end DropHook

namespace RestartHook

def start (s : State) : Option State :=
  asserting .prepared s { s with life := .started, kept := none }

def stop (s : State) : Option State := asserting .started s { s.giveBack with life := .stopped }

/-- The other hooks of the node are restarted by their own calls. -/
def process (s : State) (smp : SampleId) (_payload : SampleId → Payload) :
    Option (State × Reason) :=
  if s.life = .started then some (s.take smp, .ok) else none

def methods : Methods := ⟨start, process, State.ignore, stop⟩

end RestartHook

namespace StatsReadHook

def start (s : State) : Option State :=
  asserting .prepared s { s with life := .started, kept := none }

def stop (s : State) : Option State := asserting .started s { s.giveBack with life := .stopped }

/-- This one has no assertion. -/
def process (s : State) (smp : SampleId) (_payload : SampleId → Payload) :
    Option (State × Reason) :=
  some (s.take smp, .ok)

def methods : Methods := ⟨start, process, State.ignore, stop⟩

end StatsReadHook

/-! `StatsHook` of no node, which passes its samples to a `StatsReadHook` that is in no list. -/

namespace StatsHook

def start (s : State) : Option State := asserting .prepared s { s with life := .started }

def stop (s : State) : Option State := asserting .started s { s with life := .stopped }

def methods : Methods := ⟨start, StatsReadHook.process, State.ignore, stop⟩

end StatsHook

namespace EBMHook

def start (s : State) : Option State :=
  asserting .prepared s { s with life := .started, kept := none }

/-- The old sample goes before the new one comes. -/
def process (s : State) (smp : SampleId) (_payload : SampleId → Payload) :
    Option (State × Reason) :=
  if s.life = .started then some ({ s.giveBack with
      kept := some smp, refs := s.giveBack.refs ++ [.incref smp] }, .ok)
  else none

/-- That of `Hook`. -/
def stop (s : State) : Option State := asserting .started s { s with life := .stopped }

def methods : Methods := ⟨start, process, State.ignore, stop⟩

end EBMHook

inductive Kind where
  | drop
  | restart
  | statsRead
  | stats
  | ebm
deriving DecidableEq

def Kind.methods : Kind → Methods
  | .drop => DropHook.methods
  | .restart => RestartHook.methods
  | .statsRead => StatsReadHook.methods
  | .stats => StatsHook.methods
  | .ebm => EBMHook.methods

def Methods.step (m : Methods) (s : State) : Call → Option State
  | .start => m.start s
  | .process smp payload => (m.process s smp payload).map Prod.fst
  | .restart => m.restart s
  | .stop => m.stop s

def prepared : State := ⟨.prepared, none, []⟩

/-! ## The specification -/

def RefOp.change : RefOp → SampleId → Int
  | .incref s, x => if x = s then 1 else 0
  | .decref s, x => if x = s then -1 else 0

/-- How many references to a sample a hook has taken and not given back. -/
def held (refs : List RefOp) (x : SampleId) : Int := (refs.map fun op => op.change x).sum

/-- A hook that is started has one reference, to the sample that it keeps. Any other has none. -/
def Owned (s : State) : Prop :=
  ∀ x, held s.refs x = if s.life = .started ∧ s.kept = some x then 1 else 0

/-- The hook owns what it holds in each state that it gets to. -/
def AllOwned (k : Kind) (s : State) (calls : List Call) : Prop :=
  Along k.methods.step (fun s c => ∀ s', k.methods.step s c = some s' → Owned s') s calls

/-- A hook that gives nothing back when it is stopped has taken nothing before, and none gets a
sample without being started, unless it is the one that it got last. -/
def Releases (k : Kind) (s : State) : Call → Prop
  | .stop => (k = .stats ∨ k = .ebm) → s.life = .started → s.kept = none
  | .process smp _ => (k = .statsRead ∨ k = .stats) → s.life = .started ∨ s.kept = some smp
  | .start | .restart => True

/-! ## References -/

section
variable {s s' : State} {smp x : SampleId} {refs ops : List RefOp}

theorem held_append (refs ops : List RefOp) (x : SampleId) :
    held (refs ++ ops) x = held refs x + held ops x := by
  rw [held, List.map_append, List.sum_append]
  rfl

@[simp]
theorem held_nil (x : SampleId) : held [] x = 0 := rfl

@[simp]
theorem held_incref (s x : SampleId) : held [.incref s] x = if s = x then 1 else 0 := by
  unfold held RefOp.change
  rw [List.map_singleton, List.sum_singleton]
  exact if_congr eq_comm rfl rfl

@[simp]
theorem held_decref (kept : Option SampleId) (x : SampleId) :
    held (kept.map RefOp.decref).toList x = -if kept = some x then 1 else 0 := by
  cases kept with
  | none => rfl
  | some s =>
    unfold held RefOp.change
    rw [Option.map_some, Option.toList_some, List.map_singleton, List.sum_singleton]
    obtain rfl | hne := eq_or_ne x s
    · rw [if_pos rfl]
      exact if_pos rfl
    · rw [if_neg fun heq => hne (Option.some.inj heq).symm]
      exact if_neg hne

theorem giveBack_held (s : State) (x : SampleId) :
    held s.giveBack.refs x = held s.refs x - if s.kept = some x then 1 else 0 := by
  unfold State.giveBack
  rw [held_append, held_decref]
  rfl

theorem take_held (s : State) (smp x : SampleId) :
    held (s.take smp).refs x =
      held s.refs x + (if smp = x then 1 else 0) - if s.kept = some x then 1 else 0 := by
  unfold State.take
  rw [← List.singleton_append, held_append, held_append, held_decref, held_incref]
  omega

theorem swapped_held (s : State) (smp x : SampleId) :
    held (s.giveBack.refs ++ [.incref smp]) x = held (s.take smp).refs x := by
  rw [held_append, giveBack_held, held_incref, take_held]
  omega

end

/-! ## One call -/

/-- What a call may do with the references. -/
inductive Effect (k : Kind) (s : State) : Call → State → Prop where
  | start (hlife : s.life ≠ .started) (kept : Option SampleId)
      (hkept : kept = none ∨ s.life = .prepared ∧ kept = s.kept) :
      Effect k s .start ⟨.started, kept, s.refs⟩
  | take (smp : SampleId) (payload : SampleId → Payload) (refs : List RefOp)
      (hlife : s.life = .started ∨ k = .statsRead ∨ k = .stats)
      (hheld : ∀ x, held refs x = held (s.take smp).refs x) :
      Effect k s (.process smp payload) ⟨s.life, some smp, refs⟩
  | skip (smp : SampleId) (payload : SampleId → Payload) : Effect k s (.process smp payload) s
  | ignore : Effect k s .restart s
  | restart (hlife : s.life = .started) : Effect k s .restart ⟨s.life, none, s.giveBack.refs⟩
  | stop (hlife : s.life = .started) : Effect k s .stop ⟨.stopped, s.kept, s.giveBack.refs⟩
  | leave (hlife : s.life = .started) (hkind : k = .stats ∨ k = .ebm) :
      Effect k s .stop ⟨.stopped, s.kept, s.refs⟩

section
variable {k : Kind} {s s' : State} {c : Call}

theorem asserting_eq_some {life : Life} {next : State} (h : asserting life s next = some s') :
    s.life = life ∧ s' = next := by
  unfold asserting at h
  split at h
  · rename_i hlife
    cases h
    exact ⟨hlife, rfl⟩
  · cases h

theorem prepared_ne {life : Life} (h : life = .prepared) : life ≠ .started := by
  rw [h]
  decide

theorem stopped_ne : Life.stopped ≠ .started := by decide

theorem start_effect (h : k.methods.start s = some s') : Effect k s .start s' := by
  cases k with
  | drop =>
    change (if s.life = .prepared ∨ s.life = .stopped then some _ else none) = some s' at h
    split at h
    · rename_i hlife
      cases h
      refine .start ?_ none (.inl rfl)
      cases hlife with
      | inl hlife => exact prepared_ne hlife
      | inr hlife =>
        rw [hlife]
        decide
    · cases h
  | restart | statsRead | ebm =>
    obtain ⟨hlife, rfl⟩ := asserting_eq_some h
    exact .start (prepared_ne hlife) none (.inl rfl)
  | stats =>
    obtain ⟨hlife, rfl⟩ := asserting_eq_some h
    exact .start (prepared_ne hlife) s.kept (.inr ⟨hlife, rfl⟩)

theorem process_effect {smp : SampleId} {payload : SampleId → Payload} {reason : Reason}
    (h : k.methods.process s smp payload = some (s', reason)) :
    Effect k s (.process smp payload) s' := by
  have htake (hlife : s.life = .started ∨ k = .statsRead ∨ k = .stats) :
      Effect k s (.process smp payload) (s.take smp) := .take smp payload _ hlife fun x => rfl
  cases k with
  | drop =>
    change DropHook.process s smp payload = _ at h
    unfold DropHook.process at h
    split at h
    · rename_i hlife
      split at h
      · cases h
        exact .skip smp payload
      · cases h
        exact htake (.inl hlife)
    · cases h
  | restart =>
    change RestartHook.process s smp payload = _ at h
    unfold RestartHook.process at h
    split at h
    · rename_i hlife
      cases h
      exact htake (.inl hlife)
    · cases h
  | statsRead =>
    cases h
    exact htake (.inr (.inl rfl))
  | stats =>
    cases h
    exact htake (.inr (.inr rfl))
  | ebm =>
    change EBMHook.process s smp payload = _ at h
    unfold EBMHook.process at h
    split at h
    · rename_i hlife
      cases h
      exact .take smp payload _ (.inl hlife) (swapped_held s smp)
    · cases h

theorem restart_effect (h : k.methods.restart s = some s') : Effect k s .restart s' := by
  cases k with
  | drop =>
    obtain ⟨hlife, rfl⟩ := asserting_eq_some h
    exact .restart hlife
  | restart | statsRead | stats | ebm =>
    obtain ⟨-, rfl⟩ := asserting_eq_some h
    exact .ignore

theorem stop_effect (h : k.methods.stop s = some s') : Effect k s .stop s' := by
  cases k with
  | drop | restart | statsRead =>
    obtain ⟨hlife, rfl⟩ := asserting_eq_some h
    exact .stop hlife
  | stats =>
    obtain ⟨hlife, rfl⟩ := asserting_eq_some h
    exact .leave hlife (.inl rfl)
  | ebm =>
    obtain ⟨hlife, rfl⟩ := asserting_eq_some h
    exact .leave hlife (.inr rfl)

theorem step_effect (h : k.methods.step s c = some s') : Effect k s c s' := by
  cases c with
  | start => exact start_effect h
  | restart => exact restart_effect h
  | stop => exact stop_effect h
  | process smp payload =>
    obtain ⟨⟨s'', reason⟩, hprocess, rfl⟩ := Option.map_eq_some_iff.mp h
    exact process_effect hprocess

/-- A hook that was not started yet keeps no sample. -/
structure Inv (s : State) : Prop where
  owned : Owned s
  fresh : s.life = .prepared → s.kept = none

theorem inv_prepared : Inv prepared := ⟨fun _ => rfl, fun _ => rfl⟩

theorem Owned.held_of_started (h : Owned s) (hlife : s.life = .started) (x : SampleId) :
    held s.refs x = if s.kept = some x then 1 else 0 := by
  rw [h x]
  exact if_congr (and_iff_right hlife) rfl rfl

theorem Owned.held_of_not_started (h : Owned s) (hlife : s.life ≠ .started) (x : SampleId) :
    held s.refs x = 0 := by
  rw [h x, if_neg fun hx => hlife hx.1]

theorem owned_of_not_started (hlife : s.life ≠ .started) (hheld : ∀ x, held s.refs x = 0) :
    Owned s := by
  intro x
  rw [hheld, if_neg fun hx => hlife hx.1]

theorem owned_of_started (hlife : s.life = .started)
    (hheld : ∀ x, held s.refs x = if s.kept = some x then 1 else 0) : Owned s := by
  intro x
  rw [hheld]
  exact if_congr (and_iff_right hlife).symm rfl rfl

theorem inv_effect (hinv : Inv s) (hreleases : Releases k s c) (heffect : Effect k s c s') :
    Inv s' := by
  obtain ⟨howned, hfresh⟩ := hinv
  cases heffect with
  | start hlife kept hkept =>
    have hnone : kept = none := by
      obtain hnone | ⟨hprepared, rfl⟩ := hkept
      · exact hnone
      · exact hfresh hprepared
    subst hnone
    exact ⟨owned_of_started rfl (howned.held_of_not_started hlife), fun h => by cases h⟩
  | take smp payload refs hlife hheld =>
    by_cases hstarted : s.life = .started
    · refine ⟨owned_of_started hstarted fun x => ?_, fun h => absurd hstarted (prepared_ne h)⟩
      rw [hheld, take_held, howned.held_of_started hstarted]
      simp only [Option.some.injEq]
      omega
    · have hsame := (hreleases (hlife.resolve_left hstarted)).resolve_left hstarted
      refine ⟨owned_of_not_started hstarted fun x => ?_, fun h => ?_⟩
      · rw [hheld, take_held, howned.held_of_not_started hstarted, hsame]
        simp
      · rw [hfresh h] at hsame
        cases hsame
  | skip smp payload => exact ⟨howned, hfresh⟩
  | ignore => exact ⟨howned, hfresh⟩
  | restart hlife =>
    refine ⟨owned_of_started hlife fun x => ?_, fun h => absurd hlife (prepared_ne h)⟩
    rw [giveBack_held, howned.held_of_started hlife, Int.sub_self]
    rfl
  | stop hlife =>
    refine ⟨owned_of_not_started stopped_ne fun x => ?_, fun h => by cases h⟩
    rw [giveBack_held, howned.held_of_started hlife, Int.sub_self]
  | leave hlife hkind =>
    refine ⟨owned_of_not_started stopped_ne fun x => ?_, fun h => by cases h⟩
    rw [howned.held_of_started hlife, hreleases hkind hlife]
    rfl

theorem releases_of_owned (hinv : Inv s)
    (hnext : ∀ s', k.methods.step s c = some s' → Owned s') : Releases k s c := by
  cases c with
  | start => trivial
  | restart => trivial
  | stop =>
    intro hkind hlife
    have hstop : k.methods.step s .stop = some { s with life := .stopped } := by
      obtain rfl | rfl := hkind
      · exact if_pos hlife
      · exact if_pos hlife
    cases hkept : s.kept with
    | none => rfl
    | some x =>
      have hzero := (hnext _ hstop).held_of_not_started stopped_ne x
      rw [hinv.owned.held_of_started hlife, if_pos hkept] at hzero
      cases hzero
  | process smp payload =>
    intro hkind
    have hprocess : k.methods.step s (.process smp payload) = some (s.take smp) := by
      obtain rfl | rfl := hkind
      · rfl
      · rfl
    by_cases hlife : s.life = .started
    · exact .inl hlife
    · right
      have hzero := (hnext _ hprocess).held_of_not_started hlife smp
      rw [take_held, hinv.owned.held_of_not_started hlife, if_pos rfl] at hzero
      by_contra hkept
      rw [if_neg hkept] at hzero
      cases hzero

end

/-- Whatever the calls are: in all states of a run the hook owns what it holds if and only if all of
its calls release what they have to. -/
theorem allOwned_iff (k : Kind) (calls : List Call) :
    AllOwned k prepared calls ↔ Along k.methods.step (Releases k) prepared calls := by
  have hiff : ∀ s c, Inv s → True →
      ((∀ s', k.methods.step s c = some s' → Owned s') ↔ Releases k s c) := by
    intro s c hinv _
    constructor
    · exact releases_of_owned hinv
    · exact fun hreleases s' hstep => (inv_effect hinv hreleases (step_effect hstep)).owned
  have hkeep : ∀ s c s', Inv s → True → (∀ s', k.methods.step s c = some s' → Owned s') →
      k.methods.step s c = some s' → Inv s' := by
    intro s c s' hinv _ howned hstep
    exact inv_effect hinv (releases_of_owned hinv howned) (step_effect hstep)
  have hrun : AllOwned k prepared (calls ++ []) ↔
      Along k.methods.step (Releases k) prepared (calls ++ []) :=
    along_iff hiff hkeep (fun s _ => Iff.rfl) inv_prepared fun _ _ => trivial
  rwa [List.append_nil] at hrun

def blank : Payload := ⟨0, 0, 0, 0, ⟨0, 0⟩, ⟨0, 0⟩, fun _ => 0⟩

/-- The hook ebm still has its sample when it was stopped. -/
theorem ebm_keeps :
    ¬ ∀ (k : Kind) (calls : List Call), AllOwned k prepared calls := by
  intro hall
  have howned := hall .ebm [.start, .process 1 fun _ => blank, .stop]
  have hlast := (howned.2 _ rfl).2 _ rfl
  have hzero := hlast.1 _ rfl 1
  exact absurd hzero (by decide)

end VillasNode.Retained
