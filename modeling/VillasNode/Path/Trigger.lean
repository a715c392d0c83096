import VillasNode.Hook.Partition
import VillasNode.Lib.Runs
import VillasNode.Path.Channels

/-!
# The trigger of a path

In mode `all` a read enqueues if and only if every masked source has delivered
since the last time. `path_source_read` compares the masked sources with those
that have delivered, so a delivery of a source that is not masked blocks the
path for good.
-/

namespace VillasNode

variable {σ : Type*} {z : SampleId → Sample} {R : Multiset SampleId} {p p' : Path σ} {i : Nat}
  {ev : Reading} {ret : Int}

/-! ## What a read does to the bit sets -/

theorem arrive_keeps {p₁ : Path σ} {ps : PathSource σ} {read : List SampleId}
    (harrive : p.arrive i ev = some (p₁, ps, read)) :
    p₁.mode = p.mode ∧ p₁.mask = p.mask ∧ p₁.received = p.received := by
  unfold Path.arrive at harrive
  split at harrive
  · simp at harrive
  dsimp only at harrive
  split at harrive
  · simp at harrive
  split at harrive
  · obtain ⟨⟨secondaries, heap⟩, -, heq⟩ := Option.map_eq_some_iff.mp harrive
    cases heq
    exact ⟨rfl, rfl, rfl⟩
  · simp at harrive

theorem pathSourceRead_finish (hread : p.pathSourceRead i ev = some (p', ret)) (hret : 0 ≤ ret) :
    (p.arrive i ev = none ∧ p'.received = p.received) ∨
      ∃ p₁ ps read p₂ muxed, p.arrive i ev = some (p₁, ps, read) ∧
        p₁.mux i ps read ev = (p₂, muxed, true) ∧ p₂.finish i read muxed = some (p', ret) := by
  rcases pathSourceRead_arrive hread with ⟨harrive, -, -⟩ | ⟨p₁, ps, read, harrive, hmux⟩
  · obtain ⟨ps, node, heap, smps, recv, hget, hnode, hcases⟩ := Path.pathSourceRead_cases hread
    rcases hcases with ⟨hpos, hd⟩ | ⟨-, state, rfl, -⟩
    · obtain ⟨secondaries, heap', hforward, -⟩ := Path.deliver_cases hd
      unfold Path.arrive at harrive
      rw [hget] at harrive
      dsimp only at harrive
      rw [hnode] at harrive
      dsimp only at harrive
      rw [if_pos hpos, hforward] at harrive
      simp at harrive
    · exact .inl ⟨harrive, rfl⟩
  · unfold Path.muxAndFinish at hmux
    rcases hr : p₁.mux i ps read ev with ⟨p₂, muxed, ok⟩
    rw [hr] at hmux
    cases ok with
    | false =>
      cases hmux
      omega
    | true => exact .inr ⟨p₁, ps, read, p₂, muxed, harrive, hr, hmux⟩

/-- What can be read of the samples that the queue contains. -/
def PathDestination.contents (pd : PathDestination σ) (h : Heap) : List Snapshot :=
  pd.held.map fun s => (h.payload s).snapshot

/-- Every destination gets the samples `xs`. -/
def Gets (p p' : Path σ) (xs : List Snapshot) : Prop :=
  ∀ (b : Nat) (pd : PathDestination σ), p.destinations[b]? = some pd →
    ∃ pd' : PathDestination σ, p'.destinations[b]? = some pd' ∧
      pd'.contents p'.heap = pd.contents p.heap ++ xs

theorem gets_nothing (hdestinations : p'.destinations = p.destinations)
    (hqueued : ∀ s, Queued p.destinations s → p'.heap.payload s = p.heap.payload s) : Gets p p' [] := by
  intro b pd hget
  refine ⟨pd, hdestinations ▸ hget, ?_⟩
  rw [List.append_nil]
  apply List.map_congr_left
  intro s hs
  rw [hqueued s ⟨pd, List.mem_of_getElem? hget, hs⟩]

theorem Enqueues.gets {h : Heap} {s : SampleId} (he : Enqueues z p h [s] p')
    (hblock : 0 < (h.free p.pool).length) (hroom : ∀ pd ∈ p.destinations, 0 < pd.room) :
    Gets p p' [(h.payload s).copied (p.heap.pools p.pool).capacity] := by
  intro b pd hget
  obtain ⟨clones, hget', hclones, hheld⟩ := he.pushed hget
  rw [List.map_singleton, List.take_of_length_le hblock] at hclones
  have hlen : clones.length = 1 := by
    have := congrArg List.length hclones
    rwa [List.length_map] at this
  refine ⟨pd.push clones, hget', ?_⟩
  unfold PathDestination.contents
  rw [push_held_room (hlen ▸ hroom pd (List.mem_of_getElem? hget)), List.map_append, hclones]
  congr 1
  apply List.map_congr_left
  intro s' hs'
  rw [hheld s' hs']

/-- The hooks keep the muxed sample, and there is a block for its clone. -/
def Path.passes (p : Path σ) (i : Nat) (ps : PathSource σ) (read : List SampleId) (ev : Reading) : Prop :=
  let (p, muxed, _) := p.mux i ps read ev
  let (_, heap, _, toenqueue) := p.hooks.hookListProcess (p.keepLast muxed) muxed
  toenqueue = some 1 ∧ 0 < (heap.free p.pool).length

/-- What the hooks of the path make of the muxed samples `muxed`. -/
structure Hooked (p : Path σ) (i : Nat) (ps : PathSource σ) (read : List SampleId) (ev : Reading)
    (p₂ : Path σ) (muxed : List SampleId) (hooks : HookList σ) (heap : Heap) (hooked : List SampleId)
    (toenqueue : Option Nat) : Prop where
  mux : p.mux i ps read ev = (p₂, muxed, true)
  process : p₂.hooks.hookListProcess (p₂.keepLast muxed) muxed = (hooks, heap, hooked, toenqueue)

section
variable {p₁ p₂ : Path σ} {ps : PathSource σ} {read muxed hooked : List SampleId} {hooks : HookList σ}
  {heap : Heap} {toenqueue : Option Nat}

theorem Hooked.within (hh : Hooked p₁ i ps read ev p₂ muxed hooks heap hooked toenqueue) {n : Nat}
    (hn : toenqueue = some n) : n ≤ hooked.length := by
  have hle : (p₂.hooks.hookListProcess (p₂.keepLast muxed) muxed).2.2.2 = some n →
      n ≤ (p₂.hooks.hookListProcess (p₂.keepLast muxed) muxed).2.2.1.length := hookListProcess_within
  rw [hh.process] at hle
  exact hle hn

theorem Hooked.enqueueCall (hh : Hooked p₁ i ps read ev p₂ muxed hooks heap hooked toenqueue)
    (harrive : p.arrive i ev = some (p₁, ps, read)) :
    p.enqueueCall i ev = if p₂.triggered i then
      toenqueue.map fun n => ({ p₂ with heap, hooks }, hooked.take n) else none := by
  unfold Path.enqueueCall
  rw [harrive]
  dsimp only
  rw [hh.mux]
  dsimp only
  rw [if_pos rfl, hh.process]
  rfl

theorem Hooked.passes_iff (hh : Hooked p₁ i ps read ev p₂ muxed hooks heap hooked toenqueue) :
    p₁.passes i ps read ev ↔ toenqueue = some 1 ∧ 0 < (heap.free p₂.pool).length := by
  unfold Path.passes
  rw [hh.mux]
  dsimp only
  rw [hh.process]

theorem Hooked.received (hh : Hooked p₁ i ps read ev p₂ muxed hooks heap hooked toenqueue)
    (hfinish : p₂.finish i read muxed = some (p', ret)) :
    p'.received = if p₂.triggered i then ∅ else p₂.received := by
  obtain ⟨p₃, he, rfl⟩ := Path.finish_cases hh.process hfinish
  obtain ⟨htrig, -, -, -, rfl⟩ | ⟨htrig, -, rfl⟩ := Path.enqueue_cases he
  · exact (if_pos htrig).symm
  · exact (if_neg htrig).symm

theorem mux_keeps {ok : Bool} (hmux : p₁.mux i ps read ev = (p₂, muxed, ok)) :
    p₂.mode = p₁.mode ∧ p₂.mask = p₁.mask ∧ p₂.received = insert i p₁.received ∧ p₂.pool = p₁.pool := by
  unfold Path.mux at hmux
  simp only [Prod.mk.injEq] at hmux
  obtain ⟨rfl, -, -⟩ := hmux
  exact ⟨rfl, rfl, rfl, rfl⟩

end

/-- In mode `all`, a read marks its source, and it enqueues if then the marked sources are the masked
ones. -/
theorem pathSourceRead_marks (hc : Conserved z R p) (hspared : p.Spared) (hmode : p.mode = .all)
    (hread : p.pathSourceRead i ev = some (p', ret)) (hret : 0 ≤ ret) :
    (p.arrive i ev = none ∧ p'.received = p.received ∧ Gets p p' []) ∨
      ∃ p₁ ps read, p.arrive i ev = some (p₁, ps, read) ∧
        if i ∈ p.mask ∧ p.mask = insert i p.received then
          p'.received = ∅ ∧ (p₁.passes i ps read ev → (∀ pd ∈ p.destinations, 0 < pd.room) →
            ∃ x, p.offers (.read i ev) = [x] ∧ Gets p p' [x])
        else p'.received = insert i p.received ∧ Gets p p' [] := by
  have hqueues := read_enqueues hc hspared hread
  rcases pathSourceRead_finish hread hret with
    ⟨harrive, hreceived⟩ | ⟨p₁, ps, read, p₂, muxed, harrive, hmux, hfinish⟩
  · refine .inl ⟨harrive, hreceived, ?_⟩
    rcases hqueues with ⟨-, hdestinations, hqueued⟩ | ⟨c, hcall, -⟩
    · exact gets_nothing hdestinations hqueued
    · unfold Path.enqueueCall at hcall
      rw [harrive] at hcall
      cases hcall
  refine .inr ⟨p₁, ps, read, harrive, ?_⟩
  obtain ⟨hmode₁, hmask₁, hreceived₁⟩ := arrive_keeps harrive
  obtain ⟨hmode₂, hmask₂, hreceived₂, hpool₂⟩ := mux_keeps hmux
  have hpool : p₂.pool = p.pool := hpool₂.trans (arrive_spec hc harrive).config.pool
  have htriggered : p₂.triggered i ↔ i ∈ p.mask ∧ p.mask = insert i p.received := by
    unfold Path.triggered
    rw [hmode₂, hmask₂, hreceived₂, hmode₁, hmask₁, hreceived₁, hmode]
    simp
  rcases hr : p₂.hooks.hookListProcess (p₂.keepLast muxed) muxed with ⟨hooks, heap, hooked, toenqueue⟩
  have hh : Hooked p₁ i ps read ev p₂ muxed hooks heap hooked toenqueue := ⟨hmux, hr⟩
  have hreceived := hh.received hfinish
  have hcall := hh.enqueueCall harrive
  rw [← if_congr htriggered rfl rfl]
  by_cases htrig : p₂.triggered i
  · rw [if_pos htrig] at hreceived hcall ⊢
    refine ⟨hreceived, fun hpasses hroom => ?_⟩
    obtain ⟨rfl, hblock⟩ := hh.passes_iff.mp hpasses
    obtain ⟨s, rest, rfl⟩ := List.exists_cons_of_length_pos (hh.within rfl)
    rcases hqueues with ⟨hnone, -⟩ | ⟨c, hsome, he⟩
    · rw [hcall] at hnone
      cases hnone
    · cases hcall.symm.trans hsome
      refine ⟨_, ?_, he.gets (hpool ▸ hblock) hroom⟩
      unfold Path.offers Path.call
      dsimp only
      rw [hcall]
      rfl
  · rw [if_neg htrig] at hreceived hcall ⊢
    refine ⟨hreceived.trans (hreceived₂.trans (by rw [hreceived₁])), ?_⟩
    rcases hqueues with ⟨-, hdestinations, hqueued⟩ | ⟨c, hsome, -⟩
    · exact gets_nothing hdestinations hqueued
    · rw [hcall] at hsome
      cases hsome

/-! ## Runs -/

/-- A path, and the sources that have delivered since the last read that was to enqueue. -/
structure Counted (σ : Type*) where
  path : Path σ
  delivered : Finset Nat

/-- With a delivery of source `i` every masked source has delivered since the last enqueue. -/
def Counted.due (w : Counted σ) (i : Nat) : Prop :=
  i ∈ w.path.mask ∧ w.path.mask ⊆ insert i w.delivered

instance (w : Counted σ) (i : Nat) : Decidable (w.due i) := inferInstanceAs (Decidable (_ ∧ _))

/-- A delivery of source `i` that is due starts the count again. -/
def Counted.deliver (w : Counted σ) (i : Nat) : Finset Nat := if w.due i then ∅ else insert i w.delivered

/-- Successful reads of the sources, and writes to the destinations between them. -/
def countStep (w : Counted σ) : PathAction → Option (Counted σ)
  | .read i ev =>
    match w.path.pathSourceRead i ev with
    | none => none
    | some (path, ret) =>
      if 0 ≤ ret then
        some ⟨path, if (w.path.arrive i ev).isSome then w.deliver i else w.delivered⟩
      else none
  | .write i rs => (w.path.writeTo i rs).map fun path => { w with path }
  | .timeout => none

/-- A read that is due puts its muxed sample into the queues of all destinations, and any other
read leaves them. -/
def Counted.TriggersExactly (w : Counted σ) : PathAction → Prop
  | .read i ev => ∀ w', countStep w (.read i ev) = some w' →
    if (w.path.arrive i ev).isSome ∧ w.due i then
      ∃ x, w.path.offers (.read i ev) = [x] ∧ Gets w.path w'.path [x]
    else Gets w.path w'.path []
  | _ => True

/-- Only masked sources deliver, and what is due gets through the hooks and into the queues. -/
def Counted.Good (w : Counted σ) : PathAction → Prop
  | .read i ev => ∀ p₁ ps read, w.path.arrive i ev = some (p₁, ps, read) →
    i ∈ w.path.mask ∧ (w.due i → p₁.passes i ps read ev ∧ ∀ pd ∈ w.path.destinations, 0 < pd.room)
  | _ => True

theorem countStep_read_cases {w w' : Counted σ} (hstep : countStep w (.read i ev) = some w') :
    ∃ ret, w.path.pathSourceRead i ev = some (w'.path, ret) ∧ 0 ≤ ret ∧
      w'.delivered = if (w.path.arrive i ev).isSome then w.deliver i else w.delivered := by
  unfold countStep at hstep
  dsimp only at hstep
  split at hstep
  · simp at hstep
  rename_i path ret hread
  split at hstep
  · rename_i hret
    cases hstep
    exact ⟨ret, hread, hret, rfl⟩
  · simp at hstep

/-- What a run in mode `all` keeps. -/
structure Counted.Sound (z : SampleId → Sample) (w : Counted σ) : Prop where
  mode : w.path.mode = .all
  conserved : ∃ R, Conserved z R w.path
  spared : w.path.Spared

theorem countStep_sound {w w' : Counted σ} {a : PathAction} (hs : w.Sound z) (hstep : countStep w a = some w') :
    w'.Sound z ∧ w'.path.mask = w.path.mask := by
  obtain ⟨R, hc⟩ := hs.conserved
  cases a with
  | read i ev =>
    obtain ⟨ret, hread, -, -⟩ := countStep_read_cases hstep
    obtain ⟨hsame, -, -, lost, hc', -⟩ := pathSourceRead_spec hc hread
    exact ⟨⟨hsame.mode.trans hs.mode, ⟨_, hc'⟩, pathSourceRead_spares hc hs.spared hread⟩, hsame.mask⟩
  | write i rs =>
    obtain ⟨path, hwrite, rfl⟩ := Option.map_eq_some_iff.mp hstep
    have hu := writeTo_undisturbed hc hs.spared hwrite
    exact ⟨⟨hu.config.mode.trans hs.mode, hu.conserved, hu.spared⟩, hu.config.mask⟩
  | timeout => cases hstep

theorem writeTo_received {rs : List DriverWrite} (hw : p.writeTo i rs = some p') :
    p'.received = p.received := by
  unfold Path.writeTo at hw
  split at hw
  · simp at hw
  obtain ⟨-, -, rfl⟩ := Option.map_eq_some_iff.mp hw
  rfl

/-- While only masked sources deliver, the marked sources are those that have delivered. -/
structure Counted.Triggering (z : SampleId → Sample) (w : Counted σ) : Prop extends w.Sound z where
  received : w.path.received = w.delivered
  masked : w.delivered ⊆ w.path.mask

theorem Counted.Triggering.due_iff {w : Counted σ} (ht : w.Triggering z) (i : Nat) :
    w.due i ↔ i ∈ w.path.mask ∧ w.path.mask = insert i w.path.received := by
  unfold Counted.due
  rw [ht.received]
  refine and_congr_right fun hi => ⟨fun hsub => ?_, subset_of_eq⟩
  exact Finset.Subset.antisymm hsub (Finset.insert_subset hi ht.masked)

theorem countStep_read_triggering {w w' : Counted σ} (ht : w.Triggering z) (hgood : w.Good (.read i ev))
    (hstep : countStep w (.read i ev) = some w') :
    w'.Triggering z ∧
      if (w.path.arrive i ev).isSome ∧ w.due i then
        ∃ x, w.path.offers (.read i ev) = [x] ∧ Gets w.path w'.path [x]
      else Gets w.path w'.path [] := by
  obtain ⟨R, hc⟩ := ht.conserved
  obtain ⟨hsound, hmask⟩ := countStep_sound ht.toSound hstep
  obtain ⟨ret, hread, hret, hdelivered⟩ := countStep_read_cases hstep
  rcases pathSourceRead_marks hc ht.spared ht.mode hread hret with
    ⟨hnone, hreceived, hgets⟩ | ⟨p₁, ps, read, harrive, hmarks⟩
  · rw [hnone] at hdelivered ⊢
    have hkeep : w'.delivered = w.delivered := hdelivered
    refine ⟨⟨hsound, ?_, ?_⟩, ?_⟩
    · rw [hreceived, ht.received, hkeep]
    · rw [hkeep, hmask]
      exact ht.masked
    · rwa [if_neg (by simp)]
  · obtain ⟨hi, hdue⟩ := hgood p₁ ps read harrive
    rw [harrive, Option.isSome_some, if_pos rfl] at hdelivered
    rw [harrive, Option.isSome_some]
    simp only [true_and]
    unfold Counted.deliver at hdelivered
    by_cases hd : w.due i
    · rw [if_pos ((ht.due_iff i).mp hd)] at hmarks
      rw [if_pos hd] at hdelivered ⊢
      obtain ⟨hempty, hgets⟩ := hmarks
      obtain ⟨hpasses, hroom⟩ := hdue hd
      refine ⟨⟨hsound, hempty.trans hdelivered.symm, ?_⟩, hgets hpasses hroom⟩
      rw [hdelivered]
      exact Finset.empty_subset _
    · rw [if_neg fun h => hd ((ht.due_iff i).mpr h)] at hmarks
      rw [if_neg hd] at hdelivered ⊢
      obtain ⟨hinsert, hgets⟩ := hmarks
      refine ⟨⟨hsound, ?_, ?_⟩, hgets⟩
      · rw [hinsert, ht.received, hdelivered]
      · rw [hdelivered, hmask]
        exact Finset.insert_subset hi ht.masked

theorem countStep_triggering {w w' : Counted σ} {a : PathAction} (ht : w.Triggering z) (hgood : w.Good a)
    (hstep : countStep w a = some w') : w'.Triggering z := by
  cases a with
  | read i ev => exact (countStep_read_triggering ht hgood hstep).1
  | write i rs =>
    obtain ⟨hsound, hmask⟩ := countStep_sound ht.toSound hstep
    obtain ⟨path, hwrite, rfl⟩ := Option.map_eq_some_iff.mp hstep
    exact ⟨hsound, (writeTo_received hwrite).trans ht.received, hmask ▸ ht.masked⟩
  | timeout => cases hstep

theorem triggersExactly_of_good {w : Counted σ} {a : PathAction} (ht : w.Triggering z) (hgood : w.Good a) :
    w.TriggersExactly a := by
  cases a with
  | read i ev => exact fun w' hstep => (countStep_read_triggering ht hgood hstep).2
  | write | timeout => trivial

/-- In every run in which only masked sources deliver, and what is due gets through the hooks and into
the queues, exactly those reads put their muxed sample into the queues of the destinations after
which every masked source has delivered since the last of them. -/
theorem all_mode_triggers {p₀ : Path σ} {as : List PathAction} (hmode : p₀.mode = .all)
    (hreceived : p₀.received = ∅) (hc : Conserved z R p₀) (hspared : p₀.Spared)
    (hgood : Runs.Along countStep Counted.Good ⟨p₀, ∅⟩ as) :
    Runs.Along countStep Counted.TriggersExactly ⟨p₀, ∅⟩ as := by
  have hinit : (⟨p₀, ∅⟩ : Counted σ).Triggering z :=
    ⟨⟨hmode, ⟨R, hc⟩, hspared⟩, hreceived, Finset.empty_subset _⟩
  exact Runs.Along.invariant_imp (fun (w : Counted σ) _ (ht : w.Triggering z) hg => triggersExactly_of_good ht hg)
    (fun _ _ _ ht hg hstep => countStep_triggering ht hg hstep) hgood hinit

/-! ## An unmasked source -/

/-- No read puts a sample into a queue. -/
def Counted.Blocks (w : Counted σ) : PathAction → Prop
  | .read i ev => ∀ w', countStep w (.read i ev) = some w' → Gets w.path w'.path []
  | _ => True

/-- Source `j`, which is not masked, has delivered. -/
structure Counted.Blocked (z : SampleId → Sample) (j : Nat) (w : Counted σ) : Prop extends w.Sound z where
  marked : j ∈ w.path.received
  unmasked : j ∉ w.path.mask

theorem countStep_read_blocked {w w' : Counted σ} {j : Nat} (hb : w.Blocked z j)
    (hstep : countStep w (.read i ev) = some w') : w'.Blocked z j ∧ Gets w.path w'.path [] := by
  obtain ⟨R, hc⟩ := hb.conserved
  obtain ⟨hsound, hmask⟩ := countStep_sound hb.toSound hstep
  have hunmasked : j ∉ w'.path.mask := hmask ▸ hb.unmasked
  obtain ⟨ret, hread, hret, -⟩ := countStep_read_cases hstep
  rcases pathSourceRead_marks hc hb.spared hb.mode hread hret with
    ⟨-, hreceived, hgets⟩ | ⟨p₁, ps, read, -, hmarks⟩
  · exact ⟨⟨hsound, hreceived ▸ hb.marked, hunmasked⟩, hgets⟩
  · have hno : ¬ (i ∈ w.path.mask ∧ w.path.mask = insert i w.path.received) := by
      rintro ⟨-, heq⟩
      apply hb.unmasked
      rw [heq]
      exact Finset.mem_insert_of_mem hb.marked
    rw [if_neg hno] at hmarks
    obtain ⟨hinsert, hgets⟩ := hmarks
    refine ⟨⟨hsound, ?_, hunmasked⟩, hgets⟩
    rw [hinsert]
    exact Finset.mem_insert_of_mem hb.marked

theorem countStep_blocked {w w' : Counted σ} {a : PathAction} {j : Nat} (hb : w.Blocked z j)
    (hstep : countStep w a = some w') : w'.Blocked z j := by
  cases a with
  | read i ev => exact (countStep_read_blocked hb hstep).1
  | write i rs =>
    obtain ⟨hsound, hmask⟩ := countStep_sound hb.toSound hstep
    obtain ⟨path, hwrite, rfl⟩ := Option.map_eq_some_iff.mp hstep
    exact ⟨hsound, (writeTo_received hwrite).symm ▸ hb.marked, hmask ▸ hb.unmasked⟩
  | timeout => cases hstep

theorem blocks_of_blocked {w : Counted σ} {a : PathAction} {j : Nat} (hb : w.Blocked z j) : w.Blocks a := by
  cases a with
  | read i ev => exact fun w' hstep => (countStep_read_blocked hb hstep).2
  | write | timeout => trivial

/-- Once a source has delivered that is not masked, no read puts a sample into a queue any more. -/
theorem unmasked_blocks {p₀ : Path σ} (as : List PathAction) {j : Nat} (delivered : Finset Nat)
    (hmode : p₀.mode = .all) (hj : j ∈ p₀.received) (hmask : j ∉ p₀.mask) (hc : Conserved z R p₀)
    (hspared : p₀.Spared) : Runs.Along countStep Counted.Blocks ⟨p₀, delivered⟩ as := by
  have hinit : (⟨p₀, delivered⟩ : Counted σ).Blocked z j := ⟨⟨hmode, ⟨R, hc⟩, hspared⟩, hj, hmask⟩
  exact Runs.Along.invariant_imp (fun (w : Counted σ) _ (hb : w.Blocked z j) _ => blocks_of_blocked hb)
    (fun _ _ _ hb _ hstep => countStep_blocked hb hstep) (Runs.along_true _ as) hinit

/-! ## Two sources -/

def twoSources (mask : Finset Nat) : Path Unit :=
  { examplePath .ok with
    mode := .all
    mask
    sources := [exampleSource noHooks 0 [⟨0, .data 0, 1, 0⟩], exampleSource noHooks 2 [⟨1, .data 0, 1, 1⟩]] }

/-- Source 1 delivers, then source 0. -/
def twoReads : List PathAction :=
  [.read 1 (readingOf (exampleSample 1)), .read 0 (readingOf (exampleSample 2))]

theorem twoSources_conserved (mask : Finset Nat) : Conserved exampleHeap.samples 0 (twoSources mask) :=
  ⟨exampleHeap_balanced, show 10 ∈ (exampleHeap.pools 1).blocks by decide⟩

theorem twoSources_spared (mask : Finset Nat) : (twoSources mask).Spared := by
  intro pd hpd
  cases List.mem_singleton.mp hpd
  exact List.not_mem_nil

/-- Source 1 is not masked and prevents the enqueue. -/
theorem unmasked_prevents_enqueue :
    (twoSources {0}).mode = .all ∧ (twoSources {0}).received = ∅ ∧
      Conserved exampleHeap.samples 0 (twoSources {0}) ∧ (twoSources {0}).Spared ∧
      (∃ w, Runs.run countStep ⟨twoSources {0}, ∅⟩ twoReads = some w) ∧
      ¬ Runs.Along countStep Counted.TriggersExactly ⟨twoSources {0}, ∅⟩ twoReads := by
  refine ⟨rfl, rfl, twoSources_conserved _, twoSources_spared _, ⟨_, rfl⟩, fun halong => ?_⟩
  have hexact := (halong.2 _ rfl).1 _ rfl
  rw [if_pos ⟨rfl, by decide⟩] at hexact
  obtain ⟨x, -, hgets⟩ := hexact
  obtain ⟨pd', hpd', hcontents⟩ := hgets 0 _ rfl
  cases hpd'
  cases hcontents

theorem all_mode_triggers_both :
    ∃ w, Runs.run countStep ⟨twoSources {0, 1}, ∅⟩ twoReads = some w ∧
      Runs.Along countStep Counted.TriggersExactly ⟨twoSources {0, 1}, ∅⟩ twoReads := by
  refine ⟨_, rfl, all_mode_triggers rfl rfl (twoSources_conserved _) (twoSources_spared _) ?_⟩
  refine ⟨fun p₁ ps read harrive => ⟨by decide, fun hdue => absurd hdue (by decide)⟩, fun w₁ h₁ => ?_⟩
  cases h₁
  refine ⟨fun p₁ ps read harrive => ?_, fun _ _ => trivial⟩
  cases harrive
  refine ⟨by decide, fun _ => ⟨⟨rfl, by decide⟩, fun pd hpd => ?_⟩⟩
  cases List.mem_singleton.mp hpd
  decide

end VillasNode
