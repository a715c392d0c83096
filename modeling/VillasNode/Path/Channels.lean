import VillasNode.Lib.Channel
import VillasNode.Path.Isolation
import VillasNode.Path.Thread

/-!
# Destinations as channels

A destination is offered the samples that a path enqueues. What its driver
accepts is related to that by a channel that loses: from the pool of the path
over the queue of the destination to the result of the driver, in every run of
the thread of the path.
-/

namespace VillasNode

variable {σ : Type*} {z : SampleId → Sample} {h h' : Heap} {R : Multiset SampleId}
  {smps : List SampleId} {p p' : Path σ} {i b : Nat}

/-- What can be read of a sample. Values behind its length are no part of it. -/
structure Snapshot where
  sequence : BitVec 64
  flags : BitVec 32
  signals : Nat
  origin : Timespec
  received : Timespec
  values : List Value
deriving DecidableEq

def Payload.snapshot (x : Payload) : Snapshot :=
  ⟨x.sequence, x.flags, x.signals, x.origin, x.received, (List.range x.length).map x.data⟩

/-- What can be read of a copy in a sample with room for `capacity` values. -/
def Payload.copied (capacity : Nat) (x : Payload) : Snapshot :=
  { x.snapshot with values := x.snapshot.values.take capacity }

theorem copyPayload_snapshot (capacity : Nat) (dst src : Payload) :
    (Heap.copyPayload capacity dst src).snapshot = src.copied capacity := by
  unfold Heap.copyPayload Payload.copied Payload.snapshot
  dsimp only
  rw [← List.map_take, List.take_range, Nat.min_comm]
  congr 1
  apply List.map_congr_left
  intro slot hslot
  exact if_pos (List.mem_range.mp hslot)

/-! ## What is offered and what is accepted -/

namespace Path

/-- The path and the samples with which `path_source_read` calls `path_destination_enqueue`, if it
does. -/
def enqueueCall (p : Path σ) (i : Nat) (ev : Reading) : Option (Path σ × List SampleId) :=
  match p.arrive i ev with
  | none => none
  | some (p, ps, read) =>
    let (p, muxed, ok) := p.mux i ps read ev
    if ok then
      let (hooks, heap, muxed, toenqueue) := p.hooks.hookListProcess (p.keepLast muxed) muxed
      let p := { p with heap, hooks }
      if p.triggered i then toenqueue.map fun toenqueue => (p, muxed.take toenqueue) else none
    else none

/-- The heap and the samples with which an action calls `path_destination_enqueue`. -/
def call (p : Path σ) : PathAction → Option (Heap × List SampleId)
  | .read i ev => (p.enqueueCall i ev).map fun c => (c.1.heap, c.2)
  | .timeout =>
    let smp := { p.heap.payload p.lastSample with sequence := p.lastSequence.signExtend 64 }
    some (p.heap.setPayload p.lastSample smp, [p.lastSample])
  | .write _ _ => none

/-- What can be read of the samples that are to be enqueued. -/
def offers (p : Path σ) (a : PathAction) : List Snapshot :=
  match p.call a with
  | none => []
  | some (h, smps) => smps.map fun s => (h.payload s).copied (p.heap.pools p.pool).capacity

end Path

/-- What a driver accepts, call by call, of what it is given. -/
def accepted (given : List (List Payload)) (rs : List DriverWrite) : List Snapshot :=
  (given.zip rs).flatMap fun
    | (smps, .sent n) => (smps.take n).map Payload.snapshot
    | (_, .fail _) => []

/-- What the driver of destination `b` accepts in an action. -/
def Path.acceptedBy (p : Path σ) (b : Nat) : PathAction → List Snapshot
  | .write i rs =>
    if i = b then
      match p.destinations[i]? with
      | none => []
      | some pd => ((pathDestinationWrite pd p.heap rs).map fun w => accepted w.2.2 rs).getD []
    else []
  | .read _ _ | .timeout => []

/-- A path with all that was offered to its destinations and all that the driver of one of them has
accepted. -/
structure Traffic (σ : Type*) where
  path : Path σ
  offered : List Snapshot
  accepted : List Snapshot

def trafficStep (b : Nat) (t : Traffic σ) (a : PathAction) : Option (Traffic σ) :=
  (t.path.act a).map fun p => ⟨p, t.offered ++ t.path.offers a, t.accepted ++ t.path.acceptedBy b a⟩

def PathDestination.waiting (pd : PathDestination σ) (h : Heap) : List Snapshot :=
  pd.queue.map fun s => (h.payload s).snapshot

/-! ## Samples in queues stay as they are -/

def Queued (pds : List (PathDestination σ)) (s : SampleId) : Prop := ∃ pd ∈ pds, s ∈ pd.held

theorem Queued.mem_refs {pds : List (PathDestination σ)} {s : SampleId} (hs : Queued pds s) :
    s ∈ destinationRefs pds := by
  obtain ⟨pd, hpd, hmem⟩ := hs
  obtain ⟨j, hj⟩ := List.mem_iff_getElem?.mp hpd
  obtain ⟨rest, hrest, -⟩ := destinationRefs_set hj
  rw [hrest]
  unfold PathDestination.refs
  simp [hmem]

theorem Queued.mem_ownRefs {s : SampleId} (hs : Queued p.destinations s) : s ∈ p.ownRefs := by
  unfold Path.ownRefs
  simp [hs.mem_refs]

theorem mem_fetched {ps : PathSource σ} {s : SampleId} {rest : Multiset SampleId}
    (hs : Queued p.destinations s) : s ∈ ps.refs + (p.ownRefs + (rest + R)) := by
  simp [hs.mem_ownRefs]

theorem arrive_queued {ev : Reading} {p₁ : Path σ} {ps : PathSource σ} {read : List SampleId}
    {s : SampleId} (hc : Conserved z R p) (harrive : p.arrive i ev = some (p₁, ps, read))
    (hs : Queued p.destinations s) : p₁.heap.payload s = p.heap.payload s := by
  unfold Path.arrive at harrive
  split at harrive
  · simp at harrive
  rename_i ps₀ hget
  dsimp only at harrive
  split at harrive
  · simp at harrive
  rename_i node heap smps' recv hnode
  split at harrive
  · obtain ⟨⟨secondaries, heap'⟩, hforward, heq⟩ := Option.map_eq_some_iff.mp harrive
    cases heq
    obtain ⟨rest, hrest, -⟩ := sourceRefs_set hget
    have hb₀ : Balanced z p.heap (ps₀.refs + (p.ownRefs + (rest + R))) := by
      convert hc.balanced using 1
      unfold Path.refs
      rw [hrest]
      abel
    have hf := fetch_spec hb₀ hnode
    have hb₁ : Balanced z heap (queueRefs ps₀.secondaries + ((smps' : Multiset SampleId) +
        (retainedRefs node.hooks.retained + (p.ownRefs + (rest + R))))) := by
      convert hf.balanced using 1
      abel
    obtain ⟨lost, -, ht, -⟩ := forward_spec (fun s hs => Multiset.mem_add.mpr
      (.inl (Multiset.mem_coe.mpr (List.mem_of_mem_take hs)))) hb₁ hforward
    dsimp only
    rw [ht.payload s (by simp)]
    exact hf.payload s (mem_fetched hs)
  · simp at harrive

theorem silent_queued {ev : Reading} {ret : Int} {s : SampleId} (hc : Conserved z R p)
    (harrive : p.arrive i ev = none) (hread : p.pathSourceRead i ev = some (p', ret))
    (hs : Queued p.destinations s) : p'.heap.payload s = p.heap.payload s := by
  obtain ⟨ps, node, heap, smps', recv, hget, hnode, hcases⟩ := Path.pathSourceRead_cases hread
  unfold Path.arrive at harrive
  rw [hget] at harrive
  dsimp only at harrive
  rw [hnode] at harrive
  dsimp only at harrive
  rcases hcases with ⟨hpos, hd⟩ | ⟨hpos, state, rfl, -⟩
  · obtain ⟨secondaries, heap', hforward, -⟩ := Path.deliver_cases hd
    rw [if_pos hpos, hforward] at harrive
    simp at harrive
  · obtain ⟨rest, hrest, -⟩ := sourceRefs_set hget
    have hb₀ : Balanced z p.heap (ps.refs + (p.ownRefs + (rest + R))) := by
      convert hc.balanced using 1
      unfold Path.refs
      rw [hrest]
      abel
    exact (fetch_spec hb₀ hnode).payload s (mem_fetched hs)

/-! ## A batch is enqueued -/

/-- An action has called `path_destination_enqueue` with the samples `smps`, when the heap was `h`. -/
structure Enqueues (z : SampleId → Sample) (p : Path σ) (h : Heap) (smps : List SampleId)
    (p' : Path σ) : Prop where
  balanced : ∃ R, Balanced z h (destinationRefs p.destinations + R) ∧ ∀ s ∈ smps, s ∈ R
  block : ∀ s ∈ smps, s ∈ (h.pools p.pool).blocks
  pools : h.pools = p.heap.pools
  queued : ∀ s, Queued p.destinations s → h.payload s = p.heap.payload s
  destinations : p'.destinations = (pathDestinationEnqueue h p.destinations smps).2
  payload : p'.heap.payload = (pathDestinationEnqueue h p.destinations smps).1.payload

theorem finish_enqueues {read muxed muxed' : List SampleId} {hooks : HookList σ} {toenqueue : Option Nat}
    {ret : Int} (hspared : p.Spared)
    (hr : p.hooks.hookListProcess (p.keepLast muxed) muxed = (hooks, h, muxed', toenqueue))
    (hblock : ∀ m ∈ muxed, m ∈ (p.heap.pools p.pool).blocks)
    (hfresh : ∀ s, Queued p.destinations s → s ∉ muxed)
    (hb : Balanced z p.heap ((muxed : Multiset SampleId) + (p.ownRefs + R)))
    (hf : p.finish i read muxed = some (p', ret)) :
    ({ p with heap := h, hooks }.triggered i ∧
        ∃ cnt, toenqueue = some cnt ∧ Enqueues z p h (muxed'.take cnt) p') ∨
      (¬ { p with heap := h, hooks }.triggered i ∧ p'.destinations = p.destinations ∧
        ∀ s, Queued p.destinations s → p'.heap.payload s = p.heap.payload s) := by
  have hmem : p.lastSample ∈ (muxed : Multiset SampleId) + (p.ownRefs + R) := by
    simp [mem_ownRefs p]
  obtain ⟨hb₁, ht₁⟩ := keepLast_spec muxed hmem hb
  have hb₁' : Balanced z (p.keepLast muxed) (retainedRefs p.hooks.retained + ((muxed : Multiset SampleId) +
      ({p.lastSample} + (destinationRefs p.destinations + R)))) := by
    convert hb₁ using 1
    unfold Path.ownRefs
    abel
  have hp := hookListProcess_spec p.hooks muxed hb₁'
  rw [hr] at hp
  obtain ⟨hb₂, hperm, ht₂, -⟩ := hp
  dsimp only at hb₂ hperm ht₂
  have hqueued : ∀ s, Queued p.destinations s → h.payload s = p.heap.payload s := by
    intro s hs
    have hlast : s ∉ [p.lastSample] := by
      rw [List.mem_singleton]
      rintro rfl
      obtain ⟨pd, hpd, hin⟩ := hs
      exact hspared pd hpd hin
    rw [ht₂.payload s (hfresh s hs), ht₁.payload s hlast]
  obtain ⟨p₃, he, rfl⟩ := Path.finish_cases hr hf
  obtain ⟨htrig, cnt, rfl, -, rfl⟩ | ⟨htrig, -, rfl⟩ := Path.enqueue_cases he
  · have hb₃ : Balanced z h (destinationRefs p.destinations + (retainedRefs hooks.retained +
        ((muxed : Multiset SampleId) + ({p.lastSample} + R)))) := by
      convert hb₂ using 1
      abel
    refine .inl ⟨htrig, cnt, rfl, ⟨_, hb₃, fun s hs => ?_⟩, fun s hs => ?_, ht₂.pools.trans ht₁.pools,
      hqueued, rfl, ?_⟩
    · simp [hperm.mem_iff.mp (List.mem_of_mem_take hs)]
    · rw [ht₂.pools, ht₁.pools]
      exact hblock s (hperm.mem_iff.mp (List.mem_of_mem_take hs))
    · dsimp only
      rw [decrefMany_payload, decrefMany_payload]
  · refine .inr ⟨htrig, rfl, fun s hs => ?_⟩
    dsimp only
    rw [decrefMany_payload, decrefMany_payload]
    exact hqueued s hs

theorem read_enqueues {ev : Reading} {ret : Int} (hc : Conserved z R p) (hspared : p.Spared)
    (hread : p.pathSourceRead i ev = some (p', ret)) :
    (p.enqueueCall i ev = none ∧ p'.destinations = p.destinations ∧
        ∀ s, Queued p.destinations s → p'.heap.payload s = p.heap.payload s) ∨
      ∃ c, p.enqueueCall i ev = some c ∧ Enqueues z p c.1.heap c.2 p' := by
  rcases pathSourceRead_arrive hread with ⟨harrive, -, hdestinations⟩ | ⟨p₁, ps, read, harrive, hmux⟩
  · refine .inl ⟨?_, hdestinations, fun s hs => silent_queued hc harrive hread hs⟩
    unfold Path.enqueueCall
    rw [harrive]
  have ha := arrive_spec hc harrive
  obtain ⟨R₁, hb⟩ := ha.balanced
  have hq₁ : ∀ s, Queued p.destinations s → p₁.heap.payload s = p.heap.payload s :=
    fun s hs => arrive_queued hc harrive hs
  have hspared₁ : p₁.Spared := by
    unfold Path.Spared
    rw [ha.destinations, ha.config.lastSample]
    exact hspared
  have hlast₁ : p₁.lastSample ∈ (p₁.heap.pools p₁.pool).blocks := by
    rw [ha.config.lastSample, ha.config.pools, ha.config.pool]
    exact hc.last
  obtain ⟨hsame₁, hown, -, hm⟩ := mux_spec p₁ i ps read ev hlast₁ (by simp [mem_ownRefs p₁])
    (fun s hs => by simp [hs]) hb
  have hdest₂ : (p₁.mux i ps read ev).1.destinations = p.destinations := ha.destinations
  have hspared₂ : (p₁.mux i ps read ev).1.Spared := hspared₁
  unfold Path.muxAndFinish at hmux
  unfold Path.enqueueCall
  rw [harrive]
  dsimp only
  generalize p₁.mux i ps read ev = r at *
  obtain ⟨p₂, muxed, ok⟩ := r
  dsimp only at *
  have hfresh : ∀ s, Queued p.destinations s → s ∉ muxed := by
    intro s hs hin
    rw [← ha.destinations] at hs
    exact hm.fresh s hin (by simp [hs.mem_ownRefs])
  have hq₂ : ∀ s, Queued p.destinations s → p₂.heap.payload s = p.heap.payload s := by
    intro s hs
    rw [hm.touches.payload s (hfresh s hs), hq₁ s hs]
  cases ok with
  | false =>
    rw [if_neg Bool.false_ne_true] at hmux ⊢
    cases hmux
    exact .inl ⟨rfl, hdest₂, hq₂⟩
  | true =>
    rw [if_pos rfl] at hmux ⊢
    have hconfig : SameConfig p p₂ := ha.config.trans hsame₁
    have hblock : ∀ m ∈ muxed, m ∈ (p₂.heap.pools p₂.pool).blocks := by
      intro m hmem
      rw [hsame₁.pools, hsame₁.pool]
      exact hm.block m hmem
    have hb₂ : Balanced z p₂.heap ((muxed : Multiset SampleId) +
        (p₂.ownRefs + ((read : Multiset SampleId) + R₁))) := by
      convert hm.balanced using 1
      rw [hown]
      abel
    rcases hr : p₂.hooks.hookListProcess (p₂.keepLast muxed) muxed with ⟨hooks, heap, muxed₂, toenqueue⟩
    rw [← hdest₂] at hfresh
    dsimp only
    obtain ⟨htrig, cnt, rfl, he⟩ | ⟨htrig, hdest, hpay⟩ :=
      finish_enqueues hspared₂ hr hblock hfresh hb₂ hmux
    · rw [if_pos htrig]
      refine .inr ⟨_, rfl, ?_⟩
      obtain ⟨hbal, hblock', hpools, hqueued, hdest, hpay⟩ := he
      rw [hdest₂] at hbal hqueued hdest hpay
      refine ⟨hbal, ?_, hpools.trans hconfig.pools, fun s hs => (hqueued s hs).trans (hq₂ s hs), hdest, hpay⟩
      rw [← hconfig.pool]
      exact hblock'
    · rw [if_neg htrig]
      rw [hdest₂] at hdest hpay
      exact .inl ⟨rfl, hdest, fun s hs => (hpay s hs).trans (hq₂ s hs)⟩

/-! ## What the clones hold -/

theorem sampleCopyMany_snapshots (pool : PoolId) (dsts srcs : List SampleId) (hb : Balanced z h R)
    (hdsts : ∀ d ∈ dsts, d ∈ R ∧ d ∈ (h.pools pool).blocks) (hnodup : dsts.Nodup)
    (hapart : ∀ s ∈ srcs, s ∉ dsts) (hlen : dsts.length ≤ srcs.length) :
    dsts.map (fun d => ((h.sampleCopyMany dsts srcs).payload d).snapshot) =
      (srcs.map fun s => (h.payload s).copied (h.pools pool).capacity).take dsts.length := by
  induction dsts generalizing h srcs with
  | nil => simp
  | cons d dsts ih =>
    cases srcs with
    | nil => simp at hlen
    | cons s srcs =>
      rw [List.forall_mem_cons] at hdsts hapart
      rw [List.nodup_cons] at hnodup
      have hstep : h.sampleCopyMany (d :: dsts) (s :: srcs) = (h.sampleCopy d s).sampleCopyMany dsts srcs := rfl
      have hb₁ : Balanced z (h.sampleCopy d s) R := hb.setPayload hdsts.1.1 _
      have ht₁ : Touches [d] h (h.sampleCopy d s) := .setPayload List.mem_cons_self _
      obtain ⟨-, ht₂⟩ := sampleCopyMany_spec dsts srcs (fun x hx => (hdsts.2 x hx).1) hb₁
      have hrest := ih srcs hb₁ (by rw [ht₁.pools]; exact hdsts.2) hnodup.2
        (fun x hx hin => hapart.2 x hx (List.mem_cons_of_mem d hin)) (by simpa using hlen)
      have hsrcs : srcs.map (fun x => ((h.sampleCopy d s).payload x).copied (h.pools pool).capacity) =
          srcs.map fun x => (h.payload x).copied (h.pools pool).capacity := by
        apply List.map_congr_left
        intro x hx
        rw [ht₁.payload x fun hin => hapart.2 x hx (List.mem_singleton.mp hin ▸ List.mem_cons_self)]
      rw [ht₁.pools, hsrcs] at hrest
      rw [hstep, List.map_cons, List.map_cons, List.length_cons, List.take_succ_cons, hrest,
        ht₂.payload d hnodup.1]
      congr 1
      unfold Heap.sampleCopy
      rw [Heap.setPayload_payload, if_pos rfl, copyPayload_snapshot, (hb.held_in hdsts.1.1 hdsts.1.2).2]

theorem sampleCloneMany_snapshots {pool : PoolId} (hb : Balanced z h R) (hsmps : ∀ s ∈ smps, s ∈ R)
    (hblock : ∀ s ∈ smps, s ∈ (h.pools pool).blocks) :
    (h.sampleCloneMany smps).2.map (fun d => ((h.sampleCloneMany smps).1.payload d).snapshot) =
      (smps.map fun s => (h.payload s).copied (h.pools pool).capacity).take (h.free pool).length := by
  unfold Heap.sampleCloneMany
  cases smps with
  | nil => simp
  | cons s smps =>
    dsimp only
    rw [(hb.held_in (hsmps s List.mem_cons_self) (hblock s List.mem_cons_self)).1]
    dsimp only
    obtain ⟨ha, hb₁, hnew⟩ := sampleAllocMany_spec h pool (s :: smps).length hb
    generalize h.sampleAllocMany pool (s :: smps).length = r at *
    obtain ⟨h₁, dsts⟩ := r
    dsimp only at *
    have hlen : dsts.length = min (s :: smps).length (h.free pool).length := by
      rw [ha.taken, List.length_take]
    have hcopies := sampleCopyMany_snapshots pool dsts (s :: smps) hb₁ ?_ ?_
      (fun x hx hin => hnew x hin (hsmps x hx)) (by omega)
    · have hsame : (s :: smps).map (fun s => (h₁.payload s).copied (h.pools pool).capacity) =
          (s :: smps).map fun s => (h.payload s).copied (h.pools pool).capacity := by
        apply List.map_congr_left
        intro x hx
        unfold Heap.payload
        rw [ha.samples x fun hin => hnew x hin (hsmps x hx)]
      rw [hcopies, ha.pools, hlen, hsame, Nat.min_comm]
      conv_rhs => rw [List.take_eq_take_min, List.length_map]
    · intro d hd
      refine ⟨by simp [hd], ?_⟩
      rw [ha.pools]
      rw [ha.taken] at hd
      exact hb.area pool d (List.mem_of_mem_take hd)
    · rw [ha.taken]
      exact (hb.nodup pool).sublist (List.take_sublist _ _)

theorem Enqueues.pushed {pd : PathDestination σ} (he : Enqueues z p h smps p')
    (hget : p.destinations[b]? = some pd) :
    ∃ clones : List SampleId, p'.destinations[b]? = some (pd.push clones) ∧
      clones.map (fun s => (p'.heap.payload s).snapshot) =
        (smps.map fun s => (h.payload s).copied (p.heap.pools p.pool).capacity).take
          (h.free p.pool).length ∧
      ∀ s ∈ pd.held, p'.heap.payload s = p.heap.payload s := by
  obtain ⟨R, hb, hsmps⟩ := he.balanced
  have hheld : ∀ s ∈ smps, s ∈ destinationRefs p.destinations + R :=
    fun s hs => Multiset.mem_add.mpr (.inr (hsmps s hs))
  obtain ⟨-, ht, hfresh, -⟩ := sampleCloneMany_spec hb hheld he.block
  have hclones := sampleCloneMany_snapshots hb hheld he.block
  rw [he.pools] at hclones
  have hpayload : p'.heap.payload = (h.sampleCloneMany smps).1.payload := by
    rw [he.payload]
    unfold pathDestinationEnqueue
    dsimp only
    rw [decrefMany_payload, enqueueAll_payload]
  rw [hpayload]
  refine ⟨(h.sampleCloneMany smps).2, ?_, hclones, fun s hs => ?_⟩
  · rw [he.destinations]
    unfold pathDestinationEnqueue
    dsimp only
    rw [enqueueAll_get, hget]
    rfl
  · have hqueued : Queued p.destinations s := ⟨pd, List.mem_of_getElem? hget, hs⟩
    rw [ht.payload s fun hin => hfresh s hin (Multiset.mem_add.mpr (.inl hqueued.mem_refs)),
      he.queued s hqueued]

theorem Enqueues.waiting {pd : PathDestination σ} (he : Enqueues z p h smps p')
    (hget : p.destinations[b]? = some pd) (htwo : 2 ≤ pd.queueSize) :
    ∃ pd', p'.destinations[b]? = some pd' ∧ pd'.queueSize = pd.queueSize ∧
      pd'.waiting p'.heap = pd.waiting p.heap ++
        ((smps.map fun s => (h.payload s).copied (p.heap.pools p.pool).capacity).take
          (h.free p.pool).length).take (pd.queueSize - pd.queue.length) := by
  obtain ⟨clones, hget', hclones, hheld⟩ := he.pushed hget
  rw [held_of_two_le htwo] at hheld
  refine ⟨pd.push clones, hget', rfl, ?_⟩
  unfold PathDestination.waiting
  rw [push_queue_many (by omega), List.map_append, List.map_take, hclones]
  congr 1
  apply List.map_congr_left
  intro s hs
  rw [hheld s hs]

theorem timeout_enqueues (hc : Conserved z R p) (hspared : p.Spared) {a : PathAction}
    (ha : a = .timeout) : ∃ h smps, p.call a = some (h, smps) ∧ Enqueues z p h smps p.timeout := by
  subst ha
  have hrefs : p.refs + R = destinationRefs p.destinations + (sourceRefs p.sources + ({p.lastSample} +
      (retainedRefs p.hooks.retained + R))) := by
    unfold Path.refs Path.ownRefs
    abel
  have hlast : p.lastSample ∈ p.refs + R := by simp [hrefs]
  have hb := hc.balanced.setPayload hlast
    { p.heap.payload p.lastSample with sequence := p.lastSequence.signExtend 64 }
  rw [hrefs] at hb
  have hpools := Heap.setPayload_pools p.heap p.lastSample
    { p.heap.payload p.lastSample with sequence := p.lastSequence.signExtend 64 }
  refine ⟨_, _, rfl, ⟨_, hb, by simp⟩, ?_, hpools, ?_, rfl, rfl⟩
  · intro s hs
    rw [List.mem_singleton.mp hs, hpools]
    exact hc.last
  · rintro s ⟨pd, hpd, hin⟩
    rw [Heap.setPayload_payload, if_neg]
    rintro rfl
    exact hspared pd hpd hin

/-! ## A batch is written -/

def DriverWrite.isSent : DriverWrite → Bool
  | .fail _ => false
  | .sent _ => true

theorem accepted_append {given given' : List (List Payload)} {rs rs' : List DriverWrite}
    (hlen : rs.length = given.length) :
    accepted (given ++ given') (rs ++ rs') = accepted given rs ++ accepted given' rs' := by
  unfold accepted
  rw [List.zip_append hlen.symm, List.flatMap_append]

theorem writeLoop_accepted {vect nsent : Nat} {rs rest : List DriverWrite}
    {given : List (List Payload)} {sent : Option Nat}
    (hw : writeLoop vect smps h nsent rs = some (given, sent, rest)) :
    ∃ used k, rs = used ++ rest ∧ used.length = given.length ∧
      accepted given used = ((smps.drop nsent).take k).map (fun s => (h.payload s).snapshot) ∧
      (used.all DriverWrite.isSent ↔ smps.length ≤ nsent + k) ∧
      (sent = none ↔ ¬ used.all DriverWrite.isSent) := by
  induction rs generalizing nsent given with
  | nil =>
    unfold writeLoop at hw
    split at hw
    · simp at hw
    · rename_i hend
      cases hw
      exact ⟨[], 0, rfl, rfl, by simp [accepted], by simpa using hend, by simp⟩
  | cons r rs ih =>
    unfold writeLoop at hw
    dsimp only at hw
    split at hw
    · rename_i hlt
      cases r with
      | fail code =>
        cases hw
        refine ⟨[.fail code], 0, rfl, rfl, by simp [accepted], ?_, by simp [DriverWrite.isSent]⟩
        simpa [DriverWrite.isSent] using hlt
      | sent n =>
        dsimp only at hw
        split at hw
        · rename_i hle
          split at hw
          · simp at hw
          rename_i log res hrest
          cases hw
          obtain ⟨used, k, rfl, hlen, haccepted, hall, hsent⟩ := ih hrest
          refine ⟨.sent n :: used, n + k, rfl, by simp [hlen], ?_, ?_, ?_⟩
          · have hcons : accepted (((smps.drop nsent).take (min (smps.length - nsent) vect)).map h.payload ::
                log) (.sent n :: used) = ((((smps.drop nsent).take (min (smps.length - nsent) vect)).map
                  h.payload).take n).map Payload.snapshot ++ accepted log used := rfl
            rw [hcons, haccepted, List.take_add, List.map_append, List.drop_drop, ← List.map_take,
              List.take_take, min_eq_left hle, List.map_map]
            rfl
          · rw [← Nat.add_assoc, ← hall]
            rfl
          · exact hsent
        · simp at hw
    · rename_i hend
      cases hw
      exact ⟨[], 0, rfl, rfl, by simp [accepted], by simpa using hend, by simp⟩

theorem nodeWrite_accepted {n : NodeDirection σ} {rs : List DriverWrite} {w : Written σ}
    (hplain : n.hooks.retained = []) (hne : smps ≠ []) (hw : nodeWrite n h smps rs = some w) :
    w.node = n ∧ w.heap = h ∧ w.smps = smps ∧
      ∃ used k, rs = used ++ w.results ∧ used.length = w.given.length ∧
        accepted w.given used = (smps.take k).map (fun s => (h.payload s).snapshot) ∧
        (n.running ∧ used.all DriverWrite.isSent ↔ smps.length ≤ k) ∧
        (w.sent = none → ¬ (n.running ∧ used.all DriverWrite.isSent)) := by
  have hlen : ¬ smps.length ≤ 0 := by simpa using hne
  have hidle : ¬ n.running → ∃ used k, rs = used ++ rs ∧ used.length = 0 ∧
      accepted [] used = (smps.take k).map (fun s => (h.payload s).snapshot) ∧
      (n.running ∧ used.all DriverWrite.isSent ↔ smps.length ≤ k) := by
    intro hrunning
    exact ⟨[], 0, rfl, rfl, by simp [accepted], by simp [hrunning, hne]⟩
  unfold nodeWrite at hw
  split at hw
  · rename_i hstate
    have hrunning : ¬ n.running := by
      unfold NodeDirection.running
      rcases hstate with hstate | hstate <;> simp [hstate]
    cases hw
    obtain ⟨used, k, hrs, hused, hacc, hiff⟩ := hidle hrunning
    exact ⟨rfl, rfl, rfl, used, k, hrs, hused, hacc, hiff, fun _ hgood => hrunning hgood.1⟩
  split at hw
  · rename_i hstate
    have hrunning : ¬ n.running := not_or.mpr hstate
    cases hw
    obtain ⟨used, k, hrs, hused, hacc, hiff⟩ := hidle hrunning
    exact ⟨rfl, rfl, rfl, used, k, hrs, hused, hacc, hiff, fun _ hgood => hrunning hgood.1⟩
  rename_i hactive hstate
  have hrunning : n.running := by
    unfold NodeDirection.running
    exact or_iff_not_and_not.mpr hstate
  have hprocess : n.hooks.hookListProcess h smps = (n.hooks, h, smps, some smps.length) := by
    unfold HookList.hookListProcess
    rw [hplain]
    rfl
  rw [hprocess] at hw
  dsimp only at hw
  rw [if_neg (by simpa using hne), List.take_length] at hw
  obtain ⟨⟨given, sent, rest⟩, hloop, rfl⟩ := Option.map_eq_some_iff.mp hw
  obtain ⟨used, k, hrs, hused, hacc, hall, hsent⟩ := writeLoop_accepted hloop
  rw [List.drop_zero] at hacc
  rw [Nat.zero_add] at hall
  refine ⟨rfl, rfl, rfl, used, k, hrs, hused, hacc, ?_, fun hnone hgood => hsent.mp hnone hgood.2⟩
  rw [← hall]
  exact and_iff_right hrunning

/-- The queue is empty, or the node runs and no call of its driver fails. -/
def PathDestination.WritesAll (pd : PathDestination σ) (given : List (List Payload))
    (rs : List DriverWrite) : Prop :=
  pd.queue.take pd.node.vectorize = [] ∨
    pd.node.running ∧ (rs.take given.length).all DriverWrite.isSent

theorem destinationLoop_empty {pd pd' : PathDestination σ} {rs : List DriverWrite}
    {given : List (List Payload)} {n : Nat} (hempty : pd.queue.take pd.node.vectorize = [])
    (hw : destinationLoop pd h rs n = some (pd', h', given)) : given = [] := by
  cases n with
  | zero =>
    cases hw
    rfl
  | succ n =>
    obtain ⟨-, -, -, hgiven⟩ | ⟨hne, -⟩ := destinationLoop_cases hw
    · exact hgiven
    · exact absurd hempty hne

/-- The destination after a round of its loop. -/
def PathDestination.rest (pd : PathDestination σ) : PathDestination σ :=
  { pd with queue := pd.queue.drop pd.node.vectorize }

theorem destinationLoop_accepted {pd pd' : PathDestination σ} {rs : List DriverWrite}
    {given : List (List Payload)} (size n : Nat) (done : List Snapshot)
    (hplain : pd.node.hooks.retained = []) (hfuel : pd.queue.length < n)
    (hw : destinationLoop pd h rs n = some (pd', h', given)) :
    h'.payload = h.payload ∧ pd'.node = pd.node ∧ pd'.queueSize = pd.queueSize ∧
      Channel.Reach size [] ⟨pd.waiting h, done⟩ ⟨pd'.waiting h', done ++ accepted given rs⟩ ∧
      ((accepted given rs).length + pd'.queue.length = pd.queue.length ↔ pd.WritesAll given rs) := by
  induction n generalizing pd h rs given done with
  | zero => exact absurd hfuel (Nat.not_lt_zero _)
  | succ n ih =>
    obtain ⟨hempty, rfl, rfl, rfl⟩ | ⟨hne, -, w, hnode, hround⟩ := destinationLoop_cases hw
    · have hnone : accepted [] rs = [] := rfl
      rw [hnone, List.append_nil]
      refine ⟨rfl, rfl, rfl, .refl _ _, ?_⟩
      simp [PathDestination.WritesAll, hempty]
    obtain ⟨hnode', hheap, hsmps, used, k, hrs, hused, hacc, hall, hsent⟩ :=
      nodeWrite_accepted hplain hne hnode
    have hbatch : Channel.Reach size [] ⟨pd.waiting h, done⟩
        ⟨pd.rest.waiting h, done ++ accepted w.given used⟩ := by
      rw [hacc, List.take_take, List.map_take]
      unfold PathDestination.waiting PathDestination.rest
      dsimp only
      rw [List.map_drop]
      exact .batch size _ _ (min_le_right k _)
    have hcount : (accepted w.given used).length = min k (pd.queue.take pd.node.vectorize).length := by
      rw [hacc, List.length_map, List.length_take]
    have hlen : (pd.queue.take pd.node.vectorize).length + (pd.queue.drop pd.node.vectorize).length =
        pd.queue.length := by
      rw [← List.length_append, List.take_append_drop]
    rw [hnode', hheap, hsmps] at hround
    subst hrs
    obtain ⟨hw₁, rfl, rfl, rfl⟩ | ⟨hw₁, given₃, rfl, hrest⟩ := hround
    · have hwrites : pd.WritesAll w.given (used ++ w.results) ↔
          (pd.queue.take pd.node.vectorize).length ≤ k := by
        unfold PathDestination.WritesAll
        rw [or_iff_right hne, ← hused, List.take_left, hall]
      have hself : accepted w.given (used ++ w.results) = accepted w.given used := by
        rw [← List.append_nil w.given, accepted_append hused]
        simp [accepted]
      rw [hwrites, hself]
      refine ⟨rfl, rfl, rfl, hbatch, ?_⟩
      dsimp only
      omega
    · change destinationLoop pd.rest _ _ _ = _ at hrest
      rw [accepted_append hused, ← List.append_assoc]
      have hpos : 0 < (pd.queue.take pd.node.vectorize).length := List.length_pos_iff.mpr hne
      have hplain₁ : pd.rest.node.hooks.retained = [] := hplain
      have hfuel₁ : pd.rest.queue.length < n := by
        unfold PathDestination.rest
        dsimp only
        omega
      obtain ⟨hpayload, hnode₃, hsize₃, hreach, hiff⟩ :=
        ih (done ++ accepted w.given used) hplain₁ hfuel₁ hrest
      have hsame : pd.rest.waiting (h.sampleDecrefMany (pd.queue.take pd.node.vectorize)) =
          pd.rest.waiting h := by
        unfold PathDestination.waiting
        rw [decrefMany_payload]
      rw [decrefMany_payload] at hpayload
      rw [hsame] at hreach
      refine ⟨hpayload, hnode₃, hsize₃, hbatch.trans hreach, ?_⟩
      have hsub := hreach.sublist.length_le
      unfold Channel.State.kept PathDestination.waiting at hsub
      simp only [List.length_append, List.length_map, List.append_nil] at hsub
      have hwrites : pd.WritesAll (w.given ++ given₃) (used ++ w.results) ↔
          (pd.queue.take pd.node.vectorize).length ≤ k ∧ pd.rest.WritesAll given₃ w.results := by
        unfold PathDestination.WritesAll
        rw [or_iff_right hne, ← hall, List.length_append, ← hused, List.take_length_add_append, List.all_append]
        have hnode₁ : pd.rest.node = pd.node := rfl
        rw [hnode₁, Bool.and_eq_true]
        by_cases hempty : pd.rest.queue.take pd.node.vectorize = []
        · have hnil : given₃ = [] := destinationLoop_empty hempty hrest
          simp [hempty, hnil]
        · rw [or_iff_right hempty]
          exact and_and_left
      have hqueue : pd.rest.queue = pd.queue.drop pd.node.vectorize := rfl
      rw [hqueue] at hsub hiff
      rw [hwrites, ← hiff, List.length_append]
      omega

/-! ## Actions -/

/-- The destination `b` has no hooks, and those of the other destinations change no sample. -/
structure Path.Separate (p : Path σ) (b : Nat) : Prop where
  plain : ∀ pd, p.destinations[b]? = some pd → pd.node.hooks.retained = []
  fixes : ∀ i pd, i ≠ b → p.destinations[i]? = some pd → ∀ x, pd.node.hooks.Fixes x

/-- No action changes what the hooks of the destinations do. -/
def SameNodes (p p' : Path σ) : Prop :=
  ∀ (i : Nat) (pd' : PathDestination σ), p'.destinations[i]? = some pd' →
    ∃ pd : PathDestination σ, p.destinations[i]? = some pd ∧ SameHooks pd.node.hooks pd'.node.hooks

theorem Path.Separate.kept (hsep : p.Separate b) (hsame : SameNodes p p') : p'.Separate b := by
  constructor
  · intro pd' hpd'
    obtain ⟨pd, hpd, hhooks⟩ := hsame b pd' hpd'
    rw [← List.length_eq_zero_iff, hhooks.length, hsep.plain pd hpd]
    rfl
  · intro i pd' hne hpd' x
    obtain ⟨pd, hpd, hhooks⟩ := hsame i pd' hpd'
    exact hhooks.fixes (hsep.fixes i pd hne hpd x)

theorem Enqueues.sameNodes (he : Enqueues z p h smps p') : SameNodes p p' := by
  intro i pd' hpd'
  rw [he.destinations] at hpd'
  unfold pathDestinationEnqueue at hpd'
  dsimp only at hpd'
  rw [enqueueAll_get] at hpd'
  obtain ⟨pd, hpd, rfl⟩ := Option.map_eq_some_iff.mp hpd'
  exact ⟨pd, hpd, .refl _⟩

/-- An action loses nothing that destination `b` is offered or holds. -/
def Path.Keeps (p : Path σ) (b : Nat) : PathAction → Prop
  | .write i rs => i = b → ∀ pd pd' heap given, p.destinations[i]? = some pd →
      pathDestinationWrite pd p.heap rs = some (pd', heap, given) → pd.WritesAll given rs
  | a => ∀ h smps pd, p.call a = some (h, smps) → p.destinations[b]? = some pd →
      smps.length ≤ (h.free p.pool).length ∧ smps.length ≤ pd.room

/-- What an action is to destination `b`. -/
structure Serves (b : Nat) (p : Path σ) (a : PathAction) (p' : Path σ) (pd pd' : PathDestination σ) :
    Prop where
  queueSize : pd'.queueSize = pd.queueSize
  channel : ∀ done, Channel.Reach pd.queueSize (p.offers a) ⟨pd.waiting p.heap, done⟩
    ⟨pd'.waiting p'.heap, done ++ p.acceptedBy b a⟩
  keeps : (p.acceptedBy b a).length + pd'.queue.length = pd.queue.length + (p.offers a).length ↔
    p.Keeps b a

theorem Enqueues.serves {a : PathAction} {pd : PathDestination σ} (he : Enqueues z p h smps p')
    (hcall : p.call a = some (h, smps)) (hget : p.destinations[b]? = some pd) (htwo : 2 ≤ pd.queueSize) :
    ∃ pd', p'.destinations[b]? = some pd' ∧ Serves b p a p' pd pd' := by
  obtain ⟨pd', hget', hsize, hwaiting⟩ := he.waiting hget htwo
  have hwrite : ∀ i rs, a ≠ .write i rs := by
    rintro i rs rfl
    simp [Path.call] at hcall
  have hoffers : p.offers a = smps.map fun s => (h.payload s).copied (p.heap.pools p.pool).capacity := by
    unfold Path.offers
    rw [hcall]
  have haccepted : p.acceptedBy b a = [] := by
    cases a with
    | write i rs => exact absurd rfl (hwrite i rs)
    | read i ev | timeout => rfl
  refine ⟨pd', hget', hsize, fun done => ?_, ?_⟩
  · rw [hwaiting, haccepted, List.append_nil, hoffers]
    have hlen : (pd.waiting p.heap).length = pd.queue.length := List.length_map _
    rw [← hlen]
    exact .one pd.queueSize ⟨pd.waiting p.heap, done⟩ (.offer _ (h.free p.pool).length)
  · have hkeeps : p.Keeps b a ↔ smps.length ≤ (h.free p.pool).length ∧ smps.length ≤ pd.room := by
      have hone : p.Keeps b a ↔ ∀ h smps pd, p.call a = some (h, smps) → p.destinations[b]? = some pd →
          smps.length ≤ (h.free p.pool).length ∧ smps.length ≤ pd.room := by
        cases a with
        | write i rs => exact absurd rfl (hwrite i rs)
        | read i ev | timeout => exact Iff.rfl
      rw [hone]
      constructor
      · exact fun hall => hall h smps pd hcall hget
      · intro hroom h' smps' pd₁ hcall' hget₁
        cases hcall.symm.trans hcall'
        cases hget.symm.trans hget₁
        exact hroom
    have hlen := congrArg List.length hwaiting
    unfold PathDestination.waiting at hlen
    simp only [List.length_append, List.length_map, List.length_take] at hlen
    rw [hkeeps, haccepted, hoffers, List.length_map, List.length_nil, hlen]
    unfold PathDestination.room
    omega

theorem destinationLoop_same {pd pd' : PathDestination σ} {rs : List DriverWrite}
    {given : List (List Payload)} (n : Nat) (hfix : ∀ x, pd.node.hooks.Fixes x)
    (hw : destinationLoop pd h rs n = some (pd', h', given)) :
    SameHooks pd.node.hooks pd'.node.hooks := by
  induction n generalizing pd h rs given with
  | zero =>
    cases hw
    exact .refl _
  | succ n ih =>
    obtain ⟨-, rfl, -, -⟩ | ⟨-, -, w, hnode, hround⟩ := destinationLoop_cases hw
    · exact .refl _
    have hfix₀ : pd.node.running → 0 ∈ pd.queue.take pd.node.vectorize →
        pd.node.hooks.Fixes (h.payload 0) := fun _ _ => hfix _
    obtain ⟨-, hsame, -⟩ := nodeWrite_fixed hfix₀ hnode
    obtain ⟨-, -, -, rfl⟩ | ⟨-, rest, -, hrest⟩ := hround
    · exact hsame
    · exact hsame.trans (ih (fun x => hsame.fixes (hfix x)) hrest)

theorem writeTo_serves {rs : List DriverWrite} {pd : PathDestination σ} (hsep : p.Separate b)
    (hget : p.destinations[b]? = some pd) (hw : p.writeTo i rs = some p') :
    SameNodes p p' ∧ ∃ pd', p'.destinations[b]? = some pd' ∧ Serves b p (.write i rs) p' pd pd' := by
  unfold Path.writeTo at hw
  split at hw
  · simp at hw
  rename_i pd₁ hget₁
  obtain ⟨⟨pd₂, heap, given⟩, hloop, rfl⟩ := Option.map_eq_some_iff.mp hw
  have hlt : i < p.destinations.length := (List.getElem?_eq_some_iff.mp hget₁).1
  have hnodes : SameHooks pd₁.node.hooks pd₂.node.hooks →
      SameNodes p { p with heap, destinations := p.destinations.set i pd₂ } := by
    intro hsame j pd' hpd'
    dsimp only at hpd'
    by_cases hij : i = j
    · subst hij
      rw [List.getElem?_set_self hlt] at hpd'
      cases hpd'
      exact ⟨pd₁, hget₁, hsame⟩
    · rw [List.getElem?_set_ne hij] at hpd'
      exact ⟨pd', hpd', .refl _⟩
  by_cases hib : i = b
  · subst hib
    cases hget.symm.trans hget₁
    obtain ⟨-, hnode, hsize, -, hiff⟩ :=
      destinationLoop_accepted pd.queueSize _ [] (hsep.plain pd hget) (Nat.lt_succ_self _) hloop
    have hmine : p.acceptedBy i (.write i rs) = accepted given rs := by
      unfold Path.acceptedBy
      dsimp only
      rw [if_pos rfl, hget]
      dsimp only
      rw [hloop]
      rfl
    refine ⟨hnodes (hnode ▸ .refl _), pd₂, List.getElem?_set_self hlt, hsize, fun done => ?_, ?_⟩
    · rw [hmine]
      obtain ⟨-, -, -, hreach, -⟩ :=
        destinationLoop_accepted pd.queueSize _ done (hsep.plain pd hget) (Nat.lt_succ_self _) hloop
      exact hreach
    · have hoffers : (p.offers (.write i rs)).length = 0 := rfl
      rw [hmine, hoffers, Nat.add_zero, hiff]
      constructor
      · intro hall _ pd₃ pd₄ heap₄ given₄ hget₃ hloop₃
        cases hget.symm.trans hget₃
        cases hloop.symm.trans hloop₃
        exact hall
      · exact fun hkeeps => hkeeps rfl pd pd₂ heap given hget hloop
  · have hfix := hsep.fixes i pd₁ hib hget₁
    have hother : p.acceptedBy b (.write i rs) = [] := if_neg hib
    refine ⟨hnodes (destinationLoop_same _ hfix hloop), pd, ?_, rfl, fun done => ?_, ?_⟩
    · dsimp only
      rw [List.getElem?_set_ne hib]
      exact hget
    · have hwaiting : pd.waiting heap = pd.waiting p.heap := by
        apply List.map_congr_left
        intro s _
        rw [destinationLoop_fixed _ (fun _ _ => hfix _) hloop]
      rw [hother, List.append_nil]
      dsimp only
      rw [hwaiting]
      exact .refl _ _
    · rw [hother]
      exact iff_of_true (Nat.add_comm 0 _) fun hib' => absurd hib' hib

theorem act_serves {a : PathAction} {pd : PathDestination σ} (hc : Conserved z R p) (hspared : p.Spared)
    (hsep : p.Separate b) (hget : p.destinations[b]? = some pd) (htwo : 2 ≤ pd.queueSize)
    (hact : p.act a = some p') :
    (∃ R, Conserved z R p') ∧ p'.Spared ∧ SameNodes p p' ∧
      ∃ pd', p'.destinations[b]? = some pd' ∧ Serves b p a p' pd pd' := by
  cases a with
  | read i ev =>
    obtain ⟨⟨p'', ret⟩, hread, rfl⟩ := Option.map_eq_some_iff.mp hact
    dsimp only at hread ⊢
    obtain ⟨-, -, -, lost, hc', -⟩ := pathSourceRead_spec hc hread
    refine ⟨⟨_, hc'⟩, pathSourceRead_spares hc hspared hread, ?_⟩
    rcases read_enqueues hc hspared hread with ⟨hcall, hdest, hqueued⟩ | ⟨c, hcall, he⟩
    · have hnone : p.call (.read i ev) = none := by
        unfold Path.call
        dsimp only
        rw [hcall]
        rfl
      have hoffers : p.offers (.read i ev) = [] := by
        unfold Path.offers
        rw [hnone]
      refine ⟨?_, pd, hdest ▸ hget, rfl, fun done => ?_, ?_⟩
      · intro j pd' hpd'
        exact ⟨pd', hdest ▸ hpd', .refl _⟩
      · have hwaiting : pd.waiting p''.heap = pd.waiting p.heap := by
          apply List.map_congr_left
          intro s hs
          rw [hqueued s ⟨pd, List.mem_of_getElem? hget, (held_of_two_le htwo).symm ▸ hs⟩]
        have hnothing : p.acceptedBy b (.read i ev) = [] := rfl
        rw [hwaiting, hoffers, hnothing, List.append_nil]
        exact .refl _ _
      · rw [hoffers]
        refine iff_of_true (Nat.add_comm 0 _) ?_
        intro h smps pd₁ hcall' hget₁
        rw [hnone] at hcall'
        cases hcall'
    · have hcall' : p.call (.read i ev) = some (c.1.heap, c.2) := by
        unfold Path.call
        dsimp only
        rw [hcall]
        rfl
      exact ⟨he.sameNodes, he.serves hcall' hget htwo⟩
  | timeout =>
    cases hact
    have hu := timeout_undisturbed hc hspared
    obtain ⟨h, smps, hcall, he⟩ := timeout_enqueues hc hspared rfl
    exact ⟨hu.conserved, hu.spared, he.sameNodes, he.serves hcall hget htwo⟩
  | write i rs =>
    have hu := writeTo_undisturbed hc hspared hact
    exact ⟨hu.conserved, hu.spared, writeTo_serves hsep hget hact⟩

/-! ## Runs -/

/-- What a run keeps, from the path `p₀` on, in which destination `b` is `pd₀`. -/
structure Traffic.Channelled (z : SampleId → Sample) (b : Nat) (p₀ : Path σ) (pd₀ : PathDestination σ)
    (t : Traffic σ) : Prop where
  conserved : ∃ R, Conserved z R t.path
  spared : t.path.Spared
  separate : t.path.Separate b
  channel : ∃ pd, t.path.destinations[b]? = some pd ∧ pd.queueSize = pd₀.queueSize ∧
    Channel.Reach pd₀.queueSize t.offered ⟨pd₀.waiting p₀.heap, []⟩ ⟨pd.waiting t.path.heap, t.accepted⟩

theorem trafficStep_channelled {p₀ : Path σ} {pd₀ : PathDestination σ} {t t' : Traffic σ} {a : PathAction}
    (htwo : 2 ≤ pd₀.queueSize) (ht : t.Channelled z b p₀ pd₀) (hstep : trafficStep b t a = some t') : t'.Channelled z b p₀ pd₀ := by
  obtain ⟨p', hact, rfl⟩ := Option.map_eq_some_iff.mp hstep
  obtain ⟨R, hc⟩ := ht.conserved
  obtain ⟨pd, hget, hsize, hreach⟩ := ht.channel
  obtain ⟨hc', hspared', hsame, pd', hget', hserves⟩ :=
    act_serves hc ht.spared ht.separate hget (hsize ▸ htwo) hact
  refine ⟨hc', hspared', ht.separate.kept hsame, pd', hget', hserves.queueSize.trans hsize, ?_⟩
  exact hreach.trans (hsize ▸ hserves.channel t.accepted)

theorem run_channelled {pd : PathDestination σ} {as : List PathAction} {t : Traffic σ}
    (hc : Conserved z R p) (hspared : p.Spared) (hsep : p.Separate b) (hget : p.destinations[b]? = some pd)
    (htwo : 2 ≤ pd.queueSize)
    (hrun : Runs.run (trafficStep b) ⟨p, [], []⟩ as = some t) : t.Channelled z b p pd := by
  have hinit : (⟨p, [], []⟩ : Traffic σ).Channelled z b p pd :=
    ⟨⟨R, hc⟩, hspared, hsep, pd, hget, rfl, .refl _ _⟩
  exact Runs.always (fun _ _ _ ht hstep => trafficStep_channelled htwo ht hstep) hinit hrun

/-- Whatever the thread of a path does, a destination without hooks, whose queue has at least two
places, is a channel: what its driver
has accepted and what it still holds was offered to it, in this order, each sample once, with
its header and its values. -/
theorem destination_is_channel {pd : PathDestination σ} {as : List PathAction} {t : Traffic σ}
    (hc : Conserved z R p) (hspared : p.Spared) (hsep : p.Separate b) (hget : p.destinations[b]? = some pd)
    (htwo : 2 ≤ pd.queueSize)
    (hrun : Runs.run (trafficStep b) ⟨p, [], []⟩ as = some t) :
    ∃ pd', t.path.destinations[b]? = some pd' ∧
      Channel.Reach pd.queueSize t.offered ⟨pd.waiting p.heap, []⟩ ⟨pd'.waiting t.path.heap, t.accepted⟩ ∧
      (t.accepted ++ pd'.waiting t.path.heap).Sublist (pd.waiting p.heap ++ t.offered) := by
  obtain ⟨pd', hget', -, hreach⟩ := (run_channelled hc hspared hsep hget htwo hrun).channel
  exact ⟨pd', hget', hreach, hreach.sublist⟩

theorem channelled_length {size : Nat} {offered acc done : List Snapshot} {pd pd' : PathDestination σ}
    (h : Channel.Reach size offered ⟨pd.waiting p.heap, done⟩ ⟨pd'.waiting p'.heap, acc⟩) :
    acc.length + pd'.queue.length ≤ done.length + pd.queue.length + offered.length := by
  have hlen := h.sublist.length_le
  unfold Channel.State.kept PathDestination.waiting at hlen
  simpa only [List.length_append, List.length_map] using hlen

/-- Destination `b`, which was `pd₀`, has or has accepted as many samples as it was offered. -/
def Traffic.Whole (b : Nat) (pd₀ : PathDestination σ) (t : Traffic σ) : Prop :=
  ∀ pd, t.path.destinations[b]? = some pd →
    t.accepted.length + pd.queue.length = pd₀.queue.length + t.offered.length

theorem whole_iff {t : Traffic σ} {pd₀ pd : PathDestination σ} (hget : t.path.destinations[b]? = some pd) :
    t.Whole b pd₀ ↔ t.accepted.length + pd.queue.length = pd₀.queue.length + t.offered.length := by
  unfold Traffic.Whole
  rw [hget]
  simp

theorem trafficStep_whole_iff {p₀ : Path σ} {pd₀ : PathDestination σ} {t t' : Traffic σ} {a : PathAction}
    (htwo : 2 ≤ pd₀.queueSize) (ht : t.Channelled z b p₀ pd₀) (hstep : trafficStep b t a = some t') :
    t'.Whole b pd₀ ↔ t.Whole b pd₀ ∧ t.path.Keeps b a := by
  obtain ⟨p', hact, rfl⟩ := Option.map_eq_some_iff.mp hstep
  obtain ⟨R, hc⟩ := ht.conserved
  obtain ⟨pd, hget, hsize, hreach⟩ := ht.channel
  obtain ⟨-, -, -, pd', hget', hserves⟩ := act_serves hc ht.spared ht.separate hget (hsize ▸ htwo) hact
  have hbefore := channelled_length hreach
  have hone := channelled_length (hserves.channel [])
  rw [List.nil_append] at hone
  rw [List.length_nil] at hbefore hone
  rw [← hserves.keeps, whole_iff hget, whole_iff hget']
  dsimp only
  rw [List.length_append, List.length_append]
  omega

/-- Nothing is lost if and only if in each step there are enough blocks and room for what is
enqueued, and the destination runs and its driver does not fail. -/
theorem nothing_lost_iff {pd : PathDestination σ} {as : List PathAction} {t : Traffic σ}
    (hc : Conserved z R p) (hspared : p.Spared) (hsep : p.Separate b) (hget : p.destinations[b]? = some pd)
    (htwo : 2 ≤ pd.queueSize)
    (hrun : Runs.run (trafficStep b) ⟨p, [], []⟩ as = some t) :
    (∀ pd', t.path.destinations[b]? = some pd' →
        t.accepted ++ pd'.waiting t.path.heap = pd.waiting p.heap ++ t.offered) ↔
      Runs.Along (trafficStep b) (fun t a => t.path.Keeps b a) ⟨p, [], []⟩ as := by
  have hinit : (⟨p, [], []⟩ : Traffic σ).Channelled z b p pd :=
    ⟨⟨R, hc⟩, hspared, hsep, pd, hget, rfl, .refl _ _⟩
  have hwhole : t.Whole b pd ↔ (⟨p, [], []⟩ : Traffic σ).Whole b pd ∧
      Runs.Along (trafficStep b) (fun t a => t.path.Keeps b a) ⟨p, [], []⟩ as :=
    Runs.along_iff_last (fun _ _ _ ht hstep => trafficStep_channelled htwo ht hstep)
      (fun _ _ _ ht hstep => trafficStep_whole_iff htwo ht hstep) hinit hrun
  have hempty : (⟨p, [], []⟩ : Traffic σ).Whole b pd := (whole_iff hget).mpr (Nat.add_comm 0 _)
  rw [and_iff_right hempty] at hwhole
  rw [← hwhole]
  obtain ⟨pd₁, hget₁, -, hreach⟩ := (run_channelled hc hspared hsep hget htwo hrun).channel
  apply forall₂_congr
  intro pd' hget'
  cases hget₁.symm.trans hget'
  have hsub : (t.accepted ++ pd₁.waiting t.path.heap).Sublist (pd.waiting p.heap ++ t.offered) :=
    hreach.sublist
  have hlen : (t.accepted ++ pd₁.waiting t.path.heap).length = (pd.waiting p.heap ++ t.offered).length ↔
      t.accepted.length + pd₁.queue.length = pd.queue.length + t.offered.length := by
    unfold PathDestination.waiting
    simp only [List.length_append, List.length_map]
  rw [← hlen]
  exact ⟨congrArg List.length, hsub.eq_of_length⟩

/-! ## One sample on its way -/

def exampleTraffic : List PathAction :=
  [.read 0 (readingOf (exampleSample 7)), .timeout, .write 0 [.sent 1, .sent 1]]

theorem examplePath_spared : (examplePath .ok).Spared := by
  intro pd hpd
  cases List.mem_singleton.mp hpd
  exact List.not_mem_nil

theorem examplePath_separate : (examplePath .ok).Separate 0 := by
  constructor
  · intro pd hget
    cases hget
    rfl
  · intro i pd hne hget
    cases i with
    | zero => exact absurd rfl hne
    | succ i => simp [examplePath] at hget

theorem destination_is_channel_example :
    ∃ t pd', Runs.run (trafficStep 0) ⟨examplePath .ok, [], []⟩ exampleTraffic = some t ∧
      t.path.destinations[0]? = some pd' ∧ t.offered.length = 2 ∧ t.accepted.length = 2 ∧
      (t.accepted ++ pd'.waiting t.path.heap).Sublist t.offered := by
  obtain ⟨t, hrun, hoffered, haccepted⟩ : ∃ t, Runs.run (trafficStep 0) ⟨examplePath .ok, [], []⟩
      exampleTraffic = some t ∧ t.offered.length = 2 ∧ t.accepted.length = 2 := ⟨_, rfl, rfl, rfl⟩
  obtain ⟨pd', hget', -, hsub⟩ := destination_is_channel (examplePath_conserved .ok) examplePath_spared
    examplePath_separate rfl (le_refl 2) hrun
  exact ⟨t, pd', hrun, hget', hoffered, haccepted, hsub⟩

theorem nothing_lost_iff_example :
    Runs.Along (trafficStep 0) (fun t a => t.path.Keeps 0 a) ⟨examplePath .ok, [], []⟩ exampleTraffic ∧
      ¬ Runs.Along (trafficStep 0) (fun t a => t.path.Keeps 0 a) ⟨examplePath .ok, [], []⟩
        [.timeout, .write 0 [.fail 0]] := by
  constructor
  · obtain ⟨t, hrun, hoffered, haccepted⟩ : ∃ t, Runs.run (trafficStep 0) ⟨examplePath .ok, [], []⟩
        exampleTraffic = some t ∧ t.offered.length = 2 ∧ t.accepted.length = 2 := ⟨_, rfl, rfl, rfl⟩
    obtain ⟨pd₁, hget₁, -, hreach⟩ :=
      (run_channelled (examplePath_conserved .ok) examplePath_spared examplePath_separate rfl (le_refl 2)
        hrun).channel
    have hlen := channelled_length hreach
    refine (nothing_lost_iff (examplePath_conserved .ok) examplePath_spared examplePath_separate rfl
      (le_refl 2) hrun).mp fun pd' hget' => ?_
    cases hget₁.symm.trans hget'
    refine hreach.sublist.eq_of_length ?_
    unfold Channel.State.kept PathDestination.waiting
    simp only [List.length_append, List.length_map, hoffered, haccepted, List.length_nil] at hlen ⊢
    omega
  · obtain ⟨t, hrun, hget, hnone⟩ : ∃ t, Runs.run (trafficStep 0) ⟨examplePath .ok, [], []⟩
        [.timeout, .write 0 [.fail 0]] = some t ∧ (t.path.destinations[0]?).isSome ∧
          t.accepted.length + ((t.path.destinations[0]?).map fun pd => pd.queue.length).getD 0 <
            t.offered.length := ⟨_, rfl, rfl, by decide⟩
    obtain ⟨pd', hget'⟩ := Option.isSome_iff_exists.mp hget
    intro hkeeps
    have hall := (nothing_lost_iff (examplePath_conserved .ok) examplePath_spared examplePath_separate
      rfl (le_refl 2) hrun).mpr hkeeps pd' hget'
    have hlen := congrArg List.length hall
    rw [hget'] at hnone
    unfold PathDestination.waiting at hlen
    simp only [List.length_append, List.length_map, Option.map_some, Option.getD_some] at hlen hnone
    exact absurd hlen (by omega)

end VillasNode