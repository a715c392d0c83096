import VillasNode.Path.CarryForward

/-!
# The thread of a path

`path_start`, and what `path_run_single` and `path_run_poll` of `lib/path.cpp`
do in their rounds: they read from sources, enqueue the last sample again when
the timeout of the rate expires, and write to destinations. Here these come in
any order.
-/

namespace VillasNode

variable {σ : Type*} {z : SampleId → Sample} {h h' : Heap} {R : Multiset SampleId}
  {smps : List SampleId} {p p' : Path σ} {i : Nat}

/-- The loop of `path_start` over the values of the initial sample. `none` if there is no signal for
a value. -/
def setInits (inits : List Value) (s : Payload) : Option Payload :=
  (List.range s.length).foldlM (fun s i => inits[i]?.map fun init => s.setData i init) s

inductive PathAction where
  | read (i : Nat) (ev : Reading)
  | timeout
  | write (i : Nat) (rs : List DriverWrite)

namespace Path

/-- `inits` are the initial values of the signals of the path, which are listed at `signals`. The
trace starts again, and `hook_list_start` leaves the hooks in the state `state`. -/
def pathStart (p : Path σ) (state : σ) (signals : Nat) (inits : List Value) : Option (Path σ) :=
  match p.heap.sampleAlloc p.pool with
  | none => none
  | some (heap, s) =>
    let smp := { heap.payload s with length := 0, signals, sequence := 0 }
    let smp := { smp with flags := if 0 < smp.length then SampleFlags.hasData else 0 }
    (setInits inits smp).map fun smp =>
      { p with heap := heap.setPayload s smp, hooks := { p.hooks with state }, lastSequence := 0
               received := ∅, lastSample := s, state := .started, trace := [] }

/-- Re-enqueue the last sample. -/
def timeout (p : Path σ) : Path σ :=
  let smp := { p.heap.payload p.lastSample with sequence := p.lastSequence.signExtend 64 }
  let (heap, destinations) :=
    pathDestinationEnqueue (p.heap.setPayload p.lastSample smp) p.destinations [p.lastSample]
  { p with heap, destinations, lastSequence := p.lastSequence + 1, trace := p.trace ++ [.enqueued 1] }

/-- `path_destination_write` for the destination with index `i`. -/
def writeTo (p : Path σ) (i : Nat) (rs : List DriverWrite) : Option (Path σ) :=
  match p.destinations[i]? with
  | none => none
  | some pd =>
    (pathDestinationWrite pd p.heap rs).map fun (pd, heap, _) =>
      { p with heap, destinations := p.destinations.set i pd }

def act (p : Path σ) : PathAction → Option (Path σ)
  | .read i ev => readStep p (i, ev)
  | .timeout => some p.timeout
  | .write i rs => p.writeTo i rs

/-- `path_source_read` up to the mux loop: the path, the source and the samples that it delivers. -/
def arrive (p : Path σ) (i : Nat) (ev : Reading) : Option (Path σ × PathSource σ × List SampleId) :=
  match p.sources[i]? with
  | none => none
  | some ps =>
    let (h, smps) := p.heap.sampleAllocMany ps.pool ps.node.vectorize
    match nodeRead ps.node h smps ev.results with
    | none => none
    | some (node, heap, smps, recv) =>
      let ps := { ps with node }
      let p := { p with heap, sources := p.sources.set i ps }
      if 0 < recv then
        (forward heap (smps.take recv.toNat) ev.drains 0 ps.secondaries).map fun (secondaries, heap) =>
          ({ p with heap, sources := p.sources.set i { ps with secondaries } }, ps,
            smps.take recv.toNat)
      else none

end Path

/-! ## Until the mux loop -/

theorem pathSourceRead_arrive {ev : Reading} {ret : Int}
    (hread : p.pathSourceRead i ev = some (p', ret)) :
    (p.arrive i ev = none ∧ p'.trace = p.trace ∧ p'.destinations = p.destinations) ∨
      ∃ p₁ ps read, p.arrive i ev = some (p₁, ps, read) ∧
        p₁.muxAndFinish i ps read ev = some (p', ret) := by
  obtain ⟨ps, node, heap, smps, recv, hget, hnode, hcases⟩ := Path.pathSourceRead_cases hread
  unfold Path.arrive
  rw [hget]
  dsimp only
  rw [hnode]
  dsimp only
  rcases hcases with ⟨hpos, hd⟩ | ⟨hpos, state, rfl, -⟩
  · obtain ⟨secondaries, heap', hforward, -, hmux⟩ := Path.deliver_cases hd
    rw [if_pos hpos, hforward]
    exact .inr ⟨_, _, _, rfl, hmux⟩
  · rw [if_neg (not_lt.mpr hpos)]
    exact .inl ⟨rfl, rfl, rfl⟩

/-- What is known when the mux loop begins. -/
structure Arrived (z : SampleId → Sample) (p : Path σ) (i : Nat) (p₁ : Path σ) (ps : PathSource σ)
    (read : List SampleId) : Prop where
  nonempty : read ≠ []
  config : SameConfig p p₁
  trace : p₁.trace = p.trace
  destinations : p₁.destinations = p.destinations
  last : p₁.heap.payload p.lastSample = p.heap.payload p.lastSample
  mappings : p.entries i = ps.mappings
  entries : p₁.entries = p.entries
  balanced : ∃ R, Balanced z p₁.heap ((read : Multiset SampleId) + (p₁.ownRefs + R))

theorem arrive_spec {ev : Reading} {p₁ : Path σ} {ps : PathSource σ} {read : List SampleId}
    (hc : Conserved z R p) (harrive : p.arrive i ev = some (p₁, ps, read)) :
    Arrived z p i p₁ ps read := by
  unfold Path.arrive at harrive
  split at harrive
  · simp at harrive
  rename_i ps₀ hget
  dsimp only at harrive
  split at harrive
  · simp at harrive
  rename_i node heap smps' recv hnode
  split at harrive
  · rename_i hpos
    obtain ⟨⟨secondaries, heap'⟩, hforward, heq⟩ := Option.map_eq_some_iff.mp harrive
    cases heq
    obtain ⟨rest, hrest, -⟩ := sourceRefs_set hget
    have hb₀ : Balanced z p.heap (ps₀.refs + (p.ownRefs + (rest + R))) := by
      convert hc.balanced using 1
      unfold Path.refs
      rw [hrest]
      abel
    have hf := fetch_spec hb₀ hnode
    have hle := hf.le
    have hlen := hf.length
    have hsplit : (smps' : Multiset SampleId) =
        (smps'.take recv.toNat : Multiset SampleId) + (smps'.drop recv.toNat : Multiset SampleId) := by
      rw [Multiset.coe_add, List.take_append_drop]
    have hb₁ : Balanced z heap (queueRefs ps₀.secondaries + ((smps'.take recv.toNat : Multiset SampleId) +
        (p.ownRefs + (retainedRefs node.hooks.retained + (rest +
          ((smps'.drop recv.toNat : Multiset SampleId) + R)))))) := by
      convert hf.balanced using 1
      rw [hsplit]
      abel
    obtain ⟨lost, hb₂, ht, -⟩ := forward_spec
      (fun s hs => Multiset.mem_add.mpr (.inl (Multiset.mem_coe.mpr hs))) hb₁ hforward
    have hset : (p.sources.set i { ps₀ with node }).set i { ps₀ with node, secondaries } =
        p.sources.set i { ps₀ with node, secondaries } := List.set_set ..
    refine ⟨?_, ⟨rfl, rfl, rfl, rfl, rfl, ht.pools.trans hf.pools⟩, rfl, rfl, ?_, ?_,
      readStep_entries hget hset rfl,
      queueRefs secondaries + (lost + (retainedRefs node.hooks.retained + (rest +
          ((smps'.drop recv.toNat : Multiset SampleId) + R)))), ?_⟩
    · rw [Ne, List.take_eq_nil_iff, ← List.length_eq_zero_iff]
      omega
    · exact (ht.payload _ (by simp)).trans (hf.payload _ (by simp [mem_ownRefs p]))
    · rw [entries_of_get hget]
    · convert hb₂ using 1
      show _ + (p.ownRefs + _) = _
      abel
  · simp at harrive

/-! ## Queues of the destinations -/

/-- No destination has the last sample itself in its queue, it has clones. -/
def Path.Spared (p : Path σ) : Prop := ∀ pd ∈ p.destinations, p.lastSample ∉ pd.held

theorem enqueueAll_spares {clones : List SampleId} {s : SampleId} (hs : s ∉ clones) (h : Heap)
    {pds : List (PathDestination σ)} (hpds : ∀ pd ∈ pds, s ∉ pd.held) :
    ∀ pd ∈ (enqueueAll clones h pds).2, s ∉ pd.held := by
  induction pds generalizing h with
  | nil => exact hpds
  | cons pd pds ih =>
    rw [List.forall_mem_cons] at hpds
    unfold enqueueAll
    dsimp only
    rw [List.forall_mem_cons]
    refine ⟨fun hmem => ?_, ih _ hpds.2⟩
    rcases mem_held_push hmem with hmem | hmem
    · exact hpds.1 hmem
    · exact hs hmem

theorem pathDestinationEnqueue_spares {pool : PoolId} {s : SampleId} {pds : List (PathDestination σ)}
    (hb : Balanced z h R) (hsmps : ∀ s ∈ smps, s ∈ R)
    (hblock : ∀ s ∈ smps, s ∈ (h.pools pool).blocks) (hs : s ∈ R) (hpds : ∀ pd ∈ pds, s ∉ pd.held) :
    ∀ pd ∈ (pathDestinationEnqueue h pds smps).2, s ∉ pd.held := by
  obtain ⟨-, -, hfresh, -⟩ := sampleCloneMany_spec hb hsmps hblock
  exact enqueueAll_spares (fun hmem => hfresh s hmem hs) _ hpds

theorem finish_spares {ret : Int} {read muxed : List SampleId} (hspared : p.Spared)
    (hblock : ∀ m ∈ muxed, m ∈ (p.heap.pools p.pool).blocks)
    (hb : Balanced z p.heap ((muxed : Multiset SampleId) + (p.ownRefs + R)))
    (hf : p.finish i read muxed = some (p', ret)) : p'.Spared := by
  have hmem : p.lastSample ∈ (muxed : Multiset SampleId) + (p.ownRefs + R) := by
    simp [mem_ownRefs p]
  obtain ⟨hb₁, ht₁⟩ := keepLast_spec muxed hmem hb
  have hb₁' : Balanced z (p.keepLast muxed) (retainedRefs p.hooks.retained + ((muxed : Multiset SampleId) +
      ({p.lastSample} + (destinationRefs p.destinations + R)))) := by
    convert hb₁ using 1
    unfold Path.ownRefs
    abel
  have hp := hookListProcess_spec p.hooks muxed hb₁'
  rcases hr : p.hooks.hookListProcess (p.keepLast muxed) muxed with ⟨hooks, h₂, muxed₂, toenqueue⟩
  obtain ⟨p₃, he, rfl⟩ := Path.finish_cases hr hf
  rw [hr] at hp
  obtain ⟨hb₂, hperm, ht₂, -⟩ := hp
  dsimp only at hb₂ hperm ht₂
  obtain ⟨-, cnt, -, -, rfl⟩ | ⟨-, -, rfl⟩ := Path.enqueue_cases he
  · have hmuxed : ∀ s ∈ muxed₂.take cnt, s ∈ muxed :=
      fun s hs => hperm.mem_iff.mp (List.mem_of_mem_take hs)
    have hblock₂ : ∀ s ∈ muxed₂.take cnt, s ∈ (h₂.pools p.pool).blocks := by
      intro s hs
      rw [ht₂.pools, ht₁.pools]
      exact hblock s (hmuxed s hs)
    exact pathDestinationEnqueue_spares hb₂ (fun s hs => by simp [hmuxed s hs]) hblock₂ (by simp) hspared
  · exact hspared

theorem pathSourceRead_spares {ev : Reading} {ret : Int} (hc : Conserved z R p) (hspared : p.Spared)
    (hread : p.pathSourceRead i ev = some (p', ret)) : p'.Spared := by
  obtain ⟨hsame, -⟩ := pathSourceRead_spec hc hread
  rcases pathSourceRead_arrive hread with ⟨-, -, hdestinations⟩ | ⟨p₁, ps, read, harrive, hmux⟩
  · unfold Path.Spared
    rw [hdestinations, hsame.lastSample]
    exact hspared
  · have ha := arrive_spec hc harrive
    obtain ⟨R₁, hb⟩ := ha.balanced
    have hspared₁ : p₁.Spared := by
      unfold Path.Spared
      rw [ha.destinations, ha.config.lastSample]
      exact hspared
    have hlast₁ : p₁.lastSample ∈ (p₁.heap.pools p₁.pool).blocks := by
      rw [ha.config.lastSample, ha.config.pools, ha.config.pool]
      exact hc.last
    obtain ⟨hsame₁, hown, -, hm⟩ := mux_spec p₁ i ps read ev hlast₁ (by simp [mem_ownRefs p₁])
      (fun s hs => by simp [hs]) hb
    have hspared₂ : (p₁.mux i ps read ev).1.Spared := hspared₁
    unfold Path.muxAndFinish at hmux
    generalize p₁.mux i ps read ev = r at *
    obtain ⟨p₂, muxed, ok⟩ := r
    dsimp only at *
    split at hmux
    · have hblock : ∀ m ∈ muxed, m ∈ (p₂.heap.pools p₂.pool).blocks := by
        intro m hmem
        rw [hsame₁.pools, hsame₁.pool]
        exact hm.block m hmem
      have hb₂ : Balanced z p₂.heap ((muxed : Multiset SampleId) +
          (p₂.ownRefs + ((read : Multiset SampleId) + R₁))) := by
        convert hm.balanced using 1
        rw [hown]
        abel
      exact finish_spares hspared₂ hblock hb₂ hmux
    · cases hmux
      exact hspared₂

/-! ## Writing -/

theorem nodeWrite_spec {n : NodeDirection σ} {rs : List DriverWrite} {w : Written σ}
    (hb : Balanced z h (retainedRefs n.hooks.retained + ((smps : Multiset SampleId) + R)))
    (hw : nodeWrite n h smps rs = some w) :
    Balanced z w.heap (retainedRefs w.node.hooks.retained + ((smps : Multiset SampleId) + R)) ∧
      w.smps.Perm smps ∧ Touches smps h w.heap := by
  obtain ⟨-, hnode, hheap, hsmps⟩ | ⟨-, hooks, cnt, hprocess, hnode⟩ := nodeWrite_cases hw
  · rw [hnode, hheap, hsmps]
    exact ⟨hb, .refl _, .refl _ _⟩
  · have hp := hookListProcess_spec n.hooks smps hb
    rw [hprocess] at hp
    rw [hnode]
    exact ⟨hp.balanced, hp.perm, hp.touches⟩

theorem destinationLoop_spec {pd pd' : PathDestination σ} {rs : List DriverWrite}
    {given : List (List Payload)} (n : Nat) (hb : Balanced z h (pd.refs + R))
    (hw : destinationLoop pd h rs n = some (pd', h', given)) :
    ∃ lost : Multiset SampleId, Balanced z h' (pd'.refs + (lost + R)) ∧ Touches pd.held h h' ∧
      ∀ s ∈ pd'.held, s ∈ pd.held := by
  induction n generalizing pd h R rs given with
  | zero =>
    cases hw
    exact ⟨0, by rwa [zero_add], .refl _ _, fun s hs => hs⟩
  | succ n ih =>
    obtain ⟨-, rfl, rfl, -⟩ | ⟨-, hflows, w, hnode, hround⟩ := destinationLoop_cases hw
    · exact ⟨0, by rwa [zero_add], .refl _ _, fun s hs => hs⟩
    have hsplit : (pd.queue : Multiset SampleId) = (pd.queue.take pd.node.vectorize : Multiset SampleId) +
        (pd.queue.drop pd.node.vectorize : Multiset SampleId) := by
      rw [Multiset.coe_add, List.take_append_drop]
    have hb₁ : Balanced z h (retainedRefs pd.node.hooks.retained +
        ((pd.queue.take pd.node.vectorize : Multiset SampleId) +
          ((pd.queue.drop pd.node.vectorize : Multiset SampleId) + R))) := by
      convert hb using 1
      unfold PathDestination.refs
      rw [held_of_flowing hflows, hsplit]
      abel
    obtain ⟨hb₂, hperm, ht⟩ := nodeWrite_spec hb₁ hnode
    have htouch : Touches pd.queue h w.heap := ht.mono fun s hs => List.mem_of_mem_take hs
    have hheld : ∀ node, { pd with queue := pd.queue.drop pd.node.vectorize, node : PathDestination σ }.held =
        pd.queue.drop pd.node.vectorize := fun node => held_of_flowing (stuck_drop hflows)
    rw [held_of_flowing hflows]
    obtain ⟨-, rfl, -, rfl⟩ | ⟨-, rest, -, hrest⟩ := hround
    · -- The samples that were taken out of the queue are lost.
      refine ⟨(pd.queue.take pd.node.vectorize : Multiset SampleId), ?_, htouch, fun s hs => ?_⟩
      · convert hb₂ using 1
        unfold PathDestination.refs
        rw [hheld]
        abel
      · rw [hheld] at hs
        exact List.mem_of_mem_drop hs
    · have hcoe : (w.smps : Multiset SampleId) = (pd.queue.take pd.node.vectorize : List SampleId) :=
        Multiset.coe_eq_coe.mpr hperm
      have hb₃ : Balanced z w.heap ((w.smps : Multiset SampleId) +
          ({ pd with queue := pd.queue.drop pd.node.vectorize, node := w.node : PathDestination σ }.refs +
            R)) := by
        convert hb₂ using 1
        unfold PathDestination.refs
        rw [hcoe, hheld]
        abel
      obtain ⟨lost, hb₄, ht₄, hqueue⟩ := ih hb₃.decrefMany hrest
      rw [hheld] at ht₄ hqueue
      refine ⟨lost, hb₄, ?_, fun s hs => List.mem_of_mem_drop (hqueue s hs)⟩
      exact (htouch.trans (.decrefMany _ _ _)).trans (ht₄.mono fun s hs => List.mem_of_mem_drop hs)

theorem destinationRefs_set {pds : List (PathDestination σ)} {pd : PathDestination σ}
    (hget : pds[i]? = some pd) :
    ∃ rest, destinationRefs pds = pd.refs + rest ∧
      ∀ pd', destinationRefs (pds.set i pd') = pd'.refs + rest :=
  total_set (fun _ _ => rfl) hget

/-! ## Actions -/

/-- What an action other than a read leaves: the values of the last sample, the deliveries and the
sources. -/
structure Undisturbed (z : SampleId → Sample) (p p' : Path σ) : Prop where
  conserved : ∃ R, Conserved z R p'
  spared : p'.Spared
  config : SameConfig p p'
  sources : p'.sources = p.sources
  deliveries : p'.deliveries = p.deliveries
  last : (p'.heap.payload p.lastSample).Agrees (p.heap.payload p.lastSample)

theorem writeTo_undisturbed {rs : List DriverWrite} (hc : Conserved z R p) (hspared : p.Spared)
    (hw : p.writeTo i rs = some p') : Undisturbed z p p' := by
  unfold Path.writeTo at hw
  split at hw
  · simp at hw
  rename_i pd hget
  obtain ⟨⟨pd', heap, given⟩, hloop, rfl⟩ := Option.map_eq_some_iff.mp hw
  obtain ⟨rest, hrest, hset⟩ := destinationRefs_set hget
  have hmem : pd ∈ p.destinations := List.mem_of_getElem? hget
  have hb : Balanced z p.heap (pd.refs + (sourceRefs p.sources + ({p.lastSample} +
      (retainedRefs p.hooks.retained + (rest + R))))) := by
    convert hc.balanced using 1
    unfold Path.refs Path.ownRefs
    rw [hrest]
    abel
  obtain ⟨lost, hb', ht, hqueue⟩ := destinationLoop_spec _ hb hloop
  refine ⟨⟨lost + R, ?_, ?_⟩, ?_, ⟨rfl, rfl, rfl, rfl, rfl, ht.pools⟩, rfl, rfl, ?_⟩
  · convert hb' using 1
    unfold Path.refs Path.ownRefs
    dsimp only
    rw [hset]
    abel
  · show p.lastSample ∈ (heap.pools p.pool).blocks
    rw [ht.pools]
    exact hc.last
  · intro x hx
    rcases List.mem_or_eq_of_mem_set hx with hx | rfl
    · exact hspared x hx
    · exact fun hin => hspared pd hmem (hqueue _ hin)
  · dsimp only
    rw [ht.payload _ (hspared pd hmem)]
    exact ⟨rfl, fun _ _ => rfl⟩

theorem timeout_undisturbed (hc : Conserved z R p) (hspared : p.Spared) :
    Undisturbed z p p.timeout := by
  have hrefs : p.refs + R = destinationRefs p.destinations + (sourceRefs p.sources + ({p.lastSample} +
      (retainedRefs p.hooks.retained + R))) := by
    unfold Path.refs Path.ownRefs
    abel
  have hlast : p.lastSample ∈ p.refs + R := by simp [hrefs]
  have hb₁ := hc.balanced.setPayload hlast
    { p.heap.payload p.lastSample with sequence := p.lastSequence.signExtend 64 }
  have hvalues : ((p.heap.setPayload p.lastSample { p.heap.payload p.lastSample with
      sequence := p.lastSequence.signExtend 64 }).payload p.lastSample).Agrees
        (p.heap.payload p.lastSample) := by
    rw [Heap.setPayload_payload, if_pos rfl]
    exact ⟨rfl, fun _ _ => rfl⟩
  have hpools₁ := Heap.setPayload_pools p.heap p.lastSample
    { p.heap.payload p.lastSample with sequence := p.lastSequence.signExtend 64 }
  unfold Path.timeout
  dsimp only at hb₁ hvalues hpools₁ ⊢
  generalize p.heap.setPayload p.lastSample _ = h₁ at *
  have hone : ∀ s ∈ [p.lastSample], s ∈ p.refs + R := fun s hs => List.mem_singleton.mp hs ▸ hlast
  have hblock : ∀ s ∈ [p.lastSample], s ∈ (h₁.pools p.pool).blocks := by
    intro s hs
    rw [List.mem_singleton.mp hs, hpools₁]
    exact hc.last
  have hspared' := pathDestinationEnqueue_spares hb₁ hone hblock hlast hspared
  rw [hrefs] at hb₁
  obtain ⟨lost, hb₂, hpools₂, hpayload, -⟩ := pathDestinationEnqueue_spec p.destinations
    (fun s hs => by simp [List.mem_singleton.mp hs]) hblock hb₁
  generalize pathDestinationEnqueue h₁ p.destinations [p.lastSample] = r at *
  obtain ⟨h₂, pds⟩ := r
  dsimp only at *
  refine ⟨⟨lost + R, ?_, ?_⟩, hspared', ⟨rfl, rfl, rfl, rfl, rfl, hpools₂.trans hpools₁⟩, rfl, ?_, ?_⟩
  · convert hb₂ using 1
    unfold Path.refs Path.ownRefs
    dsimp only
    abel
  · dsimp only
    rw [hpools₂, hpools₁]
    exact hc.last
  · unfold Path.deliveries
    dsimp only
    rw [List.flatMap_append]
    exact List.append_nil _
  · dsimp only
    rw [hpayload _ (by simp)]
    exact hvalues

/-! ## The start -/

/-- The references to samples while the path is stopped. -/
def Path.stoppedRefs (p : Path σ) : Multiset SampleId :=
  sourceRefs p.sources + (retainedRefs p.hooks.retained + destinationRefs p.destinations)

theorem pathStart_fresh {state : σ} {signals : Nat} {inits : List Value}
    (hb : Balanced z p.heap (p.stoppedRefs + R)) (hstart : p.pathStart state signals inits = some p') :
    p'.Fresh z R ∧ p'.Spared ∧ p'.entries = p.entries := by
  unfold Path.pathStart at hstart
  rcases sampleAlloc_spec p.heap p.pool with ⟨-, hnone⟩ | ⟨h₁, s, hsome, ha⟩
  · rw [hnone] at hstart
    simp at hstart
  rw [hsome] at hstart
  obtain ⟨smp, hsmp, rfl⟩ := Option.map_eq_some_iff.mp hstart
  cases hsmp
  obtain ⟨hb₁, hfresh⟩ := hb.alloc ha
  have hrefs : s ::ₘ (p.stoppedRefs + R) = sourceRefs p.sources + ({s} +
      (retainedRefs p.hooks.retained + destinationRefs p.destinations)) + R := by
    unfold Path.stoppedRefs
    rw [← Multiset.singleton_add]
    abel
  have hmem : s ∈ s ::ₘ (p.stoppedRefs + R) := Multiset.mem_cons_self s _
  rw [hrefs] at hb₁ hmem
  refine ⟨⟨⟨hb₁.setPayload hmem _, ?_⟩, rfl, ?_⟩, ?_, rfl⟩
  · show s ∈ (h₁.pools p.pool).blocks
    rw [ha.pools]
    apply hb.area
    rw [ha.free]
    exact List.mem_cons_self
  · dsimp only
    rw [Heap.setPayload_payload, if_pos rfl]
  · intro pd hpd hmem
    apply hfresh
    unfold Path.stoppedRefs
    obtain ⟨j, hj⟩ := List.mem_iff_getElem?.mp hpd
    obtain ⟨rest, hrest, -⟩ := destinationRefs_set hj
    have hmem : s ∈ pd.held := hmem
    have hrest : destinationRefs p.destinations = pd.refs + rest := hrest
    rw [hrest]
    unfold PathDestination.refs
    simp [hmem]

end VillasNode
