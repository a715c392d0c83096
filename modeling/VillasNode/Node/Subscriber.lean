import Mathlib.Tactic.Abel
import VillasNode.Lib.Runs
import VillasNode.Sample.Ledger

/-!
# Subscribers

`mqtt_message_cb` and `mqtt_read` of `lib/nodes/mqtt.cpp`, and the same two
functions of `lib/nodes/kafka.cpp`. The callback runs in a thread of the client
library while a path reads. Each step is one access to the pool or to the queue,
in any order of the two threads.
-/

namespace VillasNode.Subscriber

/-! ## The code -/

/-- What `sscan` makes of a message. -/
structure Scan where
  /-- What it writes to the samples, from the first one on. These can be more than it counts. -/
  contents : List (Payload → Payload)
  ret : Int

/-- The thread of the client library, with the samples of the array `smps` that it has got. -/
inductive Callback where
  | idle
  /-- `sample_alloc_many` -/
  | allocating (scan : Scan) (smps : List SampleId)
  /-- `queue_signalled_push_many` -/
  | pushing (smps : List SampleId)
  /-- `sample_decref_many` -/
  | releasing (smps : List SampleId)
  /-- A place of the array is used that has not been written to. -/
  | undefined (smps : List SampleId)

/-- A sample of the path. -/
structure Destination where
  capacity : Nat
  payload : Payload

/-- The thread of the path, with the samples of the array `smpt` that it has got. -/
inductive Reader where
  | idle
  /-- `queue_signalled_pull_many`, as many as the path has samples for. -/
  | pulling (smps : List Destination) (smpt : List SampleId)
  /-- `sample_decref_many` -/
  | releasing (smpt : List SampleId)

/-- The node, and a record of what has happened to it. -/
structure Client where
  heap : Heap
  queue : List SampleId
  callback : Callback
  reader : Reader
  /-- Samples that no pointer leads to any more. -/
  lost : List SampleId
  /-- How many invalid messages there have been for which there were samples. -/
  invalid : Nat
  /-- The contents of the messages that have been handed over to the queue. -/
  accepted : List (List (Payload → Payload))
  /-- The samples that have been handed over to the queue. -/
  offered : List Payload
  /-- The samples that the reads have copied, -/
  pulled : List Payload
  /-- and the copies. -/
  delivered : List Payload

structure Settings where
  pool : PoolId
  /-- `n->in.vectorize` -/
  vectorize : Nat
  queueSize : Nat

/-- `queue_signalled_init(&m->queue, 1024)`, for a pool of as many samples. -/
def mqttPrepare (pool : PoolId) (vectorize : Nat) : Settings := { pool, vectorize, queueSize := 1024 }

/-- `queue_signalled_init(&k->queue, 1024)`, for a pool of as many samples. -/
def kafkaPrepare (pool : PoolId) (vectorize : Nat) : Settings := { pool, vectorize, queueSize := 1024 }

/-- The samples with what is scanned into them. -/
def fill (h : Heap) (smps : List SampleId) (contents : List (Payload → Payload)) : Heap :=
  (smps.zip contents).foldl (fun h x => h.setPayload x.1 (x.2 (h.payload x.1))) h

section
variable (c : Settings)

/-- `mqtt_message_cb` and `kafka_message_cb` behind `sample_alloc_many`. -/
def Client.messageCb (n : Client) (scan : Scan) (smps : List SampleId) : Client :=
  -- "Pool underrun"
  if smps = [] then { n with callback := .idle }
  else
    let heap := fill n.heap smps scan.contents
    -- Behind the samples that are allocated, the array is as it was.
    if smps.length < c.vectorize ∧ (smps.length < scan.contents.length ∨ 0 ≤ scan.ret) then
      { n with heap, callback := .undefined smps }
    else if scan.ret < 0 then
      { n with heap, callback := .idle, lost := n.lost ++ smps, invalid := n.invalid + 1 }
    else if scan.ret = 0 then { n with heap, callback := .releasing smps }
    else
      { n with heap, callback := .pushing smps, accepted := n.accepted ++ [scan.contents]
               offered := n.offered ++ smps.map heap.payload }

/-- One step of the thread of the client library. -/
def Client.callbackStep (n : Client) : Option Client :=
  match n.callback with
  | .idle => none
  | .undefined _ => none
  | .allocating scan smps =>
    if smps.length < c.vectorize then
      match n.heap.sampleAlloc c.pool with
      | some (heap, s) => some { n with heap, callback := .allocating scan (smps ++ [s]) }
      | none => some (n.messageCb c scan smps)
    else some (n.messageCb c scan smps)
  | .pushing [] => some { n with callback := .idle }
  | .pushing (s :: smps) =>
    if n.queue.length < c.queueSize then some { n with queue := n.queue ++ [s], callback := .pushing smps }
    else some { n with callback := .idle, lost := n.lost ++ s :: smps }
  | .releasing [] => some { n with callback := .idle }
  | .releasing (s :: smps) => some { n with heap := n.heap.sampleDecref s, callback := .releasing smps }

/-- `sample_copy_many` -/
def copied (smps : List Destination) (srcs : List Payload) : List Payload :=
  List.zipWith (fun smp src => Heap.copyPayload smp.capacity smp.payload src) smps srcs

/-- One step of `mqtt_read` and `kafka_read`. -/
def Client.readerStep (n : Client) : Option Client :=
  match n.reader with
  | .idle => none
  | .pulling smps smpt =>
    match if smpt.length < smps.length then n.queue else [] with
    | s :: queue => some { n with queue, reader := .pulling smps (smpt ++ [s]) }
    | [] =>
      let srcs := smpt.map n.heap.payload
      some { n with reader := .releasing smpt, pulled := n.pulled ++ srcs
                    delivered := n.delivered ++ copied smps srcs }
  | .releasing [] => some { n with reader := .idle }
  | .releasing (s :: smpt) => some { n with heap := n.heap.sampleDecref s, reader := .releasing smpt }

inductive Action where
  /-- A message arrives. -/
  | message (scan : Scan)
  | callback
  /-- The path calls the read function with these samples. -/
  | read (smps : List Destination)
  | reader

def step (n : Client) : Action → Option Client
  | .message scan =>
    match n.callback with
    | .idle => some { n with callback := .allocating scan [] }
    | _ => none
  | .callback => n.callbackStep c
  | .read smps =>
    match n.reader with
    | .idle => some { n with reader := .pulling smps [] }
    | _ => none
  | .reader => n.readerStep

end

/-! ## The specification -/

def Callback.smps : Callback → List SampleId
  | .idle => []
  | .allocating _ smps => smps
  | .pushing smps => smps
  | .releasing smps => smps
  | .undefined smps => smps

def Reader.smpt : Reader → List SampleId
  | .idle => []
  | .pulling _ smpt => smpt
  | .releasing smpt => smpt

def Callback.isUndefined : Callback → Bool
  | .undefined _ => true
  | _ => false

/-- The samples between the callback and the reads, in their order. -/
def Client.between (n : Client) : List SampleId :=
  (match n.reader with
    | .pulling _ smpt => smpt
    | _ => []) ++ n.queue ++
  match n.callback with
  | .pushing smps => smps
  | _ => []

/-- Every sample that is not free, once. -/
def Client.refs (n : Client) : Multiset SampleId :=
  (n.callback.smps : Multiset SampleId) + n.queue + n.reader.smpt + n.lost

/-- The samples of one message, in the places of `size` samples of length zero: those that are written
are as the message has them, and the others stay as they are. -/
structure Batch (size : Nat) (contents : List (Payload → Payload)) (batch : List Payload) : Prop where
  filled : ∃ before : List Payload, before.length = size ∧ (∀ p ∈ before, p.length = 0) ∧
    batch = List.zipWith (fun f p => f p) contents before ++ before.drop contents.length

/-- One sample, and a copy of it to a sample of some capacity. -/
def Copy (src smp : Payload) : Prop := ∃ capacity old, smp = Heap.copyPayload capacity old src

/-- A node that has been prepared, where all samples are free. -/
structure Fresh (c : Settings) (z : SampleId → Sample) (n : Client) : Prop where
  balanced : Balanced z n.heap 0
  nodup : (n.heap.pools c.pool).blocks.Nodup
  nonempty : (n.heap.pools c.pool).blocks ≠ []
  room : (n.heap.pools c.pool).blocks.length ≤ c.queueSize
  queue : n.queue = []
  callback : n.callback = .idle
  reader : n.reader = .idle
  lost : n.lost = []
  invalid : n.invalid = 0
  accepted : n.accepted = []
  offered : n.offered = []
  pulled : n.pulled = []
  delivered : n.delivered = []

/-! ## What a step does -/

inductive Moves (c : Settings) (n : Client) : Client → Prop
  | message (scan : Scan) (hcb : n.callback = .idle) : Moves c n { n with callback := .allocating scan [] }
  | allocate {scan : Scan} {smps : List SampleId} {heap : Heap} {s : SampleId}
      (hcb : n.callback = .allocating scan smps) (hlt : smps.length < c.vectorize)
      (ha : Allocated n.heap heap c.pool s) :
      Moves c n { n with heap, callback := .allocating scan (smps ++ [s]) }
  | underrun {scan : Scan} (hcb : n.callback = .allocating scan []) : Moves c n { n with callback := .idle }
  | undefined {scan : Scan} {smps : List SampleId} (hcb : n.callback = .allocating scan smps) (hne : smps ≠ [])
      (hlt : smps.length < c.vectorize) :
      Moves c n { n with heap := fill n.heap smps scan.contents, callback := .undefined smps }
  | invalid {scan : Scan} {smps : List SampleId} (hcb : n.callback = .allocating scan smps) (hne : smps ≠ []) :
      Moves c n
        { n with heap := fill n.heap smps scan.contents, callback := .idle, lost := n.lost ++ smps
                 invalid := n.invalid + 1 }
  | empty {scan : Scan} {smps : List SampleId} (hcb : n.callback = .allocating scan smps) :
      Moves c n { n with heap := fill n.heap smps scan.contents, callback := .releasing smps }
  | accept {scan : Scan} {smps : List SampleId} (hcb : n.callback = .allocating scan smps)
      (hfull : c.vectorize ≤ smps.length) :
      Moves c n
        { n with heap := fill n.heap smps scan.contents, callback := .pushing smps
                 accepted := n.accepted ++ [scan.contents]
                 offered := n.offered ++ smps.map (fill n.heap smps scan.contents).payload }
  | push {s : SampleId} {smps : List SampleId} (hcb : n.callback = .pushing (s :: smps)) :
      Moves c n { n with queue := n.queue ++ [s], callback := .pushing smps }
  | refuse {s : SampleId} {smps : List SampleId} (hcb : n.callback = .pushing (s :: smps))
      (hfull : c.queueSize ≤ n.queue.length) :
      Moves c n { n with callback := .idle, lost := n.lost ++ s :: smps }
  | pushed (hcb : n.callback = .pushing []) : Moves c n { n with callback := .idle }
  | release {s : SampleId} {smps : List SampleId} (hcb : n.callback = .releasing (s :: smps)) :
      Moves c n { n with heap := n.heap.sampleDecref s, callback := .releasing smps }
  | released (hcb : n.callback = .releasing []) : Moves c n { n with callback := .idle }
  | read (smps : List Destination) (hreader : n.reader = .idle) :
      Moves c n { n with reader := .pulling smps [] }
  | pull {smps : List Destination} {smpt : List SampleId} {s : SampleId} {queue : List SampleId}
      (hreader : n.reader = .pulling smps smpt) (hroom : smpt.length < smps.length)
      (hqueue : n.queue = s :: queue) :
      Moves c n { n with queue, reader := .pulling smps (smpt ++ [s]) }
  | copy {smps : List Destination} {smpt : List SampleId} (hreader : n.reader = .pulling smps smpt) :
      Moves c n
        { n with reader := .releasing smpt, pulled := n.pulled ++ smpt.map n.heap.payload
                 delivered := n.delivered ++ copied smps (smpt.map n.heap.payload) }
  | putBack {s : SampleId} {smpt : List SampleId} (hreader : n.reader = .releasing (s :: smpt)) :
      Moves c n { n with heap := n.heap.sampleDecref s, reader := .releasing smpt }
  | returned (hreader : n.reader = .releasing []) : Moves c n { n with reader := .idle }

section
variable {c : Settings} {n n' : Client} {scan : Scan} {smps : List SampleId}

theorem messageCb_moves (hcb : n.callback = .allocating scan smps) : Moves c n (n.messageCb c scan smps) := by
  unfold Client.messageCb
  split
  · rename_i hnil
    subst hnil
    exact .underrun hcb
  · rename_i hne
    dsimp only
    split_ifs with hshort hneg hzero
    · exact .undefined hcb hne hshort.1
    · exact .invalid hcb hne
    · exact .empty hcb
    · refine .accept hcb (Nat.le_of_not_lt fun hlt => hshort ⟨hlt, .inr ?_⟩)
      exact Int.not_lt.mp hneg

theorem callbackStep_moves (hstep : n.callbackStep c = some n') : Moves c n n' := by
  unfold Client.callbackStep at hstep
  split at hstep
  · cases hstep
  · cases hstep
  · rename_i scan smps hcb
    split at hstep
    · rename_i hlt
      obtain ⟨-, hnone⟩ | ⟨h', s, hsome, ha⟩ := sampleAlloc_spec n.heap c.pool
      · rw [hnone] at hstep
        cases hstep
        exact messageCb_moves hcb
      · rw [hsome] at hstep
        cases hstep
        exact .allocate hcb hlt ha
    · cases hstep
      exact messageCb_moves hcb
  · rename_i hcb
    cases hstep
    exact .pushed hcb
  · rename_i hcb
    split at hstep <;> cases hstep
    · exact .push hcb
    · rename_i hfull
      exact .refuse hcb (Nat.le_of_not_lt hfull)
  · rename_i hcb
    cases hstep
    exact .released hcb
  · rename_i hcb
    cases hstep
    exact .release hcb

theorem readerStep_moves (hstep : n.readerStep = some n') : Moves c n n' := by
  unfold Client.readerStep at hstep
  split at hstep
  · cases hstep
  · rename_i cnt smpt hreader
    split at hstep
    · rename_i s queue hqueue
      cases hstep
      split at hqueue
      · rename_i hroom
        exact .pull hreader hroom hqueue
      · cases hqueue
    · cases hstep
      exact .copy hreader
  · rename_i hreader
    cases hstep
    exact .returned hreader
  · rename_i hreader
    cases hstep
    exact .putBack hreader

theorem step_moves {a : Action} (hstep : step c n a = some n') : Moves c n n' := by
  cases a with
  | message scan =>
    simp only [step] at hstep
    split at hstep
    · rename_i hcb
      cases hstep
      exact .message scan hcb
    · cases hstep
  | callback => exact callbackStep_moves hstep
  | read smps =>
    simp only [step] at hstep
    split at hstep
    · rename_i hreader
      cases hstep
      exact .read smps hreader
    · cases hstep
  | reader => exact readerStep_moves hstep

end

/-! ## The ledger -/

/-- Every sample is free, or it is referred to once. -/
structure Ledger (c : Settings) (z : SampleId → Sample) (blocks : List SampleId) (n : Client) : Prop where
  balanced : Balanced z n.heap n.refs
  pool : (n.heap.pools c.pool).blocks = blocks
  nodup : n.refs.Nodup
  own : ∀ s ∈ n.refs, s ∈ blocks

section
variable {c : Settings} {z : SampleId → Sample} {blocks smps : List SampleId} {n n' : Client} {scan : Scan}
  {contents : List (Payload → Payload)} {h : Heap} {R : Multiset SampleId} {s : SampleId}

theorem Ledger.all (hn : Ledger c z blocks n) (hblocks : blocks.Nodup) :
    (n.heap.free c.pool : Multiset SampleId) + n.refs = blocks := by
  have hfree (s : SampleId) (hs : s ∈ blocks) : s ∈ n.heap.free c.pool ↔ s ∉ n.refs :=
    hn.balanced.free_iff c.pool s (hn.pool.symm ▸ hs)
  have harea (s : SampleId) (hs : s ∈ n.heap.free c.pool) : s ∈ blocks :=
    hn.pool ▸ hn.balanced.area c.pool s hs
  refine (Multiset.Nodup.ext ?_ (Multiset.coe_nodup.mpr hblocks)).mpr fun s => ?_
  · rw [Multiset.nodup_add, Multiset.disjoint_left]
    refine ⟨Multiset.coe_nodup.mpr (hn.balanced.nodup c.pool), hn.nodup, fun {s} hs => ?_⟩
    exact (hfree s (harea s hs)).mp hs
  · rw [Multiset.mem_add, Multiset.mem_coe, Multiset.mem_coe]
    constructor
    · rintro (hs | hs)
      · exact harea s hs
      · exact hn.own s hs
    · intro hs
      rw [hfree s hs]
      exact (em (s ∈ n.refs)).symm

theorem fill_spec (hb : Balanced z h R) (hsmps : ∀ s ∈ smps, s ∈ R) :
    Balanced z (fill h smps contents) R ∧ (fill h smps contents).pools = h.pools ∧
      (fill h smps contents).free = h.free := by
  unfold fill
  induction smps generalizing h contents with
  | nil => exact ⟨hb, rfl, rfl⟩
  | cons s smps ih =>
    cases contents with
    | nil => exact ⟨hb, rfl, rfl⟩
    | cons f contents =>
      rw [List.forall_mem_cons] at hsmps
      exact ih (hb.setPayload hsmps.1 _) hsmps.2

theorem Ledger.of_refs (hn : Ledger c z blocks n) (hheap : n'.heap = n.heap) (hrefs : n'.refs = n.refs) :
    Ledger c z blocks n' := by
  refine ⟨?_, ?_, ?_, ?_⟩
  · rw [hheap, hrefs]
    exact hn.balanced
  · rw [hheap]
    exact hn.pool
  · rw [hrefs]
    exact hn.nodup
  · rw [hrefs]
    exact hn.own

theorem Ledger.decref (hn : Ledger c z blocks n) (hrefs : n.refs = s ::ₘ n'.refs)
    (hheap : n'.heap = n.heap.sampleDecref s) : Ledger c z blocks n' := by
  have hnodup := hn.nodup
  rw [hrefs, Multiset.nodup_cons] at hnodup
  refine ⟨?_, ?_, hnodup.2, fun s' hs' => hn.own s' ?_⟩
  · rw [hheap]
    exact Balanced.decref (hrefs ▸ hn.balanced)
  · rw [hheap, Heap.decref_pools]
    exact hn.pool
  · rw [hrefs]
    exact Multiset.mem_cons_of_mem hs'

theorem Ledger.fill (hn : Ledger c z blocks n) (hsmps : ∀ s ∈ smps, s ∈ n.refs) (hrefs : n'.refs = n.refs)
    (hheap : n'.heap = Subscriber.fill n.heap smps contents) : Ledger c z blocks n' := by
  obtain ⟨hb, hpools, -⟩ := @fill_spec z smps contents n.heap n.refs hn.balanced hsmps
  refine ⟨?_, ?_, ?_, ?_⟩
  · rw [hheap, hrefs]
    exact hb
  · rw [hheap, hpools]
    exact hn.pool
  · rw [hrefs]
    exact hn.nodup
  · rw [hrefs]
    exact hn.own

theorem Ledger.alloc {h' : Heap} (hn : Ledger c z blocks n) (ha : Allocated n.heap h' c.pool s)
    (hrefs : n'.refs = s ::ₘ n.refs) (hheap : n'.heap = h') : Ledger c z blocks n' := by
  obtain ⟨hb, hnew⟩ := hn.balanced.alloc ha
  have hs : s ∈ blocks := by
    rw [← hn.pool]
    exact hn.balanced.area c.pool s (ha.free ▸ List.mem_cons_self)
  refine ⟨?_, ?_, ?_, ?_⟩
  · rw [hheap, hrefs]
    exact hb
  · rw [hheap, ha.pools]
    exact hn.pool
  · rw [hrefs, Multiset.nodup_cons]
    exact ⟨hnew, hn.nodup⟩
  · rw [hrefs]
    intro s' hs'
    rcases Multiset.mem_cons.mp hs' with rfl | hs'
    · exact hs
    · exact hn.own s' hs'

theorem Ledger.moves (hn : Ledger c z blocks n) (hmove : Moves c n n') : Ledger c z blocks n' := by
  have hsmps {scan : Scan} {smps : List SampleId} (hcb : n.callback = .allocating scan smps) :
      ∀ s ∈ smps, s ∈ n.refs := by
    intro s hs
    simp [Client.refs, hcb, Callback.smps, hs]
  cases hmove with
  | allocate hcb _ ha =>
    refine hn.alloc ha ?_ rfl
    simp only [Client.refs, hcb, Callback.smps, ← Multiset.coe_add, Multiset.coe_singleton,
      ← Multiset.singleton_add]
    abel
  | undefined hcb | empty hcb | accept hcb =>
    refine hn.fill (hsmps hcb) ?_ rfl
    simp only [Client.refs, hcb, Callback.smps]
  | invalid hcb =>
    refine hn.fill (hsmps hcb) ?_ rfl
    simp only [Client.refs, hcb, Callback.smps, ← Multiset.coe_add, Multiset.coe_nil]
    abel
  | release hcb =>
    refine hn.decref ?_ rfl
    simp only [Client.refs, hcb, Callback.smps, ← Multiset.cons_coe, ← Multiset.singleton_add]
    abel
  | putBack hreader =>
    refine hn.decref ?_ rfl
    simp only [Client.refs, hreader, Reader.smpt, ← Multiset.cons_coe, ← Multiset.singleton_add]
    abel
  | pull hreader _ hqueue =>
    refine hn.of_refs rfl ?_
    simp only [Client.refs, hreader, Reader.smpt, hqueue, ← Multiset.coe_add, ← Multiset.cons_coe,
      Multiset.coe_nil, ← Multiset.singleton_add]
    abel
  | read _ hreader | copy hreader | returned hreader =>
    refine hn.of_refs rfl ?_
    simp only [Client.refs, hreader, Reader.smpt]
  | message _ hcb | underrun hcb | pushed hcb | released hcb =>
    refine hn.of_refs rfl ?_
    simp only [Client.refs, hcb, Callback.smps]
  | push hcb | refuse hcb =>
    refine hn.of_refs rfl ?_
    simp only [Client.refs, hcb, Callback.smps, ← Multiset.coe_add, Multiset.coe_nil, ← Multiset.cons_coe,
      ← Multiset.singleton_add]
    abel

theorem Fresh.ledger (hn : Fresh c z n) : Ledger c z (n.heap.pools c.pool).blocks n := by
  have hrefs : n.refs = 0 := by
    simp [Client.refs, hn.callback, hn.reader, hn.queue, hn.lost, Callback.smps, Reader.smpt]
  refine ⟨hrefs ▸ hn.balanced, rfl, ?_, ?_⟩
  · rw [hrefs]
    exact Multiset.nodup_zero
  · simp [hrefs]

theorem Ledger.length (hn : Ledger c z blocks n) (hblocks : blocks.Nodup) :
    (n.heap.free c.pool).length + (n.callback.smps.length + n.queue.length + n.reader.smpt.length +
      n.lost.length) = blocks.length := by
  have hall := congrArg Multiset.card (hn.all hblocks)
  simpa only [Client.refs, Multiset.card_add, Multiset.coe_card] using hall

end

/-! ## The stream -/

/-- What is delivered and what is on its way is what has been handed over, message by message. -/
structure Stream (c : Settings) (n : Client) : Prop where
  stream : n.offered = n.pulled ++ n.between.map n.heap.payload
  copies : List.Forall₂ Copy n.pulled n.delivered
  pulling : ∀ smps smpt, n.reader = .pulling smps smpt → smpt.length ≤ smps.length
  batches : ∃ batches, List.Forall₂ (Batch c.vectorize) n.accepted batches ∧ n.offered = batches.flatten
  allocated : ∀ scan smps, n.callback = .allocating scan smps →
    smps.length ≤ c.vectorize ∧ ∀ s ∈ smps, (n.heap.payload s).length = 0
  invalid : n.invalid ≤ n.lost.length ∧ n.lost.length ≤ c.vectorize * n.invalid

section
variable {c : Settings} {z : SampleId → Sample} {blocks smps : List SampleId} {n n' : Client} {scan : Scan}
  {contents : List (Payload → Payload)} {h : Heap} {s : SampleId}

theorem fill_payload_of_not_mem (hs : s ∉ smps) : (fill h smps contents).payload s = h.payload s := by
  unfold fill
  induction smps generalizing h contents with
  | nil => rfl
  | cons s' smps ih =>
    rw [List.mem_cons, not_or] at hs
    cases contents with
    | nil => rfl
    | cons f contents =>
      rw [List.zip_cons_cons, List.foldl_cons, ih hs.2, Heap.setPayload_payload, if_neg hs.1]

theorem fill_payload (hsmps : smps.Nodup) : smps.map (fill h smps contents).payload =
    List.zipWith (fun f p => f p) contents (smps.map h.payload) ++
      (smps.map h.payload).drop contents.length := by
  induction smps generalizing h contents with
  | nil => simp
  | cons s smps ih =>
    rw [List.nodup_cons] at hsmps
    cases contents with
    | nil => rfl
    | cons f contents =>
      have hfill : fill h (s :: smps) (f :: contents) =
          fill (h.setPayload s (f (h.payload s))) smps contents := rfl
      have hsame : smps.map (h.setPayload s (f (h.payload s))).payload = smps.map h.payload := by
        apply List.map_congr_left
        intro s' hs'
        rw [Heap.setPayload_payload, if_neg]
        rintro rfl
        exact hsmps.1 hs'
      rw [List.map_cons, hfill, fill_payload_of_not_mem hsmps.1, ih hsmps.2, hsame, Heap.setPayload_payload,
        if_pos rfl]
      rfl

theorem between_subset (hs : s ∈ n.between) : s ∈ n.refs := by
  unfold Client.between at hs
  simp only [Client.refs, Multiset.mem_add, Multiset.mem_coe]
  rw [List.mem_append, List.mem_append] at hs
  obtain (hs | hs) | hs := hs
  · cases hreader : n.reader <;> simp_all [Reader.smpt]
  · simp [hs]
  · cases hcb : n.callback <;> simp_all [Callback.smps]

theorem Stream.of_between (hn : Stream c n) (hoffered : n'.offered = n.offered)
    (haccepted : n'.accepted = n.accepted)
    (hpulled : n'.pulled = n.pulled ∧ n'.delivered = n.delivered)
    (hreader : ∀ smps smpt, n'.reader = .pulling smps smpt → smpt.length ≤ smps.length)
    (hbetween : n'.between = n.between) (hpayload : ∀ s ∈ n.between, n'.heap.payload s = n.heap.payload s)
    (hallocated : ∀ scan smps, n'.callback = .allocating scan smps →
      smps.length ≤ c.vectorize ∧ ∀ s ∈ smps, (n'.heap.payload s).length = 0)
    (hinvalid : n'.invalid ≤ n'.lost.length ∧ n'.lost.length ≤ c.vectorize * n'.invalid) : Stream c n' := by
  refine ⟨?_, ?_, hreader, ?_, hallocated, hinvalid⟩
  · rw [hoffered, hn.stream, hpulled.1, hbetween, List.map_congr_left hpayload]
  · rw [hpulled.1, hpulled.2]
    exact hn.copies
  · rw [haccepted, hoffered]
    exact hn.batches

theorem payload_fill (hledger : Ledger c z blocks n) (hcb : n.callback = .allocating scan smps) :
    smps.Nodup ∧ ∀ s ∈ n.between, (fill n.heap smps contents).payload s = n.heap.payload s := by
  have hrefs : n.refs = smps + { n with callback := .idle }.refs := by
    simp only [Client.refs, hcb, Callback.smps, Multiset.coe_nil]
    abel
  have hbetween : { n with callback := .idle }.between = n.between := by
    simp [Client.between, hcb]
  have hnodup := hledger.nodup
  rw [hrefs, Multiset.nodup_add] at hnodup
  refine ⟨Multiset.coe_nodup.mp hnodup.1, fun s hs => fill_payload_of_not_mem fun hmem => ?_⟩
  rw [← hbetween] at hs
  exact Multiset.disjoint_left.mp hnodup.2.2 (Multiset.mem_coe.mpr hmem) (between_subset hs)

theorem copies_copied {smps : List Destination} {srcs : List Payload} (hlen : srcs.length ≤ smps.length) :
    List.Forall₂ Copy srcs (copied smps srcs) := by
  induction srcs generalizing smps with
  | nil =>
    rw [copied, List.zipWith_nil_right]
    exact .nil
  | cons src srcs ih =>
    cases smps with
    | nil => simp at hlen
    | cons smp smps => exact .cons ⟨smp.capacity, smp.payload, rfl⟩ (ih (by simpa using hlen))

theorem Stream.moves (hledger : Ledger c z blocks n) (hblocks : blocks.Nodup)
    (hroom : blocks.length ≤ c.queueSize) (hn : Stream c n) (hmove : Moves c n n') : Stream c n' := by
  have hdecref (s : SampleId) : (n.heap.sampleDecref s).payload = n.heap.payload := Heap.decref_payload _ s
  cases hmove with
  | message _ hcb =>
    refine hn.of_between rfl rfl ⟨rfl, rfl⟩ hn.pulling ?_ (fun _ _ => rfl) ?_ hn.invalid
    · simp [Client.between, hcb]
    · rintro _ _ ⟨⟩
      simp
  | @allocate scan smps heap s hcb hlt ha =>
    obtain ⟨hle, hempty⟩ := hn.allocated scan smps hcb
    have hnew : s ∉ n.refs := (hledger.balanced.alloc ha).2
    have hpayload {s' : SampleId} (hne : s' ≠ s) : heap.payload s' = n.heap.payload s' :=
      congrArg Sample.payload (ha.samples s' hne)
    refine hn.of_between rfl rfl ⟨rfl, rfl⟩ hn.pulling ?_ (fun s' hs' => hpayload ?_) ?_ hn.invalid
    · simp [Client.between, hcb]
    · rintro rfl
      exact hnew (between_subset hs')
    · rintro _ _ ⟨⟩
      refine ⟨by simpa using Nat.succ_le_of_lt hlt, fun s' hs' => ?_⟩
      rcases eq_or_ne s' s with rfl | hne
      · exact congrArg (fun x => x.payload.length) ha.sample
      · rw [hpayload hne]
        exact hempty s' (by simpa [hne] using hs')
  | @invalid scan smps hcb hne =>
    obtain ⟨hle, -⟩ := hn.allocated _ smps hcb
    obtain ⟨hlost, hlost'⟩ := hn.invalid
    have hpos := List.length_pos_iff.mpr hne
    refine hn.of_between rfl rfl ⟨rfl, rfl⟩ hn.pulling ?_ (payload_fill hledger hcb).2 (by simp) ?_
    · simp [Client.between, hcb]
    · dsimp only
      rw [List.length_append, Nat.mul_succ]
      omega
  | undefined hcb | empty hcb =>
    refine hn.of_between rfl rfl ⟨rfl, rfl⟩ hn.pulling ?_ (payload_fill hledger hcb).2 (by simp) hn.invalid
    simp [Client.between, hcb]
  | @accept scan smps hcb hfull =>
    obtain ⟨hle, hempty⟩ := hn.allocated _ smps hcb
    obtain ⟨hnodup, hpayload⟩ := @payload_fill c z blocks smps n _ scan.contents hledger hcb
    refine ⟨?_, hn.copies, hn.pulling, ?_, by simp, hn.invalid⟩
    · have hpushed : { n with callback := .pushing smps }.between = n.between ++ smps := by
        simp [Client.between, hcb]
      change _ = _ ++ ({ n with callback := .pushing smps }.between).map _
      rw [hpushed, List.map_append, List.map_congr_left hpayload, ← List.append_assoc, ← hn.stream]
    · obtain ⟨batches, hbatches, hoffered⟩ := hn.batches
      refine ⟨batches ++ [smps.map (fill n.heap smps scan.contents).payload],
        List.rel_append hbatches (.cons ⟨smps.map n.heap.payload, ?_, ?_, ?_⟩ .nil), ?_⟩
      · rw [List.length_map]
        omega
      · simpa using hempty
      · exact fill_payload hnodup
      · rw [hoffered, List.flatten_append, List.flatten_singleton]
  | refuse hcb hfull =>
    have hlength := hledger.length hblocks
    rw [hcb, Callback.smps, List.length_cons] at hlength
    omega
  | underrun hcb | push hcb | pushed hcb | released hcb =>
    refine hn.of_between rfl rfl ⟨rfl, rfl⟩ hn.pulling ?_ (fun _ _ => rfl) (by simp) hn.invalid
    simp [Client.between, hcb]
  | release hcb =>
    refine hn.of_between rfl rfl ⟨rfl, rfl⟩ hn.pulling ?_ (fun _ _ => by rw [hdecref]) (by simp) hn.invalid
    simp [Client.between, hcb]
  | pull hreader hlt hqueue =>
    refine hn.of_between rfl rfl ⟨rfl, rfl⟩ ?_ ?_ (fun _ _ => rfl) hn.allocated hn.invalid
    · rintro _ _ ⟨⟩
      simpa using Nat.succ_le_of_lt hlt
    · simp [Client.between, hreader, hqueue]
  | copy hreader =>
    refine ⟨?_, ?_, by simp, hn.batches, hn.allocated, hn.invalid⟩
    · have hstream := hn.stream
      simp only [Client.between, hreader, List.map_append, ← List.append_assoc] at hstream
      simpa [Client.between] using hstream
    · refine List.rel_append hn.copies (copies_copied ?_)
      rw [List.length_map]
      exact hn.pulling _ _ hreader
  | read _ hreader | returned hreader =>
    refine hn.of_between rfl rfl ⟨rfl, rfl⟩ ?_ ?_ (fun _ _ => rfl) hn.allocated hn.invalid
    · rintro _ _ ⟨⟩ <;> simp
    · simp [Client.between, hreader]
  | putBack hreader =>
    refine hn.of_between rfl rfl ⟨rfl, rfl⟩ (by simp) ?_ (fun _ _ => by rw [hdecref]) ?_ hn.invalid
    · simp [Client.between, hreader]
    · intro scan smps hcb
      rw [hdecref]
      exact hn.allocated scan smps hcb

theorem Fresh.stream (hn : Fresh c z n) : Stream c n := by
  refine ⟨?_, ?_, by simp [hn.reader], ⟨[], ?_, ?_⟩, ?_, ?_⟩
  · simp [Client.between, hn.offered, hn.pulled, hn.callback, hn.reader, hn.queue]
  · rw [hn.pulled, hn.delivered]
    exact .nil
  · rw [hn.accepted]
    exact .nil
  · rw [hn.offered]
    rfl
  · simp [hn.callback]
  · simp [hn.invalid, hn.lost]

end

/-! ## Runs -/

section
variable {c : Settings} {z : SampleId → Sample} {blocks smps : List SampleId} {n n' n'' : Client}
  {as : List Action}

/-- The invariant of the two threads. -/
structure Sound (c : Settings) (z : SampleId → Sample) (blocks : List SampleId) (n : Client) : Prop where
  ledger : Ledger c z blocks n
  stream : Stream c n
  nodup : blocks.Nodup
  room : blocks.length ≤ c.queueSize

theorem Sound.run (hn : Sound c z blocks n) (hrun : Runs.run (step c) n as = some n') :
    Sound c z blocks n' := by
  refine Runs.always (fun n a n' hn hstep => ?_) hn hrun
  have hmove := step_moves hstep
  exact ⟨hn.ledger.moves hmove, hn.stream.moves hn.ledger hn.nodup hn.room hmove, hn.nodup, hn.room⟩

theorem Fresh.sound (hn : Fresh c z n) : Sound c z (n.heap.pools c.pool).blocks n :=
  ⟨hn.ledger, hn.stream, hn.nodup, hn.room⟩

theorem Moves.record (hmove : Moves c n n') :
    n.lost.length ≤ n'.lost.length ∧ (n.reader.smpt = [] → n'.delivered = n.delivered) := by
  cases hmove with
  | invalid | refuse => simp
  | copy hreader =>
    refine ⟨le_refl _, fun hnil => ?_⟩
    rw [hreader, Reader.smpt] at hnil
    simp [hnil, copied]
  | _ => exact ⟨le_refl _, fun _ => rfl⟩

theorem Sound.starves (hn : Sound c z blocks n) (hlost : n.lost.length = blocks.length)
    (hrun : Runs.run (step c) n as = some n') : n'.delivered = n.delivered := by
  suffices h : Sound c z blocks n' ∧ blocks.length ≤ n'.lost.length ∧ n'.delivered = n.delivered from h.2.2
  refine Runs.always (I := fun n' => Sound c z blocks n' ∧ blocks.length ≤ n'.lost.length ∧
    n'.delivered = n.delivered) (fun n₁ a n₂ h₁ hstep => ?_) ⟨hn, hlost.ge, rfl⟩ hrun
  obtain ⟨hsound, hlost₁, hdelivered⟩ := h₁
  obtain ⟨hlost₂, hnone⟩ := (step_moves hstep).record
  have hlength := hsound.ledger.length hsound.nodup
  have hrun₁ : Runs.run (step c) n₁ [a] = some n₂ := by
    rw [Runs.run_cons, hstep]
    rfl
  refine ⟨hsound.run hrun₁, hlost₁.trans hlost₂, ?_⟩
  rw [← hdelivered]
  apply hnone
  rw [← List.length_eq_zero_iff]
  omega

/-! ### Arrays that are not full -/

/-- There is a run from one state to the other. -/
def Reaches (c : Settings) (n n' : Client) : Prop := ∃ as, Runs.run (step c) n as = some n'

theorem Reaches.trans (h : Reaches c n n') (h' : Reaches c n' n'') : Reaches c n n'' := by
  obtain ⟨as, has⟩ := h
  obtain ⟨bs, hbs⟩ := h'
  exact ⟨as ++ bs, by rw [Runs.run_append, has, Option.bind_some, hbs]⟩

theorem Reaches.step {a : Action} (h : step c n a = some n') : Reaches c n n' :=
  ⟨[a], by rw [Runs.run_cons, h]; rfl⟩

theorem Sound.reaches (hn : Sound c z blocks n) (h : Reaches c n n') : Sound c z blocks n' := by
  obtain ⟨as, hrun⟩ := h
  exact hn.run hrun

theorem alloc_reaches {scan : Scan} {k : Nat} (hcb : n.callback = .allocating scan smps)
    (hfree : k ≤ (n.heap.free c.pool).length) (hsize : smps.length + k ≤ c.vectorize) :
    ∃ heap smps', Reaches c n { n with heap, callback := .allocating scan smps' } ∧
      smps'.length = smps.length + k ∧ (heap.free c.pool).length = (n.heap.free c.pool).length - k := by
  induction k generalizing n smps with
  | zero => exact ⟨n.heap, smps, ⟨[], by rw [← hcb]; rfl⟩, rfl, rfl⟩
  | succ k ih =>
    obtain ⟨hnil, -⟩ | ⟨h', s, hsome, ha⟩ := sampleAlloc_spec n.heap c.pool
    · simp [hnil] at hfree
    · have hlength : (n.heap.free c.pool).length = (h'.free c.pool).length + 1 := by
        rw [ha.free, List.length_cons]
      have hstep : step c n .callback =
          some { n with heap := h', callback := .allocating scan (smps ++ [s]) } := by
        simp only [step, Client.callbackStep, hcb]
        rw [if_pos (by omega), hsome]
      obtain ⟨heap, smps', hreaches, hsmps, hrest⟩ := @ih (smps ++ [s])
        { n with heap := h', callback := .allocating scan (smps ++ [s]) } rfl (by dsimp only; omega)
        (by simp; omega)
      refine ⟨heap, smps', (Reaches.step hstep).trans hreaches, ?_, ?_⟩
      · rw [hsmps, List.length_append, List.length_singleton]
        omega
      · rw [hrest]
        dsimp only
        omega

theorem message_reaches {k : Nat} (scan : Scan) (hcb : n.callback = .idle)
    (hfree : k ≤ (n.heap.free c.pool).length) (hsize : k ≤ c.vectorize) :
    ∃ heap smps, Reaches c n { n with heap, callback := .allocating scan smps } ∧ smps.length = k ∧
      (heap.free c.pool).length = (n.heap.free c.pool).length - k := by
  have hmessage : step c n (.message scan) = some { n with callback := .allocating scan [] } := by
    simp only [step, hcb]
  obtain ⟨heap, smps, hreaches, hlength, hrest⟩ := @alloc_reaches c []
    { n with callback := .allocating scan [] } scan k rfl hfree (by simpa using hsize)
  exact ⟨heap, smps, (Reaches.step hmessage).trans hreaches, by simpa using hlength, hrest⟩

theorem few_reaches (hcb : n.callback = .idle) (hpos : 0 < (n.heap.free c.pool).length)
    (hfew : (n.heap.free c.pool).length < c.vectorize) :
    ∃ n', Reaches c n n' ∧ n'.callback.isUndefined := by
  obtain ⟨heap, smps, hreaches, hlength, hfree⟩ := message_reaches ⟨[], 0⟩ hcb (le_refl _) hfew.le
  have hnone : heap.sampleAlloc c.pool = none := by
    obtain ⟨-, hnone⟩ | ⟨h', s, -, ha⟩ := sampleAlloc_spec heap c.pool
    · exact hnone
    · rw [ha.free, List.length_cons] at hfree
      omega
  have hne : smps ≠ [] := List.length_pos_iff.mp (hlength ▸ hpos)
  have hshort : smps.length < c.vectorize := hlength ▸ hfew
  have hlast : step c { n with heap, callback := .allocating ⟨[], 0⟩ smps } .callback =
      some ({ n with heap, callback := .allocating ⟨[], 0⟩ smps }.messageCb c ⟨[], 0⟩ smps) := by
    simp only [step, Client.callbackStep]
    rw [if_pos hshort, hnone]
  refine ⟨_, hreaches.trans (Reaches.step hlast), ?_⟩
  simp [Client.messageCb, hne, hshort, Callback.isUndefined]

theorem invalid_reaches (hcb : n.callback = .idle) (hpos : 0 < c.vectorize)
    (hfree : c.vectorize ≤ (n.heap.free c.pool).length) :
    ∃ n', Reaches c n n' ∧ n'.callback = .idle ∧ n'.reader = n.reader ∧ n'.queue = n.queue ∧
      (n'.heap.free c.pool).length = (n.heap.free c.pool).length - c.vectorize := by
  obtain ⟨heap, smps, hreaches, hlength, hrest⟩ := message_reaches ⟨[], -1⟩ hcb hfree (le_refl _)
  have hne : smps ≠ [] := List.length_pos_iff.mp (hlength ▸ hpos)
  have hlast : step c { n with heap, callback := .allocating ⟨[], -1⟩ smps } .callback =
      some ({ n with heap, callback := .allocating ⟨[], -1⟩ smps }.messageCb c ⟨[], -1⟩ smps) := by
    simp only [step, Client.callbackStep]
    rw [if_neg (by omega)]
  refine ⟨_, hreaches.trans (Reaches.step hlast), ?_⟩
  simp [Client.messageCb, hne, hrest, fill]

theorem push_reaches (hcb : n.callback = .pushing smps) (hroom : n.queue.length + smps.length ≤ c.queueSize) :
    Reaches c n { n with queue := n.queue ++ smps, callback := .idle } := by
  induction smps generalizing n with
  | nil =>
    refine Reaches.step (a := .callback) ?_
    simp [step, Client.callbackStep, hcb]
  | cons s smps ih =>
    rw [List.length_cons] at hroom
    have hstep : step c n .callback = some { n with queue := n.queue ++ [s], callback := .pushing smps } := by
      simp only [step, Client.callbackStep, hcb]
      rw [if_pos (by omega)]
    have hrest := @ih { n with queue := n.queue ++ [s], callback := .pushing smps } rfl (by simp; omega)
    refine (Reaches.step hstep).trans ?_
    simpa using hrest

theorem pull_reaches {smps : List Destination} {smpt : List SampleId} (hreader : n.reader = .pulling smps smpt)
    (hsize : smpt.length + n.queue.length ≤ smps.length) :
    Reaches c n { n with queue := [], reader := .pulling smps (smpt ++ n.queue) } := by
  induction hqueue : n.queue generalizing n smpt with
  | nil =>
    rw [List.append_nil, ← hreader, ← hqueue]
    exact ⟨[], rfl⟩
  | cons s queue ih =>
    rw [hqueue, List.length_cons] at hsize
    have hstep : step c n .reader = some { n with queue, reader := .pulling smps (smpt ++ [s]) } := by
      simp only [step, Client.readerStep, hreader]
      rw [if_pos (by omega), hqueue]
    have hrest := @ih { n with queue, reader := .pulling smps (smpt ++ [s]) } (smpt ++ [s]) rfl
      (by simp; omega) rfl
    refine (Reaches.step hstep).trans ?_
    simpa using hrest

theorem read_reaches (hn : Sound c z blocks n) (hcb : n.callback = .idle) (hreader : n.reader = .idle)
    (hfree : n.heap.free c.pool = []) (hqueue : n.queue.length = c.vectorize) (hsize : 2 ≤ c.vectorize) :
    ∃ n', Reaches c n n' ∧ n'.callback.isUndefined := by
  obtain ⟨s, queue, hcons⟩ := List.exists_cons_of_length_pos (by omega : 0 < n.queue.length)
  obtain ⟨smps, hsmps⟩ : ∃ smps : List Destination, smps.length = c.vectorize :=
    ⟨List.replicate c.vectorize ⟨0, n.heap.payload s⟩, List.length_replicate⟩
  have hread : step c n (.read smps) = some { n with reader := .pulling smps [] } := by
    simp only [step, hreader]
  have hpull := @pull_reaches c { n with reader := .pulling smps [] } smps [] rfl
    (by simp [hqueue, hsmps])
  have hcopy : step c { n with queue := [], reader := .pulling smps n.queue } .reader =
      some { n with queue := [], reader := .releasing n.queue
                    pulled := n.pulled ++ n.queue.map n.heap.payload
                    delivered := n.delivered ++ copied smps (n.queue.map n.heap.payload) } := by
    simp [step, Client.readerStep]
  have hdecref : step c { n with queue := [], reader := .releasing n.queue
                                 pulled := n.pulled ++ n.queue.map n.heap.payload
                                 delivered := n.delivered ++ copied smps (n.queue.map n.heap.payload) }
      .reader =
      some { n with heap := n.heap.sampleDecref s, queue := [], reader := .releasing queue
                    pulled := n.pulled ++ n.queue.map n.heap.payload
                    delivered := n.delivered ++ copied smps (n.queue.map n.heap.payload) } := by
    simp [step, Client.readerStep, hcons]
  have hpulled := (Reaches.step hread).trans hpull
  have hreaches := (hpulled.trans (Reaches.step hcopy)).trans (Reaches.step hdecref)
  have hbefore := hn.ledger.length hn.nodup
  have hafter := (hn.reaches hreaches).ledger.length hn.nodup
  simp only [hcb, hreader, hfree, hcons, Callback.smps, Reader.smpt, List.length_nil, List.length_cons]
    at hbefore hafter
  obtain ⟨n', hreaches', hundefined⟩ := few_reaches (c := c)
    (n := { n with heap := n.heap.sampleDecref s, queue := [], reader := .releasing queue
                   pulled := n.pulled ++ n.queue.map n.heap.payload
                   delivered := n.delivered ++ copied smps (n.queue.map n.heap.payload) })
    hcb (by dsimp only; omega) (by dsimp only; omega)
  exact ⟨n', hreaches.trans hreaches', hundefined⟩

theorem undefined_reaches (hn : Sound c z blocks n) (hcb : n.callback = .idle) (hreader : n.reader = .idle)
    (hqueue : n.queue = []) (hpos : 0 < (n.heap.free c.pool).length) (hsize : 2 ≤ c.vectorize) :
    ∃ n', Reaches c n n' ∧ n'.callback.isUndefined := by
  induction hk : (n.heap.free c.pool).length using Nat.strong_induction_on generalizing n with
  | _ k ih =>
    rcases lt_trichotomy (n.heap.free c.pool).length c.vectorize with hlt | heq | hgt
    · exact few_reaches hcb hpos hlt
    · obtain ⟨heap, smps, hreaches, hlength, hrest⟩ :=
        message_reaches ⟨[id], 1⟩ hcb heq.ge (le_refl c.vectorize)
      have hne : smps ≠ [] := List.length_pos_iff.mp (by omega)
      have hpush : step c { n with heap, callback := .allocating ⟨[id], 1⟩ smps } .callback =
          some { n with heap := fill heap smps [id], callback := .pushing smps
                        accepted := n.accepted ++ [[id]]
                        offered := n.offered ++ smps.map (fill heap smps [id]).payload } := by
        simp [step, Client.callbackStep, Client.messageCb, hlength, hne]
      have hlength' := (hn.reaches (hreaches.trans (Reaches.step hpush))).ledger.length hn.nodup
      simp only [Callback.smps] at hlength'
      have hroom := hn.room
      have hpushed := (hreaches.trans (Reaches.step hpush)).trans
        (push_reaches (c := c) rfl (by dsimp only; omega))
      have hempty : (fill heap smps [id]).free c.pool = [] := by
        have hbefore := hn.ledger.length hn.nodup
        rw [hcb, Callback.smps, List.length_nil] at hbefore
        rw [← List.length_eq_zero_iff]
        omega
      obtain ⟨n', hreaches', hundefined⟩ := read_reaches (hn.reaches hpushed) rfl hreader hempty
        (by simp [hqueue, hlength]) hsize
      exact ⟨n', hpushed.trans hreaches', hundefined⟩
    · obtain ⟨n₁, hreaches, hcb₁, hreader₁, hqueue₁, hfree₁⟩ := @invalid_reaches c n hcb (by omega) hgt.le
      obtain ⟨n', hreaches', hundefined⟩ := ih _ (by omega) (hn.reaches hreaches) hcb₁
        (hreader₁.trans hreader) (hqueue₁.trans hqueue) (by omega) rfl
      exact ⟨n', hreaches.trans hreaches', hundefined⟩

theorem Moves.defined (hsize : c.vectorize ≤ 1) (hn : n.callback.isUndefined = false) (hmove : Moves c n n') :
    n'.callback.isUndefined = false := by
  cases hmove with
  | undefined hcb hne hlt =>
    have hpos := List.length_pos_iff.mpr hne
    omega
  | read | pull | copy | putBack | returned => exact hn
  | _ => rfl

end

/-- A node behind `pool_init` for a pool of `size` samples, where `x` is what each sample is before. -/
def prepared (x : Sample) (size : Nat) : Client where
  heap :=
    { samples := fun _ => x
      pools := fun p => if p = 0 then ⟨List.range size, x.capacity, size⟩ else ⟨[], 0, 0⟩
      free := fun p => if p = 0 then List.range size else [] }
  queue := []
  callback := .idle
  reader := .idle
  lost := []
  invalid := 0
  accepted := []
  offered := []
  pulled := []
  delivered := []

theorem prepared_fresh {c : Settings} {x : Sample} {size : Nat} (hpool : c.pool = 0) (hpos : 0 < size)
    (hsize : size ≤ c.queueSize) : Fresh c (fun _ => x) (prepared x size) := by
  have hblocks : ((prepared x size).heap.pools c.pool).blocks = List.range size := by
    rw [hpool]
    rfl
  refine ⟨⟨?_, ?_, ?_, ?_, ?_, fun _ _ _ => .inr rfl, by simp⟩, ?_, ?_, ?_, rfl, rfl, rfl, rfl, rfl, rfl,
    rfl, rfl, rfl⟩
  · intro p q s hp hq
    by_cases hp₀ : p = 0 <;> by_cases hq₀ : q = 0 <;> simp_all [prepared]
  · intro p
    by_cases hp₀ : p = 0 <;> simp [prepared, hp₀]
  · intro p
    by_cases hp₀ : p = 0 <;> simp [prepared, hp₀, List.nodup_range]
  · intro p
    by_cases hp₀ : p = 0 <;> simp [prepared, hp₀]
  · intro p
    by_cases hp₀ : p = 0 <;> simp [prepared, hp₀]
  · rw [hblocks]
    exact List.nodup_range
  · rw [hblocks, ← List.length_pos_iff, List.length_range]
    exact hpos
  · rw [hblocks, List.length_range]
    exact hsize

/-! ## What holds of a subscriber -/

/-- No place of the array is used that has not been written to, in any order of the threads and with
any messages, exactly if a message has one sample at most. -/
theorem subscriber_defined_iff {c : Settings} {z : SampleId → Sample} {n : Client} (hn : Fresh c z n) :
    (∀ as n', Runs.run (step c) n as = some n' → n'.callback.isUndefined = false) ↔ c.vectorize ≤ 1 := by
  constructor
  · intro h
    by_contra hsize
    have hfree : 0 < (n.heap.free c.pool).length := by
      have hlength := hn.ledger.length hn.nodup
      simp only [hn.callback, hn.queue, hn.reader, hn.lost, Callback.smps, Reader.smpt, List.length_nil]
        at hlength
      have hpos := List.length_pos_iff.mpr hn.nonempty
      omega
    obtain ⟨n', ⟨as, hrun⟩, hundefined⟩ :=
      undefined_reaches hn.sound hn.callback hn.reader hn.queue hfree (by omega)
    rw [h as n' hrun] at hundefined
    cases hundefined
  · intro hsize as n' hrun
    refine Runs.always (fun n a n' hn hstep => (step_moves hstep).defined hsize hn) ?_ hrun
    rw [hn.callback]
    rfl

def exampleSample : Sample := ⟨⟨0, 0, 0, 0, ⟨0, 0⟩, ⟨0, 0⟩, fun _ => 0⟩, 1, 0, none⟩

theorem subscriber_defined_example :
    (∀ as n', Runs.run (step (mqttPrepare 0 1)) (prepared exampleSample 1024) as = some n' →
      n'.callback.isUndefined = false) ∧
    ¬ ∀ as n', Runs.run (step (mqttPrepare 0 2)) (prepared exampleSample 1024) as = some n' →
      n'.callback.isUndefined = false := by
  have hpos : 0 < 1024 := by decide
  have hone := prepared_fresh (c := mqttPrepare 0 1) (x := exampleSample) rfl hpos (le_refl 1024)
  have htwo := prepared_fresh (c := mqttPrepare 0 2) (x := exampleSample) rfl hpos (le_refl 1024)
  exact ⟨(subscriber_defined_iff hone).mpr (le_refl 1),
    fun h => absurd ((subscriber_defined_iff htwo).mp h) (by decide)⟩

/-- In every state of every run, each sample of the pool is free or has one place. What the reads have
pulled and what is on its way are the batches of the accepted messages, in their order, and the reads
deliver copies of it. An invalid message costs one to `vectorize` samples for good, and nothing else does.
When all are lost, nothing is delivered any more. -/
theorem subscriber_ledger {c : Settings} {z : SampleId → Sample} {n n' : Client} {as : List Action}
    (hn : Fresh c z n) (hrun : Runs.run (step c) n as = some n') :
    (n'.heap.free c.pool : Multiset SampleId) + n'.refs = (n.heap.pools c.pool).blocks ∧
    ((∃ batches, List.Forall₂ (Batch c.vectorize) n'.accepted batches ∧
        n'.pulled ++ n'.between.map n'.heap.payload = batches.flatten) ∧
      List.Forall₂ Copy n'.pulled n'.delivered) ∧
    (n'.invalid ≤ n'.lost.length ∧ n'.lost.length ≤ c.vectorize * n'.invalid) ∧
    (n'.lost.length = (n.heap.pools c.pool).blocks.length →
      ∀ bs n'', Runs.run (step c) n' bs = some n'' → n''.delivered = n'.delivered) := by
  have hsound := hn.sound.run hrun
  obtain ⟨batches, hbatches, hoffered⟩ := hsound.stream.batches
  refine ⟨hsound.ledger.all hsound.nodup, ⟨⟨batches, hbatches, ?_⟩, hsound.stream.copies⟩,
    hsound.stream.invalid, fun hlost bs n'' hrun' => hsound.starves hlost hrun'⟩
  rw [← hsound.stream.stream, hoffered]

/-- The first sample of a message has two values, the second one three. Only the first is counted. -/
def exampleScan : Scan where
  contents := [fun p => { p with length := 2 }, fun p => { p with length := 3 }]
  ret := 1

/-- The message, a read into samples with two and with two values, and an invalid message. -/
def exampleActions : List Action :=
  .message exampleScan :: List.replicate 6 .callback ++
    (.read (List.replicate 2 ⟨2, exampleSample.payload⟩) :: List.replicate 6 .reader) ++
      (.message ⟨[], -1⟩ :: List.replicate 3 .callback)

theorem subscriber_ledger_example :
    ∃ n', Runs.run (step (kafkaPrepare 0 2)) (prepared exampleSample 4) exampleActions = some n' ∧
      n'.pulled.map Payload.length = [2, 3] ∧ n'.delivered.map Payload.length = [2, 2] ∧
      n'.lost.length = 2 ∧ (n'.heap.free 0 : Multiset SampleId) + n'.refs = List.range 4 := by
  obtain ⟨n', hrun, hpulled, hdelivered, hlost⟩ :
      ∃ n', Runs.run (step (kafkaPrepare 0 2)) (prepared exampleSample 4) exampleActions = some n' ∧
        n'.pulled.map Payload.length = [2, 3] ∧ n'.delivered.map Payload.length = [2, 2] ∧
          n'.lost.length = 2 := ⟨_, rfl, rfl, rfl, rfl⟩
  have hpos : 0 < 4 := by decide
  have hfresh := prepared_fresh (c := kafkaPrepare 0 2) (x := exampleSample) rfl hpos (by decide)
  exact ⟨n', hrun, hpulled, hdelivered, hlost, (subscriber_ledger hfresh hrun).1⟩

end VillasNode.Subscriber
