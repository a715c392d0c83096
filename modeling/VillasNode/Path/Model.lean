import Mathlib.Data.Finset.Insert
import VillasNode.Hook.Model
import VillasNode.Mapping.Model

/-!
# Paths

`lib/path_source.cpp`, `lib/path_destination.cpp`, and `node_read` and
`node_write` of `lib/node.cpp`, over any node drivers. What a driver returns,
what statistics say and how far other threads drain a queue in the meantime are
inputs. A call that never returns, throws or has no defined behaviour gives
`none`.
-/

namespace VillasNode

/-- `enum class State`, as far as nodes and paths use it. -/
inductive State where
  | initialized
  | parsed
  | checked
  | prepared
  | started
  | connected
  | pendingConnect
  | paused
  | stopping
  | stopped
  | destroyed
deriving DecidableEq

/-! ## Nodes -/

structure NodeDirection (σ : Type*) where
  state : State
  /-- `node_type(n)->vectorize`, 0 for no limit. -/
  typeVectorize : Nat
  vectorize : Nat
  hooks : HookList σ

inductive DriverRead where
  | fail (code : Nat)
  | read (smps : List Payload)

inductive DriverWrite where
  | fail (code : Nat)
  | sent (n : Nat)

def Heap.fill (h : Heap) (smps : List SampleId) (payloads : List Payload) : Heap :=
  (smps.zip payloads).foldl (fun h x => h.setPayload x.1 x.2) h

/-- The `while` loop of `node_read`, for `cnt` samples. -/
def readLoop (vect : Nat) (smps : List SampleId) (h : Heap) (nread : Nat) :
    List DriverRead → Option (Heap × Int)
  | [] => if nread < smps.length then none else some (h, nread)
  | r :: rs =>
    if nread < smps.length then
      match r with
      | .fail code => some (h, Int.negSucc code)
      | .read payloads =>
        if payloads.length ≤ min (smps.length - nread) vect then
          readLoop vect smps (h.fill (smps.drop nread) payloads) (nread + payloads.length) rs
        else none
    else some (h, nread)

variable {σ : Type*}

def NodeDirection.vect (n : NodeDirection σ) (cnt : Nat) : Nat :=
  if n.typeVectorize = 0 then cnt else n.typeVectorize

/-- `node_read`. The array is handed back as the hooks leave it. -/
def nodeRead (n : NodeDirection σ) (h : Heap) (smps : List SampleId) (rs : List DriverRead) :
    Option (NodeDirection σ × Heap × List SampleId × Int) :=
  if n.state = .paused ∨ n.state = .pendingConnect then some (n, h, smps, 0)
  else if n.state ≠ .started ∧ n.state ≠ .connected then some (n, h, smps, -1)
  else
    match readLoop (n.vect smps.length) smps h 0 rs with
    | none => none
    | some (h, nread) =>
      if nread < 0 then some (n, h, smps, nread)
      else
        let (hooks, h, smps, rread) := n.hooks.hookListProcess h smps
        some ({ n with hooks }, h, smps, match rread with | none => -1 | some rread => rread)

/-- The `while` loop of `node_write`: what the driver is given in each call, the result (`none` is
negative) and the results of the driver that are left. -/
def writeLoop (vect : Nat) (smps : List SampleId) (h : Heap) (nsent : Nat) :
    List DriverWrite → Option (List (List Payload) × Option Nat × List DriverWrite)
  | [] => if nsent < smps.length then none else some ([], some nsent, [])
  | r :: rs =>
    if nsent < smps.length then
      let tosend := min (smps.length - nsent) vect
      let given := ((smps.drop nsent).take tosend).map h.payload
      match r with
      | .fail _ => some ([given], none, rs)
      | .sent n =>
        if n ≤ tosend then
          match writeLoop vect smps h (nsent + n) rs with
          | none => none
          | some (log, r) => some (given :: log, r)
        else none
    else some ([], some nsent, r :: rs)

structure Written (σ : Type*) where
  node : NodeDirection σ
  heap : Heap
  smps : List SampleId
  given : List (List Payload)
  sent : Option Nat
  results : List DriverWrite

/-- `node_write`. After an error of a hook the count is `-1` on `unsigned`, and the driver is given
what lies behind the array. -/
def nodeWrite (n : NodeDirection σ) (h : Heap) (smps : List SampleId) (rs : List DriverWrite) :
    Option (Written σ) :=
  if n.state = .paused ∨ n.state = .pendingConnect then some ⟨n, h, smps, [], some 0, rs⟩
  else if n.state ≠ .started ∧ n.state ≠ .connected then some ⟨n, h, smps, [], none, rs⟩
  else
    match n.hooks.hookListProcess h smps with
    | (_, _, _, none) => none
    | (hooks, h, smps, some cnt) =>
      if cnt = 0 then some ⟨{ n with hooks }, h, smps, [], some 0, rs⟩
      else
        (writeLoop (n.vect cnt) (smps.take cnt) h 0 rs).map fun (given, sent, rs) =>
          ⟨{ n with hooks }, h, smps, given, sent, rs⟩

/-! ## Secondary path sources -/

/-- The node of a secondary path source, of type `loopback_internal`, whose queue has
`DEFAULT_QUEUE_LENGTH` places. It has no output hooks. -/
structure Loopback where
  state : State
  queueSize : Nat
  queue : List SampleId
  /-- In a queue with a single place each sample would overwrite the one before. -/
  two_le : 2 ≤ queueSize := by decide

/-- A queue as `loopback_internal` sets it up, with these samples waiting. -/
def Loopback.internal (queue : List SampleId) : Loopback := { state := .started, queueSize := 1024, queue }

def loopbackInternalWrite (l : Loopback) (h : Heap) (smps : List SampleId) :
    Loopback × Heap × Nat :=
  let h := h.sampleIncrefMany smps
  let pushed := min smps.length (l.queueSize - l.queue.length)
  ({ l with queue := l.queue ++ smps.take pushed }, h, pushed)

/-- The thread of the other path has read `n` samples (`loopback_internal_read`). -/
def loopbackDrain (l : Loopback) (h : Heap) (n : Nat) : Loopback × Heap :=
  ({ l with queue := l.queue.drop n }, h.sampleDecrefMany (l.queue.take n))

/-- The `while` loop of `node_write` on a loopback. `drains` says how much is read between its
rounds. -/
def forwardLoop (l : Loopback) (h : Heap) (smps : List SampleId) :
    List Nat → Option (Loopback × Heap)
  | [] =>
    let (l, h, sent) := loopbackInternalWrite l h smps
    if sent < smps.length then none else some (l, h)
  | n :: drains =>
    let (l, h, sent) := loopbackInternalWrite l h smps
    if sent < smps.length then
      let (l, h) := loopbackDrain l h n
      forwardLoop l h (smps.drop sent) drains
    else some (l, h)

def forwardOne (l : Loopback) (h : Heap) (smps : List SampleId) (drains : List Nat) :
    Option (Loopback × Heap) :=
  if l.state = .started ∨ l.state = .connected then forwardLoop l h smps drains else some (l, h)

/-- Forward samples to secondary path sources, from the one with index `i` on. -/
def forward (h : Heap) (smps : List SampleId) (drains : Nat → List Nat) :
    Nat → List Loopback → Option (List Loopback × Heap)
  | _, [] => some ([], h)
  | i, l :: ls =>
    match forwardOne l h smps (drains i) with
    | none => none
    | some (l, h) => (forward h smps drains (i + 1) ls).map fun (ls, h) => (l :: ls, h)

/-! ## Paths -/

inductive PathMode where
  | any
  | all
deriving DecidableEq

structure PathSource (σ : Type*) where
  node : NodeDirection σ
  pool : PoolId
  mappings : List MappingEntry
  secondaries : List Loopback

structure PathDestination (σ : Type*) where
  node : NodeDirection σ
  queueSize : Nat
  queue : List SampleId

inductive PathEvent where
  /-- Source `i` delivered these samples, with these statistics of its node, and the mux loop made
  of them the samples `muxed`. -/
  | delivered (i : Nat) (smps : List Payload) (stats : Nat → Nat → Value) (muxed : List Payload)
  /-- `path_destination_enqueue` was called for so many samples. -/
  | enqueued (cnt : Nat)

structure Path (σ : Type*) where
  heap : Heap
  state : State
  mode : PathMode
  originalSequenceNo : Bool
  pool : PoolId
  lastSample : SampleId
  lastSequence : BitVec 32
  mask : Finset Nat
  received : Finset Nat
  hooks : HookList σ
  sources : List (PathSource σ)
  destinations : List (PathDestination σ)
  /-- What happened so far. No code reads it. -/
  trace : List PathEvent

/-- The size of the bit sets, `MAX_SAMPLE_LENGTH`. -/
def maxSampleLength : Nat := 256

/-- How many of `cnt` samples the queue takes. In one with a single place the cell is free for a push
in any state, and what waits there is overwritten. -/
def PathDestination.takes (pd : PathDestination σ) (cnt : Nat) : Nat :=
  if pd.queueSize = 1 then cnt else pd.queueSize - pd.queue.length

def PathDestination.push (pd : PathDestination σ) (smps : List SampleId) : PathDestination σ :=
  { pd with queue := pd.queue ++ smps.take (pd.takes smps.length) }

/-- A sample was overwritten before it was pulled. The next `queue_pull` waits for ever for its
sequence number. -/
def PathDestination.stuck (pd : PathDestination σ) : Prop := pd.queueSize = 1 ∧ 1 < pd.queue.length

instance (pd : PathDestination σ) : Decidable pd.stuck := inferInstanceAs (Decidable (_ ∧ _))

def enqueueAll (clones : List SampleId) :
    Heap → List (PathDestination σ) → Heap × List (PathDestination σ)
  | h, [] => (h, [])
  | h, pd :: pds =>
    let (h, pds) := enqueueAll clones (h.sampleIncrefMany clones) pds
    (h, pd.push clones :: pds)

def pathDestinationEnqueue (h : Heap) (pds : List (PathDestination σ)) (smps : List SampleId) :
    Heap × List (PathDestination σ) :=
  let (h, clones) := h.sampleCloneMany smps
  let (h, pds) := enqueueAll clones h pds
  (h.sampleDecrefMany clones, pds)

/-- The loop of `path_destination_write`, at most `n` rounds, with what the driver is given. -/
def destinationLoop (pd : PathDestination σ) (h : Heap) (rs : List DriverWrite) :
    Nat → Option (PathDestination σ × Heap × List (List Payload))
  | 0 => some (pd, h, [])
  | n + 1 =>
    let smps := pd.queue.take pd.node.vectorize
    if smps = [] then some (pd, h, [])
    else if pd.stuck then none
    else
      match nodeWrite pd.node h smps rs with
      | none => none
      | some w =>
        let pd := { pd with queue := pd.queue.drop pd.node.vectorize, node := w.node }
        match w.sent with
        -- Returns without releasing the samples.
        | none => some (pd, w.heap, w.given)
        | some _ =>
          (destinationLoop pd (w.heap.sampleDecrefMany w.smps) w.results n).map
            fun (pd, h, given) => (pd, h, w.given ++ given)

theorem destinationLoop_cases {pd pd' : PathDestination σ} {h h' : Heap} {rs : List DriverWrite}
    {given : List (List Payload)} {n : Nat}
    (hw : destinationLoop pd h rs (n + 1) = some (pd', h', given)) :
    (pd.queue.take pd.node.vectorize = [] ∧ pd' = pd ∧ h' = h ∧ given = []) ∨
      (pd.queue.take pd.node.vectorize ≠ [] ∧ ¬ pd.stuck ∧
        ∃ w, nodeWrite pd.node h (pd.queue.take pd.node.vectorize) rs = some w ∧
          ((w.sent = none ∧ h' = w.heap ∧ given = w.given ∧
              pd' = { pd with queue := pd.queue.drop pd.node.vectorize, node := w.node }) ∨
            (w.sent ≠ none ∧ ∃ rest, given = w.given ++ rest ∧
              destinationLoop { pd with queue := pd.queue.drop pd.node.vectorize, node := w.node }
                (w.heap.sampleDecrefMany w.smps) w.results n = some (pd', h', rest)))) := by
  unfold destinationLoop at hw
  dsimp only at hw
  split at hw
  · rename_i hempty
    cases hw
    exact .inl ⟨hempty, rfl, rfl, rfl⟩
  rename_i hne
  split at hw
  · simp at hw
  rename_i hflows
  split at hw
  · simp at hw
  rename_i w hnode
  refine .inr ⟨hne, hflows, w, hnode, ?_⟩
  cases hsent : w.sent with
  | none =>
    rw [hsent] at hw
    cases hw
    exact .inl ⟨rfl, rfl, rfl, rfl⟩
  | some sent =>
    rw [hsent] at hw
    obtain ⟨⟨pd₃, h₃, rest⟩, hrest, heq⟩ := Option.map_eq_some_iff.mp hw
    cases heq
    exact .inr ⟨by simp, rest, rfl, hrest⟩

/-- `path_destination_write`. Each round but the last takes a sample out of the queue. -/
def pathDestinationWrite (pd : PathDestination σ) (h : Heap) (rs : List DriverWrite) :
    Option (PathDestination σ × Heap × List (List Payload)) :=
  destinationLoop pd h rs (pd.queue.length + 1)

def muxHeader (original : Bool) (lastSequence : BitVec 32) (muxed tomux : Payload) : Payload :=
  let muxed :=
    if original then
      { muxed with sequence := tomux.sequence
                   flags := muxed.flags ||| (tomux.flags &&& SampleFlags.hasSequence) }
    else
      { muxed with sequence := lastSequence.signExtend 64
                   flags := muxed.flags ||| SampleFlags.hasSequence }
  -- We reset the sample length after each restart of the simulation.
  let muxed := if tomux.flags &&& SampleFlags.isFirst ≠ 0 then { muxed with length := 0 } else muxed
  { muxed with origin := tomux.origin, received := tomux.received
               flags := muxed.flags ||| (tomux.flags &&& SampleFlags.hasTs) }

theorem muxHeader_slots (original : Bool) (lastSequence : BitVec 32) (muxed tomux : Payload) :
    (muxHeader original lastSequence muxed tomux).length =
        (if tomux.flags &&& SampleFlags.isFirst ≠ 0 then 0 else muxed.length) ∧
      (muxHeader original lastSequence muxed tomux).data = muxed.data := by
  unfold muxHeader
  by_cases hfirst : tomux.flags &&& SampleFlags.isFirst ≠ 0
  · simp only [if_pos hfirst]
    cases original <;> simp
  · simp only [if_neg hfirst]
    cases original <;> simp

/-- What `path_source_read` makes of a fresh clone. The flag says whether the mapping applied. -/
def muxPayload (original : Bool) (lastSequence : BitVec 32) (stats : Nat → Nat → Value)
    (ml : List MappingEntry) (capacity : Nat) (muxed tomux : Payload) : Payload × Bool :=
  let (muxed, ok) :=
    mappingListRemap stats capacity tomux ml (muxHeader original lastSequence muxed tomux)
  (if ok ∧ 0 < muxed.length then { muxed with flags := muxed.flags ||| SampleFlags.hasData } else muxed, ok)

/-- The mux loop. `prev` is the sample of which the next one is a clone. The flag says whether the
loop ended without a `return`. -/
def muxLoop (original : Bool) (stats : Nat → Nat → Value) (ml : List MappingEntry) (h : Heap)
    (lastSequence : BitVec 32) (prev : SampleId) :
    List SampleId → Heap × BitVec 32 × List SampleId × Bool
  | [] => (h, lastSequence, [], true)
  | tomux :: rest =>
    match h.sampleClone prev with
    | none => (h, lastSequence, [], false)
    | some (h, muxed) =>
      let (payload, ok) := muxPayload original lastSequence stats ml (h.samples muxed).capacity
        (h.payload muxed) (h.payload tomux)
      let h := h.setPayload muxed payload
      let lastSequence := if original then lastSequence else lastSequence + 1
      if ok then
        let (h, lastSequence, muxeds, ok) := muxLoop original stats ml h lastSequence muxed rest
        (h, lastSequence, muxed :: muxeds, ok)
      else (h, lastSequence, [muxed], false)

structure Reading where
  results : List DriverRead
  stats : Nat → Nat → Value
  drains : Nat → List Nat

namespace Path

def triggered (p : Path σ) (i : Nat) : Prop :=
  i ∈ p.mask ∧ (p.mode = .any ∨ p.mode = .all ∧ p.mask = p.received)

instance (p : Path σ) (i : Nat) : Decidable (p.triggered i) :=
  inferInstanceAs (Decidable (_ ∧ _))

/-- `sample_copy(p->last_sample, muxed_smps[tomux-1])` -/
def keepLast (p : Path σ) (muxed : List SampleId) : Heap :=
  match muxed.getLast? with
  | none => p.heap
  | some last => p.heap.sampleCopy p.lastSample last

/-- Enqueue the first `toenqueue` samples if the path is triggered. -/
def enqueue (p : Path σ) (i : Nat) (muxed : List SampleId) (toenqueue : Option Nat) :
    Option (Path σ × Int) :=
  if p.triggered i then
    match toenqueue with
    -- The hooks report `-1`, and the array `clones[cnt]` has `2 ^ 32 - 1` places on the stack.
    | none => none
    | some toenqueue =>
      let smps := muxed.take toenqueue
      let (heap, destinations) := pathDestinationEnqueue p.heap p.destinations smps
      let trace := p.trace ++ [.enqueued smps.length]
      some ({ p with heap, destinations, received := ∅, trace }, toenqueue)
  else some (p, 0)

/-- `path_source_read` behind the mux loop. -/
def finish (p : Path σ) (i : Nat) (read muxed : List SampleId) : Option (Path σ × Int) :=
  let (hooks, heap, muxed, toenqueue) := p.hooks.hookListProcess (p.keepLast muxed) muxed
  let result := { p with heap, hooks }.enqueue i muxed toenqueue
  result.map fun (p, enqueued) =>
    ({ p with heap := (p.heap.sampleDecrefMany muxed).sampleDecrefMany read }, enqueued)

/-- The samples that are muxed: all of them, or only the last one. -/
def tomux (p : Path σ) (read : List SampleId) : List SampleId :=
  match p.mode with
  | .any => read
  | .all => read.drop (read.length - 1)

/-- Mark the source as received and run the mux loop. The trace has what the source delivered if
the loop ended without a `return`. -/
def mux (p : Path σ) (i : Nat) (ps : PathSource σ) (read : List SampleId) (ev : Reading) :
    Path σ × List SampleId × Bool :=
  let (heap, lastSequence, muxed, ok) :=
    muxLoop p.originalSequenceNo ev.stats ps.mappings p.heap p.lastSequence p.lastSample (p.tomux read)
  let delivered := PathEvent.delivered i ((p.tomux read).map p.heap.payload) ev.stats
    (muxed.map heap.payload)
  let trace := if ok then p.trace ++ [delivered] else p.trace
  ({ p with heap, lastSequence, trace, received := insert i p.received }, muxed, ok)

/-- `path_source_read` behind the loop over the secondaries. -/
def muxAndFinish (p : Path σ) (i : Nat) (ps : PathSource σ) (read : List SampleId) (ev : Reading) :
    Option (Path σ × Int) :=
  let (p, muxed, ok) := p.mux i ps read ev
  if ok then p.finish i read muxed else some (p, -1)

/-- `path_source_read` after `node_read` gave the samples `read`. -/
def deliver (p : Path σ) (i : Nat) (ps : PathSource σ) (read : List SampleId) (ev : Reading) :
    Option (Path σ × Int) :=
  match forward p.heap read ev.drains 0 ps.secondaries with
  | none => none
  | some (secondaries, heap) =>
    -- `bitset::set` throws for a source beyond the bit set.
    if maxSampleLength ≤ i then none
    else
      let p := { p with heap, sources := p.sources.set i { ps with secondaries } }
      p.muxAndFinish i ps read ev

/-- `path_source_read(ps, p, i)` for `ps = vlist_at(&p->sources, i)`. -/
def pathSourceRead (p : Path σ) (i : Nat) (ev : Reading) : Option (Path σ × Int) :=
  match p.sources[i]? with
  | none => none
  | some ps =>
    let (h, smps) := p.heap.sampleAllocMany ps.pool ps.node.vectorize
    match nodeRead ps.node h smps ev.results with
    | none => none
    | some (node, heap, smps, recv) =>
      let ps := { ps with node }
      let p := { p with heap, sources := p.sources.set i ps }
      if 0 < recv then p.deliver i ps (smps.take recv.toNat) ev
      -- `sample_decref_many(read_smps, recv)` releases nothing.
      else if recv < 0 ∧ node.state = .stopping then some ({ p with state := .stopping }, -1)
      else some (p, 0)

/-! ## What a read can do -/

variable {p p' : Path σ} {i : Nat} {ev : Reading} {ret : Int}

theorem deliver_cases {ps : PathSource σ} {read : List SampleId}
    (hd : p.deliver i ps read ev = some (p', ret)) :
    ∃ secondaries heap, forward p.heap read ev.drains 0 ps.secondaries = some (secondaries, heap) ∧
      i < maxSampleLength ∧
      { p with heap, sources := p.sources.set i { ps with secondaries } }.muxAndFinish i ps read ev =
        some (p', ret) := by
  unfold deliver at hd
  split at hd
  · simp at hd
  rename_i secondaries heap hforward
  split at hd
  · simp at hd
  rename_i hi
  exact ⟨secondaries, heap, hforward, not_le.mp hi, hd⟩

theorem enqueue_cases {muxed : List SampleId} {toenqueue : Option Nat}
    (he : p.enqueue i muxed toenqueue = some (p', ret)) :
    (p.triggered i ∧ ∃ cnt, toenqueue = some cnt ∧ ret = cnt ∧ p' = { p with
        heap := (pathDestinationEnqueue p.heap p.destinations (muxed.take cnt)).1
        destinations := (pathDestinationEnqueue p.heap p.destinations (muxed.take cnt)).2
        received := ∅, trace := p.trace ++ [.enqueued (muxed.take cnt).length] }) ∨
      (¬ p.triggered i ∧ ret = 0 ∧ p' = p) := by
  unfold enqueue at he
  split at he
  · rename_i htrig
    cases toenqueue with
    | none => simp at he
    | some cnt =>
      cases he
      exact .inl ⟨htrig, cnt, rfl, rfl, rfl⟩
  · rename_i htrig
    cases he
    exact .inr ⟨htrig, rfl, rfl⟩

theorem finish_cases {read muxed muxed₂ : List SampleId} {hooks : HookList σ} {heap : Heap}
    {toenqueue : Option Nat}
    (hr : p.hooks.hookListProcess (p.keepLast muxed) muxed = (hooks, heap, muxed₂, toenqueue))
    (hf : p.finish i read muxed = some (p', ret)) :
    ∃ p₃, { p with heap, hooks }.enqueue i muxed₂ toenqueue = some (p₃, ret) ∧
      p' = { p₃ with heap := (p₃.heap.sampleDecrefMany muxed₂).sampleDecrefMany read } := by
  unfold finish at hf
  rw [hr] at hf
  obtain ⟨⟨p₃, enqueued⟩, he, heq⟩ := Option.map_eq_some_iff.mp hf
  cases heq
  exact ⟨p₃, he, rfl⟩

theorem pathSourceRead_cases (hread : p.pathSourceRead i ev = some (p', ret)) :
    ∃ ps node heap smps recv, p.sources[i]? = some ps ∧
      nodeRead ps.node (p.heap.sampleAllocMany ps.pool ps.node.vectorize).1
        (p.heap.sampleAllocMany ps.pool ps.node.vectorize).2 ev.results =
          some (node, heap, smps, recv) ∧
      (0 < recv ∧ { p with heap, sources := p.sources.set i { ps with node } }.deliver i { ps with node }
          (smps.take recv.toNat) ev = some (p', ret) ∨
        recv ≤ 0 ∧ ∃ state, p' = { p with heap, state, sources := p.sources.set i { ps with node } } ∧
          if recv < 0 ∧ node.state = .stopping then state = .stopping ∧ ret = -1
          else state = p.state ∧ ret = 0) := by
  unfold pathSourceRead at hread
  split at hread
  · simp at hread
  rename_i ps hget
  dsimp only at hread
  split at hread
  · simp at hread
  rename_i node heap smps recv hnode
  refine ⟨ps, node, heap, smps, recv, hget, hnode, ?_⟩
  split at hread
  · rename_i hpos
    exact .inl ⟨hpos, hread⟩
  · rename_i hpos
    refine .inr ⟨not_lt.mp hpos, ?_⟩
    split at hread
    · rename_i hstop
      cases hread
      exact ⟨.stopping, rfl, by simp [hstop]⟩
    · rename_i hstop
      cases hread
      exact ⟨p.state, rfl, by simp [hstop]⟩

end Path

end VillasNode
