import VillasNode.Path.Conservation

/-!
# Secondary path sources

A node that several paths read: the source of the first path reads it and
forwards what it keeps to the queues of the others, which read from there in
threads of their own. Here `path_source_read` is cut into its steps, and
`loopback_internal_read` too, so that they can interleave in any way.
-/

namespace VillasNode.FanOut

/-- A secondary path source, with the local state of the thread that reads from it. -/
structure Secondary where
  loopback : Loopback
  pool : PoolId
  vectorize : Nat
  /-- The blocks that `node_read` has still to fill. -/
  smps : List SampleId
  /-- The blocks that are filled. -/
  filled : List SampleId
  cpys : List SampleId
  copied : Bool
  /-- What `loopback_internal_read` has returned so far. No code reads it. -/
  returned : List Payload

/-- Where `path_source_read` of the master is. -/
inductive Phase where
  | idle
  /-- `node_write` to the secondary `j` comes next, or the mux loop behind the last one. -/
  | forwarding (read : List SampleId) (j : Nat)
  /-- In `queue_push_many` for the secondary `j`. -/
  | pushing (read rest : List SampleId) (j : Nat)
  | finishing (read muxed : List SampleId)

/-- The secondaries of the master source are here and not in the source itself. -/
structure System (σ : Type*) where
  path : Path σ
  secondaries : List Secondary
  phase : Phase
  /-- What `node_read` of the master has kept so far. No code reads it. -/
  kept : List Payload

inductive ReaderAction where
  | begin
  | pull
  | copy
  | release
  /-- The path of the secondary changes a sample that it has read. -/
  | work (smp : SampleId) (x : Payload)
  | finish

inductive Action where
  | fetch (results : List DriverRead)
  | forward
  | push
  | mux (ev : Reading)
  | finish
  /-- The path reads another one of its sources. -/
  | other (i : Nat) (ev : Reading)
  | reader (j : Nat) (a : ReaderAction)

/-! ## The readers -/

def Secondary.push (x : Secondary) (y : SampleId) : Secondary :=
  { x with loopback := { x.loopback with queue := x.loopback.queue ++ [y] } }

/-- `path_source_read` of a secondary up to the end of `node_read`, which calls
`loopback_internal_read` until all of its blocks are filled. -/
def Secondary.step (x : Secondary) (h : Heap) : ReaderAction → Option (Heap × Secondary)
  | .begin =>
    if x.smps = [] ∧ x.filled = [] then
      let (h, smps) := h.sampleAllocMany x.pool x.vectorize
      some (h, { x with smps })
    else none
  | .pull =>
    match x.loopback.queue with
    | [] => none
    | y :: queue =>
      if x.copied = false ∧ x.cpys.length < x.smps.length then
        some (h, { x with loopback := { x.loopback with queue }, cpys := x.cpys ++ [y] })
      else none
  | .copy =>
    if x.copied = false ∧ x.cpys ≠ [] then
      some (h.sampleCopyMany x.smps x.cpys, { x with copied := true })
    else none
  | .release =>
    if x.copied then
      let avail := x.cpys.length
      some (h.sampleDecrefMany x.cpys,
        { x with smps := x.smps.drop avail, filled := x.filled ++ x.smps.take avail, cpys := []
                 copied := false, returned := x.returned ++ (x.smps.take avail).map h.payload })
    else none
  | .work smp payload =>
    if x.smps = [] ∧ smp ∈ x.filled then some (h.setPayload smp payload, x) else none
  | .finish =>
    if x.smps = [] then some (h.sampleDecrefMany x.filled, { x with filled := [] }) else none

/-! ## The master -/

variable {σ : Type*}

def Loopback.running (l : Loopback) : Prop := l.state = .started ∨ l.state = .connected

instance (l : Loopback) : Decidable (Loopback.running l) := inferInstanceAs (Decidable (_ ∨ _))

namespace System

def setHeap (s : System σ) (heap : Heap) : System σ := { s with path := { s.path with heap } }

/-- `path_source_read` up to the end of `node_read`. A sample with more values than its block has
room for is not defined. -/
def fetch (i : Nat) (s : System σ) (results : List DriverRead) : Option (System σ) :=
  match s.phase, s.path.sources[i]? with
  | .idle, some ps =>
    let (h, smps) := s.path.heap.sampleAllocMany ps.pool ps.node.vectorize
    match nodeRead ps.node h smps results with
    | none => none
    | some (node, heap, smps, recv) =>
      let path := { s.path with heap, sources := s.path.sources.set i { ps with node } }
      let read := smps.take recv.toNat
      if recv ≤ 0 then
        let state := if recv < 0 ∧ node.state = .stopping then .stopping else path.state
        some { s with path := { path with state } }
      else if ∀ y ∈ read, (heap.payload y).length ≤ (heap.samples y).capacity then
        some { s with path, phase := .forwarding read 0, kept := s.kept ++ read.map heap.payload }
      else none
  | _, _ => none

/-- The start of `node_write` to the next secondary, and of `loopback_internal_write`. -/
def forward (s : System σ) : Option (System σ) :=
  match s.phase with
  | .forwarding read j =>
    match s.secondaries[j]? with
    | none => none
    | some x =>
      if Loopback.running x.loopback then
        some { s.setHeap (s.path.heap.sampleIncrefMany read) with phase := .pushing read read j }
      else some { s with phase := .forwarding read (j + 1) }
  | _ => none

/-- The next `queue_push`. If the queue is full, `node_write` calls `loopback_internal_write` again
for the rest. -/
def push (s : System σ) : Option (System σ) :=
  match s.phase with
  | .pushing read [] j => some { s with phase := .forwarding read (j + 1) }
  | .pushing read (y :: rest) j =>
    match s.secondaries[j]? with
    | none => none
    | some x =>
      if x.loopback.queue.length < x.loopback.queueSize then
        some { s with secondaries := s.secondaries.set j (x.push y), phase := .pushing read rest j }
      else some (s.setHeap (s.path.heap.sampleIncrefMany (y :: rest)))
  | _ => none

def mux (i : Nat) (s : System σ) (ev : Reading) : Option (System σ) :=
  match s.phase, s.path.sources[i]? with
  | .forwarding read j, some ps =>
    if s.secondaries.length ≤ j ∧ i < maxSampleLength then
      let (path, muxed, ok) := s.path.mux i ps read ev
      some { s with path, phase := if ok then .finishing read muxed else .idle }
    else none
  | _, _ => none

def finish (i : Nat) (s : System σ) : Option (System σ) :=
  match s.phase with
  | .finishing read muxed =>
    (s.path.finish i read muxed).map fun (path, _) => { s with path, phase := .idle }
  | _ => none

def other (i : Nat) (s : System σ) (i' : Nat) (ev : Reading) : Option (System σ) :=
  match s.phase with
  | .idle =>
    if i' = i then none
    else (s.path.pathSourceRead i' ev).map fun (path, _) => { s with path }
  | _ => none

/-- `i` is the index of the master source in its path. -/
def step (i : Nat) (s : System σ) : Action → Option (System σ)
  | .fetch results => s.fetch i results
  | .forward => s.forward
  | .push => s.push
  | .mux ev => s.mux i ev
  | .finish => s.finish i
  | .other i' ev => s.other i i' ev
  | .reader j a =>
    match s.secondaries[j]? with
    | none => none
    | some x => (x.step s.path.heap a).map fun (heap, x) =>
        { s.setHeap heap with secondaries := s.secondaries.set j x }

end System

/-! ## What the readers get -/

/-- What a reader of a sample sees: sequence number, timestamps, length and values. -/
def view (x : Payload) : BitVec 64 × Timespec × Timespec × List Value :=
  (x.sequence, x.origin, x.received, (List.range x.length).map x.data)

/-- What is still to be pushed for the secondary `j`. -/
def Phase.pending : Phase → Nat → List SampleId
  | .idle, _ => []
  | .forwarding read k, j => if j < k then [] else read
  | .pushing read rest k, j => if j < k then [] else if j = k then rest else read
  | .finishing _ _, _ => []

/-- All that was kept, as the secondary `j` has got it or is still to get it. -/
def System.stream (s : System σ) (j : Nat) (x : Secondary) :
    List (BitVec 64 × Timespec × Timespec × List Value) :=
  x.returned.map view ++
    (x.cpys ++ (x.loopback.queue ++ s.phase.pending j)).map fun y => view (s.path.heap.payload y)

theorem System.stream_eq (s : System σ) (j : Nat) (x : Secondary) :
    s.stream j x = x.returned.map view ++
        (x.cpys ++ x.loopback.queue).map (fun y => view (s.path.heap.payload y)) ++
      (s.phase.pending j).map fun y => view (s.path.heap.payload y) := by
  simp [stream]

/-! ## The ledger -/

variable {z : SampleId → Sample} {h h' : Heap} {R : Multiset SampleId} {s s' : System σ}
  {i j : Nat} {P : PoolId} {x x' : Secondary}

def Secondary.refs (x : Secondary) : Multiset SampleId :=
  x.loopback.queue + (x.smps + (x.filled + x.cpys))

def secondaryRefs : List Secondary → Multiset SampleId
  | [] => 0
  | x :: xs => x.refs + secondaryRefs xs

theorem secondaryRefs_set {xs : List Secondary} (hget : xs[j]? = some x) :
    ∃ rest, secondaryRefs xs = x.refs + rest ∧
      ∀ x', secondaryRefs (xs.set j x') = x'.refs + rest :=
  total_set (fun _ _ => rfl) hget

theorem mem_secondaryRefs {xs : List Secondary} {y : SampleId} (hget : xs[j]? = some x)
    (hy : y ∈ x.refs) : y ∈ secondaryRefs xs := by
  obtain ⟨rest, heq, -⟩ := secondaryRefs_set hget
  rw [heq]
  exact Multiset.mem_add.mpr (.inl hy)

def Phase.refs : Phase → Multiset SampleId
  | .idle => 0
  | .forwarding read _ => read
  | .pushing read rest _ => read + rest
  | .finishing read muxed => read + muxed

/-! ## The invariant -/

/-- The blocks of the master's pool that a phase knows, and those of the path. -/
def Phase.Blocks (masters own : List SampleId) : Phase → Prop
  | .idle => True
  | .forwarding read _ => ∀ y ∈ read, y ∈ masters
  | .pushing read rest _ => ∀ y ∈ read ++ rest, y ∈ masters
  | .finishing read muxed => (∀ y ∈ read, y ∈ masters) ∧ ∀ y ∈ muxed, y ∈ own

/-- The samples that the master and a secondary share are never longer than a block. -/
def Short (s : System σ) (P : PoolId) (y : SampleId) : Prop :=
  (s.path.heap.payload y).length ≤ (s.path.heap.pools P).capacity

structure SecondaryOk (s : System σ) (P : PoolId) (j : Nat) (x : Secondary) : Prop where
  running : Loopback.running x.loopback
  pool : x.pool ≠ P ∧ x.pool ≠ s.path.pool
  capacity : (s.path.heap.pools x.pool).capacity = (s.path.heap.pools P).capacity
  shared : ∀ y ∈ x.cpys ++ x.loopback.queue, y ∈ (s.path.heap.pools P).blocks
  short : ∀ y ∈ x.cpys ++ (x.loopback.queue ++ s.phase.pending j), Short s P y
  own : ∀ d ∈ x.filled ++ x.smps, d ∈ (s.path.heap.pools x.pool).blocks
  nodup : (x.filled ++ x.smps).Nodup
  length : x.cpys.length ≤ x.smps.length
  copied : x.copied → (x.smps.take x.cpys.length).map (fun d => view (s.path.heap.payload d)) =
    x.cpys.map fun y => view (s.path.heap.payload y)
  stream : s.kept.map view = s.stream j x

structure Inv (z : SampleId → Sample) (i : Nat) (P : PoolId) (s : System σ) : Prop where
  balanced : ∃ R, Balanced z s.path.heap
    (s.path.refs + (secondaryRefs s.secondaries + (s.phase.refs + R)))
  last : s.path.lastSample ∈ (s.path.heap.pools s.path.pool).blocks
  apart : P ≠ s.path.pool
  source : ∀ ps, s.path.sources[i]? = some ps → ps.pool = P
  phase : s.phase.Blocks (s.path.heap.pools P).blocks (s.path.heap.pools s.path.pool).blocks
  done : ∀ j x, s.secondaries[j]? = some x → SecondaryOk s P j x
  pools : ∀ (j k : Nat) (x y : Secondary), s.secondaries[j]? = some x → s.secondaries[k]? = some y →
    j ≠ k → x.pool ≠ y.pool

theorem SecondaryOk.frame (hok : SecondaryOk s P j x)
    (hpools : s'.path.heap.pools = s.path.heap.pools) (hpool : s'.path.pool = s.path.pool)
    (hpayload : ∀ y, y ∈ x.refs ∨ y ∈ s.phase.pending j →
      s'.path.heap.payload y = s.path.heap.payload y)
    (news : List SampleId) (hnews : ∀ y ∈ news, Short s' P y)
    (hkept : s'.kept = s.kept ++ news.map s'.path.heap.payload)
    (hpending : s'.phase.pending j = s.phase.pending j ++ news) : SecondaryOk s' P j x := by
  have hshared : ∀ y ∈ x.cpys ++ (x.loopback.queue ++ s.phase.pending j),
      s'.path.heap.payload y = s.path.heap.payload y := by
    intro y hy
    apply hpayload
    simp only [List.mem_append] at hy
    unfold Secondary.refs
    simp only [Multiset.mem_add, Multiset.mem_coe]
    tauto
  refine ⟨hok.running, ?_, ?_, ?_, ?_, ?_, hok.nodup, hok.length, ?_, ?_⟩
  · rw [hpool]
    exact hok.pool
  · rw [hpools]
    exact hok.capacity
  · rw [hpools]
    exact hok.shared
  · intro y hy
    rw [hpending, ← List.append_assoc, ← List.append_assoc, List.append_assoc x.cpys] at hy
    obtain hy | hy := List.mem_append.mp hy
    · unfold Short
      rw [hshared y hy, hpools]
      exact hok.short y hy
    · exact hnews y hy
  · rw [hpools]
    exact hok.own
  · intro hcopied
    have hsmps : ∀ d ∈ x.smps.take x.cpys.length,
        view (s'.path.heap.payload d) = view (s.path.heap.payload d) := by
      intro d hd
      rw [hpayload d (.inl _)]
      unfold Secondary.refs
      simp [List.mem_of_mem_take hd]
    have hcpys : ∀ y ∈ x.cpys, view (s'.path.heap.payload y) = view (s.path.heap.payload y) := by
      intro y hy
      rw [hshared y (by simp [hy])]
    rw [List.map_congr_left hsmps, List.map_congr_left hcpys]
    exact hok.copied hcopied
  · have hstream := hok.stream
    unfold System.stream at hstream ⊢
    have hsplit : x.cpys ++ (x.loopback.queue ++ (s.phase.pending j ++ news)) =
        (x.cpys ++ (x.loopback.queue ++ s.phase.pending j)) ++ news := by simp
    rw [hkept, List.map_append, hstream, hpending, hsplit, List.append_assoc]
    generalize x.cpys ++ (x.loopback.queue ++ s.phase.pending j) = old at *
    have hold : old.map (fun y => view (s'.path.heap.payload y)) =
        old.map fun y => view (s.path.heap.payload y) := by
      apply List.map_congr_left
      intro y hy
      rw [hshared y hy]
    rw [List.map_append, hold, List.map_map]
    rfl

theorem Phase.pending_blocks {phase : Phase} {masters own : List SampleId} {y : SampleId}
    (hblocks : phase.Blocks masters own) (hy : y ∈ phase.pending j) : y ∈ masters := by
  cases phase with
  | idle => simp [pending] at hy
  | finishing read muxed => simp [pending] at hy
  | forwarding read k =>
    simp only [pending] at hy
    split at hy
    · simp at hy
    · exact hblocks y hy
  | pushing read rest k =>
    simp only [pending] at hy
    split at hy
    · simp at hy
    split at hy
    · exact hblocks y (List.mem_append.mpr (.inr hy))
    · exact hblocks y (List.mem_append.mpr (.inl hy))

theorem SecondaryOk.refs_block (hok : SecondaryOk s P j x) {y : SampleId} (hy : y ∈ x.refs) :
    y ∈ (s.path.heap.pools P).blocks ∨ y ∈ (s.path.heap.pools x.pool).blocks := by
  unfold Secondary.refs at hy
  simp only [Multiset.mem_add, Multiset.mem_coe] at hy
  obtain hy | hy | hy | hy := hy
  · exact .inl (hok.shared y (by simp [hy]))
  · exact .inr (hok.own y (by simp [hy]))
  · exact .inr (hok.own y (by simp [hy]))
  · exact .inl (hok.shared y (by simp [hy]))

end VillasNode.FanOut
