import VillasNode.Hook.Growth
import VillasNode.Path.Model
import VillasNode.Sample.Blocks

/-!
# The sizes of pools

The samples of one path on their way from the driver of a source through its
hooks, the mapping, the hooks of the path and those of the destinations. Their
blocks are from pools that were sized once: that of a source by the signals of
its node, that of the path by its own signals. The destinations are not asked,
but their hooks run on the blocks of the path.
-/

namespace VillasNode.Capacity

open SignalHooks (Signal)

/-! ## Sizes -/

def sizeofSample : Nat := 80

/-- `SAMPLE_LENGTH` -/
def sampleLength (len : Nat) : Nat := sizeofSample + len * 8

/-- `capacity` of the samples of a pool that `pool_init` makes for samples of `len` values. -/
def capacityOf (alignment len : Nat) : Nat :=
  (Blocks.roundUp alignment (sampleLength len) - sizeofSample) / 8

theorem le_capacityOf {alignment : Nat} (hpos : 0 < alignment) (len : Nat) :
    len ≤ capacityOf alignment len := by
  have hdiv := Nat.div_add_mod (sampleLength len + alignment - 1) alignment
  have hmod := Nat.mod_lt (sampleLength len + alignment - 1) hpos
  unfold capacityOf Blocks.roundUp
  rw [Nat.le_div_iff_mul_le (by decide)]
  unfold sampleLength at *
  omega

/-! ## Mappings -/

/-- `mapping_list_prepare`, behind the entries that take the first `off` values. -/
def mappingListPrepare : Nat → List MappingEntry → List MappingEntry
  | _, [] => []
  | off, me :: ml => { me with offset := off } :: mappingListPrepare (off + me.length) ml

/-- The type of the descriptor that `signal_init_from_mapping` makes. -/
def mappingSignalType (statsType : Nat → SignalType) : MappingType → Option SignalType
  | .stats _ type => some (statsType type)
  | .header _ | .timestamp _ => some .integer
  | .data _ | .unknown => none

/-- `vlist_extend` and `vlist_set` -/
def extendSet (l : List (Option Signal)) (i : Nat) (sig : Signal) : List (Option Signal) :=
  (l ++ List.replicate (i + 1 - l.length) none).set i (some sig)

/-- The inner loop of `path_prepare`, over the values from `j` on. `sigs` are the signals of the
node. `none` when it returns `-1`. -/
def entrySignals (statsType : Nat → SignalType) (sigs : List (Option Signal)) (me : MappingEntry)
    (j : Nat) (l : List (Option Signal)) : Nat → Option (List (Option Signal))
  | 0 => some l
  | n + 1 =>
    match me.type with
    | .data offset =>
      match sigs[offset + j]? with
      | some (some sig) =>
        entrySignals statsType sigs me (j + 1) (extendSet l (me.offset + j) sig) n
      -- "Failed to create signal description", and the loop goes on.
      | _ => entrySignals statsType sigs me (j + 1) l n
    | type =>
      match mappingSignalType statsType type with
      | some type =>
        entrySignals statsType sigs me (j + 1) (extendSet l (me.offset + j) ⟨type, .new j⟩) n
      | none => none

def pathSignals (statsType : Nat → SignalType) (sigs : Nat → List (Option Signal)) :
    List (Option Signal) → List MappingEntry → Option (List (Option Signal))
  | l, [] => some l
  | l, me :: ml =>
    (entrySignals statsType (sigs me.node) me 0 l me.length).bind fun l =>
      pathSignals statsType sigs l ml

/-- One behind the last value that `mapping_update` writes. -/
def entryExtent (me : MappingEntry) (original : Payload) : Nat :=
  match me.type with
  | .stats .. | .header _ => me.offset + 1
  | .timestamp _ => me.offset + 2
  | .data offset => me.offset + (min original.length (u32 (offset + me.length)) - offset)
  | .unknown => 0

/-- One behind the last value that `mapping_list_remap` writes, until an entry fails. -/
def remapExtent (capacity : Nat) (original : Payload) : List MappingEntry → Nat
  | [] => 0
  | me :: ml =>
    if capacity < u32 (me.offset + me.length) ∨ me.type = .unknown then 0
    else max (entryExtent me original) (remapExtent capacity original ml)

/-! ## Paths -/

structure Config where
  /-- `kernel::getCachelineSize()` -/
  alignment : Nat
  alignment_pos : 0 < alignment
  statsType : Nat → SignalType
  /-- The input directions of the nodes that the mapping names. -/
  nodes : Nat → PreparedHooks
  /-- The node is a source of another path too, and this one reads it through a loopback. -/
  secondary : Nat → Bool
  /-- The entries, without their offsets. -/
  mappings : List MappingEntry
  path : PreparedHooks
  path_signals : pathSignals statsType (fun i => (nodes i).outputSignals) []
    (mappingListPrepare 0 mappings) = some path.signals
  /-- The output directions of the destinations. -/
  destinations : Nat → PreparedHooks
  originalSequenceNo : Bool

/-- Whose hooks a sample is in, with the destinations that had it before. -/
inductive Owner where
  | source (i : Nat)
  | path
  | destination (served : List Nat) (d : Nat)
deriving DecidableEq

inductive Stage where
  /-- Behind the first `k` hooks. -/
  | hooks (o : Owner) (k : Nat)
  | fetched (i : Nat)
  | processed
  | queued (served : List Nat)
  | released
deriving DecidableEq

structure Block where
  stage : Stage
  capacity : Nat
  payload : Payload
  /-- One behind the last value that was ever written. -/
  extent : Nat

structure State where
  blocks : List Block
  /-- `last_sample` of the path. -/
  last : Payload

namespace Config

def entries (cfg : Config) (i : Nat) : List MappingEntry :=
  (mappingListPrepare 0 cfg.mappings).filter (·.node = i)

/-- The loopback of a secondary source has no hooks. -/
def hookList (cfg : Config) : Owner → PreparedHooks
  | .source i => if cfg.secondary i then ⟨(cfg.nodes i).signals, [], [], rfl⟩ else cfg.nodes i
  | .path => cfg.path
  | .destination _ d => cfg.destinations d

/-- The pools of `path_source_init_master` and of `path_prepare`. -/
def capacity (cfg : Config) : Owner → Nat
  | .source i => capacityOf cfg.alignment (cfg.nodes i).maxCnt
  | .path | .destination .. => capacityOf cfg.alignment cfg.path.maxCnt

end Config

def ended : Owner → Stage
  | .source i => .fetched i
  | .path => .processed
  | .destination served d => .queued (d :: served)

/-- Where `hook_list_process` leaves a sample after a hook. A destination gives it back, whatever
its hooks say. -/
def afterHook (o : Owner) (k : Nat) : Reason → Stage
  | .ok => .hooks o (k + 1)
  | .stopProcessing => ended o
  | .error | .skipSample =>
    match o with
    | .destination served d => .queued (d :: served)
    | _ => .released

namespace Block

def hook (cfg : Config) (c : Choice) (payload : Payload) (x : Block) : Option Block :=
  match x.stage with
  | .hooks o k =>
    ((cfg.hookList o).hooks[k]?).bind fun h =>
      (h.process c x.payload.length).map fun (r, e) =>
        { x with stage := afterHook o k r, payload := { payload with length := e.length }
                 extent := max x.extent e.extent }
  | _ => none

def finish (cfg : Config) (x : Block) : Option Block :=
  match x.stage with
  | .hooks o k =>
    if k = (cfg.hookList o).hooks.length then some { x with stage := ended o } else none
  | _ => none

def write (d : Nat) (x : Block) : Option Block :=
  match x.stage with
  | .queued served =>
    if d ∈ served then none else some { x with stage := .hooks (.destination served d) 0 }
  | _ => none

end Block

/-- The values that a driver or a hook leaves are any, and so is what a block held before. -/
inductive Action where
  | read (i : Nat) (payload : Payload)
  | hook (b : Nat) (c : Choice) (payload : Payload)
  | finish (b : Nat)
  /-- Of a clone of `last_sample`, or of the sample muxed before. -/
  | mux (b : Nat) (prev : Option Nat) (lastSequence : BitVec 32) (stats : Nat → Nat → Value)
      (old : Payload)
  /-- `sample_copy(p->last_sample, …)` -/
  | keep (b : Nat)
  /-- Of a processed sample, or of `last_sample` when the timer expires. -/
  | enqueue (b : Option Nat) (old : Payload)
  | write (b d : Nat)

namespace State

def push (s : State) (x : Block) : State := { s with blocks := s.blocks ++ [x] }

def update (s : State) (b : Nat) (f : Block → Option Block) : Option State :=
  (s.blocks[b]?).bind fun x => (f x).map fun x => { s with blocks := s.blocks.set b x }

def at? (s : State) (b : Nat) (stage : Stage) : Option Block :=
  (s.blocks[b]?).bind fun x => if x.stage = stage then some x else none

/-- The sample of which the next one is a clone. -/
def previous (s : State) (stage : Stage) : Option Nat → Option Payload
  | none => some s.last
  | some b => (s.at? b stage).map Block.payload

def release (s : State) (b : Nat) (x : Block) : State :=
  { s with blocks := s.blocks.set b { x with stage := .released } }

end State

namespace Config

/-- What a driver leaves. The loopback copies, and no more than fits. -/
def read (cfg : Config) (i : Nat) (payload : Payload) : Block :=
  let capacity := cfg.capacity (.source i)
  let length := if cfg.secondary i then min payload.length capacity else payload.length
  { stage := .hooks (.source i) 0, capacity, payload := { payload with length }, extent := length }

def clone (cfg : Config) (old payload : Payload) : Payload :=
  Heap.copyPayload (cfg.capacity .path) old payload

def mux (cfg : Config) (i : Nat) (lastSequence : BitVec 32) (stats : Nat → Nat → Value)
    (clone tomux : Payload) : Block :=
  let capacity := cfg.capacity .path
  let (payload, ok) := muxPayload cfg.originalSequenceNo lastSequence stats (cfg.entries i) capacity
    clone tomux
  { stage := if ok then .hooks .path 0 else .released, capacity, payload
    extent := max clone.length (remapExtent capacity tomux (cfg.entries i)) }

def enqueue (cfg : Config) (clone : Payload) : Block :=
  { stage := .queued [], capacity := cfg.capacity .path, payload := clone, extent := clone.length }

end Config

def step (cfg : Config) (s : State) : Action → Option State
  | .read i payload => some (s.push (cfg.read i payload))
  | .hook b c payload => s.update b (Block.hook cfg c payload)
  | .finish b => s.update b (Block.finish cfg)
  | .mux b prev lastSequence stats old =>
    (s.blocks[b]?).bind fun x =>
      match x.stage with
      | .fetched i =>
        (s.previous (.hooks .path 0) prev).map fun prev =>
          (s.release b x).push
            (cfg.mux i lastSequence stats (cfg.clone old prev) x.payload)
      | _ => none
  | .keep b =>
    (s.at? b (.hooks .path 0)).map fun x => { s with last := cfg.clone s.last x.payload }
  | .enqueue b old =>
    (s.previous .processed b).map fun payload => s.push (cfg.enqueue (cfg.clone old payload))
  | .write b d => s.update b (Block.write d)

/-- `path_start` has allocated `last_sample`. -/
def init (payload : Payload) : State := ⟨[], { payload with length := 0 }⟩

/-! ## Room -/

def Block.Fits (x : Block) : Prop := x.payload.length ≤ x.capacity ∧ x.extent ≤ x.capacity

/-- No sample is longer than its block, and no value behind its end was written. -/
def Fits (cfg : Config) (s : State) : Prop :=
  (∀ x ∈ s.blocks, x.Fits) ∧ s.last.length ≤ cfg.capacity .path

/-- The node of a data entry has the signals that it maps. -/
def Named (sigs : List (Option Signal)) (me : MappingEntry) : Prop :=
  match me.type with
  | .data offset => ∀ j < me.length, ∃ sig, sigs[offset + j]? = some (some sig)
  | _ => True

/-- Each entry has the length of what it writes, and maps signals that exist. -/
def Config.Mapped (cfg : Config) : Prop :=
  ∀ me ∈ cfg.mappings, me.sized ∧ Named (cfg.nodes me.node).outputSignals me

/-- `capacity` is `unsigned`. -/
def Config.Unsigned (cfg : Config) : Prop := ∀ o, cfg.capacity o < 2 ^ 32

def Owner.outside : Owner → Bool
  | .destination .. => true
  | _ => false

/-- The next hook finds the values that it removes and, at a destination, room for those that it
writes. -/
def Block.Ready (cfg : Config) (x : Block) : Prop :=
  match x.stage with
  | .hooks o k =>
    ∀ h ∈ (cfg.hookList o).hooks[k]?,
      h.Has x.payload.length ∧ (o.outside → h.needs x.payload.length ≤ x.capacity)
  | _ => True

/-- Drivers deliver no more values than their node has signals. -/
def Within (cfg : Config) (s : State) : Action → Prop
  | .read i payload => cfg.secondary i ∨ payload.length ≤ (cfg.nodes i).signals.length
  | .hook b _ _ => ∀ x ∈ s.blocks[b]?, x.Ready cfg
  | _ => True

instance (cfg : Config) : (x : Block) → Decidable (x.Ready cfg)
  | ⟨.hooks o k, _, _, _⟩ =>
    inferInstanceAs (Decidable (∀ h ∈ (cfg.hookList o).hooks[k]?, _ ∧ (_ → _)))
  | ⟨.fetched _, _, _, _⟩ | ⟨.processed, _, _, _⟩ | ⟨.queued _, _, _, _⟩ | ⟨.released, _, _, _⟩ =>
    .isTrue trivial

instance (cfg : Config) (s : State) : (a : Action) → Decidable (Within cfg s a)
  | .read .. => inferInstanceAs (Decidable (_ ∨ _))
  | .hook b _ _ => inferInstanceAs (Decidable (∀ x ∈ s.blocks[b]?, x.Ready cfg))
  | .finish _ | .mux .. | .keep _ | .enqueue .. | .write .. => .isTrue trivial

/-! ## The signals of a path -/

theorem extendSet_length (l : List (Option Signal)) (i : Nat) (sig : Signal) :
    (extendSet l i sig).length = max l.length (i + 1) := by
  simp [extendSet]
  omega

theorem entrySignals_length {statsType : Nat → SignalType} {sigs : List (Option Signal)}
    {me : MappingEntry} (hnamed : Named sigs me) {j n : Nat} (hj : j + n = me.length)
    {l l' : List (Option Signal)} (hl : me.offset + j ≤ l.length)
    (h : entrySignals statsType sigs me j l n = some l') :
    l.length ≤ l'.length ∧ me.offset + me.length ≤ l'.length := by
  induction n generalizing j l with
  | zero =>
    cases h
    exact ⟨Nat.le_refl _, by omega⟩
  | succ n ih =>
    -- The descriptor is set in each case, so that the list covers one value more.
    have hset : ∀ sig, entrySignals statsType sigs me (j + 1) (extendSet l (me.offset + j) sig) n =
        some l' → l.length ≤ l'.length ∧ me.offset + me.length ≤ l'.length := by
      intro sig hrest
      have hext := extendSet_length l (me.offset + j) sig
      obtain ⟨h₁, h₂⟩ := ih (by omega) (by omega) hrest
      exact ⟨by omega, h₂⟩
    unfold entrySignals at h
    split at h
    · rename_i offset htype
      simp only [Named, htype] at hnamed
      obtain ⟨sig, hsig⟩ := hnamed j (by omega)
      rw [hsig] at h
      exact hset sig h
    · split at h
      · exact hset _ h
      · simp at h

theorem pathSignals_covers {statsType : Nat → SignalType} {sigs : Nat → List (Option Signal)}
    {ml : List MappingEntry} (hnamed : ∀ me ∈ ml, Named (sigs me.node) me) {off : Nat}
    {l l' : List (Option Signal)} (hl : off ≤ l.length)
    (h : pathSignals statsType sigs l (mappingListPrepare off ml) = some l') :
    l.length ≤ l'.length ∧
      ∀ me ∈ mappingListPrepare off ml, me.offset + me.length ≤ l'.length := by
  induction ml generalizing off l with
  | nil =>
    cases h
    simp [mappingListPrepare]
  | cons me ml ih =>
    rw [List.forall_mem_cons] at hnamed
    simp only [mappingListPrepare, pathSignals, Option.bind_eq_some_iff] at h
    obtain ⟨l₁, h₁, h₂⟩ := h
    have hme : Named (sigs me.node) { me with offset := off } := hnamed.1
    obtain ⟨hle, hcov⟩ := entrySignals_length hme (Nat.zero_add _) hl h₁
    obtain ⟨hle', hrest⟩ := ih hnamed.2 hcov h₂
    rw [mappingListPrepare, List.forall_mem_cons]
    exact ⟨Nat.le_trans hle hle', Nat.le_trans hcov hle', hrest⟩

theorem mappingListPrepare_sized {ml : List MappingEntry} (h : ∀ me ∈ ml, me.sized) (off : Nat) :
    ∀ me ∈ mappingListPrepare off ml, me.sized := by
  induction ml generalizing off with
  | nil => simp [mappingListPrepare]
  | cons me ml ih =>
    rw [List.forall_mem_cons] at h
    rw [mappingListPrepare, List.forall_mem_cons]
    exact ⟨h.1, ih h.2 _⟩

/-! ## Remapping -/

section
variable {stats : Nat → Nat → Value} {me : MappingEntry} {ml : List MappingEntry}
  {capacity bound : Nat} {remapped original : Payload}

theorem entryExtent_le (hsized : me.sized) : entryExtent me original ≤ me.offset + me.length := by
  unfold MappingEntry.sized at hsized
  unfold entryExtent
  rcases ht : me.type with _ | offset | _ | _ | _ <;> rw [ht] at hsized <;> dsimp only at hsized ⊢
  · exact Nat.zero_le _
  · have := u32_le (offset + me.length)
    omega
  all_goals omega

theorem remapExtent_le (h : ∀ me ∈ ml, me.sized ∧ me.offset + me.length ≤ bound) :
    remapExtent capacity original ml ≤ bound := by
  induction ml with
  | nil => exact Nat.zero_le _
  | cons me ml ih =>
    rw [List.forall_mem_cons] at h
    unfold remapExtent
    split
    · exact Nat.zero_le _
    · exact Nat.max_le.mpr ⟨Nat.le_trans (entryExtent_le h.1.1) h.1.2, ih h.2⟩

theorem reach_le (me : MappingEntry) (original : Payload) :
    me.reach original ≤ me.offset + me.length := by
  unfold MappingEntry.reach
  refine Nat.le_trans (u32_le _) (Nat.add_le_add_left ?_ _)
  split
  · exact Nat.min_le_left ..
  · exact Nat.le_refl _

theorem mappingUpdate_le {r : Payload}
    (h : mappingUpdate stats me capacity remapped original = some r) :
    r.length ≤ max remapped.length (me.offset + me.length) := by
  obtain ⟨hlength, -⟩ := mappingUpdate_slots h
  have hreach := reach_le me original
  omega

theorem mappingListRemap_length (stats : Nat → Nat → Value) (capacity : Nat) (original : Payload)
    (h : ∀ me ∈ ml, me.offset + me.length ≤ bound)
    (hlen : remapped.length ≤ bound) :
    (mappingListRemap stats capacity original ml remapped).1.length ≤ bound := by
  induction ml generalizing remapped with
  | nil => exact hlen
  | cons me ml ih =>
    rw [List.forall_mem_cons] at h
    unfold mappingListRemap
    split
    · exact hlen
    · rename_i r hr
      have := mappingUpdate_le hr
      exact ih h.2 (by omega)

end

end VillasNode.Capacity
