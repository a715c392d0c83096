import VillasNode.Path.Channels

/-!
# A simple path as a wire

A path that maps all signals of one node, without hooks and with the original
sequence numbers. What it offers to its destinations is what it reads, and so
each of them gets what the source has delivered, in order and with samples left
out at most.
-/

namespace VillasNode

variable {σ : Type*} {z : SampleId → Sample} {R : Multiset SampleId} {p p' : Path σ} {b length : Nat}

/-- What a wire hands on: not the flags, which are kept from one muxed sample to the next. -/
structure WireSample where
  sequence : BitVec 64
  origin : Timespec
  received : Timespec
  values : List Value
deriving DecidableEq

def Snapshot.onWire (x : Snapshot) : WireSample := ⟨x.sequence, x.origin, x.received, x.values⟩

def Payload.onWire (x : Payload) : WireSample := x.snapshot.onWire

/-- `in = "node"`, for a node with `length` signals. -/
def wholeNode (node length : Nat) : MappingEntry := ⟨node, .data 0, length, 0⟩

/-! ## One muxed sample -/

/-- What a mapping does not change. -/
def SameHeader (x y : Payload) : Prop :=
  x.sequence = y.sequence ∧ x.origin = y.origin ∧ x.received = y.received

theorem copyData_header (remapped original : Payload) (i j n : Nat) :
    SameHeader (copyData remapped original i j n) remapped := by
  induction n generalizing remapped i j with
  | zero => exact ⟨rfl, rfl, rfl⟩
  | succ n ih => exact ih (remapped.setData i (original.data j)) (i + 1) (j + 1)

theorem mappingUpdate_header {stats : Nat → Nat → Value} {me : MappingEntry} {capacity : Nat}
    {remapped original r : Payload} (h : mappingUpdate stats me capacity remapped original = some r) :
    SameHeader r remapped := by
  have hwrite : ∀ w, mappingWrite stats me remapped original = some w → SameHeader w.1 remapped := by
    intro w hw
    unfold mappingWrite at hw
    rcases ht : me.type with _ | offset | ⟨metric, type⟩ | (_ | _) | type <;>
      rw [ht] at hw <;> dsimp only at hw <;> cases hw
    · exact copyData_header ..
    all_goals exact ⟨rfl, rfl, rfl⟩
  unfold mappingUpdate at h
  split at h
  · cases h
  · split at h
    · cases h
    · rename_i w len hw
      have := hwrite _ hw
      split at h
      · cases h
        exact this
      · cases h
        exact this

theorem mappingUpdate_wholeNode {capacity : Nat} (node : Nat) (stats : Nat → Nat → Value) (remapped : Payload)
    {original : Payload} (hcap : capacity < 2 ^ 32) (hfit : length ≤ capacity)
    (hlen : original.length = length) (hle : remapped.length ≤ length) :
    ∃ r, mappingUpdate stats (wholeNode node length) capacity remapped original = some r ∧
      SameHeader r remapped ∧ r.length = length ∧ ∀ slot < length, r.data slot = original.data slot := by
  have hfit' : (wholeNode node length).offset + (wholeNode node length).length ≤ capacity := by
    unfold wholeNode
    dsimp only
    omega
  obtain ⟨r, hr⟩ : ∃ r, mappingUpdate stats (wholeNode node length) capacity remapped original = some r := by
    rw [← Option.isSome_iff_exists, mappingUpdate_isSome]
    refine ⟨by simp [wholeNode], ?_⟩
    rw [u32_of_lt (by omega)]
    exact hfit'
  have hsup : (wholeNode node length).suppliedBy original := by
    unfold MappingEntry.suppliedBy wholeNode
    dsimp only
    omega
  obtain ⟨hdata, hlength⟩ := mappingUpdate_spec hfit' hcap (by omega) hsup hr
  refine ⟨r, hr, mappingUpdate_header hr, ?_, fun slot hslot => ?_⟩
  · rw [hlength]
    unfold wholeNode
    dsimp only
    omega
  · rw [hdata]
    unfold MappingEntry.written wholeNode
    dsimp only
    rw [u32_of_lt (by omega), if_pos (by omega), Nat.zero_add, Nat.sub_zero]
    rfl

theorem onWire_eq {x y : Payload} (hsequence : x.sequence = y.sequence) (horigin : x.origin = y.origin)
    (hreceived : x.received = y.received) (hlength : x.length = y.length)
    (hdata : ∀ slot < y.length, x.data slot = y.data slot) : x.onWire = y.onWire := by
  unfold Payload.onWire Snapshot.onWire Payload.snapshot
  dsimp only
  rw [hsequence, horigin, hreceived, hlength]
  congr 1
  apply List.map_congr_left
  intro slot hslot
  exact hdata slot (List.mem_range.mp hslot)

theorem muxPayload_wholeNode {capacity : Nat} (node : Nat) (lastSequence : BitVec 32) (stats : Nat → Nat → Value)
    (muxed : Payload) {tomux : Payload} (hcap : capacity < 2 ^ 32) (hfit : length ≤ capacity)
    (hlen : tomux.length = length) (hle : muxed.length ≤ length) :
    (muxPayload true lastSequence stats [wholeNode node length] capacity muxed tomux).1.onWire =
        tomux.onWire ∧
      (muxPayload true lastSequence stats [wholeNode node length] capacity muxed tomux).1.length = length := by
  have hheader : (muxHeader true lastSequence muxed tomux).length ≤ length := by
    rw [(muxHeader_slots true lastSequence muxed tomux).1]
    split
    · exact Nat.zero_le _
    · exact hle
  obtain ⟨r, hr, ⟨hsequence, horigin, hreceived⟩, hlength, hdata⟩ :=
    mappingUpdate_wholeNode node stats _ hcap hfit hlen hheader
  have hwritten : (muxHeader true lastSequence muxed tomux).sequence = tomux.sequence ∧
      (muxHeader true lastSequence muxed tomux).origin = tomux.origin ∧
      (muxHeader true lastSequence muxed tomux).received = tomux.received := by
    unfold muxHeader
    dsimp only
    split <;> exact ⟨rfl, rfl, rfl⟩
  unfold muxPayload mappingListRemap
  rw [hr]
  unfold mappingListRemap
  dsimp only
  have hsignal : r.onWire = tomux.onWire :=
    onWire_eq (hsequence.trans hwritten.1) (horigin.trans hwritten.2.1) (hreceived.trans hwritten.2.2)
      (hlength.trans hlen.symm) fun slot hslot => hdata slot (hlen ▸ hslot)
  split
  · exact ⟨hsignal, hlength⟩
  · exact ⟨hsignal, hlength⟩

theorem muxChain_wholeNode {node capacity : Nat} {stats : Nat → Nat → Value} {base : Payload}
    {tomux muxed : List Payload} (hcap : capacity < 2 ^ 32) (hfit : length ≤ capacity)
    (hbase : base.length ≤ length) (hlen : ∀ x ∈ tomux, x.length = length)
    (h : MuxChain true stats [wholeNode node length] capacity base tomux muxed) :
    muxed.map Payload.onWire = tomux.map Payload.onWire ∧ ∀ x ∈ muxed, x.length = length := by
  induction h with
  | nil base => simp
  | cons lastSequence stale happly hmuxed hrest ih =>
    rename_i base tomux muxed tomuxs muxeds
    rw [List.forall_mem_cons] at hlen
    have hcopy : (Heap.copyPayload capacity stale base).length ≤ length := by
      unfold Heap.copyPayload
      dsimp only
      omega
    obtain ⟨hsignal, hlength⟩ := muxPayload_wholeNode node lastSequence stats _ hcap hfit hlen.1 hcopy
    rw [← hmuxed] at hsignal hlength
    obtain ⟨hsignals, hlengths⟩ := ih (by omega) hlen.2
    refine ⟨?_, List.forall_mem_cons.mpr ⟨hlength, hlengths⟩⟩
    rw [List.map_cons, List.map_cons, hsignal, hsignals]

/-! ## One read -/

/-- What the source `i` delivers in a read. -/
def Path.fetched (p : Path σ) (i : Nat) (ev : Reading) : List Payload :=
  match p.arrive i ev with
  | none => []
  | some (p, _, read) => read.map p.heap.payload

/-- A path with the single source `node`, which has `length` signals, with all of them, without hooks
and with the original sequence numbers. -/
structure Path.Simple (node length : Nat) (p : Path σ) : Prop where
  mode : p.mode = .any
  original : p.originalSequenceNo = true
  masked : 0 ∈ p.mask
  plain : p.hooks.retained = []
  single : p.sources.length = 1
  entries : p.entries 0 = [wholeNode node length]
  fits : length ≤ (p.heap.pools p.pool).capacity
  small : (p.heap.pools p.pool).capacity < 2 ^ 32
  last : (p.heap.payload p.lastSample).length ≤ length

theorem hookListProcess_plain {hs : HookList σ} (hplain : hs.retained = []) (h : Heap) (smps : List SampleId) :
    hs.hookListProcess h smps = (hs, h, smps, some smps.length) := by
  unfold HookList.hookListProcess
  rw [hplain]
  rfl

theorem muxAndFinish_hooks {ps : PathSource σ} {read : List SampleId} {i : Nat} {ev : Reading} {ret : Int}
    (hplain : p.hooks.retained = []) (hmux : p.muxAndFinish i ps read ev = some (p', ret)) :
    p'.hooks = p.hooks := by
  have hkept : (p.mux i ps read ev).1.hooks = p.hooks := rfl
  unfold Path.muxAndFinish at hmux
  generalize p.mux i ps read ev = r at *
  obtain ⟨p₂, muxed, ok⟩ := r
  dsimp only at *
  split at hmux
  · obtain ⟨p₃, he, rfl⟩ := Path.finish_cases (hookListProcess_plain (hkept.symm ▸ hplain) _ _) hmux
    obtain ⟨-, -, -, -, rfl⟩ | ⟨-, -, rfl⟩ := Path.enqueue_cases he
    · exact hkept
    · exact hkept
  · cases hmux
    exact hkept

theorem read_hooks {i : Nat} {ev : Reading} {ret : Int} (hplain : p.hooks.retained = [])
    (hread : p.pathSourceRead i ev = some (p', ret)) : p'.hooks = p.hooks := by
  obtain ⟨ps, node, heap, smps', recv, hget, hnode, ⟨hpos, hd⟩ | ⟨hpos, state, rfl, -⟩⟩ :=
    Path.pathSourceRead_cases hread
  · obtain ⟨secondaries, heap', hforward, -, hmux⟩ := Path.deliver_cases hd
    refine (muxAndFinish_hooks ?_ hmux).trans rfl
    exact hplain
  · rfl

theorem copied_onWire {capacity : Nat} {x : Payload} (h : x.length ≤ capacity) :
    (x.copied capacity).onWire = x.onWire := by
  unfold Payload.copied Payload.onWire Snapshot.onWire Payload.snapshot
  dsimp only
  rw [List.take_of_length_le]
  rw [List.length_map, List.length_range]
  exact h

theorem arrive_frame {i : Nat} {ev : Reading} {p₁ : Path σ} {ps : PathSource σ} {read : List SampleId}
    (harrive : p.arrive i ev = some (p₁, ps, read)) :
    i < p.sources.length ∧ p₁.hooks = p.hooks ∧ p₁.sources.length = p.sources.length := by
  unfold Path.arrive at harrive
  split at harrive
  · simp at harrive
  rename_i ps₀ hget
  dsimp only at harrive
  split at harrive
  · simp at harrive
  split at harrive
  · obtain ⟨⟨secondaries, heap'⟩, hforward, heq⟩ := Option.map_eq_some_iff.mp harrive
    cases heq
    exact ⟨(List.getElem?_eq_some_iff.mp hget).1, rfl, by simp⟩
  · simp at harrive

theorem Path.Simple.source_eq {node i : Nat} {ev : Reading} {p₁ : Path σ} {ps : PathSource σ}
    {read : List SampleId} (hs : p.Simple node length) (harrive : p.arrive i ev = some (p₁, ps, read)) :
    i = 0 := by
  have := (arrive_frame harrive).1
  have := hs.single
  omega

theorem silent_offers {i : Nat} {ev : Reading} (harrive : p.arrive i ev = none) :
    p.offers (.read i ev) = [] := by
  have hnone : p.enqueueCall i ev = none := by
    unfold Path.enqueueCall
    rw [harrive]
  unfold Path.offers Path.call
  dsimp only
  rw [hnone]
  rfl

/-- Without hooks all muxed samples are enqueued, unless the mux loop returns or the path is not
triggered. -/
theorem plain_enqueueCall {i : Nat} {ev : Reading} {p₁ p₂ : Path σ} {ps : PathSource σ}
    {read muxed : List SampleId} {ok : Bool} (hplain : p.hooks.retained = [])
    (harrive : p.arrive i ev = some (p₁, ps, read)) (hmux : p₁.mux i ps read ev = (p₂, muxed, ok)) :
    p.enqueueCall i ev = none ∨
      ok = true ∧ p.enqueueCall i ev = some ({ p₂ with heap := p₂.keepLast muxed }, muxed) := by
  have hhooks : p₂.hooks = p.hooks := by
    rw [← (arrive_frame harrive).2.1]
    exact (congrArg (fun r => r.1.hooks) hmux).symm
  unfold Path.enqueueCall
  rw [harrive]
  dsimp only
  rw [hmux]
  dsimp only
  cases ok with
  | false => exact .inl rfl
  | true =>
    rw [if_pos rfl, hookListProcess_plain (by rw [hhooks, hplain])]
    dsimp only
    split
    · rw [Option.map_some, List.take_length]
      exact .inr ⟨rfl, rfl⟩
    · exact .inl rfl

theorem simple_offers {node i : Nat} {ev : Reading} {p₁ : Path σ} {ps : PathSource σ}
    {read : List SampleId} (hc : Conserved z R p) (hs : p.Simple node length)
    (harrive : p.arrive i ev = some (p₁, ps, read))
    (hfull : ∀ s ∈ read, (p₁.heap.payload s).length = length) :
    p.offers (.read i ev) = [] ∨
      (p.offers (.read i ev)).map Snapshot.onWire = (read.map p₁.heap.payload).map Payload.onWire := by
  obtain rfl := hs.source_eq harrive
  have ha := arrive_spec hc harrive
  obtain ⟨R₁, hb⟩ := ha.balanced
  have hlast₁ : p₁.lastSample ∈ (p₁.heap.pools p₁.pool).blocks := by
    rw [ha.config.lastSample, ha.config.pools, ha.config.pool]
    exact hc.last
  have hown : p₁.lastSample ∈ (read : Multiset SampleId) + (p₁.ownRefs + R₁) := by
    simp [mem_ownRefs p₁]
  obtain ⟨hsame, hownRefs, -, hm⟩ := mux_spec p₁ 0 ps read ev hlast₁ hown (fun s hs => by simp [hs]) hb
  rcases hr : p₁.mux 0 ps read ev with ⟨p₂, muxed, ok⟩
  rw [hr] at hsame hownRefs hm
  dsimp only at hsame hownRefs hm
  unfold Path.offers Path.call
  dsimp only
  rcases plain_enqueueCall hs.plain harrive hr with hnone | ⟨rfl, hcall⟩
  · rw [hnone]
    exact .inl rfl
  rw [hcall]
  dsimp only [Option.map_some]
  refine .inr ?_
  have htomux : p₁.tomux read = read := by
    unfold Path.tomux
    rw [ha.config.mode, hs.mode]
  have hchain := hm.chain rfl
  rw [ha.config.originalSequenceNo, hs.original, ← ha.mappings, hs.entries, ha.config.pools,
    ha.config.pool, ha.config.lastSample, ha.last, htomux] at hchain
  have hfull' : ∀ x ∈ read.map p₁.heap.payload, x.length = length := by
    intro x hx
    obtain ⟨s, hin, rfl⟩ := List.mem_map.mp hx
    exact hfull s hin
  obtain ⟨hsignals, hlengths⟩ := muxChain_wholeNode hs.small hs.fits hs.last hfull' hchain
  -- the last sample is none of the muxed ones, and only it is written before they are enqueued
  have hkept : ∀ s ∈ muxed, (p₂.keepLast muxed).payload s = p₂.heap.payload s := by
    intro s hin
    have hb₂ : Balanced z p₂.heap ((muxed : Multiset SampleId) +
        ((read : Multiset SampleId) + (p₁.ownRefs + R₁))) := hm.balanced
    have hmem : p₂.lastSample ∈ (muxed : Multiset SampleId) +
        ((read : Multiset SampleId) + (p₁.ownRefs + R₁)) := by
      rw [hsame.lastSample]
      exact Multiset.mem_add.mpr (.inr hown)
    refine (keepLast_spec muxed hmem hb₂).2.payload s fun hlast => ?_
    rw [List.mem_singleton, hsame.lastSample] at hlast
    exact hm.fresh s hin (hlast ▸ hown)
  rw [← hsignals, List.map_map, List.map_map]
  apply List.map_congr_left
  intro s hin
  have hlen : (p₂.heap.payload s).length = length := hlengths _ (List.mem_map_of_mem hin)
  dsimp only [Function.comp_apply]
  rw [hkept s hin, copied_onWire (by rw [hlen]; exact hs.fits)]

/-! ## What stays simple -/

theorem Path.Simple.kept {node : Nat} (hs : p.Simple node length) (hconfig : SameConfig p p')
    (hhooks : p'.hooks = p.hooks) (hsources : p'.sources.length = p.sources.length)
    (hentries : p'.entries = p.entries) (hlast : (p'.heap.payload p.lastSample).length ≤ length) :
    p'.Simple node length where
  mode := hconfig.mode.trans hs.mode
  original := hconfig.originalSequenceNo.trans hs.original
  masked := by
    rw [hconfig.mask]
    exact hs.masked
  plain := by
    rw [hhooks]
    exact hs.plain
  single := hsources.trans hs.single
  entries := by
    rw [hentries]
    exact hs.entries
  fits := by
    rw [hconfig.pools, hconfig.pool]
    exact hs.fits
  small := by
    rw [hconfig.pools, hconfig.pool]
    exact hs.small
  last := by
    rw [hconfig.lastSample]
    exact hlast

theorem delivered_last {node i : Nat} {ps : PathSource σ} {ev : Reading} {tomux : List Payload}
    (hs : p.Simple node length) (hentries : ps.mappings = [wholeNode node length])
    (hfull : ∀ x ∈ tomux, x.length = length) (hd : Delivered p i ps tomux ev p') :
    (p'.heap.payload p.lastSample).length ≤ length := by
  rcases hd with ⟨-, hsame⟩ | ⟨muxed, last, -, hchain, hlast, -, -, hcopy⟩
  · rw [hsame]
    exact hs.last
  · rw [hs.original, hentries] at hchain
    obtain ⟨-, hlengths⟩ := muxChain_wholeNode hs.small hs.fits hs.last hfull hchain
    rw [hcopy]
    unfold Heap.copyPayload
    dsimp only
    rw [hlengths last (List.mem_of_getLast? hlast)]
    exact Nat.min_le_left _ _

/-- What an action makes a path receive. -/
def Path.delivered (p : Path σ) : PathAction → List Payload
  | .read i ev => p.fetched i ev
  | .timeout | .write _ _ => []

theorem fetched_of_arrive {i : Nat} {ev : Reading} {p₁ : Path σ} {ps : PathSource σ}
    {read : List SampleId} (harrive : p.arrive i ev = some (p₁, ps, read)) :
    p.fetched i ev = read.map p₁.heap.payload := by
  unfold Path.fetched
  rw [harrive]

/-- The node delivers samples with all of its signals, and the path has no rate, with which its timer
would expire. -/
def Path.Regular (length : Nat) (p : Path σ) : PathAction → Prop
  | .read i ev => ∀ x ∈ p.fetched i ev, x.length = length
  | .timeout => False
  | .write _ _ => True

instance (p : Path σ) : ∀ a, Decidable (p.Regular length a)
  | .read i ev => inferInstanceAs (Decidable (∀ x ∈ p.fetched i ev, x.length = length))
  | .timeout => inferInstanceAs (Decidable False)
  | .write _ _ => inferInstanceAs (Decidable True)

theorem simple_read {node i : Nat} {ev : Reading} {ret : Int} (hc : Conserved z R p)
    (hs : p.Simple node length) (hregular : p.Regular length (.read i ev))
    (hread : p.pathSourceRead i ev = some (p', ret)) : p'.Simple node length := by
  obtain ⟨hconfig, ⟨ps₀, ps', hget, hset, hmappings, tomux, hd₀⟩, -⟩ := pathSourceRead_spec hc hread
  refine hs.kept hconfig (read_hooks hs.plain hread) (by rw [hset, List.length_set])
    (readStep_entries hget hset hmappings) ?_
  rcases pathSourceRead_arrive hread with ⟨-, htrace, -⟩ | ⟨p₁, ps, read, harrive, hmux⟩
  · rcases hd₀ with ⟨-, hsame⟩ | ⟨muxed, last, tail, -, -, htrace', -⟩
    · rw [hsame]
      exact hs.last
    · rw [htrace] at htrace'
      exact absurd htrace' (by simp)
  obtain rfl := hs.source_eq harrive
  have ha := arrive_spec hc harrive
  obtain ⟨R₁, hb⟩ := ha.balanced
  have hlast₁ : p₁.lastSample ∈ (p₁.heap.pools p₁.pool).blocks := by
    rw [ha.config.lastSample, ha.config.pools, ha.config.pool]
    exact hc.last
  obtain ⟨-, hhooks, hsources⟩ := arrive_frame harrive
  have hlast : (p₁.heap.payload p.lastSample).length ≤ length := by
    rw [ha.last]
    exact hs.last
  have hs₁ : p₁.Simple node length := hs.kept ha.config hhooks hsources ha.entries hlast
  obtain ⟨-, -, hd, -⟩ := muxAndFinish_spec ha.nonempty hlast₁ hb hmux
  have htomux : p₁.tomux read = read := by
    unfold Path.tomux
    rw [hs₁.mode]
  rw [htomux, ← fetched_of_arrive harrive] at hd
  rw [← ha.config.lastSample]
  exact delivered_last hs₁ (ha.mappings.symm.trans hs.entries) hregular hd

theorem simple_write {node i : Nat} {rs : List DriverWrite} (hc : Conserved z R p) (hspared : p.Spared)
    (hs : p.Simple node length) (hw : p.writeTo i rs = some p') : p'.Simple node length := by
  have hu := writeTo_undisturbed hc hspared hw
  have hhooks : p'.hooks = p.hooks := by
    unfold Path.writeTo at hw
    split at hw
    · simp at hw
    · obtain ⟨w, -, rfl⟩ := Option.map_eq_some_iff.mp hw
      rfl
  have hentries : p'.entries = p.entries := by
    unfold Path.entries
    rw [hu.sources]
  refine hs.kept hu.config hhooks (by rw [hu.sources]) hentries ?_
  rw [hu.last.1]
  exact hs.last

/-! ## Runs -/

/-- The traffic of a path with all that its sources have delivered. -/
structure Wire (σ : Type*) where
  traffic : Traffic σ
  fetched : List Payload

def wireStep (b : Nat) (w : Wire σ) (a : PathAction) : Option (Wire σ) :=
  (trafficStep b w.traffic a).map fun t => ⟨t, w.fetched ++ w.traffic.path.delivered a⟩

/-- What a simple path keeps: it has offered nothing but what it received, in the same order. -/
structure Wire.Straight (z : SampleId → Sample) (b node length : Nat) (p₀ : Path σ)
    (pd₀ : PathDestination σ) (w : Wire σ) : Prop where
  channelled : w.traffic.Channelled z b p₀ pd₀
  simple : w.traffic.path.Simple node length
  offered : (w.traffic.offered.map Snapshot.onWire).Sublist (w.fetched.map Payload.onWire)

theorem wireStep_straight {node : Nat} {p₀ : Path σ} {pd₀ : PathDestination σ} {w w' : Wire σ}
    {a : PathAction} (htwo : 2 ≤ pd₀.queueSize) (hw : w.Straight z b node length p₀ pd₀)
    (hregular : w.traffic.path.Regular length a) (hstep : wireStep b w a = some w') :
    w'.Straight z b node length p₀ pd₀ := by
  obtain ⟨t, htraffic, rfl⟩ := Option.map_eq_some_iff.mp hstep
  have hchannelled := trafficStep_channelled htwo hw.channelled htraffic
  obtain ⟨p', hact, rfl⟩ := Option.map_eq_some_iff.mp htraffic
  obtain ⟨R, hc⟩ := hw.channelled.conserved
  cases a with
  | read i ev =>
    obtain ⟨⟨p'', ret⟩, hread, rfl⟩ := Option.map_eq_some_iff.mp hact
    refine ⟨hchannelled, simple_read hc hw.simple hregular hread, ?_⟩
    dsimp only
    rw [List.map_append, List.map_append]
    refine hw.offered.append ?_
    unfold Path.delivered
    dsimp only
    cases harrive : w.traffic.path.arrive i ev with
    | none =>
      rw [silent_offers harrive]
      exact List.nil_sublist _
    | some r =>
      obtain ⟨p₁, ps, read⟩ := r
      have hfetched := fetched_of_arrive harrive
      have hfull : ∀ s ∈ read, (p₁.heap.payload s).length = length := by
        intro s hin
        refine hregular _ ?_
        rw [hfetched]
        exact List.mem_map_of_mem hin
      rw [hfetched]
      rcases simple_offers hc hw.simple harrive hfull with hnone | hall
      · rw [hnone]
        exact List.nil_sublist _
      · rw [hall]
  | timeout => exact hregular.elim
  | write i rs =>
    refine ⟨hchannelled, simple_write hc hw.channelled.spared hw.simple hact, ?_⟩
    have hnone : w.traffic.path.offers (.write i rs) = [] := rfl
    dsimp only
    rw [hnone, List.append_nil, List.map_append]
    exact hw.offered.trans (List.sublist_append_left _ _)

/-- A simple path is a wire that may lose: what the driver of a destination without hooks accepts,
and what that destination still holds in its queue of at least two places, are the samples of the source in the order in which they
came, each at most once, with the sequence number, the timestamps and the values they had. -/
theorem simple_path_is_wire {node : Nat} {pd : PathDestination σ} {as : List PathAction} {w : Wire σ}
    (hc : Conserved z R p) (hspared : p.Spared) (hsep : p.Separate b) (hget : p.destinations[b]? = some pd)
    (htwo : 2 ≤ pd.queueSize) (hs : p.Simple node length)
    (hregular : Runs.Along (wireStep b) (fun w a => w.traffic.path.Regular length a) ⟨⟨p, [], []⟩, []⟩ as)
    (hrun : Runs.run (wireStep b) ⟨⟨p, [], []⟩, []⟩ as = some w) :
    ∃ pd', w.traffic.path.destinations[b]? = some pd' ∧
      ((w.traffic.accepted ++ pd'.waiting w.traffic.path.heap).map Snapshot.onWire).Sublist
        ((pd.waiting p.heap).map Snapshot.onWire ++ w.fetched.map Payload.onWire) := by
  have hinit : (⟨⟨p, [], []⟩, []⟩ : Wire σ).Straight z b node length p pd :=
    ⟨⟨⟨R, hc⟩, hspared, hsep, pd, hget, rfl, .refl _ _⟩, hs, .slnil⟩
  have hw : w.Straight z b node length p pd :=
    Runs.invariant (fun _ _ _ hw hregular hstep => wireStep_straight htwo hw hregular hstep) hinit hregular hrun
  obtain ⟨pd', hget', -, hreach⟩ := hw.channelled.channel
  refine ⟨pd', hget', ?_⟩
  have hsub : (w.traffic.accepted ++ pd'.waiting w.traffic.path.heap).Sublist
      (pd.waiting p.heap ++ w.traffic.offered) := hreach.sublist
  have hmap := hsub.map Snapshot.onWire
  have hsplit : (pd.waiting p.heap ++ w.traffic.offered).map Snapshot.onWire =
      (pd.waiting p.heap).map Snapshot.onWire ++ w.traffic.offered.map Snapshot.onWire := List.map_append
  rw [hsplit] at hmap
  exact hmap.trans (.append (.refl _) hw.offered)

theorem examplePath_simple : (examplePath .ok).Simple 0 2 where
  mode := rfl
  original := rfl
  masked := by decide
  plain := rfl
  single := rfl
  entries := rfl
  fits := by decide
  small := by decide
  last := by decide

def exampleWire : List PathAction :=
  [.read 0 (readingOf (exampleSample 7)), .read 0 (readingOf (exampleSample 8)), .write 0 [.sent 1, .fail 0]]

theorem simple_path_is_wire_example :
    ∃ w pd', Runs.run (wireStep 0) ⟨⟨examplePath .ok, [], []⟩, []⟩ exampleWire = some w ∧
      w.traffic.path.destinations[0]? = some pd' ∧ w.fetched.length = 2 ∧ w.traffic.accepted.length = 1 ∧
      ((w.traffic.accepted ++ pd'.waiting w.traffic.path.heap).map Snapshot.onWire).Sublist
        (w.fetched.map Payload.onWire) := by
  obtain ⟨w, hrun, hfetched, haccepted⟩ : ∃ w, Runs.run (wireStep 0) ⟨⟨examplePath .ok, [], []⟩, []⟩
      exampleWire = some w ∧ w.fetched.length = 2 ∧ w.traffic.accepted.length = 1 := ⟨_, rfl, rfl, rfl⟩
  have hregular : Runs.Along (wireStep 0) (fun w a => w.traffic.path.Regular 2 a)
      ⟨⟨examplePath .ok, [], []⟩, []⟩ exampleWire := by
    decide
  obtain ⟨pd', hget', hsub⟩ := simple_path_is_wire (examplePath_conserved .ok) examplePath_spared
    examplePath_separate rfl (le_refl 2) examplePath_simple hregular hrun
  exact ⟨w, pd', hrun, hget', hfetched, haccepted, hsub⟩

end VillasNode
