import VillasNode.Lib.Runs
import VillasNode.Path.Conservation

/-!
# Values carried forward

A muxed sample has, for every source that has delivered, what the mapping
entries of this source take from its most recent sample. The law goes through
the batch of one read, the last sample between two reads and any interleaving
of the sources.
-/

namespace VillasNode

variable {σ : Type*} {z : SampleId → Sample} {R : Multiset SampleId}

/-! ## Deliveries -/

/-- A sample of a source, with the statistics of its node, and the muxed sample made of it. -/
structure Delivery where
  source : Nat
  sample : Payload
  stats : Nat → Nat → Value
  muxed : Payload

def PathEvent.deliveries : PathEvent → List Delivery
  | .delivered i smps stats muxed => (smps.zip muxed).map fun x => ⟨i, x.1, stats, x.2⟩
  | .enqueued _ => []

def Path.deliveries (p : Path σ) : List Delivery := p.trace.flatMap PathEvent.deliveries

theorem deliveries_append {p p' : Path σ} {i : Nat} {smps muxed : List Payload}
    {stats : Nat → Nat → Value} {tail : List PathEvent}
    (htrace : p'.trace = p.trace ++ .delivered i smps stats muxed :: tail)
    (htail : tail = [] ∨ ∃ cnt, tail = [.enqueued cnt]) :
    p'.deliveries = p.deliveries ++ (PathEvent.delivered i smps stats muxed).deliveries := by
  unfold Path.deliveries
  rw [htrace, List.flatMap_append, List.flatMap_cons]
  rcases htail with rfl | ⟨cnt, rfl⟩
  · simp
  · simp [PathEvent.deliveries]

def latest (D : List Delivery) (i : Nat) : Option Delivery :=
  (D.filter fun x => x.source = i).getLast?

theorem latest_append (D : List Delivery) (x : Delivery) (i : Nat) :
    latest (D ++ [x]) i = if x.source = i then some x else latest D i := by
  unfold latest
  rw [List.filter_append]
  split <;> rename_i hx
  · rw [List.filter_cons_of_pos (by simpa using hx), List.filter_nil, List.getLast?_concat]
  · rw [List.filter_cons_of_neg (by simpa using hx), List.filter_nil, List.append_nil]

/-! ## Entries -/

def Path.entries (p : Path σ) (i : Nat) : List MappingEntry :=
  (p.sources[i]?.map PathSource.mappings).getD []

/-- The slots of all entries are disjoint and within the capacity of the samples. -/
structure Layout (entries : Nat → List MappingEntry) (capacity : Nat) : Prop where
  capacity_lt : capacity < 2 ^ 32
  fits : ∀ i, ∀ me ∈ entries i, me.offset + me.length ≤ capacity
  within : ∀ i, (entries i).Pairwise fun a b => ∀ slot, a.slots slot → ¬ b.slots slot
  across : ∀ i j, i ≠ j → ∀ a ∈ entries i, ∀ b ∈ entries j, ∀ slot, a.slots slot → ¬ b.slots slot

/-- The sample does not restart the simulation and has all values that the entries ask for. -/
structure Delivery.Full (entries : Nat → List MappingEntry) (x : Delivery) : Prop where
  notFirst : x.sample.flags &&& SampleFlags.isFirst = 0
  length_lt : x.sample.length < 2 ^ 32
  supplied : ∀ me ∈ entries x.source, me.suppliedBy x.sample

/-- After the deliveries `D` the sample `m` has, for each source, the values of its most recent
delivery. -/
structure Carries (entries : Nat → List MappingEntry) (D : List Delivery) (m : Payload) : Prop where
  covers : ∀ i x, latest D i = some x → ∀ me ∈ entries i, me.offset + me.length ≤ m.length
  written : ∀ i x, latest D i = some x → ∀ me ∈ entries i, ∀ slot v,
    me.written x.stats x.sample slot = some v → m.data slot = v

/-- The slots of the sources that had delivered before, up to the one of the next delivery, are
kept. -/
def Keeps (entries : Nat → List MappingEntry) (D : List Delivery) (m : Payload) (y : Delivery) :
    Prop :=
  ∀ i x, i ≠ y.source → latest D i = some x → ∀ me ∈ entries i, ∀ slot, me.slots slot →
    y.muxed.data slot = m.data slot

/-! ## One muxed sample -/

variable {entries : Nat → List MappingEntry} {capacity : Nat} {D : List Delivery}
  {original : Bool} {stats : Nat → Nat → Value}

def Payload.Agrees (a b : Payload) : Prop :=
  a.length = b.length ∧ ∀ slot < b.length, a.data slot = b.data slot

theorem copyPayload_agrees (dst : Payload) {src : Payload} (hle : src.length ≤ capacity) :
    (Heap.copyPayload capacity dst src).Agrees src := by
  unfold Heap.copyPayload Payload.Agrees
  dsimp only
  rw [Nat.min_eq_left hle]
  exact ⟨rfl, fun slot hslot => if_pos hslot⟩

theorem Carries.congr {a b : Payload} (hsized : ∀ i, ∀ me ∈ entries i, me.sized)
    (hc : Carries entries D b) (hab : a.Agrees b) : Carries entries D a := by
  constructor
  · intro i x hx me hme
    rw [hab.1]
    exact hc.covers i x hx me hme
  · intro i x hx me hme slot v hw
    have hslots := written_slots (hsized i me hme) hw
    have hcover := hc.covers i x hx me hme
    unfold MappingEntry.slots at hslots
    rw [hab.2 slot (by omega)]
    exact hc.written i x hx me hme slot v hw

theorem muxHeader_agrees (original : Bool) (lastSequence : BitVec 32) (muxed : Payload) {tomux : Payload}
    (hfirst : tomux.flags &&& SampleFlags.isFirst = 0) :
    (muxHeader original lastSequence muxed tomux).Agrees muxed := by
  obtain ⟨hlength, hdata⟩ := muxHeader_slots original lastSequence muxed tomux
  rw [if_neg (not_not.mpr hfirst)] at hlength
  exact ⟨hlength, fun slot _ => congrFun hdata slot⟩

theorem muxPayload_agrees (original : Bool) (stats : Nat → Nat → Value) (capacity : Nat)
    (lastSequence : BitVec 32) (ml : List MappingEntry) (muxed tomux : Payload) :
    (muxPayload original lastSequence stats ml capacity muxed tomux).1.Agrees
      (mappingListRemap stats capacity tomux ml (muxHeader original lastSequence muxed tomux)).1 := by
  unfold muxPayload Payload.Agrees
  dsimp only
  split
  · exact ⟨rfl, fun _ _ => rfl⟩
  · exact ⟨rfl, fun _ _ => rfl⟩

theorem Payload.Agrees.trans {a b c : Payload} (hab : a.Agrees b) (hbc : b.Agrees c) : a.Agrees c :=
  ⟨hab.1.trans hbc.1, fun slot hslot =>
    (hab.2 slot (by rw [hbc.1]; exact hslot)).trans (hbc.2 slot hslot)⟩

theorem muxPayload_carries {i : Nat} {base tomux m : Payload} {lastSequence : BitVec 32}
    {stale : Payload} (hlayout : Layout entries capacity)
    (hsized : ∀ i, ∀ me ∈ entries i, me.sized) (hbase : base.length ≤ capacity)
    (hcarry : Carries entries D base) (hfull : Delivery.Full entries ⟨i, tomux, stats, m⟩)
    (happly : ∀ me ∈ entries i, me.applies capacity)
    (hm : m = (muxPayload original lastSequence stats (entries i) capacity
      (Heap.copyPayload capacity stale base) tomux).1) :
    m.length ≤ capacity ∧ Keeps entries D base ⟨i, tomux, stats, m⟩ ∧
      Carries entries (D ++ [⟨i, tomux, stats, m⟩]) m := by
  obtain ⟨hfirst, hlen, hsup⟩ := hfull
  have hclone := (muxHeader_agrees original lastSequence
    (Heap.copyPayload capacity stale base) hfirst).trans (copyPayload_agrees stale hbase)
  have hmap := mappingListRemap_spec stats (muxHeader original lastSequence
    (Heap.copyPayload capacity stale base) tomux) hlayout.capacity_lt hlen (hlayout.fits i) hsup
    (hsized i) happly (hlayout.within i)
  have hagree := muxPayload_agrees original stats capacity lastSequence (entries i)
    (Heap.copyPayload capacity stale base) tomux
  rw [← hm] at hagree
  generalize muxHeader original lastSequence (Heap.copyPayload capacity stale base) tomux = c at *
  generalize (mappingListRemap stats capacity tomux (entries i) c).1 = r at *
  have hgrow : base.length ≤ r.length := hclone.1 ▸ hmap.length_le
  have hkeeps : Keeps entries D base ⟨i, tomux, stats, m⟩ := by
    intro j x hj hx me hme slot hslot
    have hcover := hcarry.covers j x hx me hme
    have hlt : slot < base.length := Nat.lt_of_lt_of_le hslot.2 hcover
    have hout : ∀ me' ∈ entries i, ¬ me'.slots slot :=
      fun me' hme' => hlayout.across j i hj me hme me' hme' slot hslot
    calc m.data slot = r.data slot := hagree.2 slot (by omega)
      _ = c.data slot := hmap.kept slot hout
      _ = base.data slot := hclone.2 slot hlt
  refine ⟨?_, hkeeps, ?_, ?_⟩
  · rw [hagree.1]
    exact hmap.bounded (by rw [hclone.1]; exact hbase)
  · intro j x hx me hme
    rw [hagree.1]
    rw [latest_append] at hx
    split at hx
    · rename_i hij
      subst hij
      exact hmap.covers me hme
    · exact (hcarry.covers j x hx me hme).trans hgrow
  · intro j x hx me hme slot v hw
    have hslots := written_slots (hsized j me hme) hw
    rw [latest_append] at hx
    split at hx
    · rename_i hij
      subst hij
      cases hx
      rw [hagree.2 slot (Nat.lt_of_lt_of_le hslots.2 (hmap.covers me hme))]
      exact hmap.written me hme slot v hw
    · rename_i hij
      rw [hkeeps j x (Ne.symm hij) hx me hme slot hslots]
      exact hcarry.written j x hx me hme slot v hw

/-! ## All of them -/

/-- The samples muxed so far, and the sample `base` from which the next one starts. -/
structure CarriedThrough (entries : Nat → List MappingEntry) (capacity : Nat) (D : List Delivery)
    (base : Payload) : Prop where
  bounded : base.length ≤ capacity
  carries : Carries entries D base
  each : ∀ pre x post, D = pre ++ x :: post → Carries entries (pre ++ [x]) x.muxed
  keeps : ∀ pre x y post, D = pre ++ x :: y :: post → Keeps entries (pre ++ [x]) x.muxed y
  last : ∀ pre x, D = pre ++ [x] → base.Agrees x.muxed

theorem CarriedThrough.congr {a b : Payload} (hsized : ∀ i, ∀ me ∈ entries i, me.sized)
    (hc : CarriedThrough entries capacity D b) (hab : a.Agrees b) :
    CarriedThrough entries capacity D a where
  bounded := hab.1 ▸ hc.bounded
  carries := hc.carries.congr hsized hab
  each := hc.each
  keeps := hc.keeps
  last := fun pre x hD => hab.trans (hc.last pre x hD)

theorem CarriedThrough.snoc {base : Payload} {x : Delivery}
    (hc : CarriedThrough entries capacity D base) (hbounded : x.muxed.length ≤ capacity)
    (hkeeps : Keeps entries D base x) (hcarries : Carries entries (D ++ [x]) x.muxed) :
    CarriedThrough entries capacity (D ++ [x]) x.muxed := by
  refine ⟨hbounded, hcarries, ?_, ?_, ?_⟩
  · intro pre y post hD
    rcases List.eq_nil_or_concat' post with rfl | ⟨post', x', rfl⟩
    · obtain ⟨rfl, hx⟩ := List.append_inj' hD rfl
      cases hx
      exact hcarries
    · rw [← List.cons_append, ← List.append_assoc] at hD
      obtain ⟨hD, -⟩ := List.append_inj' hD rfl
      exact hc.each pre y post' hD
  · intro pre y y' post hD
    rcases List.eq_nil_or_concat' post with rfl | ⟨post', x', rfl⟩
    · -- `y` was the last delivery before `x`, and `base` has its values.
      rw [List.append_cons pre y] at hD
      obtain ⟨hpre, hx⟩ := List.append_inj' hD rfl
      cases hx
      have hagree := hc.last pre y hpre
      subst hpre
      intro i d hi hd me hme slot hslot
      have hcover := hc.carries.covers i d hd me hme
      rw [hkeeps i d hi hd me hme slot hslot]
      exact hagree.2 slot (by rw [← hagree.1]; exact Nat.lt_of_lt_of_le hslot.2 hcover)
    · rw [← List.cons_append, ← List.cons_append, ← List.append_assoc] at hD
      obtain ⟨hD, -⟩ := List.append_inj' hD rfl
      exact hc.keeps pre y y' post' hD
  · intro pre y hD
    obtain ⟨-, hx⟩ := List.append_inj' hD rfl
    cases hx
    exact ⟨rfl, fun _ _ => rfl⟩

theorem MuxChain.carried {i : Nat} {base : Payload} {tomux muxed : List Payload}
    (hlayout : Layout entries capacity) (hsized : ∀ i, ∀ me ∈ entries i, me.sized)
    (hchain : MuxChain original stats (entries i) capacity base tomux muxed)
    (hfull : ∀ x ∈ (PathEvent.delivered i tomux stats muxed).deliveries, x.Full entries)
    (hc : CarriedThrough entries capacity D base) :
    CarriedThrough entries capacity (D ++ (PathEvent.delivered i tomux stats muxed).deliveries)
      (muxed.getLast?.getD base) := by
  induction hchain generalizing D with
  | nil base =>
    rw [show (PathEvent.delivered i [] stats []).deliveries = [] from rfl, List.append_nil]
    exact hc
  | cons lastSequence stale happly hmuxed hrest ih =>
    rename_i base tomux m tomuxs muxeds
    rw [show (PathEvent.delivered i (tomux :: tomuxs) stats (m :: muxeds)).deliveries =
      ⟨i, tomux, stats, m⟩ :: (PathEvent.delivered i tomuxs stats muxeds).deliveries from rfl] at hfull ⊢
    rw [List.forall_mem_cons] at hfull
    obtain ⟨hbounded, hkeeps, hcarries⟩ := muxPayload_carries hlayout hsized hc.bounded hc.carries
      hfull.1 happly hmuxed
    rw [List.append_cons, List.getLast?_cons, Option.getD_some]
    exact ih hfull.2 (hc.snoc (x := ⟨i, tomux, stats, m⟩) hbounded hkeeps hcarries)

/-! ## Runs -/

def readStep (p : Path σ) (a : Nat × Reading) : Option (Path σ) :=
  (p.pathSourceRead a.1 a.2).map Prod.fst

theorem entries_of_get {p : Path σ} {i : Nat} {ps : PathSource σ} (hget : p.sources[i]? = some ps) :
    p.entries i = ps.mappings := by
  unfold Path.entries
  rw [hget]
  rfl

theorem readStep_entries {p p' : Path σ} {i : Nat} {ps ps' : PathSource σ}
    (hget : p.sources[i]? = some ps) (hset : p'.sources = p.sources.set i ps')
    (hmap : ps'.mappings = ps.mappings) : p'.entries = p.entries := by
  funext j
  unfold Path.entries
  rw [hset, List.getElem?_set]
  split
  · rename_i hij
    subst hij
    rw [hget, if_pos (List.getElem?_eq_some_iff.mp hget).1]
    exact hmap
  · rfl

structure Carrying (z : SampleId → Sample) (p₀ p : Path σ) : Prop where
  conserved : ∃ R, Conserved z R p
  config : SameConfig p₀ p
  entries : p.entries = p₀.entries
  carried : (∀ x ∈ p.deliveries, x.Full p₀.entries) →
    CarriedThrough p₀.entries (p₀.heap.pools p₀.pool).capacity p.deliveries
      (p.heap.payload p.lastSample)

theorem readStep_carrying {p₀ p p' : Path σ} {a : Nat × Reading}
    (hlayout : Layout p₀.entries (p₀.heap.pools p₀.pool).capacity)
    (hsized : ∀ i, ∀ me ∈ p₀.entries i, me.sized) (hc : Carrying z p₀ p)
    (hstep : readStep p a = some p') : Carrying z p₀ p' := by
  obtain ⟨⟨R, hcons⟩, hconfig, hentries, hcarried⟩ := hc
  obtain ⟨⟨p'', ret⟩, hread, rfl⟩ := Option.map_eq_some_iff.mp hstep
  obtain ⟨hsame, ⟨ps, ps', hget, hset, hmap, tomux, hdel⟩, -, lost, hcons', -⟩ :=
    pathSourceRead_spec hcons hread
  have hentries' := readStep_entries hget hset hmap
  refine ⟨⟨_, hcons'⟩, hconfig.trans hsame, hentries'.trans hentries, fun hfull => ?_⟩
  dsimp only at hfull ⊢
  rw [hsame.lastSample]
  rcases hdel with ⟨htrace, hpayload⟩ | ⟨muxed, last, tail, hchain, hlast, htrace, htail, hpayload⟩
  · unfold Path.deliveries at hfull ⊢
    rw [htrace] at hfull ⊢
    rw [hpayload]
    exact hcarried hfull
  · have hD : p''.deliveries =
        p.deliveries ++ (PathEvent.delivered a.1 tomux a.2.stats muxed).deliveries :=
      deliveries_append htrace htail
    rw [hD, List.forall_mem_append] at hfull
    rw [← entries_of_get hget, hentries, hconfig.pools, hconfig.pool] at hchain
    have hnew := hchain.carried hlayout hsized hfull.2 (hcarried hfull.1)
    rw [hlast, Option.getD_some] at hnew
    rw [hD, hpayload, hconfig.pools, hconfig.pool]
    exact hnew.congr hsized (copyPayload_agrees _ hnew.bounded)

/-- A path after `path_start`: nothing has been read yet. -/
structure Path.Fresh (z : SampleId → Sample) (R : Multiset SampleId) (p : Path σ) : Prop where
  conserved : Conserved z R p
  trace : p.trace = []
  length : (p.heap.payload p.lastSample).length = 0

/-- In every run of reads, every muxed sample and in the end the last sample have the values of the
most recent deliveries, and a delivery keeps the slots of the other sources. -/
theorem mux_carries_forward {p₀ p : Path σ} {reads : List (Nat × Reading)} (hfresh : p₀.Fresh z R)
    (hlayout : Layout p₀.entries (p₀.heap.pools p₀.pool).capacity)
    (hsized : ∀ i, ∀ me ∈ p₀.entries i, me.sized) (hrun : Runs.run readStep p₀ reads = some p)
    (hfull : ∀ x ∈ p.deliveries, x.Full p₀.entries) :
    (∀ pre x post, p.deliveries = pre ++ x :: post → Carries p₀.entries (pre ++ [x]) x.muxed) ∧
      (∀ pre x y post, p.deliveries = pre ++ x :: y :: post →
        Keeps p₀.entries (pre ++ [x]) x.muxed y) ∧
      Carries p₀.entries p.deliveries (p.heap.payload p.lastSample) := by
  have hnil : p₀.deliveries = [] := by
    unfold Path.deliveries
    rw [hfresh.trace]
    rfl
  have hinit : Carrying z p₀ p₀ := by
    refine ⟨⟨R, hfresh.conserved⟩, .refl p₀, rfl, fun _ => ?_⟩
    rw [hnil]
    refine ⟨?_, ⟨?_, ?_⟩, ?_, ?_, ?_⟩
    · rw [hfresh.length]
      exact Nat.zero_le _
    · intro i x hx
      cases hx
    · intro i x hx
      cases hx
    · intro pre x post hD
      simp at hD
    · intro pre x y post hD
      simp at hD
    · intro pre x hD
      simp at hD
  have hend := Runs.always (fun s a s' hs hstep => readStep_carrying hlayout hsized hs hstep) hinit hrun
  obtain ⟨-, hcarries, heach, hkeeps, -⟩ := hend.carried hfull
  exact ⟨heach, hkeeps, hcarries⟩

/-! ## A timestamp in front of the data of another source -/

/-- `in = ["a.ts.origin", "b.data[0]"]`, where the entry of the timestamp has the length `n`. -/
def timestampPath (n : Nat) : Path Unit :=
  { examplePath .ok with
    mask := {0, 1}
    sources := [exampleSource noHooks 0 [⟨0, .timestamp .origin, n, 0⟩],
      exampleSource noHooks 2 [⟨1, .data 0, 1, n⟩]] }

def timestampSample : Nat → Payload
  | 0 => { exampleSample 0 with origin := ⟨7, 8⟩ }
  | _ => { exampleSample 0 with data := fun _ => 42 }

def timestampReads : List (Nat × Reading) :=
  [(1, readingOf (timestampSample 1)), (0, readingOf (timestampSample 0))]

theorem timestampPath_fresh (n : Nat) : (timestampPath n).Fresh exampleHeap.samples 0 :=
  ⟨⟨exampleHeap_balanced, (examplePath_conserved .ok).last⟩, rfl, rfl⟩

theorem mem_timestampPath_entries {n i : Nat} {me : MappingEntry}
    (hme : me ∈ (timestampPath n).entries i) :
    i = 0 ∧ me = ⟨0, .timestamp .origin, n, 0⟩ ∨ i = 1 ∧ me = ⟨1, .data 0, 1, n⟩ := by
  rcases i with _ | _ | i
  · exact .inl ⟨rfl, List.mem_singleton.mp hme⟩
  · exact .inr ⟨rfl, List.mem_singleton.mp hme⟩
  · cases hme

theorem timestampPath_layout {n : Nat} (hn : n ≤ 3) : Layout (timestampPath n).entries 4 := by
  refine ⟨by decide, ?_, ?_, ?_⟩
  · intro i me hme
    rcases mem_timestampPath_entries hme with ⟨-, rfl⟩ | ⟨-, rfl⟩
    · dsimp only
      omega
    · dsimp only
      omega
  · rintro (_ | _ | i)
    · exact List.pairwise_singleton ..
    · exact List.pairwise_singleton ..
    · exact .nil
  · intro i j hij a ha b hb slot
    unfold MappingEntry.slots
    rcases mem_timestampPath_entries ha with ⟨rfl, rfl⟩ | ⟨rfl, rfl⟩ <;>
      rcases mem_timestampPath_entries hb with ⟨rfl, rfl⟩ | ⟨rfl, rfl⟩ <;>
      dsimp only <;> omega

theorem timestampSample_spec (i : Nat) :
    (timestampSample i).flags = SampleFlags.hasData ∧ (timestampSample i).length = 2 := by
  rcases i with _ | i
  · exact ⟨rfl, rfl⟩
  · exact ⟨rfl, rfl⟩

theorem timestampSample_full (n : Nat) {D : List Delivery}
    (hD : D.map Delivery.sample = D.map fun x => timestampSample x.source) :
    ∀ x ∈ D, x.Full (timestampPath n).entries := by
  intro x hx
  have hsample := List.map_inj_left.mp hD x hx
  obtain ⟨hflags, hlength⟩ := timestampSample_spec x.source
  rw [← hsample] at hflags hlength
  refine ⟨?_, ?_, fun me hme => ?_⟩
  · rw [hflags]
    decide
  · rw [hlength]
    decide
  · rcases mem_timestampPath_entries hme with ⟨-, rfl⟩ | ⟨-, rfl⟩
    · trivial
    · show 0 + 1 ≤ x.sample.length
      omega

/-- With the length 0 the entries are disjoint, but `a` writes to the slot of `b`. -/
theorem mux_overwrites_other :
    ∃ p, Runs.run readStep (timestampPath 0) timestampReads = some p ∧
      (timestampPath 0).Fresh exampleHeap.samples 0 ∧ Layout (timestampPath 0).entries 4 ∧
      (∀ x ∈ p.deliveries, x.Full (timestampPath 0).entries) ∧
      ¬ ∀ pre x post, p.deliveries = pre ++ x :: post →
        Carries (timestampPath 0).entries (pre ++ [x]) x.muxed := by
  refine ⟨_, rfl, timestampPath_fresh 0, timestampPath_layout (by decide),
    timestampSample_full 0 rfl, fun hall => ?_⟩
  have hc := hall [_] _ [] rfl
  have hslot := hc.written 1 _ rfl _ (List.mem_singleton.mpr rfl) 0 42 rfl
  exact absurd hslot (by decide)

theorem mux_carries_timestamp :
    ∃ p, Runs.run readStep (timestampPath 2) timestampReads = some p ∧
      (p.heap.payload p.lastSample).data 2 = 42 ∧
      Carries (timestampPath 2).entries p.deliveries (p.heap.payload p.lastSample) := by
  obtain ⟨p, hrun⟩ : ∃ p, Runs.run readStep (timestampPath 2) timestampReads = some p := ⟨_, rfl⟩
  have hfull : ∀ x ∈ p.deliveries, x.Full (timestampPath 2).entries := by
    cases hrun
    exact timestampSample_full 2 rfl
  have hsized : ∀ i, ∀ me ∈ (timestampPath 2).entries i, me.sized := by
    intro i me hme
    rcases mem_timestampPath_entries hme with ⟨-, rfl⟩ | ⟨-, rfl⟩
    · exact Nat.le_refl 2
    · trivial
  refine ⟨p, hrun, ?_, (mux_carries_forward (timestampPath_fresh 2)
    (timestampPath_layout (by decide)) hsized hrun hfull).2.2⟩
  cases hrun
  decide

end VillasNode
