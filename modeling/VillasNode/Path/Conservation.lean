import VillasNode.Path.Enqueue

/-!
# Conservation of samples

What `path_source_read` takes from the pools it either gives back, or it is
held by the path, its sources or its destinations, or it is lost. It is said
exactly when nothing is lost.
-/

namespace VillasNode

variable {σ : Type*} {z : SampleId → Sample} {h h' : Heap} {R : Multiset SampleId}
  {smps : List SampleId} {p p' : Path σ} {i : Nat}

/-! ## Who may hold a sample -/

/-- The samples that the hooks of a source retain, and those in the queues of its secondaries. -/
def PathSource.refs (ps : PathSource σ) : Multiset SampleId :=
  retainedRefs ps.node.hooks.retained + queueRefs ps.secondaries

def sourceRefs : List (PathSource σ) → Multiset SampleId
  | [] => 0
  | ps :: pss => ps.refs + sourceRefs pss

theorem total_set {α : Type*} {refs : α → Multiset SampleId} {total : List α → Multiset SampleId}
    (hcons : ∀ x xs, total (x :: xs) = refs x + total xs) {xs : List α} {x : α}
    (hget : xs[i]? = some x) :
    ∃ rest, total xs = refs x + rest ∧ ∀ x', total (xs.set i x') = refs x' + rest := by
  induction xs generalizing i with
  | nil => simp at hget
  | cons x₀ xs ih =>
    cases i with
    | zero =>
      cases hget
      exact ⟨total xs, hcons x xs, fun x' => hcons x' xs⟩
    | succ i =>
      obtain ⟨rest, heq, hset⟩ := ih hget
      refine ⟨refs x₀ + rest, ?_, fun x' => ?_⟩
      · rw [hcons, heq, add_left_comm]
      · rw [List.set_cons_succ, hcons, hset, add_left_comm]

theorem sourceRefs_set {pss : List (PathSource σ)} {ps : PathSource σ} (hget : pss[i]? = some ps) :
    ∃ rest, sourceRefs pss = ps.refs + rest ∧
      ∀ ps', sourceRefs (pss.set i ps') = ps'.refs + rest :=
  total_set (fun _ _ => rfl) hget

/-- What the path itself retains and what its destinations hold. -/
def Path.ownRefs (p : Path σ) : Multiset SampleId :=
  {p.lastSample} + (retainedRefs p.hooks.retained + destinationRefs p.destinations)

def Path.refs (p : Path σ) : Multiset SampleId := sourceRefs p.sources + p.ownRefs

/-- Every block of a pool is free, or held exactly by the path, its sources and its destinations,
and by `R` outside of it. -/
structure Conserved (z : SampleId → Sample) (R : Multiset SampleId) (p : Path σ) : Prop where
  balanced : Balanced z p.heap (p.refs + R)
  last : p.lastSample ∈ (p.heap.pools p.pool).blocks

/-! ## Behind the mux loop -/

theorem keepLast_spec (muxed : List SampleId) (hlast : p.lastSample ∈ R)
    (hb : Balanced z p.heap R) :
    Balanced z (p.keepLast muxed) R ∧ Touches [p.lastSample] p.heap (p.keepLast muxed) := by
  unfold Path.keepLast
  split
  · exact ⟨hb, .refl _ _⟩
  · exact ⟨hb.setPayload hlast _, .setPayload List.mem_cons_self _⟩

/-- The configuration of a path, which nothing here changes. -/
structure SameConfig (p p' : Path σ) : Prop where
  mode : p'.mode = p.mode
  mask : p'.mask = p.mask
  pool : p'.pool = p.pool
  lastSample : p'.lastSample = p.lastSample
  originalSequenceNo : p'.originalSequenceNo = p.originalSequenceNo
  pools : p'.heap.pools = p.heap.pools

/-- If the read triggers the path, no hook reports an error, and the queue of every destination has
room for the clones that are made. -/
def Path.fits (p : Path σ) (i : Nat) (toenqueue : Option Nat) : Prop :=
  p.triggered i → ∃ cnt, toenqueue = some cnt ∧
    ∀ pd ∈ p.destinations, clonesOf p.heap p.pool cnt ≤ pd.room

theorem enqueue_spec {ret : Int} {muxed : List SampleId} {toenqueue : Option Nat}
    (hmuxed : ∀ s ∈ muxed, s ∈ R) (hle : ∀ n ∈ toenqueue, n ≤ muxed.length)
    (hblock : ∀ s ∈ muxed, s ∈ (p.heap.pools p.pool).blocks)
    (hb : Balanced z p.heap (destinationRefs p.destinations + R))
    (he : p.enqueue i muxed toenqueue = some (p', ret)) :
    SameConfig p p' ∧ p'.sources = p.sources ∧ p'.hooks = p.hooks ∧
      (∀ s ∈ R, p'.heap.payload s = p.heap.payload s) ∧
      ∃ lost : Multiset SampleId,
        Balanced z p'.heap (destinationRefs p'.destinations + (lost + R)) ∧
        (lost = 0 ↔ p.fits i toenqueue) := by
  unfold Path.fits
  obtain ⟨htrig, cnt, rfl, -, rfl⟩ | ⟨htrig, -, rfl⟩ := Path.enqueue_cases he
  · obtain ⟨lost, hb₁, hpools, hpayload, hlost⟩ := pathDestinationEnqueue_spec p.destinations
      (fun s hs => hmuxed s (List.mem_of_mem_take hs)) (fun s hs => hblock s (List.mem_of_mem_take hs)) hb
    refine ⟨⟨rfl, rfl, rfl, rfl, rfl, hpools⟩, rfl, rfl, fun s hs => ?_, lost, hb₁, ?_⟩
    · exact hpayload s (Multiset.mem_add.mpr (.inr hs))
    · have hlen : (muxed.take cnt).length = cnt := List.length_take_of_le (hle cnt rfl)
      rw [hlost, hlen, forall_prop_of_true htrig]
      simp only [Option.some.injEq, exists_eq_left']
  · refine ⟨⟨rfl, rfl, rfl, rfl, rfl, rfl⟩, rfl, rfl, fun s hs => rfl, 0, ?_, ?_⟩
    · rwa [zero_add]
    · simp [htrig]

/-- If the read triggers the path, every destination has room for what the hooks of the path let
pass. -/
def Path.enqueueFits (p : Path σ) (i : Nat) (muxed : List SampleId) : Prop :=
  let (hooks, heap, _, toenqueue) := p.hooks.hookListProcess (p.keepLast muxed) muxed
  { p with heap, hooks }.fits i toenqueue

theorem finish_spec {ret : Int} {read muxed : List SampleId}
    (hblock : ∀ m ∈ muxed, m ∈ (p.heap.pools p.pool).blocks)
    (hb : Balanced z p.heap ((muxed : Multiset SampleId) + ((read : Multiset SampleId) + (p.ownRefs + R))))
    (hf : p.finish i read muxed = some (p', ret)) :
    SameConfig p p' ∧ p'.sources = p.sources ∧
      (∀ s ∈ {p.lastSample} + ((read : Multiset SampleId) + R), s ∉ muxed →
        p'.heap.payload s = (p.keepLast muxed).payload s) ∧
      ∃ lost : Multiset SampleId,
        Balanced z p'.heap (p'.ownRefs + (lost + R)) ∧ (lost = 0 ↔ p.enqueueFits i muxed) := by
  have hmem : p.lastSample ∈
      (muxed : Multiset SampleId) + ((read : Multiset SampleId) + (p.ownRefs + R)) := by
    unfold Path.ownRefs
    simp
  obtain ⟨hb₁, ht₁⟩ := keepLast_spec muxed hmem hb
  have hb₁' : Balanced z (p.keepLast muxed) (retainedRefs p.hooks.retained + ((muxed : Multiset SampleId) +
      ((read : Multiset SampleId) + ({p.lastSample} + (destinationRefs p.destinations + R))))) := by
    convert hb₁ using 1
    unfold Path.ownRefs
    abel
  have hp := hookListProcess_spec p.hooks muxed hb₁'
  unfold Path.enqueueFits
  rcases hr : p.hooks.hookListProcess (p.keepLast muxed) muxed with ⟨hooks, h₂, muxed₂, toenqueue⟩
  obtain ⟨p₃, he, rfl⟩ := Path.finish_cases hr hf
  rw [hr] at hp
  obtain ⟨hb₂, hperm, ht₂, hle⟩ := hp
  dsimp only at hb₂ hperm ht₂ hle ⊢
  have hcoe : (muxed₂ : Multiset SampleId) = muxed := Multiset.coe_eq_coe.mpr hperm
  have hpools : h₂.pools = p.heap.pools := ht₂.pools.trans ht₁.pools
  rw [← hcoe] at hb₂
  -- The ledger as `path_destination_enqueue` finds it.
  have hb₃ : Balanced z h₂ (destinationRefs p.destinations + ((muxed₂ : Multiset SampleId) +
      ((read : Multiset SampleId) + ({p.lastSample} + (retainedRefs hooks.retained + R))))) := by
    convert hb₂ using 1
    abel
  obtain ⟨hsame, hsources, hhooks, hpayload, lost, hb₄, hlost⟩ := enqueue_spec
    (p := { p with heap := h₂, hooks })
    (fun s hs => Multiset.mem_add.mpr (.inl (Multiset.mem_coe.mpr hs)))
    (by rw [hperm.length_eq]; exact hle)
    (fun s hs => by rw [hpools]; exact hblock s (hperm.mem_iff.mp hs)) hb₃ he
  dsimp only at *
  have hb₅ : Balanced z p₃.heap ((muxed₂ : Multiset SampleId) + ((read : Multiset SampleId) +
      (p₃.ownRefs + (lost + R)))) := by
    convert hb₄ using 1
    unfold Path.ownRefs
    rw [hhooks, hsame.lastSample]
    abel
  have ht₆ := (Touches.decrefMany p₃.heap muxed₂ []).trans (.decrefMany _ read [])
  refine ⟨⟨hsame.mode, hsame.mask, hsame.pool, hsame.lastSample, hsame.originalSequenceNo, ?_⟩,
    hsources, ?_, lost, hb₅.decrefMany.decrefMany, hlost⟩
  · exact ht₆.pools.trans (hsame.pools.trans hpools)
  · intro s hs hnot
    have hheld : s ∈ (muxed₂ : Multiset SampleId) + ((read : Multiset SampleId) +
        ({p.lastSample} + (retainedRefs hooks.retained + R))) := by
      simp only [Multiset.mem_add] at hs ⊢
      rcases hs with hlast | hread | hR
      · exact .inr (.inr (.inl hlast))
      · exact .inr (.inl hread)
      · exact .inr (.inr (.inr (.inr hR)))
    rw [ht₆.payload _ (by simp), hpayload s hheld]
    exact ht₂.payload _ hnot

/-! ## From `node_read` on -/

theorem SameConfig.refl (p : Path σ) : SameConfig p p := ⟨rfl, rfl, rfl, rfl, rfl, rfl⟩

theorem SameConfig.trans {p₁ p₂ p₃ : Path σ} (h₁ : SameConfig p₁ p₂) (h₂ : SameConfig p₂ p₃) :
    SameConfig p₁ p₃ :=
  ⟨h₂.mode.trans h₁.mode, h₂.mask.trans h₁.mask, h₂.pool.trans h₁.pool,
    h₂.lastSample.trans h₁.lastSample, h₂.originalSequenceNo.trans h₁.originalSequenceNo,
    h₂.pools.trans h₁.pools⟩

theorem mem_ownRefs (p : Path σ) : p.lastSample ∈ p.ownRefs := by
  unfold Path.ownRefs
  simp

theorem tomux_subset (p : Path σ) (read : List SampleId) : ∀ s ∈ p.tomux read, s ∈ read := by
  unfold Path.tomux
  cases p.mode with
  | any => exact fun s hs => hs
  | all => exact fun s hs => List.mem_of_mem_drop hs

theorem tomux_ne_nil (p : Path σ) {read : List SampleId} (hread : read ≠ []) :
    p.tomux read ≠ [] := by
  have hpos := List.length_pos_iff.mpr hread
  unfold Path.tomux
  cases p.mode with
  | any => exact hread
  | all =>
    intro hnil
    rw [List.drop_eq_nil_iff] at hnil
    omega

theorem mux_spec (p : Path σ) (i : Nat) (ps : PathSource σ) (read : List SampleId) (ev : Reading)
    (hlast : p.lastSample ∈ (p.heap.pools p.pool).blocks) (hown : p.lastSample ∈ R)
    (hread : ∀ s ∈ read, s ∈ R) (hb : Balanced z p.heap R) :
    SameConfig p (p.mux i ps read ev).1 ∧
      (p.mux i ps read ev).1.ownRefs = p.ownRefs ∧
      (p.mux i ps read ev).1.sources = p.sources ∧
      Muxed z R p.pool p.originalSequenceNo ev.stats ps.mappings p.heap p.lastSample
        (p.tomux read) (p.mux i ps read ev).1.heap (p.mux i ps read ev).2.1
        (p.mux i ps read ev).2.2 := by
  have hm := muxLoop_spec p.originalSequenceNo ev.stats ps.mappings p.lastSequence p.lastSample
    (p.tomux read) hb hown hlast fun s hs => hread s (tomux_subset p read s hs)
  exact ⟨⟨rfl, rfl, rfl, rfl, rfl, hm.touches.pools⟩, rfl, rfl, hm⟩

/-- The contents of the last sample, and the trace, after a read. -/
def Delivered (p : Path σ) (i : Nat) (ps : PathSource σ) (tomux : List Payload) (ev : Reading)
    (p' : Path σ) : Prop :=
  (p'.trace = p.trace ∧ p'.heap.payload p.lastSample = p.heap.payload p.lastSample) ∨
    ∃ muxed last tail,
      MuxChain p.originalSequenceNo ev.stats ps.mappings (p.heap.pools p.pool).capacity
        (p.heap.payload p.lastSample) tomux muxed ∧
      muxed.getLast? = some last ∧
      p'.trace = p.trace ++ .delivered i tomux ev.stats muxed :: tail ∧
      (tail = [] ∨ ∃ cnt, tail = [.enqueued cnt]) ∧
      p'.heap.payload p.lastSample = Heap.copyPayload (p.heap.pools p.pool).capacity
        (p.heap.payload p.lastSample) last

theorem finish_trace {ret : Int} {read muxed : List SampleId}
    (hf : p.finish i read muxed = some (p', ret)) :
    ∃ tail, p'.trace = p.trace ++ tail ∧ (tail = [] ∨ ∃ cnt, tail = [.enqueued cnt]) := by
  obtain ⟨p₃, he, rfl⟩ := Path.finish_cases rfl hf
  obtain ⟨-, cnt, -, -, rfl⟩ | ⟨-, -, rfl⟩ := Path.enqueue_cases he
  · exact ⟨_, rfl, .inr ⟨_, rfl⟩⟩
  · exact ⟨[], (List.append_nil _).symm, .inl rfl⟩

theorem keepLast_payload {muxed : List SampleId} {m : SampleId} (hm : muxed.getLast? = some m)
    (hlast : p.lastSample ∈ (p.heap.pools p.pool).blocks) (hown : p.lastSample ∈ R)
    (hb : Balanced z p.heap R) :
    (p.keepLast muxed).payload p.lastSample = Heap.copyPayload (p.heap.pools p.pool).capacity
      (p.heap.payload p.lastSample) (p.heap.payload m) := by
  unfold Path.keepLast
  rw [hm]
  dsimp only
  unfold Heap.sampleCopy
  rw [Heap.setPayload_payload, if_pos rfl, (hb.held_in hown hlast).2]

/-- The pool of the path has a block for every muxed sample, every mapping entry applies and the
destinations have room. -/
def Path.muxFits (p : Path σ) (i : Nat) (ps : PathSource σ) (read : List SampleId) (ev : Reading) :
    Prop :=
  (p.tomux read).length ≤ (p.heap.free p.pool).length ∧
    (∀ me ∈ ps.mappings, me.applies (p.heap.pools p.pool).capacity) ∧
    (p.mux i ps read ev).1.enqueueFits i (p.mux i ps read ev).2.1

theorem muxAndFinish_spec {ps : PathSource σ} {read : List SampleId} {ev : Reading} {ret : Int}
    (hread : read ≠ []) (hlast : p.lastSample ∈ (p.heap.pools p.pool).blocks)
    (hb : Balanced z p.heap ((read : Multiset SampleId) + (p.ownRefs + R)))
    (hmux : p.muxAndFinish i ps read ev = some (p', ret)) :
    SameConfig p p' ∧ p'.sources = p.sources ∧
      Delivered p i ps ((p.tomux read).map p.heap.payload) ev p' ∧
      (∀ s ∈ R, s ≠ p.lastSample → p'.heap.payload s = p.heap.payload s) ∧
      ∃ lost : Multiset SampleId,
        Balanced z p'.heap (p'.ownRefs + (lost + R)) ∧ (lost = 0 ↔ p.muxFits i ps read ev) := by
  have hown : p.lastSample ∈ (read : Multiset SampleId) + (p.ownRefs + R) := by
    have := mem_ownRefs p
    simp [this]
  obtain ⟨hsame, hownRefs, hsources, hm⟩ := mux_spec p i ps read ev hlast hown
    (fun s hs => by simp [hs]) hb
  have hok : (p.mux i ps read ev).2.2 = true ↔ (p.tomux read).length ≤ (p.heap.free p.pool).length ∧
      ∀ me ∈ ps.mappings, me.applies (p.heap.pools p.pool).capacity :=
    hm.ok_iff.trans (or_iff_right (tomux_ne_nil p hread))
  have htrace : (p.mux i ps read ev).1.trace = if (p.mux i ps read ev).2.2 then
      p.trace ++ [.delivered i ((p.tomux read).map p.heap.payload) ev.stats
        ((p.mux i ps read ev).2.1.map (p.mux i ps read ev).1.heap.payload)] else p.trace := rfl
  have hnotin : p.lastSample ∉ (p.mux i ps read ev).2.1 := fun hmem => hm.fresh _ hmem hown
  have hbase := hm.touches.payload _ hnotin
  have hframe : ∀ s ∈ R, (p.mux i ps read ev).1.heap.payload s = p.heap.payload s := by
    intro s hs
    exact hm.touches.payload s fun hmem => hm.fresh s hmem (by simp [hs])
  have hfits : p.muxFits i ps read ev ↔ (p.mux i ps read ev).2.2 = true ∧
      (p.mux i ps read ev).1.enqueueFits i (p.mux i ps read ev).2.1 := by
    unfold Path.muxFits
    rw [hok, and_assoc]
  rw [hfits]
  unfold Path.muxAndFinish at hmux
  generalize p.mux i ps read ev = r at *
  obtain ⟨p₁, muxed, ok⟩ := r
  dsimp only at *
  cases ok with
  | false =>
    -- Returns at once: nothing that was read or muxed is released.
    rw [if_neg Bool.false_ne_true] at hmux
    cases hmux
    refine ⟨hsame, hsources, .inl ⟨htrace, hbase⟩, fun s hs _ => hframe s hs,
      (read : Multiset SampleId) + muxed, ?_, ?_⟩
    · convert hm.balanced using 1
      rw [hownRefs]
      abel
    · simp [hread]
  | true =>
    rw [if_pos rfl] at hmux
    have hlast₁ : p₁.lastSample ∈ (p₁.heap.pools p₁.pool).blocks := by
      rw [hsame.pools, hsame.pool, hsame.lastSample]
      exact hlast
    have hblock₁ : ∀ m ∈ muxed, m ∈ (p₁.heap.pools p₁.pool).blocks := by
      intro m hmem
      rw [hsame.pools, hsame.pool]
      exact hm.block m hmem
    have hb₁ := hm.balanced
    rw [← hownRefs] at hb₁
    have hown₁ : p₁.lastSample ∈ (muxed : Multiset SampleId) + ((read : Multiset SampleId) +
        (p₁.ownRefs + R)) := by
      have := mem_ownRefs p₁
      simp [this]
    have hnotin₁ : p₁.lastSample ∉ muxed := by
      rw [hsame.lastSample]
      exact hnotin
    obtain ⟨hsame₂, hsources₂, hpayload₂, lost, hb₂, hlost⟩ := finish_spec hblock₁ hb₁ hmux
    refine ⟨hsame.trans hsame₂, hsources₂.trans hsources, .inr ?_, ?_, lost, hb₂, ?_⟩
    · have hne : muxed ≠ [] := by
        rw [← List.length_pos_iff, hm.length rfl]
        exact List.length_pos_iff.mpr (tomux_ne_nil p hread)
      have hgetLast : muxed.getLast? = some (muxed.getLast hne) :=
        List.getLast?_eq_getLast_of_ne_nil hne
      obtain ⟨tail, htail, htail'⟩ := finish_trace hmux
      refine ⟨muxed.map p₁.heap.payload, p₁.heap.payload (muxed.getLast hne), tail, hm.chain rfl,
        ?_, ?_, htail', ?_⟩
      · rw [List.getLast?_map, hgetLast]
        rfl
      · rw [htail, htrace, if_pos rfl, List.append_assoc]
        rfl
      · rw [← hsame.lastSample, hpayload₂ _ (by simp) hnotin₁, keepLast_payload hgetLast hlast₁ hown₁ hb₁,
          hsame.lastSample, hbase, hsame.pools, hsame.pool]
    · intro s hs hne
      have hnot : s ∉ muxed := fun hmem => hm.fresh s hmem (by simp [hs])
      have hne₁ : s ∉ [p₁.lastSample] := by
        rw [hsame.lastSample]
        simpa using hne
      rw [hpayload₂ s (by simp [hs]) hnot, (keepLast_spec muxed hown₁ hb₁).2.payload s hne₁]
      exact hframe s hs
    · rw [hlost]
      simp

/-- Behind `node_read` nothing goes wrong: also the queue of every running secondary has room for
the whole batch. -/
def Path.deliversAll (p : Path σ) (i : Nat) (ps : PathSource σ) (read : List SampleId)
    (ev : Reading) : Prop :=
  (∀ l ∈ ps.secondaries, l.takes read.length) ∧
    ∀ secondaries heap, forward p.heap read ev.drains 0 ps.secondaries = some (secondaries, heap) →
      { p with heap, sources := p.sources.set i { ps with secondaries } }.muxFits i ps read ev

theorem deliver_spec {ps : PathSource σ} {read : List SampleId} {ev : Reading} {ret : Int}
    (hread : read ≠ []) (hlast : p.lastSample ∈ (p.heap.pools p.pool).blocks)
    (hb : Balanced z p.heap ((read : Multiset SampleId) + (queueRefs ps.secondaries + (p.ownRefs + R))))
    (hd : p.deliver i ps read ev = some (p', ret)) :
    SameConfig p p' ∧ Delivered p i ps ((p.tomux read).map p.heap.payload) ev p' ∧
      (∀ s ∈ R, s ≠ p.lastSample → p'.heap.payload s = p.heap.payload s) ∧
      ∃ secondaries, ∃ lost : Multiset SampleId,
        p'.sources = p.sources.set i { ps with secondaries } ∧
        Balanced z p'.heap (queueRefs secondaries + (p'.ownRefs + (lost + R))) ∧
        (lost = 0 ↔ p.deliversAll i ps read ev) := by
  obtain ⟨secondaries, h₁, hforward, -, hmux⟩ := Path.deliver_cases hd
  rw [add_left_comm] at hb
  obtain ⟨lost₁, hb₁, ht₁, hlost₁⟩ := forward_spec
    (fun s hs => Multiset.mem_add.mpr (.inl (Multiset.mem_coe.mpr hs))) hb hforward
  have hpayload₁ : h₁.payload = p.heap.payload := funext fun s => ht₁.payload s (by simp)
  have hall : p.deliversAll i ps read ev ↔ lost₁ = 0 ∧
      { p with heap := h₁, sources := p.sources.set i { ps with secondaries } }.muxFits i ps read ev := by
    unfold Path.deliversAll
    rw [← hlost₁]
    refine and_congr_right fun _ => ⟨fun hall => hall _ _ hforward, fun hone secs heap hf => ?_⟩
    cases hforward.symm.trans hf
    exact hone
  rw [hall]
  have hsame₁ : SameConfig p { p with heap := h₁, sources := p.sources.set i { ps with secondaries } } :=
    ⟨rfl, rfl, rfl, rfl, rfl, ht₁.pools⟩
  have hb₁' : Balanced z h₁ ((read : Multiset SampleId) + (p.ownRefs + (queueRefs secondaries + (lost₁ + R)))) := by
    convert hb₁ using 1
    abel
  obtain ⟨hsame₂, hsources₂, hdel, hframe, lost₂, hb₂, hlost₂⟩ := muxAndFinish_spec hread
    (by rw [hsame₁.pools]; exact hlast) hb₁' hmux
  refine ⟨hsame₁.trans hsame₂, ?_, ?_, secondaries, lost₁ + lost₂, hsources₂, ?_, ?_⟩
  · unfold Delivered at hdel ⊢
    dsimp only at hdel
    rw [hpayload₁, ht₁.pools] at hdel
    exact hdel
  · intro s hs hne
    rw [hframe s (by simp [hs]) hne]
    exact congrFun hpayload₁ s
  · convert hb₂ using 1
    abel
  · rw [add_eq_zero, hlost₂]

/-! ## The whole read -/

/-- The read takes nothing from the pool of its source, or nothing goes wrong: the node hands on the
whole batch and all of it is delivered. -/
def Path.readsAll (p : Path σ) (i : Nat) (ev : Reading) : Prop :=
  ∀ ps, p.sources[i]? = some ps →
    let (h, smps) := p.heap.sampleAllocMany ps.pool ps.node.vectorize
    smps = [] ∨ ps.node.delivers h smps ev.results ∧
      ∀ node heap smps' recv, nodeRead ps.node h smps ev.results = some (node, heap, smps', recv) →
        { p with heap, sources := p.sources.set i { ps with node } }.deliversAll i { ps with node } smps' ev

/-- The contents and the trace that a read leaves behind. -/
def ReadEffect (p : Path σ) (i : Nat) (ev : Reading) (p' : Path σ) : Prop :=
  ∃ ps ps', p.sources[i]? = some ps ∧ p'.sources = p.sources.set i ps' ∧
    ps'.mappings = ps.mappings ∧ ∃ tomux, Delivered p i ps tomux ev p'

structure Fetched (z : SampleId → Sample) (R : Multiset SampleId) (p : Path σ) (ps : PathSource σ)
    (ev : Reading) (h₁ : Heap) (smps : List SampleId) (node : NodeDirection σ) (heap : Heap)
    (smps' : List SampleId) (recv : Int) : Prop where
  balanced : Balanced z heap (retainedRefs node.hooks.retained +
    ((smps' : Multiset SampleId) + (queueRefs ps.secondaries + (p.ownRefs + R))))
  length : smps'.length = smps.length
  le : recv ≤ smps.length
  pools : heap.pools = p.heap.pools
  payload : ∀ s ∈ ps.refs + (p.ownRefs + R), heap.payload s = p.heap.payload s
  block : ∀ s ∈ smps', s ∈ (p.heap.pools ps.pool).blocks
  recv_iff : smps ≠ [] → (recv = smps.length ↔ ps.node.delivers h₁ smps ev.results)

theorem fetch_spec {ps : PathSource σ} {ev : Reading} {node : NodeDirection σ} {heap : Heap}
    {smps' : List SampleId} {recv : Int}
    (hb : Balanced z p.heap (ps.refs + (p.ownRefs + R)))
    (hnode : nodeRead ps.node (p.heap.sampleAllocMany ps.pool ps.node.vectorize).1
      (p.heap.sampleAllocMany ps.pool ps.node.vectorize).2 ev.results =
        some (node, heap, smps', recv)) :
    Fetched z R p ps ev (p.heap.sampleAllocMany ps.pool ps.node.vectorize).1
      (p.heap.sampleAllocMany ps.pool ps.node.vectorize).2 node heap smps' recv := by
  obtain ⟨ha, hb₁, hfresh⟩ := sampleAllocMany_spec p.heap ps.pool ps.node.vectorize hb
  generalize p.heap.sampleAllocMany ps.pool ps.node.vectorize = r at *
  obtain ⟨h₁, smps⟩ := r
  dsimp only at *
  have hb₂ : Balanced z h₁ (retainedRefs ps.node.hooks.retained + ((smps : Multiset SampleId) +
      (queueRefs ps.secondaries + (p.ownRefs + R)))) := by
    convert hb₁ using 1
    unfold PathSource.refs
    abel
  have hr := nodeRead_spec hb₂ hnode
  have hcoe : (smps' : Multiset SampleId) = smps := Multiset.coe_eq_coe.mpr hr.perm
  refine ⟨?_, hr.perm.length_eq, hr.le, hr.touches.pools.trans ha.pools, ?_, ?_, fun hne => ?_⟩
  · rw [hcoe]
    exact hr.balanced
  · intro s hs
    have hnot : s ∉ smps := fun hmem => hfresh s hmem hs
    rw [hr.touches.payload s hnot]
    unfold Heap.payload
    rw [ha.samples s hnot]
  · intro s hs
    have hmem : s ∈ smps := hr.perm.mem_iff.mp hs
    rw [ha.taken] at hmem
    exact hb.area _ s (List.mem_of_mem_take hmem)
  · exact nodeRead_recv hne hb₂ (fun s hs => by simp [hs]) hnode

theorem readsAll_iff {ps : PathSource σ} {ev : Reading} {node : NodeDirection σ} {heap : Heap}
    {smps' : List SampleId} {recv : Int} (hget : p.sources[i]? = some ps)
    (hnode : nodeRead ps.node (p.heap.sampleAllocMany ps.pool ps.node.vectorize).1
      (p.heap.sampleAllocMany ps.pool ps.node.vectorize).2 ev.results =
        some (node, heap, smps', recv)) :
    p.readsAll i ev ↔ (p.heap.sampleAllocMany ps.pool ps.node.vectorize).2 = [] ∨
      ps.node.delivers (p.heap.sampleAllocMany ps.pool ps.node.vectorize).1
        (p.heap.sampleAllocMany ps.pool ps.node.vectorize).2 ev.results ∧
      { p with heap, sources := p.sources.set i { ps with node } }.deliversAll i { ps with node } smps' ev := by
  unfold Path.readsAll
  constructor
  · intro hall
    exact (hall ps hget).imp_right fun hd => ⟨hd.1, hd.2 _ _ _ _ hnode⟩
  · intro hone ps' hps'
    cases hget.symm.trans hps'
    refine hone.imp_right fun hd => ⟨hd.1, fun node' heap' smps'' recv' hnode' => ?_⟩
    cases hnode.symm.trans hnode'
    exact hd.2

theorem pathSourceRead_spec {ev : Reading} {ret : Int} (hc : Conserved z R p)
    (hread : p.pathSourceRead i ev = some (p', ret)) :
    SameConfig p p' ∧ ReadEffect p i ev p' ∧
      (∀ s ∈ R, s ≠ p.lastSample → p'.heap.payload s = p.heap.payload s) ∧
      ∃ lost : Multiset SampleId, Conserved z (lost + R) p' ∧ (lost = 0 ↔ p.readsAll i ev) := by
  obtain ⟨ps, node, heap, smps', recv, hget, hnode, hcases⟩ := Path.pathSourceRead_cases hread
  obtain ⟨rest, hrest, hset⟩ := sourceRefs_set hget
  have hb₀ : Balanced z p.heap (ps.refs + (p.ownRefs + (rest + R))) := by
    convert hc.balanced using 1
    unfold Path.refs
    rw [hrest]
    abel
  have hf := fetch_spec hb₀ hnode
  have hlast : heap.payload p.lastSample = p.heap.payload p.lastSample :=
    hf.payload _ (by simp [mem_ownRefs p])
  rw [readsAll_iff hget hnode]
  generalize (p.heap.sampleAllocMany ps.pool ps.node.vectorize).1 = h₁ at *
  generalize (p.heap.sampleAllocMany ps.pool ps.node.vectorize).2 = smps at *
  have hsame₁ : SameConfig p { p with heap, sources := p.sources.set i { ps with node } } :=
    ⟨rfl, rfl, rfl, rfl, rfl, hf.pools⟩
  rcases hcases with ⟨hpos, hd⟩ | ⟨hpos, state, rfl, -⟩
  · -- The first `recv` samples are delivered, the others are lost.
    have hle := hf.le
    have hlen := hf.length
    have hne : smps ≠ [] := by
      rintro rfl
      simp at hle
      omega
    have htake : smps'.take recv.toNat ≠ [] := by
      rw [Ne, List.take_eq_nil_iff, ← List.length_eq_zero_iff]
      have := List.length_pos_iff.mpr hne
      omega
    have hb₁ : Balanced z heap ((smps'.take recv.toNat : Multiset SampleId) +
        (queueRefs ps.secondaries + (p.ownRefs + (retainedRefs node.hooks.retained +
          (rest + ((smps'.drop recv.toNat : Multiset SampleId) + R)))))) := by
      convert hf.balanced using 1
      have hsplit : (smps' : Multiset SampleId) =
          (smps'.take recv.toNat : Multiset SampleId) + (smps'.drop recv.toNat : Multiset SampleId) := by
        rw [Multiset.coe_add, List.take_append_drop]
      rw [hsplit]
      abel
    obtain ⟨hsame₂, hdel, hframe, secondaries, lost, hsources, hb₂, hlost⟩ := deliver_spec htake
      (by rw [hsame₁.pools]; exact hc.last) hb₁ hd
    have hsources' : p'.sources = p.sources.set i { ps with node, secondaries } := by
      rw [hsources]
      exact List.set_set ..
    refine ⟨hsame₁.trans hsame₂, ⟨ps, _, hget, hsources', rfl, ?_⟩, ?_,
      lost + (smps'.drop recv.toNat : Multiset SampleId), ⟨?_, ?_⟩, ?_⟩
    · unfold Delivered at hdel
      dsimp only at hdel
      rw [hlast, hf.pools] at hdel
      exact ⟨_, hdel⟩
    · intro s hs hne
      rw [hframe s (by simp [hs]) hne]
      exact hf.payload s (by simp [hs])
    · convert hb₂ using 1
      unfold Path.refs
      rw [hsources', hset]
      unfold PathSource.refs
      abel
    · rw [(hsame₁.trans hsame₂).pools, (hsame₁.trans hsame₂).pool, (hsame₁.trans hsame₂).lastSample]
      exact hc.last
    · have hrecv : smps'.length ≤ recv.toNat ↔ recv = smps.length := by omega
      rw [add_eq_zero, hlost, Multiset.coe_eq_zero, List.drop_eq_nil_iff, or_iff_right hne,
        ← hf.recv_iff hne, hrecv, and_comm]
      refine and_congr_right fun heq => ?_
      rw [List.take_of_length_le (hrecv.mpr heq)]
  · -- Nothing is delivered, all samples are lost.
    refine ⟨⟨rfl, rfl, rfl, rfl, rfl, hf.pools⟩, ⟨ps, _, hget, rfl, rfl, [], .inl ⟨rfl, hlast⟩⟩,
      fun s hs _ => hf.payload s (by simp [hs]), (smps' : Multiset SampleId), ⟨?_, ?_⟩, ?_⟩
    · convert hf.balanced using 1
      unfold Path.refs
      rw [hset]
      unfold PathSource.refs
      show _ + _ + p.ownRefs + _ = _
      abel
    · show p.lastSample ∈ (heap.pools p.pool).blocks
      rw [hf.pools]
      exact hc.last
    · rw [Multiset.coe_eq_zero, ← List.length_eq_zero_iff, hf.length, List.length_eq_zero_iff]
      refine ⟨.inl, fun hor => ?_⟩
      by_contra hne
      have hrecv := (hf.recv_iff hne).mpr (hor.resolve_left hne).1
      have := List.length_pos_iff.mpr hne
      omega

def exampleSample (sequence : BitVec 64) : Payload :=
  { sequence, length := 2, flags := SampleFlags.hasData, signals := 0, origin := ⟨0, 0⟩
    received := ⟨0, 0⟩, data := fun i => BitVec.ofNat 64 i }

/-- The pools 0 with the blocks 1 and 2, and 2 with the block 20, are for sources. The path has the
pool 1 with the blocks 10 to 14, of which 10 is its last sample. -/
def exampleHeap : Heap :=
  { samples := fun s =>
      { payload := { exampleSample 0 with length := 0 }, capacity := 4
        refcnt := if s = 10 then 1 else 0, pool := some (if s < 10 then 0 else if s < 20 then 1 else 2) }
    pools := fun
      | 0 => ⟨[1, 2], 4, 2⟩
      | 1 => ⟨[10, 11, 12, 13, 14], 4, 8⟩
      | 2 => ⟨[20], 4, 1⟩
      | _ => ⟨[], 0, 0⟩
    free := fun
      | 0 => [1, 2]
      | 1 => [11, 12, 13, 14]
      | 2 => [20]
      | _ => [] }

/-- One hook that always decides for `reason`. -/
def exampleHooks (reason : Reason) : HookList Unit :=
  { state := (), retained := [none], signals := fun _ _ => 0
    process := fun _ _ _ s => ⟨(), s, reason, fun _ => .keep⟩ }

def noHooks : HookList Unit :=
  { state := (), retained := [], signals := fun _ _ => 0
    process := fun _ _ _ s => ⟨(), s, .ok, fun _ => .keep⟩ }

def exampleSource (hooks : HookList Unit) (pool : PoolId) (mappings : List MappingEntry) :
    PathSource Unit :=
  { node := { state := .started, typeVectorize := 0, vectorize := 1, hooks }
    pool, mappings, secondaries := [] }

/-- A path with one source, whose input hook decides for `reason`, and one destination. -/
def examplePath (reason : Reason) : Path Unit :=
  { heap := exampleHeap, state := .started, mode := .any, originalSequenceNo := true, pool := 1
    lastSample := 10, lastSequence := 0, mask := {0}, received := ∅, hooks := noHooks
    sources := [exampleSource (exampleHooks reason) 0 [⟨0, .data 0, 2, 0⟩]]
    destinations := [{ node := { state := .started, typeVectorize := 0, vectorize := 1, hooks := noHooks }
                       queueSize := 2, queue := [] }]
    trace := [] }

def readingOf (s : Payload) : Reading :=
  { results := [.read [s]], stats := fun _ _ => 0, drains := fun _ => [] }

theorem exampleHeap_pool : ∀ p, ∀ s ∈ (exampleHeap.pools p).blocks,
    (exampleHeap.samples s).pool = some p := by
  rintro (_ | _ | _ | p)
  · decide
  · decide
  · decide
  · intro s hs
    cases hs

theorem exampleHeap_balanced : Balanced exampleHeap.samples exampleHeap {10} := by
  constructor
  · intro p q s hp hq
    exact Option.some.inj ((exampleHeap_pool p s hp).symm.trans (exampleHeap_pool q s hq))
  · rintro (_ | _ | _ | p)
    · decide
    · decide
    · decide
    · exact le_refl 0
  · rintro (_ | _ | _ | p)
    · decide
    · decide
    · decide
    · exact List.nodup_nil
  · rintro (_ | _ | _ | p)
    · decide
    · decide
    · decide
    · simp [exampleHeap]
  · rintro (_ | _ | _ | p)
    · decide
    · decide
    · decide
    · simp [exampleHeap]
  · exact fun p s _ => .inr rfl
  · intro s hs
    rw [Multiset.mem_singleton] at hs
    subst hs
    exact ⟨1, by decide, rfl, rfl, rfl⟩

theorem examplePath_conserved (reason : Reason) :
    Conserved exampleHeap.samples 0 (examplePath reason) :=
  ⟨exampleHeap_balanced, show 10 ∈ (exampleHeap.pools 1).blocks by decide⟩

end VillasNode
