import VillasNode.Lib.Runs
import VillasNode.Path.Sizing

/-!
# The capacity of samples

While a sample is in the hooks of its source or of its path, it is no longer
than the list of signals in front of the next hook, and the pool was sized by
the longest of these lists. For the hooks of a destination there is no such
bound: they have to find room.
-/

namespace VillasNode.Capacity

open Runs
open SignalHooks (Signal)

/-! ## The invariant -/

/-- The hooks of the owner were asked for their signals when its pool was sized. -/
def Config.asked (cfg : Config) : Owner → Bool
  | .source i => !cfg.secondary i
  | .path => true
  | .destination .. => false

structure Block.Good (cfg : Config) (x : Block) : Prop where
  fits : x.Fits
  pool : ∀ o k, x.stage = .hooks o k → x.capacity = cfg.capacity o
  queued : ∀ served, x.stage = .queued served → x.capacity = cfg.capacity .path
  count : ∀ o k, x.stage = .hooks o k → cfg.asked o → x.payload.length ≤ (cfg.hookList o).count k

structure Inv (cfg : Config) (s : State) : Prop where
  blocks : ∀ x ∈ s.blocks, x.Good cfg
  last : s.last.length ≤ cfg.path.signals.length

variable {cfg : Config} {s s' : State} {x y : Block}

theorem maxCnt_le_capacity (cfg : Config) {o : Owner} (ho : cfg.asked o) :
    (cfg.hookList o).maxCnt ≤ cfg.capacity o := by
  cases o with
  | source i =>
    simp only [Config.asked, Bool.not_eq_true'] at ho
    simp only [Config.hookList, ho, Bool.false_eq_true, if_false, Config.capacity]
    exact le_capacityOf cfg.alignment_pos _
  | path => exact le_capacityOf cfg.alignment_pos _
  | destination served d => simp [Config.asked] at ho

theorem path_signals_le (cfg : Config) : cfg.path.signals.length ≤ cfg.capacity .path :=
  Nat.le_trans cfg.path.signals_le (le_capacityOf cfg.alignment_pos _)

theorem Inv.fits (h : Inv cfg s) : Fits cfg s :=
  ⟨fun x hx => (h.blocks x hx).fits, Nat.le_trans h.last (path_signals_le cfg)⟩

theorem Inv.push (h : Inv cfg s) (hx : x.Good cfg) : Inv cfg (s.push x) := by
  refine ⟨fun y hy => ?_, h.last⟩
  obtain hy | hy := List.mem_append.mp hy
  · exact h.blocks y hy
  · rw [List.mem_singleton.mp hy]
    exact hx

theorem Inv.set (h : Inv cfg s) (b : Nat) (hx : x.Good cfg) :
    Inv cfg { s with blocks := s.blocks.set b x } := by
  refine ⟨fun y hy => ?_, h.last⟩
  obtain hy | rfl := List.mem_or_eq_of_mem_set hy
  · exact h.blocks y hy
  · exact hx

theorem Inv.get (h : Inv cfg s) {b : Nat} (hx : s.blocks[b]? = some x) : x.Good cfg :=
  h.blocks x (List.mem_of_getElem? hx)

theorem Inv.update (h : Inv cfg s) {b : Nat} {f : Block → Option Block}
    (hf : ∀ x y, s.blocks[b]? = some x → x.Good cfg → f x = some y → y.Good cfg)
    (hs : s.update b f = some s') : Inv cfg s' := by
  simp only [State.update, Option.bind_eq_some_iff, Option.map_eq_some_iff] at hs
  obtain ⟨x, hx, y, hy, rfl⟩ := hs
  exact h.set b (hf x y hx (h.get hx) hy)

theorem Inv.at? (h : Inv cfg s) {b : Nat} {stage : Stage} (hx : s.at? b stage = some x) :
    x.Good cfg ∧ x.stage = stage := by
  simp only [State.at?, Option.bind_eq_some_iff, Option.ite_none_right_eq_some,
    Option.some.injEq] at hx
  obtain ⟨y, hy, hstage, rfl⟩ := hx
  exact ⟨h.get hy, hstage⟩

/-! ## Steps of a block -/

theorem good_ended {o : Owner} (hfits : x.Fits) (hstage : x.stage = ended o)
    (hcap : x.capacity = cfg.capacity o) : x.Good cfg := by
  cases o with
  | source i => exact ⟨hfits, by simp [hstage, ended], by simp [hstage, ended],
      by simp [hstage, ended]⟩
  | path => exact ⟨hfits, by simp [hstage, ended], by simp [hstage, ended],
      by simp [hstage, ended]⟩
  | destination served d => exact ⟨hfits, by simp [hstage, ended], fun _ _ => hcap,
      by simp [hstage, ended]⟩

theorem good_released (hfits : x.Fits) (hstage : x.stage = .released) : x.Good cfg :=
  ⟨hfits, by simp [hstage], by simp [hstage], by simp [hstage]⟩

theorem good_hooks {o : Owner} {k : Nat} (hfits : x.Fits) (hstage : x.stage = .hooks o k)
    (hcap : x.capacity = cfg.capacity o)
    (hcount : cfg.asked o → x.payload.length ≤ (cfg.hookList o).count k) : x.Good cfg := by
  refine ⟨hfits, fun o' k' h => ?_, by simp [hstage], fun o' k' h => ?_⟩
  · rw [hstage] at h
    cases h
    exact hcap
  · rw [hstage] at h
    cases h
    exact hcount

theorem good_afterHook {o : Owner} {k : Nat} {r : Reason} (hfits : x.Fits)
    (hstage : x.stage = afterHook o k r) (hcap : x.capacity = cfg.capacity o)
    (hcount : r = .ok → cfg.asked o → x.payload.length ≤ (cfg.hookList o).count (k + 1)) :
    x.Good cfg := by
  -- A sample that is not passed on goes back to the queues or to its pool.
  have hstopped : (r = .error ∨ r = .skipSample) → x.Good cfg := by
    intro hr
    cases o with
    | destination served d =>
      apply good_ended hfits _ hcap
      rcases hr with rfl | rfl <;> exact hstage
    | source i =>
      apply good_released hfits
      rcases hr with rfl | rfl <;> exact hstage
    | path =>
      apply good_released hfits
      rcases hr with rfl | rfl <;> exact hstage
  cases r with
  | ok => exact good_hooks hfits hstage hcap (hcount rfl)
  | stopProcessing => exact good_ended hfits hstage hcap
  | error => exact hstopped (.inl rfl)
  | skipSample => exact hstopped (.inr rfl)

theorem Block.Good.hook (hun : cfg.Unsigned) {c : Choice} {payload : Payload} (hx : x.Good cfg)
    (hready : x.Ready cfg) (h : x.hook cfg c payload = some y) : y.Good cfg := by
  unfold Block.hook at h
  unfold Block.Ready at hready
  split at h
  · rename_i o k hstage
    simp only [Option.bind_eq_some_iff, Option.map_eq_some_iff, Prod.exists] at h
    obtain ⟨next, hhook, r, e, hp, rfl⟩ := h
    simp only [hstage] at hready
    replace hready := hready next hhook
    have hcap := hx.pool o k hstage
    have hlen : x.payload.length < 2 ^ 32 := by
      have := hun o
      have := hx.fits.1
      omega
    have hextent := hx.fits.2
    cases hasked : cfg.asked o with
    | true =>
      have hmax := maxCnt_le_capacity cfg hasked
      rw [← hcap] at hmax
      obtain ⟨h₁, h₂, h₃⟩ := (cfg.hookList o).process_spec hhook hmax hlen hready.1
        (hx.count o k hstage hasked) hp
      exact good_afterHook ⟨h₁, Nat.max_le.mpr ⟨hextent, h₂⟩⟩ rfl hcap fun hr _ => h₃ (.inl hr)
    | false =>
      -- The hooks of a destination. A secondary source has none.
      have houtside : o.outside := by
        cases o with
        | source i =>
          simp only [Config.asked, Bool.not_eq_false'] at hasked
          simp [Config.hookList, hasked] at hhook
        | path => simp [Config.asked] at hasked
        | destination served d => rfl
      obtain ⟨h₁, h₂⟩ := Hook.process_le hlen hready.1 hx.fits.1 (hready.2 houtside) hp
      exact good_afterHook ⟨h₁, Nat.max_le.mpr ⟨hextent, h₂⟩⟩ rfl hcap fun _ h => by
        simp [hasked] at h
  · simp at h

theorem Block.Good.finish (hx : x.Good cfg) (h : x.finish cfg = some y) : y.Good cfg := by
  unfold Block.finish at h
  split at h
  · rename_i o k hstage
    simp only [Option.ite_none_right_eq_some, Option.some.injEq] at h
    obtain ⟨-, rfl⟩ := h
    exact good_ended hx.fits rfl (hx.pool o k hstage)
  · simp at h

theorem Block.Good.write {d : Nat} (hx : x.Good cfg) (h : x.write d = some y) : y.Good cfg := by
  unfold Block.write at h
  split at h
  · rename_i served hstage
    simp only [Option.ite_none_left_eq_some, Option.some.injEq] at h
    obtain ⟨-, rfl⟩ := h
    exact good_hooks hx.fits rfl (hx.queued served hstage) fun h => by simp [Config.asked] at h
  · simp at h

/-! ## New blocks -/

theorem good_read {i : Nat} {payload : Payload}
    (h : cfg.secondary i ∨ payload.length ≤ (cfg.nodes i).signals.length) :
    (cfg.read i payload).Good cfg := by
  cases hsec : cfg.secondary i with
  | true =>
    have hle : (cfg.read i payload).payload.length ≤ cfg.capacity (.source i) := by
      simp [Config.read, hsec]
    exact good_hooks ⟨hle, hle⟩ rfl rfl fun h => by simp [Config.asked, hsec] at h
  | false =>
    simp only [hsec, Bool.false_eq_true, false_or] at h
    have hlength : (cfg.read i payload).payload.length = payload.length := by
      simp [Config.read, hsec]
    have hle : (cfg.read i payload).payload.length ≤ cfg.capacity (.source i) := by
      rw [hlength]
      exact Nat.le_trans h (Nat.le_trans (cfg.nodes i).signals_le
        (le_capacityOf cfg.alignment_pos _))
    exact good_hooks ⟨hle, hle⟩ rfl rfl fun _ => by
      simpa [Config.hookList, hsec, hlength] using h

theorem clone_length (cfg : Config) (old payload : Payload) :
    (cfg.clone old payload).length = min payload.length (cfg.capacity .path) := rfl

theorem good_enqueue (cfg : Config) (old payload : Payload) :
    (cfg.enqueue (cfg.clone old payload)).Good cfg := by
  have hle : (cfg.clone old payload).length ≤ cfg.capacity .path := by
    rw [clone_length]
    exact Nat.min_le_right ..
  exact ⟨⟨hle, hle⟩, by simp [Config.enqueue], fun _ _ => rfl, by simp [Config.enqueue]⟩

theorem entries_covered (hmapped : cfg.Mapped) (i : Nat) :
    ∀ me ∈ cfg.entries i, me.sized ∧ me.offset + me.length ≤ cfg.path.signals.length := by
  intro me hme
  have hmem := (List.mem_filter.mp hme).1
  refine ⟨mappingListPrepare_sized (fun me h => (hmapped me h).1) 0 me hmem, ?_⟩
  exact (pathSignals_covers (fun me h => (hmapped me h).2) (Nat.zero_le _) cfg.path_signals).2
    me hmem

theorem muxHeader_length (original : Bool) (lastSequence : BitVec 32) (muxed tomux : Payload) :
    (muxHeader original lastSequence muxed tomux).length ≤ muxed.length := by
  rw [(muxHeader_slots original lastSequence muxed tomux).1]
  split
  · exact Nat.zero_le _
  · exact Nat.le_refl _

theorem good_mux (hmapped : cfg.Mapped) {i : Nat} {lastSequence : BitVec 32}
    {stats : Nat → Nat → Value} {clone tomux : Payload}
    (hclone : clone.length ≤ cfg.path.signals.length) :
    (cfg.mux i lastSequence stats clone tomux).Good cfg := by
  have hentries := entries_covered hmapped i
  have hpath := path_signals_le cfg
  have hlength : (cfg.mux i lastSequence stats clone tomux).payload.length ≤
      cfg.path.signals.length := by
    have hheader := muxHeader_length cfg.originalSequenceNo lastSequence clone tomux
    have hremap := mappingListRemap_length stats (cfg.capacity .path) tomux
      (fun me hme => (hentries me hme).2) (Nat.le_trans hheader hclone)
    simp only [Config.mux, muxPayload]
    split <;> exact hremap
  have hextent : (cfg.mux i lastSequence stats clone tomux).extent ≤ cfg.path.signals.length :=
    Nat.max_le.mpr ⟨hclone, remapExtent_le hentries⟩
  have hfits : (cfg.mux i lastSequence stats clone tomux).Fits :=
    ⟨Nat.le_trans hlength hpath, Nat.le_trans hextent hpath⟩
  cases hok : (muxPayload cfg.originalSequenceNo lastSequence stats (cfg.entries i)
      (cfg.capacity .path) clone tomux).2 with
  | true =>
    have hstage : (cfg.mux i lastSequence stats clone tomux).stage = .hooks .path 0 := by
      simp [Config.mux, hok]
    exact good_hooks hfits hstage rfl fun _ => hlength
  | false => exact good_released hfits (by simp [Config.mux, hok])

/-! ## Runs -/

theorem Inv.previous (h : Inv cfg s) {prev : Option Nat} {payload : Payload}
    (hprev : s.previous (.hooks .path 0) prev = some payload) :
    payload.length ≤ cfg.path.signals.length := by
  cases prev with
  | none =>
    cases hprev
    exact h.last
  | some b =>
    obtain ⟨x, hx, rfl⟩ := Option.map_eq_some_iff.mp hprev
    obtain ⟨hgood, hstage⟩ := h.at? hx
    exact hgood.count .path 0 hstage rfl

theorem Inv.step (hun : cfg.Unsigned) (hmapped : cfg.Mapped) {a : Action} (h : Inv cfg s)
    (hwithin : Within cfg s a) (hs : step cfg s a = some s') : Inv cfg s' := by
  cases a with
  | read i payload =>
    cases hs
    exact h.push (good_read hwithin)
  | hook b c payload =>
    apply h.update _ hs
    intro x y hx hgood hy
    exact hgood.hook hun (hwithin x hx) hy
  | finish b => exact h.update (fun _ _ _ hgood hy => hgood.finish hy) hs
  | mux b prev lastSequence stats old =>
    simp only [Capacity.step, Option.bind_eq_some_iff] at hs
    obtain ⟨x, hx, hs⟩ := hs
    split at hs
    · obtain ⟨payload, hprev, rfl⟩ := Option.map_eq_some_iff.mp hs
      have hreleased := h.set b (good_released (x := { x with stage := .released })
        (h.get hx).fits rfl)
      have hle := h.previous hprev
      apply hreleased.push
      apply good_mux hmapped
      rw [clone_length]
      omega
    · simp at hs
  | keep b =>
    obtain ⟨x, hx, rfl⟩ := Option.map_eq_some_iff.mp hs
    obtain ⟨hgood, hstage⟩ := h.at? hx
    have hle : x.payload.length ≤ cfg.path.signals.length := hgood.count .path 0 hstage rfl
    refine ⟨h.blocks, ?_⟩
    dsimp only
    rw [clone_length]
    omega
  | enqueue b old =>
    obtain ⟨payload, -, rfl⟩ := Option.map_eq_some_iff.mp hs
    exact h.push (good_enqueue cfg old payload)
  | write b d => exact h.update (fun _ _ _ hgood hy => hgood.write hy) hs

theorem inv_init (cfg : Config) (payload : Payload) : Inv cfg (init payload) :=
  ⟨by simp [init], Nat.zero_le _⟩

/-- Samples fit into their blocks in every run in which drivers deliver no more values than their
nodes have signals, `dp` finds the values that it removes, and the hooks of the destinations find
room in the blocks of the path. -/
theorem fits_of_within (hun : cfg.Unsigned) (hmapped : cfg.Mapped) {payload : Payload}
    {as : List Action} (hwithin : Along (step cfg) (Within cfg) (init payload) as)
    (hrun : run (step cfg) (init payload) as = some s) : Fits cfg s :=
  (invariant (fun _ _ _ h hw hs => h.step hun hmapped hw hs) (inv_init cfg payload) hwithin
    hrun).fits

/-! A path with six signals and the hook `average` at its destination, which is prepared against
the 64 signals that a node has by default. -/

def floats (n : Nat) : List Signal := List.replicate n ⟨.float, .old 0⟩

def sixFloats : PreparedHooks := ⟨(floats 6).map some, [], [], rfl⟩

def averageOut : PreparedHooks where
  signals := (floats 64).map some
  hooks := [.signals (.average [0] 0)]
  lists := [SignalHooks.vlistInsert (floats 64) 0 ⟨.float, .new 0⟩]
  prepared := by decide

def averagePath : Config where
  alignment := 64
  alignment_pos := by decide
  statsType := fun _ => .float
  nodes := fun _ => sixFloats
  secondary := fun _ => false
  mappings := [⟨0, .data 0, 6, 0⟩]
  path := sixFloats
  path_signals := by decide
  destinations := fun _ => averageOut
  originalSequenceNo := true

def zeros (length : Nat) : Payload := ⟨0, length, 0, 0, ⟨0, 0⟩, ⟨0, 0⟩, fun _ => 0⟩

/-- A sample of this length, from the driver to behind the hook of the destination. -/
def averageRun (length : Nat) : List Action :=
  [.read 0 (zeros length), .finish 0, .mux 0 none 0 (fun _ _ => 0) (zeros 0), .keep 1, .finish 1,
    .enqueue (some 1) (zeros 0), .write 2 0, .hook 2 ⟨true, true, true, .ok⟩ (zeros 0)]

theorem averagePath_unsigned : averagePath.Unsigned := by
  intro o
  have h : capacityOf 64 sixFloats.maxCnt < 2 ^ 32 := by decide
  cases o <;> exact h

theorem averagePath_mapped : averagePath.Mapped := by
  simp only [Config.Mapped, averagePath, List.forall_mem_singleton]
  refine ⟨trivial, fun j hj => ⟨⟨.float, .old 0⟩, ?_⟩⟩
  have h : ∀ j < 6, sixFloats.outputSignals[0 + j]? = some (some ⟨.float, .old 0⟩) := by decide
  exact h j hj

/-- The driver delivers a value less, and the average has room. -/
theorem fits_of_within_five :
    ∃ s, run (step averagePath) (init (zeros 0)) (averageRun 5) = some s ∧ Fits averagePath s := by
  obtain ⟨s, hs⟩ : ∃ s, run (step averagePath) (init (zeros 0)) (averageRun 5) = some s := ⟨_, rfl⟩
  exact ⟨s, hs, fits_of_within averagePath_unsigned averagePath_mapped (by decide) hs⟩

theorem average_out_overruns :
    averagePath.Unsigned ∧ averagePath.Mapped ∧
      ∃ s, run (step averagePath) (init (zeros 0)) (averageRun 6) = some s ∧
        ¬ Fits averagePath s := by
  refine ⟨averagePath_unsigned, averagePath_mapped, _, rfl, ?_⟩
  rintro ⟨hblocks, -⟩
  have h := (hblocks _ (List.mem_of_getElem? (i := 2) rfl)).1
  revert h
  decide

end VillasNode.Capacity
