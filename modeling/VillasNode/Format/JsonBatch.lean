import VillasNode.Format.JsonSent
import VillasNode.Format.JsonLoops

/-!
# Batches of JSON samples

`sprint` and `sscan` of `lib/formats/json.cpp` over many samples. A sample that
cannot be packed ends the loop, but not the number that is returned, and
`json_dumpb` returns the size of the whole text, also when the buffer is smaller.
-/

namespace VillasNode.Json

open Jansson Line MachineInt

section
variable {J : Type} (f : JsonFormat J)

/-- The virtual functions of `JsonFormat`. -/
def JsonFormat.virtual : Virtual J LineSample where
  api := f.api
  packSample := packSample f
  unpackSample := unpackSample f

/-! ## The specification -/

/-- What is returned for a batch is the number of samples in it. -/
structure Reports (text : Text J) (smps : List LineSample) (buf : List (BitVec 8)) : Prop where
  packed : (packSamples f.virtual smps).2 = (f.api.elements (packSamples f.virtual smps).1).length
  printed : 0 ≤ (sprint f.virtual text buf smps).ret →
    ∃ wbytes, (sprint f.virtual text buf smps).wbytes = some wbytes ∧ wbytes ≤ buf.length ∧
      ∃ json position,
        text.load ((sprint f.virtual text buf smps).buf.take wbytes) = some (json, position) ∧
        f.api.typeof json = .array ∧
        (f.api.elements json).length = (sprint f.virtual text buf smps).ret
  scanned : ∀ wbytes, (sprint f.virtual text buf smps).wbytes = some wbytes → ∀ receivers,
    Room (fun smp receiver => smp.payload.length ≤ receiver.capacity) smps receivers →
    let scanned := sscan f.virtual text ((sprint f.virtual text buf smps).buf.take wbytes) receivers
    scanned.outcome = .ret (sprint f.virtual text buf smps).ret ∧
      ReceivedFirst (Received f) smps (sprint f.virtual text buf smps).ret scanned.smps

/-! ## When it is met -/

/-- The array of all samples. -/
def batch (smps : List LineSample) : J := f.api.arrayOf (smps.filterMap (packSample f))

/-- All samples are in the array, whose text is in the buffer. -/
structure Whole (text : Text J) (smps : List LineSample) (buf : List (BitVec 8)) : Prop where
  count : smps.length < 2 ^ 31
  fits : (text.dump (batch f smps)).length ≤ buf.length
  packs : Packs f.virtual smps (placed f.virtual smps)

end

section
variable {J : Type} {f : JsonFormat J}

/-! ## What is returned for a sample -/

theorem unpackValues_ret {capacity i : Nat} {values : List J} {old new : Payload} {ret : Int}
    (h : unpackValues f capacity old i values = (new, .ret ret)) : ret ≤ 0 := by
  induction values generalizing i old with
  | nil =>
    cases h
    decide
  | cons json rest ih =>
    unfold unpackValues at h
    split at h
    · cases h
      decide
    · split at h
      · cases h
        decide
      · split at h
        · cases h
        · split at h
          · cases h
            decide
          · exact ih h

theorem unpackData_ret {sequence : BitVec 64} {data : J} {capacity : Nat} {old new : Payload} {ret : Int}
    (h : unpackData f sequence data capacity old = (new, .ret ret)) : ret ≤ 0 := by
  unfold unpackData at h
  split at h
  · cases h
    decide
  · split at h
    · cases h
      decide
    · rename_i hvalues
      rw [h] at hvalues
      exact unpackValues_ret hvalues

theorem unpackSample_ret {json : J} {capacity : Nat} {old new : Payload} {ret : Int}
    (h : unpackSample f json capacity old = (new, .ret ret)) : ret ≤ 0 := by
  unfold unpackSample at h
  split at h
  · cases h
    decide
  · split at h
    · split at h
      · exact unpackData_ret h
      · dsimp only at h
        split at h
        · cases h
          decide
        · exact unpackData_ret h
    · cases h
      decide

/-! ## All samples -/

section
variable {text : Text J} {smps : List LineSample} {buf : List (BitVec 8)}

theorem batch_eq {values : List J} (h : Packs f.virtual smps values) : batch f smps = f.api.arrayOf values :=
  congrArg f.api.arrayOf h.filterMap_eq

theorem Whole.elements (hapi : f.api.Lawful) (h : Whole f text smps buf) :
    f.api.elements (batch f smps) = placed f.virtual smps := by
  rw [batch_eq h.packs, hapi.elements_arrayOf]

theorem Whole.length (h : Whole f text smps buf) : (placed f.virtual smps).length = smps.length :=
  (List.Forall₂.length_eq h.packs).symm

theorem Whole.sprint_eq (h : Whole f text smps buf) :
    (sprint f.virtual text buf smps).ret = smps.length ∧
      (sprint f.virtual text buf smps).wbytes = some (text.dump (batch f smps)).length ∧
      (sprint f.virtual text buf smps).buf.take (text.dump (batch f smps)).length =
        text.dump (batch f smps) := by
  rw [Json.sprint_eq text buf h.count, batch_eq h.packs]
  refine ⟨rfl, rfl, text.dumpb_take _ ?_⟩
  rw [← batch_eq h.packs]
  exact h.fits

theorem Whole.sscan_eq (hapi : f.api.Lawful) (h : Whole f text smps buf)
    (hfaithful : text.Faithful (batch f smps)) (receivers : List Receiver) :
    (sscan f.virtual text (text.dump (batch f smps)) receivers).smps =
        (unpackLoop f.virtual 0 (placed f.virtual smps) receivers).1 ∧
      (sscan f.virtual text (text.dump (batch f smps)) receivers).outcome =
        (unpackLoop f.virtual 0 (placed f.virtual smps) receivers).2 := by
  rw [← h.elements hapi]
  refine sscan_faithful hfaithful ?_ receivers
  rw [batch_eq h.packs]
  exact hapi.typeof_arrayOf _

theorem Reports.whole (hapi : f.api.Lawful) (hunsigned : smps.length < 2 ^ 32)
    (h : Reports f text smps buf) : Whole f text smps buf := by
  have hpacked := h.packed
  rw [packSamples_eq] at hpacked
  change toInt smps.length = ((f.api.elements (f.api.arrayOf (placed f.virtual smps))).length : Int) at hpacked
  rw [hapi.elements_arrayOf, packed_iff_count hunsigned] at hpacked
  obtain ⟨hcount, hplaced⟩ := hpacked
  have hpacks := packs_placed hplaced
  have hsprint := Json.sprint_eq (v := f.virtual) text buf hcount
  obtain ⟨wbytes, hwbytes, hfits, -⟩ := h.printed (by rw [hsprint]; exact Int.natCast_nonneg _)
  rw [hsprint] at hwbytes
  cases hwbytes
  refine ⟨hcount, ?_, hpacks⟩
  rwa [batch_eq hpacks]

theorem Reports.sendable (hapi : f.api.Lawful) (hstrict : f.api.Strict) (h : Reports f text smps buf)
    (hwhole : Whole f text smps buf) (hfaithful : text.Faithful (batch f smps)) :
    ∀ smp ∈ smps, Sendable f smp := by
  obtain ⟨hret, hwbytes, htake⟩ := hwhole.sprint_eq
  obtain ⟨receivers, hroom⟩ : ∃ receivers, Room (fun smp receiver =>
      smp.payload.length ≤ receiver.capacity) smps receivers :=
    ⟨_, @room_map LineSample _ (fun smp => ⟨smp.payload.length, smp.payload⟩) (fun _ => Nat.le_refl _) smps⟩
  obtain ⟨houtcome, hfirst⟩ := h.scanned _ hwbytes receivers hroom
  obtain ⟨hsmps, hloop⟩ := hwhole.sscan_eq hapi hfaithful receivers
  rw [htake, hret] at houtcome hfirst
  rw [hsmps, receivedFirst_iff] at hfirst
  rw [houtcome] at hloop
  have hcount := hwhole.count
  have hlength := hwhole.length
  have hunpacks := (@unpackLoop_iff J LineSample f.virtual 0 (placed f.virtual smps) (by omega) _ _).mp
    (Prod.ext rfl (by rw [← hloop, hlength, Nat.zero_add]))
  intro smp hsmp
  obtain ⟨i, hi⟩ := List.mem_iff_getElem?.mp hsmp
  obtain ⟨json, receiver, payload, ret, hpack, hreceiver, hunpack, hret, hreceived⟩ :=
    hunpacks.each hwhole.packs hfirst hi
  have hcapacity := hroom.fits i smp receiver hi hreceiver
  have hle := unpackSample_ret hunpack
  obtain rfl : ret = 0 := by omega
  exact hreceived.sendable hapi hstrict hcapacity hpack hunpack

theorem Whole.reports (hapi : f.api.Lawful) (hstrict : f.api.Strict) (hback : Back f.conv)
    (h : Whole f text smps buf) (hfaithful : text.Faithful (batch f smps))
    (hsendable : ∀ smp ∈ smps, Sendable f smp) : Reports f text smps buf := by
  obtain ⟨hret, hwbytes, htake⟩ := h.sprint_eq
  have hcount := h.count
  have hlength := h.length
  constructor
  · rw [packSamples_eq]
    change toInt smps.length = ((f.api.elements (f.api.arrayOf (placed f.virtual smps))).length : Int)
    rw [hapi.elements_arrayOf, toInt_of_lt hcount, hlength]
  · intro _
    obtain ⟨position, hload⟩ := hfaithful
    refine ⟨_, hwbytes, h.fits, batch f smps, position, ?_, ?_, ?_⟩
    · rw [htake, hload]
    · rw [batch_eq h.packs, hapi.typeof_arrayOf]
    · rw [hret, h.elements hapi, hlength]
  · intro wbytes hwbytes' receivers hroom
    rw [hwbytes] at hwbytes'
    cases hwbytes'
    obtain ⟨hsmps, hloop⟩ := h.sscan_eq hapi hfaithful receivers
    obtain ⟨new, hunpacks, hall⟩ := @Packs.unpacks J LineSample f.virtual (0 ≤ ·) (Received f) _ _ _ h.packs receivers
      hroom fun smp hsmp json hpack receiver hcapacity => by
        obtain ⟨json', payload, hpack', hunpack, hreceived⟩ :=
          (hsendable smp hsmp).received hapi hstrict hback hcapacity receiver.payload
        change packSample f smp = some json at hpack
        rw [hpack] at hpack'
        cases hpack'
        exact ⟨payload, 0, hunpack, Int.le_refl 0, hreceived⟩
    have hnew := (@unpackLoop_iff J LineSample f.virtual 0 (placed f.virtual smps) (by omega) receivers new).mpr
      hunpacks
    dsimp only
    rw [htake, hret, hsmps, hloop, hnew, hlength, Nat.zero_add]
    exact ⟨rfl, receivedFirst_iff.mpr hall⟩

end

/-- The number is right exactly when all samples can be sent, and the whole text fits into the
buffer. -/
theorem reports_iff (hapi : f.api.Lawful) (hstrict : f.api.Strict) (hback : Back f.conv) (text : Text J)
    (smps : List LineSample) (hunsigned : smps.length < 2 ^ 32) (hfaithful : text.Faithful (batch f smps))
    (buf : List (BitVec 8)) :
    Reports f text smps buf ↔ smps.length < 2 ^ 31 ∧ (∀ smp ∈ smps, Sendable f smp) ∧
      (text.dump (batch f smps)).length ≤ buf.length := by
  constructor
  · intro h
    have hwhole := h.whole hapi hunsigned
    exact ⟨hwhole.count, h.sendable hapi hstrict hwhole hfaithful, hwhole.fits⟩
  · rintro ⟨hcount, hsendable, hfits⟩
    obtain ⟨values, hpacks⟩ := @packs_of_forall J LineSample f.virtual smps fun smp hsmp => by
      obtain ⟨json, -, hpack, -⟩ :=
        (hsendable smp hsmp).received hapi hstrict hback (Nat.le_refl _) smp.payload
      exact ⟨json, hpack⟩
    have hwhole : Whole f text smps buf := by
      refine ⟨hcount, hfits, ?_⟩
      rwa [hpacks.placed_eq]
    exact hwhole.reports hapi hstrict hback hfaithful hsendable

end

theorem back_exampleConv : Back exampleConv := fun v _ => narrow_widen v

/-- The integer 5 without timestamps, and the same without a signal. -/
def fiveSample : LineSample where
  payload := ⟨0, 1, SampleFlags.hasData, 1, ⟨0, 0⟩, ⟨0, 0⟩, fun _ => 5⟩
  signals := [.integer]

def unnamedSample : LineSample := { fiveSample with signals := [] }

/-- A format with a signal for integers. -/
def fiveFormat : JsonFormat Tree := { exampleFormat with types := [.integer] }

/-- The text of a batch of this one sample. -/
def fiveText : Text Tree where
  dump _ := ascii "[\x7b\"ts\": \x7b\x7d, \"data\": [5]\x7d]"
  cut _ buf := buf
  load buf :=
    if buf = ascii "[\x7b\"ts\": \x7b\x7d, \"data\": [5]\x7d]" then
      some (batch fiveFormat [fiveSample], 24)
    else none

theorem reports_five : Reports fiveFormat fiveText [fiveSample] (List.replicate 32 0) := by
  refine (reports_iff (f := fiveFormat) Tree.lawful_api Tree.strict_api back_exampleConv fiveText
    [fiveSample] (by decide) ⟨24, rfl⟩ _).mpr ⟨by decide, ?_, by decide⟩
  intro smp hsmp
  cases List.mem_singleton.mp hsmp
  refine ⟨rfl, fun j hj => ?_, by decide⟩
  match j, hj with
  | 0, _ => exact ⟨.integer, rfl, rfl, trivial⟩

/-- Of two samples, the second one cannot be packed. Then the buffer is smaller than the text. -/
theorem reports_more : ¬ Reports fiveFormat fiveText [fiveSample, unnamedSample] (List.replicate 32 0) ∧
    ¬ Reports fiveFormat fiveText [fiveSample] (List.replicate 8 0) := by
  constructor
  · intro h
    exact absurd h.packed (by decide)
  · intro h
    obtain ⟨wbytes, hwbytes, hfits, -⟩ := h.printed (by decide)
    cases hwbytes
    exact absurd hfits (by decide)

end VillasNode.Json
