import VillasNode.Format.Json
import VillasNode.VillasBinary.Model
import VillasNode.Lib.MachineInt
import Mathlib.Data.List.Forall2

/-!
# Many JSON samples

The loops of `lib/formats/json.cpp` over samples, elements and documents, for
any class that is derived from `JsonFormat`. `packSamples` returns the number of
samples it was given. `scan` takes every other result than 0 of `unpackSample` for
a failure, and `unpackSamples` only negative ones.
-/

namespace VillasNode.Json

open Jansson Line MachineInt

/-- The virtual functions of a class, for samples of type `S`. -/
structure Virtual (J S : Type) where
  api : Api J
  packSample : S → Option J
  unpackSample : J → Nat → Payload → Payload × Outcome

section
variable {J S : Type} (v : Virtual J S)

/-! ## Arrays -/

/-- The loop of `packSamples`. -/
def packLoop (json : J) : List S → J
  | [] => json
  | smp :: smps =>
    match v.packSample smp with
    | none => json
    | some jsonSmp => packLoop (v.api.arrayAppend json jsonSmp) smps

/-- `JsonFormat::packSamples` -/
def packSamples (smps : List S) : J × Int := (packLoop v v.api.array smps, toInt smps.length)

/-- The loop of `unpackSamples` from the element at index `i` on. -/
def unpackLoop (i : Nat) : List J → List Receiver → List Receiver × Outcome
  | [], smps => (smps, .ret (toInt i))
  | _ :: _, [] => ([], .ret (toInt i))
  | json :: rest, smp :: smps =>
    match v.unpackSample json smp.capacity smp.payload with
    | (payload, .thrown received expected index) =>
      ({ smp with payload } :: smps, .thrown received expected index)
    | (payload, .ret ret) =>
      if ret < 0 then ({ smp with payload } :: smps, .ret (toInt i))
      else
        let (smps, outcome) := unpackLoop (i + 1) rest smps
        ({ smp with payload } :: smps, outcome)

/-- `JsonFormat::unpackSamples` -/
def unpackSamples (json : J) (smps : List Receiver) : List Receiver × Outcome :=
  if v.api.typeof json ≠ .array then (smps, .ret (-1))
  else unpackLoop v 0 (v.api.elements json) smps

/-! ## Buffers -/

/-- The buffer behind `sprint`, what it returns, and `*wbytes` if it is set. -/
structure Printed where
  buf : List (BitVec 8)
  ret : Int
  wbytes : Option Nat

/-- `JsonFormat::sprint` -/
def sprint (text : Text J) (buf : List (BitVec 8)) (smps : List S) : Printed :=
  let (json, ret) := packSamples v smps
  if ret < 0 then ⟨buf, ret, none⟩
  else
    let (buf, wr) := text.dumpb json buf
    ⟨buf, ret, some wr⟩

/-- The samples behind `sscan`, what it returns or throws, and `*rbytes` if it is set. -/
structure Scanned where
  smps : List Receiver
  outcome : Outcome
  rbytes : Option Nat

/-- `JsonFormat::sscan` -/
def sscan (text : Text J) (buf : List (BitVec 8)) (smps : List Receiver) : Scanned :=
  match text.load buf with
  | none => ⟨smps, .ret (-1), none⟩
  | some (json, position) =>
    match unpackSamples v json smps with
    | (smps, .thrown received expected index) => ⟨smps, .thrown received expected index, none⟩
    | (smps, .ret ret) => ⟨smps, .ret ret, if ret < 0 then none else some position⟩

/-! ## Files -/

/-- `JsonFormat::print` behind `i` samples: what is written, and what is returned. The file takes
everything that is written. -/
def print (text : Text J) (i : Nat) : List S → List (BitVec 8) × Int
  | [] => ([], toInt i)
  | smp :: smps =>
    match v.packSample smp with
    | none => ([], -1)
    | some json =>
      let (bytes, ret) := print text (i + 1) smps
      (text.dump json ++ [newline] ++ bytes, ret)

/-- How the search for a document ends. -/
inductive Found where
  | accepted
  | ended
  | thrown (received expected : SignalType) (index : Nat)

/-- From `skip` on: documents are loaded until `unpackSample` returns 0. -/
def skip (d : Documents J) (smp : Receiver) (bytes : List (BitVec 8)) : Receiver × File × Found :=
  match _ : (d.loadf bytes).1 with
  | none => (smp, (d.loadf bytes).2, .ended)
  | some json =>
    match v.unpackSample json smp.capacity smp.payload with
    | (payload, .thrown received expected index) =>
      ({ smp with payload }, (d.loadf bytes).2, .thrown received expected index)
    | (payload, .ret ret) =>
      if ret = 0 then ({ smp with payload }, (d.loadf bytes).2, .accepted)
      else skip d { smp with payload } (d.loadf bytes).2.rest
termination_by bytes.length
decreasing_by exact d.loadf_lt bytes json (by assumption)

/-- `JsonFormat::scan` behind `i` samples. -/
def scan (d : Documents J) (i : Nat) (file : File) : List Receiver → List Receiver × File × Outcome
  | [] => ([], file, .ret (toInt i))
  | smp :: smps =>
    if file.eof then (smp :: smps, file, .ret (-1))
    else
      match skip v d smp file.rest with
      | (smp, file, .ended) => (smp :: smps, file, .ret (toInt i))
      | (smp, file, .thrown received expected index) =>
        (smp :: smps, file, .thrown received expected index)
      | (smp, file, .accepted) =>
        let (smps, file, outcome) := scan d (i + 1) file smps
        (smp :: smps, file, outcome)

/-! ## Samples for samples -/

/-- There is a sample to receive each sample, and it is fit for it. -/
structure Room (fit : S → Receiver → Prop) (smps : List S) (receivers : List Receiver) : Prop where
  length : smps.length ≤ receivers.length
  fits : ∀ (i : Nat) (smp : S) (receiver : Receiver), smps[i]? = some smp →
    receivers[i]? = some receiver → fit smp receiver

/-- The first samples are received, where `same` compares one that was sent to what is received. -/
def ReceivedFirst (same : S → Payload → Prop) (smps : List S) (n : Int) (receivers : List Receiver) : Prop :=
  ∀ i : Nat, i < n → ∃ smp receiver, smps[i]? = some smp ∧ receivers[i]? = some receiver ∧
    same smp receiver.payload

/-- Each sample is received. -/
def ReceivedAll (same : S → Payload → Prop) (smps : List S) (receivers : List Receiver) : Prop :=
  ∀ (i : Nat) (smp : S), smps[i]? = some smp →
    ∃ receiver, receivers[i]? = some receiver ∧ same smp receiver.payload

/-- These are the trees of all samples. -/
def Packs (smps : List S) (values : List J) : Prop :=
  List.Forall₂ (fun smp json => v.packSample smp = some json) smps values

/-- The trees of the samples in front of the first one that cannot be packed. -/
def placed : List S → List J
  | [] => []
  | smp :: smps =>
    match v.packSample smp with
    | none => []
    | some json => json :: placed smps

/-- Each tree is unpacked into the next sample, with a result of this kind. -/
inductive Unpacks (ok : Int → Prop) : List J → List Receiver → List Receiver → Prop
  | nil (receivers : List Receiver) : Unpacks ok [] receivers receivers
  | cons {json : J} {values : List J} {receiver : Receiver} {receivers new : List Receiver}
      {payload : Payload} {ret : Int}
      (hunpack : v.unpackSample json receiver.capacity receiver.payload = (payload, .ret ret))
      (hok : ok ret) (hrest : Unpacks ok values receivers new) :
      Unpacks ok (json :: values) (receiver :: receivers) ({ receiver with payload } :: new)

end

section
variable {J S : Type} {v : Virtual J S}

/-! ## Packed samples -/

theorem packLoop_eq (json : J) (smps : List S) :
    packLoop v json smps = (placed v smps).foldl v.api.arrayAppend json := by
  induction smps generalizing json with
  | nil => rfl
  | cons smp smps ih =>
    unfold packLoop placed
    cases v.packSample smp with
    | none => rfl
    | some jsonSmp => exact ih _

theorem packSamples_eq (smps : List S) :
    packSamples v smps = (v.api.arrayOf (placed v smps), toInt smps.length) := by
  unfold packSamples
  rw [packLoop_eq]
  rfl

theorem packs_placed {smps : List S} (h : (placed v smps).length = smps.length) :
    Packs v smps (placed v smps) := by
  induction smps with
  | nil => exact .nil
  | cons smp smps ih =>
    unfold placed at h ⊢
    cases hpack : v.packSample smp with
    | none =>
      rw [hpack] at h
      cases h
    | some json =>
      rw [hpack] at h
      exact .cons hpack (ih (Nat.succ.inj h))

theorem packs_of_forall {smps : List S} (h : ∀ smp ∈ smps, ∃ json, v.packSample smp = some json) :
    ∃ values, Packs v smps values := by
  induction smps with
  | nil => exact ⟨[], .nil⟩
  | cons smp smps ih =>
    rw [List.forall_mem_cons] at h
    obtain ⟨json, hpack⟩ := h.1
    obtain ⟨values, hvalues⟩ := ih h.2
    exact ⟨json :: values, .cons hpack hvalues⟩

theorem Packs.placed_eq {smps : List S} {values : List J} (h : Packs v smps values) :
    placed v smps = values := by
  induction h with
  | nil => rfl
  | cons hpack _ ih =>
    unfold placed
    rw [hpack]
    exact congrArg _ ih

theorem Packs.filterMap_eq {smps : List S} {values : List J} (h : Packs v smps values) :
    smps.filterMap v.packSample = values := by
  induction h with
  | nil => rfl
  | cons hpack _ ih => rw [List.filterMap_cons_some hpack, ih]

theorem Packs.get {smps : List S} {values : List J} (h : Packs v smps values) {i : Nat} {smp : S}
    (hsmp : smps[i]? = some smp) : ∃ json, values[i]? = some json ∧ v.packSample smp = some json := by
  induction h generalizing i with
  | nil => cases hsmp
  | cons hpack _ ih =>
    cases i with
    | zero =>
      cases hsmp
      exact ⟨_, rfl, hpack⟩
    | succ i => exact ih hsmp

theorem Packs.print_eq {smps : List S} {values : List J} (h : Packs v smps values) (d : Documents J)
    (i : Nat) : print v d.toText i smps = (d.lines values, toInt (i + smps.length)) := by
  induction h generalizing i with
  | nil => rfl
  | cons hpack _ ih =>
    unfold print
    rw [hpack]
    dsimp only
    rw [ih, List.length_cons, Nat.add_right_comm, Nat.add_assoc]
    rfl

/-! ## Unpacked samples -/

theorem room_map {fit : S → Receiver → Prop} {receiver : S → Receiver} (h : ∀ smp, fit smp (receiver smp))
    (smps : List S) : Room fit smps (smps.map receiver) := by
  refine ⟨?_, ?_⟩
  · exact Nat.le_of_eq (List.length_map _).symm
  · intro i smp receiver hsmp hreceiver
    rw [List.getElem?_map, hsmp] at hreceiver
    cases hreceiver
    exact h smp

theorem Room.cons {fit : S → Receiver → Prop} {smp : S} {smps : List S} {receivers : List Receiver}
    (h : Room fit (smp :: smps) receivers) : ∃ receiver rest, receivers = receiver :: rest ∧
      fit smp receiver ∧ Room fit smps rest := by
  cases receivers with
  | nil => exact absurd h.length (Nat.not_succ_le_zero _)
  | cons receiver rest =>
    exact ⟨receiver, rest, rfl, h.fits 0 smp receiver rfl rfl,
      ⟨Nat.le_of_succ_le_succ h.length, fun i => h.fits (i + 1)⟩⟩

theorem receivedFirst_iff {same : S → Payload → Prop} {smps : List S} {receivers : List Receiver} :
    ReceivedFirst same smps smps.length receivers ↔ ReceivedAll same smps receivers := by
  constructor
  · intro h i smp hsmp
    have hi : i < smps.length := (List.getElem?_eq_some_iff.mp hsmp).1
    obtain ⟨smp', receiver, hsmp', hreceiver, hreceived⟩ := h i (Int.ofNat_lt.mpr hi)
    rw [hsmp] at hsmp'
    cases hsmp'
    exact ⟨receiver, hreceiver, hreceived⟩
  · intro h i hi
    have hsmp := List.getElem?_eq_getElem (Int.ofNat_lt.mp hi)
    obtain ⟨receiver, hreceiver, hreceived⟩ := h i _ hsmp
    exact ⟨_, receiver, hsmp, hreceiver, hreceived⟩

theorem Packs.unpacks {ok : Int → Prop} {same : S → Payload → Prop} {fit : S → Receiver → Prop}
    {smps : List S} {values : List J} (hpacks : Packs v smps values) {receivers : List Receiver}
    (hroom : Room fit smps receivers)
    (h : ∀ smp ∈ smps, ∀ json, v.packSample smp = some json → ∀ receiver : Receiver,
      fit smp receiver → ∃ payload ret,
        v.unpackSample json receiver.capacity receiver.payload = (payload, .ret ret) ∧ ok ret ∧
          same smp payload) :
    ∃ new, Unpacks v ok values receivers new ∧ ReceivedAll same smps new := by
  induction hpacks generalizing receivers with
  | nil => exact ⟨receivers, .nil _, by simp [ReceivedAll]⟩
  | @cons smp json smps values hpack hpacks ih =>
    obtain ⟨receiver, rest, rfl, hfit, hrest⟩ := hroom.cons
    rw [List.forall_mem_cons] at h
    obtain ⟨payload, ret, hunpack, hok, hsame⟩ := h.1 json hpack receiver hfit
    obtain ⟨new, hnew, hall⟩ := ih hrest h.2
    refine ⟨_, .cons hunpack hok hnew, fun i smp' hsmp' => ?_⟩
    cases i with
    | zero =>
      cases hsmp'
      exact ⟨_, rfl, hsame⟩
    | succ i => exact hall i smp' hsmp'

theorem Unpacks.get {ok : Int → Prop} {values : List J} {receivers new : List Receiver}
    (h : Unpacks v ok values receivers new) {i : Nat} {json : J} (hjson : values[i]? = some json) :
    ∃ receiver payload ret, receivers[i]? = some receiver ∧
      v.unpackSample json receiver.capacity receiver.payload = (payload, .ret ret) ∧ ok ret ∧
        new[i]? = some { receiver with payload } := by
  induction h generalizing i with
  | nil => cases hjson
  | cons hunpack hok _ ih =>
    cases i with
    | zero =>
      cases hjson
      exact ⟨_, _, _, rfl, hunpack, hok, rfl⟩
    | succ i => exact ih hjson

theorem Unpacks.each {ok : Int → Prop} {same : S → Payload → Prop} {smps : List S} {values : List J}
    (hpacks : Packs v smps values) {receivers new : List Receiver}
    (h : Unpacks v ok values receivers new) (hall : ReceivedAll same smps new) {i : Nat} {smp : S}
    (hsmp : smps[i]? = some smp) : ∃ json receiver payload ret, v.packSample smp = some json ∧
      receivers[i]? = some receiver ∧
      v.unpackSample json receiver.capacity receiver.payload = (payload, .ret ret) ∧ ok ret ∧
      same smp payload := by
  obtain ⟨json, hjson, hpack⟩ := hpacks.get hsmp
  obtain ⟨receiver, payload, ret, hreceiver, hunpack, hok, hnew⟩ := h.get hjson
  obtain ⟨receiver', hreceiver', hsame⟩ := hall i smp hsmp
  rw [hnew] at hreceiver'
  cases hreceiver'
  exact ⟨json, receiver, payload, ret, hpack, hreceiver, hunpack, hok, hsame⟩

theorem unpackLoop_iff {i : Nat} {values : List J} (hlt : i + values.length < 2 ^ 31)
    (receivers new : List Receiver) :
    unpackLoop v i values receivers = (new, .ret ((i + values.length : Nat) : Int)) ↔
      Unpacks v (0 ≤ ·) values receivers new := by
  induction values generalizing i receivers new with
  | nil =>
    rw [List.length_nil, Nat.add_zero, ← toInt_of_lt (by omega : i < 2 ^ 31)]
    constructor
    · intro h
      cases h
      exact .nil _
    · intro h
      cases h
      rfl
  | cons json values ih =>
    rw [List.length_cons] at hlt ⊢
    have hstop : (i : Int) ≠ ((i + (values.length + 1) : Nat) : Int) := by omega
    cases receivers with
    | nil =>
      unfold unpackLoop
      rw [toInt_of_lt (by omega)]
      constructor
      · intro h
        cases (Prod.mk.inj h).2
      · rintro ⟨⟩
    | cons receiver receivers =>
      unfold unpackLoop
      constructor
      · intro h
        split at h
        · cases h
        · rename_i payload ret hunpack
          split at h
          · -- The loop ends at this element, which is too early.
            injection h with _ h
            injection h with h
            rw [toInt_of_lt (by omega)] at h
            exact absurd h hstop
          · rename_i hret
            generalize hrest : unpackLoop v (i + 1) values receivers = result at h
            obtain ⟨rest, outcome⟩ := result
            cases h
            refine .cons hunpack (Int.not_lt.mp hret) ((@ih (i + 1) (by omega) receivers rest).mp ?_)
            rw [hrest, Nat.add_right_comm, Nat.add_assoc]
      · intro h
        cases h with
        | cons hunpack hret hrest =>
          rw [hunpack]
          dsimp only
          rw [if_neg (Int.not_lt.mpr hret), (@ih (i + 1) (by omega) receivers _).mpr hrest,
            Nat.add_right_comm, Nat.add_assoc]

theorem unpackLoop_lt {i : Nat} {values : List J} {receivers new : List Receiver} {ret : Int}
    (h : unpackLoop v i values receivers = (new, .ret ret)) : ret < 2 ^ 31 := by
  induction values generalizing i receivers new with
  | nil =>
    cases h
    exact toInt_lt i
  | cons json values ih =>
    cases receivers with
    | nil =>
      cases h
      exact toInt_lt i
    | cons receiver receivers =>
      unfold unpackLoop at h
      split at h
      · cases h
      · split at h
        · cases h
          exact toInt_lt i
        · generalize hrest : unpackLoop v (i + 1) values receivers = result at h
          obtain ⟨rest, outcome⟩ := result
          cases h
          exact ih hrest

/-- All samples of an array are returned exactly when each one is unpacked, and their number is an
`int`. -/
theorem Packs.unpackSamples_iff (hapi : v.api.Lawful) {smps : List S} {values : List J}
    (h : Packs v smps values) (receivers new : List Receiver) :
    unpackSamples v (packSamples v smps).1 receivers = (new, .ret smps.length) ↔
      smps.length < 2 ^ 31 ∧ Unpacks v (0 ≤ ·) values receivers new := by
  have hlength : smps.length = values.length := List.Forall₂.length_eq h
  have hunpack : unpackSamples v (packSamples v smps).1 receivers = unpackLoop v 0 values receivers := by
    unfold unpackSamples
    rw [packSamples_eq, h.placed_eq]
    dsimp only
    rw [if_neg (not_not.mpr (hapi.typeof_arrayOf values)), hapi.elements_arrayOf]
  rw [hunpack, hlength]
  constructor
  · intro hloop
    have hlt : values.length < 2 ^ 31 := by
      have := unpackLoop_lt hloop
      omega
    exact ⟨hlt, (@unpackLoop_iff J S v 0 values (by omega) receivers new).mp (by rwa [Nat.zero_add])⟩
  · rintro ⟨hlt, hunpacks⟩
    have hloop := (@unpackLoop_iff J S v 0 values (by omega) receivers new).mpr hunpacks
    rwa [Nat.zero_add] at hloop

/-! ## Buffers -/

theorem sscan_faithful {text : Text J} {json : J} (hfaithful : text.Faithful json)
    (htype : v.api.typeof json = .array) (receivers : List Receiver) :
    (sscan v text (text.dump json) receivers).smps = (unpackLoop v 0 (v.api.elements json) receivers).1 ∧
      (sscan v text (text.dump json) receivers).outcome =
        (unpackLoop v 0 (v.api.elements json) receivers).2 := by
  obtain ⟨position, hload⟩ := hfaithful
  unfold sscan unpackSamples
  rw [hload]
  dsimp only
  rw [if_neg (not_not.mpr htype)]
  cases unpackLoop v 0 (v.api.elements json) receivers with
  | mk smps outcome =>
    cases outcome with
    | ret ret => exact ⟨rfl, rfl⟩
    | thrown received expected index => exact ⟨rfl, rfl⟩

theorem sprint_eq (text : Text J) (buf : List (BitVec 8)) {smps : List S} (hcount : smps.length < 2 ^ 31) :
    sprint v text buf smps = ⟨(text.dumpb (v.api.arrayOf (placed v smps)) buf).1, smps.length,
      some (text.dump (v.api.arrayOf (placed v smps))).length⟩ := by
  unfold sprint
  rw [packSamples_eq, toInt_of_lt hcount]
  dsimp only
  rw [if_neg (by omega)]
  rfl

theorem packed_iff_count {smps : List S} (hunsigned : smps.length < 2 ^ 32) :
    (toInt smps.length = (placed v smps).length) ↔
      smps.length < 2 ^ 31 ∧ (placed v smps).length = smps.length := by
  constructor
  · intro h
    obtain hlt | hge := Nat.lt_or_ge smps.length (2 ^ 31)
    · rw [toInt_of_lt hlt] at h
      exact ⟨hlt, by omega⟩
    · have := toInt_neg hge hunsigned
      omega
  · rintro ⟨hlt, h⟩
    rw [toInt_of_lt hlt, h]

/-! ## Documents -/

section
variable {d : Documents J}

theorem skip_none {bytes : List (BitVec 8)} (h : (d.loadf bytes).1 = none) (smp : Receiver) :
    skip v d smp bytes = (smp, (d.loadf bytes).2, .ended) := by
  rw [skip]
  split
  · rfl
  · rename_i hjson
    rw [h] at hjson
    cases hjson

theorem skip_some {bytes : List (BitVec 8)} {json : J} {file : File}
    (h : d.loadf bytes = (some json, file)) (smp : Receiver) :
    skip v d smp bytes =
      match v.unpackSample json smp.capacity smp.payload with
      | (payload, .thrown received expected index) =>
        ({ smp with payload }, file, .thrown received expected index)
      | (payload, .ret ret) =>
        if ret = 0 then ({ smp with payload }, file, .accepted)
        else skip v d { smp with payload } file.rest := by
  rw [skip]
  split
  · rename_i hnone
    rw [h] at hnone
    cases hnone
  · rename_i json' hjson
    rw [h] at hjson
    cases hjson
    rw [h]

theorem skip_lt {docs : List J} {bytes : List (BitVec 8)} (hreads : d.Reads docs bytes) {smp smp' : Receiver}
    {file : File} (h : skip v d smp bytes = (smp', file, .accepted)) :
    ∃ docs', d.Reads docs' file.rest ∧ file.eof = false ∧ docs'.length < docs.length := by
  induction docs generalizing smp bytes with
  | nil =>
    rw [skip_none hreads] at h
    cases h
  | cons json docs ih =>
    obtain ⟨bytes', hload, hreads⟩ := hreads
    rw [skip_some hload] at h
    split at h
    · cases h
    · split at h
      · cases h
        exact ⟨docs, hreads, rfl, Nat.lt_succ_self _⟩
      · obtain ⟨docs', hreads', heof, hlt⟩ := ih hreads h
        exact ⟨docs', hreads', heof, Nat.lt_succ_of_lt hlt⟩

theorem scan_le {docs : List J} {file : File} (heof : file.eof = false) (hreads : d.Reads docs file.rest)
    {i : Nat} (hlt : i + docs.length < 2 ^ 31) {receivers new : List Receiver} {file' : File} {ret : Int}
    (h : scan v d i file receivers = (new, file', .ret ret)) : ret ≤ (i + docs.length : Nat) := by
  induction receivers generalizing docs file i new with
  | nil =>
    unfold scan at h
    cases h
    rw [toInt_of_lt (by omega)]
    omega
  | cons receiver receivers ih =>
    unfold scan at h
    rw [if_neg (by simp [heof])] at h
    split at h
    · cases h
      rw [toInt_of_lt (by omega)]
      omega
    · cases h
    · rename_i smp file'' hskip
      obtain ⟨docs', hreads', heof', hless⟩ := skip_lt hreads hskip
      generalize hrest : scan v d (i + 1) file'' receivers = result at h
      obtain ⟨rest, file''', outcome⟩ := result
      cases h
      have hle := ih heof' hreads' (by omega) hrest
      omega

theorem scan_iff {docs : List J} {file : File} (heof : file.eof = false) (hreads : d.Reads docs file.rest)
    {i : Nat} (hlt : i + docs.length < 2 ^ 31) (receivers new : List Receiver) :
    (∃ file', scan v d i file receivers = (new, file', .ret ((i + docs.length : Nat) : Int))) ↔
      Unpacks v (· = 0) docs receivers new := by
  induction docs generalizing file i receivers new with
  | nil =>
    rw [List.length_nil, Nat.add_zero, ← toInt_of_lt (by omega : i < 2 ^ 31)]
    have hscan : ∃ file', scan v d i file receivers = (receivers, file', .ret (toInt i)) := by
      cases receivers with
      | nil => exact ⟨file, rfl⟩
      | cons receiver receivers =>
        unfold scan
        rw [if_neg (by simp [heof]), skip_none hreads]
        exact ⟨_, rfl⟩
    constructor
    · rintro ⟨file', h⟩
      obtain ⟨file'', hscan⟩ := hscan
      rw [hscan] at h
      cases h
      exact .nil _
    · intro h
      cases h
      exact hscan
  | cons json docs ih =>
    obtain ⟨bytes', hload, hreads⟩ := hreads
    rw [List.length_cons] at hlt ⊢
    constructor
    · rintro ⟨file', h⟩
      cases receivers with
      | nil =>
        unfold scan at h
        rw [toInt_of_lt (by omega)] at h
        have hret := (Outcome.ret.inj (Prod.mk.inj (Prod.mk.inj h).2).2)
        omega
      | cons receiver receivers =>
        unfold scan at h
        rw [if_neg (by simp [heof]), skip_some hload] at h
        generalize hunpack : v.unpackSample json receiver.capacity receiver.payload = result at h
        obtain ⟨payload, outcome⟩ := result
        cases outcome with
        | thrown received expected index => cases h
        | ret ret =>
          dsimp only at h
          by_cases hret : ret = 0
          · rw [if_pos hret] at h
            dsimp only at h
            generalize hrest : scan v d (i + 1) ⟨bytes', false⟩ receivers = result at h
            obtain ⟨rest, file'', outcome⟩ := result
            cases h
            refine .cons hunpack hret ((@ih ⟨bytes', false⟩ rfl hreads (i + 1) (by omega) _ _).mp ⟨file'', ?_⟩)
            rw [hrest, Nat.add_right_comm, Nat.add_assoc]
          · -- The document is skipped, and there are too few others.
            rw [if_neg hret] at h
            have hskipped : scan v d i ⟨bytes', false⟩ ({ receiver with payload } :: receivers) =
                (new, file', .ret ((i + (docs.length + 1) : Nat) : Int)) := by
              unfold scan
              exact h
            have hless := scan_le rfl hreads (by omega) hskipped
            omega
    · rintro h
      cases h with
      | cons hunpack hret hrest =>
        obtain ⟨file', hscan⟩ := (@ih ⟨bytes', false⟩ rfl hreads (i + 1) (by omega) _ _).mpr hrest
        unfold scan
        rw [if_neg (by simp [heof]), skip_some hload, hunpack]
        dsimp only
        rw [if_pos hret]
        dsimp only
        rw [hscan, Nat.add_right_comm, Nat.add_assoc]
        exact ⟨file', rfl⟩

theorem scan_lt {i : Nat} {file file' : File} {receivers new : List Receiver} {ret : Int}
    (h : scan v d i file receivers = (new, file', .ret ret)) : ret < 2 ^ 31 := by
  induction receivers generalizing i file new with
  | nil =>
    cases h
    exact toInt_lt i
  | cons receiver receivers ih =>
    unfold scan at h
    split at h
    · cases h
      decide
    · split at h
      · cases h
        exact toInt_lt i
      · cases h
      · rename_i smp file'' _
        generalize hrest : scan v d (i + 1) file'' receivers = result at h
        obtain ⟨rest, file''', outcome⟩ := result
        cases h
        exact ih hrest

/-- All samples of a file are returned exactly when each document is unpacked with 0, and their number
is an `int`. -/
theorem Packs.scan_iff {smps : List S} {values : List J} (h : Packs v smps values)
    (hfaithful : d.FaithfulAll values) (receivers new : List Receiver) :
    (∃ file, scan v d 0 ⟨(print v d.toText 0 smps).1, false⟩ receivers =
        (new, file, .ret smps.length)) ↔
      smps.length < 2 ^ 31 ∧ Unpacks v (· = 0) values receivers new := by
  have hlength : smps.length = values.length := List.Forall₂.length_eq h
  rw [h.print_eq d 0, hlength]
  have hscan (hlt : values.length < 2 ^ 31) :=
    @Json.scan_iff J S v d values ⟨d.lines values, false⟩ rfl hfaithful.reads 0 (by omega) receivers new
  simp only [Nat.zero_add] at hscan
  constructor
  · rintro ⟨file, hret⟩
    have hlt : values.length < 2 ^ 31 := by
      have := scan_lt hret
      omega
    exact ⟨hlt, (hscan hlt).mp ⟨file, hret⟩⟩
  · rintro ⟨hlt, hunpacks⟩
    exact (hscan hlt).mpr hunpacks

end

end

end VillasNode.Json
