import Mathlib.Data.List.Chain
import Mathlib.Data.List.Induction
import VillasNode.Lib.Runs
import VillasNode.Path.Conservation

/-!
# Sending from a pipe

The send thread of `src/villas-pipe.cpp`. In each turn of the loop the
environment decides what is scanned and how many samples are sent. `node_write`
leaves the references to the samples as they are.
-/

namespace VillasNode.Pipe

/-! ## The code -/

def hasSequence (smp : Payload) : Bool := smp.flags &&& SampleFlags.hasSequence ≠ 0

/-- Missing sequence numbers are filled in, and the last one is kept. -/
def fillSequence (lastSequenceno : BitVec 32) : List Payload → List Payload × BitVec 32
  | [] => ([], lastSequenceno)
  | smp :: smps =>
    if hasSequence smp then
      let (smps, last) := fillSequence (smp.sequence.setWidth 32) smps
      (smp :: smps, last)
    else
      let (smps, last) := fillSequence (lastSequenceno + 1) smps
      ({ smp with sequence := lastSequenceno.setWidth 64 } :: smps, last)

structure Direction where
  pool : PoolId
  vectorize : Nat
  limit : Int

/-- What `scan` makes of the standard input. -/
inductive Scan where
  /-- A negative result, and whether the thread is to stop. -/
  | failed (stop : Bool)
  | scanned (smps : List Payload)

/-- `sent` is what `node_write` returns. -/
structure Turn where
  scan : Scan
  sent : Int

structure Thread where
  heap : Heap
  lastSequenceno : BitVec 32
  cnt : Int
  /-- The samples that the node has got. -/
  written : List Payload
  ended : Bool

def Thread.start (heap : Heap) : Thread := ⟨heap, 0, 0, [], false⟩

/-- Samples are scanned into blocks. -/
def store (heap : Heap) (blocks : List SampleId) (smps : List Payload) : Heap :=
  (blocks.zip smps).foldl (fun heap b => heap.setPayload b.1 b.2) heap

/-- One turn of the loop of `PipeSendDirection::run`. -/
def turn (d : Direction) (s : Thread) (t : Turn) : Option Thread :=
  if s.ended then none
  else
    let (heap, blocks) := s.heap.sampleAllocMany d.pool d.vectorize
    match t.scan with
    | .failed stop => some { s with heap, ended := stop }
    | .scanned smps =>
      if blocks.length < smps.length then none
      else if smps.length = 0 then some { s with heap }
      else
        let (smps, lastSequenceno) := fillSequence s.lastSequenceno smps
        let heap := store heap blocks smps
        let heap := heap.sampleDecrefMany (blocks.take smps.length)
        let cnt := s.cnt + t.sent
        some ⟨heap, lastSequenceno, cnt, s.written ++ smps, 0 < d.limit ∧ d.limit ≤ cnt⟩

/-! ## The specification -/

/-- A number that is filled in is higher than the one in front of it. -/
def Continues (written : List Payload) : Prop :=
  written.IsChain fun a b => ¬ hasSequence b → a.sequence.toNat < b.sequence.toNat

/-- All samples that were allocated have been released, and no other ones. -/
structure Sound (z : SampleId → Sample) (R : Multiset SampleId) (s : Thread) : Prop where
  released : Balanced z s.heap R
  continues : Continues s.written

/-! ## When it is met -/

/-- The samples without a number are the first ones, and no more than there are numbers. -/
def NumbersLast (smps : List Payload) : Prop :=
  ∀ i a, smps[i]? = some a → ¬ hasSequence a → i < 2 ^ 32 ∧ ∀ b ∈ smps.take i, ¬ hasSequence b

def Scan.smps : Scan → List Payload
  | .failed _ => []
  | .scanned smps => smps

/-- The scan is full, and numbers are not followed by samples without one. -/
structure Good (d : Direction) (s : Thread) (t : Turn) : Prop where
  full : t.scan.smps.length = min d.vectorize (s.heap.free d.pool).length
  numbers : NumbersLast (s.written ++ t.scan.smps)

/-! ## Sequence numbers -/

section
variable {smps : List Payload} {smp : Payload} {last : BitVec 32}

theorem fillSequence_append (last : BitVec 32) (as bs : List Payload) :
    fillSequence last (as ++ bs) =
      ((fillSequence last as).1 ++ (fillSequence (fillSequence last as).2 bs).1,
        (fillSequence (fillSequence last as).2 bs).2) := by
  induction as generalizing last with
  | nil => rfl
  | cons smp as ih =>
    rw [List.cons_append, fillSequence, fillSequence, ih, ih]
    split_ifs <;> rfl

theorem fillSequence_length (last : BitVec 32) (smps : List Payload) :
    (fillSequence last smps).1.length = smps.length := by
  induction smps generalizing last with
  | nil => rfl
  | cons smp smps ih =>
    rw [fillSequence]
    split_ifs
    · exact congrArg Nat.succ (ih _)
    · exact congrArg Nat.succ (ih _)

theorem numbersLast_snoc : NumbersLast (smps ++ [smp]) ↔
    NumbersLast smps ∧ (¬ hasSequence smp → smps.length < 2 ^ 32 ∧ ∀ b ∈ smps, ¬ hasSequence b) := by
  constructor
  · refine fun h => ⟨fun i a ha hnone => ?_, fun hnone => ?_⟩
    · have hi : i < smps.length := (List.getElem?_eq_some_iff.mp ha).1
      have hprefix := h i a (by rwa [List.getElem?_append_left hi]) hnone
      rwa [List.take_append_of_le_length hi.le] at hprefix
    · have hlast := h smps.length smp (by simp) hnone
      rwa [List.take_left] at hlast
  · rintro ⟨h, hlast⟩ i a ha hnone
    by_cases hi : i < smps.length
    · rw [List.getElem?_append_left hi] at ha
      rw [List.take_append_of_le_length hi.le]
      exact h i a ha hnone
    · obtain ⟨hlength, heq⟩ := List.getElem?_eq_some_iff.mp ha
      rw [List.length_append, List.length_singleton] at hlength
      obtain rfl : i = smps.length := by omega
      rw [List.getElem_concat_length rfl] at heq
      rw [List.take_left]
      exact hlast (heq ▸ hnone)

theorem NumbersLast.left {as bs : List Payload} (h : NumbersLast (as ++ bs)) : NumbersLast as := by
  induction bs using List.reverseRecOn with
  | nil => rwa [List.append_nil] at h
  | append_singleton bs b ih =>
    rw [← List.append_assoc] at h
    exact ih (numbersLast_snoc.1 h).1

/-- What the number kept says about the samples so far. -/
inductive Kept (smps : List Payload) : Prop
  /-- No number was seen. -/
  | counting (hnone : ∀ b ∈ smps, ¬ hasSequence b)
      (hlast : (fillSequence 0 smps).2 = BitVec.ofNat 32 smps.length)
      (hnumber : ∀ a ∈ (fillSequence 0 smps).1.getLast?, a.sequence.toNat + 1 = smps.length)
  /-- The number was seen last. -/
  | seen (a : Payload) (ha : (fillSequence 0 smps).1.getLast? = some a) (hmem : ∃ b ∈ smps, hasSequence b)
      (hlast : (fillSequence 0 smps).2 = a.sequence.setWidth 32)

theorem fillSequence_snoc (smps : List Payload) (smp : Payload) :
    fillSequence 0 (smps ++ [smp]) =
      if hasSequence smp then ((fillSequence 0 smps).1 ++ [smp], smp.sequence.setWidth 32)
      else ((fillSequence 0 smps).1 ++ [{ smp with sequence := (fillSequence 0 smps).2.setWidth 64 }],
        (fillSequence 0 smps).2 + 1) := by
  rw [fillSequence_append, fillSequence]
  split_ifs <;> rfl

theorem NumbersLast.kept (h : NumbersLast smps) : Kept smps := by
  induction smps using List.reverseRecOn with
  | nil => exact .counting (List.forall_mem_nil _) rfl (fun a ha => by cases ha)
  | append_singleton smps smp ih =>
    obtain ⟨hinit, hsmp⟩ := numbersLast_snoc.1 h
    have hfill := fillSequence_snoc smps smp
    by_cases hseq : hasSequence smp
    · rw [if_pos hseq] at hfill
      refine .seen smp ?_ ⟨smp, by simp, hseq⟩ ?_
      · rw [hfill, List.getLast?_append]
        rfl
      · rw [hfill]
    · rw [if_neg hseq] at hfill
      obtain ⟨hlength, hnone⟩ := hsmp hseq
      obtain ⟨-, hlast, -⟩ | ⟨a, -, ⟨b, hb, hbseq⟩, -⟩ := ih hinit
      · refine .counting ?_ ?_ fun a ha => ?_
        · intro b hb
          obtain hb | hb := List.mem_append.mp hb
          · exact hnone b hb
          · rwa [List.mem_singleton.mp hb]
        · rw [hfill, hlast, List.length_append, List.length_singleton]
          exact (BitVec.ofNat_add ..).symm
        · rw [hfill, List.getLast?_append] at ha
          cases ha
          rw [hlast, List.getLast_singleton, List.length_append, List.length_singleton]
          dsimp only
          rw [BitVec.toNat_setWidth, BitVec.toNat_ofNat]
          omega
      · exact absurd hbseq (hnone b hb)

theorem NumbersLast.length_le (h : NumbersLast smps) (hnone : ∀ b ∈ smps, ¬ hasSequence b) :
    smps.length ≤ 2 ^ 32 := by
  by_cases hnil : smps.length = 0
  · omega
  · have hlt : smps.length - 1 < smps.length := by omega
    have hlast := (h _ _ (List.getElem?_eq_getElem hlt) (hnone _ (List.getElem_mem hlt))).1
    omega

theorem NumbersLast.next_iff (h : NumbersLast smps) :
    (∀ a ∈ (fillSequence 0 smps).1.getLast?, a.sequence.toNat < ((fillSequence 0 smps).2.setWidth 64).toNat) ↔
      smps.length < 2 ^ 32 ∧ ∀ b ∈ smps, ¬ hasSequence b := by
  obtain ⟨hnone, hlast, hnumber⟩ | ⟨a, ha, ⟨b, hb, hbseq⟩, hlast⟩ := h.kept
  · have hle := h.length_le hnone
    rw [and_iff_left hnone, hlast, BitVec.toNat_setWidth, BitVec.toNat_ofNat]
    constructor
    · intro hnext
      by_contra hlength
      have hne : (fillSequence 0 smps).1 ≠ [] := by
        intro hnil
        have hfill := fillSequence_length 0 smps
        rw [hnil, List.length_nil] at hfill
        omega
      have hmem := List.getLast?_eq_getLast_of_ne_nil hne
      have hlt := hnext _ hmem
      have hcount := hnumber _ hmem
      omega
    · intro hlength a ha
      have hcount := hnumber a ha
      omega
  · refine iff_of_false (fun hnext => ?_) fun hall => hall.2 b hb hbseq
    have hlt := hnext a ha
    rw [hlast, BitVec.toNat_setWidth, BitVec.toNat_setWidth] at hlt
    have := Nat.mod_le (a.sequence.toNat % 2 ^ 32) (2 ^ 64)
    have := Nat.mod_le a.sequence.toNat (2 ^ 32)
    omega

theorem continues_iff (smps : List Payload) : Continues (fillSequence 0 smps).1 ↔ NumbersLast smps := by
  induction smps using List.reverseRecOn with
  | nil => exact iff_of_true List.isChain_nil fun i a ha => by cases ha
  | append_singleton smps smp ih =>
    rw [numbersLast_snoc, ← ih, fillSequence_snoc]
    unfold Continues at ih ⊢
    split_ifs with hseq
    · rw [List.isChain_append]
      refine and_congr_right fun _ => iff_of_true ⟨List.isChain_singleton _, ?_⟩ (absurd hseq)
      intro a _ b hb hnone
      cases hb
      exact absurd hseq hnone
    · rw [List.isChain_append]
      refine and_congr_right fun hchain => ?_
      rw [forall_prop_of_true hseq, and_iff_right (List.isChain_singleton _), ← (ih.mp hchain).next_iff]
      refine forall₂_congr fun a _ => ⟨fun h => h _ rfl hseq, ?_⟩
      rintro h b hb -
      cases hb
      exact h

theorem fillSequence_idem (last : BitVec 32) (smps : List Payload) :
    fillSequence last (fillSequence last smps).1 = fillSequence last smps := by
  induction smps generalizing last with
  | nil => rfl
  | cons smp smps ih =>
    by_cases hseq : hasSequence smp
    · rw [fillSequence, if_pos hseq]
      dsimp only
      rw [fillSequence, if_pos hseq, ih]
    · rw [fillSequence, if_neg hseq]
      dsimp only
      rw [fillSequence, if_neg (by exact hseq), ih]

end

/-! ## A turn -/

variable {z : SampleId → Sample} {d : Direction} {s s' : Thread} {t : Turn} {R : Multiset SampleId}

theorem store_balanced {heap : Heap} (hb : Balanced z heap R) {blocks : List SampleId}
    (hblocks : ∀ b ∈ blocks, b ∈ R) (smps : List Payload) : Balanced z (store heap blocks smps) R := by
  unfold store
  induction blocks generalizing heap smps with
  | nil => exact hb
  | cons b blocks ih =>
    obtain - | ⟨smp, smps⟩ := smps
    · exact hb
    · exact ih (hb.setPayload (hblocks b (by simp)) smp) (fun b' hb' => hblocks b' (by simp [hb'])) smps

/-- What a turn does to the thread, when the blocks that it leaves are `lost`. -/
structure Turned (z : SampleId → Sample) (R : Multiset SampleId) (d : Direction) (s : Thread) (t : Turn)
    (s' : Thread) (lost : List SampleId) : Prop where
  balanced : Balanced z s'.heap (lost + R)
  written : s'.written = s.written ++ (fillSequence s.lastSequenceno t.scan.smps).1
  last : s'.lastSequenceno = (fillSequence s.lastSequenceno t.scan.smps).2
  room : lost.length + t.scan.smps.length = min d.vectorize (s.heap.free d.pool).length

theorem turn_spec (hb : Balanced z s.heap R) (h : turn d s t = some s') :
    ∃ lost, Turned z R d s t s' lost := by
  obtain ⟨halloc, hballoc, -⟩ := sampleAllocMany_spec s.heap d.pool d.vectorize hb
  have hlength : (s.heap.sampleAllocMany d.pool d.vectorize).2.length =
      min d.vectorize (s.heap.free d.pool).length := by
    rw [halloc.taken, List.length_take]
  unfold turn at h
  split_ifs at h
  dsimp only at h
  revert hballoc hlength h
  generalize s.heap.sampleAllocMany d.pool d.vectorize = r
  obtain ⟨heap, blocks⟩ := r
  intro hballoc hlength h
  have hnothing {s' : Thread} (hheap : s'.heap = heap) (hwritten : s'.written = s.written)
      (hlast : s'.lastSequenceno = s.lastSequenceno) (hsmps : t.scan.smps = []) :
      Turned z R d s t s' blocks := by
    refine ⟨by rwa [hheap], ?_, ?_, ?_⟩
    · rw [hsmps, hwritten]
      exact (List.append_nil _).symm
    · rw [hsmps, hlast]
      rfl
    · rwa [hsmps]
  obtain ⟨scan, sent⟩ := t
  obtain stop | smps := scan
  · cases h
    exact ⟨blocks, hnothing rfl rfl rfl rfl⟩
  · dsimp only at h
    split_ifs at h with hroom hzero
    · cases h
      exact ⟨blocks, hnothing rfl rfl rfl (List.eq_nil_of_length_eq_zero hzero)⟩
    · cases h
      refine ⟨blocks.drop smps.length, ?_, rfl, rfl, ?_⟩
      · dsimp only
        rw [fillSequence_length]
        refine Balanced.decrefMany ?_
        rw [← add_assoc, Multiset.coe_add, List.take_append_drop]
        refine store_balanced hballoc (fun b hmem => ?_) _
        exact Multiset.mem_add.mpr (.inl (Multiset.mem_coe.mpr hmem))
      · dsimp only [Scan.smps]
        rw [List.length_drop, Nat.sub_add_cancel (by omega)]
        exact hlength

/-- Blocks that are left once stay so, and the last number is the one that was filled in. -/
structure Going (z : SampleId → Sample) (R : Multiset SampleId) (s : Thread) : Prop where
  lost : ∃ L : Multiset SampleId, Balanced z s.heap (L + R)
  filled : fillSequence 0 s.written = (s.written, s.lastSequenceno)

theorem Going.turn (hs : Going z R s) (h : turn d s t = some s') : Going z R s' := by
  obtain ⟨L, hb⟩ := hs.lost
  obtain ⟨lost, hturn⟩ := turn_spec hb h
  constructor
  · refine ⟨lost + L, ?_⟩
    rw [add_assoc]
    exact hturn.balanced
  · rw [hturn.written, hturn.last, fillSequence_append, hs.filled, fillSequence_idem]

theorem Going.sound_iff (hs : Going z R s) (h : Pipe.turn d s t = some s') :
    Sound z R s' ↔ Sound z R s ∧ Good d s t := by
  obtain ⟨L, hb⟩ := hs.lost
  obtain ⟨lost, hturn⟩ := turn_spec hb h
  have hafter : Balanced z s'.heap R ↔ Balanced z s.heap R ∧ lost = [] := by
    have hreleased {heap : Heap} {L : Multiset SampleId} (hb : Balanced z heap (L + R)) :
        Balanced z heap R ↔ L = 0 := by
      rw [← add_eq_right (b := R)]
      refine ⟨hb.unique, fun heq => ?_⟩
      rwa [heq] at hb
    have hb' := hturn.balanced
    rw [← add_assoc] at hb'
    rw [hreleased hb', hreleased hb, add_eq_zero, Multiset.coe_eq_zero, and_comm]
  have hwritten : Continues s'.written ↔ NumbersLast (s.written ++ t.scan.smps) := by
    rw [← continues_iff, fillSequence_append, hs.filled, hturn.written]
  have hfull : t.scan.smps.length = min d.vectorize (s.heap.free d.pool).length ↔ lost = [] := by
    rw [← hturn.room, Nat.right_eq_add, List.length_eq_zero_iff]
  constructor
  · rintro ⟨hreleased, hcontinues⟩
    obtain ⟨hbefore, hlost⟩ := hafter.mp hreleased
    have hnumbers := hwritten.mp hcontinues
    have hcontinued := (continues_iff s.written).mpr hnumbers.left
    rw [hs.filled] at hcontinued
    exact ⟨⟨hbefore, hcontinued⟩, hfull.mpr hlost, hnumbers⟩
  · rintro ⟨hsound, hgood⟩
    exact ⟨hafter.mpr ⟨hsound.released, hfull.mp hgood.full⟩, hwritten.mpr hgood.numbers⟩

/-- The thread does what it is for exactly in the runs whose turns are all good. -/
theorem send_sound_iff (d : Direction) {heap : Heap} (hb : Balanced z heap R) {ts : List Turn} {s : Thread}
    (hrun : Runs.run (turn d) (.start heap) ts = some s) :
    Sound z R s ↔ Runs.Along (turn d) (Good d) (.start heap) ts := by
  have hstart : Going z R (.start heap) := ⟨⟨0, by rwa [zero_add]⟩, rfl⟩
  rw [Runs.along_iff_last (fun _ _ _ hs => hs.turn) (fun _ _ _ hs => hs.sound_iff) hstart hrun]
  exact and_iff_right ⟨hb, List.isChain_nil⟩

/-! Two samples at a time. -/

def exampleDirection : Direction := ⟨0, 2, -1⟩

def unnumbered : Payload := ⟨0, 0, 0, 0, ⟨0, 0⟩, ⟨0, 0⟩, fun _ => 0⟩

def numbered (sequence : BitVec 64) : Payload :=
  { unnumbered with sequence, flags := SampleFlags.hasSequence }

def fullTurns : List Turn := [⟨.scanned [unnumbered, numbered 5], 2⟩, ⟨.scanned [numbered 7, numbered 8], 2⟩]

theorem fullTurns_good : Runs.Along (turn exampleDirection) (Good exampleDirection) (.start exampleHeap) fullTurns := by
  refine ⟨⟨by decide, ?_⟩, ?_⟩
  · rw [← continues_iff]
    unfold Continues
    decide
  · rintro s' hs'
    cases hs'
    refine ⟨⟨by decide, ?_⟩, fun _ _ => trivial⟩
    rw [← continues_iff]
    unfold Continues
    decide

theorem send_sound_full : ∃ s, Runs.run (turn exampleDirection) (.start exampleHeap) fullTurns = some s ∧
    Sound exampleHeap.samples {10} s :=
  ⟨_, rfl, (send_sound_iff exampleDirection exampleHeap_balanced rfl).mpr fullTurns_good⟩

/-- A scan of one sample loses the other block. A sample after the one with number 5 gets it again. -/
theorem send_unsound :
    (∃ s, Runs.run (turn exampleDirection) (.start exampleHeap) [⟨.scanned [numbered 5], 1⟩] = some s ∧
      ¬ Balanced exampleHeap.samples s.heap {10}) ∧
    ∃ s, Runs.run (turn exampleDirection) (.start exampleHeap)
      [⟨.scanned [numbered 5, unnumbered], 2⟩] = some s ∧
      s.written.map (·.sequence) = [5, 5] ∧ ¬ Continues s.written := by
  refine ⟨⟨_, rfl, fun hreleased => ?_⟩, _, rfl, rfl, fun hcontinues => ?_⟩
  · have hfree := (hreleased.free_iff 0 2 (by decide)).mpr (by decide)
    revert hfree
    decide
  · have hlt := List.isChain_pair.mp hcontinues (by decide)
    exact absurd hlt (by decide)

end VillasNode.Pipe
