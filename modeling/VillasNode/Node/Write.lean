import VillasNode.Hook.Partition
import VillasNode.Path.Ledger

/-!
# What `node_write` hands to its driver

`node_write` of `lib/node.cpp` with its counts of 32 bits. The result of
`hook_list_process` is `-1` after an error, and is assigned to `unsigned cnt`.
-/

namespace VillasNode.NodeWrite

variable {σ : Type*} {δ : Type}

/-- `write` of a node type. It is given where in the array its samples begin and how many they are,
and returns how many it has sent, at most all of them, or a negative number. -/
structure Driver (δ : Type) where
  write : δ → Int → BitVec 32 → BitVec 32 × δ
  sent_le : ∀ s start tosend,
    (write s start tosend).1.toInt < 0 ∨ (write s start tosend).1.toNat ≤ tosend.toNat

structure WriteCall where
  start : Int
  tosend : BitVec 32
  sent : BitVec 32
deriving DecidableEq

/-- `MIN(cnt - nsent, vect)` on `unsigned` -/
def nextCount (vect cnt nsent : BitVec 32) : BitVec 32 :=
  if cnt - nsent < vect then cnt - nsent else vect

/-- The `while` loop, at most `fuel` calls. The result is `none` where it has not ended by then. -/
def sendLoop (d : Driver δ) (vect cnt : BitVec 32) :
    Nat → δ → BitVec 32 → List WriteCall × δ × Option (BitVec 32)
  | 0, s, _ => ([], s, none)
  | fuel + 1, s, nsent =>
    -- `cnt - nsent > 0` on `unsigned`
    if cnt - nsent = 0 then ([], s, some nsent)
    else
      let tosend := nextCount vect cnt nsent
      let (sent, s) := d.write s nsent.toInt tosend
      let call := ⟨nsent.toInt, tosend, sent⟩
      if sent.toInt < 0 then ([call], s, some sent)
      else
        let (calls, s, ret) := sendLoop d vect cnt fuel s (nsent + sent)
        (call :: calls, s, ret)

structure Written (σ : Type*) (δ : Type) where
  node : NodeDirection σ
  driver : δ
  heap : Heap
  smps : List SampleId
  calls : List WriteCall
  ret : Option (BitVec 32)

/-- What `hook_list_process` returns, as `unsigned`. -/
def processedCount : Option Nat → BitVec 32
  | none => -1
  | some processed => BitVec.ofNat 32 processed

def vect (n : NodeDirection σ) (cnt : BitVec 32) : BitVec 32 :=
  if BitVec.ofNat 32 n.typeVectorize = 0 then cnt else BitVec.ofNat 32 n.typeVectorize

/-- `node_write`. The array is handed back as the hooks leave it. -/
def nodeWrite (n : NodeDirection σ) (h : Heap) (smps : List SampleId) (d : Driver δ) (s : δ)
    (fuel : Nat) : Written σ δ :=
  if n.state = .paused ∨ n.state = .pendingConnect then ⟨n, s, h, smps, [], some 0⟩
  else if n.state ≠ .started ∧ n.state ≠ .connected then ⟨n, s, h, smps, [], some (-1)⟩
  else
    let (hooks, h, smps, processed) := n.hooks.hookListProcess h smps
    let cnt := processedCount processed
    if cnt = 0 then ⟨{ n with hooks }, s, h, smps, [], some 0⟩
    else
      let (calls, s, ret) := sendLoop d (vect n cnt) cnt fuel s 0
      ⟨{ n with hooks }, s, h, smps, calls, ret⟩

/-! ## What a driver may be handed -/

/-- Each call begins where the one before has stopped. -/
def Consecutive : Int → List WriteCall → Prop
  | _, [] => True
  | start, c :: calls => c.start = start ∧ Consecutive (start + c.sent.toNat) calls

/-- The driver is offered the samples `kept`, which are in front of the array, in order. It has sent
all of them unless it failed. -/
structure Offered (kept : List SampleId) (w : Written σ δ) : Prop where
  front : w.smps.take kept.length = kept
  within : ∀ c ∈ w.calls, c.start + c.tosend.toNat ≤ kept.length
  consecutive : Consecutive 0 w.calls
  all : ∀ ret, w.ret = some ret → 0 ≤ ret.toInt →
    (w.calls.map fun c => c.sent.toNat).sum = kept.length

/-- The driver sends at least one of the samples it is given. -/
def Driver.Accepts (d : Driver δ) : Prop :=
  ∀ s start tosend, 0 < tosend.toNat → 0 < (d.write s start tosend).1.toInt

def NoHookFails (n : NodeDirection σ) (h : Heap) (smps : List SampleId) : Prop :=
  ∀ c ∈ (n.hooks.hookListProcessLogged h smps).2, c.reason ≠ .error

structure HandsOver (n : NodeDirection σ) (h : Heap) (smps : List SampleId) (d : Driver δ) (s : δ) :
    Prop where
  /-- No call reaches beyond the array. -/
  range : ∀ fuel, ∀ c ∈ (nodeWrite n h smps d s fuel).calls,
    0 ≤ c.start ∧ c.start + c.tosend.toNat ≤ smps.length
  inOrder : n.running → NoHookFails n h smps → ∃ ts : List (Treated n.hooks.retained.length),
    ts.map Treated.smp = smps ∧
      (n.hooks.hookListProcessLogged h smps).2 = ts.flatMap Treated.calls ∧
      ∀ fuel, Offered (keptOf ts) (nodeWrite n h smps d s fuel)
  failed : n.running → ¬ NoHookFails n h smps → ∀ fuel ret,
    (nodeWrite n h smps d s fuel).ret = some ret → ret.toInt < 0
  terminates : d.Accepts → ∃ fuel, (nodeWrite n h smps d s fuel).ret ≠ none

/-! ## The loop -/

section
variable {d : Driver δ} {vect cnt nsent : BitVec 32} {s : δ} {fuel : Nat}

theorem nextCount_toNat (vect cnt nsent : BitVec 32) :
    (nextCount vect cnt nsent).toNat = min (cnt - nsent).toNat vect.toNat := by
  unfold nextCount
  split
  · rename_i hlt
    rw [BitVec.lt_def] at hlt
    omega
  · rename_i hlt
    rw [BitVec.lt_def] at hlt
    omega

theorem sendLoop_done (hzero : cnt - nsent = 0) :
    sendLoop d vect cnt (fuel + 1) s nsent = ([], s, some nsent) :=
  if_pos hzero

theorem sendLoop_call (hne : cnt - nsent ≠ 0) :
    sendLoop d vect cnt (fuel + 1) s nsent =
      let r := d.write s nsent.toInt (nextCount vect cnt nsent)
      let call := ⟨nsent.toInt, nextCount vect cnt nsent, r.1⟩
      if r.1.toInt < 0 then ([call], r.2, some r.1)
      else
        let rest := sendLoop d vect cnt fuel r.2 (nsent + r.1)
        (call :: rest.1, rest.2) :=
  if_neg hne

/-- The calls of a loop that has at most `2 ^ 31` samples to send. -/
structure Sent (cnt nsent : BitVec 32) (r : List WriteCall × δ × Option (BitVec 32)) : Prop where
  start : ∀ c ∈ r.1, 0 ≤ c.start
  within : ∀ c ∈ r.1, c.start + c.tosend.toNat ≤ cnt.toNat
  consecutive : Consecutive nsent.toNat r.1
  all : ∀ ret, r.2.2 = some ret → 0 ≤ ret.toInt →
    nsent.toNat + (r.1.map fun c => c.sent.toNat).sum = cnt.toNat

theorem sendLoop_sent (hcnt : cnt.toNat ≤ 2 ^ 31) (hle : nsent.toNat ≤ cnt.toNat) :
    Sent cnt nsent (sendLoop d vect cnt fuel s nsent) := by
  induction fuel generalizing s nsent with
  | zero => exact ⟨nofun, nofun, trivial, nofun⟩
  | succ fuel ih =>
    by_cases hne : cnt - nsent = 0
    · have heq : cnt.toNat = nsent.toNat := by bv_omega
      rw [sendLoop_done hne]
      refine ⟨nofun, nofun, trivial, fun ret hret _ => ?_⟩
      simp [heq]
    · have hlt : nsent.toNat < cnt.toNat := by bv_omega
      have hstart : nsent.toInt = nsent.toNat := by
        rw [BitVec.toInt_eq_toNat_of_lt]
        omega
      have htosend := nextCount_toNat vect cnt nsent
      have hrest : (cnt - nsent).toNat = cnt.toNat - nsent.toNat := by bv_omega
      have hsent := d.sent_le s nsent.toInt (nextCount vect cnt nsent)
      rw [sendLoop_call hne]
      generalize nextCount vect cnt nsent = tosend at htosend hsent ⊢
      generalize d.write s nsent.toInt tosend = r at hsent ⊢
      obtain ⟨sent, s'⟩ := r
      dsimp only at hsent ⊢
      split
      · rename_i hneg
        refine ⟨?_, ?_, ⟨hstart, trivial⟩, ?_⟩
        · rw [List.forall_mem_singleton]
          dsimp only
          omega
        · rw [List.forall_mem_singleton]
          dsimp only
          omega
        · intro ret hret hpos
          cases hret
          omega
      · rename_i hpos
        have hsent' := hsent.resolve_left hpos
        have hadd : (nsent + sent).toNat = nsent.toNat + sent.toNat := by
          rw [BitVec.toNat_add_of_lt]
          omega
        have hle' : (nsent + sent).toNat ≤ cnt.toNat := by omega
        obtain ⟨hs, hw, hc, ha⟩ := ih (s := s') hle'
        rw [hadd] at hc ha
        refine ⟨?_, ?_, ⟨hstart, ?_⟩, ?_⟩
        · exact List.forall_mem_cons.mpr ⟨by dsimp only; omega, hs⟩
        · exact List.forall_mem_cons.mpr ⟨by dsimp only; omega, hw⟩
        · exact_mod_cast hc
        · intro ret hret hpos'
          have hrest := ha ret hret hpos'
          simp only [List.map_cons, List.sum_cons]
          omega

theorem sendLoop_terminates (hd : d.Accepts) (hvect : 0 < vect.toNat) {k : Nat}
    (hk : (cnt - nsent).toNat ≤ k) : ∃ fuel, (sendLoop d vect cnt fuel s nsent).2.2 ≠ none := by
  induction k generalizing s nsent with
  | zero =>
    refine ⟨1, ?_⟩
    rw [sendLoop_done (by bv_omega)]
    simp
  | succ k ih =>
    by_cases hne : cnt - nsent = 0
    · refine ⟨1, ?_⟩
      rw [sendLoop_done hne]
      simp
    · have hpos : 0 < (cnt - nsent).toNat := by bv_omega
      have htosend := nextCount_toNat vect cnt nsent
      have hsent := d.sent_le s nsent.toInt (nextCount vect cnt nsent)
      have haccepts := hd s nsent.toInt (nextCount vect cnt nsent) (by omega)
      have hle := hsent.resolve_left (by omega)
      have hzero : (d.write s nsent.toInt (nextCount vect cnt nsent)).1.toNat ≠ 0 := by
        intro hzero
        rw [BitVec.toInt_eq_toNat_cond, hzero] at haccepts
        simp at haccepts
      have hless : (cnt - (nsent + (d.write s nsent.toInt (nextCount vect cnt nsent)).1)).toNat ≤ k := by
        generalize (d.write s nsent.toInt (nextCount vect cnt nsent)).1 = sent at *
        bv_omega
      obtain ⟨fuel, hfuel⟩ := ih (s := (d.write s nsent.toInt (nextCount vect cnt nsent)).2) hless
      refine ⟨fuel + 1, ?_⟩
      rw [sendLoop_call hne]
      dsimp only
      rw [if_neg (by omega)]
      exact hfuel

theorem sendLoop_failed {ret : BitVec 32} (hret : (sendLoop d vect (-1) fuel s nsent).2.2 = some ret) :
    ret.toInt < 0 := by
  induction fuel generalizing s nsent with
  | zero => cases hret
  | succ fuel ih =>
    by_cases hne : -1 - nsent = 0
    · have hall : nsent = -1 := by bv_omega
      rw [sendLoop_done hne, hall] at hret
      cases hret
      decide
    · rw [sendLoop_call hne] at hret
      dsimp only at hret
      split at hret
      · rename_i hneg
        cases hret
        exact hneg
      · exact ih hret

end

/-! ## A driver that sends one sample in each call -/

def oneByOne : Driver Unit where
  write _ _ tosend := (if tosend = 0 then 0 else 1, ())
  sent_le s start tosend := by
    right
    dsimp only
    split
    · exact Nat.zero_le _
    · rename_i hne
      show 1 ≤ tosend.toNat
      bv_omega

section
variable {vect cnt nsent : BitVec 32}

theorem nextCount_pos (hvect : 0 < vect.toNat) (hlt : nsent.toNat < cnt.toNat) :
    0 < (nextCount vect cnt nsent).toNat := by
  rw [nextCount_toNat]
  have hpos : 0 < (cnt - nsent).toNat := by bv_omega
  omega

theorem oneByOne_call (hvect : 0 < vect.toNat) (hlt : nsent.toNat < cnt.toNat) (fuel : Nat) :
    (sendLoop oneByOne vect cnt (fuel + 1) () nsent).1 =
      ⟨nsent.toInt, nextCount vect cnt nsent, 1⟩ ::
        (sendLoop oneByOne vect cnt fuel () (nsent + 1)).1 := by
  have hne : cnt - nsent ≠ 0 := by bv_omega
  have hpos := nextCount_pos hvect hlt
  have hone : oneByOne.write () nsent.toInt (nextCount vect cnt nsent) = (1, ()) := by
    have hnext : nextCount vect cnt nsent ≠ 0 := by bv_omega
    unfold oneByOne
    dsimp only
    rw [if_neg hnext]
  rw [sendLoop_call hne, hone]
  dsimp only
  rw [if_neg (by decide)]

theorem oneByOne_reaches (nsent : BitVec 32) (hvect : 0 < vect.toNat) {m : Nat}
    (hm : nsent.toNat + m < cnt.toNat) :
    ∃ c ∈ (sendLoop oneByOne vect cnt (m + 1) () nsent).1,
      c.start = (BitVec.ofNat 32 (nsent.toNat + m)).toInt ∧ 0 < c.tosend.toNat := by
  induction m generalizing nsent with
  | zero =>
    rw [oneByOne_call hvect (by omega)]
    refine ⟨_, List.mem_cons_self, ?_, nextCount_pos hvect (by omega)⟩
    simp
  | succ m ih =>
    have hnext : (nsent + 1).toNat = nsent.toNat + 1 := by bv_omega
    obtain ⟨c, hc, hstart, hpos⟩ := ih (nsent + 1) (by omega)
    rw [oneByOne_call hvect (by omega)]
    refine ⟨c, List.mem_cons_of_mem _ hc, ?_, hpos⟩
    rw [hstart, hnext, Nat.add_right_comm, Nat.add_assoc nsent.toNat m 1]

theorem small_of_range {smps : List SampleId} (hvect : 0 < vect.toNat)
    (hrange : ∀ fuel, ∀ c ∈ (sendLoop oneByOne vect cnt fuel () 0).1,
      0 ≤ c.start ∧ c.start + c.tosend.toNat ≤ smps.length) :
    cnt.toNat ≤ smps.length ∧ cnt.toNat ≤ 2 ^ 31 := by
  by_contra hbig
  have hm : min smps.length (2 ^ 31) < cnt.toNat := by omega
  have hzero : (0 : BitVec 32).toNat = 0 := rfl
  have hreach : (0 : BitVec 32).toNat + min smps.length (2 ^ 31) < cnt.toNat := by
    rw [hzero, Nat.zero_add]
    exact hm
  obtain ⟨c, hc, hstart, hpos⟩ := oneByOne_reaches 0 hvect hreach
  obtain ⟨hnonneg, hend⟩ := hrange _ c hc
  rw [hstart, BitVec.toInt_eq_toNat_cond, BitVec.toNat_ofNat, hzero, Nat.zero_add,
    Nat.mod_eq_of_lt (by omega)] at hnonneg hend
  split at hnonneg
  · omega
  · omega

end

/-! ## `node_write` -/

theorem nodeWrite_running {n : NodeDirection σ} (hrun : n.running) (h : Heap) (smps : List SampleId)
    (d : Driver δ) (s : δ) (fuel : Nat) :
    nodeWrite n h smps d s fuel =
      let (hooks, h, smps, processed) := n.hooks.hookListProcess h smps
      let cnt := processedCount processed
      if cnt = 0 then ⟨{ n with hooks }, s, h, smps, [], some 0⟩
      else
        let (calls, s, ret) := sendLoop d (vect n cnt) cnt fuel s 0
        ⟨{ n with hooks }, s, h, smps, calls, ret⟩ := by
  have hstates : ¬ (n.state = .paused ∨ n.state = .pendingConnect) ∧
      ¬ (n.state ≠ .started ∧ n.state ≠ .connected) := by
    rcases hrun with hs | hs
    · simp [hs]
    · simp [hs]
  exact (if_neg hstates.1).trans (if_neg hstates.2)

theorem nodeWrite_idle {n : NodeDirection σ} (hidle : ¬ n.running) (h : Heap) (smps : List SampleId)
    (d : Driver δ) (s : δ) (fuel : Nat) :
    (nodeWrite n h smps d s fuel).calls = [] ∧ (nodeWrite n h smps d s fuel).ret ≠ none := by
  unfold nodeWrite
  split
  · exact ⟨rfl, by simp⟩
  split
  · exact ⟨rfl, by simp⟩
  · rename_i hstate
    unfold NodeDirection.running at hidle
    tauto

theorem nodeWrite_loop {n : NodeDirection σ} (hrun : n.running) (h : Heap) (smps : List SampleId)
    (d : Driver δ) (s : δ) (fuel : Nat) {cnt : BitVec 32}
    (hcnt : processedCount (n.hooks.hookListProcess h smps).2.2.2 = cnt) :
    (nodeWrite n h smps d s fuel).smps = (n.hooks.hookListProcess h smps).2.2.1 ∧
      (cnt = 0 ∧ (nodeWrite n h smps d s fuel).calls = [] ∧
          (nodeWrite n h smps d s fuel).ret = some 0 ∨
        cnt ≠ 0 ∧ (nodeWrite n h smps d s fuel).calls = (sendLoop d (vect n cnt) cnt fuel s 0).1 ∧
          (nodeWrite n h smps d s fuel).ret = (sendLoop d (vect n cnt) cnt fuel s 0).2.2) := by
  rw [nodeWrite_running hrun]
  generalize n.hooks.hookListProcess h smps = r at hcnt ⊢
  obtain ⟨hooks, h₁, smps₁, processed⟩ := r
  dsimp only at hcnt ⊢
  rw [hcnt]
  split
  · rename_i hzero
    exact ⟨rfl, .inl ⟨hzero, rfl, rfl⟩⟩
  · rename_i hne
    exact ⟨rfl, .inr ⟨hne, rfl, rfl⟩⟩

theorem vect_pos (n : NodeDirection σ) {cnt : BitVec 32} (hne : cnt ≠ 0) : 0 < (vect n cnt).toNat := by
  unfold vect
  split
  · bv_omega
  · rename_i htype
    bv_omega

/-- The hooks do not fail, and an `int` counts the samples that they keep. -/
def Countable (n : NodeDirection σ) (h : Heap) (smps : List SampleId) : Prop :=
  n.running → NoHookFails n h smps ∧
    ∀ processed, (n.hooks.hookListProcess h smps).2.2.2 = some processed → processed ≤ 2 ^ 31

section
variable {n : NodeDirection σ} {h : Heap} {smps : List SampleId}

theorem noHookFails_iff : NoHookFails n h smps ↔ (n.hooks.hookListProcess h smps).2.2.2 ≠ none := by
  rw [Ne, hookListProcess_fails_iff, not_exists]
  exact forall_congr' fun c => by rw [not_and]

theorem countable_of_range (hsmps : smps.length < 2 ^ 32)
    (hrange : ∀ fuel, ∀ c ∈ (nodeWrite n h smps oneByOne () fuel).calls,
      0 ≤ c.start ∧ c.start + c.tosend.toNat ≤ smps.length) : Countable n h smps := by
  intro hrun
  have hsmall : (processedCount (n.hooks.hookListProcess h smps).2.2.2).toNat ≤ smps.length ∧
      (processedCount (n.hooks.hookListProcess h smps).2.2.2).toNat ≤ 2 ^ 31 := by
    by_cases hzero : processedCount (n.hooks.hookListProcess h smps).2.2.2 = 0
    · rw [hzero]
      exact ⟨Nat.zero_le _, Nat.zero_le _⟩
    · apply small_of_range (vect_pos n hzero)
      intro fuel c hc
      apply hrange fuel c
      obtain ⟨-, ⟨hzero', -⟩ | ⟨-, hcalls, -⟩⟩ := nodeWrite_loop hrun h smps oneByOne () fuel rfl
      · exact absurd hzero' hzero
      · rw [hcalls]
        exact hc
  cases hprocessed : (n.hooks.hookListProcess h smps).2.2.2 with
  | none =>
    rw [hprocessed] at hsmall
    exact absurd hsmall.2 (by decide)
  | some processed =>
    refine ⟨noHookFails_iff.2 (by simp [hprocessed]), ?_⟩
    intro processed' heq
    cases heq
    have hle := hookListProcess_le hprocessed
    rw [hprocessed, processedCount, BitVec.toNat_ofNat, Nat.mod_eq_of_lt (by omega)] at hsmall
    exact hsmall.2

theorem nodeWrite_terminates (d : Driver δ) (s : δ) (hd : d.Accepts) :
    ∃ fuel, (nodeWrite n h smps d s fuel).ret ≠ none := by
  by_cases hrun : n.running
  · by_cases hzero : processedCount (n.hooks.hookListProcess h smps).2.2.2 = 0
    · refine ⟨0, ?_⟩
      obtain ⟨-, ⟨-, -, hret⟩ | ⟨hne, -⟩⟩ := nodeWrite_loop hrun h smps d s 0 rfl
      · simp [hret]
      · exact absurd hzero hne
    · obtain ⟨fuel, hfuel⟩ := sendLoop_terminates (s := s) hd (vect_pos n hzero) (le_refl _)
      refine ⟨fuel, ?_⟩
      obtain ⟨-, ⟨hzero', -⟩ | ⟨-, -, hret⟩⟩ := nodeWrite_loop hrun h smps d s fuel rfl
      · exact absurd hzero' hzero
      · rw [hret]
        exact hfuel
  · exact ⟨0, (nodeWrite_idle hrun h smps d s 0).2⟩

theorem nodeWrite_failed (d : Driver δ) (s : δ) (hrun : n.running) (hfail : ¬ NoHookFails n h smps)
    (fuel : Nat) {ret : BitVec 32} (hret : (nodeWrite n h smps d s fuel).ret = some ret) :
    ret.toInt < 0 := by
  have hnone : (n.hooks.hookListProcess h smps).2.2.2 = none := by
    by_contra hsome
    exact hfail (noHookFails_iff.2 hsome)
  obtain ⟨-, ⟨hzero, -⟩ | ⟨-, -, hret'⟩⟩ := nodeWrite_loop hrun h smps d s fuel rfl
  · rw [hnone] at hzero
    exact absurd hzero (by decide)
  · rw [hret', hnone] at hret
    exact sendLoop_failed hret

theorem Countable.sent (hcount : Countable n h smps) (hrun : n.running) (d : Driver δ) (s : δ)
    (fuel : Nat) {processed : Nat}
    (hprocessed : (n.hooks.hookListProcess h smps).2.2.2 = some processed) :
    (∀ c ∈ (nodeWrite n h smps d s fuel).calls, 0 ≤ c.start ∧ c.start + c.tosend.toNat ≤ processed) ∧
      Consecutive 0 (nodeWrite n h smps d s fuel).calls ∧
      ∀ ret, (nodeWrite n h smps d s fuel).ret = some ret → 0 ≤ ret.toInt →
        ((nodeWrite n h smps d s fuel).calls.map fun c => c.sent.toNat).sum = processed := by
  have hle := (hcount hrun).2 processed hprocessed
  have hnat : (BitVec.ofNat 32 processed).toNat = processed := by
    rw [BitVec.toNat_ofNat, Nat.mod_eq_of_lt (by omega)]
  obtain ⟨-, ⟨hzero, hcalls, hret⟩ | ⟨hne, hcalls, hret⟩⟩ := nodeWrite_loop hrun h smps d s fuel rfl
  · rw [hprocessed, processedCount] at hzero
    rw [hzero] at hnat
    rw [hcalls]
    exact ⟨nofun, trivial, fun _ _ _ => hnat⟩
  · have hsent : Sent (BitVec.ofNat 32 processed) 0
        (sendLoop d (vect n (BitVec.ofNat 32 processed)) (BitVec.ofNat 32 processed) fuel s 0) :=
      sendLoop_sent (by omega) (Nat.zero_le _)
    rw [hcalls, hret, hprocessed, processedCount]
    refine ⟨fun c hc => ⟨hsent.start c hc, ?_⟩, hsent.consecutive, fun ret hret' hpos => ?_⟩
    · have hwithin := hsent.within c hc
      rwa [hnat] at hwithin
    · have hall := hsent.all ret hret' hpos
      rw [hnat] at hall
      exact (Nat.zero_add _).symm.trans hall

theorem Countable.handsOver (hcount : Countable n h smps) (d : Driver δ) (s : δ) :
    HandsOver n h smps d s := by
  refine ⟨fun fuel c hc => ?_, fun hrun hok => ?_, fun hrun hfail fuel ret hret => ?_,
    nodeWrite_terminates d s⟩
  · by_cases hrun : n.running
    · obtain ⟨processed, hprocessed⟩ :=
        Option.ne_none_iff_exists'.mp (noHookFails_iff.1 (hcount hrun).1)
      have hle := hookListProcess_le hprocessed
      obtain ⟨hstart, hend⟩ := (hcount.sent hrun d s fuel hprocessed).1 c hc
      exact ⟨hstart, by omega⟩
    · rw [(nodeWrite_idle hrun h smps d s fuel).1] at hc
      cases hc
  · obtain ⟨-, ts, hgiven, hcalls, -, hprocessed, hfront⟩ :=
      hookListProcess_stable_partition n.hooks h smps hok
    refine ⟨ts, hgiven, hcalls, fun fuel => ?_⟩
    obtain ⟨hwithin, hconsecutive, hall⟩ := hcount.sent hrun d s fuel hprocessed
    refine ⟨?_, fun c hc => (hwithin c hc).2, hconsecutive, hall⟩
    rw [(nodeWrite_loop hrun h smps d s fuel rfl).1]
    exact hfront
  · exact nodeWrite_failed d s hrun hfail fuel hret

/-- For every batch, every node and every hook list: whatever its driver is, it is handed only what
is in the array, and the samples that the hooks keep in order, if and only if no hook fails and an
`int` counts the samples. -/
theorem hands_over_iff (hsmps : smps.length < 2 ^ 32) :
    (∀ (δ : Type) (d : Driver δ) (s : δ), HandsOver n h smps d s) ↔ Countable n h smps := by
  constructor
  · intro hall
    exact countable_of_range hsmps (hall Unit oneByOne ()).range
  · intro hcount δ d s
    exact hcount.handsOver d s

end

/-! ## A hook that fails -/

def failingHooks (sequence : BitVec 64) : HookList Unit :=
  { state := (), retained := [none], signals := fun _ _ => 0
    process := fun _ _ _ s =>
      ⟨(), s, if s.sequence = sequence then .error else .ok, fun _ => .keep⟩ }

def failingNode (sequence : BitVec 64) : NodeDirection Unit :=
  { state := .started, typeVectorize := 0, vectorize := 1, hooks := failingHooks sequence }

theorem hands_over_two : HandsOver (failingNode 9) numberedHeap [1, 2] oneByOne () := by
  have hcount : Countable (failingNode 9) numberedHeap [1, 2] := by
    refine fun _ => ⟨show ∀ c ∈ _, _ by decide, ?_⟩
    intro processed hprocessed
    cases hprocessed
    decide
  exact (hands_over_iff (by decide)).mpr hcount Unit oneByOne ()

/-- The hook fails on the only sample of the batch. The driver is told to send `2 ^ 32 - 1`. -/
theorem handed_beyond_array :
    (nodeWrite (failingNode 9) numberedHeap [9] oneByOne () 2).calls =
        [⟨0, 4294967295, 1⟩, ⟨1, 4294967294, 1⟩] ∧
      ¬ HandsOver (failingNode 9) numberedHeap [9] oneByOne () := by
  have hcalls : (nodeWrite (failingNode 9) numberedHeap [9] oneByOne () 2).calls =
      [⟨0, 4294967295, 1⟩, ⟨1, 4294967294, 1⟩] := by decide
  refine ⟨hcalls, fun hhands => ?_⟩
  have hrange := hhands.range 2 ⟨0, 4294967295, 1⟩ (by rw [hcalls]; exact List.mem_cons_self)
  exact absurd hrange.2 (by decide)

end VillasNode.NodeWrite
