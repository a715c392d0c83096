import Mathlib.Data.Multiset.OrderedMonoid
import Mathlib.Tactic.Abel
import VillasNode.Hook.Ledger
import VillasNode.Path.Model

/-!
# The ledger of a read, phase by phase

Each phase of `path_source_read` keeps the ledger balanced, if the references
that nobody gives back are counted as *lost*. For each phase it is said exactly
when it loses none.
-/

namespace VillasNode

variable {σ : Type*} {z : SampleId → Sample} {h h' : Heap} {R : Multiset SampleId}
  {smps : List SampleId}

/-! ## `node_read` -/

theorem fill_spec (payloads : List Payload) (hs : ∀ s ∈ smps, s ∈ R) (hb : Balanced z h R) :
    Balanced z (h.fill smps payloads) R ∧ Touches smps h (h.fill smps payloads) := by
  unfold Heap.fill
  induction smps generalizing h payloads with
  | nil => exact ⟨hb, .refl _ _⟩
  | cons s smps ih =>
    cases payloads with
    | nil => exact ⟨hb, .refl _ _⟩
    | cons x payloads =>
      have hb₁ := hb.setPayload (hs s List.mem_cons_self) x
      obtain ⟨hb₂, ht₂⟩ := ih payloads (fun s' hs' => hs s' (List.mem_cons_of_mem s hs')) hb₁
      have ht₁ : Touches (s :: smps) h (h.setPayload s x) := .setPayload List.mem_cons_self x
      exact ⟨hb₂, ht₁.trans (ht₂.mono fun s' hs' => List.mem_cons_of_mem s hs')⟩

/-- The driver fails before it has read `cnt` samples. -/
def driverFails : Nat → List DriverRead → Prop
  | _, [] => False
  | cnt, .fail _ :: _ => 0 < cnt
  | cnt, .read payloads :: rs => 0 < cnt ∧ driverFails (cnt - payloads.length) rs

theorem readLoop_spec {vect nread : Nat} {rs : List DriverRead} {ret : Int}
    (hle : nread ≤ smps.length) (hs : ∀ s ∈ smps, s ∈ R) (hb : Balanced z h R)
    (hread : readLoop vect smps h nread rs = some (h', ret)) :
    Balanced z h' R ∧ Touches smps h h' ∧
      ((driverFails (smps.length - nread) rs ∧ ret < 0) ∨
        (¬ driverFails (smps.length - nread) rs ∧ ret = smps.length)) := by
  induction rs generalizing h nread with
  | nil =>
    unfold readLoop at hread
    split at hread <;> cases hread
    refine ⟨hb, .refl _ _, .inr ⟨id, ?_⟩⟩
    omega
  | cons r rs ih =>
    unfold readLoop at hread
    split at hread
    · cases r with
      | fail code =>
        cases hread
        refine ⟨hb, .refl _ _, .inl ⟨?_, Int.negSucc_lt_zero code⟩⟩
        show 0 < smps.length - nread
        omega
      | read payloads =>
        dsimp only at hread
        split at hread
        · obtain ⟨hb₁, ht₁⟩ := fill_spec payloads
            (fun s hs' => hs s (List.mem_of_mem_drop hs')) hb
          obtain ⟨hb₂, ht₂, hret⟩ := ih (by omega) hb₁ hread
          refine ⟨hb₂, (ht₁.mono fun s => List.mem_of_mem_drop).trans ht₂, ?_⟩
          have hpos : 0 < smps.length - nread := by omega
          unfold driverFails
          rwa [Nat.sub_sub, and_iff_right hpos]
        · simp at hread
    · cases hread
      have hzero : smps.length - nread = 0 := by omega
      refine ⟨hb, .refl _ _, .inr ⟨?_, ?_⟩⟩
      · rw [hzero]
        cases r with
        | fail code => exact lt_irrefl 0
        | read payloads => exact fun hf => lt_irrefl 0 hf.1
      · omega

/-- The node runs. -/
def NodeDirection.running (n : NodeDirection σ) : Prop := n.state = .started ∨ n.state = .connected

/-- The node hands on all of a batch: it runs, its driver does not fail and its hooks let every
sample pass. -/
def NodeDirection.delivers (n : NodeDirection σ) (h : Heap) (smps : List SampleId)
    (rs : List DriverRead) : Prop :=
  n.running ∧ ¬ driverFails smps.length rs ∧
    ∀ h₁ ret, readLoop (n.vect smps.length) smps h 0 rs = some (h₁, ret) →
      (n.hooks.hookListProcess h₁ smps).2.2.2 = some smps.length

theorem nodeRead_cases {n n' : NodeDirection σ} {rs : List DriverRead} {smps' : List SampleId}
    {recv : Int} (hread : nodeRead n h smps rs = some (n', h', smps', recv)) :
    (¬ n.running ∧ recv ≤ 0 ∧ n' = n ∧ h' = h ∧ smps' = smps) ∨
      (n.running ∧ ∃ h₁ nread, readLoop (n.vect smps.length) smps h 0 rs = some (h₁, nread) ∧
        ((nread < 0 ∧ recv = nread ∧ n' = n ∧ h' = h₁ ∧ smps' = smps) ∨
          (0 ≤ nread ∧ ∃ hooks rread, n.hooks.hookListProcess h₁ smps = (hooks, h', smps', rread) ∧
            n' = { n with hooks } ∧ recv = match rread with | none => -1 | some rread => rread))) := by
  unfold nodeRead at hread
  unfold NodeDirection.running
  split at hread
  · rename_i hstate
    cases hread
    rcases hstate with hstate | hstate <;> simp [hstate]
  split at hread
  · rename_i hstate
    cases hread
    exact .inl ⟨not_or.mpr hstate, by omega, rfl, rfl, rfl⟩
  rename_i hstate
  refine .inr ⟨by tauto, ?_⟩
  split at hread
  · simp at hread
  rename_i h₁ nread hloop
  refine ⟨h₁, nread, hloop, ?_⟩
  split at hread
  · rename_i hneg
    cases hread
    exact .inl ⟨hneg, rfl, rfl, rfl, rfl⟩
  · rename_i hneg
    rcases hp : n.hooks.hookListProcess h₁ smps with ⟨hooks, h₂, smps₂, rread⟩
    rw [hp] at hread
    cases hread
    exact .inr ⟨not_lt.mp hneg, hooks, rread, rfl, rfl, rfl⟩

theorem nodeWrite_cases {n : NodeDirection σ} {rs : List DriverWrite} {w : Written σ}
    (hw : nodeWrite n h smps rs = some w) :
    (¬ n.running ∧ w.node = n ∧ w.heap = h ∧ w.smps = smps) ∨
      (n.running ∧ ∃ hooks cnt, n.hooks.hookListProcess h smps = (hooks, w.heap, w.smps, some cnt) ∧
        w.node = { n with hooks }) := by
  unfold nodeWrite at hw
  unfold NodeDirection.running
  split at hw
  · rename_i hstate
    cases hw
    refine .inl ⟨?_, rfl, rfl, rfl⟩
    rcases hstate with hstate | hstate <;> simp [hstate]
  split at hw
  · rename_i hstate
    cases hw
    exact .inl ⟨not_or.mpr hstate, rfl, rfl, rfl⟩
  rename_i hstate
  refine .inr ⟨by tauto, ?_⟩
  rcases hp : n.hooks.hookListProcess h smps with ⟨hooks, h₁, smps₁, _ | cnt⟩
  · rw [hp] at hw
    simp at hw
  · rw [hp] at hw
    dsimp only at hw
    split at hw
    · cases hw
      exact ⟨hooks, cnt, rfl, rfl⟩
    · obtain ⟨r, -, rfl⟩ := Option.map_eq_some_iff.mp hw
      exact ⟨hooks, cnt, rfl, rfl⟩

structure Read (z : SampleId → Sample) (R : Multiset SampleId) (h : Heap) (smps : List SampleId)
    (n n' : NodeDirection σ) (h' : Heap) (smps' : List SampleId) (recv : Int) : Prop where
  balanced : Balanced z h' (retainedRefs n'.hooks.retained + (smps + R))
  perm : smps'.Perm smps
  touches : Touches smps h h'
  le : recv ≤ smps.length
  state : n'.state = n.state

theorem nodeRead_spec {n n' : NodeDirection σ} {rs : List DriverRead} {smps' : List SampleId}
    {recv : Int} (hb : Balanced z h (retainedRefs n.hooks.retained + (smps + R)))
    (hread : nodeRead n h smps rs = some (n', h', smps', recv)) :
    Read z R h smps n n' h' smps' recv := by
  obtain ⟨-, hle, rfl, rfl, rfl⟩ | ⟨-, h₁, nread, hloop, hcases⟩ := nodeRead_cases hread
  · exact ⟨hb, .refl _, .refl _ _, by omega, rfl⟩
  have hmem : ∀ s ∈ smps, s ∈ retainedRefs n.hooks.retained + ((smps : Multiset SampleId) + R) := by
    intro s hs
    exact Multiset.mem_add.mpr (.inr (Multiset.mem_add.mpr (.inl (Multiset.mem_coe.mpr hs))))
  obtain ⟨hb₁, ht₁, -⟩ := readLoop_spec (Nat.zero_le _) hmem hb hloop
  rcases hcases with ⟨hneg, rfl, rfl, rfl, rfl⟩ | ⟨-, hooks, rread, hp, rfl, rfl⟩
  · exact ⟨hb₁, .refl _, ht₁, by omega, rfl⟩
  · have hspec := hookListProcess_spec n.hooks smps hb₁
    rw [hp] at hspec
    refine ⟨hspec.balanced, hspec.perm, ht₁.trans hspec.touches, ?_, rfl⟩
    have hle := hspec.processed
    split
    · omega
    · rename_i k
      have := hle k rfl
      exact_mod_cast this

theorem nodeRead_recv {n n' : NodeDirection σ} {rs : List DriverRead} {smps' : List SampleId}
    {recv : Int} (hne : smps ≠ []) (hb : Balanced z h R) (hs : ∀ s ∈ smps, s ∈ R)
    (hread : nodeRead n h smps rs = some (n', h', smps', recv)) :
    recv = smps.length ↔ n.delivers h smps rs := by
  have hpos : 0 < smps.length := List.length_pos_iff.mpr hne
  unfold NodeDirection.delivers
  obtain ⟨hrun, hle, -⟩ | ⟨hrun, h₁, nread, hloop, hcases⟩ := nodeRead_cases hread
  · constructor
    · omega
    · rintro ⟨hrun', -⟩
      exact absurd hrun' hrun
  obtain ⟨-, -, hret⟩ := readLoop_spec (Nat.zero_le _) hs hb hloop
  rw [Nat.sub_zero] at hret
  rcases hcases with ⟨hneg, rfl, -⟩ | ⟨hpos', hooks, rread, hp, -, rfl⟩
  · constructor
    · omega
    · rintro ⟨-, hok, -⟩
      rcases hret with ⟨hfail, -⟩ | ⟨-, hret⟩
      · exact absurd hfail hok
      · omega
  · have hok : ¬ driverFails smps.length rs := by
      rcases hret with ⟨-, hret⟩ | ⟨hok, -⟩
      · omega
      · exact hok
    constructor
    · intro hrecv
      refine ⟨hrun, hok, fun h₃ ret₃ hloop₃ => ?_⟩
      cases hloop.symm.trans hloop₃
      rw [hp]
      cases rread with
      | none =>
        dsimp only at hrecv
        omega
      | some k => exact congrArg some (Int.ofNat_inj.mp hrecv)
    · rintro ⟨-, -, hall⟩
      have hk := hall h₁ nread hloop
      rw [hp] at hk
      obtain rfl : rread = some smps.length := hk
      rfl

/-! ## Secondary path sources -/

theorem Touches.increfMany (h : Heap) (smps smps' : List SampleId) :
    Touches smps' h (h.sampleIncrefMany smps) := by
  unfold Heap.sampleIncrefMany
  induction smps generalizing h with
  | nil => exact .refl _ _
  | cons s smps ih =>
    have ht : Touches smps' h (h.sampleIncref s) := ⟨rfl, fun s' _ => by rw [Heap.incref_payload]⟩
    exact ht.trans (ih _)

theorem Touches.decrefMany (h : Heap) (smps smps' : List SampleId) :
    Touches smps' h (h.sampleDecrefMany smps) := by
  unfold Heap.sampleDecrefMany
  induction smps generalizing h with
  | nil => exact .refl _ _
  | cons s smps ih =>
    have ht : Touches smps' h (h.sampleDecref s) :=
      ⟨Heap.decref_pools h s, fun s' _ => by rw [Heap.decref_payload]⟩
    exact ht.trans (ih _)

/-- The references of a queue, and what a batch loses that is pushed with all of its references
taken in advance. -/
theorem push_refs (queue smps : List SampleId) (n : Nat) (R : Multiset SampleId) :
    (smps : Multiset SampleId) + ((queue : Multiset SampleId) + R) =
      ((queue ++ smps.take n : List SampleId) : Multiset SampleId) +
        (((smps.drop n : List SampleId) : Multiset SampleId) + R) := by
  have hsplit : (smps : Multiset SampleId) =
      ((smps.take n : List SampleId) : Multiset SampleId) + ((smps.drop n : List SampleId)) := by
    rw [Multiset.coe_add, List.take_append_drop]
  rw [hsplit, ← Multiset.coe_add]
  abel

def Loopback.room (l : Loopback) : Nat := l.queueSize - l.queue.length

theorem loopbackInternalWrite_spec (l : Loopback) (hs : ∀ s ∈ smps, s ∈ R)
    (hb : Balanced z h ((l.queue : Multiset SampleId) + R)) :
    Balanced z (loopbackInternalWrite l h smps).2.1
      (((loopbackInternalWrite l h smps).1.queue : Multiset SampleId) +
        (((smps.drop (loopbackInternalWrite l h smps).2.2 : List SampleId) : Multiset SampleId) + R)) ∧
      Touches [] h (loopbackInternalWrite l h smps).2.1 := by
  have hb₁ := hb.increfMany fun s hs' => Multiset.mem_add.mpr (.inr (hs s hs'))
  rw [push_refs l.queue smps (min smps.length (l.queueSize - l.queue.length))] at hb₁
  exact ⟨hb₁, .increfMany _ _ _⟩

theorem loopbackDrain_spec (l : Loopback) (n : Nat)
    (hb : Balanced z h ((l.queue : Multiset SampleId) + R)) :
    Balanced z (loopbackDrain l h n).2 (((loopbackDrain l h n).1.queue : Multiset SampleId) + R) ∧
      Touches [] h (loopbackDrain l h n).2 := by
  rw [← List.take_append_drop n l.queue, ← Multiset.coe_add, add_assoc] at hb
  exact ⟨hb.decrefMany, .decrefMany _ _ _⟩

theorem round_loses_nothing (l : Loopback) (h : Heap) (smps : List SampleId) :
    ((smps.drop (loopbackInternalWrite l h smps).2.2 : List SampleId) : Multiset SampleId) = 0 ↔
      smps.length ≤ l.room := by
  rw [Multiset.coe_eq_zero, List.drop_eq_nil_iff]
  unfold loopbackInternalWrite Loopback.room
  dsimp only
  omega

theorem forwardLoop_spec {l l' : Loopback} {drains : List Nat} (hs : ∀ s ∈ smps, s ∈ R)
    (hb : Balanced z h ((l.queue : Multiset SampleId) + R))
    (hf : forwardLoop l h smps drains = some (l', h')) :
    ∃ lost : Multiset SampleId, Balanced z h' ((l'.queue : Multiset SampleId) + (lost + R)) ∧
      Touches [] h h' ∧ (lost = 0 ↔ smps.length ≤ l.room) := by
  induction drains generalizing l h smps R with
  | nil =>
    have hround := round_loses_nothing l h smps
    obtain ⟨hb₁, ht₁⟩ := loopbackInternalWrite_spec l hs hb
    unfold forwardLoop at hf
    dsimp only at hf
    split at hf
    · simp at hf
    · cases hf
      exact ⟨_, hb₁, ht₁, hround⟩
  | cons n drains ih =>
    have hround := round_loses_nothing l h smps
    obtain ⟨hb₁, ht₁⟩ := loopbackInternalWrite_spec l hs hb
    unfold forwardLoop at hf
    dsimp only at hf
    split at hf
    · -- A round that does not take all has lost references, whatever happens later.
      rename_i hlt
      obtain ⟨hb₂, ht₂⟩ := loopbackDrain_spec _ n hb₁
      obtain ⟨lost, hb₃, ht₃, -⟩ := ih
        (fun s hs' => Multiset.mem_add.mpr (.inr (hs s (List.mem_of_mem_drop hs')))) hb₂ hf
      rw [← add_assoc lost] at hb₃
      have hne : lost + ((smps.drop (loopbackInternalWrite l h smps).2.2 : List SampleId) :
          Multiset SampleId) ≠ 0 := by
        rw [Ne, add_eq_zero, Multiset.coe_eq_zero, List.drop_eq_nil_iff]
        exact fun hall => absurd hlt (Nat.not_lt.mpr hall.2)
      refine ⟨_, hb₃, (ht₁.trans ht₂).trans ht₃, fun h0 => absurd h0 hne, fun hle => ?_⟩
      have hall := List.drop_eq_nil_iff.mp ((Multiset.coe_eq_zero _).mp (hround.mpr hle))
      exact absurd hlt (Nat.not_lt.mpr hall)
    · cases hf
      exact ⟨_, hb₁, ht₁, hround⟩

def queueRefs : List Loopback → Multiset SampleId
  | [] => 0
  | l :: ls => (l.queue : Multiset SampleId) + queueRefs ls

theorem queueRefs_cons (l : Loopback) (ls : List Loopback) :
    queueRefs (l :: ls) = (l.queue : Multiset SampleId) + queueRefs ls := rfl

/-- The loopback does not take part, or its queue has room for the whole batch at once. -/
def Loopback.takes (l : Loopback) (cnt : Nat) : Prop :=
  l.state = .started ∨ l.state = .connected → cnt ≤ l.room

theorem forward_spec {ls ls' : List Loopback} {drains : Nat → List Nat} {i : Nat}
    (hs : ∀ s ∈ smps, s ∈ R) (hb : Balanced z h (queueRefs ls + R))
    (hf : forward h smps drains i ls = some (ls', h')) :
    ∃ lost : Multiset SampleId, Balanced z h' (queueRefs ls' + (lost + R)) ∧ Touches [] h h' ∧
      (lost = 0 ↔ ∀ l ∈ ls, l.takes smps.length) := by
  induction ls generalizing h R ls' i with
  | nil =>
    cases hf
    exact ⟨0, by rwa [zero_add], .refl _ _, by simp⟩
  | cons l ls ih =>
    unfold forward at hf
    rw [queueRefs_cons, add_assoc] at hb
    have hone : ∀ {l₁ h₁}, forwardOne l h smps (drains i) = some (l₁, h₁) →
        ∃ lost : Multiset SampleId, Balanced z h₁ ((l₁.queue : Multiset SampleId) +
          (lost + (queueRefs ls + R))) ∧ Touches [] h h₁ ∧ (lost = 0 ↔ l.takes smps.length) := by
      intro l₁ h₁ hf₁
      unfold forwardOne at hf₁
      unfold Loopback.takes
      split at hf₁
      · rename_i hrun
        rw [forall_prop_of_true hrun]
        exact forwardLoop_spec (fun s hs' => Multiset.mem_add.mpr (.inr (hs s hs'))) hb hf₁
      · rename_i hrun
        cases hf₁
        exact ⟨0, by rwa [zero_add], .refl _ _, by simp [hrun]⟩
    split at hf
    · simp at hf
    · rename_i l₁ h₁ hf₁
      obtain ⟨lost₁, hb₁, ht₁, hlost₁⟩ := hone hf₁
      obtain ⟨⟨ls₂, h₂⟩, hf₂, heq⟩ := Option.map_eq_some_iff.mp hf
      cases heq
      have hb₁' : Balanced z h₁ (queueRefs ls + ((l₁.queue : Multiset SampleId) + (lost₁ + R))) := by
        convert hb₁ using 1
        abel
      obtain ⟨lost₂, hb₂, ht₂, hlost₂⟩ := ih
        (fun s hs' => Multiset.mem_add.mpr (.inr (Multiset.mem_add.mpr (.inr (hs s hs'))))) hb₁' hf₂
      refine ⟨lost₁ + lost₂, ?_, ht₁.trans ht₂, ?_⟩
      · convert hb₂ using 1
        rw [queueRefs_cons]
        abel
      · rw [add_eq_zero, hlost₁, hlost₂, List.forall_mem_cons]

end VillasNode
