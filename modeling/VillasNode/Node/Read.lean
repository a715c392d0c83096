import VillasNode.Hook.Partition
import VillasNode.Path.Conservation

/-!
# What `node_read` keeps of a batch

A batch is read with several calls of the driver. A driver that is at the end
of its data fails in one of them, as `signal_generator_read` does behind its
limit. The samples of the calls before are then not delivered.
-/

namespace VillasNode.NodeRead

variable {σ : Type*} {h h' : Heap} {smps smps' : List SampleId} {rs : List DriverRead}

/-- What the driver has read of `cnt` samples when it fails or has read them all. -/
def readBefore : Nat → List DriverRead → List Payload
  | _, [] => []
  | _, .fail _ :: _ => []
  | cnt, .read payloads :: rs =>
    if 0 < cnt then payloads ++ readBefore (cnt - payloads.length) rs else []

/-- What the hooks make of the samples that were read. -/
def processRead (n : NodeDirection σ) (h : Heap) (smps : List SampleId) (rs : List DriverRead) :
    HookList σ × Heap × List SampleId × Option Nat :=
  n.hooks.hookListProcess (h.fill smps (readBefore smps.length rs))
    (smps.take (readBefore smps.length rs).length)

/-- The samples that were read before the driver failed are delivered, as the hooks leave them and
in this order. There are no more than were asked for. -/
structure KeepsRead (n : NodeDirection σ) (h : Heap) (smps : List SampleId) (rs : List DriverRead)
    (h' : Heap) (smps' : List SampleId) (recv : Int) : Prop where
  le : recv ≤ smps.length
  delivers : n.running → (driverFails smps.length rs → readBefore smps.length rs ≠ []) →
    ∀ hooks heap array processed,
      processRead n h smps rs = (hooks, heap, array, some processed) →
        recv = processed ∧ smps'.take processed = array.take processed ∧
          ∀ s ∈ array.take processed, h'.payload s = heap.payload s

/-- The driver fails behind a call that has read samples, and the hooks would process them. -/
def LosesRead (n : NodeDirection σ) (h : Heap) (smps : List SampleId) (rs : List DriverRead) : Prop :=
  n.running ∧ driverFails smps.length rs ∧ readBefore smps.length rs ≠ [] ∧
    (processRead n h smps rs).2.2.2 ≠ none

/-! ## The loop -/

theorem fill_append (h : Heap) {smps : List SampleId} {xs : List Payload} (ys : List Payload)
    (hle : xs.length ≤ smps.length) :
    h.fill smps (xs ++ ys) = (h.fill smps xs).fill (smps.drop xs.length) ys := by
  unfold Heap.fill
  induction xs generalizing h smps with
  | nil => simp
  | cons x xs ih =>
    cases smps with
    | nil => cases hle
    | cons s smps => exact ih (h.setPayload s x) (Nat.le_of_succ_le_succ hle)

theorem readLoop_filled {vect nread : Nat} {ret : Int} (hle : nread ≤ smps.length)
    (hread : readLoop vect smps h nread rs = some (h', ret)) :
    h' = h.fill (smps.drop nread) (readBefore (smps.length - nread) rs) ∧
      ((driverFails (smps.length - nread) rs ∧ ret < 0) ∨
        (¬ driverFails (smps.length - nread) rs ∧ ret = smps.length ∧
          (readBefore (smps.length - nread) rs).length = smps.length - nread)) := by
  induction rs generalizing h nread with
  | nil =>
    unfold readLoop at hread
    split at hread <;> cases hread
    refine ⟨by simp [readBefore, Heap.fill], .inr ⟨id, by omega, ?_⟩⟩
    rw [readBefore, List.length_nil]
    omega
  | cons r rs ih =>
    unfold readLoop at hread
    split at hread
    · rename_i hlt
      have hpos : 0 < smps.length - nread := by omega
      cases r with
      | fail code =>
        cases hread
        exact ⟨by simp [readBefore, Heap.fill], .inl ⟨hpos, Int.negSucc_lt_zero code⟩⟩
      | read payloads =>
        dsimp only at hread
        split at hread
        · rename_i hfits
          obtain ⟨hfilled, hret⟩ := ih (by omega) hread
          unfold driverFails readBefore
          rw [if_pos hpos, and_iff_right hpos, Nat.sub_sub, List.length_append]
          refine ⟨?_, ?_⟩
          · rw [hfilled, fill_append _ _ (by rw [List.length_drop]; omega), List.drop_drop]
          · rcases hret with hfail | ⟨hok, hall, hlen⟩
            · exact .inl hfail
            · exact .inr ⟨hok, hall, by omega⟩
        · cases hread
    · cases hread
      have hzero : smps.length - nread = 0 := by omega
      rw [hzero]
      cases r with
      | fail code =>
        exact ⟨by simp [readBefore, Heap.fill], .inr ⟨lt_irrefl 0, by omega, rfl⟩⟩
      | read payloads =>
        exact ⟨by simp [readBefore, Heap.fill], .inr ⟨fun hf => lt_irrefl 0 hf.1, by omega, rfl⟩⟩

/-! ## `node_read` -/

/-- For every vectorize limit, every count and all that a driver may return: the samples that were
read are delivered if and only if no call of the driver fails behind one that has read samples. -/
theorem keeps_read_iff {n n' : NodeDirection σ} {recv : Int}
    (hread : nodeRead n h smps rs = some (n', h', smps', recv)) :
    KeepsRead n h smps rs h' smps' recv ↔ ¬ LosesRead n h smps rs := by
  obtain ⟨hidle, hle, -⟩ | ⟨hrun, h₁, nread, hloop, hcases⟩ := nodeRead_cases hread
  · refine iff_of_true ⟨by omega, fun hrun => absurd hrun hidle⟩ fun hloses => hidle hloses.1
  obtain ⟨hfilled, hret⟩ := readLoop_filled (Nat.zero_le _) hloop
  rw [Nat.sub_zero] at hfilled hret
  rw [List.drop_zero] at hfilled
  rcases hcases with ⟨hneg, rfl, rfl, rfl, rfl⟩ | ⟨hpos, hooks, rread, hp, rfl, hrecv⟩
  · -- The driver has failed. Nothing is delivered.
    have hfail : driverFails smps'.length rs := by
      rcases hret with ⟨hfail, -⟩ | ⟨-, hall, -⟩
      · exact hfail
      · omega
    constructor
    · rintro ⟨-, hdelivers⟩ ⟨-, -, hsome, hhooks⟩
      obtain ⟨processed, hprocessed⟩ := Option.ne_none_iff_exists'.mp hhooks
      obtain ⟨hrecv, -⟩ := hdelivers hrun (fun _ => hsome) _ _ _ processed
        (by rw [← hprocessed])
      omega
    · intro hkeeps
      refine ⟨by omega, fun _ hsome hooks heap array processed hprocess => ?_⟩
      refine absurd ⟨hrun, hfail, hsome hfail, ?_⟩ hkeeps
      rw [hprocess]
      exact Option.some_ne_none processed
  · -- The driver has read the whole batch.
    obtain ⟨hok, hall, hlen⟩ := hret.resolve_left fun hfail => by omega
    have hprocess : processRead n h smps rs = (hooks, h', smps', rread) := by
      unfold processRead
      rw [hlen, List.take_length, ← hfilled]
      exact hp
    refine iff_of_true ⟨?_, ?_⟩ fun hloses => hok hloses.2.1
    · rw [hrecv]
      cases rread with
      | none =>
        dsimp only
        omega
      | some processed =>
        have hle : processed ≤ smps.length := hookListProcess_le (by rw [hp])
        dsimp only
        omega
    · intro _ _ hooks' heap array processed hprocess'
      cases hprocess.symm.trans hprocess'
      exact ⟨hrecv, rfl, fun _ _ => rfl⟩

/-! ## A driver that gives one sample at a time -/

def oneAtATime : NodeDirection Unit :=
  { state := .started, typeVectorize := 1, vectorize := 2, hooks := noHooks }

theorem keeps_read_two :
    ∃ n' h' recv, nodeRead oneAtATime exampleHeap [1, 2]
        [.read [exampleSample 7], .read [exampleSample 8]] = some (n', h', [1, 2], recv) ∧
      recv = 2 ∧
      KeepsRead oneAtATime exampleHeap [1, 2] [.read [exampleSample 7], .read [exampleSample 8]] h'
        [1, 2] recv := by
  refine ⟨_, _, _, rfl, rfl, (keeps_read_iff rfl).mpr ?_⟩
  rintro ⟨-, hfail, -⟩
  revert hfail
  simp [driverFails]

/-- The second call fails. The sample of the first one is in the block 1, and none is delivered. -/
theorem read_discarded :
    ∃ n' h' recv, nodeRead oneAtATime exampleHeap [1, 2] [.read [exampleSample 7], .fail 0] =
        some (n', h', [1, 2], recv) ∧
      recv = -1 ∧ (h'.payload 1).sequence = 7 ∧
      ¬ KeepsRead oneAtATime exampleHeap [1, 2] [.read [exampleSample 7], .fail 0] h' [1, 2] recv := by
  refine ⟨_, _, _, rfl, rfl, rfl, fun hkeeps => ?_⟩
  obtain ⟨hrecv, -⟩ := hkeeps.delivers (.inl rfl) (fun _ => by simp [readBefore]) _ _ _ 1 rfl
  cases hrecv

end VillasNode.NodeRead
