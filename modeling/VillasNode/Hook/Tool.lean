import VillasNode.Hook.Builtin
import VillasNode.Sample.Ledger

/-!
# The tool villas-hook

The loop of `src/villas-hook.cpp`, which processes the samples with one hook
and does so without `hook_list_process`. A batch is compacted in the array from
which its samples are released again, and they are released whatever their
reference counts are. `scan` of the formats cuts the samples on stdin into
batches, and may lose the last ones.
-/

namespace VillasNode.HookTool

variable {σ : Type*}

/-! ## Standard input -/

/-- The samples that are left, one for each line or object, and whether the end has been read. -/
structure Stdin where
  samples : List Payload
  feof : Bool
  ends : feof = true → samples = []

/-- What a call of `scan` has read, and whether its result counts these samples or is negative. -/
structure Scanned where
  read : List Payload
  returned : Bool
  rest : Stdin

/-- The loop of `LineFormat::scan` for `n` more samples. Without a further line it returns -1,
whatever it has read. -/
def lineScan : Nat → Stdin → Scanned
  | 0, s => ⟨[], true, s⟩
  | _ + 1, ⟨[], _, _⟩ => ⟨[], false, ⟨[], true, fun _ => rfl⟩⟩
  | n + 1, ⟨smp :: smps, _, _⟩ =>
    let r := lineScan n ⟨smps, false, Bool.noConfusion⟩
    { r with read := smp :: r.read }

/-- The loop of `JsonFormat::scan`. Without a further object it returns what it has read, and -1 when
the end has been read before. -/
def jsonScan : Nat → Stdin → Scanned
  | 0, s => ⟨[], true, s⟩
  | _ + 1, ⟨_, true, hends⟩ => ⟨[], false, ⟨_, true, hends⟩⟩
  | _ + 1, ⟨[], false, _⟩ => ⟨[], true, ⟨[], true, fun _ => rfl⟩⟩
  | n + 1, ⟨smp :: smps, false, _⟩ =>
    let r := jsonScan n ⟨smps, false, Bool.noConfusion⟩
    { r with read := smp :: r.read }

/-- The classes of formats that read stdin by samples. -/
inductive Scanner where
  | line
  | json
deriving DecidableEq

def Scanner.scan : Scanner → Nat → Stdin → Scanned
  | line => lineScan
  | json => jsonScan

/-- What the calls of `scan` return for batches of `cnt`, and what the call has read that is negative
in the end. -/
def batches (f : Scanner) (cnt : Nat) : Nat → Stdin → List (List Payload) × List Payload
  | 0, _ => ([], [])
  | fuel + 1, s =>
    match f.scan cnt s with
    | ⟨read, false, _⟩ => ([], read)
    | ⟨read, true, rest⟩ =>
      let r := batches f cnt fuel rest
      (read :: r.1, r.2)

/-- Each call of `scan` that returns samples has less to read behind it. -/
def Stdin.left (s : Stdin) : Nat := s.samples.length + if s.feof then 0 else 1

section
variable {f : Scanner} {cnt : Nat} {s : Stdin}

theorem scan_reads (f : Scanner) (n : Nat) (s : Stdin) :
    (f.scan n s).read ++ (f.scan n s).rest.samples = s.samples ∧ (f.scan n s).read.length ≤ n ∧
      ((f.scan n s).returned = false → (f.scan n s).rest.samples = []) := by
  obtain ⟨smps, feof, hends⟩ := s
  unfold Scanner.scan
  cases f with
  | line =>
    induction n generalizing smps feof with
    | zero => exact ⟨rfl, le_rfl, Bool.noConfusion⟩
    | succ n ih =>
      cases smps with
      | nil => exact ⟨rfl, Nat.zero_le _, fun _ => rfl⟩
      | cons smp smps =>
        obtain ⟨hread, hlen, hend⟩ := ih smps false Bool.noConfusion
        exact ⟨congrArg (smp :: ·) hread, Nat.succ_le_succ hlen, hend⟩
  | json =>
    induction n generalizing smps feof with
    | zero => exact ⟨rfl, le_rfl, Bool.noConfusion⟩
    | succ n ih =>
      cases feof with
      | true => exact ⟨rfl, Nat.zero_le _, fun _ => hends rfl⟩
      | false =>
        cases smps with
        | nil => exact ⟨rfl, Nat.zero_le _, fun _ => rfl⟩
        | cons smp smps =>
          obtain ⟨hread, hlen, hend⟩ := ih smps false Bool.noConfusion
          exact ⟨congrArg (smp :: ·) hread, Nat.succ_le_succ hlen, hend⟩

theorem left_scan_le (f : Scanner) (n : Nat) (s : Stdin) : (f.scan n s).rest.left ≤ s.left := by
  obtain ⟨smps, feof, hends⟩ := s
  unfold Scanner.scan
  cases f with
  | line =>
    induction n generalizing smps feof with
    | zero => exact le_rfl
    | succ n ih =>
      cases smps with
      | nil => exact Nat.zero_le _
      | cons smp smps =>
        refine (ih smps false Bool.noConfusion).trans ?_
        cases feof <;> simp [Stdin.left]
  | json =>
    induction n generalizing smps feof with
    | zero => exact le_rfl
    | succ n ih =>
      cases feof with
      | true => exact le_rfl
      | false =>
        cases smps with
        | nil => exact Nat.zero_le _
        | cons smp smps =>
          refine (ih smps false Bool.noConfusion).trans ?_
          simp [Stdin.left]

theorem left_scan_lt (hcnt : 0 < cnt) (hreturned : (f.scan cnt s).returned = true) :
    (f.scan cnt s).rest.left < s.left := by
  obtain ⟨n, rfl⟩ := Nat.exists_eq_add_one.mpr hcnt
  obtain ⟨smps, feof, hends⟩ := s
  have hrest := fun smps => left_scan_le f n ⟨smps, false, Bool.noConfusion⟩
  cases smps with
  | nil =>
    cases f with
    | line => cases hreturned
    | json =>
      cases feof with
      | true => cases hreturned
      | false => exact Nat.zero_lt_one
  | cons smp smps =>
    obtain rfl : feof = false := by
      rw [← Bool.not_eq_true]
      exact fun h => absurd (hends h) (List.cons_ne_nil smp smps)
    cases f with
    | line => exact (hrest smps).trans_lt (by simp [Stdin.left])
    | json => exact (hrest smps).trans_lt (by simp [Stdin.left])

theorem batches_all (hcnt : 0 < cnt) {fuel : Nat} (hfuel : s.left < fuel) :
    (batches f cnt fuel s).1.flatten ++ (batches f cnt fuel s).2 = s.samples ∧
      (∀ b ∈ (batches f cnt fuel s).1, b.length ≤ cnt) ∧ (batches f cnt fuel s).2.length ≤ cnt := by
  induction fuel generalizing s with
  | zero => omega
  | succ fuel ih =>
    obtain ⟨hread, hlen, hend⟩ := scan_reads f cnt s
    have hless := @left_scan_lt f cnt s hcnt
    unfold batches
    generalize f.scan cnt s = r at hread hlen hend hless ⊢
    obtain ⟨read, returned, rest⟩ := r
    cases returned with
    | false =>
      dsimp only at hread hend
      rw [hend rfl, List.append_nil] at hread
      exact ⟨hread, fun b hb => absurd hb List.not_mem_nil, hlen⟩
    | true =>
      obtain ⟨hall, hbatches, hlost⟩ := @ih rest (by have := hless rfl; dsimp only at this; omega)
      refine ⟨?_, List.forall_mem_cons.mpr ⟨hlen, hbatches⟩, hlost⟩
      dsimp only at hread ⊢
      rw [List.flatten_cons, List.append_assoc, hall, hread]

theorem scan_line (n : Nat) (s : Stdin) :
    (Scanner.line.scan n s).returned = decide (n ≤ s.samples.length) ∧
      (n ≤ s.samples.length → (Scanner.line.scan n s).read.length = n) := by
  obtain ⟨smps, feof, hends⟩ := s
  unfold Scanner.scan
  induction n generalizing smps feof with
  | zero => simp [lineScan]
  | succ n ih =>
    cases smps with
    | nil => simp [lineScan]
    | cons smp smps =>
      obtain ⟨hreturned, hread⟩ := ih smps false Bool.noConfusion
      dsimp only at hreturned hread ⊢
      unfold lineScan
      dsimp only
      rw [hreturned, List.length_cons]
      exact ⟨by simp, fun h => congrArg (· + 1) (hread (by omega))⟩

/-- A line format loses a short last batch. -/
theorem batches_line (hcnt : 0 < cnt) {fuel : Nat} (hfuel : s.left < fuel) :
    (batches .line cnt fuel s).2.length = s.samples.length % cnt := by
  induction fuel generalizing s with
  | zero => omega
  | succ fuel ih =>
    obtain ⟨hread, -, hend⟩ := scan_reads .line cnt s
    obtain ⟨hreturned, hfull⟩ := scan_line cnt s
    have hless := @left_scan_lt .line cnt s hcnt
    unfold batches
    generalize Scanner.line.scan cnt s = r at *
    obtain ⟨read, returned, rest⟩ := r
    dsimp only at hread hend hreturned hfull hless
    have hlength := congrArg List.length hread
    rw [List.length_append] at hlength
    by_cases hle : cnt ≤ s.samples.length
    · obtain rfl : returned = true := by rw [hreturned, decide_eq_true hle]
      have hrest := @ih rest (by have := hless rfl; omega)
      dsimp only
      rw [hrest, ← hlength, hfull hle, Nat.add_mod_left]
    · obtain rfl : returned = false := by rw [hreturned, decide_eq_false hle]
      rw [hend rfl, List.length_nil, Nat.add_zero] at hlength
      dsimp only
      rw [hlength, Nat.mod_eq_of_lt (by omega)]

end

/-! ## The loop -/

/-- A sample without the time of its reception gets the current time. -/
def stamp (now : Timespec) (smp : Payload) : Payload :=
  if smp.flags &&& SampleFlags.hasTsReceived = 0 then
    { smp with received := now, flags := smp.flags ||| SampleFlags.hasTsReceived }
  else smp

/-- One sample of a batch. Its signals are set unless the loop is left. -/
def process (now : Timespec) (hs : HookList σ) (h : Heap) (smp : SampleId) :
    HookList σ × Heap × Reason :=
  let h := h.setPayload smp (stamp now (h.payload smp))
  let o := hs.process 0 hs.state (hs.retained.map (Option.map h.payload)) (h.payload smp)
  let (h, retained) := h.retainAll smp o.retention 0 hs.retained
  let signals :=
    match o.reason with
    | .ok | .skipSample => hs.signals 0 o.state
    | .error | .stopProcessing => o.payload.signals
  ({ hs with state := o.state, retained }, h.setPayload smp { o.payload with signals }, o.reason)

/-- The loop over `processed`, for `n` more samples: the array and `send`, or `none` where it throws
`Failed to process samples`. -/
def processAll (now : Timespec) (hs : HookList σ) (h : Heap) (smps : List SampleId)
    (processed send : Nat) : Nat → HookList σ × Heap × List SampleId × Option Nat
  | 0 => (hs, h, smps, some send)
  | n + 1 =>
    match smps[processed]? with
    | none => (hs, h, smps, some send)
    | some smp =>
      match process now hs h smp with
      | (hs, h, .error) => (hs, h, smps, none)
      | (hs, h, .ok) => processAll now hs h (smps.set send smp) (processed + 1) (send + 1) n
      | (hs, h, .skipSample) => processAll now hs h smps (processed + 1) send n
      | (hs, h, .stopProcessing) => (hs, h, smps, some send)

/-- What `scan` reads in one call, at most as many samples as it gets. -/
structure Input where
  now : Timespec
  payloads : List Payload

/-- The samples on stdin as `scan` has cut them. -/
structure Stream where
  inputs : List Input
  lost : Input

/-- `now` is the time behind each call of `scan`. -/
def Stream.of (f : Scanner) (cnt : Nat) (now : Nat → Timespec) (samples : List Payload) : Stream :=
  let r := batches f cnt (samples.length + 2) ⟨samples, false, Bool.noConfusion⟩
  ⟨r.1.mapIdx fun i payloads => ⟨now i, payloads⟩, ⟨now r.1.length, r.2⟩⟩

/-- What a batch leaves behind. -/
structure Result (σ : Type*) where
  hook : HookList σ
  heap : Heap
  smps : List SampleId
  printed : List Payload

def sampleFreeMany (h : Heap) (smps : List SampleId) : Heap := smps.foldl Heap.sampleFree h

/-- One turn of the loop. `none` where it throws. -/
def batch (p : PoolId) (cnt : Nat) (input : Input) (hs : HookList σ) (h : Heap) : Option (Result σ) :=
  let (h, smps) := h.sampleAllocMany p cnt
  if smps.length ≠ cnt then none
  else
    let h := h.deliver (smps.zip input.payloads)
    match processAll input.now hs h smps 0 0 input.payloads.length with
    | (_, _, _, none) => none
    | (hs, h, smps, some send) =>
      some { hook := hs
             heap := sampleFreeMany h smps
             smps
             printed := (smps.take send).map h.payload }

/-- The same input for a hook list, whose samples have the time of their reception already: what
`hook_list_process` keeps of them. -/
def keep (input : Input) (smps : List SampleId) (hs : HookList σ) (h : Heap) :
    HookList σ × Heap × List Payload :=
  let h := h.deliver (smps.zip (input.payloads.map (stamp input.now)))
  match hs.hookListProcess h (smps.take input.payloads.length) with
  | (hs, h, _, none) => (hs, h, [])
  | (hs, h, smps, some n) => (hs, h, (smps.take n).map h.payload)

/-- How the loop ends: at the end of the input with samples that `scan` has read but not returned, with
a signal, or with an error of `scan`. -/
inductive End where
  | eof (lost : Input)
  | stopped
  | failed

/-- What is printed of a batch and what the hook list keeps, and the pool before and after. -/
structure Report where
  printed : List Payload
  kept : List Payload
  before : List SampleId
  after : List SampleId

/-- The loop with its end, where `last` is the array as the batch before has left it, and whether it
gets there without an exception. The hook list goes along with a heap of its own. -/
def run (p : PoolId) (cnt : Nat) (ending : End) : List Input → HookList σ → Heap → List SampleId →
    HookList σ → Heap → List Report × Bool
  | [], _, h, last, list, hl =>
    match ending with
    | .eof lost =>
      let (h', smps) := h.sampleAllocMany p cnt
      if smps.length ≠ cnt then ([], false)
      else
        let (_, _, kept) := keep lost smps list hl
        ([⟨[], kept, h.free p, (sampleFreeMany h' smps).free p⟩], true)
    | .stopped => ([⟨[], [], h.free p, (sampleFreeMany h last).free p⟩], true)
    | .failed => ([], false)
  | input :: inputs, hs, h, _, list, hl =>
    match batch p cnt input hs h with
    | none => ([], false)
    | some r =>
      let (list, hl, kept) := keep input (h.sampleAllocMany p cnt).2 list hl
      let rest := run p cnt ending inputs r.hook r.heap r.smps list hl
      (⟨r.printed, kept, h.free p, r.heap.free p⟩ :: rest.1, rest.2)

/-- The loop on these samples on stdin, in the formats of a class. The hook list gets all of them, in
the batches in which they are read. -/
def onStdin (f : Scanner) (p : PoolId) (cnt : Nat) (now : Nat → Timespec) (samples : List Payload)
    (hs : HookList σ) (h : Heap) : List Report × Bool :=
  let stream := Stream.of f cnt now samples
  run p cnt (.eof stream.lost) stream.inputs hs h [] hs h

/-- The tool prints what the hook list keeps, and every sample that a batch takes from the pool is
back exactly once after it. -/
def Agrees (r : List Report × Bool) : Prop :=
  r.2 = true ∧ ∀ report ∈ r.1, report.printed = report.kept ∧ report.after.Perm report.before

/-- The verdicts on these samples, one after the other. -/
def verdicts (now : Timespec) (hs : HookList σ) (h : Heap) : List SampleId → List Reason
  | [] => []
  | smp :: smps =>
    let r := process now hs h smp
    r.2.2 :: verdicts now r.1 r.2.1 smps

/-- No sample passes behind a sample that is skipped, and all are one or the other. -/
def Ordered (rs : List Reason) : Prop :=
  ∃ k m, rs = List.replicate k .ok ++ List.replicate m .skipSample

/-- The verdicts on the samples of a batch. -/
def batchVerdicts (p : PoolId) (cnt : Nat) (input : Input) (hs : HookList σ) (h : Heap) :
    List Reason :=
  let (h, smps) := h.sampleAllocMany p cnt
  verdicts input.now hs (h.deliver (smps.zip input.payloads)) (smps.take input.payloads.length)

/-- The pool does not hand out a sample that the hook still holds on to, and the hook passes or skips
every sample. -/
structure Settled (p : PoolId) (cnt : Nat) (input : Input) (hs : HookList σ) (h : Heap) : Prop where
  fresh : ∀ s ∈ (h.free p).take cnt, some s ∉ hs.retained
  passedOrSkipped : ∀ r ∈ batchVerdicts p cnt input hs h, r = .ok ∨ r = .skipSample

/-- And it skips only the last samples of the batch. -/
structure Clean (p : PoolId) (cnt : Nat) (input : Input) (hs : HookList σ) (h : Heap) : Prop where
  fresh : ∀ s ∈ (h.free p).take cnt, some s ∉ hs.retained
  ordered : Ordered (batchVerdicts p cnt input hs h)

/-- And of the samples that are read but not returned it would keep none. -/
def Idle (p : PoolId) (cnt : Nat) (lost : Input) (hs : HookList σ) (h : Heap) : Prop :=
  lost.payloads = [] ∨ (∀ s ∈ (h.free p).take cnt, some s ∉ hs.retained) ∧
    ∀ r ∈ batchVerdicts p cnt lost hs h, r = .skipSample

/-- Every batch of the loop starts like this, and the loop ends like that. -/
def EveryBatch (p : PoolId) (cnt : Nat) (P : Input → HookList σ → Heap → Prop)
    (last : HookList σ → Heap → Prop) : List Input → HookList σ → Heap → Prop
  | [], hs, h => last hs h
  | input :: inputs, hs, h =>
    P input hs h ∧ ∀ r, batch p cnt input hs h = some r → EveryBatch p cnt P last inputs r.hook r.heap

/-- Every batch is clean, and the hook would keep nothing of what gets lost. -/
def CleanRun (p : PoolId) (cnt : Nat) (stream : Stream) : HookList σ → Heap → Prop :=
  EveryBatch p cnt (Clean p cnt) (Idle p cnt stream.lost) stream.inputs

/-- The hook passes or skips all samples on stdin. -/
def SettledRun (p : PoolId) (cnt : Nat) (stream : Stream) : HookList σ → Heap → Prop :=
  EveryBatch p cnt (Settled p cnt)
    (fun hs h => stream.lost.payloads = [] ∨ Settled p cnt stream.lost hs h) stream.inputs

/-! ## The loop and the hook list -/

section
variable {hs : HookList σ} {h hl : Heap} {now : Timespec} {smp : SampleId}

theorem processChain_one (hone : hs.retained.length = 1) (h : Heap) (smp : SampleId) :
    hs.processChain h smp 0 hs.retained.length = hs.processOne h 0 smp := by
  rw [hone]
  unfold HookList.processChain HookList.processChain
  generalize hs.processOne h 0 smp = r
  obtain ⟨hs', h', reason⟩ := r
  cases reason <;> rfl

theorem process_eq (hverdict : (process now hs h smp).2.2 = .ok ∨ (process now hs h smp).2.2 = .skipSample) :
    process now hs h smp = hs.processOne (h.setPayload smp (stamp now (h.payload smp))) 0 smp := by
  unfold process at hverdict
  unfold process HookList.processOne
  dsimp only at hverdict ⊢
  rcases hverdict with heq | heq <;> rw [heq]

/-- The hook list has the samples `S` as the tool has them, and those that are to come with the
time of their reception. -/
structure Paired (now : Timespec) (S : SampleId → Prop) (rest : List SampleId) (hs : HookList σ)
    (h hl : Heap) : Prop where
  agree : AgreeOn S h hl
  within : hs.Within S
  apart : ∀ s ∈ rest, ¬ S s
  stamped : ∀ s ∈ rest, hl.payload s = stamp now (h.payload s)

theorem Paired.process {S : SampleId → Prop} {rest : List SampleId}
    (hpaired : Paired now S (smp :: rest) hs h hl) (hnodup : (smp :: rest).Nodup)
    (hverdict : (process now hs h smp).2.2 = .ok ∨ (process now hs h smp).2.2 = .skipSample) :
    ∃ hl', hs.processOne hl 0 smp =
        ((HookTool.process now hs h smp).1, hl', (HookTool.process now hs h smp).2.2) ∧
      Paired now (fun s => S s ∨ s = smp) rest (HookTool.process now hs h smp).1
        (HookTool.process now hs h smp).2.1 hl' := by
  obtain ⟨hsmp, -⟩ := List.nodup_cons.mp hnodup
  rw [process_eq hverdict]
  have hagree : AgreeOn (fun s => S s ∨ s = smp)
      (h.setPayload smp (stamp now (h.payload smp))) hl := by
    intro s hs'
    rw [Heap.setPayload_payload]
    split_ifs with heq
    · rw [heq, hpaired.stamped smp List.mem_cons_self]
    · exact hpaired.agree s (hs'.resolve_right heq)
  obtain ⟨hl', heq, hagree', hwithin'⟩ := processOne_agree 0 hagree
    (fun s hs' => .inl (hpaired.within s hs')) (.inr rfl)
  refine ⟨hl', heq, hagree', hwithin', ?_, ?_⟩
  · rintro s hmem (hS | rfl)
    · exact hpaired.apart s (List.mem_cons_of_mem smp hmem) hS
    · exact hsmp hmem
  · intro s hmem
    have hne : s ≠ smp := fun heq => hsmp (heq ▸ hmem)
    have hl'eq : hl' = (hs.processOne hl 0 smp).2.1 := by rw [heq]
    rw [hl'eq, processOne_payload, if_neg hne, processOne_payload, if_neg hne,
      Heap.setPayload_payload, if_neg hne, hpaired.stamped s (List.mem_cons_of_mem smp hmem)]

theorem process_retained : (process now hs h smp).1.retained.length = hs.retained.length := by
  unfold process
  dsimp only
  generalize (hs.process 0 hs.state _ _).retention = retention
  generalize h.setPayload smp (stamp now (h.payload smp)) = h'
  generalize 0 = i
  induction hs.retained generalizing h' i with
  | nil => rfl
  | cons prev prevs ih =>
    unfold Heap.retainAll
    dsimp only
    rw [List.length_cons, List.length_cons, ih]

/-- With samples that are skipped only behind the ones that pass, the tool and the hook list leave the
array as it is and agree on how many samples pass. -/
theorem processAll_agrees {S : SampleId → Prop} {rest front tail : List SampleId}
    (hone : hs.retained.length = 1) (hnodup : rest.Nodup) (hpaired : Paired now S rest hs h hl)
    {k m send : Nat} (hverdicts : verdicts now hs h rest =
      List.replicate k .ok ++ List.replicate m .skipSample) (hsend : 0 < k → send = front.length) :
    ∃ hs' h' hl' S', processAll now hs h (front ++ rest ++ tail) front.length send rest.length =
        (hs', h', front ++ rest ++ tail, some (send + k)) ∧
      hs.processLoop hl (front ++ rest) front.length send rest.length =
        (hs', hl', front ++ rest, some (send + k)) ∧
      Paired now S' [] hs' h' hl' ∧ ∀ s, S s ∨ s ∈ rest → S' s := by
  induction rest generalizing hs h hl S front k m send with
  | nil =>
    have hk : k = 0 := by
      have hlen := congrArg List.length hverdicts
      simp [verdicts] at hlen
      omega
    subst hk
    exact ⟨hs, h, hl, S, rfl, rfl, hpaired, fun s hs' => hs'.resolve_right List.not_mem_nil⟩
  | cons smp rest ih =>
    have hget : (front ++ smp :: rest ++ tail)[front.length]? = some smp := by simp
    have hgetl : (front ++ smp :: rest)[front.length]? = some smp := by simp
    have happend : front ++ smp :: rest = (front ++ [smp]) ++ rest := by simp
    have hlen : front.length + 1 = (front ++ [smp]).length := by simp
    have hnodup' := (List.nodup_cons.mp hnodup).2
    unfold verdicts at hverdicts
    dsimp only at hverdicts
    rw [List.length_cons]
    unfold processAll HookList.processLoop
    rw [hget, hgetl]
    dsimp only
    rw [processChain_one hone]
    have hretained := @process_retained _ hs h now smp
    cases k with
    | zero =>
      -- Nothing passes any more.
      cases m with
      | zero => cases hverdicts
      | succ m =>
        obtain ⟨hskip, hrest⟩ := List.cons.inj hverdicts
        obtain ⟨hl', heq, hpaired'⟩ := hpaired.process hnodup (.inr hskip)
        rw [heq]
        generalize process now hs h smp = r at *
        obtain ⟨hs₁, h₁, reason⟩ := r
        dsimp only at *
        subst hskip
        obtain ⟨hs', h', hl'', S', hall, hloop, hpaired'', hsub⟩ := @ih _ _ _ _
          (front ++ [smp]) (hretained.trans hone) hnodup' hpaired' 0 m send hrest (by omega)
        refine ⟨hs', h', hl'', S', ?_, ?_, hpaired'', ?_⟩
        · rw [happend, hlen]
          exact hall
        · rw [happend, hlen]
          exact hloop
        · intro s hs'
          apply hsub
          rw [List.mem_cons] at hs'
          exact or_assoc.mpr hs'
    | succ k =>
      obtain ⟨hok, hrest⟩ := List.cons.inj hverdicts
      obtain ⟨hl', heq, hpaired'⟩ := hpaired.process hnodup (.inl hok)
      obtain rfl := hsend (by omega)
      rw [heq]
      generalize process now hs h smp = r at *
      obtain ⟨hs₁, h₁, reason⟩ := r
      dsimp only at *
      subst hok
      have hset : (front ++ smp :: rest ++ tail).set front.length smp = front ++ smp :: rest ++ tail := by
        simp
      have hswap : HookList.swap (front ++ smp :: rest) front.length front.length =
          front ++ smp :: rest := by
        unfold HookList.swap
        rw [hgetl]
        simp
      obtain ⟨hs', h', hl'', S', hall, hloop, hpaired'', hsub⟩ := @ih _ _ _ _
        (front ++ [smp]) (hretained.trans hone) hnodup' hpaired' k m _ hrest (fun _ => rfl)
      refine ⟨hs', h', hl'', S', ?_, ?_, hpaired'', ?_⟩
      · dsimp only
        rw [hset, happend, hlen, hall, ← hlen, Nat.add_right_comm, Nat.add_assoc]
      · dsimp only
        rw [hswap, happend, hlen, hloop, ← hlen, Nat.add_right_comm, Nat.add_assoc]
      · intro s hs'
        apply hsub
        rw [List.mem_cons] at hs'
        exact or_assoc.mpr hs'

end

/-! ## The pool -/

/-- The pools have their blocks as before, and every sample is still one of its pool. -/
structure SamePools (h h' : Heap) : Prop where
  free : h'.free = h.free
  pools : h'.pools = h.pools
  pool : ∀ s, (h'.samples s).pool = (h.samples s).pool

/-- `smps` are referenced, and what the hook holds on to has a reference more. -/
structure Referenced (smps : List SampleId) (retained : List (Option SampleId)) (h : Heap) : Prop where
  refcnt : ∀ s ∈ smps, 1 ≤ (h.samples s).refcnt
  held : ∀ s, some s ∈ retained → 2 ≤ (h.samples s).refcnt

section
variable {hs : HookList σ} {h h' : Heap} {now : Timespec} {p : PoolId} {smp : SampleId}
  {smps : List SampleId}

theorem SamePools.trans {h'' : Heap} (h₁ : SamePools h h') (h₂ : SamePools h' h'') :
    SamePools h h'' :=
  ⟨h₂.free.trans h₁.free, h₂.pools.trans h₁.pools, fun s => (h₂.pool s).trans (h₁.pool s)⟩

theorem SamePools.setRefcnt (h : Heap) (s : SampleId) (n : Int) : SamePools h (h.setRefcnt s n) :=
  ⟨rfl, rfl, fun s' => by rw [Heap.setRefcnt_samples]⟩

theorem SamePools.setPayload (h : Heap) (s : SampleId) (x : Payload) : SamePools h (h.setPayload s x) :=
  ⟨rfl, rfl, fun s' => by rw [Heap.setPayload_samples]⟩

theorem Referenced.setPayload {retained : List (Option SampleId)} (href : Referenced smps retained h)
    (x : Payload) : Referenced smps retained (h.setPayload smp x) := by
  refine ⟨?_, ?_⟩
  · intro s hmem
    rw [Heap.setPayload_samples]
    exact href.refcnt s hmem
  · intro s hmem
    rw [Heap.setPayload_samples]
    exact href.held s hmem

theorem decref_held (hheld : 2 ≤ (h.samples smp).refcnt) :
    h.sampleDecref smp = h.setRefcnt smp ((h.samples smp).refcnt - 1) := by
  unfold Heap.sampleDecref
  exact if_neg (by omega)

theorem retain_referenced {prev : Option SampleId} (retention : Retention) (hsmp : smp ∈ smps)
    (href : Referenced smps [prev] h) :
    SamePools h (h.retain smp prev retention).1 ∧
      Referenced smps [(h.retain smp prev retention).2] (h.retain smp prev retention).1 := by
  have hone := href.refcnt smp hsmp
  cases retention with
  | keep => exact ⟨⟨rfl, rfl, fun _ => rfl⟩, href⟩
  | take =>
    cases prev with
    | none =>
      refine ⟨.setRefcnt h smp _, ?_, ?_⟩
      · intro s hmem
        have := href.refcnt s hmem
        unfold Heap.retain Heap.sampleIncref
        rw [Heap.setRefcnt_samples]
        grind
      · intro s hmem
        unfold Heap.retain at hmem ⊢
        unfold Heap.sampleIncref
        rw [Heap.setRefcnt_samples]
        grind
    | some prev =>
      have htwo := href.held prev List.mem_cons_self
      have hprev : 2 ≤ ((h.sampleIncref smp).samples prev).refcnt := by
        unfold Heap.sampleIncref
        rw [Heap.setRefcnt_samples]
        grind
      unfold Heap.retain
      dsimp only
      rw [decref_held hprev]
      refine ⟨(SamePools.setRefcnt h smp _).trans (.setRefcnt _ prev _), ?_, ?_⟩
      · intro s hmem
        have := href.refcnt s hmem
        unfold Heap.sampleIncref
        simp only [Heap.setRefcnt_samples]
        grind
      · intro s hmem
        unfold Heap.sampleIncref
        simp only [Heap.setRefcnt_samples]
        grind
  | drop =>
    cases prev with
    | none => exact ⟨⟨rfl, rfl, fun _ => rfl⟩, href⟩
    | some prev =>
      have htwo := href.held prev List.mem_cons_self
      unfold Heap.retain
      dsimp only
      rw [decref_held htwo]
      refine ⟨.setRefcnt h prev _, ?_, ?_⟩
      · intro s hmem
        have := href.refcnt s hmem
        rw [Heap.setRefcnt_samples]
        grind
      · intro s hmem
        cases List.mem_singleton.mp hmem

theorem process_referenced (hone : hs.retained.length = 1) (hsmp : smp ∈ smps)
    (href : Referenced smps hs.retained h) :
    SamePools h (process now hs h smp).2.1 ∧
      Referenced smps (process now hs h smp).1.retained (process now hs h smp).2.1 := by
  obtain ⟨prev, hprev⟩ := List.length_eq_one_iff.mp hone
  unfold process
  dsimp only
  rw [hprev] at href ⊢
  generalize hs.process 0 hs.state _ _ = o
  obtain ⟨hpools, href'⟩ := retain_referenced (o.retention 0) hsmp
    (href.setPayload (stamp now (h.payload smp)))
  exact ⟨((SamePools.setPayload h smp _).trans hpools).trans (.setPayload _ smp _), href'.setPayload _⟩

theorem processAll_referenced (hone : hs.retained.length = 1) (array : List SampleId)
    (processed send n : Nat) (hsub : ∀ s ∈ array, s ∈ smps) (href : Referenced smps hs.retained h) :
    SamePools h (processAll now hs h array processed send n).2.1 ∧
      Referenced smps (processAll now hs h array processed send n).1.retained
        (processAll now hs h array processed send n).2.1 ∧
      (processAll now hs h array processed send n).1.retained.length = 1 := by
  induction n generalizing hs h array processed send with
  | zero => exact ⟨⟨rfl, rfl, fun _ => rfl⟩, href, hone⟩
  | succ n ih =>
    unfold processAll
    cases hget : array[processed]? with
    | none => exact ⟨⟨rfl, rfl, fun _ => rfl⟩, href, hone⟩
    | some smp =>
      have hsmp := hsub smp (List.mem_of_getElem? hget)
      obtain ⟨hpools, href'⟩ := process_referenced hone hsmp href
      have hone' := @process_retained _ _ h now smp |>.trans hone
      dsimp only
      generalize process now hs h smp = r at *
      obtain ⟨hs₁, h₁, reason⟩ := r
      cases reason with
      | error => exact ⟨hpools, href', hone'⟩
      | ok =>
        have hset : ∀ s ∈ array.set send smp, s ∈ smps := by
          intro s hs'
          rcases List.mem_or_eq_of_mem_set hs' with hmem | rfl
          · exact hsub s hmem
          · exact hsmp
        obtain ⟨hpools', hrest⟩ := ih hone' (array.set send smp) (processed + 1) (send + 1) hset href'
        exact ⟨hpools.trans hpools', hrest⟩
      | skipSample =>
        obtain ⟨hpools', hrest⟩ := ih hone' array (processed + 1) send hsub href'
        exact ⟨hpools.trans hpools', hrest⟩
      | stopProcessing => exact ⟨hpools, href', hone'⟩

/-- What a batch takes from the pool. -/
structure Allocated (p : PoolId) (cnt : Nat) (h h' : Heap) : Prop where
  free : h'.free p = (h.free p).drop cnt
  pools : h'.pools = h.pools
  refcnt : ∀ s ∈ (h.free p).take cnt, (h'.samples s).refcnt = 1 ∧ (h'.samples s).pool = some p
  others : ∀ s ∉ (h.free p).take cnt, h'.samples s = h.samples s

theorem sampleAllocMany_allocated (cnt : Nat) (hnodup : (h.free p).Nodup) :
    (h.sampleAllocMany p cnt).2 = (h.free p).take cnt ∧
      Allocated p cnt h (h.sampleAllocMany p cnt).1 := by
  induction cnt generalizing h with
  | zero => exact ⟨rfl, rfl, rfl, fun s hs => absurd hs List.not_mem_nil, fun s _ => rfl⟩
  | succ cnt ih =>
    unfold Heap.sampleAllocMany Heap.sampleAlloc
    cases hfree : h.free p with
    | nil => exact ⟨rfl, by simp [hfree], rfl, by simp [hfree], fun s _ => rfl⟩
    | cons s free =>
      rw [hfree, List.nodup_cons] at hnodup
      generalize hh₁ : (h.setFree p free).sampleInit p s = h₁
      have hfree₁ : h₁.free p = free := by
        rw [← hh₁]
        exact Function.update_self ..
      have hs₁ : (h₁.samples s).refcnt = 1 ∧ (h₁.samples s).pool = some p := by
        rw [← hh₁]
        unfold Heap.sampleInit Heap.setSample
        simp
      have hother₁ : ∀ s' ≠ s, h₁.samples s' = h.samples s' := by
        intro s' hne
        rw [← hh₁]
        exact Function.update_of_ne hne ..
      obtain ⟨hsmps, halloc⟩ := ih (h := h₁) (hfree₁ ▸ hnodup.2)
      rw [hfree₁] at hsmps
      have hnot : s ∉ free.take cnt := fun hmem => hnodup.1 (List.mem_of_mem_take hmem)
      dsimp only
      rw [hh₁]
      refine ⟨?_, ?_, ?_, ?_, ?_⟩
      · rw [hsmps, List.take_succ_cons]
      · rw [halloc.free, hfree₁, hfree, List.drop_succ_cons]
      · rw [halloc.pools, ← hh₁]
        rfl
      · intro s' hs'
        rw [hfree, List.take_succ_cons] at hs'
        rcases List.mem_cons.mp hs' with rfl | hs'
        · rw [halloc.others s' (hfree₁ ▸ hnot)]
          exact hs₁
        · exact halloc.refcnt s' (hfree₁ ▸ hs')
      · intro s' hs'
        rw [hfree, List.take_succ_cons, List.mem_cons, not_or] at hs'
        rw [halloc.others s' (hfree₁ ▸ hs'.2), hother₁ s' hs'.1]

theorem sampleFreeMany_free (smps : List SampleId) (hpool : ∀ s ∈ smps, (h.samples s).pool = some p)
    (hroom : (h.free p).length + smps.length ≤ (h.pools p).queueSize) :
    (sampleFreeMany h smps).free p = h.free p ++ smps ∧
      (sampleFreeMany h smps).samples = h.samples ∧ (sampleFreeMany h smps).pools = h.pools := by
  induction smps generalizing h with
  | nil => exact ⟨(List.append_nil _).symm, rfl, rfl⟩
  | cons s smps ih =>
    rw [List.length_cons] at hroom
    have hput : h.sampleFree s = h.setFree p (h.free p ++ [s]) := by
      unfold Heap.sampleFree Heap.poolPut
      rw [hpool s List.mem_cons_self]
      exact if_pos (by omega)
    have hfree : (h.sampleFree s).free p = h.free p ++ [s] := by
      rw [hput, Heap.setFree_free, if_pos rfl]
    have hsamples := h.sampleFree_samples s
    have hpools : (h.sampleFree s).pools = h.pools := by
      rw [hput]
      rfl
    obtain ⟨hrest, hsamples', hpools'⟩ := ih (h := h.sampleFree s)
      (fun s' hs' => by rw [hsamples]; exact hpool s' (List.mem_cons_of_mem s hs'))
      (by rw [hfree, hpools, List.length_append, List.length_singleton]; omega)
    refine ⟨?_, hsamples'.trans hsamples, hpools'.trans hpools⟩
    refine hrest.trans ?_
    rw [hfree, List.append_assoc]
    rfl

end

/-! ## Batches -/

/-- The pool has enough samples for a batch and room for what it hands out. -/
structure Ready (p : PoolId) (cnt : Nat) (hs : HookList σ) (h : Heap) : Prop where
  single : hs.retained.length = 1
  nodup : (h.free p).Nodup
  enough : cnt ≤ (h.free p).length
  room : (h.free p).length ≤ (h.pools p).queueSize
  held : ∀ s, some s ∈ hs.retained → 2 ≤ (h.samples s).refcnt

/-- What the hook holds on to has the same contents for the hook list. -/
def Synced (hs : HookList σ) (h hl : Heap) : Prop := AgreeOn (fun s => some s ∈ hs.retained) h hl

section
variable {hs : HookList σ} {h hl : Heap} {p : PoolId} {cnt : Nat} {input : Input}

theorem deliver_pools (h : Heap) (batch : Batch) : SamePools h (h.deliver batch) := by
  induction batch generalizing h with
  | nil => exact ⟨rfl, rfl, fun _ => rfl⟩
  | cons x batch ih => exact (SamePools.setPayload h x.1 x.2).trans (ih _)

theorem deliver_referenced {smps : List SampleId} {retained : List (Option SampleId)} (batch : Batch)
    (href : Referenced smps retained h) : Referenced smps retained (h.deliver batch) := by
  induction batch generalizing h with
  | nil => exact href
  | cons x batch ih => exact ih (href.setPayload x.2)

theorem zip_ids (smps : List SampleId) (payloads : List Payload) :
    Batch.ids (smps.zip payloads) = smps.take payloads.length := by
  induction smps generalizing payloads with
  | nil => simp [Batch.ids]
  | cons s smps ih =>
    cases payloads with
    | nil => rfl
    | cons x payloads => exact congrArg (s :: ·) (ih payloads)

theorem paired_deliver (hready : Ready p cnt hs h)
    (hfresh : ∀ s ∈ (h.free p).take cnt, some s ∉ hs.retained) (hsynced : Synced hs h hl) :
    Paired input.now (fun s => some s ∈ hs.retained)
      (((h.free p).take cnt).take input.payloads.length) hs
      ((h.sampleAllocMany p cnt).1.deliver (((h.free p).take cnt).zip input.payloads))
      (hl.deliver (((h.free p).take cnt).zip (input.payloads.map (stamp input.now)))) := by
  obtain ⟨-, halloc⟩ := sampleAllocMany_allocated cnt hready.nodup
  have hids := zip_ids ((h.free p).take cnt) input.payloads
  have hidsl := zip_ids ((h.free p).take cnt) (input.payloads.map (stamp input.now))
  rw [List.length_map] at hidsl
  have hnodup : (((h.free p).take cnt).take input.payloads.length).Nodup :=
    hready.nodup.sublist ((List.take_sublist _ _).trans (List.take_sublist _ _))
  refine ⟨?_, fun s hs' => hs', ?_, ?_⟩
  · intro s hheld
    have hnot : s ∉ ((h.free p).take cnt).take input.payloads.length :=
      fun hmem => hfresh s (List.mem_of_mem_take hmem) hheld
    rw [deliver_payload_of_notMem (hids ▸ hnot), deliver_payload_of_notMem (hidsl ▸ hnot),
      ← hsynced s hheld]
    unfold Heap.payload
    rw [halloc.others s fun hmem => hfresh s hmem hheld]
  · intro s hmem hheld
    exact hfresh s (List.mem_of_mem_take hmem) hheld
  · intro s hmem
    rw [← hids] at hmem
    obtain ⟨⟨s', x⟩, hx, rfl⟩ := List.mem_map.mp hmem
    have hxl : (s', stamp input.now x) ∈
        ((h.free p).take cnt).zip (input.payloads.map (stamp input.now)) := by
      rw [List.zip_map_right]
      exact List.mem_map.mpr ⟨(s', x), hx, rfl⟩
    rw [deliver_payload (hids ▸ hnodup) hx, deliver_payload (hidsl ▸ hnodup) hxl]

theorem verdicts_length (now : Timespec) (hs : HookList σ) (h : Heap) (smps : List SampleId) :
    (verdicts now hs h smps).length = smps.length := by
  induction smps generalizing hs h with
  | nil => rfl
  | cons smp smps ih => exact congrArg (· + 1) (ih _ _)

theorem perm_drop_take (cnt : Nat) (free : List SampleId) :
    (free.drop cnt ++ free.take cnt).Perm free := by
  have hperm := @List.perm_append_comm _ (free.drop cnt) (free.take cnt)
  rwa [List.take_append_drop] at hperm

theorem Ready.taken_length (hready : Ready p cnt hs h) : ((h.free p).take cnt).length = cnt := by
  rw [List.length_take]
  exact Nat.min_eq_left hready.enough

theorem batch_some {hs' : HookList σ} {h' : Heap} {array : List SampleId} {send : Nat}
    (hready : Ready p cnt hs h) (hfresh : ∀ s ∈ (h.free p).take cnt, some s ∉ hs.retained)
    (hall : processAll input.now hs
      ((h.sampleAllocMany p cnt).1.deliver (((h.free p).take cnt).zip input.payloads))
      ((h.free p).take cnt) 0 0 input.payloads.length = (hs', h', array, some send))
    (hsub : ∀ s ∈ array, s ∈ (h.free p).take cnt) (hlength : array.length = cnt) :
    batch p cnt input hs h = some ⟨hs', sampleFreeMany h' array, array, (array.take send).map h'.payload⟩ ∧
      (sampleFreeMany h' array).free p = (h.free p).drop cnt ++ array ∧
      (sampleFreeMany h' array).samples = h'.samples ∧
      (sampleFreeMany h' array).pools = h.pools ∧ hs'.retained.length = 1 ∧
      ∀ s, some s ∈ hs'.retained → 2 ≤ (h'.samples s).refcnt := by
  obtain ⟨hsmps, halloc⟩ := sampleAllocMany_allocated cnt hready.nodup
  have hcnt := hready.taken_length
  have href : Referenced ((h.free p).take cnt) hs.retained (h.sampleAllocMany p cnt).1 := by
    refine ⟨fun s hs' => (halloc.refcnt s hs').1.ge, fun s hs' => ?_⟩
    rw [halloc.others s fun hmem => hfresh s hmem hs']
    exact hready.held s hs'
  have hdeliver := deliver_pools (h.sampleAllocMany p cnt).1
    (((h.free p).take cnt).zip input.payloads)
  obtain ⟨hpools, href', hsingle⟩ := processAll_referenced hready.single
    ((h.free p).take cnt) 0 0 input.payloads.length (fun s hs => hs)
    (deliver_referenced (((h.free p).take cnt).zip input.payloads) href)
  rw [hall] at hpools href' hsingle
  have hfree : h'.free p = (h.free p).drop cnt := by rw [hpools.free, hdeliver.free, halloc.free]
  have hpool : ∀ s ∈ array, (h'.samples s).pool = some p := by
    intro s hmem
    rw [hpools.pool, hdeliver.pool]
    exact (halloc.refcnt s (hsub s hmem)).2
  have hqueue : h'.pools = h.pools := by rw [hpools.pools, hdeliver.pools, halloc.pools]
  have hroom : (h'.free p).length + array.length ≤ (h'.pools p).queueSize := by
    rw [hfree, hqueue, List.length_drop]
    have := hready.room
    have := hready.enough
    omega
  obtain ⟨hback, hsamples, hpools'⟩ := sampleFreeMany_free array hpool hroom
  rw [hfree] at hback
  refine ⟨?_, hback, hsamples, hpools'.trans hqueue, hsingle, href'.held⟩
  unfold batch
  dsimp only
  rw [hsmps, if_neg (not_not.mpr hcnt), hall]

theorem Ready.batch_length (hready : Ready p cnt hs h) {n : Nat} (hn : n ≤ cnt) :
    (((h.free p).take cnt).take n).length = n := by
  rw [List.length_take, hready.taken_length]
  exact Nat.min_eq_left hn

theorem Ready.back (hready : Ready p cnt hs h) {hs' : HookList σ} {h' : Heap}
    (hback : h'.free p = (h.free p).drop cnt ++ (h.free p).take cnt) (hpools : h'.pools = h.pools)
    (hsingle : hs'.retained.length = 1) (hheld : ∀ s, some s ∈ hs'.retained → 2 ≤ (h'.samples s).refcnt) :
    Ready p cnt hs' h' := by
  have hperm := perm_drop_take cnt (h.free p)
  refine ⟨hsingle, ?_, ?_, ?_, hheld⟩
  · rw [hback]
    exact hperm.nodup_iff.mpr hready.nodup
  · rw [hback, hperm.length_eq]
    exact hready.enough
  · rw [hback, hpools, hperm.length_eq]
    exact hready.room

theorem batch_agrees (hready : Ready p cnt hs h) (hsynced : Synced hs h hl)
    (hlen : input.payloads.length ≤ cnt) (hclean : Clean p cnt input hs h) :
    ∃ r, batch p cnt input hs h = some r ∧
      (keep input (h.sampleAllocMany p cnt).2 hs hl).1 = r.hook ∧
      (keep input (h.sampleAllocMany p cnt).2 hs hl).2.2 = r.printed ∧
      r.heap.free p = (h.free p).drop cnt ++ (h.free p).take cnt ∧ Ready p cnt r.hook r.heap ∧
      Synced r.hook r.heap (keep input (h.sampleAllocMany p cnt).2 hs hl).2.1 := by
  obtain ⟨hsmps, -⟩ := sampleAllocMany_allocated cnt hready.nodup
  have hpaired := @paired_deliver _ _ _ _ _ _ input hready hclean.fresh hsynced
  have hcnt := hready.taken_length
  have hrest := hready.batch_length hlen
  obtain ⟨k, m, hordered⟩ := hclean.ordered
  unfold batchVerdicts at hordered
  dsimp only at hordered
  rw [hsmps] at hordered
  have hk : k ≤ input.payloads.length := by
    have := congrArg List.length hordered
    rw [verdicts_length, hrest, List.length_append, List.length_replicate, List.length_replicate] at this
    omega
  obtain ⟨hs', h', hl', S', hall, hloop, hpaired', hsub⟩ := processAll_agrees hready.single
    (hready.nodup.sublist ((List.take_sublist _ _).trans (List.take_sublist _ _))) hpaired hordered
    (fun _ => rfl)
  rw [List.nil_append, List.take_append_drop, hrest, List.length_nil, Nat.zero_add] at hall
  rw [List.nil_append, List.length_nil, Nat.zero_add] at hloop
  obtain ⟨hbatch, hback, hsamples, hpools, hsingle, hheld⟩ := batch_some hready hclean.fresh hall
    (fun s hmem => hmem) hcnt
  have hkeep : keep input ((h.free p).take cnt) hs hl = (hs', hl',
      ((((h.free p).take cnt).take input.payloads.length).take k).map hl'.payload) := by
    unfold keep HookList.hookListProcess
    dsimp only
    rw [if_neg (by rw [hready.single]; omega), hloop]
  rw [hsmps, hkeep]
  refine ⟨_, hbatch, rfl, ?_, hback, hready.back hback hpools hsingle ?_, ?_⟩
  · dsimp only
    rw [List.take_take, Nat.min_eq_left hk]
    apply List.map_congr_left
    intro s hmem
    refine (hpaired'.agree s (hsub s (.inr ?_))).symm
    exact (List.take_sublist_take_left hk).subset hmem
  · dsimp only
    rw [hsamples]
    exact hheld
  · intro s hmem
    have := hpaired'.agree s (hpaired'.within s hmem)
    unfold Heap.payload at this ⊢
    dsimp only
    rw [hsamples]
    exact this

/-! ### The end of the input -/

theorem agrees_end {lost : Input} (hready : Ready p cnt hs h) (last : List SampleId) :
    Agrees (run p cnt (.eof lost) [] hs h last hs hl) ↔
      (keep lost ((h.free p).take cnt) hs hl).2.2 = [] := by
  obtain ⟨hsmps, halloc⟩ := sampleAllocMany_allocated cnt hready.nodup
  have hcnt := hready.taken_length
  have hroom : ((h.sampleAllocMany p cnt).1.free p).length + ((h.free p).take cnt).length ≤
      ((h.sampleAllocMany p cnt).1.pools p).queueSize := by
    rw [halloc.free, halloc.pools, hcnt, List.length_drop]
    have := hready.room
    have := hready.enough
    omega
  obtain ⟨hback, -, -⟩ := sampleFreeMany_free _ (fun s hs' => (halloc.refcnt s hs').2) hroom
  unfold run
  dsimp only
  rw [hsmps, if_neg (not_not.mpr hcnt)]
  constructor
  · rintro ⟨-, hreports⟩
    exact (hreports _ List.mem_cons_self).1.symm
  · intro hkept
    refine ⟨rfl, fun report hreport => ?_⟩
    obtain rfl := List.mem_singleton.mp hreport
    refine ⟨hkept.symm, ?_⟩
    dsimp only
    rw [hback, halloc.free]
    exact perm_drop_take cnt (h.free p)

theorem processLoop_count {now : Timespec} {S : SampleId → Prop} {rest smps : List SampleId}
    {current processed : Nat} (hone : hs.retained.length = 1) (hnodup : rest.Nodup)
    (hpaired : Paired now S rest hs h hl)
    (hverdicts : ∀ r ∈ verdicts now hs h rest, r = .ok ∨ r = .skipSample)
    (hrest : smps.drop current = rest) (hle : processed ≤ current) :
    ∃ array, array.length = smps.length ∧ (hs.processLoop hl smps current processed rest.length).2.2 =
      (array, some (processed + (verdicts now hs h rest).count .ok)) := by
  induction rest generalizing hs h hl S smps current processed with
  | nil => exact ⟨smps, rfl, rfl⟩
  | cons smp rest ih =>
    have hlt : current < smps.length := by
      have := congrArg List.length hrest
      rw [List.length_drop, List.length_cons] at this
      omega
    rw [List.drop_eq_getElem_cons hlt] at hrest
    obtain ⟨hget, hrest⟩ := List.cons.inj hrest
    unfold verdicts at hverdicts ⊢
    dsimp only at hverdicts ⊢
    obtain ⟨hfirst, hothers⟩ := List.forall_mem_cons.mp hverdicts
    obtain ⟨hl', heq, hpaired'⟩ := hpaired.process hnodup hfirst
    have hone' := (@process_retained _ hs h now smp).trans hone
    rw [List.length_cons]
    unfold HookList.processLoop
    rw [List.getElem?_eq_getElem hlt, hget]
    dsimp only
    rw [processChain_one hone, heq]
    generalize process now hs h smp = r at *
    obtain ⟨hs₁, h₁, reason⟩ := r
    dsimp only at *
    rcases hfirst with rfl | rfl
    · obtain ⟨array, hlen, hall⟩ := @ih _ _ _ _ (HookList.swap smps processed current) (current + 1)
        (processed + 1) hone' (List.nodup_cons.mp hnodup).2 hpaired' hothers
        ((swap_drop smps hle).trans hrest) (by omega)
      refine ⟨array, hlen.trans (swap_perm ..).length_eq, hall.trans ?_⟩
      rw [List.count_cons_self, Nat.add_right_comm, Nat.add_assoc]
    · obtain ⟨array, hlen, hall⟩ := @ih _ _ _ _ smps (current + 1) processed hone'
        (List.nodup_cons.mp hnodup).2 hpaired' hothers hrest (by omega)
      refine ⟨array, hlen, hall.trans ?_⟩
      rw [List.count_cons_of_ne (by decide)]

theorem keep_lost_iff {lost : Input} (hready : Ready p cnt hs h) (hsynced : Synced hs h hl)
    (hlen : lost.payloads.length ≤ cnt) (hfresh : ∀ s ∈ (h.free p).take cnt, some s ∉ hs.retained)
    (hverdicts : ∀ r ∈ batchVerdicts p cnt lost hs h, r = .ok ∨ r = .skipSample) :
    (keep lost ((h.free p).take cnt) hs hl).2.2 = [] ↔
      ∀ r ∈ batchVerdicts p cnt lost hs h, r = .skipSample := by
  obtain ⟨hsmps, -⟩ := sampleAllocMany_allocated cnt hready.nodup
  have hpaired := @paired_deliver _ _ _ _ _ _ lost hready hfresh hsynced
  have hrest := hready.batch_length hlen
  unfold batchVerdicts at hverdicts ⊢
  dsimp only at hverdicts ⊢
  rw [hsmps] at hverdicts ⊢
  obtain ⟨array, harray, hloop⟩ := @processLoop_count _ _ _ _ _ _ _
    (((h.free p).take cnt).take lost.payloads.length) 0 0 hready.single
    (hready.nodup.sublist ((List.take_sublist _ _).trans (List.take_sublist _ _))) hpaired hverdicts rfl
    (le_refl 0)
  rw [Nat.zero_add] at hloop
  have hcount := List.count_le_length (a := Reason.ok) (l := verdicts lost.now hs
    ((h.sampleAllocMany p cnt).1.deliver (((h.free p).take cnt).zip lost.payloads))
    (((h.free p).take cnt).take lost.payloads.length))
  rw [verdicts_length] at hcount
  unfold keep HookList.hookListProcess
  dsimp only
  rw [if_neg (by rw [hready.single]; omega)]
  generalize verdicts lost.now hs ((h.sampleAllocMany p cnt).1.deliver
    (((h.free p).take cnt).zip lost.payloads)) (((h.free p).take cnt).take lost.payloads.length) = rs at *
  generalize hs.processLoop _ (((h.free p).take cnt).take lost.payloads.length) 0 0 _ = x at hloop
  obtain ⟨hs', h', smps, n⟩ := x
  obtain ⟨rfl, rfl⟩ := Prod.mk.inj hloop
  dsimp only
  rw [List.map_eq_nil_iff, List.take_eq_nil_iff]
  constructor
  · intro hnone r hr
    refine (hverdicts r hr).resolve_left ?_
    rintro rfl
    have hpos := List.count_pos_iff.mpr hr
    rcases hnone with hnone | rfl
    · omega
    · rw [List.length_nil] at harray
      omega
  · intro hskip
    refine .inl (List.count_eq_zero.mpr fun hok => ?_)
    cases hskip _ hok

theorem keep_empty {lost : Input} (hready : Ready p cnt hs h) (hlost : lost.payloads = []) :
    (keep lost ((h.free p).take cnt) hs hl).2.2 = [] := by
  unfold keep HookList.hookListProcess
  dsimp only
  rw [if_neg (by rw [hready.single]; omega), hlost]
  rfl

theorem run_agrees {stream : List Input} {lost : Input} (hready : Ready p cnt hs h)
    (hsynced : Synced hs h hl) (hlen : ∀ input ∈ stream, input.payloads.length ≤ cnt)
    (hlost : lost.payloads.length ≤ cnt)
    (hclean : EveryBatch p cnt (Clean p cnt) (Idle p cnt lost) stream hs h) (last : List SampleId) :
    Agrees (run p cnt (.eof lost) stream hs h last hs hl) := by
  induction stream generalizing hs h hl last with
  | nil =>
    rw [agrees_end hready]
    rcases hclean with hnil | ⟨hfresh, hskip⟩
    · exact keep_empty hready hnil
    · exact (keep_lost_iff hready hsynced hlost hfresh fun r hr => .inr (hskip r hr)).mpr hskip
  | cons input stream ih =>
    obtain ⟨hbatch, hclean⟩ := hclean
    obtain ⟨r, hr, hhook, hkept, hfree, hready', hsynced'⟩ := batch_agrees hready hsynced
      (hlen input List.mem_cons_self) hbatch
    unfold run
    rw [hr]
    dsimp only
    rw [hhook]
    obtain ⟨hend, hreports⟩ := ih hready' hsynced'
      (fun input' hmem => hlen input' (List.mem_cons_of_mem input hmem)) (hclean r hr) r.smps
    refine ⟨hend, fun report hreport => ?_⟩
    rcases List.mem_cons.mp hreport with rfl | hmem
    · refine ⟨hkept.symm, ?_⟩
      dsimp only
      rw [hfree]
      exact perm_drop_take cnt (h.free p)
    · exact hreports report hmem

end

/-! ## Samples that pass behind skipped ones -/

/-- The samples with the verdict to pass. -/
def passed : List SampleId → List Reason → List SampleId
  | smp :: smps, .ok :: rs => smp :: passed smps rs
  | _ :: smps, _ :: rs => passed smps rs
  | _, _ => []

section
variable {hs : HookList σ} {h hl : Heap} {now : Timespec} {p : PoolId} {cnt : Nat} {input : Input}

theorem passed_sublist (smps : List SampleId) (rs : List Reason) : (passed smps rs).Sublist smps := by
  induction smps generalizing rs with
  | nil => exact .slnil
  | cons smp smps ih =>
    cases rs with
    | nil => exact List.nil_sublist _
    | cons r rs =>
      cases r with
      | ok => exact (ih rs).cons_cons smp
      | error | skipSample | stopProcessing => exact (ih rs).cons smp

theorem replicate_of_passed_nil {smps : List SampleId} {rs : List Reason}
    (hlen : rs.length = smps.length) (hrs : ∀ r ∈ rs, r = .ok ∨ r = .skipSample)
    (hnil : passed smps rs = []) : rs = List.replicate rs.length .skipSample := by
  induction rs generalizing smps with
  | nil => rfl
  | cons r rs ih =>
    cases smps with
    | nil => cases hlen
    | cons smp smps =>
      rcases hrs r List.mem_cons_self with rfl | rfl
      · cases hnil
      · rw [List.length_cons, List.replicate_succ]
        exact congrArg _ (ih (Nat.succ.inj hlen) (fun r hr => hrs r (List.mem_cons_of_mem _ hr)) hnil)

theorem ordered_of_nodup {smps : List SampleId} {rs : List Reason} (hnodup : smps.Nodup)
    (hlen : rs.length = smps.length) (hrs : ∀ r ∈ rs, r = .ok ∨ r = .skipSample)
    (harray : (passed smps rs ++ smps.drop (passed smps rs).length).Nodup) : Ordered rs := by
  induction rs generalizing smps with
  | nil => exact ⟨0, 0, rfl⟩
  | cons r rs ih =>
    cases smps with
    | nil => cases hlen
    | cons smp smps =>
      have hrs' : ∀ r ∈ rs, r = .ok ∨ r = .skipSample := fun r hr => hrs r (List.mem_cons_of_mem _ hr)
      obtain ⟨hsmp, hnodup'⟩ := List.nodup_cons.mp hnodup
      rcases hrs r List.mem_cons_self with rfl | rfl
      · obtain ⟨k, m, rfl⟩ := ih hnodup' (Nat.succ.inj hlen) hrs' (List.nodup_cons.mp harray).2
        exact ⟨k + 1, m, rfl⟩
      · cases hpassed : passed smps rs with
        | nil =>
          refine ⟨0, rs.length + 1, ?_⟩
          rw [List.replicate_succ]
          exact congrArg _ (replicate_of_passed_nil (Nat.succ.inj hlen) hrs' hpassed)
        | cons first others =>
          -- One of them is behind the first samples, as many as have passed, and stays there.
          exfalso
          unfold passed at harray
          have hsub : (passed smps rs ++ (smp :: smps).drop (passed smps rs).length).Subperm smps := by
            apply List.subperm_of_subset harray
            intro s hs
            rcases List.mem_append.mp hs with hs | hs
            · exact (passed_sublist smps rs).subset hs
            · rw [hpassed, List.length_cons, List.drop_succ_cons] at hs
              exact List.mem_of_mem_drop hs
          have hle := hsub.length_le
          have hfew := (passed_sublist smps rs).length_le
          rw [List.length_append, List.length_drop, List.length_cons] at hle
          omega

theorem processAll_array {rest tail smps : List SampleId} {processed send : Nat}
    (hrest : smps.drop processed = rest ++ tail) (hsend : send ≤ processed)
    (hverdicts : ∀ r ∈ verdicts now hs h rest, r = .ok ∨ r = .skipSample) :
    (processAll now hs h smps processed send rest.length).2.2 =
      (smps.take send ++ passed rest (verdicts now hs h rest) ++
        smps.drop (send + (passed rest (verdicts now hs h rest)).length),
        some (send + (passed rest (verdicts now hs h rest)).length)) := by
  induction rest generalizing hs h smps processed send with
  | nil => simp [processAll, passed]
  | cons smp rest ih =>
    have hlt : processed < smps.length := by
      have := congrArg List.length hrest
      rw [List.length_drop, List.length_append, List.length_cons] at this
      omega
    have hcons := List.drop_eq_getElem_cons hlt
    rw [hrest, List.cons_append] at hcons
    obtain ⟨hhead, htail⟩ := List.cons.inj hcons
    have hget : smps[processed]? = some smp := by rw [List.getElem?_eq_getElem hlt, hhead]
    have hverdicts' := fun r hr => hverdicts r (List.mem_cons_of_mem _ hr)
    have hfirst := hverdicts _ List.mem_cons_self
    rw [List.length_cons]
    unfold processAll verdicts
    rw [hget]
    dsimp only
    generalize process now hs h smp = r at *
    obtain ⟨hs₁, h₁, reason⟩ := r
    dsimp only at *
    rcases hfirst with rfl | rfl
    · have hset : (smps.set send smp).drop (processed + 1) = rest ++ tail := by
        rw [List.drop_set_of_lt (by omega), htail]
      have htake : (smps.set send smp).take (send + 1) = smps.take send ++ [smp] := by
        rw [List.take_add_one, List.getElem?_set_self (by omega), List.take_set_of_le (le_refl send)]
        rfl
      unfold passed
      rw [ih hset (by omega) hverdicts', htake, List.drop_set_of_lt (by omega), List.length_cons,
        Nat.add_right_comm, ← Nat.add_assoc, List.append_assoc (smps.take send), List.singleton_append]
    · exact ih htail.symm (by omega) hverdicts'

theorem batch_ordered (hready : Ready p cnt hs h) (hlen : input.payloads.length ≤ cnt)
    (hsettled : Settled p cnt input hs h) {r : Result σ} (hr : batch p cnt input hs h = some r)
    (hperm : (r.heap.free p).Perm (h.free p)) : Ordered (batchVerdicts p cnt input hs h) := by
  obtain ⟨hsmps, -⟩ := sampleAllocMany_allocated cnt hready.nodup
  have hverdicts := hsettled.passedOrSkipped
  unfold batchVerdicts at hverdicts ⊢
  dsimp only at hverdicts ⊢
  rw [hsmps] at hverdicts ⊢
  have hcnt := hready.taken_length
  have hrest := hready.batch_length hlen
  have hnodup := hready.nodup.sublist (List.take_sublist cnt (h.free p))
  have harray := @processAll_array _ _ _ _ (((h.free p).take cnt).take input.payloads.length) _ _ _
    _ (List.take_append_drop _ _).symm (le_refl 0) hverdicts
  have hlengths := verdicts_length input.now hs
    ((h.sampleAllocMany p cnt).1.deliver (((h.free p).take cnt).zip input.payloads))
    (((h.free p).take cnt).take input.payloads.length)
  rw [hrest, List.take_zero, List.nil_append, Nat.zero_add] at harray
  generalize hall : processAll input.now hs
    ((h.sampleAllocMany p cnt).1.deliver (((h.free p).take cnt).zip input.payloads))
    ((h.free p).take cnt) 0 0 input.payloads.length = x at harray
  generalize verdicts input.now hs
    ((h.sampleAllocMany p cnt).1.deliver (((h.free p).take cnt).zip input.payloads))
    (((h.free p).take cnt).take input.payloads.length) = rs at *
  obtain ⟨hs', h', array, send⟩ := x
  obtain ⟨rfl, rfl⟩ := Prod.mk.inj harray
  have hpassed := passed_sublist (((h.free p).take cnt).take input.payloads.length) rs
  have hfew := hpassed.length_le
  obtain ⟨hbatch, hback, -⟩ := batch_some hready hsettled.fresh hall
    (by
      intro s hmem
      rcases List.mem_append.mp hmem with hmem | hmem
      · exact List.mem_of_mem_take (hpassed.subset hmem)
      · exact List.mem_of_mem_drop hmem)
    (by
      rw [List.length_append, List.length_drop, hcnt]
      omega)
  rw [hbatch] at hr
  obtain rfl := Option.some.inj hr
  dsimp only at hperm
  rw [hback] at hperm
  have harray' := (List.nodup_append.mp (hperm.nodup_iff.mpr hready.nodup)).2.1
  apply ordered_of_nodup (hnodup.sublist (List.take_sublist _ _)) hlengths hverdicts
  refine List.Nodup.sublist ?_ harray'
  exact (List.Sublist.refl _).append ((List.take_sublist _ _).drop _)

theorem agrees_clean {stream : List Input} {lost : Input} {last : List SampleId}
    (hready : Ready p cnt hs h) (hsynced : Synced hs h hl)
    (hlen : ∀ input ∈ stream, input.payloads.length ≤ cnt) (hlost : lost.payloads.length ≤ cnt)
    (hsettled : EveryBatch p cnt (Settled p cnt)
      (fun hs h => lost.payloads = [] ∨ Settled p cnt lost hs h) stream hs h)
    (hagrees : Agrees (run p cnt (.eof lost) stream hs h last hs hl)) :
    EveryBatch p cnt (Clean p cnt) (Idle p cnt lost) stream hs h := by
  induction stream generalizing hs h hl last with
  | nil =>
    rcases hsettled with hnil | hsettled
    · exact .inl hnil
    have hkept := (agrees_end hready last).mp hagrees
    exact .inr ⟨hsettled.fresh,
      (keep_lost_iff hready hsynced hlost hsettled.fresh hsettled.passedOrSkipped).mp hkept⟩
  | cons input stream ih =>
    obtain ⟨hbatch, hsettled⟩ := hsettled
    obtain ⟨hend, hreports⟩ := hagrees
    unfold run at hend hreports
    cases hr : batch p cnt input hs h with
    | none =>
      rw [hr] at hend
      cases hend
    | some r =>
      rw [hr] at hend hreports
      dsimp only at hend hreports
      have hperm := (hreports _ List.mem_cons_self).2
      have hclean : Clean p cnt input hs h := ⟨hbatch.fresh,
        batch_ordered hready (hlen input List.mem_cons_self) hbatch hr hperm⟩
      obtain ⟨r', hr', hhook, -, -, hready', hsynced'⟩ := batch_agrees hready hsynced
        (hlen input List.mem_cons_self) hclean
      obtain rfl := Option.some.inj (hr.symm.trans hr')
      refine ⟨hclean, fun r' hr' => ?_⟩
      obtain rfl := Option.some.inj (hr.symm.trans hr')
      rw [hhook] at hend hreports
      exact ih hready' hsynced' (fun input' hmem => hlen input' (List.mem_cons_of_mem input hmem))
        (hsettled r hr) ⟨hend, fun report hmem => hreports report (List.mem_cons_of_mem _ hmem)⟩

theorem Stream.of_length (f : Scanner) (hcnt : 0 < cnt) (now : Nat → Timespec) (samples : List Payload) :
    (∀ input ∈ (Stream.of f cnt now samples).inputs, input.payloads.length ≤ cnt) ∧
      (Stream.of f cnt now samples).lost.payloads.length ≤ cnt := by
  obtain ⟨-, hbatches, hlost⟩ := @batches_all f cnt ⟨samples, false, Bool.noConfusion⟩ hcnt
    (samples.length + 2) (Nat.lt_succ_self _)
  refine ⟨fun input hinput => ?_, hlost⟩
  obtain ⟨i, hi, rfl⟩ := List.mem_mapIdx.mp hinput
  exact hbatches _ (List.getElem_mem hi)

/-- For any hook, any samples on stdin and any batch size: if no batch gets the sample that the hook
holds on to, the hook skips only the last samples of each batch and it would keep nothing of what gets
lost at the end of the file, then the tool prints what the hook list keeps and gives every sample back
to the pool exactly once. With a hook that only passes and skips, it does so in no other case. -/
theorem tool_agrees (f : Scanner) (now : Nat → Timespec) (samples : List Payload) (hcnt : 0 < cnt)
    (hstart : hs.retained = [none]) (hnodup : (h.free p).Nodup) (henough : cnt ≤ (h.free p).length)
    (hroom : (h.free p).length ≤ (h.pools p).queueSize) :
    (CleanRun p cnt (Stream.of f cnt now samples) hs h → Agrees (onStdin f p cnt now samples hs h)) ∧
      (SettledRun p cnt (Stream.of f cnt now samples) hs h → Agrees (onStdin f p cnt now samples hs h) →
        CleanRun p cnt (Stream.of f cnt now samples) hs h) := by
  have hready : Ready p cnt hs h := by
    refine ⟨by rw [hstart]; rfl, hnodup, henough, hroom, ?_⟩
    intro s hs'
    rw [hstart] at hs'
    cases List.mem_singleton.mp hs'
  have hsynced : Synced hs h h := fun s _ => rfl
  obtain ⟨hlen, hlost⟩ := Stream.of_length f hcnt now samples
  exact ⟨fun hclean => run_agrees hready hsynced hlen hlost hclean [],
    agrees_clean hready hsynced hlen hlost⟩

end

/-- A pool of 20 samples, for batches of two. -/
def twenty : Heap :=
  { emptyHeap with
    pools := fun _ => ⟨List.range 20, 64, 32⟩
    free := fun _ => List.range 20 }

def dropOnly : HookList (Nat → Unit) := Hooks.start [dropHook fun _ => 0] fun _ => ()

theorem tool_agrees_drop :
    Agrees (onStdin .line 0 2 (fun _ => ⟨0, 0⟩) ([1, 2, 3, 3].map numbered) dropOnly twenty) := by
  refine (tool_agrees .line _ _ (by decide) rfl (by decide) (by decide) (by decide)).1 ?_
  refine ⟨⟨by decide, 2, 0, by decide⟩, fun r hr => ?_⟩
  obtain rfl := Option.some.inj hr
  refine ⟨⟨by decide, 1, 1, by decide⟩, fun r hr => ?_⟩
  exact .inl rfl

/-- The sequence number 2 comes twice. Its second sample is never released, and the sample behind it
twice. -/
theorem tool_not_agrees :
    ¬ ∀ (cnt : Nat) (samples : List Payload) (hs : HookList (Nat → Unit)) (h : Heap), 0 < cnt →
      hs.retained = [none] → (h.free 0).Nodup → cnt ≤ (h.free 0).length →
      (h.free 0).length ≤ (h.pools 0).queueSize →
      Agrees (onStdin .line 0 cnt (fun _ => ⟨0, 0⟩) samples hs h) := by
  intro hclaim
  obtain ⟨-, hreports⟩ := hclaim 2 ([1, 2, 2, 3].map numbered) dropOnly twenty (by decide) rfl
    (by decide) (by decide) (by decide)
  have hsecond := (hreports _ (List.mem_cons_of_mem _ List.mem_cons_self)).2
  exact absurd hsecond (by decide)

/-- Of three samples in batches of two the last one is lost. -/
example : (Stream.of .line 2 (fun _ => ⟨0, 0⟩) ([1, 2, 3].map numbered)).lost.payloads.length = 1 := by
  decide

end VillasNode.HookTool
