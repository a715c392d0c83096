import Mathlib.Algebra.Ring.Nat
import VillasNode.VillasBinary.Memory
import VillasNode.VillasBinary.RoundTrip

/-!
# Reading from a file

`Format::scan` of `lib/format.cpp` reads as many bytes as its buffer holds and
hands them to `sscan`. What `sscan` leaves of them is not read again.
-/

namespace VillasNode

open ByteOrder

/-! ## Calls -/

/-- The samples that a call of `sscan` has read. -/
def Scanned.yielded (s : Scanned) : List Payload :=
  match s.result with
  | .ok (n, _) => (s.smps.take n).map Receiver.payload
  | .error _ => []

/-- What a sample says. Values behind its length are no part of it. -/
structure Content where
  flags : BitVec 32
  sequence : BitVec 64
  origin : Timespec
  values : List Value

def Payload.content (smp : Payload) : Content :=
  ⟨smp.flags, smp.sequence, smp.origin, (List.range smp.length).map smp.data⟩

namespace VillasBinaryFormat

variable (fmt : VillasBinaryFormat)

/-- `Format::scan` with a buffer of `buflen` bytes: what is left of the file, and the result. -/
def scan (buflen : Nat) (file : List Byte) (smps : List Receiver) : List Byte × Scanned :=
  (file.drop buflen, fmt.sscan (file.take buflen) smps)

/-- One call after the other, each with samples of its own. -/
def scanAll (buflen : Nat) (file : List Byte) : List (List Receiver) → List Payload
  | [] => []
  | smps :: calls =>
    let (file, s) := fmt.scan buflen file smps
    s.yielded ++ scanAll buflen file calls

/-! ## Whole messages -/

/-- The message fits into the sample, and its values are of known types. -/
def Fitting (m : Msg) (smp : Receiver) : Prop := fmt.Known m smp ∧ fmt.Holds m smp

/-- What a message says. -/
def told (m : Msg) : Content :=
  { flags := SampleFlags.hasTsOrigin ||| SampleFlags.hasSequence ||| SampleFlags.hasData
    sequence := m.sequence.setWidth 64
    origin := ⟨m.sec.setWidth 64, m.nsec.setWidth 64⟩
    values := ((fmt.lists fmt.signals).zip m.data).map fun v => (fromWord fmt.conv v.1 v.2).getD 0 }

variable {fmt}

theorem decode_told {m : Msg} (hm : m.Valid) {smp : Receiver} (hfit : fmt.Fitting m smp) :
    (fmt.decode m smp).1.content = fmt.told m ∧ (fmt.decode m smp).1.length = m.data.length := by
  obtain ⟨hknown, hcap, hsigs⟩ := hfit
  have hmin : min (min m.data.length smp.capacity) (fmt.lists fmt.signals).length = m.data.length := by
    omega
  have hvs : ∀ v ∈ ((fmt.lists fmt.signals).zip m.data).take m.data.length, v.1.isWord := by
    rw [mem_zip_take (Nat.le_refl _) SignalType.isWord]
    unfold Known at hknown
    rwa [Nat.min_eq_left hcap] at hknown
  obtain ⟨p, hread, -, hdata⟩ := readValues_values fmt.conv hvs 0 (fmt.receive smp).payload
  rw [← hmin] at hread
  rw [decode_of_read fmt hm hread, hmin]
  refine ⟨?_, rfl⟩
  have hzip : ((fmt.lists fmt.signals).zip m.data).length = m.data.length := by
    rw [List.length_zip]
    omega
  have htake : ((fmt.lists fmt.signals).zip m.data).take m.data.length =
      (fmt.lists fmt.signals).zip m.data := List.take_of_length_le (Nat.le_of_eq hzip)
  rw [htake] at hdata
  unfold Payload.content told
  dsimp only
  congr 1
  apply List.ext_getElem
  · rw [List.length_map, List.length_map, hzip, List.length_range]
  · intro j hj hj'
    rw [List.length_map] at hj'
    have := hdata j _ (List.getElem?_eq_getElem hj')
    rw [Nat.zero_add] at this
    rw [List.getElem_map, List.getElem_map, List.getElem_range, this]
    rfl

theorem yielded_cons {s : Scanned} {smp : Receiver} {len n r : Nat} (hs : s.result = .ok (n, r)) :
    (s.cons smp len).yielded = smp.payload :: s.yielded := by
  unfold Scanned.yielded Scanned.cons
  rw [hs]
  rfl

theorem sscan_whole {ms : List Msg} (hms : ∀ m ∈ ms, m.Valid) {smps : List Receiver}
    (hfit : ∀ m ∈ ms, ∀ smp ∈ smps, fmt.Fitting m smp) (hcnt : ms.length ≤ smps.length) :
    (fmt.sscan (fmt.frames ms) smps).result = .ok (ms.length, (fmt.frames ms).length) ∧
      (fmt.sscan (fmt.frames ms) smps).yielded.map Payload.content = ms.map fmt.told := by
  rw [sscan_frames]
  induction ms generalizing smps with
  | nil =>
    cases smps with
    | nil => exact ⟨rfl, rfl⟩
    | cons smp smps => exact ⟨rfl, rfl⟩
  | cons m ms ih =>
    cases smps with
    | nil => simp at hcnt
    | cons smp smps =>
      rw [List.forall_mem_cons] at hms
      have hone := hfit m List.mem_cons_self smp List.mem_cons_self
      obtain ⟨hresult, hyield⟩ := ih hms.2
        (fun m' hm' smp' hsmp' => hfit m' (List.mem_cons_of_mem _ hm') smp' (List.mem_cons_of_mem _ hsmp'))
        (Nat.le_of_succ_le_succ hcnt)
      rw [sscanLoop_holds fmt hms.1 hone.1 hone.2]
      constructor
      · rw [frames_cons, List.length_append, bytes_length]
        unfold Scanned.cons
        rw [hresult]
        rfl
      · rw [yielded_cons hresult, List.map_cons, hyield, List.map_cons, (decode_told hms.1 hone).1]

/-! ## Bytes and samples -/

/-- The bytes of messages that say so much. -/
def weight (cs : List Content) : Nat := (cs.map fun c => msgLen c.values.length).sum

theorem weight_append (cs cs' : List Content) : weight (cs ++ cs') = weight cs + weight cs' := by
  unfold weight
  rw [List.map_append, List.sum_append]

theorem weight_cons (smp : Payload) (cs : List Content) :
    weight (smp.content :: cs) = msgLen smp.length + weight cs := by
  unfold weight Payload.content
  rw [List.map_cons, List.sum_cons, List.length_map, List.length_range]

theorem sscanLoop_weight (rest : List Byte) (smps : List Receiver) :
    (∃ ret, (fmt.sscanLoop rest smps).result = .error ret) ∨
      ∃ n r, (fmt.sscanLoop rest smps).result = .ok (n, r) ∧ r ≤ rest.length ∧
        weight ((fmt.sscanLoop rest smps).yielded.map Payload.content) = r := by
  induction smps generalizing rest with
  | nil => exact .inr ⟨0, 0, rfl, Nat.zero_le _, rfl⟩
  | cons smp smps ih =>
    by_cases hnil : rest = []
    · refine .inr ⟨0, 0, ?_, Nat.zero_le _, ?_⟩
      · rw [sscanLoop, if_pos hnil]
      · rw [sscanLoop, if_pos hnil]
        rfl
    by_cases hheader : rest.length < msgLen 0
    · refine .inl ⟨-2, ?_⟩
      rw [sscanLoop, if_neg hnil, if_pos hheader]
    by_cases hwhole : rest.length < msgLen (fmt.announced rest)
    · refine .inl ⟨-3, ?_⟩
      unfold announced at hwhole
      rw [sscanLoop, if_neg hnil, if_neg hheader]
      dsimp only
      rw [if_pos hwhole]
    have hstep := fmt.sscanLoop_step hheader hwhole smp smps
    obtain ⟨hvalid, hdata⟩ := fmt.received_length rest
    have hspec := msgToSample_spec fmt.conv (fmt.lists fmt.signals)
      (fmt.received (fmt.announced rest) rest) smp.capacity (fmt.receive smp).payload
    rw [hvalid] at hspec
    have hlen : ((fmt.received (fmt.announced rest) rest).bytes fmt.host ++
        rest.drop (msgLen (fmt.announced rest))).length = rest.length := by
      rw [List.length_append, bytes_length, hdata, List.length_drop]
      omega
    unfold decode at hstep
    dsimp only at hstep
    generalize msgToSample fmt.conv (fmt.lists fmt.signals) _ _ _ = out at hstep hspec
    generalize (fmt.received (fmt.announced rest) rest).bytes fmt.host ++
      rest.drop (msgLen (fmt.announced rest)) = buf at hstep hlen
    obtain ⟨payload, ret⟩ := out
    rw [hstep]
    rcases hspec with hneg | ⟨rfl, hshort⟩
    · rw [if_pos (by omega)]
      exact .inl ⟨ret, rfl⟩
    · rw [if_neg (not_not.mpr rfl)]
      rcases ih (buf.drop (msgLen payload.length)) with ⟨ret, hret⟩ | ⟨n, r, hok, hr, hw⟩
      · refine .inl ⟨ret, ?_⟩
        unfold Scanned.cons
        rw [hret]
        rfl
      · refine .inr ⟨n + 1, msgLen payload.length + r, ?_, ?_, ?_⟩
        · unfold Scanned.cons
          rw [hok]
          rfl
        · rw [List.length_drop, hlen] at hr
          dsimp only at hshort
          unfold msgLen at *
          omega
        · rw [yielded_cons hok, List.map_cons, weight_cons, hw]

theorem announced_take {bs : List Byte} {l : Nat} (hl : 16 ≤ l) :
    fmt.announced (bs.take l) = fmt.announced bs := by
  have hlength : (Msg.load fmt.host 0 (bs.take l)).length = (Msg.load fmt.host 0 bs).length := by
    unfold Msg.load
    dsimp only
    rw [List.drop_take, List.take_take, Nat.min_eq_left (by omega)]
  unfold announced
  rw [hlength]

theorem sscanLoop_cut {m : Msg} (hm : m.Valid) {l : Nat} (hpos : 0 < l)
    (hcut : l < msgLen m.data.length) (rest : List Byte) (smp : Receiver) (smps : List Receiver) :
    ∃ ret, (fmt.sscanLoop ((m.bytes fmt.wire ++ rest).take l) (smp :: smps)).result = .error ret := by
  have hlen : ((m.bytes fmt.wire ++ rest).take l).length = l := by
    rw [List.length_take, List.length_append, bytes_length]
    omega
  have hnil : (m.bytes fmt.wire ++ rest).take l ≠ [] := by
    intro hnil
    rw [hnil, List.length_nil] at hlen
    omega
  by_cases hheader : l < msgLen 0
  · refine ⟨-2, ?_⟩
    rw [sscanLoop, if_neg hnil, if_pos (by omega)]
  · have hannounced : fmt.announced ((m.bytes fmt.wire ++ rest).take l) = m.data.length := by
      rw [announced_take (by unfold msgLen at hheader; omega), announced, wire_length, hm.length]
    have hwhole : ((m.bytes fmt.wire ++ rest).take l).length <
        msgLen (fmt.announced ((m.bytes fmt.wire ++ rest).take l)) := by
      rw [hannounced, hlen]
      exact hcut
    refine ⟨-3, ?_⟩
    unfold announced at hwhole
    rw [sscanLoop, if_neg hnil, if_neg (by omega)]
    dsimp only
    rw [if_pos hwhole]

theorem sscanLoop_nil (smps : List Receiver) : (fmt.sscanLoop [] smps).result = .ok (0, 0) := by
  cases smps with
  | nil => rfl
  | cons smp smps => rfl

theorem sscanLoop_fitting {m : Msg} (hm : m.Valid) {smp : Receiver} (hfit : fmt.Fitting m smp)
    (rest : List Byte) (smps : List Receiver) :
    fmt.sscanLoop (m.bytes fmt.wire ++ rest) (smp :: smps) =
      (fmt.sscanLoop rest smps).cons { smp with payload := (fmt.decode m smp).1 }
        (msgLen m.data.length) := by
  have hok := (fmt.decode_spec hm smp).1.mpr hfit.1
  rw [sscanLoop_message fmt hm, hok]
  dsimp only
  rw [if_neg (not_not.mpr rfl), decode_length fmt hm hfit.1 hfit.2, List.drop_left' (bytes_length ..)]

theorem sscanLoop_prefix {ms : List Msg} (hms : ∀ m ∈ ms, m.Valid) {smps : List Receiver}
    (hfit : ∀ m ∈ ms, ∀ smp ∈ smps, fmt.Fitting m smp) {l n r : Nat}
    (hscan : (fmt.sscanLoop ((fmt.frames ms).take l) smps).result = .ok (n, r))
    (hall : r = ((fmt.frames ms).take l).length) :
    (fmt.frames ms).take l = fmt.frames (ms.take n) ∧ n ≤ smps.length := by
  induction ms generalizing smps l n r with
  | nil =>
    have hnil : (fmt.frames []).take l = [] := List.take_nil
    rw [hnil, sscanLoop_nil] at hscan
    cases hscan
    exact ⟨hnil, Nat.zero_le _⟩
  | cons m ms ih =>
    by_cases hnil : (fmt.frames (m :: ms)).take l = []
    · rw [hnil, sscanLoop_nil] at hscan
      cases hscan
      exact ⟨hnil, Nat.zero_le _⟩
    rw [List.forall_mem_cons] at hms
    have hpos : 0 < ((fmt.frames (m :: ms)).take l).length := List.length_pos_iff.mpr hnil
    cases smps with
    | nil =>
      cases hscan
      omega
    | cons smp smps =>
      have hl : 0 < l := by
        rw [List.length_take] at hpos
        omega
      rw [frames_cons] at *
      by_cases hcut : l < msgLen m.data.length
      · obtain ⟨ret, hret⟩ := sscanLoop_cut hms.1 hl hcut (fmt.frames ms) smp smps
        rw [hret] at hscan
        simp at hscan
      · have htake : (m.bytes fmt.wire ++ fmt.frames ms).take l =
            m.bytes fmt.wire ++ (fmt.frames ms).take (l - msgLen m.data.length) := by
          rw [List.take_append, bytes_length, List.take_of_length_le (by rw [bytes_length]; omega)]
        rw [htake] at hscan hall ⊢
        rw [sscanLoop_fitting hms.1 (hfit m List.mem_cons_self smp List.mem_cons_self)] at hscan
        rw [List.length_append, bytes_length] at hall
        unfold Scanned.cons at hscan
        rcases hrest : (fmt.sscanLoop ((fmt.frames ms).take (l - msgLen m.data.length)) smps).result with
          ret | ⟨n', r'⟩
        · rw [hrest] at hscan
          simp [Except.map] at hscan
        rw [hrest] at hscan
        simp only [Except.map, Except.ok.injEq, Prod.mk.injEq] at hscan
        obtain ⟨hn, hr⟩ := hscan
        obtain ⟨hframes, hle⟩ := ih hms.2
          (fun m' hm' smp' hsmp' => hfit m' (List.mem_cons_of_mem _ hm') smp' (List.mem_cons_of_mem _ hsmp'))
          hrest (by omega)
        subst hn
        refine ⟨?_, Nat.succ_le_succ hle⟩
        rw [hframes, List.take_succ_cons, frames_cons]

/-! ## The run -/

/-- Each call reads whole messages, and it has a sample for each of them. -/
def WholeMessages (fmt : VillasBinaryFormat) (buflen : Nat) : List Msg → List (List Receiver) → Prop
  | _, [] => True
  | ms, smps :: calls => ∃ k ≤ smps.length, (fmt.frames ms).take buflen = fmt.frames (ms.take k) ∧
      WholeMessages fmt buflen (ms.drop k) calls

theorem frames_append (ms ms' : List Msg) : fmt.frames (ms ++ ms') = fmt.frames ms ++ fmt.frames ms' :=
  List.flatMap_append

theorem frames_drop {ms : List Msg} {buflen k : Nat}
    (hk : (fmt.frames ms).take buflen = fmt.frames (ms.take k)) :
    (fmt.frames ms).drop buflen = fmt.frames (ms.drop k) := by
  have hsplit : (fmt.frames ms).take buflen ++ (fmt.frames ms).drop buflen =
      (fmt.frames ms).take buflen ++ fmt.frames (ms.drop k) := by
    rw [List.take_append_drop, hk, ← frames_append, List.take_append_drop]
  exact List.append_cancel_left hsplit

theorem weight_told {ms : List Msg} (hsigs : ∀ m ∈ ms, m.data.length ≤ (fmt.lists fmt.signals).length) :
    weight (ms.map fmt.told) = (fmt.frames ms).length := by
  induction ms with
  | nil => rfl
  | cons m ms ih =>
    rw [List.forall_mem_cons] at hsigs
    have hvalues : (fmt.told m).values.length = m.data.length := by
      unfold told
      rw [List.length_map, List.length_zip]
      omega
    rw [frames_cons, List.length_append, bytes_length, ← ih hsigs.2, List.map_cons]
    unfold weight
    rw [List.map_cons, List.sum_cons, hvalues]

theorem sscan_weight (fmt : VillasBinaryFormat) (bs : List Byte) (smps : List Receiver) :
    weight ((fmt.sscan bs smps).yielded.map Payload.content) ≤ bs.length := by
  unfold sscan
  split
  · exact Nat.zero_le _
  · rcases sscanLoop_weight bs smps with ⟨ret, hret⟩ | ⟨n, r, _, hr, hw⟩
    · unfold Scanned.yielded
      rw [hret]
      exact Nat.zero_le _
    · rw [hw]
      exact hr

theorem scanAll_weight (buflen : Nat) (file : List Byte) (calls : List (List Receiver)) :
    weight ((fmt.scanAll buflen file calls).map Payload.content) ≤ file.length := by
  induction calls generalizing file with
  | nil => exact Nat.zero_le _
  | cons smps calls ih =>
    have hone := fmt.sscan_weight (file.take buflen) smps
    have hrest := ih (file.drop buflen)
    rw [List.length_take] at hone
    rw [List.length_drop] at hrest
    unfold scanAll scan
    dsimp only
    rw [List.map_append, weight_append]
    omega

theorem frames_eq_nil {ms : List Msg} (hnil : (fmt.frames ms).length = 0) : ms = [] := by
  cases ms with
  | nil => rfl
  | cons m ms =>
    rw [frames_cons, List.length_append, bytes_length] at hnil
    unfold msgLen at hnil
    omega

theorem scanAll_whole {buflen : Nat} {ms : List Msg} (hms : ∀ m ∈ ms, m.Valid)
    {calls : List (List Receiver)} (hfit : ∀ m ∈ ms, ∀ smps ∈ calls, ∀ smp ∈ smps, fmt.Fitting m smp)
    (hend : (fmt.frames ms).length ≤ buflen * calls.length)
    (hwhole : WholeMessages fmt buflen ms calls) :
    (fmt.scanAll buflen (fmt.frames ms) calls).map Payload.content = ms.map fmt.told := by
  induction calls generalizing ms with
  | nil =>
    rw [frames_eq_nil (Nat.le_zero.mp hend)]
    rfl
  | cons smps calls ih =>
    obtain ⟨k, hk, htake, hrest⟩ := hwhole
    have hdrop := frames_drop htake
    have hone := (sscan_whole (fun m hm => hms m (List.mem_of_mem_take hm))
      (fun m hm => hfit m (List.mem_of_mem_take hm) smps List.mem_cons_self)
      (Nat.le_trans (List.length_take_le k ms) hk)).2
    have hcalls := ih (fun m hm => hms m (List.mem_of_mem_drop hm))
      (fun m hm smps' hsmps' => hfit m (List.mem_of_mem_drop hm) smps' (List.mem_cons_of_mem _ hsmps'))
      (by
        rw [← hdrop, List.length_drop]
        rw [List.length_cons, Nat.mul_succ] at hend
        omega) hrest
    unfold scanAll scan
    dsimp only
    rw [htake, hdrop, List.map_append, hone, hcalls, ← List.map_append, List.take_append_drop]

theorem whole_of_weight {buflen : Nat} {ms : List Msg} (hms : ∀ m ∈ ms, m.Valid)
    {smps : List Receiver} (hfit : ∀ m ∈ ms, ∀ smp ∈ smps, fmt.Fitting m smp)
    (hall : ((fmt.frames ms).take buflen).length ≤
      weight ((fmt.sscan ((fmt.frames ms).take buflen) smps).yielded.map Payload.content)) :
    ∃ k ≤ smps.length, (fmt.frames ms).take buflen = fmt.frames (ms.take k) := by
  by_cases hnil : (fmt.frames ms).take buflen = []
  · exact ⟨0, Nat.zero_le _, hnil⟩
  have hpos : 0 < ((fmt.frames ms).take buflen).length := List.length_pos_iff.mpr hnil
  unfold sscan at hall
  split at hall
  · exact absurd hall (Nat.not_le.mpr hpos)
  · rcases sscanLoop_weight ((fmt.frames ms).take buflen) smps with ⟨ret, hret⟩ | ⟨n, r, hok, hr, hw⟩
    · unfold Scanned.yielded at hall
      rw [hret] at hall
      exact absurd hall (Nat.not_le.mpr hpos)
    · rw [hw] at hall
      obtain ⟨hframes, hn⟩ := sscanLoop_prefix hms hfit hok (Nat.le_antisymm hr hall)
      exact ⟨n, hn, hframes⟩

theorem wholeMessages_of_weight {buflen : Nat} {ms : List Msg} (hms : ∀ m ∈ ms, m.Valid)
    {calls : List (List Receiver)} (hfit : ∀ m ∈ ms, ∀ smps ∈ calls, ∀ smp ∈ smps, fmt.Fitting m smp)
    (hall : (fmt.frames ms).length ≤
      weight ((fmt.scanAll buflen (fmt.frames ms) calls).map Payload.content)) :
    WholeMessages fmt buflen ms calls := by
  induction calls generalizing ms with
  | nil => trivial
  | cons smps calls ih =>
    unfold scanAll scan at hall
    dsimp only at hall
    rw [List.map_append, weight_append] at hall
    have hone := fmt.sscan_weight ((fmt.frames ms).take buflen) smps
    have hcalls := fmt.scanAll_weight buflen ((fmt.frames ms).drop buflen) calls
    have hlen : ((fmt.frames ms).take buflen).length + ((fmt.frames ms).drop buflen).length =
        (fmt.frames ms).length := by
      rw [← List.length_append, List.take_append_drop]
    obtain ⟨k, hk, htake⟩ := @whole_of_weight fmt buflen ms hms smps
      (fun m hm => hfit m hm smps List.mem_cons_self) (by omega)
    refine ⟨k, hk, htake, ih (fun m hm => hms m (List.mem_of_mem_drop hm))
      (fun m hm smps' hsmps' => hfit m (List.mem_of_mem_drop hm) smps' (List.mem_cons_of_mem _ hsmps')) ?_⟩
    rw [← frames_drop htake]
    omega

/-- Calls of `scan` that read all of a file yield what one `sscan` of all of its bytes yields
exactly if each of them reads whole messages and has a sample for each of these. -/
theorem stream_scan_iff {buflen : Nat} {ms : List Msg} (hms : ∀ m ∈ ms, m.Valid)
    {calls : List (List Receiver)} (hfit : ∀ m ∈ ms, ∀ smps ∈ calls, ∀ smp ∈ smps, fmt.Fitting m smp)
    (hend : (fmt.frames ms).length ≤ buflen * calls.length)
    {all : List Receiver} (hall : ∀ m ∈ ms, ∀ smp ∈ all, fmt.Fitting m smp)
    (hcnt : ms.length ≤ all.length) :
    (fmt.scanAll buflen (fmt.frames ms) calls).map Payload.content =
        (fmt.sscan (fmt.frames ms) all).yielded.map Payload.content ↔
      WholeMessages fmt buflen ms calls := by
  rw [(sscan_whole hms hall hcnt).2]
  constructor
  · intro hsame
    apply wholeMessages_of_weight hms hfit
    have hsigs : ∀ m ∈ ms, m.data.length ≤ (fmt.lists fmt.signals).length := by
      intro m hm
      obtain ⟨smp, hsmp⟩ := List.exists_mem_of_length_pos
        (Nat.lt_of_lt_of_le (List.length_pos_of_mem hm) hcnt)
      exact (hall m hm smp hsmp).2.2
    exact Nat.le_of_eq (by rw [hsame, weight_told hsigs])
  · exact scanAll_whole hms hfit hend

end VillasBinaryFormat

/-! ## Two messages in one buffer -/

def exampleMsgs : List Msg := [exampleMsg 1 [7], exampleMsg 2 [8]]

theorem exampleMsgs_fitting : ∀ m ∈ exampleMsgs, exampleFormat.Fitting m exampleReceiver := by
  have hknown : ∀ t ∈ [SignalType.integer], t.isWord := by decide
  unfold exampleMsgs
  rw [List.forall_mem_cons, List.forall_mem_singleton]
  exact ⟨⟨hknown, Nat.le_refl 1, Nat.le_refl 1⟩, hknown, Nat.le_refl 1, Nat.le_refl 1⟩

/-- Two calls for one sample each: the buffer holds both messages at the first call, and the second
message is never seen. -/
theorem scan_loses_message :
    ¬ ∀ (buflen : Nat) (ms : List Msg), (∀ m ∈ ms, m.Valid ∧ exampleFormat.Fitting m exampleReceiver) →
      ∀ counts : List Nat, (exampleFormat.frames ms).length ≤ buflen * counts.length →
        (exampleFormat.scanAll buflen (exampleFormat.frames ms)
            (counts.map fun cnt => List.replicate cnt exampleReceiver)).map Payload.content =
          (exampleFormat.sscan (exampleFormat.frames ms)
            (List.replicate ms.length exampleReceiver)).yielded.map Payload.content := by
  intro hclaim
  have hvalid : ∀ m ∈ exampleMsgs, m.Valid := exampleMsgs_valid (by decide) (by decide)
  have hsame := hclaim 4096 exampleMsgs (fun m hm => ⟨hvalid m hm, exampleMsgs_fitting m hm⟩)
    [1, 1] (by decide)
  exact absurd (congrArg (List.map Content.sequence) hsame) (by decide)

/-- One call for two samples. -/
theorem scan_both_messages :
    (exampleFormat.scanAll 4096 (exampleFormat.frames exampleMsgs)
        [[exampleReceiver, exampleReceiver]]).map Payload.content =
      (exampleFormat.sscan (exampleFormat.frames exampleMsgs)
        [exampleReceiver, exampleReceiver]).yielded.map Payload.content := by
  have hvalid : ∀ m ∈ exampleMsgs, m.Valid := exampleMsgs_valid (by decide) (by decide)
  refine (VillasBinaryFormat.stream_scan_iff hvalid ?_ (by decide) ?_ (by decide)).mpr
    ⟨2, by decide, by decide, trivial⟩
  · intro m hm smps hsmps smp hsmp
    rw [List.mem_singleton] at hsmps
    simp only [hsmps, List.mem_cons, List.not_mem_nil, or_false, or_self] at hsmp
    rw [hsmp]
    exact exampleMsgs_fitting m hm
  · intro m hm smp hsmp
    simp only [List.mem_cons, List.not_mem_nil, or_false, or_self] at hsmp
    rw [hsmp]
    exact exampleMsgs_fitting m hm

end VillasNode
