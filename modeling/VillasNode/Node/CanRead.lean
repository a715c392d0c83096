import Mathlib.Algebra.Group.Nat.Defs
import Mathlib.Algebra.GroupWithZero.Nat
import Mathlib.Data.List.Forall2
import Mathlib.Data.List.TakeWhile
import VillasNode.Lib.Runs
import VillasNode.Node.CanConvert

/-!
# Reading from a CAN bus

`can_read` of `lib/nodes/can.cpp`. One counter decides whether all signals have
been received. The specification keeps the frames since the last sample instead.
-/

namespace VillasNode

open ByteOrder ByteMemory Runs

structure Can where
  sampleBuf : List Value
  sampleBufNum : Nat

namespace Can

/-- A `can_signal`, and the type of the node's signal. -/
structure CanSignal where
  id : BitVec 32
  offset : Nat
  size : Nat
  type : SignalType

/-- A `can_frame`. The data are the bytes of memory from the payload on. -/
structure CanFrame where
  canId : BitVec 32
  canDlc : Byte
  data : List Byte

/-- `can_prepare`. -/
def prepare (signals : List CanSignal) : Can := ⟨signals.map fun _ => 0, 0⟩

/-! ## The loop -/

/-- `found` is `none` for an exception. -/
structure Scan where
  sampleBuf : List Value
  frame : Memory
  sampleBufNum : Nat
  found : Option Bool

section
variable (h : Host)

def scan (id : BitVec 32) : List CanSignal → List Value → Memory → Nat → Bool → Scan
  | s :: signals, v :: buf, m, num, found =>
    if s.id = id then
      match convFromRaw h v m s.offset s.size s.type with
      | none => ⟨v :: buf, m, num, none⟩
      | some (m, v) =>
        let r := scan id signals buf m ((num + 1) % 2 ^ 64) true
        { r with sampleBuf := v :: r.sampleBuf }
    else
      let r := scan id signals buf m num found
      { r with sampleBuf := v :: r.sampleBuf }
  | _, buf, m, num, found => ⟨buf, m, num, some found⟩

/-- The data of the sample, if one is emitted. An exception emits none. -/
def canRead (signals : List CanSignal) (c : Can) (frame : CanFrame) : Can × Option (List Value) :=
  let r := scan h frame.canId signals c.sampleBuf ⟨frame.data, []⟩ c.sampleBufNum false
  if r.found ≠ some true then (⟨r.sampleBuf, r.sampleBufNum⟩, none)
  else if r.sampleBufNum = signals.length then
    (⟨r.sampleBuf, 0⟩, some (r.sampleBuf.take r.sampleBufNum))
  else (⟨r.sampleBuf, r.sampleBufNum⟩, none)

/-! ## The specification -/

def CanSignal.supported (s : CanSignal) : Bool :=
  match s.type with
  | .boolean => 0 < s.size ∧ s.size ≤ 8
  | .integer => s.size ∈ [1, 2, 3, 4, 8]
  | .float => s.size = 4 ∨ s.size = 8
  | .complex => s.size = 8
  | .invalid => false

/-- The bytes that a conversion reads or writes. -/
def CanSignal.width (s : CanSignal) : Nat := if s.type = .boolean then 1 else s.size

def reading (s : CanSignal) (data : List Byte) : Option Value :=
  (convFromRaw h 0 ⟨data, []⟩ s.offset s.size s.type).map Prod.snd

/-- The frames are those since the last sample, the newest in front. -/
def recent (frames : List CanFrame) (s : CanSignal) : Option Value :=
  (frames.find? fun f => f.canId = s.id).bind fun f => reading h s f.data

def Complete (signals : List CanSignal) (frames : List CanFrame) : Prop :=
  0 < signals.length ∧ ∀ s ∈ signals, s.supported ∧ ∃ f ∈ frames, f.canId = s.id

instance (signals : List CanSignal) (frames : List CanFrame) : Decidable (Complete signals frames) :=
  inferInstanceAs (Decidable (_ ∧ _))

def await (signals : List CanSignal) (frames : List CanFrame) (f : CanFrame) :
    List CanFrame × Option (List Value) :=
  if Complete signals (f :: frames) then
    ([], some (signals.map fun s => (recent h (f :: frames) s).getD 0))
  else (f :: frames, none)

end

/-- Every conversion of the frame's signals is supported, and there is one. -/
def Accepted (signals : List CanSignal) (f : CanFrame) : Prop :=
  (∃ s ∈ signals, s.id = f.canId) ∧ ∀ s ∈ signals, s.id = f.canId → s.supported

/-- The signals that the frame has, up to the first one that cannot be converted. -/
def received (signals : List CanSignal) (f : CanFrame) : Nat :=
  ((signals.filter (·.id = f.canId)).takeWhile (·.supported)).length

def count (signals : List CanSignal) (frames : List CanFrame) : Nat :=
  (frames.map (received signals)).sum

/-- The ids that the node knows. -/
def ids (signals : List CanSignal) (frames : List CanFrame) : List (BitVec 32) :=
  (frames.map (·.canId)).filter fun id => signals.any (·.id = id)

/-- No id that the node knows has come twice since the last sample. -/
def Once (signals : List CanSignal) (frames : List CanFrame) (f : CanFrame) : Prop :=
  Accepted signals f → (ids signals (f :: frames)).Nodup

/-! ## One conversion -/

section
variable {h : Host} {s : CanSignal} {v w : Value} {bytes : List Byte}

/-- The bytes of a boolean that are never written. -/
def Clean (h : Host) (s : CanSignal) (v : Value) : Prop :=
  s.type = .boolean → (store h.endian 64 v).tail = (store h.endian 64 0).tail

theorem setBoolean_tail (v : Value) (b : Byte) :
    (store h.endian 64 (setBoolean h v b)).tail = (store h.endian 64 v).tail := by
  have hlen := store_length h.endian 64 v
  rw [setBoolean, store_load (by decide) (by rw [List.length_cons, List.length_tail, hlen])]
  rfl

/-- `k` bytes from `p` on were read. -/
def Reads (m : Memory) (p k : Nat) (m' : Memory) : Prop :=
  m'.bytes = m.bytes ∧ m'.log = m.log ++ (List.range' p k).map .read

theorem reads_two (m : Memory) (e : Endian) (w w' p : Nat) :
    Reads m p (w / 8 + w' / 8) ((m.load e w p).1.load e w' (p + w / 8)).1 := by
  refine ⟨rfl, ?_⟩
  rw [← List.range'_append_1, List.map_append, ← List.append_assoc]
  rfl

theorem convFromRaw_supported (hs : s.supported) (hv : Clean h s v) (m : Memory) :
    ∃ m' w, convFromRaw h v m s.offset s.size s.type = some (m', w) ∧
      Reads m s.offset s.width m' ∧ reading h s m.bytes = some w ∧ Clean h s w := by
  obtain ⟨id, offset, size, type⟩ := s
  cases type with
  | invalid => simp [CanSignal.supported] at hs
  | boolean =>
    simp only [CanSignal.supported, decide_eq_true_eq] at hs
    have hsize : ¬ (size = 0 ∨ 8 < size) := by omega
    have hset (b : Byte) : setBoolean h v b = setBoolean h 0 b := by
      rw [setBoolean, setBoolean, hv rfl]
    simp only [convFromRaw, reading, if_neg hsize]
    rw [hset]
    refine ⟨_, _, rfl, ⟨rfl, rfl⟩, rfl, fun _ => ?_⟩
    exact setBoolean_tail 0 _
  | integer =>
    simp only [CanSignal.supported, decide_eq_true_eq, List.mem_cons, List.not_mem_nil,
      or_false] at hs
    rcases hs with rfl | rfl | rfl | rfl | rfl
    · exact ⟨_, _, rfl, ⟨rfl, rfl⟩, rfl, nofun⟩
    · exact ⟨_, _, rfl, ⟨rfl, rfl⟩, rfl, nofun⟩
    · exact ⟨_, _, rfl, reads_two m h.endian 16 8 offset, rfl, nofun⟩
    · exact ⟨_, _, rfl, ⟨rfl, rfl⟩, rfl, nofun⟩
    · exact ⟨_, _, rfl, ⟨rfl, rfl⟩, rfl, nofun⟩
  | float =>
    simp only [CanSignal.supported, decide_eq_true_eq] at hs
    rcases hs with rfl | rfl <;> exact ⟨_, _, rfl, ⟨rfl, rfl⟩, rfl, nofun⟩
  | complex =>
    simp only [CanSignal.supported, decide_eq_true_eq] at hs
    subst hs
    exact ⟨_, _, rfl, reads_two m h.endian 32 32 offset, rfl, nofun⟩

theorem convFromRaw_unsupported (hs : ¬ s.supported) (m : Memory) :
    convFromRaw h v m s.offset s.size s.type = none := by
  obtain ⟨id, offset, size, type⟩ := s
  by_cases hsize : size = 0 ∨ 8 < size
  · exact if_pos hsize
  · cases type with
    | invalid => simp only [convFromRaw, if_neg hsize]
    | boolean =>
      simp only [CanSignal.supported, decide_eq_true_eq] at hs
      omega
    | integer =>
      simp only [convFromRaw, if_neg hsize]
      split <;> simp_all [CanSignal.supported]
    | float =>
      simp only [convFromRaw, if_neg hsize]
      split <;> simp_all [CanSignal.supported]
    | complex =>
      simp only [CanSignal.supported, decide_eq_true_eq] at hs
      simp only [convFromRaw, if_neg hsize, if_pos hs, ne_eq]

end

/-! ## The loop on the signals -/

section
variable {h : Host} {id : BitVec 32} {signals : List CanSignal} {buf : List Value} {m : Memory}
  {num : Nat} {found : Bool} {s : CanSignal} {v : Value}

theorem scan_other (hs : s.id ≠ id) :
    scan h id (s :: signals) (v :: buf) m num found =
      { scan h id signals buf m num found with
        sampleBuf := v :: (scan h id signals buf m num found).sampleBuf } := by
  rw [scan, if_neg hs]

theorem scan_unsupported (hs : s.id = id) (hsup : ¬ s.supported) :
    scan h id (s :: signals) (v :: buf) m num found = ⟨v :: buf, m, num, none⟩ := by
  rw [scan, if_pos hs, convFromRaw_unsupported hsup]

theorem scan_supported (hs : s.id = id) (hsup : s.supported) (hv : Clean h s v) :
    ∃ m' w, Reads m s.offset s.width m' ∧ reading h s m.bytes = some w ∧ Clean h s w ∧
      scan h id (s :: signals) (v :: buf) m num found =
        { scan h id signals buf m' ((num + 1) % 2 ^ 64) true with
          sampleBuf := w :: (scan h id signals buf m' ((num + 1) % 2 ^ 64) true).sampleBuf } := by
  obtain ⟨m', w, hconv, hreads, hread, hclean⟩ := convFromRaw_supported hsup hv m
  refine ⟨m', w, hreads, hread, hclean, ?_⟩
  rw [scan, if_pos hs, hconv]

theorem scan_num (hbuf : List.Forall₂ (Clean h) signals buf) (hnum : num < 2 ^ 64) :
    (scan h id signals buf m num found).sampleBufNum =
      (num + ((signals.filter (·.id = id)).takeWhile (·.supported)).length) % 2 ^ 64 := by
  induction hbuf generalizing m num found with
  | nil => exact (Nat.mod_eq_of_lt hnum).symm
  | @cons s v signals buf hv _ ih =>
    by_cases hs : s.id = id
    · by_cases hsup : s.supported
      · obtain ⟨m', w, -, -, -, hscan⟩ := @scan_supported h id signals buf m num found s v hs hsup hv
        rw [hscan, ih (Nat.mod_lt _ (by decide)), List.filter_cons_of_pos (by simpa using hs),
          List.takeWhile_cons_of_pos hsup, List.length_cons, Nat.mod_add_mod, Nat.add_assoc,
          Nat.add_comm 1]
      · rw [scan_unsupported hs hsup, List.filter_cons_of_pos (by simpa using hs),
          List.takeWhile_cons_of_neg hsup]
        exact (Nat.mod_eq_of_lt hnum).symm
    · rw [scan_other hs, List.filter_cons_of_neg (by simpa using hs)]
      exact ih hnum

theorem scan_found (hbuf : List.Forall₂ (Clean h) signals buf) :
    (scan h id signals buf m num found).found =
      if ∀ s ∈ signals, s.id = id → s.supported then some (found || signals.any (·.id = id))
      else none := by
  induction hbuf generalizing m num found with
  | nil => simp [scan]
  | @cons s v signals buf hv _ ih =>
    by_cases hs : s.id = id
    · by_cases hsup : s.supported
      · obtain ⟨m', w, -, -, -, hscan⟩ := @scan_supported h id signals buf m num found s v hs hsup hv
        rw [hscan, ih]
        simp [hs, hsup]
      · rw [scan_unsupported hs hsup]
        simp [hs, hsup]
    · rw [scan_other hs, ih]
      simp [hs]

theorem scan_buf {Q Q' : CanSignal → Value → Prop} (hbuf : List.Forall₂ (Clean h) signals buf)
    (hQ : List.Forall₂ Q signals buf) (hsup : ∀ s ∈ signals, s.id = id → s.supported)
    (hread : ∀ s w, s.id = id → reading h s m.bytes = some w → Q' s w)
    (hkeep : ∀ s v, s.id ≠ id → Q s v → Q' s v) :
    List.Forall₂ Q' signals (scan h id signals buf m num found).sampleBuf := by
  induction hbuf generalizing m num found with
  | nil => exact .nil
  | @cons s v signals buf hv _ ih =>
    cases hQ with
    | cons hsv hQ =>
      have hrest : ∀ s ∈ signals, s.id = id → s.supported :=
        fun s hmem => hsup s (List.mem_cons_of_mem _ hmem)
      by_cases hs : s.id = id
      · obtain ⟨m', w, hreads, hw, -, hscan⟩ :=
          @scan_supported h id signals buf m num found s v hs (hsup s (by simp) hs) hv
        rw [hscan]
        exact .cons (hread s w hs hw) (ih hQ hrest (by rw [hreads.1]; exact hread))
      · rw [scan_other hs]
        exact .cons (hkeep s v hs hsv) (ih hQ hrest hread)

theorem scan_log (hbuf : List.Forall₂ (Clean h) signals buf) :
    (scan h id signals buf m num found).frame.log =
      m.log ++ ((signals.filter (·.id = id)).takeWhile (·.supported)).flatMap
        fun s => (List.range' s.offset s.width).map .read := by
  induction hbuf generalizing m num found with
  | nil => exact (List.append_nil _).symm
  | @cons s v signals buf hv _ ih =>
    by_cases hs : s.id = id
    · rw [List.filter_cons_of_pos (by simpa using hs)]
      by_cases hsup : s.supported
      · obtain ⟨m', w, hreads, -, -, hscan⟩ :=
          @scan_supported h id signals buf m num found s v hs hsup hv
        rw [hscan, ih, hreads.2, List.takeWhile_cons_of_pos hsup, List.flatMap_cons,
          List.append_assoc]
      · rw [scan_unsupported hs hsup, List.takeWhile_cons_of_neg hsup]
        exact (List.append_nil _).symm
    · rw [scan_other hs, List.filter_cons_of_neg (by simpa using hs)]
      exact ih

theorem scan_clean (hbuf : List.Forall₂ (Clean h) signals buf) :
    List.Forall₂ (Clean h) signals (scan h id signals buf m num found).sampleBuf := by
  induction hbuf generalizing m num found with
  | nil => exact .nil
  | @cons s v signals buf hv hbuf ih =>
    by_cases hs : s.id = id
    · by_cases hsup : s.supported
      · obtain ⟨m', w, -, -, hw, hscan⟩ := @scan_supported h id signals buf m num found s v hs hsup hv
        rw [hscan]
        exact .cons hw ih
      · rw [scan_unsupported hs hsup]
        exact .cons hv hbuf
    · rw [scan_other hs]
      exact .cons hv ih

end

/-! ## Counting signals -/

section
variable {signals : List CanSignal} {frames : List CanFrame} {f : CanFrame}

def matching (signals : List CanSignal) (f : CanFrame) : Nat := signals.countP (·.id = f.canId)

theorem received_le (signals : List CanSignal) (f : CanFrame) :
    received signals f ≤ matching signals f := by
  rw [matching, List.countP_eq_length_filter]
  exact (List.takeWhile_sublist _).length_le

theorem received_eq_iff :
    received signals f = matching signals f ↔ ∀ s ∈ signals, s.id = f.canId → s.supported := by
  rw [received, matching, List.countP_eq_length_filter]
  constructor
  · intro hlen s hs hid
    have hall := (List.takeWhile_prefix CanSignal.supported).eq_of_length hlen
    rw [List.takeWhile_eq_self_iff] at hall
    exact hall s (List.mem_filter.mpr ⟨hs, by simpa using hid⟩)
  · intro hsup
    rw [List.takeWhile_eq_self_iff.mpr]
    intro s hs
    obtain ⟨hmem, hid⟩ := List.mem_filter.mp hs
    exact hsup s hmem (by simpa using hid)

theorem countP_or_add_and {α : Type} (p q : α → Bool) (l : List α) :
    l.countP (fun a => p a || q a) + l.countP (fun a => p a && q a) = l.countP p + l.countP q := by
  induction l with
  | nil => rfl
  | cons a l ih =>
    rw [List.countP_cons, List.countP_cons, List.countP_cons, List.countP_cons]
    cases hp : p a <;> cases hq : q a <;> simp <;> omega

theorem ids_cons_nodup_iff :
    (ids signals (f :: frames)).Nodup ↔
      signals.countP (fun s => s.id = f.canId && frames.any fun g => g.canId = s.id) = 0 ∧
        (ids signals frames).Nodup := by
  have hids : ids signals (f :: frames) =
      if signals.any (·.id = f.canId) then f.canId :: ids signals frames
      else ids signals frames := List.filter_cons
  rw [hids, List.countP_eq_zero]
  by_cases hknown : signals.any (·.id = f.canId)
  · rw [if_pos hknown, List.nodup_cons]
    refine and_congr_left fun _ => ?_
    obtain ⟨s, hs, hid⟩ := List.any_eq_true.mp hknown
    simp only [ids, List.mem_filter, hknown, and_true, List.mem_map, Bool.and_eq_true,
      decide_eq_true_eq, List.any_eq_true, not_and, not_exists] at hid ⊢
    exact ⟨fun hnew t ht ht' g hg heq => hnew g hg (heq.trans ht'),
      fun hnew g hg heq => hnew s hs hid g hg (heq.trans hid.symm)⟩
  · rw [if_neg hknown]
    refine (and_iff_right fun s hs hboth => hknown (List.any_eq_true.mpr ⟨s, hs, ?_⟩)).symm
    exact (Bool.and_eq_true_iff.mp hboth).1

theorem sum_matching (signals : List CanSignal) (frames : List CanFrame) :
    (signals.countP fun s => frames.any fun f => f.canId = s.id) ≤
        (frames.map (matching signals)).sum ∧
      ((frames.map (matching signals)).sum =
          (signals.countP fun s => frames.any fun f => f.canId = s.id) ↔
        (ids signals frames).Nodup) := by
  induction frames with
  | nil => simp [ids]
  | cons f frames ih =>
    have hsplit := countP_or_add_and (fun s => decide (s.id = f.canId))
      (fun s => frames.any fun g => g.canId = s.id) signals
    have hcons : (signals.countP fun s => (f :: frames).any fun g => g.canId = s.id) =
        signals.countP fun s => s.id = f.canId || frames.any fun g => g.canId = s.id := by
      simp only [List.any_cons, eq_comm]
    rw [ids_cons_nodup_iff, List.map_cons, List.sum_cons, hcons, ← ih.2]
    have hmatching : matching signals f = signals.countP (fun s => decide (s.id = f.canId)) := rfl
    omega

theorem sum_le_sum {α : Type} {a b : α → Nat} {l : List α} (hle : ∀ x, a x ≤ b x) :
    (l.map a).sum ≤ (l.map b).sum ∧
      ((l.map a).sum = (l.map b).sum ↔ ∀ x ∈ l, a x = b x) := by
  induction l with
  | nil => simp
  | cons x l ih =>
    have hx := hle x
    simp only [List.map_cons, List.sum_cons, List.forall_mem_cons, ← ih.2]
    omega

theorem complete_iff_count (hfew : signals.length < 2 ^ 64) (hsome : 0 < signals.length)
    (hnodup : (ids signals frames).Nodup) :
    Complete signals frames ↔ count signals frames % 2 ^ 64 = signals.length := by
  obtain ⟨hle, heq⟩ := @sum_le_sum _ _ _ frames (received_le signals)
  rw [(sum_matching signals frames).2.mpr hnodup] at hle heq
  have hall := @List.countP_le_length _ (fun s => frames.any fun f => f.canId = s.id) signals
  have hcount : count signals frames = (frames.map (received signals)).sum := rfl
  rw [Nat.mod_eq_of_lt (by omega)]
  have hsplit : count signals frames = signals.length ↔
      (∀ f ∈ frames, received signals f = matching signals f) ∧
        ∀ s ∈ signals, frames.any fun f => f.canId = s.id := by
    rw [← heq, ← List.countP_eq_length]
    omega
  rw [hsplit]
  simp only [received_eq_iff, Complete, hsome, true_and, List.any_eq_true, decide_eq_true_eq]
  constructor
  · intro hcomplete
    exact ⟨fun f _ s hs _ => (hcomplete s hs).1, fun s hs => (hcomplete s hs).2⟩
  · rintro ⟨hsup, hids⟩ s hs
    obtain ⟨f, hf, hid⟩ := hids s hs
    exact ⟨hsup f hf s hs hid.symm, f, hf, hid⟩

theorem nodup_of_count (hcomplete : Complete signals frames)
    (hcount : count signals frames = signals.length) : (ids signals frames).Nodup := by
  have hreceived : (frames.map (matching signals)).sum = count signals frames :=
    ((sum_le_sum (received_le signals)).2.mpr fun f _ =>
      received_eq_iff.2 fun s hs _ => (hcomplete.2 s hs).1).symm
  rw [← (sum_matching signals frames).2, hreceived, hcount, eq_comm, List.countP_eq_length]
  intro s hs
  obtain ⟨f, hf, hid⟩ := (hcomplete.2 s hs).2
  exact List.any_eq_true.mpr ⟨f, hf, by simpa using hid⟩

theorem count_le (signals : List CanSignal) (frames : List CanFrame) :
    count signals frames ≤ frames.length * signals.length := by
  induction frames with
  | nil => exact Nat.zero_le _
  | cons f frames ih =>
    have hone : received signals f ≤ signals.length :=
      (received_le signals f).trans List.countP_le_length
    rw [count, List.map_cons, List.sum_cons, List.length_cons, Nat.succ_mul, Nat.add_comm]
    exact Nat.add_le_add ih hone

end

/-! ## The two in step -/

section
variable {h : Host} {signals : List CanSignal} {frames : List CanFrame} {f : CanFrame} {c : Can}
  {s : CanSignal}

/-- The counter and the buffer tell what has been received since the last sample. -/
structure Inv (h : Host) (signals : List CanSignal) (c : Can) (frames : List CanFrame) : Prop where
  clean : List.Forall₂ (Clean h) signals c.sampleBuf
  num : c.sampleBufNum = count signals frames % 2 ^ 64
  values : (∀ s ∈ signals, s.supported) →
    List.Forall₂ (fun s v => ∀ w, recent h frames s = some w → v = w) signals c.sampleBuf
  missing : ¬ Complete signals frames

theorem recent_cons_same (hs : s.id = f.canId) :
    recent h (f :: frames) s = reading h s f.data := by
  rw [recent, List.find?_cons_of_pos (by simpa using hs.symm)]
  rfl

theorem recent_cons_other (hs : s.id ≠ f.canId) :
    recent h (f :: frames) s = recent h frames s := by
  rw [recent, List.find?_cons_of_neg (by simpa using Ne.symm hs)]
  rfl

theorem Complete.recent (hcomplete : Complete signals frames) (hs : s ∈ signals) :
    ∃ w, recent h frames s = some w := by
  obtain ⟨hsup, f, hf, hid⟩ := hcomplete.2 s hs
  have hfind : (frames.find? fun f => f.canId = s.id).isSome :=
    List.find?_isSome.mpr ⟨f, hf, by simpa using hid⟩
  obtain ⟨g, hg⟩ := Option.isSome_iff_exists.mp hfind
  obtain ⟨m, w, -, -, hw, -⟩ := @convFromRaw_supported h s 0 hsup (fun _ => rfl) ⟨g.data, []⟩
  exact ⟨w, by rw [Can.recent, hg, Option.bind_some, hw]⟩

theorem not_complete_nil : ¬ Complete signals [] := by
  rintro ⟨hsome, hall⟩
  obtain ⟨s, hs⟩ := List.exists_mem_of_length_pos hsome
  obtain ⟨-, f, hf, -⟩ := hall s hs
  cases hf

theorem not_complete_of_not_accepted (hmissing : ¬ Complete signals frames)
    (hrefused : ¬ Accepted signals f) : ¬ Complete signals (f :: frames) := by
  intro hcomplete
  apply hrefused
  refine ⟨?_, fun s hs _ => (hcomplete.2 s hs).1⟩
  -- Else the frame adds nothing.
  by_contra hnone
  refine hmissing ⟨hcomplete.1, fun s hs => ?_⟩
  obtain ⟨hsup, g, hg, hid⟩ := hcomplete.2 s hs
  rcases List.mem_cons.mp hg with rfl | hg
  · exact absurd ⟨s, hs, hid.symm⟩ hnone
  · exact ⟨hsup, g, hg, hid⟩

theorem found_iff (hinv : Inv h signals c frames) {m : Memory} {num : Nat} :
    (scan h f.canId signals c.sampleBuf m num false).found = some true ↔ Accepted signals f := by
  rw [scan_found hinv.clean, Accepted]
  by_cases hsup : ∀ s ∈ signals, s.id = f.canId → s.supported
  · rw [if_pos hsup, and_iff_left hsup]
    simp
  · rw [if_neg hsup]
    exact iff_of_false nofun fun haccepted => hsup haccepted.2

theorem Inv.scan (hinv : Inv h signals c frames) :
    let r := scan h f.canId signals c.sampleBuf ⟨f.data, []⟩ c.sampleBufNum false
    List.Forall₂ (Clean h) signals r.sampleBuf ∧
      r.sampleBufNum = count signals (f :: frames) % 2 ^ 64 ∧
      ((∀ s ∈ signals, s.supported) →
        List.Forall₂ (fun s v => ∀ w, recent h (f :: frames) s = some w → v = w) signals
          r.sampleBuf) := by
  refine ⟨scan_clean hinv.clean, ?_, fun hsup => ?_⟩
  · rw [scan_num hinv.clean (by rw [hinv.num]; exact Nat.mod_lt _ (by decide)), hinv.num,
      Nat.mod_add_mod, count, count, List.map_cons, List.sum_cons, Nat.add_comm]
    rfl
  · apply scan_buf hinv.clean (hinv.values hsup) fun s hs _ => hsup s hs
    · intro s w hid hw w' hw'
      rw [recent_cons_same hid, hw] at hw'
      exact Option.some.inj hw'
    · intro s v hid hv w hw
      rw [recent_cons_other hid] at hw
      exact hv w hw

theorem buf_eq_recent {buf : List Value} (hcomplete : Complete signals frames)
    (hvalues : List.Forall₂ (fun s v => ∀ w, recent h frames s = some w → v = w) signals buf) :
    buf = signals.map fun s => (recent h frames s).getD 0 := by
  have hsome : ∀ s ∈ signals, ∃ w, recent h frames s = some w := fun s hs => hcomplete.recent hs
  clear hcomplete
  induction hvalues with
  | nil => rfl
  | @cons s v signals buf hv _ ih =>
    obtain ⟨w, hw⟩ := hsome s (by simp)
    rw [List.map_cons, hw, hv w hw, ← ih fun t ht => hsome t (List.mem_cons_of_mem _ ht)]
    rfl

theorem canRead_refused (hinv : Inv h signals c frames) (hrefused : ¬ Accepted signals f) :
    (canRead h signals c f).2 = none ∧ (await h signals frames f).2 = none ∧
      Inv h signals (canRead h signals c f).1 (await h signals frames f).1 := by
  have hmissing := not_complete_of_not_accepted hinv.missing hrefused
  obtain ⟨hclean, hnum, hvalues⟩ := hinv.scan (f := f)
  rw [canRead, if_pos (mt (found_iff hinv).mp hrefused), await, if_neg hmissing]
  exact ⟨rfl, rfl, hclean, hnum, hvalues, hmissing⟩

theorem canRead_accepted (hinv : Inv h signals c frames) (haccepted : Accepted signals f) :
    ((canRead h signals c f).2 = (await h signals frames f).2 ↔
      (Complete signals (f :: frames) ↔
        count signals (f :: frames) % 2 ^ 64 = signals.length)) ∧
    ((canRead h signals c f).2 = (await h signals frames f).2 →
      Inv h signals (canRead h signals c f).1 (await h signals frames f).1) := by
  obtain ⟨hclean, hnum, hvalues⟩ := hinv.scan (f := f)
  have hlen := hclean.length_eq
  rw [canRead, if_neg (not_not.mpr ((found_iff hinv).mpr haccepted)), await, hnum]
  by_cases hcomplete : Complete signals (f :: frames)
  · by_cases hcount : count signals (f :: frames) % 2 ^ 64 = signals.length
    · have hbuf := buf_eq_recent hcomplete (hvalues fun s hs => (hcomplete.2 s hs).1)
      rw [if_pos hcount, if_pos hcomplete, List.take_of_length_le (by omega), ← hbuf]
      refine ⟨iff_of_true rfl (iff_of_true hcomplete hcount),
        fun _ => ⟨hclean, rfl, fun _ => ?_, not_complete_nil⟩⟩
      exact hclean.imp fun s v _ w hw => nomatch hw
    · rw [if_neg hcount, if_pos hcomplete]
      exact ⟨iff_of_false nofun fun hiff => hcount (hiff.mp hcomplete), nofun⟩
  · by_cases hcount : count signals (f :: frames) % 2 ^ 64 = signals.length
    · rw [if_pos hcount, if_neg hcomplete]
      exact ⟨iff_of_false nofun fun hiff => hcomplete (hiff.mpr hcount), nofun⟩
    · rw [if_neg hcount, if_neg hcomplete]
      exact ⟨iff_of_true rfl (iff_of_false hcomplete hcount),
        fun _ => ⟨hclean, rfl, hvalues, hcomplete⟩⟩

end

theorem inv_prepare (h : Host) (signals : List CanSignal) : Inv h signals (.prepare signals) [] where
  clean := by
    rw [prepare, List.forall₂_map_right_iff, List.forall₂_same]
    exact fun s _ _ => rfl
  num := rfl
  values _ := by
    rw [prepare, List.forall₂_map_right_iff, List.forall₂_same]
    exact fun s _ w hw => nomatch hw
  missing := not_complete_nil

/-- All signals are there just when they are counted to be. -/
def Counted (signals : List CanSignal) (frames : List CanFrame) (f : CanFrame) : Prop :=
  Accepted signals f →
    (Complete signals (f :: frames) ↔ count signals (f :: frames) % 2 ^ 64 = signals.length)

section
variable {signals : List CanSignal} {since frames : List CanFrame} {f : CanFrame}

theorem Once.counted (hfew : signals.length < 2 ^ 64) (h : Once signals since f) :
    Counted signals since f := by
  intro haccepted
  obtain ⟨s, hs, -⟩ := haccepted.1
  exact complete_iff_count hfew (List.length_pos_of_mem hs) (h haccepted)

theorem outputs_eq_iff_counted (h : Host) (signals : List CanSignal) (frames : List CanFrame) :
    outputs (canRead h signals) (.prepare signals) frames = outputs (await h signals) [] frames ↔
      Along (fun since f => some (await h signals since f).1) (Counted signals) [] frames := by
  apply outputs_eq_iff (R := Inv h signals)
  · intro c frames f hinv
    by_cases haccepted : Accepted signals f
    · rw [(canRead_accepted hinv haccepted).1]
      exact (imp_iff_right haccepted).symm
    · obtain ⟨hnone, hnone', -⟩ := canRead_refused hinv haccepted
      rw [hnone, hnone']
      exact iff_of_true rfl fun ha => absurd ha haccepted
  · intro c frames f hinv hcounted
    by_cases haccepted : Accepted signals f
    · obtain ⟨hiff, hstep⟩ := canRead_accepted hinv haccepted
      exact hstep (hiff.mpr (hcounted haccepted))
    · exact (canRead_refused hinv haccepted).2.2
  · exact inv_prepare h signals

theorem once_of_counted {h : Host} (hmissing : ¬ Complete signals since)
    (hfew : (since.length + frames.length) * signals.length < 2 ^ 64)
    (hrun : run (fun since f => some (await h signals since f).1) since frames = some [])
    (hcounted : Along (fun since f => some (await h signals since f).1) (Counted signals) since
      frames) :
    (ids signals since).Nodup ∧
      Along (fun since f => some (await h signals since f).1) (Once signals) since frames := by
  induction frames generalizing since with
  | nil =>
    cases hrun
    exact ⟨List.nodup_nil, trivial⟩
  | cons f frames ih =>
    rw [run_cons, Option.bind_some] at hrun
    obtain ⟨hf, hrest⟩ := (along_cons_iff rfl).mp hcounted
    rw [List.length_cons] at hfew
    have hnodup : (ids signals (f :: since)).Nodup ∧
        Along (fun since f => some (await h signals since f).1) (Once signals)
          (await h signals since f).1 frames := by
      by_cases hcomplete : Complete signals (f :: since)
      · rw [await, if_pos hcomplete] at hrun hrest ⊢
        have haccepted : Accepted signals f :=
          by_contra fun hrefused => not_complete_of_not_accepted hmissing hrefused hcomplete
        have hle := count_le signals (f :: since)
        have hmul : (since.length + 1) * signals.length ≤
            (since.length + (frames.length + 1)) * signals.length :=
          Nat.mul_le_mul_right _ (by omega)
        have hnum := (hf haccepted).mp hcomplete
        rw [Nat.mod_eq_of_lt (hle.trans_lt (hmul.trans_lt hfew))] at hnum
        refine ⟨nodup_of_count hcomplete hnum, (ih not_complete_nil ?_ hrun hrest).2⟩
        exact (Nat.mul_le_mul_right _ (by rw [List.length_nil]; omega)).trans_lt hfew
      · rw [await, if_neg hcomplete] at hrun hrest ⊢
        refine ih hcomplete ?_ hrun hrest
        rwa [List.length_cons, Nat.add_right_comm, Nat.add_assoc]
    exact ⟨(ids_cons_nodup_iff.1 hnodup.1).2, (along_cons_iff rfl).mpr ⟨fun _ => hnodup.1, hnodup.2⟩⟩

end

/-- For every list of signals and every sequence of frames: the samples are the expected ones, at
every frame, if no known id comes twice for one sample. A run of fewer than `2 ^ 64` received values
that ends with an expected sample has the expected ones only then. -/
theorem canRead_eq_await (h : Host) {signals : List CanSignal} (hfew : signals.length < 2 ^ 64)
    (frames : List CanFrame) :
    (Along (fun since f => some (await h signals since f).1) (Once signals) [] frames →
      outputs (canRead h signals) (.prepare signals) frames =
        outputs (await h signals) [] frames) ∧
    (frames.length * signals.length < 2 ^ 64 →
      run (fun since f => some (await h signals since f).1) [] frames = some [] →
      outputs (canRead h signals) (.prepare signals) frames = outputs (await h signals) [] frames →
      Along (fun since f => some (await h signals since f).1) (Once signals) [] frames) := by
  rw [outputs_eq_iff_counted]
  refine ⟨Along.mono fun since f honce => honce.counted hfew, fun hshort hrun hcounted => ?_⟩
  refine (once_of_counted not_complete_nil ?_ hrun hcounted).2
  rwa [List.length_nil, Nat.zero_add]

def twoIds : List CanSignal := [⟨1, 0, 1, .integer⟩, ⟨2, 0, 1, .integer⟩]

theorem canRead_eq_await_two :
    outputs (canRead littleHost twoIds) (.prepare twoIds) [⟨2, 1, [7]⟩, ⟨3, 1, [5]⟩, ⟨1, 1, [8]⟩] =
      outputs (await littleHost twoIds) [] [⟨2, 1, [7]⟩, ⟨3, 1, [5]⟩, ⟨1, 1, [8]⟩] := by
  refine (canRead_eq_await littleHost (by decide) _).1 ?_
  refine ⟨fun _ => by decide, fun since h => ?_⟩
  cases h
  refine ⟨fun _ => by decide, fun since h => ?_⟩
  cases h
  refine ⟨fun _ => by decide, fun since h => trivial⟩

/-- A frame that comes twice stands for the one that has not come. -/
theorem canRead_ne_await :
    outputs (canRead littleHost twoIds) (.prepare twoIds) [⟨1, 1, [7]⟩, ⟨1, 1, [7]⟩] ≠
      outputs (await littleHost twoIds) [] [⟨1, 1, [7]⟩, ⟨1, 1, [7]⟩] := by
  decide

end Can

end VillasNode
