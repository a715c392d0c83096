import VillasNode.Format.Line
import VillasNode.VillasBinary.Encoding

/-!
# Writing packets

`socket_write` of `lib/nodes/socket.cpp` and `rtp_write` of `lib/nodes/rtp.cpp`
with the formats villas.binary and villas.human. Both grow their buffer when
`sprint` reports more bytes than it was given, and try again. The one format
never does, and the other one reports no byte for the NUL.
-/

namespace VillasNode.PacketWrite

open ByteOrder Snprintf VillasBinaryFormat

/-! ## The formats -/

/-- What `sprint` leaves. `wbytes` is `none` where it is not set. -/
structure Printed where
  mem : Nat → Byte
  wbytes : Option Nat
  ret : Int

/-- `sprint` into a buffer of so many bytes, and the bytes that it should write. -/
structure Format (α : Type) where
  sprint : (Nat → Byte) → Nat → List α → Printed
  encode : List α → Option (List Byte)

/-- If it fails, the buffer is left with `broken`. -/
def binaryFormat (fmt : VillasBinaryFormat) (broken : Nat → Byte) : Format Payload where
  sprint mem len smps :=
    match fmt.sprint len smps with
    | .ok (bytes, i) => ⟨fun a => bytes.getD a (mem a), some bytes.length, i⟩
    | .error ret => ⟨broken, none, ret⟩
  encode := fmt.messages

def lineFormat (ft : Line.FloatText) (f : Line.LineFormat) : Format Line.LineSample where
  sprint mem len smps :=
    let r := Line.sprint ft f mem len smps
    ⟨r.mem, some r.wbytes, r.ret⟩
  encode smps := some (Line.linesText ft f smps)

/-! ## The nodes -/

/-- The callers of `node_write` keep the number of samples in an `int`, so that none of the numbers
here wraps around as an `int`. -/
abbrev Batch (α : Type) := { smps : List α // smps.length < 2 ^ 31 }

structure Outcome where
  ret : Int
  /-- What `sendto` or `rtp_send` is given, if it is called. -/
  packet : Option (List Byte)

def packet (mem : Nat → Byte) (wbytes : Nat) : List Byte := (List.range wbytes).map mem

section
variable {α : Type} (F : Format α)

/-- `socket_write` with so many rounds at most. `new` is what a new buffer holds. -/
def socketWrite (new : Nat → Nat → Byte) (smps : List α) :
    Nat → (Nat → Byte) → Nat → Option Outcome
  | 0, _, _ => none
  | rounds + 1, buf, buflen =>
    let r := F.sprint buf buflen smps
    let wbytes := r.wbytes.getD 0
    if r.ret < 0 then some ⟨r.ret, none⟩
    else if wbytes = 0 then some ⟨-1, none⟩
    else if buflen < wbytes then socketWrite new smps rounds (new rounds) wbytes
    else some ⟨smps.length, some (packet r.mem wbytes)⟩

/-- `rtp_write` with so many rounds at most. `cnt` is unsigned, so that no error of `sprint` is seen,
and `wbytes` has any value then. `mbuf_resize` returns zero when it succeeds, as told by `resize`;
only when it does not, there is another round, with as many samples as `sprint` has returned. -/
def rtpWrite (resize : Nat → Bool) (wbytes avail : Nat) :
    Nat → (Nat → Byte) → List α → Option Outcome
  | 0, _, _ => none
  | rounds + 1, buf, smps =>
    let r := F.sprint buf avail smps
    let wbytes := r.wbytes.getD wbytes
    if avail < wbytes then
      if resize rounds then some ⟨-1, none⟩
      -- there are not so many samples as an error stands for
      else if r.ret < 0 then none
      else rtpWrite resize wbytes avail rounds r.mem (smps.take r.ret.toNat)
    else some ⟨r.ret, some (packet r.mem wbytes)⟩

/-! ## The specification -/

/-- The packet is the encoding of the first samples, among them all that are counted, and samples
that can be encoded are all sent. -/
structure Reports (smps : List α) (o : Outcome) : Prop where
  counted : match o.packet with
    | some packet => ∃ m ≤ smps.length, F.encode (smps.take m) = some packet ∧ o.ret ≤ m
    | none => o.ret ≤ 0
  sent : smps ≠ [] → ∀ bytes, F.encode smps = some bytes → o.packet = some bytes

def SocketReports (buflen : Nat) (smps : List α) : Prop :=
  ∀ buf new, ∃ rounds o, socketWrite F new smps rounds buf buflen = some o ∧ Reports F smps o

def RtpReports (avail : Nat) (smps : List α) : Prop :=
  ∀ buf resize wbytes, ∃ rounds o,
    rtpWrite F resize wbytes avail rounds buf smps = some o ∧ Reports F smps o

end

/-- For samples that can be encoded, the buffer is large enough. For others, one that cannot be
written is reached, or none is. -/
def SocketBinary (fmt : VillasBinaryFormat) (buflen : Nat) (smps : List Payload) : Prop :=
  if fmt.messages smps = none then fmt.Refuses buflen smps ∨ fitting buflen smps = 0
  else needed smps ≤ buflen

/-- For others, none of those is reached. -/
def RtpBinary (fmt : VillasBinaryFormat) (avail : Nat) (smps : List Payload) : Prop :=
  if fmt.messages smps = none then fmt.messages (smps.take (fitting avail smps)) ≠ none
  else needed smps ≤ avail

/-- There is a byte left in the buffer. -/
def LinesFit (ft : Line.FloatText) (f : Line.LineFormat) (len : Nat) (smps : List Line.LineSample) :
    Prop :=
  smps = [] ∨ (Line.linesText ft f smps).length < len

/-! ## The first samples of a batch -/

theorem take_eq_of_weight {α : Type*} {weight : α → Nat} (hpos : ∀ a, 0 < weight a)
    {l : List α} {m k : Nat} (h : ((l.take m).map weight).sum = ((l.take k).map weight).sum) :
    l.take m = l.take k := by
  induction l generalizing m k with
  | nil => rw [List.take_nil, List.take_nil]
  | cons a l ih =>
    have ha := hpos a
    cases m with
    | zero =>
      cases k with
      | zero => rfl
      | succ k =>
        simp only [List.take_succ_cons, List.take_zero, List.map_cons, List.map_nil, List.sum_cons,
          List.sum_nil] at h
        omega
    | succ m =>
      cases k with
      | zero =>
        simp only [List.take_succ_cons, List.take_zero, List.map_cons, List.map_nil, List.sum_cons,
          List.sum_nil] at h
        omega
      | succ k =>
        simp only [List.take_succ_cons, List.map_cons, List.sum_cons] at h ⊢
        rw [@ih m k (by omega)]

theorem take_of_needed {smps : List Payload} {m k : Nat}
    (h : needed (smps.take m) = needed (smps.take k)) : smps.take m = smps.take k :=
  take_eq_of_weight (fun smp => by unfold msgLen; omega) h

theorem linesText_length (ft : Line.FloatText) (f : Line.LineFormat)
    (smps : List Line.LineSample) :
    (Line.linesText ft f smps).length =
      (smps.map fun smp => (Line.lineText ft f smp).length).sum := by
  rw [Line.linesText, List.length_flatten, List.map_map]
  rfl

theorem take_of_linesText {ft : Line.FloatText} {f : Line.LineFormat} {smps : List Line.LineSample}
    {m k : Nat} (h : (Line.linesText ft f (smps.take m)).length =
      (Line.linesText ft f (smps.take k)).length) : smps.take m = smps.take k := by
  rw [linesText_length, linesText_length] at h
  exact take_eq_of_weight (fun smp => by rw [Line.lineText_length]; omega) h

theorem packet_eq_iff {mem : Nat → Byte} {wbytes : Nat} {bytes : List Byte} :
    packet mem wbytes = bytes ↔ bytes.length = wbytes ∧ Holds mem 0 bytes := by
  constructor
  · rintro rfl
    refine ⟨by simp [packet], fun i b hb => ?_⟩
    obtain ⟨hi, rfl⟩ := List.getElem?_eq_some_iff.mp hb
    simp [packet]
  · rintro ⟨rfl, hholds⟩
    apply List.ext_getElem
    · simp [packet]
    · intro i hi hi'
      have hbyte := hholds i _ (List.getElem?_eq_getElem hi')
      simpa [packet] using hbyte

theorem packet_written (bytes : List Byte) (mem : Nat → Byte) :
    packet (fun a => bytes.getD a (mem a)) bytes.length = bytes := by
  refine packet_eq_iff.2 ⟨rfl, fun i b hb => ?_⟩
  dsimp only
  rw [Nat.zero_add, List.getD_eq_getElem?_getD, hb]
  rfl

/-! ## What the outcomes report -/

section
variable {α : Type} {F : Format α} {smps : List α} {o : Outcome} {len : Nat}

theorem reports_none_iff : Reports F smps ⟨-1, none⟩ ↔ smps = [] ∨ F.encode smps = none := by
  constructor
  · intro hreports
    by_contra hboth
    rw [not_or, ← ne_eq, ← ne_eq, Option.ne_none_iff_exists'] at hboth
    obtain ⟨hne, bytes, hbytes⟩ := hboth
    cases hreports.sent hne bytes hbytes
  · intro hor
    refine ⟨show (-1 : Int) ≤ 0 by decide, fun hne bytes hbytes => ?_⟩
    rw [hor.resolve_left hne] at hbytes
    cases hbytes

theorem reports_some_iff {ret : Int} {bytes : List Byte} :
    Reports F smps ⟨ret, some bytes⟩ ↔
      (∃ m ≤ smps.length, F.encode (smps.take m) = some bytes ∧ ret ≤ m) ∧
        (smps ≠ [] → ∀ all, F.encode smps = some all → bytes = all) := by
  constructor
  · rintro ⟨hcounted, hsent⟩
    exact ⟨hcounted, fun hne all hall => Option.some.inj (hsent hne all hall)⟩
  · rintro ⟨hcounted, hsent⟩
    exact ⟨hcounted, fun hne all hall => congrArg some (hsent hne all hall)⟩

theorem reports_all_iff {bytes : List Byte} :
    Reports F smps ⟨smps.length, some bytes⟩ ↔ F.encode smps = some bytes := by
  rw [reports_some_iff]
  constructor
  · rintro ⟨⟨m, hm, hpacket, hcnt⟩, -⟩
    obtain rfl : m = smps.length := by omega
    rwa [List.take_length] at hpacket
  · intro hall
    refine ⟨⟨smps.length, Nat.le_refl _, ?_, Int.le_refl _⟩, fun _ all hbytes => ?_⟩
    · rwa [List.take_length]
    · exact Option.some.inj (hall.symm.trans hbytes)

theorem socketReports_iff
    (h : ∀ buf new rounds, socketWrite F new smps (rounds + 1) buf len = some o) :
    SocketReports F len smps ↔ Reports F smps o := by
  constructor
  · intro hall
    obtain ⟨rounds, o', hwrite, hreports⟩ := hall (fun _ => 0) fun _ _ => 0
    cases rounds with
    | zero => cases hwrite
    | succ rounds =>
      rw [h] at hwrite
      cases hwrite
      exact hreports
  · intro hreports buf new
    exact ⟨1, o, h buf new 0, hreports⟩

theorem rtpReports_iff
    (h : ∀ buf resize wbytes rounds, rtpWrite F resize wbytes len (rounds + 1) buf smps = some o) :
    RtpReports F len smps ↔ Reports F smps o := by
  constructor
  · intro hall
    obtain ⟨rounds, o', hwrite, hreports⟩ := hall (fun _ => 0) (fun _ => true) 0
    cases rounds with
    | zero => cases hwrite
    | succ rounds =>
      rw [h] at hwrite
      cases hwrite
      exact hreports
  · intro hreports buf resize wbytes
    exact ⟨1, o, h buf resize wbytes 0, hreports⟩

end

/-! ## villas.binary -/

section
variable {fmt : VillasBinaryFormat} {broken : Nat → Byte} {smps : List Payload} {len : Nat}

theorem refuses_messages (h : fmt.Refuses len smps) : fmt.messages smps = none := by
  cases hall : fmt.messages smps with
  | none => rfl
  | some bytes =>
    obtain ⟨first, hfirst⟩ := messages_take (fitting len smps) hall
    exact absurd h (not_refuses hfirst)

theorem sprint_refused (h : fmt.sprintLoop len smps = .error (-1)) (buf : Nat → Byte) :
    (binaryFormat fmt broken).sprint buf len smps = ⟨broken, none, -1⟩ := by
  unfold binaryFormat VillasBinaryFormat.sprint
  dsimp only
  rw [h]

theorem sprint_written {written : List Byte} {i : Nat}
    (h : fmt.sprintLoop len smps = .ok (written, i)) (buf : Nat → Byte) :
    (binaryFormat fmt broken).sprint buf len smps =
      ⟨fun a => written.getD a (buf a), some written.length, i⟩ := by
  unfold binaryFormat VillasBinaryFormat.sprint
  dsimp only
  rw [h]

theorem sent_all_iff {written : List Byte} (h : fmt.messages smps ≠ none)
    (hlen : written.length = needed (smps.take (fitting len smps)))
    (hwritten : ∀ bytes, fmt.messages (smps.take (fitting len smps)) = some bytes →
      bytes = written) :
    fmt.messages smps = some written ↔ needed smps ≤ len := by
  constructor
  · intro hall
    rw [← messages_length hall, hlen]
    exact needed_fitting_le len smps
  · intro hfits
    obtain ⟨bytes, hbytes⟩ := Option.ne_none_iff_exists'.mp h
    rw [fitting_eq_length_iff.mpr hfits, List.take_length] at hwritten
    rw [← hwritten bytes hbytes]
    exact hbytes

theorem refuses_take (h : fmt.Refuses len smps) :
    fmt.messages (smps.take (fitting len smps)) = none := by
  by_contra hsome
  obtain ⟨bytes, hbytes⟩ := Option.ne_none_iff_exists'.mp hsome
  exact not_refuses hbytes h

theorem refuses_pos (h : fmt.Refuses len smps) : 0 < len := by
  by_contra hzero
  obtain ⟨smp, hsmp, -⟩ := h
  have hle := needed_fitting_le len smps
  have hnil : smps.take (fitting len smps) = [] := needed_eq_zero.mp (by omega)
  rw [hnil] at hsmp
  cases hsmp

theorem fitting_eq_zero (h : needed (smps.take (fitting len smps)) = 0) : fitting len smps = 0 := by
  rw [needed_eq_zero, List.take_eq_nil_iff] at h
  obtain hzero | rfl := h
  · exact hzero
  · rfl

theorem socket_refused (hloop : fmt.sprintLoop len smps = .error (-1)) :
    SocketReports (binaryFormat fmt broken) len smps ↔ smps = [] ∨ fmt.messages smps = none := by
  refine (socketReports_iff fun buf new rounds => ?_).trans reports_none_iff
  rw [socketWrite, sprint_refused hloop]
  rfl

theorem socket_nothing {written : List Byte}
    (hloop : fmt.sprintLoop len smps = .ok (written, fitting len smps))
    (hzero : written.length = 0) :
    SocketReports (binaryFormat fmt broken) len smps ↔ smps = [] ∨ fmt.messages smps = none := by
  refine (socketReports_iff fun buf new rounds => ?_).trans reports_none_iff
  rw [socketWrite, sprint_written hloop]
  dsimp only
  rw [if_neg (by omega), Option.getD_some, if_pos hzero]

theorem socket_written {written : List Byte}
    (hloop : fmt.sprintLoop len smps = .ok (written, fitting len smps))
    (hsome : written.length ≠ 0) (hle : written.length ≤ len) :
    SocketReports (binaryFormat fmt broken) len smps ↔ fmt.messages smps = some written := by
  refine (socketReports_iff fun buf new rounds => ?_).trans reports_all_iff
  rw [socketWrite, sprint_written hloop]
  dsimp only
  rw [if_neg (by omega), Option.getD_some, if_neg hsome, if_neg (by omega), packet_written]

theorem rtp_written {written : List Byte}
    (hloop : fmt.sprintLoop len smps = .ok (written, fitting len smps))
    (hle : written.length ≤ len) :
    RtpReports (binaryFormat fmt broken) len smps ↔
      (∃ m ≤ smps.length, fmt.messages (smps.take m) = some written ∧
        ((fitting len smps : Nat) : Int) ≤ m) ∧
        (smps ≠ [] → ∀ all, fmt.messages smps = some all → written = all) := by
  refine (rtpReports_iff fun buf resize wbytes rounds => ?_).trans reports_some_iff
  rw [rtpWrite, sprint_written hloop]
  dsimp only
  rw [Option.getD_some, if_neg (by omega), packet_written]

theorem counted_iff {written : List Byte}
    (hlen : written.length = needed (smps.take (fitting len smps)))
    (hwritten : ∀ bytes, fmt.messages (smps.take (fitting len smps)) = some bytes →
      bytes = written) :
    (∃ m ≤ smps.length, fmt.messages (smps.take m) = some written ∧
      ((fitting len smps : Nat) : Int) ≤ m) ↔
      fmt.messages (smps.take (fitting len smps)) ≠ none := by
  constructor
  · rintro ⟨m, -, hpacket, -⟩ hnone
    rw [take_of_needed ((messages_length hpacket).symm.trans hlen), hnone] at hpacket
    cases hpacket
  · intro hsome
    obtain ⟨bytes, hbytes⟩ := Option.ne_none_iff_exists'.mp hsome
    rw [hwritten bytes hbytes] at hbytes
    exact ⟨fitting len smps, fitting_le len smps, hbytes, Int.le_refl _⟩

theorem rtp_refused (hrefuses : fmt.Refuses len smps)
    (hloop : fmt.sprintLoop len smps = .error (-1)) :
    ¬ RtpReports (binaryFormat fmt broken) len smps := by
  intro hall
  have hpos := refuses_pos hrefuses
  obtain ⟨rounds, o, hwrite, hreports⟩ := hall (fun _ => 0) (fun _ => true) 1
  cases rounds with
  | zero => cases hwrite
  | succ rounds =>
    rw [rtpWrite, sprint_refused hloop] at hwrite
    dsimp only at hwrite
    rw [Option.getD_none, if_neg (by omega)] at hwrite
    cases hwrite
    obtain ⟨⟨m, -, hpacket, -⟩, -⟩ := reports_some_iff.1 hreports
    have hone := messages_length hpacket
    rw [packet, List.length_map, List.length_range] at hone
    cases htake : smps.take m with
    | nil =>
      rw [htake] at hone
      cases hone
    | cons smp rest =>
      rw [htake, needed_cons] at hone
      unfold msgLen at hone
      omega

theorem socket_binary_iff :
    SocketReports (binaryFormat fmt broken) len smps ↔ SocketBinary fmt len smps := by
  unfold SocketBinary
  obtain ⟨hrefuses, hloop⟩ | ⟨hrefuses, written, hloop, hlen, hwritten⟩ :=
    sprintLoop_cases fmt len smps
  · have hnone := refuses_messages hrefuses
    rw [socket_refused hloop, if_pos hnone]
    exact iff_of_true (.inr hnone) (.inl hrefuses)
  · have hle := needed_fitting_le len smps
    by_cases hzero : written.length = 0
    · have hfirst := fitting_eq_zero (hlen.symm.trans hzero)
      have hfits := @fitting_eq_length_iff smps len
      rw [hfirst, eq_comm, List.length_eq_zero_iff] at hfits
      rw [socket_nothing hloop hzero]
      split
      · next hnone => exact iff_of_true (.inr hnone) (.inr hfirst)
      · next hsome =>
        rw [← hfits]
        exact or_iff_left hsome
    · rw [socket_written hloop hzero (by omega)]
      split
      · next hnone =>
        have hsome : fitting len smps ≠ 0 := by
          intro hk
          rw [hk] at hlen
          exact hzero hlen
        refine iff_of_false (fun hall => ?_) (not_or.mpr ⟨hrefuses, hsome⟩)
        cases hnone.symm.trans hall
      · next hsome => exact sent_all_iff hsome hlen hwritten

theorem rtp_binary_iff :
    RtpReports (binaryFormat fmt broken) len smps ↔ RtpBinary fmt len smps := by
  unfold RtpBinary
  obtain ⟨hrefuses, hloop⟩ | ⟨-, written, hloop, hlen, hwritten⟩ := sprintLoop_cases fmt len smps
  · rw [if_pos (refuses_messages hrefuses)]
    exact iff_of_false (rtp_refused hrefuses hloop) (not_not.mpr (refuses_take hrefuses))
  · have hle := needed_fitting_le len smps
    rw [rtp_written hloop (by omega), counted_iff hlen hwritten]
    split
    · next hnone =>
      refine and_iff_left fun _ all hall => ?_
      cases hnone.symm.trans hall
    · next hsome =>
      obtain ⟨all, hall⟩ := Option.ne_none_iff_exists'.mp hsome
      obtain ⟨first, hfirst⟩ := messages_take (fitting len smps) hall
      rw [← sent_all_iff hsome hlen hwritten]
      constructor
      · rintro ⟨-, hsent⟩
        by_cases hnil : smps = []
        · subst hnil
          rw [List.take_nil] at hwritten
          rw [← hwritten [] rfl]
          rfl
        · rw [hsent hnil all hall]
          exact hall
      · intro hwhole
        refine ⟨Option.ne_none_iff_exists'.mpr ⟨first, hfirst⟩, fun _ bytes hbytes => ?_⟩
        exact Option.some.inj (hwhole.symm.trans hbytes)

end

/-! ## villas.human -/

section
variable {ft : Line.FloatText} {f : Line.LineFormat} {smps : List Line.LineSample} {mem : Nat → Byte}
  {len off : Nat}

theorem linesText_take_le (k : Nat) :
    (Line.linesText ft f (smps.take k)).length ≤ (Line.linesText ft f smps).length := by
  have hsplit := congrArg (fun smps => (Line.linesText ft f smps).length)
    (List.take_append_drop k smps)
  simp only [Line.linesText, List.map_append, List.flatten_append, List.length_append] at hsplit ⊢
  omega

theorem linesText_eq_nil (h : (Line.linesText ft f smps).length = 0) : smps = [] := by
  cases smps with
  | nil => rfl
  | cons smp smps =>
    rw [linesText_length, List.map_cons, List.sum_cons, Line.lineText_length] at h
    omega

theorem sprintFrom_counts :
    (Line.sprintFrom ft f len mem off smps).wbytes = off +
        (Line.linesText ft f (smps.take (Line.sprintFrom ft f len mem off smps).ret)).length ∧
      ((Line.sprintFrom ft f len mem off smps).ret = smps.length ∨
        len ≤ (Line.sprintFrom ft f len mem off smps).wbytes) := by
  induction smps generalizing mem off with
  | nil => exact ⟨rfl, .inl rfl⟩
  | cons smp smps ih =>
    by_cases hlt : off < len
    · obtain ⟨hbytes, hall⟩ := @ih (Line.sprintLine ft f smp mem off (len - off)).mem
        (off + (Line.lineText ft f smp).length)
      rw [Line.sprintFrom_cons hlt]
      dsimp only
      rw [Line.linesText_take_cons, List.length_append, List.length_cons]
      exact ⟨by omega, hall.imp_left (congrArg (· + 1))⟩
    · have hfull := @Line.sprintFrom_full ft f mem len off (smp :: smps) (Nat.le_of_not_lt hlt)
      rw [hfull]
      exact ⟨rfl, .inr (Nat.le_of_not_lt hlt)⟩

theorem sprintFrom_cut {pre : List Byte} (hoff : pre.length = off) (hlt : off < len)
    (hend : (Line.sprintFrom ft f len mem off smps).wbytes = len) :
    ¬ Holds (Line.sprintFrom ft f len mem off smps).mem 0
      (pre ++ Line.linesText ft f (smps.take (Line.sprintFrom ft f len mem off smps).ret)) := by
  induction smps generalizing mem off pre with
  | nil => exact absurd hend (Nat.ne_of_lt hlt)
  | cons smp smps ih =>
    rw [Line.sprintFrom_cons hlt] at hend ⊢
    dsimp only at hend ⊢
    rw [Line.linesText_take_cons, ← List.append_assoc]
    by_cases hmore : off + (Line.lineText ft f smp).length < len
    · exact ih (by rw [List.length_append, hoff]) hmore hend
    · rw [Line.sprintFrom_full (Nat.le_of_not_lt hmore)] at hend ⊢
      dsimp only at hend ⊢
      intro hholds
      rw [List.take_zero, show Line.linesText ft f [] = [] from rfl, List.append_nil] at hholds
      have hright := hholds.right
      rw [hoff] at hright
      exact Line.sprintLine_cut (by omega) hright

theorem sprint_counts (ft : Line.FloatText) (f : Line.LineFormat) (buf : Nat → Byte) (len : Nat)
    (smps : List Line.LineSample) :
    (Line.sprint ft f buf len smps).wbytes =
        (Line.linesText ft f (smps.take (Line.sprint ft f buf len smps).ret)).length ∧
      ((Line.sprint ft f buf len smps).ret = smps.length ∨
        len ≤ (Line.sprint ft f buf len smps).wbytes) := by
  have hcounts := @sprintFrom_counts ft f smps buf len 0
  rwa [Nat.zero_add] at hcounts

theorem sprint_lines (h : (Line.linesText ft f smps).length < len) (buf : Nat → Byte) :
    (Line.sprint ft f buf len smps).wbytes = (Line.linesText ft f smps).length ∧
      (Line.sprint ft f buf len smps).ret = smps.length ∧
      packet (Line.sprint ft f buf len smps).mem (Line.linesText ft f smps).length =
        Line.linesText ft f smps := by
  have hmeets := (Line.sprint_meets_iff ft f buf len smps).mpr fun k _ _ => by
    have hle := @linesText_take_le ft f smps (k + 1)
    omega
  obtain ⟨hbytes, hall⟩ := sprint_counts ft f buf len smps
  generalize Line.sprint ft f buf len smps = r at hmeets hbytes hall ⊢
  have hle := @linesText_take_le ft f smps r.ret
  have hret : r.ret = smps.length := hall.resolve_right (by omega)
  rw [hret, List.take_length] at hbytes
  have hholds := hmeets.2 (by omega)
  rw [hret, List.take_length] at hholds
  exact ⟨hbytes, hret, packet_eq_iff.2 ⟨rfl, hholds⟩⟩

theorem sprint_full (hpos : 0 < len) (h : len ≤ (Line.linesText ft f smps).length)
    (buf : Nat → Byte) :
    len ≤ (Line.sprint ft f buf len smps).wbytes ∧
      (Line.sprint ft f buf len smps).wbytes ≤ (Line.linesText ft f smps).length ∧
      ((Line.sprint ft f buf len smps).wbytes = len → ∀ m,
        Line.linesText ft f (smps.take m) ≠ packet (Line.sprint ft f buf len smps).mem len) := by
  have hcut : (Line.sprint ft f buf len smps).wbytes = len → _ :=
    @sprintFrom_cut ft f smps buf len 0 [] rfl hpos
  obtain ⟨hbytes, hall⟩ := sprint_counts ft f buf len smps
  rw [List.nil_append] at hcut
  change _ → ¬ Holds (Line.sprint ft f buf len smps).mem 0
    (Line.linesText ft f (smps.take (Line.sprint ft f buf len smps).ret)) at hcut
  generalize Line.sprint ft f buf len smps = r at hcut hbytes hall ⊢
  have hle := @linesText_take_le ft f smps r.ret
  refine ⟨?_, by omega, fun hend m heq => ?_⟩
  · obtain hret | hfull := hall
    · rw [hret, List.take_length] at hbytes
      omega
    · exact hfull
  · obtain ⟨hlen, hholds⟩ := packet_eq_iff.1 heq.symm
    have htake : smps.take m = smps.take r.ret := by
      apply take_of_linesText
      rw [hlen, ← hend, hbytes]
    rw [htake] at hholds
    exact hcut hend hholds

theorem sprint_empty (h : smps = [] ∨ len = 0) (buf : Nat → Byte) :
    Line.sprint ft f buf len smps = ⟨buf, 0, 0, []⟩ := by
  obtain rfl | rfl := h
  · rfl
  · exact Line.sprintFrom_full (Nat.le_refl 0)

theorem not_reports_cut {ret : Int} {bytes : List Byte}
    (h : ∀ m, Line.linesText ft f (smps.take m) ≠ bytes) :
    ¬ Reports (lineFormat ft f) smps ⟨ret, some bytes⟩ := by
  rw [reports_some_iff]
  rintro ⟨⟨m, -, hpacket, -⟩, -⟩
  exact h m (Option.some.inj hpacket)

theorem not_reports_unsent (hne : smps ≠ []) : ¬ Reports (lineFormat ft f) smps ⟨-1, none⟩ := by
  rw [reports_none_iff]
  rintro (hnil | hnone)
  · exact hne hnil
  · cases hnone

theorem socketWrite_full (new : Nat → Nat → Byte) (hne : smps ≠ [])
    (h : len ≤ (Line.linesText ft f smps).length) (rounds : Nat) (buf : Nat → Byte) :
    ∀ o, socketWrite (lineFormat ft f) new smps rounds buf len = some o →
      ¬ Reports (lineFormat ft f) smps o := by
  induction rounds generalizing buf len with
  | zero =>
    intro o hwrite
    cases hwrite
  | succ rounds ih =>
    intro o hwrite
    unfold socketWrite lineFormat at hwrite
    dsimp only at hwrite
    rw [if_neg (by omega), Option.getD_some] at hwrite
    by_cases hzero : len = 0
    · rw [sprint_empty (.inr hzero), if_pos rfl] at hwrite
      cases hwrite
      exact not_reports_unsent hne
    · obtain ⟨hle, hall, hcut⟩ := @sprint_full ft f smps len (Nat.pos_of_ne_zero hzero) h buf
      rw [if_neg (by omega)] at hwrite
      split at hwrite
      · exact ih hall _ o hwrite
      · next hexact =>
        have hend : (Line.sprint ft f buf len smps).wbytes = len := by omega
        cases hwrite
        rw [hend]
        exact not_reports_cut (hcut hend)

theorem socket_lines_iff : SocketReports (lineFormat ft f) len smps ↔ LinesFit ft f len smps := by
  unfold LinesFit
  constructor
  · intro hall
    by_contra hfull
    rw [not_or, Nat.not_lt] at hfull
    obtain ⟨rounds, o, hwrite, hreports⟩ := hall (fun _ => 0) fun _ _ => 0
    exact socketWrite_full _ hfull.1 hfull.2 rounds _ o hwrite hreports
  · intro hfits
    by_cases hnil : smps = []
    · refine (socketReports_iff (o := ⟨-1, none⟩) fun buf new rounds => ?_).mpr
        (reports_none_iff.2 (.inl hnil))
      unfold socketWrite lineFormat
      dsimp only
      rw [sprint_empty (.inl hnil)]
      rfl
    · refine (socketReports_iff (o := ⟨smps.length, some (Line.linesText ft f smps)⟩)
        fun buf new rounds => ?_).mpr (reports_all_iff.2 rfl)
      have hlt := hfits.resolve_left hnil
      obtain ⟨hbytes, -, hpacket⟩ := sprint_lines hlt buf
      have hpos : (Line.linesText ft f smps).length ≠ 0 := mt linesText_eq_nil hnil
      unfold socketWrite lineFormat
      dsimp only
      rw [if_neg (by omega), Option.getD_some, hbytes, if_neg hpos, if_neg (by omega), hpacket]

theorem rtp_full (hne : smps ≠ []) (h : len ≤ (Line.linesText ft f smps).length) :
    ¬ RtpReports (lineFormat ft f) len smps := by
  intro hall
  obtain ⟨rounds, o, hwrite, hreports⟩ := hall (fun _ => 0) (fun _ => true) 0
  cases rounds with
  | zero => cases hwrite
  | succ rounds =>
    unfold rtpWrite lineFormat at hwrite
    dsimp only at hwrite
    rw [Option.getD_some, if_pos rfl] at hwrite
    by_cases hzero : len = 0
    · rw [sprint_empty (.inr hzero), if_neg (Nat.not_lt_zero len)] at hwrite
      cases hwrite
      have hsent := Option.some.inj (hreports.sent hne _ rfl)
      exact hne (linesText_eq_nil (congrArg List.length hsent).symm)
    · obtain ⟨hle, -, hcut⟩ := @sprint_full ft f smps len (Nat.pos_of_ne_zero hzero) h fun _ => 0
      split at hwrite
      · cases hwrite
        exact not_reports_unsent hne hreports
      · next hexact =>
        have hend : (Line.sprint ft f (fun _ => 0) len smps).wbytes = len := by omega
        cases hwrite
        rw [hend] at hreports
        exact not_reports_cut (hcut hend) hreports

theorem rtp_lines_iff : RtpReports (lineFormat ft f) len smps ↔ LinesFit ft f len smps := by
  unfold LinesFit
  constructor
  · intro hall
    by_contra hfull
    rw [not_or, Nat.not_lt] at hfull
    exact rtp_full hfull.1 hfull.2 hall
  · intro hfits
    refine (rtpReports_iff (o := ⟨smps.length, some (Line.linesText ft f smps)⟩)
      fun buf resize wbytes rounds => ?_).mpr (reports_all_iff.2 rfl)
    unfold rtpWrite lineFormat
    dsimp only
    obtain hnil | hlt := hfits
    · rw [sprint_empty (.inl hnil), hnil]
      rfl
    · obtain ⟨hbytes, hret, hpacket⟩ := sprint_lines hlt buf
      rw [Option.getD_some, hbytes, if_neg (by omega), hret, hpacket]

end

/-! ## The result -/

/-- Whatever the samples and the buffers are: what is returned is in the packet, and a batch is sent
if it can be encoded, exactly when the buffer is large enough for it. -/
theorem writes_report_iff (fmt : VillasBinaryFormat) (broken : Nat → Byte) (ft : Line.FloatText)
    (f : Line.LineFormat) (len : Nat) :
    (∀ smps : Batch Payload,
        SocketReports (binaryFormat fmt broken) len smps ↔ SocketBinary fmt len smps) ∧
      (∀ smps : Batch Payload, RtpReports (binaryFormat fmt broken) len smps ↔ RtpBinary fmt len smps) ∧
      (∀ smps : Batch Line.LineSample, SocketReports (lineFormat ft f) len smps ↔ LinesFit ft f len smps) ∧
      ∀ smps : Batch Line.LineSample, RtpReports (lineFormat ft f) len smps ↔ LinesFit ft f len smps :=
  ⟨fun _ => socket_binary_iff, fun _ => rtp_binary_iff, fun _ => socket_lines_iff,
    fun _ => rtp_lines_iff⟩

/-- With two samples and room for the message of one, the other one is counted, too. -/
theorem not_reports_two :
    ¬ ∀ (fmt : VillasBinaryFormat) (broken : Nat → Byte) (len : Nat) (smps : Batch Payload),
      SocketReports (binaryFormat fmt broken) len smps := by
  intro hclaim
  obtain ⟨rounds, o, hwrite, hreports⟩ := hclaim exampleFormat (fun _ => 0) 39
    ⟨[exampleOut 1 7, exampleOut 2 8], by decide⟩ (fun _ => 0) fun _ _ => 0
  cases rounds with
  | zero => cases hwrite
  | succ rounds =>
    cases hwrite
    have hlen := congrArg (Option.map List.length) (reports_all_iff.1 hreports)
    revert hlen
    decide

end VillasNode.PacketWrite
