import VillasNode.Format.Closed

/-!
# Texts of many lines

How `sscan` gets from one line to the next, past comments and past the first
line. Each line of a text is read on its own when all of them are closed, and
only then if the delimiter is no byte of a number.
-/

namespace VillasNode.Line

open ByteOrder Strto

/-! ## Skipping -/

section
variable {d : Byte} {mem : List Byte} {off n : Nat}

theorem getD_eq_headD_drop (mem : List Byte) (off : Nat) : mem.getD off 0 = (mem.drop off).headD 0 := by
  rw [List.headD_eq_head?_getD, List.head?_drop, List.getD_eq_getElem?_getD]

theorem skipLine_eq (hn : n ≤ (mem.drop off).length + 1) :
    skipLine d mem off n = off + min n (((mem.drop off).takeWhile (· ≠ d)).length + 1) := by
  induction n generalizing off with
  | zero => simp [skipLine]
  | succ n ih =>
    have hdrop : mem.drop (off + 1) = (mem.drop off).tail := by rw [List.tail_drop]
    rw [skipLine, getD_eq_headD_drop]
    cases hmem : mem.drop off with
    | nil =>
      rw [hmem] at hn
      obtain rfl : n = 0 := by simpa using hn
      simp [skipLine]
    | cons c s =>
      rw [hmem] at hn hdrop
      by_cases hc : c = d
      · simp [hc]
      · rw [List.headD_cons, if_neg hc, ih (by simpa [hdrop] using hn), hdrop,
          List.takeWhile_cons_of_pos (by simpa using hc), List.tail_cons, List.length_cons]
        omega

theorem skipComment_skipLine : skipComment d mem off n + 1 = skipLine d mem (off + 1) n := by
  induction n generalizing off with
  | zero => rfl
  | succ n ih =>
    rw [skipComment, skipLine]
    split_ifs
    · rfl
    · exact ih

theorem skipComment_eq (hn : n ≤ (mem.drop (off + 1)).length + 1) :
    skipComment d mem off n = off + min n (((mem.drop (off + 1)).takeWhile (· ≠ d)).length + 1) := by
  have h := @skipComment_skipLine d mem off n
  rw [skipLine_eq hn] at h
  omega

end

/-! ## Lines -/

/-- The lines with the delimiter behind each of them. -/
def text (d : Byte) (lines : List (List Byte)) : List Byte := (lines.map (· ++ [d])).flatten

/-- What is parsed of a line. A comment is skipped up to its delimiter. -/
def body (L : List Byte) : List Byte := if L.headD 0 = comment then [] else L

section
variable {d : Byte} {L : List Byte} {lines : List (List Byte)}

@[simp] theorem text_nil : text d [] = [] := rfl

theorem text_cons : text d (L :: lines) = L ++ d :: text d lines := by simp [text]

theorem text_append (lines lines' : List (List Byte)) :
    text d (lines ++ lines') = text d lines ++ text d lines' := by simp [text]

theorem body_length_le (L : List Byte) : (body L).length ≤ L.length := by
  unfold body
  split_ifs
  · exact Nat.zero_le _
  · exact le_refl _

theorem not_mem_body (hL : d ∉ L) : d ∉ body L := by
  unfold body
  split_ifs
  · exact List.not_mem_nil
  · exact hL

theorem takeWhile_line (hL : d ∉ L) (b : List Byte) : (L ++ d :: b).takeWhile (· ≠ d) = L := by
  rw [List.takeWhile_append_of_pos]
  · rw [List.takeWhile_cons_of_neg (by simp), List.append_nil]
  · intro x hx
    rw [decide_eq_true_eq]
    rintro rfl
    exact hL hx

end

section
variable {r : LineReader} {pre L b : List Byte} {len : Nat}

theorem skipCommentAt_line (hcomment : r.format.delimiter = comment → L ≠ []) (hL : r.format.delimiter ∉ L)
    (hlen : pre.length + L.length < len) (hmem : len ≤ (pre ++ (L ++ r.format.delimiter :: b)).length) :
    (skipCommentAt r (pre ++ (L ++ r.format.delimiter :: b)) len pre.length).1 =
      pre.length + (L.length - (body L).length) ∧
    Within (skipCommentAt r (pre ++ (L ++ r.format.delimiter :: b)) len pre.length).2
      (pre.length + L.length + 1) := by
  unfold skipCommentAt body
  rw [getD_eq_headD_drop, List.drop_left]
  cases L with
  | nil =>
    have hne : r.format.delimiter ≠ comment := fun h => hcomment h rfl
    simp [hne, Within]
  | cons c L =>
    simp only [List.cons_append, List.headD_cons]
    by_cases hc : c = comment
    · have hskip : skipComment r.format.delimiter (pre ++ c :: (L ++ r.format.delimiter :: b)) pre.length
          (len - pre.length) = pre.length + (c :: L).length := by
        have hdrop : (pre ++ c :: (L ++ r.format.delimiter :: b)).drop (pre.length + 1) =
            L ++ r.format.delimiter :: b := by
          rw [← List.drop_drop, List.drop_left, List.drop_one, List.tail_cons]
        rw [skipComment_eq, hdrop,
          takeWhile_line (List.not_mem_of_not_mem_cons hL), List.length_cons]
        · rw [List.length_cons] at hlen
          omega
        · rw [hdrop]
          simp only [List.length_append, List.length_cons] at hmem ⊢
          omega
      rw [hskip]
      simp only [hc, if_true, List.length_nil, Nat.sub_zero, Within, List.mem_singleton, forall_eq,
        true_and]
      omega
    · simp [hc, Within]

theorem sizeAdd_of_lt {off n : Nat} (h : off + n < 2 ^ 64) : sizeAdd off n = off + n := by
  unfold sizeAdd
  omega

theorem drop_line (pre L b : List Byte) (d : Byte) :
    (pre ++ (L ++ d :: b)).drop (pre.length + (L.length - (body L).length)) = body L ++ d :: b := by
  rw [← List.drop_drop, List.drop_left]
  unfold body
  split_ifs
  · rw [List.length_nil, Nat.sub_zero, List.drop_left, List.nil_append]
  · rw [Nat.sub_self, List.drop_zero]

theorem sscanFrom_line (hcomment : r.format.delimiter = comment → L ≠ []) (hL : r.format.delimiter ∉ L)
    (hlen : pre.length + L.length < len) (hmem : len ≤ (pre ++ (L ++ r.format.delimiter :: b)).length)
    (smp : Receiver) (smps : List Receiver) :
    let mem := pre ++ (L ++ r.format.delimiter :: b)
    let start := pre.length + (L.length - (body L).length)
    let line := sscanLine r smp.capacity (body L ++ r.format.delimiter :: b) smp.payload
    let rest := sscanFrom r mem len (sizeAdd start line.ret) smps
    ∃ skipped, Within skipped (pre.length + L.length + 1) ∧
      sscanFrom r mem len pre.length (smp :: smps) =
        { smps := { smp with payload := line.smp } :: rest.smps
          rbytes := rest.rbytes
          ret := rest.ret + 1
          results := line.ret :: rest.results
          looks := skipped ++ (line.looks.map fun l => ⟨start + l.start, l.size⟩) ++ rest.looks } := by
  obtain ⟨hstart, hwithin⟩ := skipCommentAt_line hcomment hL hlen hmem
  have hne : pre.length + (L.length - (body L).length) ≠ len := by omega
  refine ⟨_, hwithin, ?_⟩
  rw [sscanFrom, if_pos (by omega)]
  simp only [hstart, hne, if_false, drop_line]

end

/-! ## Isolation -/

/-- The sample that is read from a line alone. -/
def alone (r : LineReader) (L : List Byte) (smp : Receiver) : Receiver :=
  { smp with
    payload := (sscanLine r smp.capacity (body L ++ [r.format.delimiter]) smp.payload).smp }

/-- The loop from the first of these lines on consumes one line for each sample, which is the one
that is read from the line alone. -/
structure IsolatedFrom (r : LineReader) (off : Nat) (lines : List (List Byte)) (smps : List Receiver)
    (t : ReadText) : Prop where
  ret : t.ret = min smps.length lines.length
  results : t.results = (lines.take smps.length).map fun L => ((body L).length : Int) + 1
  rbytes : t.rbytes = off + (text r.format.delimiter (lines.take smps.length)).length
  smps : t.smps = List.zipWith (alone r) lines smps ++ smps.drop lines.length

/-- The lines that the receivers get are closed, as they stand in the text with `behind` following it
and alone. An empty line would be a comment if this is what the delimiter begins. -/
def ClosedLines (r : LineReader) (behind : List Byte) : List (List Byte) → List Receiver → Prop
  | L :: lines, smp :: smps =>
    (Closed r smp.capacity (text r.format.delimiter lines ++ behind) (body L) ∧
        Closed r smp.capacity [] (body L) ∧ (r.format.delimiter = comment → L ≠ [])) ∧
      ClosedLines r behind lines smps
  | _, _ => True

section
variable {r : LineReader} {behind pre L : List Byte} {lines : List (List Byte)} {smp : Receiver}
  {smps : List Receiver}

theorem Fields.alone {d : Byte} {b : List Byte} {ts : List SignalType} {s : List Byte}
    (h : Fields d b ts s) : Fields d [] ts s := by
  induction ts generalizing s with
  | nil => exact h
  | cons t ts ih =>
    have ht := h.1
    cases hscan : scanValue t s with
    | ok s' =>
      rw [fields_ok ht hscan] at h ⊢
      cases s' with
      | nil => trivial
      | cons c s' => exact ih h
    | error s' =>
      rw [fields_error ht hscan] at h ⊢
      refine ⟨h.1, ?_⟩
      rintro ⟨-, -, hbegins⟩
      cases t <;> exact absurd hbegins (by decide)

theorem Regular.alone {capacity : Nat} {b : List Byte} (h : Regular r capacity b L) :
    Regular r capacity [] L := by
  unfold Regular at h ⊢
  cases hlayout : r.format.layout with
  | human =>
    rw [hlayout] at h
    obtain ⟨u, s, hu, hs, htail⟩ := h
    refine ⟨u, s, hu, hs, ?_⟩
    cases s with
    | nil => trivial
    | cons c s => exact Fields.alone htail
  | column separator =>
    rw [hlayout] at h
    exact Fields.alone h

theorem sscanFrom_end {mem : List Byte} {len off : Nat} (h : len ≤ off) (smps : List Receiver) :
    sscanFrom r mem len off smps = ⟨smps, off, 0, [], []⟩ := by
  cases smps with
  | nil => rfl
  | cons smp smps => rw [sscanFrom, if_neg (by omega)]

theorem isolatedFrom_cons {off : Nat} {smp' : Receiver} {x : Int} {looks : List Look} {t : ReadText} :
    IsolatedFrom r off (L :: lines) (smp :: smps)
        ⟨smp' :: t.smps, t.rbytes, t.ret + 1, x :: t.results, looks⟩ ↔
      x = (body L).length + 1 ∧ smp' = alone r L smp ∧
        IsolatedFrom r (off + L.length + 1) lines smps t := by
  have hlen : off + (text r.format.delimiter ((L :: lines).take (smps.length + 1))).length =
      off + L.length + 1 + (text r.format.delimiter (lines.take smps.length)).length := by
    rw [List.take_succ_cons, text_cons, List.length_append, List.length_cons]
    omega
  constructor
  · rintro ⟨hret, hresults, hrbytes, hsmps⟩
    simp only [List.length_cons, List.take_succ_cons, List.map_cons, List.cons.injEq] at hresults
    simp only [List.zipWith_cons_cons, List.cons_append, List.length_cons, List.drop_succ_cons,
      List.cons.injEq] at hsmps
    refine ⟨hresults.1, hsmps.1, ?_, hresults.2, ?_, hsmps.2⟩
    · simp only [List.length_cons] at hret
      omega
    · rw [← hlen]
      exact hrbytes
  · rintro ⟨rfl, rfl, hret, hresults, hrbytes, hsmps⟩
    constructor
    · simp only [List.length_cons, hret]
      omega
    · simp only [List.length_cons, List.take_succ_cons, List.map_cons, hresults]
    · rw [List.length_cons, hlen]
      exact hrbytes
    · simp only [List.zipWith_cons_cons, List.cons_append, List.length_cons, List.drop_succ_cons, hsmps]

theorem isolatedFrom_step {b : List Byte} {len : Nat} (hcomment : r.format.delimiter = comment → L ≠ [])
    (hL : r.format.delimiter ∉ L) (hlen : pre.length + L.length < len)
    (hmem : len ≤ (pre ++ (L ++ r.format.delimiter :: b)).length) (hsize : len < 2 ^ 64) :
    let mem := pre ++ (L ++ r.format.delimiter :: b)
    let line := sscanLine r smp.capacity (body L ++ r.format.delimiter :: b) smp.payload
    IsolatedFrom r pre.length (L :: lines) (smp :: smps) (sscanFrom r mem len pre.length (smp :: smps)) ↔
      line.ret = (body L).length + 1 ∧
        line.smp = (sscanLine r smp.capacity (body L ++ [r.format.delimiter]) smp.payload).smp ∧
          IsolatedFrom r (pre ++ (L ++ [r.format.delimiter])).length lines smps
            (sscanFrom r mem len (pre ++ (L ++ [r.format.delimiter])).length smps) := by
  intro mem line
  obtain ⟨skipped, -, hstep⟩ := sscanFrom_line hcomment hL hlen hmem smp smps
  have hbody := body_length_le L
  have hbehind : (pre ++ (L ++ [r.format.delimiter])).length = pre.length + L.length + 1 := by
    simp only [List.length_append, List.length_singleton]
    omega
  rw [hstep, isolatedFrom_cons, hbehind]
  apply and_congr_right
  intro hret
  have hoff : sizeAdd (pre.length + (L.length - (body L).length)) line.ret = pre.length + L.length + 1 := by
    rw [hret, show ((body L).length : Int) + 1 = ((body L).length + 1 : Nat) by omega,
      sizeAdd_of_lt (by omega)]
    omega
  rw [hoff, alone]
  simp only [Receiver.mk.injEq, true_and]
  rfl

section
variable {mem : List Byte} {len : Nat} (hlines : ∀ L ∈ lines, r.format.delimiter ∉ L)
  (hmem : mem = pre ++ (text r.format.delimiter lines ++ behind))
  (hlen : len = pre.length + (text r.format.delimiter lines).length) (hsize : len < 2 ^ 64)
include hlines hmem hlen hsize

theorem isolatedFrom_of_closed (hclosed : ClosedLines r behind lines smps) :
    IsolatedFrom r pre.length lines smps (sscanFrom r mem len pre.length smps) := by
  induction lines generalizing pre smps with
  | nil =>
    rw [sscanFrom_end (by simp [hlen])]
    constructor <;> simp
  | cons L lines ih =>
    cases smps with
    | nil => constructor <;> simp [sscanFrom]
    | cons smp smps =>
      obtain ⟨hL, hlines⟩ := List.forall_mem_cons.mp hlines
      obtain ⟨⟨hline, halone, hcomment⟩, hclosed⟩ := hclosed
      rw [text_cons, List.append_assoc, List.cons_append] at hmem
      rw [text_cons, List.length_append, List.length_cons] at hlen
      subst hmem
      obtain ⟨smp', hsame⟩ := line_closed smp.payload (not_mem_body hL)
      obtain ⟨looks, heq⟩ := hsame _ hline
      obtain ⟨looks', heq'⟩ := hsame _ halone
      apply (@isolatedFrom_step r pre _ _ _ _ _ _ hcomment hL (by omega)
        (by simp only [List.length_append, List.length_cons]; omega) hsize).mpr
      rw [heq, heq']
      refine ⟨by simp, rfl, ?_⟩
      apply ih hlines (by simp) _ hclosed
      simp only [List.length_append, List.length_singleton]
      omega

theorem closed_of_isolatedFrom (hd : inNumber r.format.delimiter = false)
    (hcomment : r.format.delimiter ≠ comment)
    (hisolated : IsolatedFrom r pre.length lines smps (sscanFrom r mem len pre.length smps)) :
    ClosedLines r behind lines smps := by
  induction lines generalizing pre smps with
  | nil => trivial
  | cons L lines ih =>
    cases smps with
    | nil => trivial
    | cons smp smps =>
      obtain ⟨hL, hlines⟩ := List.forall_mem_cons.mp hlines
      rw [text_cons, List.append_assoc, List.cons_append] at hmem
      rw [text_cons, List.length_append, List.length_cons] at hlen
      subst hmem
      obtain ⟨hret, -, hrest⟩ := (@isolatedFrom_step r pre _ _ _ _ _ _ (fun h => absurd h hcomment) hL
        (by omega) (by simp only [List.length_append, List.length_cons]; omega) hsize).mp hisolated
      have hregular := (line_ret hd (not_mem_body hL) _ smp.payload).mp hret
      refine ⟨⟨(closed_iff hd).mpr hregular, (closed_iff hd).mpr hregular.alone,
        fun h => absurd h hcomment⟩, ?_⟩
      apply ih hlines (by simp) _ hrest
      simp only [List.length_append, List.length_singleton]
      omega

end

end

/-- The lines that are skipped in front of the first sample. -/
def LineReader.firstLines (r : LineReader) : Nat :=
  if r.skipFirstLine ∧ ¬ r.firstLineSkipped then 1 else 0

/-- Each sample is read from its own line, up to and with the delimiter. -/
def Isolated (r : LineReader) (behind : List Byte) (lines : List (List Byte)) (smps : List Receiver) :
    Prop :=
  let d := r.format.delimiter
  IsolatedFrom r (text d (lines.take r.firstLines)).length (lines.drop r.firstLines) smps
    (sscan r (text d lines ++ behind) (text d lines).length smps)

section
variable {r : LineReader} {behind : List Byte} {lines : List (List Byte)}

theorem firstLine_eq {len : Nat} (hlines : ∀ L ∈ lines, r.format.delimiter ∉ L)
    (hlen : (text r.format.delimiter lines).length ≤ len)
    (hmem : len ≤ (text r.format.delimiter lines ++ behind).length)
    (hempty : lines = [] → r.firstLines = 1 → len = 0) :
    firstLine r (text r.format.delimiter lines ++ behind) len =
      (text r.format.delimiter (lines.take r.firstLines)).length := by
  unfold firstLine
  by_cases hpending : r.skipFirstLine ∧ ¬ r.firstLineSkipped
  · have hone : r.firstLines = 1 := if_pos hpending
    rw [if_pos hpending, hone]
    cases lines with
    | nil =>
      rw [hempty rfl hone]
      rfl
    | cons L lines =>
      have hL := (List.forall_mem_cons.mp hlines).1
      rw [text_cons, List.length_append, List.length_cons] at hlen
      rw [skipLine_eq]
      · rw [List.take_succ_cons, List.take_zero, text_cons, text_cons, List.drop_zero, List.append_assoc,
          List.cons_append, takeWhile_line hL, text_nil, List.length_append, List.length_singleton]
        omega
      · rw [List.drop_zero]
        omega
  · rw [if_neg hpending, LineReader.firstLines, if_neg hpending]
    rfl

/-- The lines are isolated, for all texts and receivers, when the lines that the receivers get are
closed, and with a delimiter that cannot stand in a number and begins no comment only then. -/
theorem sscan_isolated_iff (smps : List Receiver) (hlines : ∀ L ∈ lines, r.format.delimiter ∉ L)
    (hsize : (text r.format.delimiter lines).length < 2 ^ 64) :
    (ClosedLines r behind (lines.drop r.firstLines) smps → Isolated r behind lines smps) ∧
      (inNumber r.format.delimiter = false → r.format.delimiter ≠ comment →
        Isolated r behind lines smps → ClosedLines r behind (lines.drop r.firstLines) smps) := by
  have hsplit := text_append (d := r.format.delimiter) (lines.take r.firstLines) (lines.drop r.firstLines)
  rw [List.take_append_drop] at hsplit
  have hrest : ∀ L ∈ lines.drop r.firstLines, r.format.delimiter ∉ L :=
    fun L hL => hlines L (List.mem_of_mem_drop hL)
  have hmem : text r.format.delimiter lines ++ behind = text r.format.delimiter (lines.take r.firstLines) ++
      (text r.format.delimiter (lines.drop r.firstLines) ++ behind) := by
    rw [← List.append_assoc, ← hsplit]
  have hlen := congrArg List.length hsplit
  rw [List.length_append] at hlen
  unfold Isolated sscan
  dsimp only
  rw [firstLine_eq hlines (le_refl _) (by rw [List.length_append]; omega)
    (fun hnil _ => by rw [hnil]; rfl)]
  exact ⟨isolatedFrom_of_closed hrest hmem hlen hsize, closed_of_isolatedFrom hrest hmem hlen hsize⟩

end

/-- Texts of floating point numbers that are all read as zero. -/
def exampleScan : FloatScan := ⟨fun _ => 0, fun _ => 0, fun _ => 0, fun t _ => t⟩

/-- The reader of a villas.human format with one integer for each line. -/
def exampleReader : LineReader := ⟨humanFormat, exampleScan, 1, [.integer], false, false⟩

def exampleReceiver : Receiver := ⟨4, ⟨0, 0, 0, 0, ⟨0, 0⟩, ⟨0, 0⟩, fun _ => 0⟩⟩

/-- The letter `x` as the delimiter. -/
def exampleLetter : LineReader :=
  { exampleReader with format := { humanFormat with delimiter := ch 'x', delimiter_ne := by decide } }

/-- The number in front of an `x` ends there, though real numbers may contain it. -/
theorem sscan_isolated_two : Isolated exampleLetter [] [ascii "1.5(7)\t5", ascii "2.5\t-6"]
    [exampleReceiver, exampleReceiver] := by
  apply (sscan_isolated_iff _ (by decide) (by decide)).1
  refine ⟨⟨?_, ?_, by decide⟩, ⟨?_, ?_, by decide⟩, trivial⟩
  · exact ⟨_, _, ascii "\t5", rfl, rfl, rfl, rfl, rfl, by decide, rfl, trivial⟩
  · exact ⟨_, _, ascii "\t5", rfl, rfl, rfl, rfl, rfl, by decide, rfl, trivial⟩
  · exact ⟨_, _, ascii "\t-6", rfl, rfl, rfl, rfl, rfl, by decide, rfl, trivial⟩
  · exact ⟨_, _, ascii "\t-6", rfl, rfl, rfl, rfl, rfl, by decide, rfl, trivial⟩

/-- A second value in a line with one signal stays behind as the start of the next line. -/
theorem sscan_not_isolated : ¬ Isolated exampleReader [] [ascii "1.5(7)\t5\t6", ascii "2.5\t-6"]
    [exampleReceiver, exampleReceiver] := by
  intro h
  exact absurd h.results (by decide)

end VillasNode.Line
