import VillasNode.Format.Lines

/-!
# Comments in texts

Comment lines between well formed sample lines. The loop of `sscan` leaves the
delimiter of a comment to the next sample, so a comment makes no difference only
where a number follows this delimiter and the delimiter is white space.
-/

namespace VillasNode.Line

open ByteOrder Strto

/-! ## Flags -/

section
variable {a b flag : BitVec 32}

theorem hasFlag_or (h : hasFlag a flag) : hasFlag (a ||| b) flag := by
  simp only [hasFlag, ne_eq, decide_eq_true_eq] at h ⊢
  intro hzero
  apply h
  rw [BitVec.and_comm, BitVec.and_or_distrib_left] at hzero
  rw [BitVec.and_comm]
  exact (BitVec.or_eq_zero_iff.mp hzero).1

theorem hasFlag_or_right (h : hasFlag b flag) : hasFlag (a ||| b) flag := by
  rw [BitVec.or_comm]
  exact hasFlag_or h

end

section
variable {r : LineReader} {capacity : Nat} {f : Scan} {set mark : List Byte → Payload → Payload}
  {next : Payload → Cursor → List Look → ReadLine}

/-- The rest of a line does not take the timestamp away. -/
def KeepsOrigin (next : Payload → Cursor → List Look → ReadLine) : Prop :=
  ∀ smp stop looks, hasFlag smp.flags SampleFlags.hasTsOrigin →
    hasFlag (next smp stop looks).smp.flags SampleFlags.hasTsOrigin

theorem valueLoop_flags {smp : Payload} {stop : Cursor} {looks : List Look} {i n : Nat} :
    (valueLoop r smp stop looks i n).smp.flags = smp.flags := by
  induction n generalizing smp stop looks i with
  | zero => rfl
  | succ n ih =>
    rw [valueLoop_succ]
    split_ifs
    · rfl
    · cases r.types[i]? with
      | none => rfl
      | some t =>
        dsimp only
        split_ifs
        · rfl
        · exact ih

theorem finishLine_keeps {v : ReadValues} (h : hasFlag v.smp.flags SampleFlags.hasTsOrigin) :
    hasFlag (finishLine r v).smp.flags SampleFlags.hasTsOrigin := by
  have hflags : (finishLine r v).smp.flags =
      if 0 < v.length then v.smp.flags ||| SampleFlags.hasData else v.smp.flags := by
    unfold finishLine
    dsimp only
    split_ifs <;> rfl
  rw [hflags]
  split_ifs
  · exact hasFlag_or h
  · exact h

theorem columnField_keeps (hset : ∀ text smp, (set text smp).flags = smp.flags)
    (hmark : ∀ text smp, ∃ flag, (mark text smp).flags = smp.flags ||| flag) (hnext : KeepsOrigin next) :
    KeepsOrigin fun smp stop looks => columnField r f set mark next smp stop.next looks := by
  intro smp stop looks h
  rcases hconvert : stop.next.convert f with ⟨text, stop'⟩
  dsimp only
  rw [columnField_eq looks hconvert]
  split_ifs
  · exact finishLine_keeps (by rw [hset]; exact h)
  · obtain ⟨flag, hflag⟩ := hmark text (set text smp)
    apply hnext
    rw [hflag, hset]
    exact hasFlag_or h

theorem valuesNext_keeps : KeepsOrigin (valuesNext r capacity) := by
  intro smp stop looks h
  apply finishLine_keeps
  rw [valueLoop_flags]
  exact h

theorem sequenceNext_keeps : KeepsOrigin (sequenceNext r capacity) := by
  unfold sequenceNext
  apply columnField_keeps
  · exact fun _ _ => rfl
  · exact fun _ _ => ⟨SampleFlags.hasSequence, rfl⟩
  · exact valuesNext_keeps

theorem offsetNext_keeps : KeepsOrigin (offsetNext r capacity) := by
  unfold offsetNext
  apply columnField_keeps
  · exact fun _ _ => rfl
  · exact fun _ _ => ⟨SampleFlags.hasTsReceived, rfl⟩
  · exact sequenceNext_keeps

end

/-! ## Sample lines -/

/-- A line that is read up to its delimiter whatever follows, with a timestamp in the columns of csv
and tsv as well. -/
def WellFormed (r : LineReader) (capacity : Nat) (L : List Byte) : Prop :=
  (∀ b, Regular r capacity b L) ∧ (r.format.layout = .human ∨ ∃ c s c' s',
    scanValue .integer L = .ok (c :: s) ∧ scanValue .integer s = .ok (c' :: s'))

theorem scanNumber_ok {f : Scan} {s s' : List Byte} : scanNumber f s = .ok s' ↔ spaced f s = some s' := by
  unfold scanNumber
  cases spaced f s <;> simp

section
variable {r : LineReader} {capacity : Nat} {L b : List Byte} {smp : Payload}

theorem WellFormed.number (hd : inNumber r.format.delimiter = false) (h : WellFormed r capacity L) :
    (spaced integer L).isSome := by
  obtain ⟨hregular, hlayout | ⟨c, s, -, -, hsec, -⟩⟩ := h
  · have hline := hregular []
    unfold Regular at hline
    rw [hlayout] at hline
    obtain ⟨u, s, hu, -⟩ := hline
    obtain ⟨v, w, hv, -⟩ := bind_eq_some.mp hu
    obtain ⟨t, ht, -⟩ := Option.map_eq_some_iff.mp hv
    by_cases hblank : Blank r.format.delimiter L
    · rw [spaced_blank hblank.1 hblank.2, show spaced integer [] = none by decide] at ht
      cases ht
    · rw [(bounded_integer hd).spaced hblank] at ht
      obtain ⟨s', hs', -⟩ := Option.map_eq_some_iff.mp ht
      rw [hs']
      rfl
  · rw [scanNumber_ok.1 hsec]
    rfl

theorem integer_comment (s : List Byte) : spaced integer (comment :: s) = none := rfl

theorem WellFormed.body (hd : inNumber r.format.delimiter = false) (h : WellFormed r capacity L) :
    body L = L := by
  have hnumber := h.number hd
  unfold Line.body
  rw [if_neg]
  intro hcomment
  cases L with
  | nil => exact absurd hcomment (by decide)
  | cons c L =>
    rw [List.headD_cons] at hcomment
    rw [hcomment, integer_comment] at hnumber
    cases hnumber

theorem humanValues_keeps {offset : BitVec 32} {stop : Cursor} {looks : List Look}
    (h : hasFlag smp.flags SampleFlags.hasTsOrigin) :
    hasFlag (humanValues r capacity smp offset stop looks).smp.flags SampleFlags.hasTsOrigin := by
  have hfinish : hasFlag (finishLine r (valueLoop r smp stop looks 0 capacity)).smp.flags
      SampleFlags.hasTsOrigin := finishLine_keeps (by rw [valueLoop_flags]; exact h)
  rw [humanValues, humanFinish_eq]
  dsimp only
  unfold LineReader.delayed
  split_ifs
  · exact hasFlag_or hfinish
  · exact hfinish

theorem columnField_next {f : Scan} {t : SignalType} {set mark : List Byte → Payload → Payload}
    {next : Payload → Cursor → List Look → ReadLine} {p : Nat} {c : Byte} {s : List Byte}
    {looks : List Look} (hcolumn : Column f t) (hd : inNumber r.format.delimiter = false)
    (hL : r.format.delimiter ∉ L) (hs : spaced f L = some (c :: s)) :
    columnField r f set mark next smp ⟨p, L ++ r.format.delimiter :: b⟩ looks =
      next (mark (token L (c :: s)) (set (token L (c :: s)) smp))
        ⟨p + (L.length - (c :: s).length), c :: (s ++ r.format.delimiter :: b)⟩
        (looks ++ [(⟨p, L ++ r.format.delimiter :: b⟩ : Cursor).look]) := by
  obtain ⟨hsuffix, hlt⟩ := hcolumn.moves.spaced hs
  have hc : c ≠ r.format.delimiter := fun h => hL (hsuffix.subset (h ▸ List.mem_cons_self))
  have hmoved : p < p + (L.length - (c :: s).length) := by omega
  rw [columnField_eq looks (convert_line hcolumn.moves hs
    (spaced_line (hcolumn.bounded hd) hcolumn.nothing hs)), List.cons_append,
    if_neg (not_columnEnds hmoved hc _)]

theorem WellFormed.origin (hd : inNumber r.format.delimiter = false) (hL : r.format.delimiter ∉ L)
    (h : WellFormed r capacity L) :
    hasFlag (sscanLine r capacity (L ++ r.format.delimiter :: b) smp).smp.flags
      SampleFlags.hasTsOrigin := by
  have hret := (@line_ret _ _ _ hd hL b smp).mpr (h.1 b)
  unfold sscanLine at hret ⊢
  cases hlayout : r.format.layout with
  | human =>
    rw [hlayout] at hret
    rcases @follows_humanHeader r capacity smp (L ++ r.format.delimiter :: b)
      with ⟨-, hneg⟩ | ⟨u, -, heq⟩
    · dsimp only at hret
      omega
    · dsimp only
      rw [heq]
      apply humanValues_keeps
      exact hasFlag_or (hasFlag_or (by decide))
  | column separator =>
    rcases h.2 with hhuman | ⟨c, s, c', s', hsec, hnsec⟩
    · rw [hlayout] at hhuman
      cases hhuman
    have hsuffix := (moves_integer.spaced (scanNumber_ok.1 hsec)).1
    have hs : r.format.delimiter ∉ s := fun h => hL (hsuffix.subset (List.mem_cons_of_mem _ h))
    dsimp only
    rw [columnSscanLine_eq, columnField_next column_integer hd hL (scanNumber_ok.1 hsec), nsecNext,
      Cursor.next, List.tail_cons, columnField_next column_integer hd hs (scanNumber_ok.1 hnsec)]
    apply offsetNext_keeps
    exact hasFlag_or_right (by decide)

end

/-! ## Texts with comments -/

/-- A line of a text: a sample, or a comment with what follows the comment character. -/
inductive Entry where
  | sample (line : List Byte)
  | comment (rest : List Byte)

def Entry.line : Entry → List Byte
  | sample L => L
  | comment c => Line.comment :: c

def Entry.rest : Entry → List Byte
  | sample L => L
  | comment c => c

/-- The lines that are left without the comments. -/
def sampleLines : List Entry → List (List Byte)
  | [] => []
  | .sample L :: es => L :: sampleLines es
  | .comment _ :: es => sampleLines es

/-- A comment at the end without a delimiter. -/
def unfinished : Option (List Byte) → List Byte
  | none => []
  | some c => comment :: c

/-- Every comment is in front of a sample line, and the delimiter is white space if there is one. -/
def InFront (d : Byte) : List Entry → Option (List Byte) → Prop
  | [], last => last = none
  | .sample _ :: es, last => InFront d es last
  | .comment _ :: .sample _ :: es, last => isSpace d ∧ InFront d es last
  | .comment _ :: _, _ => False

/-- The loop reads all of these lines and nothing behind the text. -/
structure ReadsAll (r : LineReader) (len : Nat) (lines : List (List Byte)) (smps : List Receiver)
    (t : ReadText) : Prop where
  ret : t.ret = lines.length
  smps : t.smps = List.zipWith (alone r) lines smps ++ smps.drop lines.length
  looks : Within t.looks len

/-- The loop reads behind the text, or it counts a sample without a timestamp. -/
def Spoils (len : Nat) (t : ReadText) : Prop :=
  Within t.looks len → ∃ i < t.ret, ∃ smp, t.smps[i]? = some smp ∧
    ¬ hasFlag smp.payload.flags SampleFlags.hasTsOrigin

section
variable {r : LineReader} {pre L b c : List Byte} {len : Nat} {smp : Receiver} {smps : List Receiver}

theorem ReadsAll.cons {lines : List (List Byte)} {rest : ReadText} {looks : List Look} {rbytes : Nat}
    {results : List Int} (hlooks : Within looks len) (h : ReadsAll r len lines smps rest) :
    ReadsAll r len (L :: lines) (smp :: smps)
      ⟨alone r L smp :: rest.smps, rbytes, rest.ret + 1, results, looks ++ rest.looks⟩ := by
  obtain ⟨hret, hsmps, hwithin⟩ := h
  refine ⟨?_, ?_, within_append.mpr ⟨hlooks, hwithin⟩⟩
  · simp only [hret, List.length_cons]
  · simp only [hsmps, List.zipWith_cons_cons, List.cons_append, List.length_cons, List.drop_succ_cons]

theorem Spoils.cons {rest : ReadText} {smp' : Receiver} {looks : List Look} {rbytes : Nat}
    {results : List Int} (h : Spoils len rest) :
    Spoils len ⟨smp' :: rest.smps, rbytes, rest.ret + 1, results, looks ++ rest.looks⟩ := by
  intro hwithin
  obtain ⟨i, hi, smp, hsmp, hflag⟩ := h (within_append.mp hwithin).2
  exact ⟨i + 1, Nat.succ_lt_succ hi, smp, hsmp, hflag⟩

theorem sscanLine_wellFormed (hd : inNumber r.format.delimiter = false) (hL : r.format.delimiter ∉ L)
    (hwell : WellFormed r smp.capacity L) (white : List Byte) (hwhite : white.all isSpace) :
    ∃ looks, sscanLine r smp.capacity (white ++ (L ++ r.format.delimiter :: b)) smp.payload =
        ⟨(alone r L smp).payload, (white.length + L.length + 1 : Nat), looks⟩ ∧
      Within looks (white.length + L.length + 1) := by
  obtain ⟨smp', hsame⟩ := line_same hd hL smp.payload
  obtain ⟨looks, heq, hwithin⟩ := hsame white b hwhite (.inr (hwell.number hd)) (hwell.1 b)
  obtain ⟨looks', heq', -⟩ := hsame [] [] rfl (.inl rfl) (hwell.1 [])
  refine ⟨looks, ?_, hwithin hwell.1⟩
  rw [List.nil_append] at heq'
  rw [heq, alone, hwell.body hd, heq']

theorem sscanFrom_sample (hd : inNumber r.format.delimiter = false)
    (hcomment : r.format.delimiter ≠ comment) (hL : r.format.delimiter ∉ L)
    (hwell : WellFormed r smp.capacity L) (hlen : pre.length + L.length + 1 ≤ len)
    (hmem : len ≤ (pre ++ (L ++ r.format.delimiter :: b)).length) (hsize : len < 2 ^ 64) :
    ∃ looks x, Within looks len ∧
      let rest := sscanFrom r (pre ++ (L ++ r.format.delimiter :: b)) len
        (pre ++ (L ++ [r.format.delimiter])).length smps
      sscanFrom r (pre ++ (L ++ r.format.delimiter :: b)) len pre.length (smp :: smps) =
        ⟨alone r L smp :: rest.smps, rest.rbytes, rest.ret + 1, x :: rest.results, looks ++ rest.looks⟩ := by
  obtain ⟨skipped, hskipped, hstep⟩ := sscanFrom_line (fun h => absurd h hcomment) hL (by omega) hmem smp smps
  obtain ⟨looks, hline, hlooks⟩ := sscanLine_wellFormed (b := b) hd hL hwell [] rfl
  rw [List.nil_append] at hline
  rw [hwell.body hd, hline, Nat.sub_self, Nat.add_zero] at hstep
  dsimp only at hstep
  rw [sizeAdd_of_lt (by simp only [List.length_nil]; omega)] at hstep
  simp only [List.length_nil, Nat.zero_add] at hstep hlooks
  refine ⟨skipped ++ looks.map fun l => ⟨pre.length + l.start, l.size⟩, L.length + 1, ?_, ?_⟩
  · refine within_append.mpr ⟨fun l hl => le_trans (hskipped l hl) hlen, ?_⟩
    intro l hl
    obtain ⟨l', hl', rfl⟩ := List.mem_map.mp hl
    have := hlooks l' hl'
    dsimp only
    omega
  · rw [hstep]
    simp only [List.length_append, List.length_singleton]
    rfl

theorem sscanFrom_comment (hd : inNumber r.format.delimiter = false)
    (hcomment : r.format.delimiter ≠ comment) (hspace : isSpace r.format.delimiter)
    (hc : r.format.delimiter ∉ c) (hL : r.format.delimiter ∉ L) (hwell : WellFormed r smp.capacity L)
    {mem : List Byte}
    (hmem : mem = pre ++ (comment :: c ++ r.format.delimiter :: (L ++ r.format.delimiter :: b)))
    (hlen : pre.length + c.length + L.length + 3 ≤ len) (hle : len ≤ mem.length) (hsize : len < 2 ^ 64) :
    ∃ looks x, Within looks len ∧
      let rest := sscanFrom r mem len
        (pre ++ (comment :: c ++ r.format.delimiter :: (L ++ [r.format.delimiter]))).length smps
      sscanFrom r mem len pre.length (smp :: smps) =
        ⟨alone r L smp :: rest.smps, rest.rbytes, rest.ret + 1, x :: rest.results, looks ++ rest.looks⟩ := by
  subst hmem
  have hc' : r.format.delimiter ∉ comment :: c := by simp [hcomment, hc]
  have hbody : body (comment :: c) = [] := if_pos rfl
  obtain ⟨skipped, hskipped, hstep⟩ := sscanFrom_line (fun h => absurd h hcomment) hc'
    (by rw [List.length_cons]; omega) hle smp smps
  obtain ⟨looks, hline, hlooks⟩ := sscanLine_wellFormed (b := b) hd hL hwell
    [r.format.delimiter] (by simpa using hspace)
  rw [List.singleton_append] at hline
  rw [List.length_singleton] at hline hlooks
  rw [hbody, List.nil_append, hline, List.length_nil, Nat.sub_zero] at hstep
  dsimp only at hstep
  rw [List.length_cons] at hstep hskipped
  rw [sizeAdd_of_lt (by omega)] at hstep
  refine ⟨skipped ++ looks.map fun l => ⟨pre.length + (c.length + 1) + l.start, l.size⟩,
    (1 + L.length + 1 : Nat), ?_, ?_⟩
  · refine within_append.mpr ⟨fun l hl => le_trans (hskipped l hl) (by omega), ?_⟩
    intro l hl
    obtain ⟨l', hl', rfl⟩ := List.mem_map.mp hl
    have := hlooks l' hl'
    dsimp only
    omega
  · have hpos : pre.length + (c.length + 1) + (1 + L.length + 1) =
        (pre ++ (comment :: c ++ r.format.delimiter :: (L ++ [r.format.delimiter]))).length := by
      simp only [List.length_append, List.length_cons, List.length_nil]
      omega
    rw [hstep, hpos]
    rfl

theorem sscanLine_flags {capacity : Nat} {s : List Byte} {smp : Payload} (h : spaced integer s = none) :
    (sscanLine r capacity s smp).smp.flags = 0 := by
  have hconvert : (⟨0, s⟩ : Cursor).convert integer = ([], ⟨0, s⟩) := convert_none (c := ⟨0, s⟩) h
  unfold sscanLine
  cases r.format.layout with
  | human => simp only [humanSscanLine, strtoul, hconvert, true_or, if_true]
  | column separator =>
    rw [columnSscanLine_eq]
    dsimp only
    rw [columnField_eq [] hconvert, if_pos (by simp [columnEnds])]
    unfold finishLine
    dsimp only
    split_ifs <;> first | rfl | omega

theorem sscanFrom_spoils (hcomment : r.format.delimiter ≠ comment) (hc : r.format.delimiter ∉ c)
    (hnumber : spaced integer (r.format.delimiter :: b) = none) {mem : List Byte}
    (hmem : mem = pre ++ (comment :: c ++ r.format.delimiter :: b))
    (hlen : pre.length + c.length + 1 < len) (hle : len ≤ mem.length) :
    Spoils len (sscanFrom r mem len pre.length (smp :: smps)) := by
  subst hmem
  have hc' : r.format.delimiter ∉ comment :: c := by simp [hcomment, hc]
  have hbody : body (comment :: c) = [] := if_pos rfl
  obtain ⟨skipped, -, hstep⟩ := sscanFrom_line (fun h => absurd h hcomment) hc'
    (by rw [List.length_cons]; omega) hle smp smps
  rw [hstep]
  intro _
  refine ⟨0, Nat.succ_pos _, _, rfl, ?_⟩
  dsimp only
  rw [hbody, List.nil_append, sscanLine_flags hnumber]
  decide

theorem integer_delimiter {d : Byte} (hd : inNumber d = false)
    (h : isSpace d → spaced integer b = none) : spaced integer (d :: b) = none := by
  by_cases hspace : isSpace d
  · rw [← h hspace]
    exact spaced_blank (s := []) rfl hspace
  · have hbounded := (bounded_integer hd).spaced (s := []) (b := b) fun h => hspace h.2
    rw [show spaced integer [] = none by decide, Option.map_none] at hbounded
    exact hbounded

theorem humanValues_looks {capacity : Nat} {smp : Payload} {offset : BitVec 32} {stop : Cursor}
    {looks : List Look} {l : Look} (hl : l ∈ looks) :
    l ∈ (humanValues r capacity smp offset stop looks).looks := by
  rw [humanValues, humanFinish_eq]
  exact valueLoop_looks hl

theorem humanSequence_looks {capacity : Nat} {smp : Payload} {offset : BitVec 32} {stop : Cursor}
    {looks : List Look} {l : Look} (hl : l ∈ looks) :
    l ∈ (humanSequence r capacity smp offset stop looks).looks := by
  unfold humanSequence
  dsimp only
  split_ifs
  all_goals first
    | exact humanValues_looks (List.mem_append_left _ hl)
    | exact humanValues_looks hl
    | exact List.mem_append_left _ hl

theorem humanOffset_looks {capacity : Nat} {smp : Payload} {stop : Cursor} {looks : List Look} {l : Look}
    (hl : l ∈ looks) : l ∈ (humanOffset r capacity smp stop looks).looks := by
  unfold humanOffset
  dsimp only
  split_ifs
  · exact humanSequence_looks (List.mem_append_left _ hl)
  · exact List.mem_append_left _ hl
  · exact humanSequence_looks hl

theorem humanNanoseconds_looks {capacity : Nat} {smp : Payload} {stop : Cursor} {looks : List Look}
    {l : Look} (hl : l ∈ looks) : l ∈ (humanNanoseconds r capacity smp stop looks).looks := by
  unfold humanNanoseconds
  dsimp only
  split_ifs
  · exact List.mem_append_left _ hl
  · exact humanOffset_looks (List.mem_append_left _ hl)
  · exact humanOffset_looks hl

theorem columnField_looks {f : Scan} {set mark : List Byte → Payload → Payload}
    {next : Payload → Cursor → List Look → ReadLine}
    (hnext : ∀ smp stop looks, ∀ l ∈ looks, l ∈ (next smp stop looks).looks) (smp : Payload)
    (ptr : Cursor) (looks : List Look) :
    ∀ l ∈ looks ++ [ptr.look], l ∈ (columnField r f set mark next smp ptr looks).looks := by
  intro l hl
  rcases hconvert : ptr.convert f with ⟨text, stop⟩
  rw [columnField_eq looks hconvert]
  split_ifs
  · exact hl
  · exact hnext _ _ _ l hl

theorem nsecNext_looks {capacity : Nat} (smp : Payload) (stop : Cursor) (looks : List Look) :
    ∀ l ∈ looks, l ∈ (nsecNext r capacity smp stop looks).looks := by
  have hvalues : ∀ smp stop looks, ∀ l ∈ looks, l ∈ (valuesNext r capacity smp stop looks).looks :=
    fun _ _ _ _ hl => valueLoop_looks hl
  have hsequence : ∀ smp stop looks, ∀ l ∈ looks, l ∈ (sequenceNext r capacity smp stop looks).looks :=
    fun _ _ _ l hl => columnField_looks hvalues _ _ _ l (List.mem_append_left _ hl)
  have hoffset : ∀ smp stop looks, ∀ l ∈ looks, l ∈ (offsetNext r capacity smp stop looks).looks :=
    fun _ _ _ l hl => columnField_looks hsequence _ _ _ l (List.mem_append_left _ hl)
  exact fun l hl => columnField_looks hoffset _ _ _ l (List.mem_append_left _ hl)

theorem sscanLine_looks {capacity : Nat} {s : List Byte} {smp : Payload} :
    (⟨0, s⟩ : Cursor).look ∈ (sscanLine r capacity s smp).looks := by
  unfold sscanLine
  cases r.format.layout with
  | human =>
    simp only [humanSscanLine]
    split_ifs
    · exact List.mem_singleton.mpr rfl
    · exact humanNanoseconds_looks (List.mem_singleton.mpr rfl)
  | column separator =>
    rw [columnSscanLine_eq]
    exact columnField_looks nsecNext_looks _ _ _ _ (List.mem_singleton.mpr rfl)

theorem sscanFrom_unfinished {mem : List Byte} (hc : r.format.delimiter ∉ c)
    (hmem : mem = pre ++ (comment :: c ++ b)) (hlen : len = pre.length + c.length + 1) :
    Spoils len (sscanFrom r mem len pre.length (smp :: smps)) := by
  have hhead : mem.getD pre.length 0 = comment := by
    rw [getD_eq_headD_drop, hmem, List.drop_left]
    rfl
  have hdrop : mem.drop (pre.length + 1) = c ++ b := by
    rw [hmem, ← List.drop_drop, List.drop_left, List.drop_one]
    rfl
  have hall : ∀ x ∈ c, decide (x ≠ r.format.delimiter) = true := by
    intro x hx
    rw [decide_eq_true_eq]
    rintro rfl
    exact hc hx
  have hskip : skipComment r.format.delimiter mem pre.length (len - pre.length) = len := by
    rw [skipComment_eq, hdrop, List.takeWhile_append_of_pos hall, List.length_append]
    · omega
    · rw [hdrop, List.length_append]
      omega
  intro hwithin
  have := hwithin ⟨pre.length, len - pre.length + 1⟩ (by
    rw [sscanFrom, if_pos (by omega)]
    simp only [skipCommentAt, hhead, if_true, hskip]
    exact List.mem_singleton.mpr rfl)
  dsimp only at this
  omega

theorem sscanFrom_last (hd : inNumber r.format.delimiter = false)
    (hcomment : r.format.delimiter ≠ comment) (hc : r.format.delimiter ∉ c) {mem : List Byte}
    (hmem : mem = pre ++ (comment :: c ++ r.format.delimiter :: b))
    (hlen : len = pre.length + c.length + 2) : Spoils len (sscanFrom r mem len pre.length (smp :: smps)) := by
  have hle : len ≤ mem.length := by
    rw [hmem]
    simp only [List.length_append, List.length_cons]
    omega
  by_cases hspace : isSpace r.format.delimiter
  · subst hmem
    have hc' : r.format.delimiter ∉ comment :: c := by simp [hcomment, hc]
    have hbody : body (comment :: c) = [] := if_pos rfl
    obtain ⟨skipped, -, hstep⟩ := sscanFrom_line (fun h => absurd h hcomment) hc'
      (by rw [List.length_cons]; omega) hle smp smps
    rw [hbody, List.nil_append] at hstep
    intro hwithin
    rw [hstep] at hwithin
    have hlook := @sscanLine_looks r smp.capacity (r.format.delimiter :: b) smp.payload
    have := (within_append.mp (within_append.mp hwithin).1).2 _ (List.mem_map.mpr ⟨_, hlook, rfl⟩)
    simp only [Cursor.look, List.takeWhile_cons_of_pos hspace, List.length_cons, List.length_nil] at this
    omega
  · exact sscanFrom_spoils hcomment hc (integer_delimiter hd fun h => absurd h hspace) hmem (by omega) hle

end

section
variable {r : LineReader} {behind pre : List Byte} {es : List Entry} {last : Option (List Byte)}
  {len : Nat} {smps : List Receiver}

theorem sscanFrom_entries (hd : inNumber r.format.delimiter = false)
    (hcomment : r.format.delimiter ≠ comment) {mem : List Byte}
    (hes : ∀ e ∈ es, r.format.delimiter ∉ e.rest) (hlast : ∀ c ∈ last, r.format.delimiter ∉ c)
    (hmem : mem = pre ++ (text r.format.delimiter (es.map Entry.line) ++ (unfinished last ++ behind)))
    (hlen : len = pre.length + (text r.format.delimiter (es.map Entry.line)).length +
      (unfinished last).length)
    (hsize : len < 2 ^ 64) (hwell : ∀ smp ∈ smps, ∀ L ∈ sampleLines es, WellFormed r smp.capacity L)
    (hcount : (sampleLines es).length ≤ smps.length) :
    (InFront r.format.delimiter es last →
      ReadsAll r len (sampleLines es) smps (sscanFrom r mem len pre.length smps)) ∧
    (¬ InFront r.format.delimiter es last → (sampleLines es).length < smps.length →
      Spoils len (sscanFrom r mem len pre.length smps)) := by
  induction es, last using InFront.induct generalizing pre smps with
  | case1 last =>
    have hempty : sampleLines [] = [] := rfl
    cases last with
    | none =>
      refine ⟨fun _ => ?_, fun h => absurd rfl h⟩
      rw [sscanFrom_end (by simp [hlen, unfinished])]
      exact ⟨rfl, by simp [sampleLines], by simp [Within]⟩
    | some c =>
      refine ⟨fun h => absurd h (Option.some_ne_none c), fun _ hlt => ?_⟩
      obtain ⟨smp, smps, rfl⟩ := List.exists_cons_of_length_pos (Nat.lt_of_le_of_lt (Nat.zero_le _) hlt)
      rw [unfinished, List.length_cons, List.map_nil, text_nil, List.length_nil] at hlen
      exact sscanFrom_unfinished (hlast c rfl) hmem (by omega)
  | case2 L es last ih =>
    obtain ⟨smp, smps, rfl⟩ := List.exists_cons_of_length_pos (Nat.lt_of_lt_of_le (Nat.succ_pos _) hcount)
    obtain ⟨(hL : r.format.delimiter ∉ L), hes⟩ := List.forall_mem_cons.mp hes
    obtain ⟨hsmp, hsmps⟩ := List.forall_mem_cons.mp hwell
    rw [List.map_cons, text_cons, List.append_assoc, List.cons_append] at hmem
    rw [List.map_cons, text_cons, List.length_append, List.length_cons] at hlen
    simp only [Entry.line] at hmem hlen
    obtain ⟨looks, x, hlooks, hstep⟩ := @sscanFrom_sample _ pre _
      (text r.format.delimiter (es.map Entry.line) ++ (unfinished last ++ behind)) _ _ _ hd hcomment
      hL (hsmp L List.mem_cons_self) (by omega)
      (by simp only [List.length_append, List.length_cons]; omega) hsize
    rw [← hmem] at hstep
    obtain ⟨hall, hspoils⟩ := @ih (pre ++ (L ++ [r.format.delimiter])) smps hes hlast
      (by simp [hmem]) (by simp only [List.length_append, List.length_singleton]; omega)
      (fun smp hsmp L hL => hsmps smp hsmp L (List.mem_cons_of_mem _ hL)) (Nat.le_of_succ_le_succ hcount)
    rw [hstep]
    exact ⟨fun h => (hall h).cons hlooks, fun h hlt => (hspoils h (Nat.lt_of_succ_lt_succ hlt)).cons⟩
  | case3 c L es last ih =>
    obtain ⟨smp, smps, rfl⟩ := List.exists_cons_of_length_pos (Nat.lt_of_lt_of_le (Nat.succ_pos _) hcount)
    obtain ⟨(hc : r.format.delimiter ∉ c), hes⟩ := List.forall_mem_cons.mp hes
    obtain ⟨(hL : r.format.delimiter ∉ L), hes⟩ := List.forall_mem_cons.mp hes
    obtain ⟨hsmp, hsmps⟩ := List.forall_mem_cons.mp hwell
    have hmem' : mem = pre ++ (comment :: c ++ r.format.delimiter :: (L ++ r.format.delimiter ::
        (text r.format.delimiter (es.map Entry.line) ++ (unfinished last ++ behind)))) := by
      rw [hmem]
      simp [text_cons, Entry.line]
    simp only [List.map_cons, text_cons, List.length_append, List.length_cons, Entry.line] at hlen
    have hle : len ≤ mem.length := by
      rw [hmem']
      simp only [List.length_append, List.length_cons]
      omega
    by_cases hspace : isSpace r.format.delimiter
    · obtain ⟨looks, x, hlooks, hstep⟩ := sscanFrom_comment hd hcomment hspace hc hL
        (hsmp L List.mem_cons_self) hmem' (by omega) hle hsize
      obtain ⟨hall, hspoils⟩ := @ih
        (pre ++ (comment :: c ++ r.format.delimiter :: (L ++ [r.format.delimiter]))) smps
        hes hlast (by simp [hmem'])
        (by simp only [List.length_append, List.length_cons, List.length_nil]; omega)
        (fun smp hsmp L hL => hsmps smp hsmp L (List.mem_cons_of_mem _ hL))
        (Nat.le_of_succ_le_succ hcount)
      rw [hstep]
      refine ⟨fun h => (hall h.2).cons hlooks, fun h hlt => ?_⟩
      exact (hspoils (fun hin => h ⟨hspace, hin⟩) (Nat.lt_of_succ_lt_succ hlt)).cons
    · refine ⟨fun h => absurd h.1 hspace, fun _ _ => ?_⟩
      exact sscanFrom_spoils hcomment hc (integer_delimiter hd fun h => absurd h hspace) hmem'
        (by omega) hle
  | case4 c es last hnot =>
    refine ⟨fun h => ?_, fun _ hlt => ?_⟩
    · rw [InFront] at h
      · exact h.elim
      · exact hnot
    obtain ⟨smp, smps, rfl⟩ := List.exists_cons_of_length_pos (Nat.lt_of_le_of_lt (Nat.zero_le _) hlt)
    obtain ⟨(hc : r.format.delimiter ∉ c), hes⟩ := List.forall_mem_cons.mp hes
    have hmem' : mem = pre ++ (comment :: c ++ r.format.delimiter ::
        (text r.format.delimiter (es.map Entry.line) ++ (unfinished last ++ behind))) := by
      rw [hmem]
      simp [text_cons, Entry.line]
    simp only [List.map_cons, text_cons, List.length_append, List.length_cons, Entry.line] at hlen
    have hle : len ≤ mem.length := by
      rw [hmem']
      simp only [List.length_append, List.length_cons]
      omega
    have hspoils : spaced integer (text r.format.delimiter (es.map Entry.line) ++
        (unfinished last ++ behind)) = none → Spoils len (sscanFrom r mem len pre.length (smp :: smps)) :=
      fun h => sscanFrom_spoils hcomment hc (integer_delimiter hd fun _ => h) hmem' (by omega) hle
    cases es with
    | nil =>
      cases last with
      | none =>
        rw [List.map_nil, text_nil, unfinished, List.length_nil] at hlen
        exact sscanFrom_last hd hcomment hc hmem' (by omega)
      | some c' => exact hspoils (integer_comment _)
    | cons e es =>
      cases e with
      | sample L => exact absurd rfl (hnot L es)
      | comment c' =>
        apply hspoils
        rw [List.map_cons, text_cons, Entry.line, List.append_assoc, List.cons_append]
        exact integer_comment _

end

/-! ## Transparency -/

/-- The same samples, and nothing is read behind the `len` bytes. -/
structure Same (len : Nat) (t t' : ReadText) : Prop where
  ret : t.ret = t'.ret
  smps : t.smps = t'.smps
  looks : Within t.looks len

def LineReader.commented (r : LineReader) (es : List Entry) (last : Option (List Byte)) : List Byte :=
  text r.format.delimiter (es.map Entry.line) ++ unfinished last

/-- With a sample for each line, `sscan` returns what it returns without the comments. -/
def Transparent (r : LineReader) (behind : List Byte) (es : List Entry) (last : Option (List Byte)) :
    Prop :=
  ∀ smps : List Receiver, (sampleLines es).length ≤ smps.length →
    (∀ smp ∈ smps, ∀ L ∈ sampleLines es, WellFormed r smp.capacity L) →
    let plain := text r.format.delimiter (sampleLines es)
    Same (r.commented es last).length
      (sscan r (r.commented es last ++ behind) (r.commented es last).length smps)
      (sscan r (plain ++ behind) plain.length smps)

/-- The comments are in front of sample lines, but for a first line that is skipped, which is no
comment unless there is no sample. -/
def SkipsComments (r : LineReader) (es : List Entry) (last : Option (List Byte)) : Prop :=
  InFront r.format.delimiter (es.drop r.firstLines)
      (if es.length < r.firstLines then none else last) ∧
    sampleLines (es.drop r.firstLines) = (sampleLines es).drop r.firstLines

section
variable {r : LineReader} {len len' : Nat} {lines lines' : List (List Byte)} {smps : List Receiver}
  {t t' : ReadText}

theorem ReadsAll.same (h : ReadsAll r len lines smps t) (h' : ReadsAll r len' lines smps t') :
    Same len t t' :=
  ⟨h.ret.trans h'.ret.symm, h.smps.trans h'.smps.symm, h.looks⟩

theorem Spoils.not_same (h : Spoils len t) (h' : ReadsAll r len' lines' smps t')
    (horigin : ∀ smp ∈ smps, ∀ L ∈ lines',
      hasFlag (alone r L smp).payload.flags SampleFlags.hasTsOrigin) : ¬ Same len t t' := by
  rintro ⟨hret, hsmps, hlooks⟩
  obtain ⟨i, hi, smp, hsmp, hflag⟩ := h hlooks
  rw [hret, h'.ret] at hi
  rw [hsmps, h'.smps] at hsmp
  by_cases hlt : i < smps.length
  · rw [List.getElem?_append_left (by rw [List.length_zipWith]; exact Nat.lt_min.mpr ⟨hi, hlt⟩), List.getElem?_zipWith,
      List.getElem?_eq_getElem hi, List.getElem?_eq_getElem hlt] at hsmp
    cases hsmp
    exact hflag (horigin _ (List.getElem_mem hlt) _ (List.getElem_mem hi))
  · have hlen : (List.zipWith (alone r) lines' smps ++ smps.drop lines'.length).length ≤ i := by
      simp only [List.length_append, List.length_zipWith, List.length_drop]
      omega
    rw [List.getElem?_eq_none hlen] at hsmp
    cases hsmp

end

section
variable {r : LineReader} {behind : List Byte} {es : List Entry} {last : Option (List Byte)}
  {capacity : Nat}

theorem sampleLines_map (lines : List (List Byte)) : sampleLines (lines.map Entry.sample) = lines := by
  induction lines with
  | nil => rfl
  | cons L lines ih => rw [List.map_cons, sampleLines, ih]

theorem inFront_map (d : Byte) (lines : List (List Byte)) : InFront d (lines.map Entry.sample) none := by
  induction lines with
  | nil => rfl
  | cons L lines ih => exact ih

theorem sampleLines_mem {L : List Byte} (h : L ∈ sampleLines es) : Entry.sample L ∈ es := by
  induction es with
  | nil => cases h
  | cons e es ih =>
    cases e with
    | sample L' =>
      rcases List.mem_cons.mp h with rfl | h
      · exact List.mem_cons_self
      · exact List.mem_cons_of_mem _ (ih h)
    | comment c => exact List.mem_cons_of_mem _ (ih h)

theorem sscan_plain {lines : List (List Byte)} {smps : List Receiver}
    (hd : inNumber r.format.delimiter = false) (hcomment : r.format.delimiter ≠ comment)
    (hlines : ∀ L ∈ lines, r.format.delimiter ∉ L)
    (hsize : (text r.format.delimiter lines).length < 2 ^ 64)
    (hwell : ∀ smp ∈ smps, ∀ L ∈ lines, WellFormed r smp.capacity L)
    (hcount : lines.length ≤ smps.length) :
    ReadsAll r (text r.format.delimiter lines).length (lines.drop r.firstLines) smps
      (sscan r (text r.format.delimiter lines ++ behind) (text r.format.delimiter lines).length smps) := by
  have hsplit := text_append (d := r.format.delimiter) (lines.take r.firstLines) (lines.drop r.firstLines)
  rw [List.take_append_drop] at hsplit
  have hline : ∀ lines : List (List Byte), (lines.map Entry.sample).map Entry.line = lines := by
    intro lines
    rw [List.map_map]
    exact List.map_id lines
  unfold sscan
  rw [firstLine_eq hlines (le_refl _) (by rw [List.length_append]; omega)
    (fun hnil _ => by rw [hnil]; rfl)]
  have hentries := (@sscanFrom_entries r behind (text r.format.delimiter (lines.take r.firstLines))
    ((lines.drop r.firstLines).map Entry.sample) _ _ smps hd hcomment
    (text r.format.delimiter lines ++ behind) ?_ (by simp) ?_ ?_ hsize ?_ ?_).1 (inFront_map _ _)
  · rwa [sampleLines_map] at hentries
  · intro e he
    obtain ⟨L, hL, rfl⟩ := List.mem_map.mp he
    exact hlines L (List.mem_of_mem_drop hL)
  · rw [hline, unfinished, List.nil_append, ← List.append_assoc, ← hsplit]
  · rw [hline, unfinished, ← List.length_append, ← hsplit, List.length_nil, Nat.add_zero]
  · rw [sampleLines_map]
    exact fun smp hsmp L hL => hwell smp hsmp L (List.mem_of_mem_drop hL)
  · rw [sampleLines_map, List.length_drop]
    omega

theorem firstLines_le (r : LineReader) : r.firstLines ≤ 1 := by
  unfold LineReader.firstLines
  split_ifs <;> omega

theorem firstLine_unfinished (hcomment : r.format.delimiter ≠ comment)
    (hlast : ∀ c ∈ last, r.format.delimiter ∉ c) (hone : r.firstLines = 1) :
    firstLine r (unfinished last ++ behind) (unfinished last).length = (unfinished last).length := by
  have hpending : r.skipFirstLine ∧ ¬ r.firstLineSkipped := by
    by_contra hnot
    rw [LineReader.firstLines, if_neg hnot] at hone
    omega
  have hall : ∀ x ∈ unfinished last, decide (x ≠ r.format.delimiter) = true := by
    intro x hx
    rw [decide_eq_true_eq]
    rintro rfl
    cases last with
    | none => cases hx
    | some c =>
      rcases List.mem_cons.mp hx with heq | hx
      · exact hcomment heq
      · exact hlast c rfl hx
  rw [firstLine, if_pos hpending, skipLine_eq, List.drop_zero, List.takeWhile_append_of_pos hall,
    List.length_append]
  · omega
  · rw [List.drop_zero, List.length_append]
    omega

theorem sscan_commented {smps : List Receiver} (hd : inNumber r.format.delimiter = false)
    (hcomment : r.format.delimiter ≠ comment) (hes : ∀ e ∈ es, r.format.delimiter ∉ e.rest)
    (hlast : ∀ c ∈ last, r.format.delimiter ∉ c) (hsize : (r.commented es last).length < 2 ^ 64)
    (hwell : ∀ smp ∈ smps, ∀ L ∈ sampleLines (es.drop r.firstLines), WellFormed r smp.capacity L)
    (hcount : (sampleLines (es.drop r.firstLines)).length ≤ smps.length) :
    let last' := if es.length < r.firstLines then none else last
    let t := sscan r (r.commented es last ++ behind) (r.commented es last).length smps
    (InFront r.format.delimiter (es.drop r.firstLines) last' →
      ReadsAll r (r.commented es last).length (sampleLines (es.drop r.firstLines)) smps t) ∧
    (¬ InFront r.format.delimiter (es.drop r.firstLines) last' →
      (sampleLines (es.drop r.firstLines)).length < smps.length →
      Spoils (r.commented es last).length t) := by
  have hone := firstLines_le r
  unfold sscan LineReader.commented
  by_cases hempty : es.length < r.firstLines
  · obtain rfl : es = [] := List.eq_nil_of_length_eq_zero (by omega)
    rw [if_pos hempty, List.map_nil, text_nil, List.nil_append,
      firstLine_unfinished hcomment hlast (by rw [List.length_nil] at hempty; omega),
      sscanFrom_end (le_refl _)]
    refine ⟨fun _ => ?_, fun h => absurd ?_ h⟩
    · rw [List.drop_nil]
      exact ⟨rfl, by simp [sampleLines], by simp [Within]⟩
    · rw [List.drop_nil]
      rfl
  · have hlines : ∀ L ∈ es.map Entry.line, r.format.delimiter ∉ L := by
      intro L hL
      obtain ⟨e, he, rfl⟩ := List.mem_map.mp hL
      cases e with
      | sample L => exact hes _ he
      | comment c =>
        intro hmem
        rcases List.mem_cons.mp hmem with heq | hmem
        · exact hcomment heq
        · exact hes _ he hmem
    have hsplit := text_append (d := r.format.delimiter) ((es.map Entry.line).take r.firstLines)
      ((es.map Entry.line).drop r.firstLines)
    rw [List.take_append_drop, ← List.map_drop] at hsplit
    rw [LineReader.commented, List.length_append] at hsize
    rw [if_neg hempty, List.append_assoc, List.length_append, firstLine_eq hlines (Nat.le_add_right ..)
      (by simp only [List.length_append]; omega) (fun hnil hone => by simp_all)]
    apply @sscanFrom_entries _ behind _ _ _ _ _ hd hcomment _
      (fun e he => hes e (List.mem_of_mem_drop he)) hlast _ _ hsize hwell hcount
    · rw [hsplit, List.append_assoc]
    · rw [hsplit, List.length_append]

theorem sampleLines_append (es es' : List Entry) :
    sampleLines (es ++ es') = sampleLines es ++ sampleLines es' := by
  induction es with
  | nil => rfl
  | cons e es ih => cases e <;> simp [sampleLines, ih]

theorem sampleLines_drop_suffix (es : List Entry) (n : Nat) : sampleLines (es.drop n) <:+ sampleLines es := by
  refine ⟨sampleLines (es.take n), ?_⟩
  rw [← sampleLines_append, List.take_append_drop]

theorem sampleLines_length_le (d : Byte) (es : List Entry) :
    (text d (sampleLines es)).length ≤ (text d (es.map Entry.line)).length := by
  induction es with
  | nil => exact le_refl _
  | cons e es ih =>
    cases e with
    | sample L =>
      rw [sampleLines, List.map_cons, text_cons, text_cons, Entry.line]
      simp only [List.length_append, List.length_cons]
      omega
    | comment c =>
      rw [sampleLines, List.map_cons, text_cons]
      simp only [List.length_append, List.length_cons]
      omega

theorem WellFormed.alone_origin {L : List Byte} {smp : Receiver}
    (hd : inNumber r.format.delimiter = false) (hL : r.format.delimiter ∉ L)
    (h : WellFormed r smp.capacity L) :
    hasFlag (alone r L smp).payload.flags SampleFlags.hasTsOrigin := by
  rw [alone, h.body hd]
  exact h.origin hd hL

/-- With a delimiter that cannot stand in a number, comments between well formed lines make no
difference, for every number and order of them, exactly when each is directly in front of a sample
line and the delimiter is white space. -/
theorem sscan_transparent_iff (behind : List Byte) (hd : inNumber r.format.delimiter = false)
    (hcomment : r.format.delimiter ≠ comment) (hes : ∀ e ∈ es, r.format.delimiter ∉ e.rest)
    (hlast : ∀ c ∈ last, r.format.delimiter ∉ c) (hsize : (r.commented es last).length < 2 ^ 64)
    (hwell : ∀ L ∈ sampleLines es, WellFormed r capacity L) :
    Transparent r behind es last ↔ SkipsComments r es last := by
  have hlines : ∀ L ∈ sampleLines es, r.format.delimiter ∉ L :=
    fun L hL => hes _ (sampleLines_mem hL)
  have hsize' : (text r.format.delimiter (sampleLines es)).length < 2 ^ 64 := by
    rw [LineReader.commented, List.length_append] at hsize
    have := sampleLines_length_le r.format.delimiter es
    omega
  have hsuffix := sampleLines_drop_suffix es r.firstLines
  constructor
  · intro h
    -- One sample more than there are lines.
    let smps := List.replicate ((sampleLines es).length + 1)
      (⟨capacity, ⟨0, 0, 0, 0, ⟨0, 0⟩, ⟨0, 0⟩, fun _ => 0⟩⟩ : Receiver)
    have hcount : smps.length = (sampleLines es).length + 1 := List.length_replicate
    have hsmps : ∀ smp ∈ smps, ∀ L ∈ sampleLines es, WellFormed r smp.capacity L := by
      intro smp hsmp L hL
      rw [List.eq_of_mem_replicate hsmp]
      exact hwell L hL
    have hsame := h smps (by omega) hsmps
    have hplain := @sscan_plain _ behind _ _ hd hcomment hlines hsize' hsmps (by omega)
    obtain ⟨hall, hspoils⟩ := sscan_commented hd hcomment hes hlast hsize
      (fun smp hsmp L hL => hsmps smp hsmp L (hsuffix.subset hL)) (by have := hsuffix.length_le; omega)
    by_cases hin : InFront r.format.delimiter (es.drop r.firstLines)
        (if es.length < r.firstLines then none else last)
    · refine ⟨hin, ?_⟩
      have hret := (hall hin).ret.symm.trans (hsame.ret.trans hplain.ret)
      rw [List.suffix_iff_eq_drop.mp hsuffix, hret,
        ← List.suffix_iff_eq_drop.mp (List.drop_suffix r.firstLines (sampleLines es))]
    · refine absurd hsame ((hspoils hin (by have := hsuffix.length_le; omega)).not_same hplain ?_)
      intro smp hsmp L hL
      have hmem := List.mem_of_mem_drop hL
      exact (hsmps smp hsmp L hmem).alone_origin hd (hlines L hmem)
  · rintro ⟨hin, heq⟩ smps hcount hsmps
    have hplain := @sscan_plain _ behind _ _ hd hcomment hlines hsize' hsmps hcount
    have hall := (@sscan_commented _ behind _ _ _ hd hcomment hes hlast hsize
      (fun smp hsmp L hL => hsmps smp hsmp L (hsuffix.subset hL))
      (le_trans hsuffix.length_le hcount)).1 hin
    rw [heq] at hall
    exact hall.same hplain

end

theorem exampleLine_wellFormed : WellFormed exampleReader 4 (ascii "1.5\t5") := by
  refine ⟨fun b => ?_, .inl rfl⟩
  have hfront : (humanHeader 10 ⟨0, ascii "1.5\t5" ++ [10]⟩).isSome := by decide
  exact ⟨_, ascii "\t5", (Option.some_get hfront).symm, rfl, by decide, trivial⟩

theorem sscan_transparent_example :
    Transparent exampleReader [] [.comment (ascii " one"), .sample (ascii "1.5\t5")] none := by
  apply (@sscan_transparent_iff _ _ _ 4 [] (by decide) (by decide) (by decide) (by decide)
    (by decide) _).mpr
  · exact ⟨⟨by decide, rfl⟩, rfl⟩
  · intro L hL
    rw [List.mem_singleton.mp hL]
    exact exampleLine_wellFormed

/-- Behind the last comment another sample is counted. -/
theorem sscan_not_transparent :
    ¬ Transparent exampleReader [] [.sample (ascii "1.5\t5"), .comment (ascii " end")] none := by
  intro h
  have hsame := h [exampleReceiver, exampleReceiver] (by decide) (by
    intro smp hsmp L hL
    rw [List.mem_singleton.mp hL, List.eq_of_mem_replicate (n := 2) hsmp]
    exact exampleLine_wellFormed)
  exact absurd hsame.ret (by decide)

end VillasNode.Line
