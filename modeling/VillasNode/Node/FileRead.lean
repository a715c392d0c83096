import VillasNode.Format.Lines

/-!
# Reading from a file

`file_read` of `lib/nodes/file.cpp` with `LineFormat::scan`, which takes one line
after the other out of the file. The file does not change in the meantime.
-/

namespace VillasNode.FileNode

open ByteOrder Strto Line

/-! ## The code -/

/-- The lines that `getdelim` takes out of a file, with their delimiters. -/
def lines (d : Byte) : List Byte → List (List Byte)
  | [] => []
  | b :: s =>
    if b = d then [b] :: lines d s
    else
      match lines d s with
      | [] => [[b]]
      | line :: rest => (b :: line) :: rest

/-- `stream_in` with the format that reads it. `line` is the number of lines in front. -/
structure Input where
  content : List Byte
  line : Nat
  eof : Bool
  reader : LineReader
  buffer : List Byte

namespace Input

def left (i : Input) : List (List Byte) := (lines i.reader.format.delimiter i.content).drop i.line

/-- `getdelim` meets the end of the file in the last line too, if that has no delimiter. -/
def getdelim (i : Input) : Option Nat × Input :=
  match i.left with
  | [] => (none, { i with eof := true })
  | text :: _ =>
    (some text.length,
      { i with
        line := i.line + 1, eof := text.getLast? ≠ some i.reader.format.delimiter
        buffer := text ++ 0 :: i.buffer.drop (text.length + 1) })

def rewind (i : Input) : Input := { i with line := 0, eof := false }

def clearerr (i : Input) : Input := { i with eof := false }

/-- The first line is still to be skipped. -/
def atFirstLine (i : Input) : Bool := i.reader.skipFirstLine ∧ ¬ i.reader.firstLineSkipped

end Input

/-- Empty lines, comments and lines of whitespace. -/
def isSkipped (buffer : List Byte) : Bool :=
  let c := (buffer.dropWhile isSpace).headD 0
  c = 0 ∨ c = comment

/-- The label `skip`, where no more than `n` lines are left. -/
def nextLine (i : Input) : Nat → Option Nat × Input
  | 0 => i.getdelim
  | n + 1 =>
    match i.getdelim with
    | (none, i) => (none, i)
    | (some bytes, i) => if isSkipped i.buffer then nextLine i n else (some bytes, i)

structure Scanned where
  ret : Int
  input : Input
  smps : List Receiver

/-- The loop of `LineFormat::scan`. -/
def scanLines (i : Input) : List Receiver → Scanned
  | [] => ⟨0, i, []⟩
  | smp :: smps =>
    match nextLine i i.left.length with
    | (none, i) => ⟨-1, i, smp :: smps⟩
    | (some bytes, i) =>
      let t := sscan i.reader i.buffer bytes [smp]
      let rest := scanLines i smps
      ⟨if rest.ret < 0 then rest.ret else rest.ret + 1, rest.input, t.smps ++ rest.smps⟩

def scan (i : Input) (smps : List Receiver) : Scanned :=
  if i.atFirstLine then
    match i.getdelim with
    | (none, i) => ⟨-1, i, smps⟩
    | (some _, i) => scanLines { i with reader := { i.reader with firstLineSkipped := true } } smps
  else scanLines i smps

inductive EOFBehaviour where
  | stop | rewind | suspend
deriving DecidableEq

/-- `file_read` with at most that many scans. The code asserts that there is one sample. -/
def fileRead (eofMode : EOFBehaviour) (i : Input) (smps : List Receiver) : Nat → Option Scanned
  | 0 => none
  | n + 1 =>
    let s := scan i smps
    if s.ret ≤ 0 then
      if s.input.eof then
        match eofMode with
        | .rewind => fileRead eofMode s.input.rewind s.smps n
        | .suspend => fileRead eofMode s.input.clearerr s.smps n
        | .stop => some { s with ret := -1 }
      else some { s with ret := 0 }
    else some { s with ret := smps.length }

/-! ## The specification -/

/-- After finitely many scans there is a sample, or else no more than an error. -/
def Returns (eofMode : EOFBehaviour) (i : Input) (smp : Receiver) : Prop :=
  ∃ n s, fileRead eofMode i [smp] n = some s ∧ (s.ret = 1 ∨ s.ret ≤ 0)

/-! ## Scans -/

section
variable {i : Input}

theorem isSkipped_buffer (text behind : List Byte) : isSkipped (text ++ 0 :: behind) = isSkipped text := by
  induction text with
  | nil => rfl
  | cons c text ih =>
    unfold isSkipped at ih ⊢
    rw [List.cons_append, List.dropWhile_cons, List.dropWhile_cons]
    split_ifs
    · exact ih
    · rfl

/-- What was read of the file is the same but for the place in it. -/
structure Input.Same (i i' : Input) : Prop where
  content : i'.content = i.content
  reader : i'.reader = i.reader

theorem nextLine_spec (n : Nat) (hn : i.left.length ≤ n) :
    (∃ i', nextLine i n = (none, i') ∧ i.Same i' ∧ i'.eof ∧ ∀ text ∈ i.left, isSkipped text) ∨
      ∃ bytes i', nextLine i n = (some bytes, i') ∧ ∃ text ∈ i.left, ¬ isSkipped text := by
  induction n generalizing i with
  | zero =>
    have hleft := List.eq_nil_of_length_eq_zero (Nat.le_zero.mp hn)
    rw [nextLine, Input.getdelim, hleft]
    exact .inl ⟨_, rfl, ⟨rfl, rfl⟩, rfl, List.forall_mem_nil _⟩
  | succ n ih =>
    rw [nextLine]
    cases hleft : i.left with
    | nil =>
      rw [Input.getdelim, hleft]
      exact .inl ⟨_, rfl, ⟨rfl, rfl⟩, rfl, List.forall_mem_nil _⟩
    | cons text rest =>
      rw [Input.getdelim, hleft]
      dsimp only
      rw [isSkipped_buffer]
      split_ifs with hskip
      · generalize hnext : (Input.mk i.content (i.line + 1) _ i.reader _) = next
        have hrest : next.left = rest := by
          unfold Input.left at hleft ⊢
          rw [← hnext]
          dsimp only
          rw [← List.drop_drop, hleft, List.drop_one, List.tail_cons]
        rw [hleft, List.length_cons] at hn
        obtain ⟨i', heq, hsame, heof, hall⟩ | ⟨bytes, i', heq, text', hmem, hkept⟩ :=
          @ih next (by rw [hrest]; omega)
        · rw [hrest] at hall
          rw [← hnext] at hsame
          exact .inl ⟨i', heq, ⟨hsame.content, hsame.reader⟩, heof, List.forall_mem_cons.mpr ⟨hskip, hall⟩⟩
        · rw [hrest] at hmem
          exact .inr ⟨bytes, i', heq, text', List.mem_cons_of_mem text hmem, hkept⟩
      · exact .inr ⟨_, _, rfl, text, List.mem_cons_self, hskip⟩

theorem scanLines_spec (i : Input) (smp : Receiver) :
    (scanLines i [smp]).ret = 1 ∧ (∃ text ∈ i.left, ¬ isSkipped text) ∨
      ∃ i', scanLines i [smp] = ⟨-1, i', [smp]⟩ ∧ i.Same i' ∧ i'.eof ∧ ∀ text ∈ i.left, isSkipped text := by
  obtain ⟨i', heq, hsame, heof, hall⟩ | ⟨bytes, i', heq, text, hmem, hskip⟩ :=
    nextLine_spec i.left.length le_rfl
  · refine .inr ⟨i', ?_, hsame, heof, hall⟩
    rw [scanLines, heq]
  · refine .inl ⟨?_, text, hmem, hskip⟩
    rw [scanLines, heq]
    rfl

/-- The lines of the whole file. -/
def Input.all (i : Input) : List (List Byte) := lines i.reader.format.delimiter i.content

theorem Input.rewind_left : i.rewind.left = i.all := rfl

theorem Input.mem_all {text : List Byte} (h : text ∈ i.left) : text ∈ i.all := List.mem_of_mem_drop h

/-- The place where the file is read again, after a scan that has met its end. -/
structure Again (i i' : Input) : Prop where
  all : i'.all = i.all
  first : i.left ≠ [] → ¬ i'.atFirstLine
  skipped : ¬ i.atFirstLine → ¬ i'.atFirstLine ∧ ∀ text ∈ i.left, isSkipped text

theorem scan_spec (i : Input) (smp : Receiver) :
    (scan i [smp]).ret = 1 ∧ (∃ text ∈ i.all, ¬ isSkipped text) ∨
      ∃ i', scan i [smp] = ⟨-1, i', [smp]⟩ ∧ i'.eof ∧ Again i i' := by
  unfold scan
  split_ifs with hfirst
  · cases hleft : i.left with
    | nil =>
      rw [Input.getdelim, hleft]
      exact .inr ⟨_, rfl, rfl, rfl, fun hne => absurd hleft hne, fun hnot => absurd hfirst hnot⟩
    | cons text rest =>
      rw [Input.getdelim, hleft]
      dsimp only
      generalize hnext : (Input.mk i.content (i.line + 1) _ { i.reader with firstLineSkipped := true } _) = next
      have hall : next.all = i.all := by
        rw [← hnext]
        rfl
      have hskipped : ¬ next.atFirstLine := by
        rw [← hnext, Input.atFirstLine]
        simp
      obtain ⟨hret, text, hmem, hskip⟩ | ⟨i', heq, hsame, heof, -⟩ := scanLines_spec next smp
      · exact .inl ⟨hret, text, hall ▸ Input.mem_all hmem, hskip⟩
      · refine .inr ⟨i', heq, heof, ?_, fun _ => ?_, fun hnot => absurd hfirst hnot⟩
        · rw [← hall, Input.all, hsame.content, hsame.reader]
          rfl
        · rwa [Input.atFirstLine, hsame.reader]
  · obtain ⟨hret, text, hmem, hskip⟩ | ⟨i', heq, hsame, heof, hall⟩ := scanLines_spec i smp
    · exact .inl ⟨hret, text, Input.mem_all hmem, hskip⟩
    · have hskipped : ¬ i'.atFirstLine := by
        rwa [Input.atFirstLine, hsame.reader]
      refine .inr ⟨i', heq, heof, ?_, fun _ => hskipped, fun _ => ⟨hskipped, hall⟩⟩
      rw [Input.all, hsame.content, hsame.reader]
      rfl

theorem fileRead_succ (i : Input) (smp : Receiver) (n : Nat) :
    (∃ s, fileRead .rewind i [smp] (n + 1) = some s ∧ s.ret = 1 ∧ ∃ text ∈ i.all, ¬ isSkipped text) ∨
      ∃ i', fileRead .rewind i [smp] (n + 1) = fileRead .rewind i'.rewind [smp] n ∧ Again i i' := by
  rw [fileRead]
  obtain ⟨hret, hmem⟩ | ⟨i', heq, heof, hagain⟩ := scan_spec i smp
  · rw [hret, if_neg (by decide)]
    exact .inl ⟨_, rfl, rfl, hmem⟩
  · refine .inr ⟨i', ?_, hagain⟩
    have hret : (-1 : Int) ≤ 0 := by decide
    rw [heq, if_pos hret, if_pos heof]

/-! ## The end of the scans -/

/-- A line that is not skipped is found in the third scan at the latest. The first one may be
behind it, and the second one may leave out the first line. -/
theorem fileRead_finds {text : List Byte} (hmem : text ∈ i.all) (hskip : ¬ isSkipped text) (smp : Receiver) :
    ∃ s, fileRead .rewind i [smp] 3 = some s ∧ s.ret = 1 := by
  obtain ⟨s, hs, hret, -⟩ | ⟨i₁, heq₁, hagain₁⟩ := fileRead_succ i smp 2
  · exact ⟨s, hs, hret⟩
  have hall₁ : text ∈ i₁.rewind.left := by rwa [Input.rewind_left, hagain₁.all]
  obtain ⟨s, hs, hret, -⟩ | ⟨i₂, heq₂, hagain₂⟩ := fileRead_succ i₁.rewind smp 1
  · exact ⟨s, heq₁.trans hs, hret⟩
  have hfirst : ¬ i₂.rewind.atFirstLine := hagain₂.first (List.ne_nil_of_mem hall₁)
  have hall₂ : text ∈ i₂.rewind.left := by rwa [Input.rewind_left, hagain₂.all]
  obtain ⟨s, hs, hret, -⟩ | ⟨i₃, -, hagain₃⟩ := fileRead_succ i₂.rewind smp 0
  · exact ⟨s, heq₁.trans (heq₂.trans hs), hret⟩
  · exact absurd ((hagain₃.skipped hfirst).2 text hall₂) hskip

theorem fileRead_loops (hall : ∀ text ∈ i.all, isSkipped text) (smp : Receiver) (n : Nat) :
    fileRead .rewind i [smp] n = none := by
  induction n generalizing i with
  | zero => rfl
  | succ n ih =>
    obtain ⟨s, -, -, text, hmem, hskip⟩ | ⟨i', heq, hagain⟩ := fileRead_succ i smp n
    · exact absurd (hall text hmem) hskip
    · rw [heq]
      apply ih
      rw [← hagain.all] at hall
      exact hall

/-- From any place in any file, the call ends exactly if not all lines of the file are skipped. -/
theorem fileRead_returns_iff (i : Input) (smp : Receiver) :
    Returns .rewind i smp ↔ ∃ text ∈ i.all, ¬ isSkipped text := by
  constructor
  · rintro ⟨n, s, hs, -⟩
    by_contra hnone
    have hall : ∀ text ∈ i.all, isSkipped text := fun text hmem =>
      by_contra fun hskip => hnone ⟨text, hmem, hskip⟩
    rw [fileRead_loops hall] at hs
    cases hs
  · rintro ⟨text, hmem, hskip⟩
    obtain ⟨s, hs, hret⟩ := fileRead_finds hmem hskip smp
    exact ⟨3, s, hs, .inl hret⟩

def exampleInput (content : List Byte) : Input := ⟨content, 0, false, exampleReader, []⟩

/-- Neither an empty file nor one with a comment and an empty line ends the call. -/
theorem fileRead_never_returns : ¬ Returns .rewind (exampleInput []) exampleReceiver ∧
    ¬ Returns .rewind (exampleInput (ascii "# sec.nsec\n\n")) exampleReceiver := by
  constructor
  · rintro ⟨n, s, hs, -⟩
    rw [fileRead_loops (by decide)] at hs
    cases hs
  · rintro ⟨n, s, hs, -⟩
    rw [fileRead_loops (by decide)] at hs
    cases hs

end

end VillasNode.FileNode
