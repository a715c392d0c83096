import VillasNode.Format.Numerals
import VillasNode.Lib.Regex
import VillasNode.Mapping.Model

/-!
# Mapping expressions

`RE_MAPPING` of `mapping.h` and the expressions that it matches. An expression
can be matched in one way only.
-/

open ByteOrder Strto VillasNode.Line Regex

namespace VillasNode.MappingRegex

/-- `[a-z0-9_-]` -/
def nodeChar (b : Byte) : Bool :=
  97 ≤ b.toNat ∧ b.toNat ≤ 122 ∨ isDigit b ∨ b = ch '_' ∨ b = ch '-'

/-- `[a-zA-Z0-9_]` -/
def indexChar (b : Byte) : Bool := isAlpha b ∨ isDigit b ∨ b = ch '_'

/-- `[a-z]` -/
def lowerChar (b : Byte) : Bool := 97 ≤ b.toNat ∧ b.toNat ≤ 122

/-- `RE_NODE_NAME` -/
def nodeName : Regex Byte := .run nodeChar 2 (some 32)

/-- `RE_MAPPING_INDEX` -/
def index : Regex Byte := .run indexChar 1 none

def lower : Regex Byte := .run lowerChar 1 none

/-- `RE_MAPPING_RANGE`, with the numbers of its groups. -/
def range (i j : Nat) : Regex Byte :=
  .seq (.group i index) (.opt (.seq (.text (ascii "-")) (.group j index)))

/-- `RE_MAPPING_STATS` -/
def stats : Regex Byte :=
  .seq (.text (ascii "stats.")) (.seq (.group 2 lower) (.seq (.text (ascii ".")) (.group 3 lower)))

/-- `RE_MAPPING_HDR` -/
def hdr : Regex Byte :=
  .seq (.text (ascii "hdr.")) (.group 4 (.alt (.text (ascii "sequence")) (.text (ascii "length"))))

/-- `RE_MAPPING_TS` -/
def ts : Regex Byte :=
  .seq (.text (ascii "ts.")) (.group 5 (.alt (.text (ascii "origin")) (.text (ascii "received"))))

/-- `RE_MAPPING_DATA1` -/
def data1 : Regex Byte := .seq (.text (ascii "data[")) (.seq (range 6 7) (.text (ascii "]")))

/-- `RE_MAPPING_DATA2` -/
def data2 : Regex Byte := .seq (.opt (.text (ascii "data."))) (.group 8 index)

/-- `RE_MAPPING` -/
def mapping : Regex Byte :=
  .alt
    (.seq (.group 1 nodeName) (.seq (.text (ascii "."))
      (.alt stats (.alt hdr (.alt ts (.alt data1 data2))))))
    (.seq (.group 9 nodeName)
      (.opt (.seq (.text (ascii "[")) (.seq (range 10 11) (.text (ascii "]"))))))

end VillasNode.MappingRegex

namespace VillasNode.MappingExpr

open MappingRegex

/-! ## Expressions -/

/-- A text of characters of one class that is not empty. -/
@[ext]
structure Word (p : Byte → Bool) where
  text : List Byte
  chars : ∀ b ∈ text, p b
  pos : 1 ≤ text.length

@[ext]
structure NodeName where
  text : List Byte
  chars : ∀ b ∈ text, nodeChar b
  two_le : 2 ≤ text.length
  le : text.length ≤ 32

@[ext]
structure SignalRange where
  first : Word indexChar
  last : Option (Word indexChar)

inductive Target where
  | stats (metric type : Word lowerChar)
  | header (type : MappingHeaderType)
  | timestamp (type : MappingTimestampType)
  | data (range : SignalRange)
  /-- With `data.` in front or without. -/
  | signal (named : Bool) (name : Word indexChar)

inductive Expr where
  | part (node : NodeName) (target : Target)
  | signals (node : NodeName) (range : Option SignalRange)

def headerText : MappingHeaderType → List Byte
  | .sequence => ascii "sequence"
  | .length => ascii "length"

def timestampText : MappingTimestampType → List Byte
  | .origin => ascii "origin"
  | .received => ascii "received"

def SignalRange.text (r : SignalRange) : List Byte :=
  r.first.text ++ match r.last with
    | none => []
    | some last => ascii "-" ++ last.text

def Target.text : Target → List Byte
  | .stats metric type => ascii "stats." ++ (metric.text ++ (ascii "." ++ type.text))
  | .header type => ascii "hdr." ++ headerText type
  | .timestamp type => ascii "ts." ++ timestampText type
  | .data range => ascii "data[" ++ (range.text ++ ascii "]")
  | .signal named name => (if named then ascii "data." else []) ++ name.text

def Expr.text : Expr → List Byte
  | .part node target => node.text ++ (ascii "." ++ target.text)
  | .signals node range => node.text ++ match range with
    | none => []
    | some range => ascii "[" ++ (range.text ++ ascii "]")

/-! ## The groups -/

def SignalRange.captures (r : SignalRange) (i j : Nat) (c : Captures Byte) : Captures Byte :=
  let c := Function.update c i (some r.first.text)
  match r.last with
  | none => c
  | some last => Function.update c j (some last.text)

def Target.captures (c : Captures Byte) : Target → Captures Byte
  | .stats metric type => Function.update (Function.update c 2 (some metric.text)) 3 (some type.text)
  | .header type => Function.update c 4 (some (headerText type))
  | .timestamp type => Function.update c 5 (some (timestampText type))
  | .data range => range.captures 6 7 c
  | .signal _ name => Function.update c 8 (some name.text)

def Expr.captures : Expr → Captures Byte
  | .part node target => target.captures (Function.update Captures.none 1 (some node.text))
  | .signals node range =>
    let c := Function.update Captures.none 9 (some node.text)
    match range with
    | none => c
    | some range => range.captures 10 11 c

variable {s : List Byte} {c c' : Captures Byte}

theorem matches_nodeName {n : Nat} : (Regex.group n nodeName).Matches s c c' ↔
    ∃ node : NodeName, s = node.text ∧ c' = Function.update c n (some node.text) := by
  constructor
  · rintro ⟨c₁, ⟨hchars, hlo, hhi, rfl⟩, rfl⟩
    exact ⟨⟨s, hchars, hlo, hhi 32 rfl⟩, rfl, rfl⟩
  · rintro ⟨node, rfl, rfl⟩
    refine ⟨c, ⟨node.chars, node.two_le, ?_, rfl⟩, rfl⟩
    rintro _ ⟨⟩
    exact node.le

theorem matches_word {p : Byte → Bool} {n : Nat} :
    (Regex.group n (.run p 1 none)).Matches s c c' ↔
      ∃ w : Word p, s = w.text ∧ c' = Function.update c n (some w.text) := by
  constructor
  · rintro ⟨c₁, ⟨hchars, hlo, -, rfl⟩, rfl⟩
    exact ⟨⟨s, hchars, hlo⟩, rfl, rfl⟩
  · rintro ⟨w, rfl, rfl⟩
    refine ⟨c, ⟨w.chars, w.pos, ?_, rfl⟩, rfl⟩
    rintro _ ⟨⟩

theorem matches_range {i j : Nat} : (MappingRegex.range i j).Matches s c c' ↔
    ∃ r : SignalRange, s = r.text ∧ c' = r.captures i j c := by
  constructor
  · rintro ⟨s₁, s₂, c₁, rfl, hfirst, hlast⟩
    obtain ⟨first, rfl, rfl⟩ := matches_word.1 hfirst
    rcases hlast with ⟨s₃, s₄, c₂, rfl, ⟨rfl, rfl⟩, hlast⟩ | ⟨rfl, rfl⟩
    · obtain ⟨last, rfl, rfl⟩ := matches_word.1 hlast
      exact ⟨⟨first, some last⟩, rfl, rfl⟩
    · exact ⟨⟨first, none⟩, rfl, rfl⟩
  · rintro ⟨⟨first, last⟩, rfl, rfl⟩
    refine ⟨_, _, _, rfl, matches_word.2 ⟨first, rfl, rfl⟩, ?_⟩
    cases last with
    | none => exact .inr ⟨rfl, rfl⟩
    | some last =>
      exact .inl ⟨_, _, _, rfl, ⟨rfl, rfl⟩, matches_word.2 ⟨last, rfl, rfl⟩⟩

theorem matches_target :
    (Regex.alt stats (.alt hdr (.alt ts (.alt data1 data2)))).Matches s c c' ↔
      ∃ t : Target, s = t.text ∧ c' = t.captures c := by
  constructor
  · rintro (h | h | h | h | h)
    · obtain ⟨_, _, _, rfl, ⟨rfl, rfl⟩, _, _, _, rfl, hmetric, _, _, _, rfl, ⟨rfl, rfl⟩, htype⟩ := h
      obtain ⟨metric, rfl, rfl⟩ := matches_word.1 hmetric
      obtain ⟨type, rfl, rfl⟩ := matches_word.1 htype
      exact ⟨.stats metric type, rfl, rfl⟩
    · obtain ⟨_, _, _, rfl, ⟨rfl, rfl⟩, _, ⟨rfl, rfl⟩ | ⟨rfl, rfl⟩, rfl⟩ := h
      · exact ⟨.header .sequence, rfl, rfl⟩
      · exact ⟨.header .length, rfl, rfl⟩
    · obtain ⟨_, _, _, rfl, ⟨rfl, rfl⟩, _, ⟨rfl, rfl⟩ | ⟨rfl, rfl⟩, rfl⟩ := h
      · exact ⟨.timestamp .origin, rfl, rfl⟩
      · exact ⟨.timestamp .received, rfl, rfl⟩
    · obtain ⟨_, _, _, rfl, ⟨rfl, rfl⟩, _, _, _, rfl, hrange, rfl, rfl⟩ := h
      obtain ⟨range, rfl, rfl⟩ := matches_range.1 hrange
      exact ⟨.data range, rfl, rfl⟩
    · obtain ⟨_, _, _, rfl, ⟨rfl, rfl⟩ | ⟨rfl, rfl⟩, hname⟩ := h
      · obtain ⟨name, rfl, rfl⟩ := matches_word.1 hname
        exact ⟨.signal true name, rfl, rfl⟩
      · obtain ⟨name, rfl, rfl⟩ := matches_word.1 hname
        exact ⟨.signal false name, rfl, rfl⟩
  · rintro ⟨t, rfl, rfl⟩
    cases t with
    | stats metric type =>
      exact .inl ⟨_, _, _, rfl, ⟨rfl, rfl⟩, _, _, _, rfl, matches_word.2 ⟨metric, rfl, rfl⟩,
        _, _, _, rfl, ⟨rfl, rfl⟩, matches_word.2 ⟨type, rfl, rfl⟩⟩
    | header type =>
      refine .inr (.inl ⟨_, _, _, rfl, ⟨rfl, rfl⟩, _, ?_, rfl⟩)
      cases type with
      | sequence => exact .inl ⟨rfl, rfl⟩
      | length => exact .inr ⟨rfl, rfl⟩
    | timestamp type =>
      refine .inr (.inr (.inl ⟨_, _, _, rfl, ⟨rfl, rfl⟩, _, ?_, rfl⟩))
      cases type with
      | origin => exact .inl ⟨rfl, rfl⟩
      | received => exact .inr ⟨rfl, rfl⟩
    | data range =>
      exact .inr (.inr (.inr (.inl ⟨_, _, _, rfl, ⟨rfl, rfl⟩, _, _, _, rfl,
        matches_range.2 ⟨range, rfl, rfl⟩, rfl, rfl⟩)))
    | signal named name =>
      refine .inr (.inr (.inr (.inr ⟨_, _, c, rfl, ?_, matches_word.2 ⟨name, rfl, rfl⟩⟩)))
      cases named with
      | true => exact .inl ⟨rfl, rfl⟩
      | false => exact .inr ⟨rfl, rfl⟩

theorem matches_mapping : mapping.Matches s Captures.none c ↔
    ∃ e : Expr, s = e.text ∧ c = e.captures := by
  constructor
  · rintro (⟨_, _, _, rfl, hnode, _, _, _, rfl, ⟨rfl, rfl⟩, htarget⟩ |
      ⟨_, _, _, rfl, hnode, ⟨_, _, _, rfl, ⟨rfl, rfl⟩, _, _, _, rfl, hrange, rfl, rfl⟩ | ⟨rfl, rfl⟩⟩)
    · obtain ⟨node, rfl, rfl⟩ := matches_nodeName.1 hnode
      obtain ⟨target, rfl, rfl⟩ := matches_target.1 htarget
      exact ⟨.part node target, rfl, rfl⟩
    · obtain ⟨node, rfl, rfl⟩ := matches_nodeName.1 hnode
      obtain ⟨range, rfl, rfl⟩ := matches_range.1 hrange
      exact ⟨.signals node (some range), rfl, rfl⟩
    · obtain ⟨node, rfl, rfl⟩ := matches_nodeName.1 hnode
      exact ⟨.signals node none, rfl, rfl⟩
  · rintro ⟨e, rfl, rfl⟩
    cases e with
    | part node target =>
      exact .inl ⟨_, _, _, rfl, matches_nodeName.2 ⟨node, rfl, rfl⟩, _, _, _, rfl, ⟨rfl, rfl⟩,
        matches_target.2 ⟨target, rfl, rfl⟩⟩
    | signals node range =>
      refine .inr ⟨_, _, _, rfl, matches_nodeName.2 ⟨node, rfl, rfl⟩, ?_⟩
      cases range with
      | none => exact .inr ⟨rfl, rfl⟩
      | some range =>
        exact .inl ⟨_, _, _, rfl, ⟨rfl, rfl⟩, _, _, _, rfl,
          matches_range.2 ⟨range, rfl, rfl⟩, rfl, rfl⟩

/-! ## One way only -/

theorem SignalRange.text_unique {r r' : SignalRange} (h : r.text ++ ascii "]" = r'.text ++ ascii "]") :
    r = r' := by
  have hrest (r : SignalRange) : ∃ tail, r.text ++ ascii "]" = r.first.text ++ tail ∧
      (∀ x ∈ tail.head?, indexChar x = false) ∧
      tail = match r.last with
        | none => ascii "]"
        | some last => ch '-' :: (last.text ++ ascii "]") := by
    obtain ⟨first, last⟩ := r
    cases last with
    | none => exact ⟨ascii "]", by simp [text], by decide, rfl⟩
    | some last =>
      refine ⟨ch '-' :: (last.text ++ ascii "]"), ?_, ?_, rfl⟩
      · simp [text, ascii, ch]
      · rintro _ ⟨⟩
        decide
  obtain ⟨tail, htext, hstop, htail⟩ := hrest r
  obtain ⟨tail', htext', hstop', htail'⟩ := hrest r'
  rw [htext, htext'] at h
  obtain ⟨hfirst, hlast⟩ := append_unique r.first.chars r'.first.chars hstop hstop' h
  obtain ⟨first, last⟩ := r
  obtain ⟨first', last'⟩ := r'
  obtain rfl : first = first' := Word.ext hfirst
  rw [htail, htail'] at hlast
  cases last with
  | none =>
    cases last' with
    | none => rfl
    | some last' => exact absurd (List.cons.inj hlast).1 (by decide)
  | some last =>
    cases last' with
    | none => exact absurd (List.cons.inj hlast).1 (by decide)
    | some last' =>
      obtain ⟨hlast, -⟩ := append_unique last.chars last'.chars (by decide) (by decide)
        (List.cons.inj hlast).2
      rw [Word.ext hlast]

/-- The text of a target up to the first character that is none of an index. -/
def Target.head : Target → List Byte
  | .stats .. => ascii "stats"
  | .header _ => ascii "hdr"
  | .timestamp _ => ascii "ts"
  | .data _ | .signal true _ => ascii "data"
  | .signal false name => name.text

def Target.tail : Target → List Byte
  | .stats metric type => ch '.' :: (metric.text ++ (ascii "." ++ type.text))
  | .header type => ch '.' :: headerText type
  | .timestamp type => ch '.' :: timestampText type
  | .data range => ch '[' :: (range.text ++ ascii "]")
  | .signal true name => ch '.' :: name.text
  | .signal false _ => []

theorem Target.text_eq (t : Target) : t.text = t.head ++ t.tail := by
  cases t with
  | stats metric type => rfl
  | header type => rfl
  | timestamp type => rfl
  | data range => rfl
  | signal named name =>
    cases named with
    | true => rfl
    | false => exact (List.append_nil _).symm

theorem Target.head_chars (t : Target) : ∀ b ∈ t.head, indexChar b := by
  apply List.all_eq_true.mp
  cases t with
  | stats metric type => exact (rfl : (ascii "stats").all indexChar = true)
  | header type => exact (rfl : (ascii "hdr").all indexChar = true)
  | timestamp type => exact (rfl : (ascii "ts").all indexChar = true)
  | data range => exact (rfl : (ascii "data").all indexChar = true)
  | signal named name =>
    cases named with
    | true => exact (rfl : (ascii "data").all indexChar = true)
    | false => exact List.all_eq_true.mpr name.chars

theorem Target.tail_stop (t : Target) : ∀ b ∈ t.tail.head?, indexChar b = false := by
  have hcons (c : Byte) (s : List Byte) (h : indexChar c = false) :
      ∀ b ∈ (c :: s).head?, indexChar b = false := by
    rintro _ ⟨⟩
    exact h
  cases t with
  | stats metric type => exact hcons _ _ (by decide)
  | header type => exact hcons _ _ (by decide)
  | timestamp type => exact hcons _ _ (by decide)
  | data range => exact hcons _ _ (by decide)
  | signal named name =>
    cases named with
    | true => exact hcons _ _ (by decide)
    | false => simp [tail]

theorem headerText_injective : Function.Injective headerText := by
  intro type type' h
  cases type
  · cases type'
    · rfl
    · cases h
  · cases type'
    · cases h
    · rfl

theorem timestampText_injective : Function.Injective timestampText := by
  intro type type' h
  cases type
  · cases type'
    · rfl
    · cases h
  · cases type'
    · cases h
    · rfl

theorem Target.text_injective : Function.Injective Target.text := by
  intro t t' h
  rw [t.text_eq, t'.text_eq] at h
  obtain ⟨hhead, htail⟩ := append_unique t.head_chars t'.head_chars t.tail_stop t'.tail_stop h
  cases t with
  | stats metric type =>
    cases t' with
    | stats metric' type' =>
      have hstop (w : Word lowerChar) : ∀ b ∈ (ascii "." ++ w.text).head?, lowerChar b = false := by
        rintro _ ⟨⟩
        decide
      obtain ⟨hmetric, htype⟩ := append_unique metric.chars metric'.chars (hstop type) (hstop type')
        (List.cons.inj htail).2
      rw [Word.ext hmetric, Word.ext (List.append_cancel_left htype)]
    | header type' => cases hhead
    | timestamp type' => cases hhead
    | data range' => cases hhead
    | signal named' name' =>
      cases named' with
      | true => cases hhead
      | false => cases htail
  | header type =>
    cases t' with
    | stats metric' type' => cases hhead
    | header type' => rw [headerText_injective (List.cons.inj htail).2]
    | timestamp type' => cases hhead
    | data range' => cases hhead
    | signal named' name' =>
      cases named' with
      | true => cases hhead
      | false => cases htail
  | timestamp type =>
    cases t' with
    | stats metric' type' => cases hhead
    | header type' => cases hhead
    | timestamp type' => rw [timestampText_injective (List.cons.inj htail).2]
    | data range' => cases hhead
    | signal named' name' =>
      cases named' with
      | true => cases hhead
      | false => cases htail
  | data range =>
    cases t' with
    | stats metric' type' => cases hhead
    | header type' => cases hhead
    | timestamp type' => cases hhead
    | data range' => rw [SignalRange.text_unique (List.cons.inj htail).2]
    | signal named' name' =>
      cases named' with
      | true => cases htail
      | false => cases htail
  | signal named name =>
    cases named with
    | true =>
      cases t' with
      | stats metric' type' => cases hhead
      | header type' => cases hhead
      | timestamp type' => cases hhead
      | data range' => cases htail
      | signal named' name' =>
        cases named' with
        | true => rw [Word.ext (List.cons.inj htail).2]
        | false => cases htail
    | false =>
      cases t' with
      | stats metric' type' => cases htail
      | header type' => cases htail
      | timestamp type' => cases htail
      | data range' => cases htail
      | signal named' name' =>
        cases named' with
        | true => cases htail
        | false => rw [Word.ext hhead]

/-- What follows the name of the node. -/
def Expr.tail : Expr → List Byte
  | .part _ target => ch '.' :: target.text
  | .signals _ none => []
  | .signals _ (some range) => ch '[' :: (range.text ++ ascii "]")

def Expr.node : Expr → NodeName
  | .part node _ => node
  | .signals node _ => node

theorem Expr.text_eq (e : Expr) : e.text = e.node.text ++ e.tail := by
  cases e with
  | part node target => rfl
  | signals node range =>
    cases range with
    | none => rfl
    | some range => rfl

theorem Expr.tail_stop (e : Expr) : ∀ b ∈ e.tail.head?, nodeChar b = false := by
  cases e with
  | part node target =>
    rintro _ ⟨⟩
    decide
  | signals node range =>
    cases range with
    | none => simp [tail]
    | some range =>
      rintro _ ⟨⟩
      decide

theorem Expr.text_injective : Function.Injective Expr.text := by
  intro e e' h
  rw [e.text_eq, e'.text_eq] at h
  obtain ⟨hnode, htail⟩ := append_unique e.node.chars e'.node.chars e.tail_stop e'.tail_stop h
  have hnode := NodeName.ext hnode
  cases e with
  | part node target =>
    cases e' with
    | part node' target' =>
      obtain rfl : node = node' := hnode
      rw [Target.text_injective (List.cons.inj htail).2]
    | signals node' range' =>
      cases range' with
      | none => cases htail
      | some range' => cases htail
  | signals node range =>
    cases e' with
    | part node' target' =>
      cases range with
      | none => cases htail
      | some range => cases htail
    | signals node' range' =>
      obtain rfl : node = node' := hnode
      cases range with
      | none =>
        cases range' with
        | none => rfl
        | some range' => cases htail
      | some range =>
        cases range' with
        | none => cases htail
        | some range' => rw [SignalRange.text_unique (List.cons.inj htail).2]

/-! ## The match -/

theorem regexMatch_text (e : Expr) : mapping.regexMatch e.text = some e.captures := by
  apply regexMatch_eq_some
  · exact matches_mapping.2 ⟨e, rfl, rfl⟩
  · intro c' h
    obtain ⟨e', htext, rfl⟩ := matches_mapping.1 h
    rw [Expr.text_injective htext]

theorem regexMatch_none (hs : ∀ e : Expr, e.text ≠ s) : mapping.regexMatch s = none := by
  rw [regexMatch_none_iff]
  intro c h
  obtain ⟨e, htext, -⟩ := matches_mapping.1 h
  exact hs e htext.symm

end VillasNode.MappingExpr
