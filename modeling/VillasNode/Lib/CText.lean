import Mathlib.Data.List.TakeWhile
import VillasNode.Lib.ByteOrder
import VillasNode.Lib.Libconfig

/-!
# Bytes of C strings

The bytes of a text in UTF-8, and `strtok_r` for a single delimiter. The NUL at
the end of a string is not one of its bytes here.
-/

namespace CText

open ByteOrder Libconfig

/-! ## UTF-8 -/

def bytes (s : CString) : List Byte := s.val.toByteArray.data.toList.map UInt8.toBitVec

/-- The text of these bytes, if they are valid UTF-8. -/
def decode (text : List Byte) : Option CString :=
  match String.fromUTF8? ⟨(text.map UInt8.ofBitVec).toArray⟩ with
  | none => none
  | some s => if h : '\x00' ∉ s.toList then some ⟨s, h⟩ else none

theorem fromUTF8_eq_some {a : ByteArray} {s : String} : String.fromUTF8? a = some s ↔ s.toByteArray = a := by
  unfold String.fromUTF8?
  constructor
  · intro h
    obtain ⟨_, h⟩ := Option.dite_none_right_eq_some.mp h
    cases h
    rfl
  · rintro rfl
    rw [dif_pos s.isValidUTF8]
    rfl

theorem decode_eq_some {text : List Byte} {s : CString} : decode text = some s ↔ bytes s = text := by
  have hbytes : bytes s = text ↔ s.val.toByteArray = ⟨(text.map UInt8.ofBitVec).toArray⟩ := by
    rw [bytes, ByteArray.ext_iff]
    constructor
    · rintro rfl
      rw [List.map_map]
      exact (congrArg List.toArray (List.map_id _)).symm
    · intro h
      rw [h, List.map_map]
      exact List.map_id text
  rw [hbytes, decode, ← fromUTF8_eq_some]
  split
  · rename_i hnone
    rw [hnone]
    exact iff_of_false (by simp) (by simp)
  · rename_i s' hsome
    rw [hsome, Option.some.injEq]
    constructor
    · intro h
      obtain ⟨_, h⟩ := Option.dite_none_right_eq_some.mp h
      cases h
      rfl
    · rintro rfl
      rw [dif_pos s.property]
      rfl

theorem decode_bytes (s : CString) : decode (bytes s) = some s := decode_eq_some.2 rfl

/-! ## Tokens -/

/-- `strtok_r` with one delimiter: a token, and where the next call goes on. -/
def strtok (d : Byte) (s : List Byte) : Option (List Byte × List Byte) :=
  let s := s.dropWhile (· = d)
  if s = [] then none else some (s.takeWhile (· ≠ d), (s.dropWhile (· ≠ d)).tail)

theorem strtok_length {d : Byte} {s token rest : List Byte} (h : strtok d s = some (token, rest)) :
    rest.length < s.length := by
  unfold strtok at h
  dsimp only at h
  split_ifs at h with hnil
  cases h
  have hdrop := (List.dropWhile_suffix (l := s) (· = d)).length_le
  have hdrop' := (List.dropWhile_suffix (l := s.dropWhile (· = d)) (· ≠ d)).length_le
  have hpos := List.length_pos_iff.mpr hnil
  rw [List.length_tail]
  omega

/-- All tokens, as a loop over `strtok_r` gets them. -/
def tokens (d : Byte) (s : List Byte) : List (List Byte) :=
  match h : strtok d s with
  | none => []
  | some (token, rest) =>
    have := strtok_length h
    token :: tokens d rest
termination_by s.length

/-- The pieces with the delimiter between them. -/
def joined (d : Byte) : List (List Byte) → List Byte
  | [] => []
  | [piece] => piece
  | piece :: pieces => piece ++ d :: joined d pieces

section
variable {d : Byte} {piece rest : List Byte} {pieces : List (List Byte)}

theorem dropWhile_piece (hne : piece ≠ []) (hd : d ∉ piece) (rest : List Byte) :
    (piece ++ rest).dropWhile (· = d) = piece ++ rest := by
  obtain ⟨b, piece, rfl⟩ := List.exists_cons_of_ne_nil hne
  rw [List.cons_append, List.dropWhile_cons_of_neg]
  rw [decide_eq_true_eq]
  rintro rfl
  exact hd (List.mem_cons_self ..)

theorem not_delimiter (hd : d ∉ piece) : ∀ b ∈ piece, decide (b ≠ d) = true := by
  intro b hb
  rw [decide_eq_true_eq]
  rintro rfl
  exact hd hb

theorem strtok_piece (hne : piece ≠ []) (hd : d ∉ piece) :
    strtok d (piece ++ d :: rest) = some (piece, rest) := by
  unfold strtok
  dsimp only
  rw [dropWhile_piece hne hd, if_neg (List.append_ne_nil_of_left_ne_nil hne _),
    List.takeWhile_append_of_pos (not_delimiter hd), List.dropWhile_append_of_pos (not_delimiter hd),
    List.takeWhile_cons_of_neg (by simp), List.dropWhile_cons_of_neg (by simp), List.append_nil, List.tail_cons]

theorem strtok_last (hne : piece ≠ []) (hd : d ∉ piece) : strtok d piece = some (piece, []) := by
  have hdrop := dropWhile_piece hne hd []
  rw [List.append_nil] at hdrop
  unfold strtok
  dsimp only
  have htake := List.takeWhile_append_dropWhile (p := fun b => decide (b ≠ d)) (l := piece)
  rw [List.dropWhile_eq_nil_iff.mpr (not_delimiter hd), List.append_nil] at htake
  rw [hdrop, if_neg hne, htake, List.dropWhile_eq_nil_iff.mpr (not_delimiter hd)]
  rfl

theorem tokens_nil : tokens d [] = [] := by
  rw [tokens]
  rfl

theorem tokens_of_strtok {s token : List Byte} (h : strtok d s = some (token, rest)) :
    tokens d s = token :: tokens d rest := by
  rw [tokens]
  split <;> simp_all

/-- The tokens are the pieces that are joined. -/
theorem tokens_joined (h : ∀ piece ∈ pieces, piece ≠ [] ∧ d ∉ piece) : tokens d (joined d pieces) = pieces := by
  induction pieces with
  | nil => exact tokens_nil
  | cons piece pieces ih =>
    obtain ⟨⟨hne, hd⟩, hpieces⟩ := List.forall_mem_cons.mp h
    cases pieces with
    | nil => rw [joined, tokens_of_strtok (strtok_last hne hd), tokens_nil]
    | cons piece' pieces =>
      rw [joined, tokens_of_strtok (strtok_piece hne hd), ih hpieces]
      exact List.cons_ne_nil _ _

end

end CText
