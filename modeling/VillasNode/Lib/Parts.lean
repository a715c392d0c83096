import VillasNode.Lib.Strto

/-!
# Parts of a line

A part of a line is read from a cursor on, or refused. A part that ends in front
of a byte that no number contains is the same wherever it stands and for
whatever follows this byte.
-/

namespace Strto

open ByteOrder

/-- What has been read, what was looked at for it, and where it ends. -/
structure PartRead (α : Type) where
  val : α
  looks : List Look
  stop : Cursor

def LinePart (α : Type) : Type := Cursor → Option (PartRead α)

namespace LinePart

variable {α β : Type}

protected def pure (a : α) : LinePart α := fun c => some ⟨a, [], c⟩

protected def bind (x : LinePart α) (y : α → LinePart β) : LinePart β := fun c =>
  (x c).bind fun u => (y u.val u.stop).map fun v => ⟨v.val, u.looks ++ v.looks, v.stop⟩

instance : Monad LinePart where
  pure := LinePart.pure
  bind := LinePart.bind

end LinePart

/-- The text of a number. -/
def numberText (f : Scan) : LinePart (List Byte) := fun c =>
  (spaced f c.rest).map fun _ => ⟨(c.convert f).1, [c.look], (c.convert f).2⟩

/-- One byte of a class. -/
def byte (p : Byte → Bool) : LinePart Unit := fun c =>
  match c.rest with
  | [] => none
  | b :: s => if p b then some ⟨(), [], ⟨c.pos + 1, s⟩⟩ else none

def ensure (p : Byte → Bool) : LinePart Unit := fun c => if p c.peek then some ⟨(), [], c⟩ else none

/-- A part that is there when the next byte says so. -/
def whenNext {α : Type} (p : Byte → Bool) (x : LinePart α) : LinePart (Option α) := fun c =>
  if p c.peek then (x c).map fun u => ⟨some u.val, u.looks, u.stop⟩ else some ⟨none, [], c⟩

/-- What is left is the end of the text. -/
def Exact {α : Type} (x : LinePart α) : Prop :=
  ∀ ⦃c : Cursor⦄ ⦃u : PartRead α⦄, x c = some u →
    u.stop.rest <:+ c.rest ∧ u.stop.pos + u.stop.rest.length = c.pos + c.rest.length

/-- The part ends in the text in front of `d`, looks no further than `d`, and is the same wherever
this text stands and whatever follows. Or it goes on behind `d`, when this is white space. -/
def Stays {α : Type} (d : Byte) (x : LinePart α) : Prop :=
  ∀ ⦃p : Nat⦄ ⦃s b : List Byte⦄ ⦃u : PartRead α⦄, x ⟨p, s ++ d :: b⟩ = some u →
    isSpace d ∧ u.stop.rest.length < b.length ∨
      ∃ s', s' <:+ s ∧ u.stop = ⟨p + (s.length - s'.length), s' ++ d :: b⟩ ∧
        (∀ l ∈ u.looks, 0 < l.size ∧ l.start + l.size ≤ p + s.length + 1) ∧
        ∀ p' b', ∃ looks, x ⟨p', s ++ d :: b'⟩ =
          some ⟨u.val, looks, ⟨p' + (s.length - s'.length), s' ++ d :: b'⟩⟩

section
variable {α β : Type} {d : Byte} {p : Byte → Bool} {x : LinePart α} {y : α → LinePart β} {f : Scan}

theorem bind_eq_some {c : Cursor} {v : PartRead β} :
    (x >>= y) c = some v ↔ ∃ u w, x c = some u ∧ y u.val u.stop = some w ∧
      v = ⟨w.val, u.looks ++ w.looks, w.stop⟩ := by
  constructor
  · intro h
    obtain ⟨u, hu, h⟩ := Option.bind_eq_some_iff.mp h
    obtain ⟨w, hw, rfl⟩ := Option.map_eq_some_iff.mp h
    exact ⟨u, w, hu, hw, rfl⟩
  · rintro ⟨u, w, hu, hw, rfl⟩
    exact Option.bind_eq_some_iff.mpr ⟨u, hu, Option.map_eq_some_iff.mpr ⟨w, hw, rfl⟩⟩

theorem whenNext_eq_some {c : Cursor} {v : PartRead (Option α)} (hp : p c.peek) :
    whenNext p x c = some v ↔ ∃ u, x c = some u ∧ v = ⟨some u.val, u.looks, u.stop⟩ := by
  unfold whenNext
  rw [if_pos hp, Option.map_eq_some_iff]
  constructor <;> rintro ⟨u, hu, rfl⟩ <;> exact ⟨u, hu, rfl⟩

theorem peek_append (q q' : Nat) (s b b' : List Byte) :
    (⟨q, s ++ d :: b⟩ : Cursor).peek = (⟨q', s ++ d :: b'⟩ : Cursor).peek := by
  cases s <;> rfl

theorem Exact.pure (a : α) : Exact (pure a : LinePart α) := by
  intro c u h
  cases h
  exact ⟨List.suffix_rfl, rfl⟩

theorem Exact.bind (hx : Exact x) (hy : ∀ a, Exact (y a)) : Exact (x >>= y) := by
  intro c v h
  obtain ⟨u, w, hu, hw, rfl⟩ := bind_eq_some.1 h
  have h₁ := hx hu
  have h₂ := hy u.val hw
  exact ⟨h₂.1.trans h₁.1, h₂.2.trans h₁.2⟩

theorem exact_numberText (hf : Moves f) : Exact (numberText f) := by
  intro c u h
  obtain ⟨r, hr, rfl⟩ := Option.map_eq_some_iff.mp h
  refine ⟨?_, convert_length hf⟩
  rw [convert_some hr]
  exact (hf.spaced hr).1

theorem exact_byte : Exact (byte p) := by
  intro c u h
  unfold byte at h
  cases hc : c.rest with
  | nil => rw [hc] at h; cases h
  | cons b s =>
    rw [hc] at h
    obtain ⟨-, heq⟩ := Option.ite_none_right_eq_some.mp h
    cases heq
    refine ⟨List.suffix_cons b s, ?_⟩
    rw [List.length_cons, Nat.add_right_comm, Nat.add_assoc]

theorem exact_ensure : Exact (ensure p) := by
  intro c u h
  obtain ⟨-, heq⟩ := Option.ite_none_right_eq_some.mp h
  cases heq
  exact ⟨List.suffix_rfl, rfl⟩

theorem Exact.whenNext (hx : Exact x) : Exact (whenNext p x) := by
  intro c v h
  by_cases hp : p c.peek
  · obtain ⟨u, hu, rfl⟩ := (whenNext_eq_some hp).mp h
    exact hx hu
  · unfold Strto.whenNext at h
    rw [if_neg hp] at h
    cases h
    exact ⟨List.suffix_rfl, rfl⟩

theorem stays_here {q : Nat} {s b : List Byte} {a : α}
    (h : ∀ p' b', x ⟨p', s ++ d :: b'⟩ = some ⟨a, [], ⟨p', s ++ d :: b'⟩⟩) {u : PartRead α}
    (hu : x ⟨q, s ++ d :: b⟩ = some u) :
    ∃ s', s' <:+ s ∧ u.stop = ⟨q + (s.length - s'.length), s' ++ d :: b⟩ ∧
      (∀ l ∈ u.looks, 0 < l.size ∧ l.start + l.size ≤ q + s.length + 1) ∧
      ∀ p' b', ∃ looks, x ⟨p', s ++ d :: b'⟩ =
        some ⟨u.val, looks, ⟨p' + (s.length - s'.length), s' ++ d :: b'⟩⟩ := by
  rw [h] at hu
  cases hu
  refine ⟨s, List.suffix_rfl, ?_, by simp, ?_⟩
  · rw [Nat.sub_self, Nat.add_zero]
  · intro p' b'
    rw [Nat.sub_self, Nat.add_zero]
    exact ⟨[], h p' b'⟩

theorem Stays.pure (a : α) : Stays d (pure a : LinePart α) :=
  fun _ _ _ _ hu => .inr (stays_here (fun _ _ => rfl) hu)

theorem stays_ensure : Stays d (ensure p) := by
  intro q s b u hu
  obtain ⟨hp, -⟩ := Option.ite_none_right_eq_some.mp hu
  refine .inr (stays_here (a := ()) ?_ hu)
  intro p' b'
  rw [peek_append q p' s b b'] at hp
  exact if_pos hp

theorem Stays.bind (hx : Stays d x) (hy : ∀ a, Stays d (y a)) (hexact : ∀ a, Exact (y a)) :
    Stays d (x >>= y) := by
  intro q s b v h
  obtain ⟨u, w, hu, hw, rfl⟩ := bind_eq_some.1 h
  have hle := (hexact u.val hw).1.length_le
  rcases hx hu with ⟨hspace, hlt⟩ | ⟨s₁, hs₁, hstop₁, hlooks₁, hsame₁⟩
  · exact .inl ⟨hspace, Nat.lt_of_le_of_lt hle hlt⟩
  rw [hstop₁] at hw
  rcases hy u.val hw with hleak | ⟨s₂, hs₂, hstop₂, hlooks₂, hsame₂⟩
  · exact .inl hleak
  have hle₁ := hs₁.length_le
  have hle₂ := hs₂.length_le
  have hpos : ∀ p', p' + (s.length - s₁.length) + (s₁.length - s₂.length) =
      p' + (s.length - s₂.length) := by omega
  refine .inr ⟨s₂, hs₂.trans hs₁, ?_, ?_, ?_⟩
  · dsimp only
    rw [hstop₂, hpos]
  · intro l hl
    rcases List.mem_append.mp hl with hl | hl
    · exact hlooks₁ l hl
    · have := hlooks₂ l hl
      omega
  · intro p' b'
    obtain ⟨looks₁, h₁⟩ := hsame₁ p' b'
    obtain ⟨looks₂, h₂⟩ := hsame₂ (p' + (s.length - s₁.length)) b'
    rw [hpos] at h₂
    exact ⟨looks₁ ++ looks₂, bind_eq_some.2 ⟨_, _, h₁, h₂, rfl⟩⟩

theorem stays_numberText (hd : inNumber d = false) (hf : Bounded d f) (hmoves : Moves f) :
    Stays d (numberText f) := by
  intro q s b u h
  obtain ⟨r, hr, hu⟩ := Option.map_eq_some_iff.mp h
  by_cases hblank : s.all isSpace ∧ isSpace d
  · -- The number is behind `d`.
    have hb : spaced f b = some r := (spaced_blank hblank.1 hblank.2).symm.trans hr
    rw [← hu, convert_some hr]
    exact .inl ⟨hblank.2, (hmoves.spaced hb).2⟩
  have hspaced : ∀ b', spaced f (s ++ d :: b') = (spaced f s).map (· ++ d :: b') :=
    fun _ => hf.spaced hblank
  obtain ⟨s', hs', -⟩ := Option.map_eq_some_iff.mp ((hspaced b).symm.trans hr)
  have hmem : ∀ p' b', numberText f ⟨p', s ++ d :: b'⟩ = some ⟨token s s',
      [(⟨p', s⟩ : Cursor).look], ⟨p' + (s.length - s'.length), s' ++ d :: b'⟩⟩ := by
    intro p' b'
    have happend := convert_append (c := ⟨p', s⟩) (b := b') hf hmoves hblank
    have hlook := look_append (c := ⟨p', s⟩) (b := b') hd hblank
    simp only [Cursor.append] at happend hlook
    simp only [numberText, hspaced, hs', Option.map_some, happend, hlook]
    rw [convert_some hs']
    rfl
  rw [hmem q b] at h
  cases h
  refine .inr ⟨s', (hmoves.spaced hs').1, rfl, ?_, fun p' b' => ⟨_, hmem p' b'⟩⟩
  intro l hl
  rw [List.mem_singleton] at hl
  rw [hl]
  exact ⟨Nat.succ_pos _, look_le ⟨q, s⟩⟩

theorem stays_byte (hd : p d = false) : Stays d (byte p) := by
  intro q s b u h
  cases s with
  | nil => simp [byte, hd] at h
  | cons e s =>
    obtain ⟨hp, heq⟩ := Option.ite_none_right_eq_some.mp h
    cases heq
    have hone : (e :: s).length - s.length = 1 := by
      rw [List.length_cons]
      omega
    refine .inr ⟨s, List.suffix_cons e s, ?_, by simp, ?_⟩
    · rw [hone]
      rfl
    · intro p' b'
      rw [hone]
      exact ⟨[], if_pos hp⟩

theorem Stays.whenNext (hx : Stays d x) : Stays d (whenNext p x) := by
  intro q s b v h
  by_cases hp : p (⟨q, s ++ d :: b⟩ : Cursor).peek
  · obtain ⟨u, hu, rfl⟩ := (whenNext_eq_some hp).mp h
    rcases hx hu with hleak | ⟨s', hs', hstop, hlooks, hsame⟩
    · exact .inl hleak
    refine .inr ⟨s', hs', hstop, hlooks, ?_⟩
    intro p' b'
    obtain ⟨looks, hsame⟩ := hsame p' b'
    rw [peek_append q p' s b b'] at hp
    exact ⟨looks, (whenNext_eq_some hp).mpr ⟨_, hsame, rfl⟩⟩
  · refine .inr (stays_here (a := none) ?_ h)
    intro p' b'
    rw [peek_append q p' s b b'] at hp
    exact if_neg hp

theorem numberText_cases (hf : Moves f) (c : Cursor) :
    numberText f c = none ∧ (c.convert f).2.pos = c.pos ∨
      numberText f c = some ⟨(c.convert f).1, [c.look], (c.convert f).2⟩ ∧
        (c.convert f).2.pos ≠ c.pos := by
  unfold numberText
  cases h : spaced f c.rest with
  | none => exact .inl ⟨rfl, (convert_pos_iff hf).mpr h⟩
  | some r =>
    refine .inr ⟨rfl, ?_⟩
    rw [Ne, convert_pos_iff hf, h]
    exact Option.some_ne_none r

theorem numberText_behind {q : Nat} {pre s : List Byte} {u : PartRead (List Byte)} (hf : Moves f)
    (hpre : pre.all isSpace) (h : numberText f ⟨q + pre.length, s⟩ = some u) :
    ∃ look : Look, numberText f ⟨q, pre ++ s⟩ = some ⟨u.val, [look], u.stop⟩ ∧
      ∀ n, (∀ l ∈ u.looks, 0 < l.size ∧ l.start + l.size ≤ n) →
        0 < look.size ∧ look.start + look.size ≤ n := by
  obtain ⟨r, hr, rfl⟩ := Option.map_eq_some_iff.mp h
  refine ⟨(⟨q, pre ++ s⟩ : Cursor).look, ?_, ?_⟩
  · unfold numberText
    rw [convert_behind hf hpre hr, spaced_behind hpre, hr]
    rfl
  · intro n hn
    have hlook := hn _ (List.mem_singleton.mpr rfl)
    rw [look_behind hpre]
    simp only [Cursor.look] at hlook ⊢
    omega

theorem byte_peek {c : Cursor} {e : Byte} (hne : e ≠ 0) (h : c.peek = e) :
    byte (· = e) c = some ⟨(), [], c.next⟩ := by
  unfold Cursor.peek at h
  unfold byte Cursor.next
  cases hc : c.rest with
  | nil =>
    rw [hc] at h
    exact absurd h.symm hne
  | cons b s =>
    rw [hc] at h
    simp only [List.headD_cons] at h
    simp [h]

end

/-! ## Reading a given text -/

/-- The part reads `a` from the cursor on and leaves `rest`. -/
def Reads {α : Type} (x : LinePart α) (c : Cursor) (a : α) (rest : List Byte) : Prop :=
  ∃ looks pos, x c = some ⟨a, looks, ⟨pos, rest⟩⟩

section
variable {α β : Type} {p : Byte → Bool} {x : LinePart α} {y : α → LinePart β} {c : Cursor} {a : α} {b : β}
  {rest rest' : List Byte}

theorem Reads.pure (a : α) (c : Cursor) : Reads (pure a : LinePart α) c a c.rest := ⟨[], c.pos, rfl⟩

theorem Reads.bind (hx : Reads x c a rest) (hy : ∀ pos, Reads (y a) ⟨pos, rest⟩ b rest') :
    Reads (x >>= y) c b rest' := by
  obtain ⟨looks, pos, hx⟩ := hx
  obtain ⟨looks', pos', hy⟩ := hy pos
  exact ⟨_, _, bind_eq_some.2 ⟨_, _, hx, hy, rfl⟩⟩

theorem Reads.byte {e : Byte} (hp : p e) (pos : Nat) (s : List Byte) :
    Reads (byte p) ⟨pos, e :: s⟩ () s := ⟨[], pos + 1, if_pos hp⟩

theorem Reads.ensure (hp : p c.peek) : Reads (ensure p) c () c.rest := ⟨[], c.pos, if_pos hp⟩

theorem Reads.whenNext (hp : p c.peek) (hx : Reads x c a rest) : Reads (whenNext p x) c (some a) rest := by
  obtain ⟨looks, pos, hx⟩ := hx
  exact ⟨_, _, (whenNext_eq_some hp).mpr ⟨_, hx, rfl⟩⟩

theorem Reads.absent (hp : ¬ p c.peek) : Reads (Strto.whenNext p x) c none c.rest :=
  ⟨[], c.pos, if_neg hp⟩

end

end Strto
