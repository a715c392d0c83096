import Mathlib.Data.List.Basic

/-!
# Doubly linked lists

Nodes have addresses in any type. `prev` and `next` read the two links of a
node. A segment is a list of addresses whose links follow the list, with the
links that leave it at both ends given as arguments.
-/

namespace Links

variable {α : Type*}

/-- The addresses `l` are linked in order. `p` comes before the segment and `q` after it. -/
def Seg (prev next : α → Option α) : Option α → List α → Option α → Prop
  | _, [], _ => True
  | p, a :: l, q => prev a = p ∧ next a = l.head?.or q ∧ Seg prev next (some a) l q

variable {prev next prev' next' : α → Option α} {p q : Option α}

@[simp]
theorem seg_nil : Seg prev next p [] q := trivial

theorem seg_cons {a : α} {l : List α} :
    Seg prev next p (a :: l) q ↔ prev a = p ∧ next a = l.head?.or q ∧ Seg prev next (some a) l q :=
  Iff.rfl

theorem seg_append {l₁ l₂ : List α} :
    Seg prev next p (l₁ ++ l₂) q ↔
      Seg prev next p l₁ (l₂.head?.or q) ∧ Seg prev next (l₁.getLast?.or p) l₂ q := by
  induction l₁ generalizing p with
  | nil => simp
  | cons a l₁ ih =>
    simp only [List.cons_append, seg_cons, ih, List.head?_append, Option.or_assoc]
    have hlast : l₁.getLast?.or (some a) = ((a :: l₁).getLast?).or p := by
      cases l₁ with
      | nil => rfl
      | cons b l => simp [List.getLast?_cons]
    rw [hlast]
    tauto

/-- A segment reads only the links of its own nodes. -/
theorem Seg.frame {l : List α} (h : Seg prev next p l q)
    (hp : ∀ a ∈ l, prev' a = prev a) (hn : ∀ a ∈ l, next' a = next a) :
    Seg prev' next' p l q := by
  induction l generalizing p with
  | nil => trivial
  | cons a l ih =>
    obtain ⟨h₁, h₂, h₃⟩ := h
    refine ⟨(hp a (by simp)).trans h₁, (hn a (by simp)).trans h₂, ih h₃ ?_ ?_⟩
    · exact fun b hb => hp b (by simp [hb])
    · exact fun b hb => hn b (by simp [hb])

theorem Seg.relink_left {p' : Option α} {a : α} {l : List α} (h : Seg prev next p (a :: l) q)
    (ha : prev' a = p') (hp : ∀ b ∈ l, prev' b = prev b) (hn : ∀ b ∈ a :: l, next' b = next b) :
    Seg prev' next' p' (a :: l) q := by
  obtain ⟨_, h₂, h₃⟩ := h
  refine ⟨ha, (hn a (by simp)).trans h₂, h₃.frame hp ?_⟩
  exact fun b hb => hn b (by simp [hb])

/-- Replace the nodes after `b`. The new nodes are linked up to the old right end, the right
end is linked back to the last of them, and nothing else moves. -/
theorem Seg.splice {b : α} {pre mid mid' post : List α}
    (h : Seg prev next p (pre ++ b :: mid ++ post) q)
    (hmid : Seg prev' next' (pre.getLast?.or p) (b :: mid') (post.head?.or q))
    (hpost : ∀ c ∈ post.head?, prev' c = (b :: mid').getLast?)
    (hpre : ∀ a ∈ pre, prev' a = prev a ∧ next' a = next a)
    (hprev : ∀ a ∈ post.tail, prev' a = prev a) (hnext : ∀ a ∈ post, next' a = next a) :
    Seg prev' next' p (pre ++ b :: mid' ++ post) q := by
  rw [List.append_assoc, seg_append, seg_append] at h ⊢
  obtain ⟨h₁, _, h₃⟩ := h
  have hlast : ∀ x : Option α, (b :: mid').getLast?.or x = (b :: mid').getLast? := by
    simp [List.getLast?_cons]
  refine ⟨?_, hmid, ?_⟩
  · exact h₁.frame (fun a ha => (hpre a ha).1) (fun a ha => (hpre a ha).2)
  · cases post with
    | nil => trivial
    | cons c post =>
      refine h₃.relink_left ?_ hprev hnext
      rw [hlast]
      exact hpost c rfl

theorem Seg.prev_of_next {l : List α} (h : Seg prev next p l none) {a b : α} (ha : a ∈ l)
    (hb : next a = some b) : b ∈ l ∧ prev b = some a := by
  induction l generalizing p with
  | nil => simp at ha
  | cons c l ih =>
    obtain ⟨_, h₂, h₃⟩ := h
    rcases List.mem_cons.mp ha with rfl | ha
    · cases l with
      | nil => simp [h₂] at hb
      | cons d l =>
        have hbd : d = b := by simpa [h₂] using hb
        subst hbd
        exact ⟨by simp, h₃.1⟩
    · obtain ⟨hmem, hprev⟩ := ih h₃ ha
      exact ⟨List.mem_cons_of_mem _ hmem, hprev⟩

/-- Follow `next`, for at most as many nodes as the first argument says. -/
def walk (next : α → Option α) : Nat → Option α → List α
  | 0, _ => []
  | _, none => []
  | n + 1, some a => a :: walk next n (next a)

theorem Seg.walk_eq {l : List α} (h : Seg prev next p l none) {n : Nat} (hn : l.length ≤ n) :
    walk next n l.head? = l := by
  induction l generalizing p n with
  | nil => cases n <;> rfl
  | cons a l ih =>
    obtain ⟨_, h₂, h₃⟩ := h
    obtain ⟨m, rfl⟩ : ∃ m, n = m + 1 := ⟨n - 1, by simp at hn; omega⟩
    simp only [List.head?_cons, walk, h₂, Option.or_none, List.cons.injEq, true_and]
    exact ih h₃ (by simpa using hn)

end Links
