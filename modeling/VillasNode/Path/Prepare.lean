import VillasNode.Lib.Firsts
import VillasNode.Path.Model

/-!
# Preparing the sources of a path

The loop of `path_prepare` that makes the sources of a path of its mapping
entries. It walks the entries and makes one source for each node, but it marks
the mask with the index of the entry, where `path_source_read` tests the index
of the source.
-/

namespace VillasNode

/-! ## The loop -/

inductive PathSourceType where
  | master
  | secondary
deriving DecidableEq

/-- A path source as `path_prepare` makes it. -/
structure PreparedSource where
  /-- The node of its mapping entries. A secondary source reads it through a loopback. -/
  node : Nat
  type : PathSourceType
  masked : Bool
  mappings : List MappingEntry
deriving DecidableEq

structure PreparedPath where
  sources : List PreparedSource
  mask : Finset Nat
deriving DecidableEq

def inMask (maskList : List Nat) (n : Nat) : Bool := maskList = [] || maskList.contains n

/-- `vlist_push(&ps->mappings, me)` for the source of the node of the entry. -/
def pushMapping (me : MappingEntry) (pss : List PreparedSource) : List PreparedSource :=
  pss.map fun ps => if ps.node = me.node then { ps with mappings := ps.mappings ++ [me] } else ps

/-- The loop from the entry with index `i` on. `used` says which nodes are sources of other paths.
`none` when `bitset::set` throws. -/
def prepareSources (maskList : List Nat) (used : Nat → Bool) :
    Nat → List MappingEntry → PreparedPath → Option PreparedPath
  | _, [], p => some p
  | i, me :: ml, p =>
    if p.sources.any fun ps => ps.node = me.node then
      -- We already have a path source for this mapping entry.
      prepareSources maskList used (i + 1) ml { p with sources := pushMapping me p.sources }
    else
      let ps : PreparedSource :=
        { node := me.node, type := if used me.node then .secondary else .master
          masked := inMask maskList me.node, mappings := [me] }
      if ps.masked ∧ maxSampleLength ≤ i then none
      else
        let mask := if ps.masked then insert i p.mask else p.mask
        prepareSources maskList used (i + 1) ml { sources := p.sources ++ [ps], mask }

def pathPrepare (maskList : List Nat) (used : Nat → Bool) (ml : List MappingEntry) :
    Option PreparedPath :=
  prepareSources maskList used 0 ml ⟨[], ∅⟩

/-! ## What it leaves -/

variable {maskList : List Nat} {used : Nat → Bool} {p p' : PreparedPath}

structure PreparedFor (maskList nodes : List Nat) (p : PreparedPath) : Prop where
  sources : Firsts.Of nodes (p.sources.map PreparedSource.node)
  mask : ∀ t, t ∈ p.mask ↔ ∃ n ∈ nodes, inMask maskList n ∧ nodes.idxOf n = t
  masked : ∀ ps ∈ p.sources, ps.masked = inMask maskList ps.node

theorem pushMapping_nodes (me : MappingEntry) (pss : List PreparedSource) :
    (pushMapping me pss).map PreparedSource.node = pss.map PreparedSource.node := by
  unfold pushMapping
  rw [List.map_map]
  apply List.map_congr_left
  intro ps _
  dsimp only [Function.comp]
  split <;> rfl

theorem pushMapping_masked {me : MappingEntry} {pss : List PreparedSource}
    (h : ∀ ps ∈ pss, ps.masked = inMask maskList ps.node) :
    ∀ ps ∈ pushMapping me pss, ps.masked = inMask maskList ps.node := by
  unfold pushMapping
  intro ps hps
  obtain ⟨ps₀, hps₀, rfl⟩ := List.mem_map.mp hps
  have := h ps₀ hps₀
  split
  · exact this
  · exact this

theorem PreparedFor.known {nodes : List Nat} {me : MappingEntry} (h : PreparedFor maskList nodes p)
    (hme : me.node ∈ nodes) :
    PreparedFor maskList (nodes ++ [me.node]) { p with sources := pushMapping me p.sources } := by
  refine ⟨?_, fun t => ?_, pushMapping_masked h.masked⟩
  · rw [pushMapping_nodes]
    exact h.sources.seen hme
  · rw [h.mask]
    constructor
    · rintro ⟨n, hn, hmask, ht⟩
      exact ⟨n, List.mem_append_left _ hn, hmask, by rw [List.idxOf_append_of_mem hn, ht]⟩
    · rintro ⟨n, hn, hmask, ht⟩
      have hn' : n ∈ nodes := by
        rcases List.mem_append.mp hn with hn | hn
        · exact hn
        · rw [List.mem_singleton.mp hn]
          exact hme
      exact ⟨n, hn', hmask, by rw [← ht, List.idxOf_append_of_mem hn']⟩

theorem PreparedFor.create {nodes : List Nat} (h : PreparedFor maskList nodes p) (ps : PreparedSource)
    (hnew : ps.node ∉ nodes) (hmasked : ps.masked = inMask maskList ps.node) :
    PreparedFor maskList (nodes ++ [ps.node])
      { sources := p.sources ++ [ps]
        mask := if ps.masked then insert nodes.length p.mask else p.mask } := by
  have hplace : (nodes ++ [ps.node]).idxOf ps.node = nodes.length := by
    rw [List.idxOf_append_of_notMem hnew, List.idxOf_cons_self, Nat.add_zero]
  refine ⟨?_, fun t => ?_, fun ps' hps' => ?_⟩
  · rw [List.map_append]
    exact h.sources.new hnew
  · have hold : (∃ n ∈ nodes ++ [ps.node], inMask maskList n ∧ (nodes ++ [ps.node]).idxOf n = t) ↔
        t ∈ p.mask ∨ inMask maskList ps.node ∧ t = nodes.length := by
      rw [h.mask]
      constructor
      · rintro ⟨n, hn, hmask, ht⟩
        rcases List.mem_append.mp hn with hn | hn
        · exact .inl ⟨n, hn, hmask, by rw [← ht, List.idxOf_append_of_mem hn]⟩
        · rw [List.mem_singleton] at hn
          subst hn
          exact .inr ⟨hmask, by rw [← ht, hplace]⟩
      · rintro (⟨n, hn, hmask, ht⟩ | ⟨hmask, rfl⟩)
        · exact ⟨n, List.mem_append_left _ hn, hmask, by rw [List.idxOf_append_of_mem hn, ht]⟩
        · exact ⟨ps.node, List.mem_append_right _ List.mem_cons_self, hmask, hplace⟩
    rw [hold, ← hmasked]
    dsimp only
    split
    · rename_i hyes
      rw [Finset.mem_insert, or_comm]
      simp [hyes]
    · rename_i hno
      simp [hno]
  · rcases List.mem_append.mp hps' with hps' | hps'
    · exact h.masked ps' hps'
    · rw [List.mem_singleton.mp hps']
      exact hmasked

theorem prepareSources_spec (ml : List MappingEntry) {nodes : List Nat}
    (h : PreparedFor maskList nodes p)
    (hp : prepareSources maskList used nodes.length ml p = some p') :
    PreparedFor maskList (nodes ++ ml.map MappingEntry.node) p' := by
  induction ml generalizing nodes p with
  | nil =>
    cases hp
    simpa using h
  | cons me ml ih =>
    have hknown : (p.sources.any fun ps => ps.node = me.node) = true ↔ me.node ∈ nodes := by
      rw [← h.sources.mem]
      simp
    have hlen : nodes.length + 1 = (nodes ++ [me.node]).length := by simp
    unfold prepareSources at hp
    rw [List.map_cons, List.append_cons]
    split at hp
    · rename_i hany
      rw [hlen] at hp
      exact ih (h.known (hknown.mp hany)) hp
    · rename_i hany
      rw [hknown] at hany
      dsimp only at hp
      split at hp
      · simp at hp
      rw [hlen] at hp
      exact ih (h.create ⟨me.node, _, inMask maskList me.node, [me]⟩ hany rfl) hp

/-- For every list of entries and every mask list, the bit of every source says whether its node is
masked, if and only if no node is repeated in front of the first entry of a masked node. -/
theorem mask_agrees_iff {ml : List MappingEntry} (hp : pathPrepare maskList used ml = some p) :
    (∀ j ps, p.sources[j]? = some ps → (j ∈ p.mask ↔ maskList = [] ∨ ps.node ∈ maskList)) ↔
      ∀ n ∈ ml.map MappingEntry.node, (maskList = [] ∨ n ∈ maskList) →
        ((ml.map MappingEntry.node).take ((ml.map MappingEntry.node).idxOf n)).Nodup := by
  have hmask : ∀ n, inMask maskList n = true ↔ maskList = [] ∨ n ∈ maskList := by
    intro n
    unfold inMask
    simp
  have hinit : PreparedFor maskList [] ⟨[], ∅⟩ := by
    refine ⟨.nil, ?_, ?_⟩
    · simp
    · simp
  have h := prepareSources_spec ml hinit hp
  rw [List.nil_append] at h
  have hiff := h.sources.marks_iff fun n => inMask maskList n = true
  simp only [hmask] at hiff
  rw [← hiff]
  constructor
  · intro hall j n hj
    rw [List.getElem?_map, Option.map_eq_some_iff] at hj
    obtain ⟨ps, hps, rfl⟩ := hj
    rw [← hall j ps hps, h.mask]
    simp only [hmask]
  · intro hall j ps hps
    rw [h.mask]
    simp only [hmask]
    apply hall
    rw [List.getElem?_map, hps]
    rfl

/-! ## Two entries of one node -/

def valueOf (node offset : Nat) : MappingEntry := ⟨node, .data offset, 1, offset⟩

/-- `in = ["a.data[0]", "a.data[1]", "b"]` with `mask = ["b"]`. The bit 2 is set and source 1, of
node `b`, is never tested as masked. -/
theorem mask_misses_source :
    ∃ p, pathPrepare [1] (fun _ => false) [valueOf 0 0, valueOf 0 1, valueOf 1 0] = some p ∧
      ¬ ∀ j ps, p.sources[j]? = some ps → (j ∈ p.mask ↔ [1] = [] ∨ ps.node ∈ [1]) := by
  refine ⟨_, rfl, fun hall => ?_⟩
  have hbit := hall 1 _ rfl
  revert hbit
  decide

theorem mask_agrees_repeated_behind :
    ∃ p, pathPrepare [1] (fun _ => false) [valueOf 0 0, valueOf 1 0, valueOf 0 1] = some p ∧
      ∀ j ps, p.sources[j]? = some ps → (j ∈ p.mask ↔ [1] = [] ∨ ps.node ∈ [1]) := by
  obtain ⟨p, hp⟩ : ∃ p, pathPrepare [1] (fun _ => false) [valueOf 0 0, valueOf 1 0, valueOf 0 1] =
    some p := ⟨_, rfl⟩
  exact ⟨p, hp, (mask_agrees_iff hp).mpr (by decide)⟩

end VillasNode
