import Mathlib.Data.List.Basic
import VillasNode.Lib.Fallible
import VillasNode.Path.Prepare

/-!
# Wiring nodes and paths

`SuperNode::preparePaths` over all paths. The first path that maps a node reads
it. Each further one gets a node of type `loopback_internal`, to which the
source of the first path forwards.
-/

namespace VillasNode.SuperNode

/-- A node, as far as paths are connected to it. Sources are numbered as they are made. -/
structure Vnode where
  name : String
  /-- `l->source` of a node of type `loopback_internal`. -/
  origin : Option Nat
  sources : List Nat
deriving DecidableEq

structure VpathSource where
  path : Nat
  /-- `ps->node`, from which it reads. -/
  node : Nat
  type : PathSourceType
  secondaries : List Nat
deriving DecidableEq

structure Net where
  nodes : List Vnode
  sources : List VpathSource
deriving DecidableEq

structure Vpath where
  enabled : Bool
  /-- The node names of the mapping entries. -/
  mappings : List String

/-- `loopback_internal_create` for the node `n`, which is `x`. -/
def loopbackInternalCreate (n : Nat) (x : Vnode) : Vnode :=
  { name := x.name ++ "_lo" ++ toString x.sources.length, origin := some n, sources := [] }

def Vnode.push (x : Vnode) (s : Nat) : Vnode := { x with sources := x.sources ++ [s] }

def VpathSource.push (ps : VpathSource) (s : Nat) : VpathSource :=
  { ps with secondaries := ps.secondaries ++ [s] }

namespace Net

/-- A new path source of `path` for the node `n`: `path_source_init_master` or
`path_source_init_secondary`, with what `path_prepare` does behind them. -/
def initSource (net : Net) (path n : Nat) : Option Net :=
  match net.nodes[n]? with
  | none => none
  | some x =>
    let s := net.sources.length
    match x.sources with
    | [] => some
        { nodes := net.nodes.set n (x.push s)
          sources := net.sources ++ [⟨path, n, .master, []⟩] }
    | master :: _ => some
        { nodes := net.nodes.set n (x.push s) ++ [(loopbackInternalCreate n x).push s]
          sources := net.sources.modify master (·.push s) ++
            [⟨path, net.nodes.length, .secondary, []⟩] }

/-- The loop of `path_prepare` over the nodes of its mapping entries. Those in `seen` have a
source. -/
def initSources (path : Nat) : List Nat → List Nat → Net → Option Net
  | _, [], net => some net
  | seen, n :: ns, net =>
    if n ∈ seen then initSources path seen ns net
    else (net.initSource path n).bind (initSources path (seen ++ [n]) ns)

/-- `NodeList::lookup`. -/
def lookup (net : Net) (name : String) : Option Nat := net.nodes.findIdx? fun x => x.name = name

/-- `path_prepare`. `none` when a name is not known. -/
def pathPrepare (net : Net) (path : Nat) (mappings : List String) : Option Net :=
  (mappings.mapM net.lookup).bind fun ns => initSources path [] ns net

/-- `SuperNode::preparePaths`, from the path with index `i` on. -/
def preparePaths : Nat → List Vpath → Net → Option Net
  | _, [], net => some net
  | i, p :: ps, net =>
    if p.enabled then (net.pathPrepare i p.mappings).bind (preparePaths (i + 1) ps)
    else preparePaths (i + 1) ps net

end Net

/-- The nodes of the configuration. -/
def parsed (names : List String) : Net := ⟨names.map fun name => ⟨name, none, []⟩, []⟩

/-! ## The invariant -/

/-- The path of the source with number `s`. -/
def Net.pathOf (net : Net) (s : Nat) : Nat := ((net.sources[s]?).map VpathSource.path).getD 0

/-- All sources and nodes point to each other as they should. -/
structure Wired (net : Net) : Prop where
  reader : ∀ (s : Nat) (ps : VpathSource), net.sources[s]? = some ps →
    ∃ x : Vnode, net.nodes[ps.node]? = some x ∧ x.sources.head? = some s
  first : ∀ (n : Nat) (x : Vnode) (s : Nat), net.nodes[n]? = some x → x.sources.head? = some s →
    ∃ ps : VpathSource, net.sources[s]? = some ps ∧ ps.node = n ∧ ps.secondaries = x.sources.tail ∧
      (ps.type = .secondary ↔ x.origin.isSome)
  rest : ∀ (n : Nat) (x : Vnode) (s : Nat), net.nodes[n]? = some x → s ∈ x.sources.tail →
    ∃ (ps : VpathSource) (l : Vnode), net.sources[s]? = some ps ∧ net.nodes[ps.node]? = some l ∧
      l.origin = some n
  used : ∀ (n : Nat) (x : Vnode), net.nodes[n]? = some x → x.origin.isSome → x.sources ≠ []
  order : ∀ (n : Nat) (x : Vnode), net.nodes[n]? = some x → (x.sources.map net.pathOf).Pairwise (· < ·)

variable {net net' : Net} {path n : Nat}

/-- The source that `initSource` makes. -/
def Net.newSource (net : Net) (path n : Nat) (x : Vnode) : VpathSource :=
  if x.sources = [] then ⟨path, n, .master, []⟩ else ⟨path, net.nodes.length, .secondary, []⟩

/-- What a new source of `path` for the node `n`, which is `x`, changes. -/
structure Adds (net : Net) (path n : Nat) (x : Vnode) (net' : Net) : Prop where
  node : net.nodes[n]? = some x
  names : ∃ names, net'.nodes.map Vnode.name = net.nodes.map Vnode.name ++ names
  nodes : ∀ m : Nat, net'.nodes[m]? =
    if m = net.nodes.length ∧ x.sources ≠ [] then
      some ((loopbackInternalCreate n x).push net.sources.length)
    else (net.nodes[m]?).map fun y => if m = n then y.push net.sources.length else y
  sources : ∀ s : Nat, net'.sources[s]? =
    if s = net.sources.length then some (net.newSource path n x)
    else (net.sources[s]?).map fun ps => if x.sources.head? = some s then ps.push net.sources.length else ps

theorem initSource_adds (h : net.initSource path n = some net') : ∃ x, Adds net path n x net' := by
  unfold Net.initSource at h
  cases hx : net.nodes[n]? with
  | none =>
    rw [hx] at h
    cases h
  | some x =>
    rw [hx] at h
    dsimp only at h
    have hlt : n < net.nodes.length := (List.getElem?_eq_some_iff.mp hx).1
    have hname : (net.nodes.set n (x.push net.sources.length)).map Vnode.name = net.nodes.map Vnode.name := by
      apply List.ext_getElem?
      intro m
      grind [Vnode.push]
    refine ⟨x, hx, ?_, fun m => ?_, fun s => ?_⟩
    · cases hs : x.sources with
      | nil =>
        rw [hs] at h
        cases h
        exact ⟨[], by rw [hname, List.append_nil]⟩
      | cons master rest =>
        rw [hs] at h
        cases h
        exact ⟨_, by rw [List.map_append, hname]⟩
    all_goals
      cases hs : x.sources with
      | nil =>
        rw [hs] at h
        cases h
        grind [Net.newSource]
      | cons master rest =>
        rw [hs] at h
        cases h
        grind [Net.newSource]

theorem Wired.known (hw : Wired net) {x : Vnode} {s : Nat} (hx : net.nodes[n]? = some x)
    (hs : s ∈ x.sources) : s < net.sources.length := by
  have hsome : ∃ ps, net.sources[s]? = some ps := by
    cases hsources : x.sources with
    | nil => simp [hsources] at hs
    | cons master rest =>
      rw [hsources, List.mem_cons] at hs
      rcases hs with rfl | hs
      · obtain ⟨ps, hps, -⟩ := hw.first n x s hx (by simp [hsources])
        exact ⟨ps, hps⟩
      · obtain ⟨ps, -, hps, -⟩ := hw.rest n x s hx (by simpa [hsources] using hs)
        exact ⟨ps, hps⟩
  obtain ⟨ps, hps⟩ := hsome
  exact (List.getElem?_eq_some_iff.mp hps).1

variable {x : Vnode}

namespace Adds

theorem old_node (ha : Adds net path n x net') {m : Nat} {y : Vnode} (hy : net.nodes[m]? = some y) :
    net'.nodes[m]? = some (if m = n then y.push net.sources.length else y) := by
  have hlt : m < net.nodes.length := (List.getElem?_eq_some_iff.mp hy).1
  rw [ha.nodes, if_neg (fun hm => absurd hm.1 (Nat.ne_of_lt hlt)), hy]
  rfl

theorem new_node (ha : Adds net path n x net') {m : Nat} {y' : Vnode} (hy : net'.nodes[m]? = some y') :
    (∃ y, net.nodes[m]? = some y ∧ y' = if m = n then y.push net.sources.length else y) ∨
      m = net.nodes.length ∧ x.sources ≠ [] ∧ y' = (loopbackInternalCreate n x).push net.sources.length := by
  rw [ha.nodes] at hy
  split at hy
  · rename_i hm
    cases hy
    exact .inr ⟨hm.1, hm.2, rfl⟩
  · obtain ⟨y, hold, rfl⟩ := Option.map_eq_some_iff.mp hy
    exact .inl ⟨y, hold, rfl⟩

theorem old_source (ha : Adds net path n x net') {s : Nat} {ps : VpathSource} (hps : net.sources[s]? = some ps) :
    net'.sources[s]? = some (if x.sources.head? = some s then ps.push net.sources.length else ps) := by
  have hlt : s < net.sources.length := (List.getElem?_eq_some_iff.mp hps).1
  rw [ha.sources, if_neg (Nat.ne_of_lt hlt), hps]
  rfl

theorem new_source (ha : Adds net path n x net') :
    net'.sources[net.sources.length]? = some (net.newSource path n x) := by
  rw [ha.sources, if_pos rfl]

theorem pathOf (ha : Adds net path n x net') (s : Nat) :
    net'.pathOf s = if s = net.sources.length then path else net.pathOf s := by
  unfold Net.pathOf
  rw [ha.sources]
  split
  · unfold Net.newSource
    split <;> rfl
  · rw [Option.map_map]
    congr 2
    funext ps
    dsimp only [Function.comp]
    split <;> rfl

theorem read_node (ha : Adds net path n x net') :
    ∃ y, net'.nodes[(net.newSource path n x).node]? = some y ∧
      y.sources.head? = some net.sources.length ∧
      (x.sources ≠ [] → y.origin = some n) := by
  unfold Net.newSource
  split
  · rename_i hnone
    refine ⟨x.push net.sources.length, ?_, ?_, fun hsome => absurd hnone hsome⟩
    · rw [ha.old_node ha.node, if_pos rfl]
    · unfold Vnode.push
      rw [hnone]
      rfl
  · rename_i hsome
    refine ⟨(loopbackInternalCreate n x).push net.sources.length, ?_, rfl, fun _ => rfl⟩
    rw [ha.nodes, if_pos ⟨rfl, hsome⟩]

theorem reader (ha : Adds net path n x net') (hw : Wired net) (s : Nat) (ps : VpathSource)
    (hps : net'.sources[s]? = some ps) :
    ∃ y : Vnode, net'.nodes[ps.node]? = some y ∧ y.sources.head? = some s := by
  rw [ha.sources] at hps
  split at hps
  · rename_i hs
    cases hps
    subst hs
    obtain ⟨y, hy, hhead, -⟩ := ha.read_node
    exact ⟨y, hy, hhead⟩
  · obtain ⟨ps₀, hps₀, rfl⟩ := Option.map_eq_some_iff.mp hps
    obtain ⟨y, hy, hhead⟩ := hw.reader s ps₀ hps₀
    have hnode : (if x.sources.head? = some s then ps₀.push net.sources.length else ps₀).node = ps₀.node := by
      split <;> rfl
    refine ⟨_, by rw [hnode]; exact ha.old_node hy, ?_⟩
    split
    · unfold Vnode.push
      dsimp only
      rw [List.head?_append, hhead]
      rfl
    · exact hhead

theorem first (ha : Adds net path n x net') (hw : Wired net) (m : Nat) (y' : Vnode) (s : Nat)
    (hy' : net'.nodes[m]? = some y') (hs : y'.sources.head? = some s) :
    ∃ ps : VpathSource, net'.sources[s]? = some ps ∧ ps.node = m ∧ ps.secondaries = y'.sources.tail ∧
      (ps.type = .secondary ↔ y'.origin.isSome) := by
  rcases ha.new_node hy' with ⟨y, hy, rfl⟩ | ⟨rfl, hsome, rfl⟩
  · by_cases hm : m = n
    · subst hm
      cases ha.node.symm.trans hy
      rw [if_pos rfl] at hs ⊢
      cases hsources : x.sources with
      | nil =>
        have hlen : s = net.sources.length := by
          simpa [Vnode.push, hsources, eq_comm] using hs
        subst hlen
        have hreal : ¬ x.origin.isSome := fun horigin => hw.used m x hy horigin hsources
        refine ⟨_, ha.new_source, ?_, ?_, ?_⟩
        · simp [Net.newSource, hsources]
        · simp [Net.newSource, Vnode.push, hsources]
        · simpa [Net.newSource, Vnode.push, hsources] using hreal
      | cons master rest =>
        have hmaster : master = s := by simpa [Vnode.push, hsources] using hs
        subst hmaster
        obtain ⟨ps, hps, hnode, hsecondaries, htype⟩ := hw.first m x master hy (by simp [hsources])
        refine ⟨_, ha.old_source hps, ?_⟩
        rw [if_pos (by simp [hsources])]
        refine ⟨hnode, ?_, htype⟩
        simp [VpathSource.push, Vnode.push, hsecondaries, hsources]
    · rw [if_neg hm] at hs ⊢
      obtain ⟨ps, hps, hnode, hrest⟩ := hw.first m y s hy hs
      have hother : x.sources.head? ≠ some s := by
        intro hhead
        obtain ⟨ps', hps', hnode', -⟩ := hw.first n x s ha.node hhead
        cases hps.symm.trans hps'
        exact hm (hnode.symm.trans hnode')
      refine ⟨_, ha.old_source hps, ?_⟩
      rw [if_neg hother]
      exact ⟨hnode, hrest⟩
  · have hlen : s = net.sources.length := by
      simpa [Vnode.push, loopbackInternalCreate, eq_comm] using hs
    subst hlen
    refine ⟨_, ha.new_source, ?_⟩
    simp [Net.newSource, hsome, Vnode.push, loopbackInternalCreate]

theorem kept_rest (ha : Adds net path n x net') {m s : Nat}
    (hold : ∃ (ps : VpathSource) (l : Vnode), net.sources[s]? = some ps ∧ net.nodes[ps.node]? = some l ∧
      l.origin = some m) :
    ∃ (ps : VpathSource) (l : Vnode), net'.sources[s]? = some ps ∧ net'.nodes[ps.node]? = some l ∧
      l.origin = some m := by
  obtain ⟨ps, l, hps, hl, horigin⟩ := hold
  refine ⟨_, if ps.node = n then l.push net.sources.length else l, ha.old_source hps, ?_, ?_⟩
  · have hnode : (if x.sources.head? = some s then ps.push net.sources.length else ps).node = ps.node := by
      split <;> rfl
    rw [hnode]
    exact ha.old_node hl
  · split
    · exact horigin
    · exact horigin

theorem rest (ha : Adds net path n x net') (hw : Wired net) (m : Nat) (y' : Vnode) (s : Nat)
    (hy' : net'.nodes[m]? = some y') (hs : s ∈ y'.sources.tail) :
    ∃ (ps : VpathSource) (l : Vnode), net'.sources[s]? = some ps ∧ net'.nodes[ps.node]? = some l ∧
      l.origin = some m := by
  rcases ha.new_node hy' with ⟨y, hy, rfl⟩ | ⟨rfl, hsome, rfl⟩
  · by_cases hm : m = n
    · subst hm
      cases ha.node.symm.trans hy
      rw [if_pos rfl] at hs
      cases hsources : x.sources with
      | nil => simp [Vnode.push, hsources] at hs
      | cons master rest =>
        have hcases : s ∈ rest ∨ s = net.sources.length := by
          simpa [Vnode.push, hsources] using hs
        rcases hcases with hold | rfl
        · exact ha.kept_rest (hw.rest m x s hy (by simpa [hsources] using hold))
        · obtain ⟨l, hl, -, horigin⟩ := ha.read_node
          exact ⟨_, l, ha.new_source, hl, horigin (by simp [hsources])⟩
    · rw [if_neg hm] at hs
      exact ha.kept_rest (hw.rest m y s hy hs)
  · simp [Vnode.push, loopbackInternalCreate] at hs

theorem used (ha : Adds net path n x net') (hw : Wired net) (m : Nat) (y' : Vnode)
    (hy' : net'.nodes[m]? = some y') (horigin : y'.origin.isSome) : y'.sources ≠ [] := by
  rcases ha.new_node hy' with ⟨y, hy, rfl⟩ | ⟨-, -, rfl⟩
  · split
    · simp [Vnode.push]
    · rename_i hm
      rw [if_neg hm] at horigin
      exact hw.used m y hy horigin
  · simp [Vnode.push]

theorem order (ha : Adds net path n x net') (hw : Wired net) (hlate : ∀ s ∈ x.sources, net.pathOf s < path)
    (m : Nat) (y' : Vnode) (hy' : net'.nodes[m]? = some y') :
    (y'.sources.map net'.pathOf).Pairwise (· < ·) := by
  have hmap : ∀ (m : Nat) (y : Vnode), net.nodes[m]? = some y →
      y.sources.map net'.pathOf = y.sources.map net.pathOf := by
    intro m y hy
    apply List.map_congr_left
    intro s hs
    rw [ha.pathOf, if_neg (Nat.ne_of_lt (hw.known hy hs))]
  rcases ha.new_node hy' with ⟨y, hy, rfl⟩ | ⟨-, -, rfl⟩
  · split
    · rename_i hm
      subst hm
      cases ha.node.symm.trans hy
      unfold Vnode.push
      dsimp only
      rw [List.map_append, hmap m x hy, List.pairwise_append]
      refine ⟨hw.order m x hy, List.pairwise_singleton .., ?_⟩
      simp only [List.map_cons, List.map_nil, List.mem_singleton, List.mem_map]
      rintro a ⟨s, hs, rfl⟩ b rfl
      rw [ha.pathOf, if_pos rfl]
      exact hlate s hs
    · rw [hmap m y hy]
      exact hw.order m y hy
  · exact List.pairwise_singleton ..

theorem wired (ha : Adds net path n x net') (hw : Wired net) (hlate : ∀ s ∈ x.sources, net.pathOf s < path) :
    Wired net' :=
  ⟨ha.reader hw, ha.first hw, ha.rest hw, ha.used hw, ha.order hw hlate⟩

end Adds

/-! ## One path -/

/-- The path has a source for the node `n`. -/
def Net.Maps (net : Net) (path n : Nat) : Prop :=
  ∃ x : Vnode, net.nodes[n]? = some x ∧ ∃ s ∈ x.sources, net.pathOf s = path

theorem Adds.maps (ha : Adds net path n x net') (hw : Wired net) {i m : Nat} (hmaps : net.Maps i m) :
    net'.Maps i m := by
  obtain ⟨y, hy, s, hs, hi⟩ := hmaps
  refine ⟨_, ha.old_node hy, s, ?_, ?_⟩
  · split
    · exact List.mem_append_left _ hs
    · exact hs
  · rw [ha.pathOf, if_neg (Nat.ne_of_lt (hw.known hy hs))]
    exact hi

theorem Adds.lookup (ha : Adds net path n x net') {name : String} {m : Nat} (hm : net.lookup name = some m) :
    net'.lookup name = some m := by
  have hnames : ∀ net : Net, net.lookup name = (net.nodes.map Vnode.name).findIdx? (· = name) := by
    intro net
    unfold Net.lookup
    rw [List.findIdx?_map]
    rfl
  rw [hnames] at hm ⊢
  obtain ⟨names, heq⟩ := ha.names
  rw [heq, List.findIdx?_append, hm]
  rfl

/-- The path has sources for the nodes of `seen`, which are among the first `size`, and for loopbacks
of its own. -/
structure Preparing (path : Nat) (seen : List Nat) (size : Nat) (net : Net) : Prop where
  wired : Wired net
  late : ∀ (n : Nat) (x : Vnode) (s : Nat), net.nodes[n]? = some x → s ∈ x.sources →
    net.pathOf s ≤ path ∧ (net.pathOf s = path → n ∈ seen ∨ size ≤ n)
  done : ∀ n ∈ seen, net.Maps path n
  bound : size ≤ net.nodes.length

theorem Adds.preparing {seen : List Nat} {size : Nat} (ha : Adds net path n x net')
    (hp : Preparing path seen size net) (hn : n < size) (hnew : n ∉ seen) :
    Preparing path (seen ++ [n]) size net' := by
  have hlate : ∀ s ∈ x.sources, net.pathOf s < path := by
    intro s hs
    obtain ⟨hle, heq⟩ := hp.late n x s ha.node hs
    refine lt_of_le_of_ne hle fun hpath => ?_
    rcases heq hpath with hin | hlarge
    · exact hnew hin
    · omega
  refine ⟨ha.wired hp.wired hlate, ?_, ?_, ?_⟩
  · intro m y' s hy' hs
    rw [ha.pathOf]
    rcases ha.new_node hy' with ⟨y, hy, rfl⟩ | ⟨rfl, -, rfl⟩
    · split
      · rename_i hlen
        refine ⟨le_refl _, fun _ => ?_⟩
        subst hlen
        split at hs
        · rename_i hm
          exact .inl (List.mem_append_right _ (List.mem_singleton.mpr hm))
        · exact absurd (hp.wired.known hy hs) (Nat.lt_irrefl _)
      · rename_i hlen
        have hold : s ∈ y.sources := by
          split at hs
          · rcases List.mem_append.mp hs with hs | hs
            · exact hs
            · exact absurd (List.mem_singleton.mp hs) hlen
          · exact hs
        obtain ⟨hle, heq⟩ := hp.late m y s hy hold
        exact ⟨hle, fun hpath => (heq hpath).imp_left (List.mem_append_left _)⟩
    · have hlen : s = net.sources.length := by
        simpa [Vnode.push, loopbackInternalCreate] using hs
      rw [if_pos hlen]
      exact ⟨le_refl _, fun _ => .inr hp.bound⟩
  · intro m hm
    rcases List.mem_append.mp hm with hm | hm
    · exact ha.maps hp.wired (hp.done m hm)
    · rw [List.mem_singleton.mp hm]
      refine ⟨_, ha.old_node ha.node, net.sources.length, ?_, ?_⟩
      · rw [if_pos rfl]
        exact List.mem_append_right _ (List.mem_singleton_self _)
      · rw [ha.pathOf, if_pos rfl]
  · obtain ⟨names, heq⟩ := ha.names
    have hlen := congrArg List.length heq
    rw [List.length_append, List.length_map, List.length_map] at hlen
    have := hp.bound
    omega

/-- What the preparation of a path keeps of what was there. -/
structure Keeps (net net' : Net) : Prop where
  maps : ∀ i m, net.Maps i m → net'.Maps i m
  lookup : ∀ name m, net.lookup name = some m → net'.lookup name = some m

theorem Keeps.refl (net : Net) : Keeps net net := ⟨fun _ _ h => h, fun _ _ h => h⟩

theorem Keeps.trans {net₁ net₂ net₃ : Net} (h₁ : Keeps net₁ net₂) (h₂ : Keeps net₂ net₃) : Keeps net₁ net₃ :=
  ⟨fun i m h => h₂.maps i m (h₁.maps i m h), fun name m h => h₂.lookup name m (h₁.lookup name m h)⟩

theorem initSources_preparing {seen ns : List Nat} {size : Nat} (hp : Preparing path seen size net)
    (hns : ∀ n ∈ ns, n < size) (h : Net.initSources path seen ns net = some net') :
    Keeps net net' ∧ (∀ n ∈ ns, net'.Maps path n) ∧ Wired net' ∧
      ∀ (n : Nat) (x : Vnode) (s : Nat), net'.nodes[n]? = some x → s ∈ x.sources → net'.pathOf s ≤ path := by
  induction ns generalizing seen net with
  | nil =>
    cases h
    exact ⟨.refl _, by simp, hp.wired, fun n x s hx hs => (hp.late n x s hx hs).1⟩
  | cons n ns ih =>
    unfold Net.initSources at h
    rw [List.forall_mem_cons] at hns
    split at h
    · rename_i hseen
      obtain ⟨hkeeps, hmaps, hwired, hlate⟩ := ih hp hns.2 h
      exact ⟨hkeeps, List.forall_mem_cons.mpr ⟨hkeeps.maps _ _ (hp.done n hseen), hmaps⟩, hwired, hlate⟩
    · rename_i hnew
      obtain ⟨net₁, hinit, hrest⟩ := Option.bind_eq_some_iff.mp h
      obtain ⟨x, ha⟩ := initSource_adds hinit
      have hp₁ := ha.preparing hp hns.1 hnew
      obtain ⟨hkeeps, hmaps, hwired, hlate⟩ := ih hp₁ hns.2 hrest
      have hone : Keeps net net₁ := ⟨fun _ _ => ha.maps hp.wired, fun _ _ => ha.lookup⟩
      refine ⟨hone.trans hkeeps, List.forall_mem_cons.mpr ⟨?_, hmaps⟩, hwired, hlate⟩
      exact hkeeps.maps _ _ (hp₁.done n (List.mem_append_right _ (List.mem_singleton_self _)))

/-! ## All paths -/

/-- After the paths in front of the one with index `i`. -/
structure Prepared (i : Nat) (net : Net) : Prop where
  wired : Wired net
  early : ∀ (n : Nat) (x : Vnode) (s : Nat), net.nodes[n]? = some x → s ∈ x.sources → net.pathOf s < i

theorem pathPrepare_prepared {i : Nat} {mappings : List String} (hp : Prepared i net)
    (h : net.pathPrepare i mappings = some net') :
    Prepared (i + 1) net' ∧ Keeps net net' ∧
      ∀ name ∈ mappings, ∃ n, net.lookup name = some n ∧ net'.Maps i n := by
  unfold Net.pathPrepare at h
  obtain ⟨ns, hns, hinit⟩ := Option.bind_eq_some_iff.mp h
  obtain ⟨hfound, hlookup⟩ := Fallible.mapM_members hns
  have hstart : Preparing i [] net.nodes.length net :=
    ⟨hp.wired, fun n x s hx hs => ⟨(hp.early n x s hx hs).le, fun heq => absurd heq (hp.early n x s hx hs).ne⟩,
      by simp, le_refl _⟩
  have hsize : ∀ n ∈ ns, n < net.nodes.length := by
    intro n hn
    obtain ⟨name, -, hname⟩ := hfound n hn
    exact (List.findIdx?_eq_some_iff_getElem.mp hname).1
  obtain ⟨hkeeps, hmaps, hwired, hlate⟩ := initSources_preparing hstart hsize hinit
  refine ⟨⟨hwired, fun n x s hx hs => Nat.lt_succ_of_le (hlate n x s hx hs)⟩, hkeeps, ?_⟩
  intro name hname
  obtain ⟨n, hn, hfind⟩ := hlookup name hname
  exact ⟨n, hfind, hmaps n hn⟩

theorem preparePaths_prepared {i : Nat} {paths : List Vpath} (hp : Prepared i net)
    (h : Net.preparePaths i paths net = some net') :
    Wired net' ∧ Keeps net net' ∧ ∀ (k : Nat) (p : Vpath), paths[k]? = some p → p.enabled →
      ∀ name ∈ p.mappings, ∃ n, net'.lookup name = some n ∧ net'.Maps (i + k) n := by
  induction paths generalizing i net with
  | nil =>
    cases h
    exact ⟨hp.wired, .refl _, by simp⟩
  | cons p ps ih =>
    unfold Net.preparePaths at h
    split at h
    · obtain ⟨net₁, hone, hrest⟩ := Option.bind_eq_some_iff.mp h
      obtain ⟨hp₁, hkeeps₁, hmaps₁⟩ := pathPrepare_prepared hp hone
      obtain ⟨hwired, hkeeps, hmaps⟩ := ih hp₁ hrest
      refine ⟨hwired, hkeeps₁.trans hkeeps, ?_⟩
      rintro (_ | k) p' hk henabled name hname
      · cases hk
        obtain ⟨n, hlookup, hn⟩ := hmaps₁ name hname
        exact ⟨n, (hkeeps₁.trans hkeeps).lookup _ _ hlookup, hkeeps.maps _ _ hn⟩
      · rw [Nat.add_comm k, ← Nat.add_assoc]
        exact hmaps k p' hk henabled name hname
    · rename_i hdisabled
      have hp₁ : Prepared (i + 1) net := ⟨hp.wired, fun n x s hx hs => Nat.lt_succ_of_lt (hp.early n x s hx hs)⟩
      obtain ⟨hwired, hkeeps, hmaps⟩ := ih hp₁ h
      refine ⟨hwired, hkeeps, ?_⟩
      rintro (_ | k) p' hk henabled name hname
      · cases hk
        exact absurd henabled hdisabled
      · rw [Nat.add_comm k, ← Nat.add_assoc]
        exact hmaps k p' hk henabled name hname

theorem parsed_prepared (names : List String) : Prepared 0 (parsed names) := by
  have hnode : ∀ (n : Nat) (x : Vnode), (parsed names).nodes[n]? = some x → x.sources = [] ∧ x.origin = none := by
    intro n x hx
    unfold parsed at hx
    obtain ⟨name, -, rfl⟩ := List.mem_map.mp (List.mem_of_getElem? hx)
    exact ⟨rfl, rfl⟩
  refine ⟨⟨?_, ?_, ?_, ?_, ?_⟩, ?_⟩
  · intro s ps hps
    simp [parsed] at hps
  · intro n x s hx hs
    simp [(hnode n x hx).1] at hs
  · intro n x s hx hs
    simp [(hnode n x hx).1] at hs
  · intro n x hx horigin
    simp [(hnode n x hx).2] at horigin
  · intro n x hx
    simp [(hnode n x hx).1]
  · intro n x s hx hs
    simp [(hnode n x hx).1] at hs

/-- A source that reads a node has all other sources of the node behind it, in the order of their
paths, each with a loopback of its own for the node: no two sources read the same node. Each path
that maps a node has one of these sources. -/
theorem paths_wired {names : List String} {paths : List Vpath}
    (h : Net.preparePaths 0 paths (parsed names) = some net) :
    (∀ (s t : Nat) (ps pt : VpathSource), net.sources[s]? = some ps → net.sources[t]? = some pt →
      ps.node = pt.node → s = t) ∧
    (∀ (s : Nat) (ps : VpathSource), net.sources[s]? = some ps →
      ∃ x : Vnode, net.nodes[ps.node]? = some x ∧ x.sources = s :: ps.secondaries ∧
        (x.sources.map net.pathOf).Pairwise (· < ·) ∧
        ∀ t ∈ ps.secondaries, ∃ (pt : VpathSource) (l : Vnode), net.sources[t]? = some pt ∧
          net.nodes[pt.node]? = some l ∧ l.origin = some ps.node) ∧
    ∀ (i : Nat) (p : Vpath), paths[i]? = some p → p.enabled → ∀ name ∈ p.mappings,
      ∃ (n : Nat) (x : Vnode), net.lookup name = some n ∧ net.nodes[n]? = some x ∧
        ∃ s ∈ x.sources, net.pathOf s = i := by
  obtain ⟨hw, -, hmaps⟩ := preparePaths_prepared (parsed_prepared names) h
  refine ⟨?_, ?_, ?_⟩
  · intro s t ps pt hps hpt hnode
    obtain ⟨x, hx, hs⟩ := hw.reader s ps hps
    obtain ⟨y, hy, ht⟩ := hw.reader t pt hpt
    rw [hnode] at hx
    cases hx.symm.trans hy
    exact Option.some.inj (hs.symm.trans ht)
  · intro s ps hps
    obtain ⟨x, hx, hs⟩ := hw.reader s ps hps
    obtain ⟨ps', hps', -, hsecondaries, -⟩ := hw.first ps.node x s hx hs
    cases hps.symm.trans hps'
    have hsources : x.sources = s :: ps.secondaries := by
      rw [hsecondaries, List.cons_head?_tail hs]
    refine ⟨x, hx, hsources, hw.order _ x hx, fun t ht => ?_⟩
    exact hw.rest ps.node x t hx (by rwa [← hsecondaries])
  · intro i p hi henabled name hname
    obtain ⟨n, hlookup, x, hx, s, hs, hpath⟩ := hmaps i p hi henabled name hname
    rw [Nat.zero_add] at hpath
    exact ⟨n, x, hlookup, hx, s, hs, hpath⟩

/-- Three paths that read the node `a`, and one that reads the loopback of the second. -/
def examplePaths : List Vpath :=
  [⟨true, ["a", "b", "a"]⟩, ⟨true, ["a"]⟩, ⟨false, ["c"]⟩, ⟨true, ["a_lo1", "a"]⟩]

example : (Net.preparePaths 0 examplePaths (parsed ["a", "b"])).map
    (fun net => (net.nodes.map (·.sources), net.sources.map (·.secondaries))) =
      some ([[0, 2, 4], [1], [2, 3], [3], [4]], [[2, 4], [], [3], [], []]) := by decide

theorem paths_wired_example :
    ∃ net, Net.preparePaths 0 examplePaths (parsed ["a", "b"]) = some net ∧ net.sources.length = 5 ∧
      ∀ (s t : Nat) (ps pt : VpathSource), net.sources[s]? = some ps → net.sources[t]? = some pt →
        ps.node = pt.node → s = t := by
  have hlen : (Net.preparePaths 0 examplePaths (parsed ["a", "b"])).map (·.sources.length) = some 5 := by
    decide
  obtain ⟨net, hnet, hlen⟩ := Option.map_eq_some_iff.mp hlen
  exact ⟨net, hnet, hlen, (paths_wired hnet).1⟩

end VillasNode.SuperNode
