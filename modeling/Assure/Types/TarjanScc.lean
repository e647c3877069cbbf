import Assure.Library.TarjanRun
import Assure.Types.TypeGraph

/-!
# The components of the type dependency graph

`_tarjan_scc` is Tarjan's algorithm by recursion. `strongconnect` takes a bound on the depth of the
recursion and answers `none` past it; the number of nodes is enough (`strongconnect_steps`), since
every call enters a node. A call takes the steps of the machine of `Assure.Library.Tarjan` from the
entry of its node until the node is closed, whatever nodes are open below it.
-/

namespace Assure

open Assure.Library Assure.Library.Tarjan

variable {adj : TypeNodeKey → List TypeNodeKey} {nodes : List TypeNodeKey}

/-- One pass of `for dependency in sorted(…)` in the call for `node`; `recur` is the recursive
call. -/
def visitDependency (recur : Search TypeNodeKey → TypeNodeKey → Option (Search TypeNodeKey))
    (node : TypeNodeKey) (s : Search TypeNodeKey) (dependency : TypeNodeKey) :
    Option (Search TypeNodeKey) :=
  match s.indexMap dependency with
  | none => (recur s dependency).map fun s => s.lower node (s.lowlinks dependency)
  | some i => some (if dependency ∈ s.onStack then s.lower node i else s)

/-- **`strongconnect`**, with calls nested at most `depth` deep. -/
def strongconnect (adj : TypeNodeKey → List TypeNodeKey) :
    Nat → Search TypeNodeKey → TypeNodeKey → Option (Search TypeNodeKey)
  | 0, _, _ => none
  | depth + 1, s, node =>
    ((adj node).foldlM (visitDependency (strongconnect adj depth) node) (s.enter node)).bind
      fun s => s.close id node

/-- One pass of `for node in sorted(self.nodes, …)`. -/
def visitNode (adj : TypeNodeKey → List TypeNodeKey) (depth : Nat) (s : Search TypeNodeKey)
    (node : TypeNodeKey) : Option (Search TypeNodeKey) :=
  if (s.indexMap node).isSome then some s else strongconnect adj depth s node

/-- **`_tarjan_scc`**: `none` if it raises. -/
def TypeDependencyGraph.tarjanScc (order : SetOrder TypeNodeKey) (g : TypeDependencyGraph) :
    Option (List (List TypeNodeKey)) :=
  ((sortedKeys g.nodes).foldlM (visitNode (g.sortedDependencies order) g.nodes.length)
    Search.empty).map Search.components

/-! ## The recursion takes the machine's steps -/

/-- What a call of `strongconnect` does for every open node below it: it returns, and the machine
gets from the entry of its node to where the node is closed. -/
def Connects (adj : TypeNodeKey → List TypeNodeKey) (nodes : List TypeNodeKey) (depth : Nat) : Prop :=
  ∀ (fs : List (Frame TypeNodeKey)) (s : Search TypeNodeKey) (node : TypeNodeKey),
    Inv adj ((node, adj node) :: fs) (s.enter node) →
    Within nodes ((node, adj node) :: fs) (s.enter node) →
    unvisited nodes (s.enter node) < depth →
      ∃ s', strongconnect adj depth s node = some s' ∧
        Steps adj id nodes ⟨(node, adj node) :: fs, s.enter node⟩ ⟨fs, s'.passUp node fs⟩

/-- The loop over the dependencies of a node looks at them all. -/
theorem Connects.loop {depth : Nat} (hrec : Connects adj nodes depth)
    (hadj : ∀ v ∈ nodes, adj v ⊆ nodes) (node : TypeNodeKey) (fs : List (Frame TypeNodeKey)) :
    ∀ (ws : List TypeNodeKey) (s : Search TypeNodeKey), Inv adj ((node, ws) :: fs) s →
      Within nodes ((node, ws) :: fs) s → unvisited nodes s ≤ depth →
        ∃ s', ws.foldlM (visitDependency (strongconnect adj depth) node) s = some s' ∧
          Steps adj id nodes ⟨(node, ws) :: fs, s⟩ ⟨(node, []) :: fs, s'⟩
  | [], s, _, _, _ => ⟨s, rfl, .refl⟩
  | w :: ws, s, h, hin, hdepth => by
    have hemit : ∀ l : List TypeNodeKey, (id l).Perm l := List.Perm.refl
    have hpass : ∃ s₁, visitDependency (strongconnect adj depth) node s w = some s₁ ∧
        Steps adj id nodes ⟨(node, w :: ws) :: fs, s⟩ ⟨(node, ws) :: fs, s₁⟩ := by
      unfold visitDependency
      cases hseen : s.indexMap w with
      | none =>
        have hstep : Step adj id nodes ⟨(node, w :: ws) :: fs, s⟩
            ⟨(w, adj w) :: (node, ws) :: fs, s.enter w⟩ := .tree hseen
        have hw : w ∈ nodes := hin.rest _ List.mem_cons_self List.mem_cons_self
        obtain ⟨s₁, hs₁, hsteps⟩ := hrec ((node, ws) :: fs) s w (h.step hemit hstep)
          (hin.step hadj hstep) ((unvisited_enter_lt hw hseen).trans_le hdepth)
        exact ⟨s₁.lower node (s₁.lowlinks w), by simp [hs₁], .head hstep hsteps⟩
      | some i =>
        by_cases hon : w ∈ s.onStack
        · exact ⟨s.lower node i, by simp [hon], .single (.back hseen hon)⟩
        · exact ⟨s, by simp [hon], .single (.cross hseen hon)⟩
    obtain ⟨s₁, hs₁, hsteps₁⟩ := hpass
    obtain ⟨s', hs', hsteps'⟩ := Connects.loop hrec hadj node fs ws s₁ (h.steps hemit hsteps₁)
      (hin.steps hadj hsteps₁) (hsteps₁.unvisited_le.trans hdepth)
    exact ⟨s', by rw [List.foldlM_cons, hs₁]; exact hs', hsteps₁.trans hsteps'⟩

/-- **A call takes the machine's steps**, by induction on the depth it may nest to. -/
theorem strongconnect_steps (hadj : ∀ v ∈ nodes, adj v ⊆ nodes) :
    ∀ depth, Connects adj nodes depth
  | 0 => fun _ _ _ _ _ h => absurd h (Nat.not_lt_zero _)
  | depth + 1 => by
    intro fs s node h hin hdepth
    obtain ⟨t, ht, hsteps⟩ := (strongconnect_steps hadj depth).loop hadj node fs (adj node)
      (s.enter node) h hin (Nat.le_of_lt_succ hdepth)
    obtain ⟨s', hs'⟩ := (h.steps List.Perm.refl hsteps).close_isSome id
    exact ⟨s', by simp [strongconnect, ht, hs'], hsteps.tail (.close hs')⟩

/-- The recursive visit of the source does what the general search does, whose result therefore
holds of it. -/
theorem visitNode_visits (hadj : ∀ v ∈ nodes, adj v ⊆ nodes) :
    Visits adj id nodes (visitNode adj nodes.length) := by
  intro s v h hin hv
  refine ⟨fun hseen => by simp [visitNode, Option.isSome_iff_ne_none, hseen], fun hfresh => ?_⟩
  have hstart : Step adj id nodes ⟨[], s⟩ ⟨[(v, adj v)], s.enter v⟩ := .start hfresh hv
  have hdepth : unvisited nodes (s.enter v) < nodes.length :=
    (unvisited_enter_lt hv hfresh).trans_le List.countP_le_length
  obtain ⟨s', hs', hsteps⟩ := strongconnect_steps hadj nodes.length [] s v
    (h.step List.Perm.refl hstart) (hin.step hadj hstart) hdepth
  exact ⟨s', by simp [visitNode, hfresh, hs'], hsteps⟩

/-- **`_tarjan_scc` returns a component order of the graph.** -/
theorem TypeDependencyGraph.tarjanScc_spec (order : SetOrder TypeNodeKey)
    (g : TypeDependencyGraph) : ∃ sccs, g.tarjanScc order = some sccs ∧
      SccOrder (g.sortedDependencies order) g.nodes sccs := by
  have hadj : ∀ v ∈ g.nodes, g.sortedDependencies order v ⊆ g.nodes :=
    fun _ _ => sortedDependencies_subset
  obtain ⟨s, hs, hscc, -⟩ := (visitNode_visits hadj).sccOrder List.Perm.refl hadj
    fun v => (mem_sortedKeys : v ∈ sortedKeys g.nodes ↔ v ∈ g.nodes)
  exact ⟨s.components, by simp [tarjanScc, hs], hscc⟩

end Assure
