import SolidityTree.Proofs.Positions
import SolidityTree.Proofs.Trees

/-!
# Walks as traversals

A tree can be walked by a loop over a stack: the next pending node is visited, and its children take
its place (`Forest.advance?`).  On a graph with a cycle the loop would go on for ever.  In a
consistent forest a child has a smaller tree than its parent (`Consistent.length_walk_lt`), so what
holds of a node wherever it holds of its children holds of every node (`Consistent.induct_below`);
by this induction the bound of `Forest.walk` is never met (`Consistent.walk_eq`), and the loop ends
with the walk (`Consistent.advances_walk`).

Main statement: `walk_isPreorder`.
-/

namespace SolidityTree

/-- A walk that is under way. -/
structure Traversal where
  /-- The nodes to be visited, the next one first. -/
  pending : List NodeId
  /-- The nodes that have been visited, in order. -/
  visited : List NodeId

namespace Forest

variable {f : Forest} {c k p r : NodeId}

/-- Visits the next pending node, whose children come before all that is pending; an id without a
node is passed over.  Where nothing is pending the walk is over. -/
def advance? (f : Forest) : Traversal → Option Traversal
  | ⟨[], _⟩ => none
  | ⟨id :: pending, visited⟩ =>
    match f.get? id with
    | none => some ⟨pending, visited⟩
    | some n => some ⟨n.children ++ pending, visited ++ [id]⟩

/-- One walk under way becomes another one in some number of steps. -/
def Advances (f : Forest) : Traversal → Traversal → Prop :=
  Relation.ReflTransGen fun s t => f.advance? s = some t

namespace Consistent

/-! ### Trees below one another -/

theorem self_mem_walk (hf : f.Consistent) (hr : f.contains r) : r ∈ f.walk r :=
  hf.mem_walk_iff.2 ⟨hr, .refl⟩

theorem length_walk_le_size (hf : f.Consistent) (r : NodeId) : (f.walk r).length ≤ f.size := by
  apply length_le_size_of_nodup (hf.nodup_walk r)
  intro k hk
  exact (hf.mem_walk_iff.1 hk).1

/-- The tree of a child is smaller than that of its parent. -/
theorem length_walk_lt (hf : f.Consistent) (hc : c ∈ f.children p) :
    (f.walk c).length < (f.walk p).length := by
  have hparent := hf.parent?_of_mem hc
  -- the parent is in its own tree, and not in that of the child
  have hnot : p ∉ f.walk c := fun hp =>
    hf.not_reaches_of_parent? hparent (hf.mem_walk_iff.1 hp).2
  have hsub : p :: f.walk c ⊆ f.walk p := by
    intro k hk
    rcases List.mem_cons.1 hk with rfl | hk
    · exact hf.self_mem_walk (hf.contains_parent hparent)
    · obtain ⟨hreg, hreach⟩ := hf.mem_walk_iff.1 hk
      exact hf.mem_walk_iff.2 ⟨hreg, hreach.tail hparent⟩
  have hnodup : (p :: f.walk c).Nodup := List.nodup_cons.2 ⟨hnot, hf.nodup_walk c⟩
  have hle := (List.subperm_of_subset hnodup hsub).length_le
  rwa [List.length_cons] at hle

/-- What holds of a node wherever it holds of its children holds of every node. -/
theorem induct_below (hf : f.Consistent) {P : NodeId → Prop}
    (h : ∀ r, (∀ c ∈ f.children r, P c) → P r) (r : NodeId) : P r := by
  -- on the size of the tree
  induction hn : (f.walk r).length using Nat.strong_induction_on generalizing r with
  | _ n ih =>
    apply h
    intro c hc
    have hlt := hf.length_walk_lt hc
    exact ih (f.walk c).length (by omega) c rfl

/-! ### The bound of a walk -/

/-- More levels than there are nodes in a tree make no difference to its walk. -/
theorem walkWithin_eq (hf : f.Consistent) (r : NodeId) {d e : Nat} (hd : (f.walk r).length ≤ d)
    (he : (f.walk r).length ≤ e) : f.walkWithin d r = f.walkWithin e r := by
  induction r using hf.induct_below generalizing d e with
  | _ r ih =>
  cases hr : f.get? r with
  | none =>
    have hnil : ∀ depth, f.walkWithin depth r = [] := by
      intro depth
      cases depth with
      | zero => rfl
      | succ depth => rw [walkWithin, hr]
    rw [hnil, hnil]
  | some n =>
    have hpos := List.length_pos_of_mem (hf.self_mem_walk (contains_iff_get?.2 ⟨n, hr⟩))
    obtain ⟨d, rfl⟩ : ∃ m, d = m + 1 := ⟨d - 1, by omega⟩
    obtain ⟨e, rfl⟩ : ∃ m, e = m + 1 := ⟨e - 1, by omega⟩
    have hbelow : n.children.flatMap (f.walkWithin d) = n.children.flatMap (f.walkWithin e) := by
      apply List.flatMap_congr
      intro c hc
      rw [← children_of_get? hr] at hc
      have hlt := hf.length_walk_lt hc
      exact ih c hc (by omega) (by omega)
    rw [walkWithin, walkWithin, hr]
    exact congrArg (r :: ·) hbelow

/-- The walk of a node is that node and then the walks of its children. -/
theorem walk_eq (hf : f.Consistent) (r : NodeId) :
    f.walk r = if f.contains r then r :: (f.children r).flatMap f.walk else [] := by
  have hle := hf.length_walk_le_size r
  have hsucc : f.walk r = f.walkWithin (f.size + 1) r := hf.walkWithin_eq r hle (by omega)
  rw [hsucc, walkWithin]
  cases hr : f.get? r with
  | none =>
    rw [if_neg (not_contains_of_get?_eq_none hr)]
  | some n =>
    rw [if_pos (contains_iff_get?.2 ⟨n, hr⟩), children_of_get? hr]
    rfl

/-! ### The loop -/

/-- The loop goes through the tree of the next pending node before it comes to the others. -/
theorem advances_cons (hf : f.Consistent) (r : NodeId) (pending visited : List NodeId) :
    f.Advances ⟨r :: pending, visited⟩ ⟨pending, visited ++ f.walk r⟩ := by
  -- on the tree, for whatever is pending behind it
  induction r using hf.induct_below generalizing pending visited with
  | _ r ih =>
  rw [hf.walk_eq]
  cases hr : f.get? r with
  | none =>
    rw [if_neg (not_contains_of_get?_eq_none hr), List.append_nil]
    exact .single (by rw [advance?, hr])
  | some n =>
    have hstep : f.advance? ⟨r :: pending, visited⟩ =
        some ⟨n.children ++ pending, visited ++ [r]⟩ := by rw [advance?, hr]
    -- the children one after another
    have hloop : ∀ cs ⊆ f.children r, ∀ visited,
        f.Advances ⟨cs ++ pending, visited⟩ ⟨pending, visited ++ cs.flatMap f.walk⟩ := by
      intro cs
      induction cs with
      | nil =>
        intro _ visited
        rw [List.flatMap_nil, List.append_nil]
        exact .refl
      | cons c rest ihrest =>
        intro hcs visited
        obtain ⟨hc, hrest⟩ := List.cons_subset.1 hcs
        have hfirst := ih c hc (rest ++ pending) visited
        have hothers := ihrest hrest (visited ++ f.walk c)
        rw [List.append_assoc] at hothers
        exact hfirst.trans hothers
    have hchildren := hloop n.children (by rw [children_of_get? hr]; exact List.Subset.refl _)
      (visited ++ [r])
    rw [List.append_assoc] at hchildren
    rw [if_pos (contains_iff_get?.2 ⟨n, hr⟩), children_of_get? hr]
    exact .head hstep hchildren

theorem advances_walk (hf : f.Consistent) (r : NodeId) :
    f.Advances ⟨[r], []⟩ ⟨[], f.walk r⟩ := hf.advances_cons r [] []

end Consistent

/-- **A walk is exactly the pre-order of a tree.**  The loop that makes it ends, with the node and
then the walks of its children in order; no node is visited twice, and a node is visited exactly if
the parent marks lead from it to the root. -/
theorem walk_isPreorder (hf : f.Consistent) (r : NodeId) :
    (f.Advances ⟨[r], []⟩ ⟨[], f.walk r⟩ ∧ f.advance? ⟨[], f.walk r⟩ = none) ∧
      (f.walk r = if f.contains r then r :: (f.children r).flatMap f.walk else []) ∧
      (f.walk r).Nodup ∧ ∀ k, k ∈ f.walk r ↔ f.contains k ∧ f.Reaches k r := by
  refine ⟨⟨hf.advances_walk r, rfl⟩, hf.walk_eq r, hf.nodup_walk r, ?_⟩
  intro k
  exact hf.mem_walk_iff

/-- Three names, the tuple `(x, , x)` of the first two, a block with the tuple and the third name,
and a block around it. -/
def nestedBlocksNodes : List Node :=
  [1, 2, 3].map (fun id => .fresh id .unknown (.identifier "" "x" .builtin []) none) ++
    [.fresh 4 .unknown (.tupleExpression "" false [some 1, none, some 2]) none,
      blockNode 5 [4, 3], blockNode 6 [5]]

/-- The forest of these nodes. -/
def nestedBlocks : Forest := nestedBlocksNodes.foldl insert (empty 0)

theorem consistent_nestedBlocks : nestedBlocks.Consistent := by
  have hregister : (empty 0).registerAll nestedBlocksNodes = .ok nestedBlocks := rfl
  exact (consistent_empty 0).registerAll hregister (by decide)

/-- The first name is visited after the tuple and the blocks around it. -/
theorem walk_isPreorder_nestedBlocks :
    nestedBlocks.Consistent ∧ nestedBlocks.Advances ⟨[6], []⟩ ⟨[], [6, 5, 4, 1, 2, 3]⟩ ∧
      nestedBlocks.Reaches 1 6 := by
  have hwalk : nestedBlocks.walk 6 = [6, 5, 4, 1, 2, 3] := by decide +kernel
  obtain ⟨⟨hloop, -⟩, -, -, hmem⟩ := walk_isPreorder consistent_nestedBlocks 6
  rw [hwalk] at hloop hmem
  have hone := (hmem 1).1 (by decide)
  exact ⟨consistent_nestedBlocks, hloop, hone.2⟩

end Forest

end SolidityTree
