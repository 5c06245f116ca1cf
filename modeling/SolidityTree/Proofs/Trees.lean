import SolidityTree.Proofs.Consistent

/-!
# Trees

Following the parent marks of a consistent forest leads from every node to exactly one root, so the
nodes fall into disjoint trees, and the walk of a root lists its tree: every node once, and after
all that are above it (`Consistent.nodup_walk`, `Consistent.pairwise_walk`).  Taken from its end,
the walk comes to the children of a node before the node itself (`Consistent.turn`).
-/

namespace SolidityTree.Forest

variable {f : Forest} {a b c k p r : NodeId} {tree done : List NodeId}

/-! ### Roots -/

/-- Of two nodes above a third one, one is above the other. -/
theorem Reaches.total (ha : f.Reaches k a) (hb : f.Reaches k b) :
    f.Reaches a b ∨ f.Reaches b a := by
  have hunique : Relator.RightUnique fun c p => f.parent? c = some p := by
    intro c p q hp hq
    rw [hp] at hq
    exact Option.some.inj hq
  exact ha.total_of_right_unique hunique hb

theorem Reaches.eq_of_root (hr : f.parent? r = none) (h : f.Reaches r a) : a = r := by
  rcases Relation.ReflTransGen.cases_head h with heq | ⟨p, hp, -⟩
  · exact heq.symm
  · rw [hr] at hp
    contradiction

/-- Two roots above one node are the same. -/
theorem Reaches.root_unique (ha : f.Reaches k a) (hb : f.Reaches k b) (hroota : f.parent? a = none)
    (hrootb : f.parent? b = none) : a = b := by
  rcases ha.total hb with h | h
  · exact (h.eq_of_root hroota).symm
  · exact h.eq_of_root hrootb

/-- The mark of a node does not matter for what is below it. -/
theorem reaches_iff_of_parent? {g : Forest} (h : ∀ c, c ≠ r → g.parent? c = f.parent? c) :
    g.Reaches k r ↔ f.Reaches k r := by
  -- a path to the node follows other marks only
  have hpath : ∀ {f g : Forest}, (∀ c, c ≠ r → g.parent? c = f.parent? c) → f.Reaches k r →
      g.Reaches k r := by
    intro f g h hk
    induction hk using Relation.ReflTransGen.head_induction_on with
    | refl => exact .refl
    | @head c p hp _ ih =>
      by_cases hc : c = r
      · rw [hc]
        exact .refl
      · exact .head ((h c hc).trans hp) ih
  constructor
  · apply hpath
    intro c hc
    exact (h c hc).symm
  · exact hpath h

/-- It is the turn of a node of a tree: its children have had theirs, and it has not. -/
structure Turn (f : Forest) (tree done : List NodeId) (a : NodeId) : Prop where
  mem : a ∈ tree
  not_mem : a ∉ done
  done_subset : done ⊆ tree
  children_subset : f.children a ⊆ done

namespace Consistent

theorem exists_root (hf : f.Consistent) (k : NodeId) :
    ∃ r, f.Reaches k r ∧ f.parent? r = none := by
  induction k using hf.ends.induction with
  | _ k ih =>
  cases hp : f.parent? k with
  | none => exact ⟨k, .refl, hp⟩
  | some p =>
    obtain ⟨r, hr, hroot⟩ := ih p hp
    exact ⟨r, .head hp hr, hroot⟩

/-- The trees below two children of a node have no node in common. -/
theorem eq_of_reaches_siblings (hf : f.Consistent) (ha : f.parent? a = some p)
    (hb : f.parent? b = some p) (hka : f.Reaches k a) (hkb : f.Reaches k b) : a = b := by
  -- otherwise one of them would be above the other, and so above their parent
  have habove : ∀ {a b : NodeId}, f.parent? a = some p → f.parent? b = some p →
      f.Reaches a b → a = b := by
    intro a b ha hb h
    rcases Relation.ReflTransGen.cases_head h with heq | ⟨q, hq, hr⟩
    · exact heq
    · rw [ha] at hq
      obtain rfl := Option.some.inj hq
      exact absurd hr (hf.not_reaches_of_parent? hb)
  rcases hka.total hkb with h | h
  · exact habove ha hb h
  · exact (habove hb ha h).symm

/-- The root of the tree that a node is in is above the node and has no parent itself. -/
theorem root_spec (hf : f.Consistent) (hk : f.contains k) :
    f.Reaches k (f.root k) ∧ f.parent? (f.root k) = none := by
  have hne : f.ancestry k ≠ [] := List.cons_ne_nil _ _
  have hroot : f.root k = (f.ancestry k).getLast hne := by
    rw [root, List.getLastD_eq_getLast?, List.getLast?_eq_getLast_of_ne_nil hne]
    rfl
  have hreach : f.Reaches k (f.root k) := by
    rw [hroot]
    exact reaches_of_mem_ancestryWithin (List.getLast_mem hne)
  refine ⟨hreach, ?_⟩
  cases hp : f.parent? (f.root k) with
  | none => rfl
  | some p =>
    -- a parent of the last ancestor would be an ancestor, too, and so be below the last one
    have hmem : p ∈ f.ancestry k := (hf.mem_ancestry_iff hk).2 (hreach.tail hp)
    have hpath : (f.ancestry k).Pairwise f.Reaches :=
      (pairwise_of_isChain (isChain_ancestryWithin f k (f.size + 1))).imp
        Relation.TransGen.to_reflTransGen
    have hbelow : f.Reaches p (f.root k) := by
      have hrefl : Std.Refl f.Reaches := ⟨fun _ => .refl⟩
      rw [hroot]
      exact hpath.rel_getLast hmem
    exact absurd hbelow (hf.not_reaches_of_parent? hp)

theorem root_eq (hf : f.Consistent) (hk : f.contains k) (hr : f.Reaches k r)
    (hroot : f.parent? r = none) : f.root k = r :=
  (hf.root_spec hk).1.root_unique hr (hf.root_spec hk).2 hroot

/-! ### Walks -/

/-- A walk comes to a node after all that are above it. -/
theorem pairwise_walkWithin (hf : f.Consistent) (depth : Nat) (r : NodeId) :
    (f.walkWithin depth r).Pairwise fun a b => ¬ f.Reaches a b := by
  -- on the levels: nothing below a node is above it, and its children have disjoint trees
  induction depth generalizing r with
  | zero => exact .nil
  | succ depth ih =>
    rw [walkWithin]
    cases hr : f.get? r with
    | none => exact .nil
    | some n =>
      have hchildren : n.children = f.children r := (children_of_get? hr).symm
      have hparent : ∀ c ∈ n.children, f.parent? c = some r := fun c hc =>
        hf.parent?_of_mem (hchildren ▸ hc)
      refine List.pairwise_cons.2 ⟨fun b hb hrb => ?_, List.pairwise_flatMap.2 ⟨fun c _ => ih c, ?_⟩⟩
      · obtain ⟨c, hc, hbc⟩ := List.mem_flatMap.1 hb
        exact hf.not_reaches_of_parent? (hparent c hc)
          (hrb.trans (hf.reaches_of_mem_walkWithin hbc))
      · have hnodup : n.children.Nodup := hchildren ▸ hf.nodup r
        refine hnodup.imp_of_mem fun {c d} hc hd hne a ha b hb hab => ?_
        exact hne (hf.eq_of_reaches_siblings (hparent c hc) (hparent d hd)
          (hf.reaches_of_mem_walkWithin ha) (hab.trans (hf.reaches_of_mem_walkWithin hb)))

theorem pairwise_walk (hf : f.Consistent) (r : NodeId) :
    (f.walk r).Pairwise fun a b => ¬ f.Reaches a b :=
  hf.pairwise_walkWithin f.size r

/-- A walk lists every node once. -/
theorem nodup_walk (hf : f.Consistent) (r : NodeId) : (f.walk r).Nodup := by
  refine (hf.pairwise_walk r).imp fun {a b} hab heq => ?_
  subst heq
  exact hab .refl

/-- A tree holds the children of its nodes. -/
theorem children_subset_walk (hf : f.Consistent) (hp : p ∈ f.walk r) :
    f.children p ⊆ f.walk r := by
  intro c hc
  have hr := (hf.mem_walk_iff.1 hp).2
  exact hf.mem_walk_iff.2 ⟨hf.contains_child hc, .head (hf.parent?_of_mem hc) hr⟩

/-- Where a walk arrives at a node, the children of the node are still to come. -/
theorem turn (hf : f.Consistent) {before : List NodeId} (hwalk : f.walk r = before ++ a :: done) :
    Turn f (f.walk r) done a := by
  have hnodup := hf.nodup_walk r
  have hpairwise := hf.pairwise_walk r
  have ha : a ∈ f.walk r := by simp [hwalk]
  refine ⟨ha, ?_, ?_, ?_⟩
  · rw [hwalk] at hnodup
    exact (List.nodup_cons.1 hnodup.of_append_right).1
  · intro b hb
    simp [hwalk, hb]
  · intro c hc
    have hcwalk := hf.children_subset_walk ha hc
    have hparent := hf.parent?_of_mem hc
    rw [hwalk] at hcwalk hpairwise
    rcases List.mem_append.1 hcwalk with hbefore | hrest
    · -- what comes earlier is not below the node
      have hnot := (List.pairwise_append.1 hpairwise).2.2 c hbefore a List.mem_cons_self
      exact absurd (.single hparent) hnot
    · rcases List.mem_cons.1 hrest with rfl | hdone
      · exact absurd .refl (hf.not_reaches_of_parent? hparent)
      · exact hdone

/-- The trees of different roots have no node in common. -/
theorem nodup_flatMap_walk (hf : f.Consistent) {roots : List NodeId} (hnodup : roots.Nodup)
    (hroots : ∀ r ∈ roots, f.parent? r = none) : (roots.flatMap f.walk).Nodup := by
  refine List.nodup_flatMap.2 ⟨fun r _ => hf.nodup_walk r, ?_⟩
  refine hnodup.imp_of_mem fun {a b} ha hb hne => ?_
  intro k hka hkb
  exact hne ((hf.mem_walk_iff.1 hka).2.root_unique (hf.mem_walk_iff.1 hkb).2 (hroots a ha)
    (hroots b hb))

end Consistent

end SolidityTree.Forest
