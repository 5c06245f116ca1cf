import SolidityTree.Proofs.Lookup
import Mathlib.Data.List.Chain
import Mathlib.Data.List.Perm.Subperm
import Mathlib.Logic.Relation

/-!
# Consistent forests

A forest is consistent (`Forest.Consistent`) if the two accounts that it keeps of its trees agree:
the children that payloads list, and the parent marks.  Then the bounds of `Forest.ancestry` and
`Forest.walk` are never met (`Consistent.mem_ancestry_iff`, `Consistent.mem_walk_iff`).

An edit of one node's children is judged by `Consistent.relink`, and a removal of nodes by
`Consistent.prune_iff`; both look only at what becomes of the children and of the marks.
-/

namespace SolidityTree.Forest

variable {f f' : Forest} {a c k p r : NodeId}

/-- The parent marks lead from a node to another one, or the two are the same. -/
def Reaches (f : Forest) : NodeId → NodeId → Prop :=
  Relation.ReflTransGen fun c p => f.parent? c = some p

/-- The children that nodes list and the parent marks describe the same finite trees. -/
structure Consistent (f : Forest) : Prop where
  /-- A node is registered under its own id and carries the mark of the forest. -/
  stamp_eq : ∀ {k n}, f.get? k = some n → n.id = k ∧ n.forest? = some f.id
  /-- A child that is listed is registered, and its mark names the node that lists it. -/
  parent?_of_mem : ∀ {p c}, c ∈ f.children p → f.parent? c = some p
  /-- A parent mark names a registered node that lists the child. -/
  mem_of_parent? : ∀ {p c}, f.parent? c = some p → c ∈ f.children p
  /-- No child is listed twice. -/
  nodup : ∀ p, (f.children p).Nodup
  /-- Following parent marks ends. -/
  ends : WellFounded fun p c => f.parent? c = some p

/-- A forest without nodes is consistent. -/
theorem consistent_empty (id : ForestId) : (empty id).Consistent where
  stamp_eq h := by simp [get?, empty] at h
  parent?_of_mem h := by simp [children, get?, empty] at h
  mem_of_parent? h := by simp [parent?, get?, empty] at h
  nodup p := by simp [children, get?, empty]
  ends := ⟨fun k => ⟨k, fun p h => by simp [parent?, get?, empty] at h⟩⟩

/-- There are no more nodes than the size of the forest. -/
theorem length_le_size_of_nodup {ids : List NodeId} (hnodup : ids.Nodup)
    (hids : ∀ k ∈ ids, f.contains k) : ids.length ≤ f.size := by
  have hsub : ids ⊆ f.nodes.keys := fun k hk => Std.ExtTreeMap.mem_keys.2 (hids k hk)
  have hle := (List.subperm_of_subset hnodup hsub).length_le
  rwa [Std.ExtTreeMap.length_keys] at hle

namespace Consistent

theorem mem_children_iff (hf : f.Consistent) : c ∈ f.children p ↔ f.parent? c = some p :=
  ⟨hf.parent?_of_mem, hf.mem_of_parent?⟩

theorem contains_parent (hf : f.Consistent) (h : f.parent? c = some p) : f.contains p :=
  contains_of_mem_children (hf.mem_of_parent? h)

theorem contains_child (hf : f.Consistent) (h : c ∈ f.children p) : f.contains c :=
  contains_of_parent? (hf.parent?_of_mem h)

theorem contains_of_reaches (hf : f.Consistent) (hc : f.contains c) (h : f.Reaches c a) :
    f.contains a := by
  induction h with
  | refl => exact hc
  | tail _ hp _ => exact hf.contains_parent hp

theorem eq_of_stamp? (hf : f.Consistent) {s : NodeId × Option ForestId}
    (h : f.stamp? k = some s) : s = (k, some f.id) := by
  obtain ⟨n, hn, rfl⟩ := Option.map_eq_some_iff.1 h
  obtain ⟨hid, hforest⟩ := hf.stamp_eq hn
  rw [hid, hforest]

/-- Stamps, children and parent marks are all that consistency looks at. -/
theorem of_views (hstamp : ∀ k s, f.stamp? k = some s → s = (k, some f.id))
    (hmem : ∀ c p, c ∈ f.children p ↔ f.parent? c = some p) (hnodup : ∀ p, (f.children p).Nodup)
    (hends : WellFounded fun p c => f.parent? c = some p) : f.Consistent where
  stamp_eq {k n} h := by
    have hs := hstamp k (n.id, n.forest?) (by rw [stamp?, h]; rfl)
    exact ⟨congrArg Prod.fst hs, congrArg Prod.snd hs⟩
  parent?_of_mem h := (hmem _ _).1 h
  mem_of_parent? h := (hmem _ _).2 h
  nodup := hnodup
  ends := hends

/-- The counter and the open transactions do not matter. -/
theorem of_get? (hf : f.Consistent) (hid : f'.id = f.id) (hget : ∀ k, f'.get? k = f.get? k) :
    f'.Consistent := by
  have hchildren : ∀ k, f'.children k = f.children k := fun k => by rw [children, hget, children]
  have hparent : ∀ k, f'.parent? k = f.parent? k := fun k => by rw [parent?, hget, parent?]
  refine of_views (fun k s hs => ?_) (fun c p => ?_) (fun p => ?_) ?_
  · rw [stamp?, hget] at hs
    rw [hid]
    exact hf.eq_of_stamp? hs
  · rw [hchildren, hparent]
    exact hf.mem_children_iff
  · rw [hchildren]
    exact hf.nodup p
  · simpa only [hparent] using hf.ends

/-- A node is not among the ancestors of its parent. -/
theorem not_reaches_of_parent? (hf : f.Consistent) (h : f.parent? c = some p) :
    ¬ f.Reaches p c := by
  intro hr
  have hloop : Relation.TransGen (fun c p => f.parent? c = some p) c c :=
    Relation.TransGen.head' h hr
  rw [← Relation.transGen_swap] at hloop
  exact hf.ends.transGen.asymmetric c c hloop hloop

/-! ### Paths -/

theorem pairwise_of_isChain {path : List NodeId}
    (h : path.IsChain fun c p => f.parent? c = some p) :
    path.Pairwise (Relation.TransGen fun c p => f.parent? c = some p) :=
  List.isChain_iff_pairwise.1 (h.imp fun _ _ => Relation.TransGen.single)

/-- A path along parent marks passes no node twice. -/
theorem nodup_of_isChain (hf : f.Consistent) {path : List NodeId}
    (h : path.IsChain fun c p => f.parent? c = some p) : path.Nodup := by
  refine (pairwise_of_isChain h).imp fun {x y} hxy hne => ?_
  subst hne
  obtain ⟨p, hp, hr⟩ := Relation.TransGen.head'_iff.1 hxy
  exact hf.not_reaches_of_parent? hp hr

/-- A path along parent marks is no longer than there are nodes. -/
theorem length_le_size (hf : f.Consistent) {path : List NodeId} (hk : f.contains k)
    (h : (k :: path).IsChain fun c p => f.parent? c = some p) : (k :: path).length ≤ f.size := by
  refine length_le_size_of_nodup (hf.nodup_of_isChain h) (List.forall_mem_cons.2 ⟨hk, fun x hx => ?_⟩)
  have hkx := (List.pairwise_cons.1 (pairwise_of_isChain h)).1 x hx
  exact hf.contains_of_reaches hk hkx.to_reflTransGen

end Consistent

/-! ### Ancestors -/

theorem isChain_ancestryWithin (f : Forest) (k : NodeId) (bound : Nat) :
    (f.ancestryWithin k bound).IsChain fun c p => f.parent? c = some p := by
  induction bound generalizing k with
  | zero => exact .nil
  | succ bound ih =>
    rw [ancestryWithin]
    cases hp : f.parent? k with
    | none => exact .singleton k
    | some p =>
      cases bound with
      | zero => exact .singleton k
      | succ bound => exact .cons_cons hp (ih p)

theorem reaches_of_mem_ancestryWithin {bound : Nat} (h : a ∈ f.ancestryWithin k bound) :
    f.Reaches k a := by
  induction bound generalizing k with
  | zero => simp [ancestryWithin] at h
  | succ bound ih =>
    rw [ancestryWithin] at h
    rcases List.mem_cons.1 h with rfl | h
    · exact .refl
    · cases hp : f.parent? k with
      | none => simp [hp] at h
      | some p => exact .head hp (ih (by simpa [hp] using h))

/-- Ancestors are missed only if the bound is met. -/
theorem mem_ancestryWithin_of_reaches {bound : Nat} (h : f.Reaches k a)
    (hlen : (f.ancestryWithin k bound).length < bound) : a ∈ f.ancestryWithin k bound := by
  induction h using Relation.ReflTransGen.head_induction_on generalizing bound with
  | refl =>
    cases bound with
    | zero => omega
    | succ bound => simp [ancestryWithin]
  | head hp _ ih =>
    cases bound with
    | zero => omega
    | succ bound =>
      simp only [ancestryWithin, hp, List.length_cons] at hlen ⊢
      exact List.mem_cons_of_mem _ (ih (by omega))

theorem Consistent.mem_ancestry_iff (hf : f.Consistent) (hk : f.contains k) :
    a ∈ f.ancestry k ↔ f.Reaches k a := by
  refine ⟨reaches_of_mem_ancestryWithin, fun h => mem_ancestryWithin_of_reaches h ?_⟩
  have hle := hf.length_le_size hk (isChain_ancestryWithin f k (f.size + 1))
  exact Nat.lt_succ_of_le hle

/-! ### Trees -/

theorem walkWithin_subset_succ (f : Forest) (depth : Nat) (r : NodeId) :
    f.walkWithin depth r ⊆ f.walkWithin (depth + 1) r := by
  induction depth generalizing r with
  | zero => simp [walkWithin]
  | succ depth ih =>
    intro x hx
    rw [walkWithin] at hx ⊢
    cases hr : f.get? r with
    | none => simp [hr] at hx
    | some n =>
      simp only [hr, List.mem_cons, List.mem_flatMap] at hx ⊢
      rcases hx with rfl | ⟨c, hc, hx⟩
      · exact Or.inl rfl
      · exact Or.inr ⟨c, hc, ih c hx⟩

theorem walkWithin_subset_of_le {d e : Nat} (h : d ≤ e) (r : NodeId) :
    f.walkWithin d r ⊆ f.walkWithin e r := by
  induction h with
  | refl => exact fun _ hx => hx
  | step _ ih => exact fun x hx => walkWithin_subset_succ f _ r (ih hx)

/-- A tree holds the children of its nodes one level further down. -/
theorem mem_walkWithin_of_mem_children {depth : Nat} (hp : p ∈ f.walkWithin depth r)
    (hc : c ∈ f.children p) (hreg : f.contains c) : c ∈ f.walkWithin (depth + 1) r := by
  induction depth generalizing r with
  | zero => simp [walkWithin] at hp
  | succ depth ih =>
    rw [walkWithin] at hp ⊢
    cases hr : f.get? r with
    | none => simp [hr] at hp
    | some n =>
      simp only [hr, List.mem_cons, List.mem_flatMap] at hp ⊢
      rcases hp with rfl | ⟨b, hb, hp⟩
      · obtain ⟨m, hm⟩ := contains_iff_get?.1 hreg
        rw [children_of_get? hr] at hc
        exact Or.inr ⟨c, hc, by simp [walkWithin, hm]⟩
      · exact Or.inr ⟨b, hb, ih hp⟩

theorem contains_of_mem_walkWithin {depth : Nat} (h : k ∈ f.walkWithin depth r) :
    f.contains k := by
  induction depth generalizing r with
  | zero => simp [walkWithin] at h
  | succ depth ih =>
    rw [walkWithin] at h
    cases hr : f.get? r with
    | none => simp [hr] at h
    | some n =>
      simp only [hr, List.mem_cons, List.mem_flatMap] at h
      rcases h with rfl | ⟨b, -, hb⟩
      · exact contains_iff_get?.2 ⟨n, hr⟩
      · exact ih hb

namespace Consistent

theorem reaches_of_mem_walkWithin (hf : f.Consistent) {depth : Nat}
    (h : k ∈ f.walkWithin depth r) : f.Reaches k r := by
  induction depth generalizing r with
  | zero => simp [walkWithin] at h
  | succ depth ih =>
    rw [walkWithin] at h
    cases hr : f.get? r with
    | none => simp [hr] at h
    | some n =>
      simp only [hr, List.mem_cons, List.mem_flatMap] at h
      rcases h with rfl | ⟨b, hb, hk⟩
      · exact .refl
      · rw [← children_of_get? hr] at hb
        exact .tail (ih hk) (hf.parent?_of_mem hb)

/-- A node is as many levels below another one as a path between them has nodes. -/
theorem mem_walkWithin_of_isChain (hf : f.Consistent) {path : List NodeId}
    (h : (k :: path).IsChain fun c p => f.parent? c = some p) (hk : f.contains k) :
    k ∈ f.walkWithin (path.length + 1) ((k :: path).getLast (List.cons_ne_nil _ _)) := by
  induction path generalizing k with
  | nil =>
    obtain ⟨n, hn⟩ := contains_iff_get?.1 hk
    simp [walkWithin, hn]
  | cons p path ih =>
    have hp : f.parent? k = some p := h.rel
    rw [List.getLast_cons_cons]
    exact mem_walkWithin_of_mem_children (ih h.tail (hf.contains_parent hp)) (hf.mem_of_parent? hp)
      hk

/-- The walk of a tree reaches exactly the nodes from which the parent marks lead to its root. -/
theorem mem_walk_iff (hf : f.Consistent) :
    k ∈ f.walk r ↔ f.contains k ∧ f.Reaches k r := by
  refine ⟨fun h => ⟨contains_of_mem_walkWithin h, hf.reaches_of_mem_walkWithin h⟩, ?_⟩
  rintro ⟨hk, h⟩
  -- the path has no more nodes than the forest, so the walk goes deep enough
  obtain ⟨path, hchain, rfl⟩ := List.exists_isChain_cons_of_relationReflTransGen h
  exact walkWithin_subset_of_le (hf.length_le_size hk hchain) _
    (hf.mem_walkWithin_of_isChain hchain hk)

/-! ### Changing one node's children -/

/-- Following marks still ends if every new mark leads to a node from which it ends. -/
theorem ends_of_parent? (hf : f.Consistent)
    (h : ∀ c p, f'.parent? c = some p →
      f.parent? c = some p ∨ Acc (fun p c => f'.parent? c = some p) p) :
    WellFounded fun p c => f'.parent? c = some p := by
  refine ⟨fun c => hf.ends.induction c fun c ih => ⟨c, fun p hp => ?_⟩⟩
  rcases h c p hp with hold | hacc
  · exact ih p hold
  · exact hacc

/-- **One node gets other children.**  Those that are new to it must be without parent and not above
it; those that it loses become roots. -/
theorem relink (hf : f.Consistent) {cs : List NodeId} (hid : f'.id = f.id)
    (hstamp : ∀ k, f'.stamp? k = f.stamp? k)
    (hchildren : ∀ k, f'.children k = if k = p then cs else f.children k)
    (hparent : ∀ k, f'.parent? k =
      if k ∈ cs then some p else if f.parent? k = some p then none else f.parent? k)
    (hnodup : cs.Nodup)
    (hnew : ∀ c ∈ cs, c ∉ f.children p → f.parent? c = none ∧ ¬ f.Reaches p c) :
    f'.Consistent := by
  -- a child of `p` now has no other parent before
  have hcs : ∀ c ∈ cs, ∀ q, f.parent? c = some q → q = p := by
    intro c hc q hq
    by_cases hold : c ∈ f.children p
    · rw [hf.parent?_of_mem hold] at hq
      exact (Option.some.inj hq).symm
    · rw [(hnew c hc hold).1] at hq
      contradiction
  have hmem : ∀ c k, c ∈ f'.children k ↔ f'.parent? c = some k := by
    intro c k
    rw [hchildren, hparent]
    by_cases hk : k = p
    · subst hk
      by_cases hc : c ∈ cs <;> by_cases hold : f.parent? c = some k <;> simp [hc, hold]
    · by_cases hc : c ∈ cs
      · have hnot : c ∉ f.children k := fun h => hk (hcs c hc k (hf.parent?_of_mem h))
        simp [hc, hk, hnot, Ne.symm hk]
      · rw [if_neg hk, if_neg hc, hf.mem_children_iff]
        by_cases hold : f.parent? c = some p <;> simp [hold, Ne.symm hk]
  -- the marks above `p` are the old ones, since no new child is above `p`
  have hacc : ∀ c, f.Reaches p c → Acc (fun p c => f'.parent? c = some p) c := by
    intro c
    induction c using hf.ends.induction with
    | _ c ih =>
    refine fun hreach => ⟨c, fun q hq => ?_⟩
    rw [hparent] at hq
    by_cases hc : c ∈ cs
    · by_cases hold : c ∈ f.children p
      · exact absurd hreach (hf.not_reaches_of_parent? (hf.parent?_of_mem hold))
      · exact absurd hreach (hnew c hc hold).2
    · rw [if_neg hc] at hq
      have hstep : f.parent? c = some q := by
        split at hq
        · contradiction
        · exact hq
      exact ih q hstep (hreach.tail hstep)
  refine of_views (fun k s hs => ?_) hmem (fun k => ?_) ?_
  · rw [hstamp] at hs
    rw [hf.eq_of_stamp? hs, hid]
  · rw [hchildren]
    split
    · exact hnodup
    · exact hf.nodup k
  · -- the marks that are new all name `p`
    refine hf.ends_of_parent? fun c q hq => ?_
    rw [hparent] at hq
    split at hq
    · obtain rfl := Option.some.inj hq
      exact Or.inr (hacc _ .refl)
    · split at hq
      · contradiction
      · exact Or.inl hq

/-! ### Removing nodes -/

/-- **Nodes are removed.**  The marks that named them are cleared, but payloads stay as they are; so
the rest is consistent exactly if none of it lists a node that is gone. -/
theorem prune_iff (hf : f.Consistent) (gone : NodeId → Prop) [DecidablePred gone]
    (hid : f'.id = f.id)
    (hstamp : ∀ k, f'.stamp? k = if gone k then none else f.stamp? k)
    (hchildren : ∀ k, f'.children k = if gone k then [] else f.children k)
    (hparent : ∀ k, f'.parent? k =
      if gone k then none else (f.parent? k).filter fun p => ¬ gone p) :
    f'.Consistent ↔ ∀ p c, c ∈ f.children p → gone c → gone p := by
  constructor
  · -- a node that stays would list a child without a mark
    intro hf' p c hc hgone
    by_contra hp
    have hc' : c ∈ f'.children p := by rwa [hchildren, if_neg hp]
    have := hf'.parent?_of_mem hc'
    rw [hparent, if_pos hgone] at this
    contradiction
  · intro hclosed
    have hmem : ∀ c k, c ∈ f'.children k ↔ f'.parent? c = some k := by
      intro c k
      rw [hchildren, hparent, Option.ite_none_left_eq_some, Option.filter_eq_some_iff,
        ← hf.mem_children_iff]
      by_cases hk : gone k
      · simp [hk]
      · have := hclosed k c
        simp only [hk, ↓reduceIte, not_false_eq_true, decide_true, and_true]
        exact ⟨fun h => ⟨fun hg => hk (this h hg), h⟩, fun h => h.2⟩
    refine of_views (fun k s hs => ?_) hmem (fun k => ?_) ?_
    · rw [hstamp, Option.ite_none_left_eq_some] at hs
      rw [hf.eq_of_stamp? hs.2, hid]
    · rw [hchildren]
      split
      · exact List.nodup_nil
      · exact hf.nodup k
    · refine hf.ends_of_parent? fun c p hp => Or.inl ?_
      rw [hparent, Option.ite_none_left_eq_some, Option.filter_eq_some_iff] at hp
      exact hp.2.1

/-! ### A new node -/

/-- **A node is added whose children have no parent.**  The forest stays consistent exactly if the
node itself comes without a parent mark and lists no child twice. -/
theorem insert_iff (hf : f.Consistent) {n : Node} (hfresh : ¬ f.contains n.id)
    (hreg : ∀ c ∈ n.children, f.contains c) (hdetached : ∀ c ∈ n.children, f.parent? c = none) :
    (f.insert n).Consistent ↔ n.parent? = none ∧ n.children.Nodup := by
  -- the id is free, so nobody lists it, not even the node itself
  have hself : n.id ∉ n.children := fun h => hfresh (hreg _ h)
  have hunlisted : ∀ k, n.id ∉ f.children k := fun k h => hfresh (hf.contains_child h)
  have hparent := fun k => parent?_insert (k := k) n hself hreg
  have hchildren := fun k => children_insert (f := f) (k := k) n hself
  constructor
  · intro hf'
    constructor
    · by_contra hp
      obtain ⟨p, hp⟩ := Option.ne_none_iff_exists'.1 hp
      have hmem := hf'.mem_of_parent? (c := n.id) (p := p) (by rw [hparent, if_pos rfl, hp])
      rw [hchildren] at hmem
      split at hmem
      · exact hself hmem
      · exact hunlisted p hmem
    · have := hf'.nodup n.id
      rwa [hchildren, if_pos rfl] at this
  · rintro ⟨hroot, hnodup⟩
    have hmem : ∀ c k, c ∈ (f.insert n).children k ↔ (f.insert n).parent? c = some k := by
      intro c k
      rw [hchildren, hparent]
      by_cases hc : c = n.id
      · subst hc
        by_cases hk : k = n.id <;> simp [hk, hself, hroot, hunlisted]
      · by_cases hk : k = n.id
        · -- no old mark names the new node
          subst hk
          have hno : f.parent? c ≠ some n.id := fun h => hfresh (hf.contains_parent h)
          by_cases hin : c ∈ n.children <;> simp [hc, hin, hno]
        · by_cases hin : c ∈ n.children
          · -- a child of the new node had no parent to list it
            have hnot : c ∉ f.children k := fun h => by
              have := hf.parent?_of_mem h
              rw [hdetached c hin] at this
              contradiction
            simp [hc, hk, hin, hnot, Ne.symm hk]
          · simp [hc, hk, hin, hf.mem_children_iff]
    -- the new node is a root, where following marks ends at once
    have hacc : Acc (fun p c => (f.insert n).parent? c = some p) n.id :=
      ⟨_, fun p hp => by rw [hparent, if_pos rfl, hroot] at hp; contradiction⟩
    refine of_views (fun k s hs => ?_) hmem (fun k => ?_) ?_
    · rw [stamp?_insert n hself] at hs
      rw [id_insert]
      split at hs
      · next hk => rw [← Option.some.inj hs, hk]
      · exact hf.eq_of_stamp? hs
    · rw [hchildren]
      split
      · exact hnodup
      · exact hf.nodup k
    · refine hf.ends_of_parent? fun c p hp => ?_
      rw [hparent] at hp
      split at hp
      · rw [hroot] at hp; contradiction
      · split at hp
        · obtain rfl := Option.some.inj hp
          exact Or.inr hacc
        · exact Or.inl hp

end Consistent

end SolidityTree.Forest
