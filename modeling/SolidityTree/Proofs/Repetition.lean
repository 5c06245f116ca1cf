import SolidityTree.Proofs.Growth

/-!
# Passes that run again

When passes go over trees once more, nothing changes only if no single visit does anything.  So two
things are to be known of a pass.  One is where it acts: there it makes new nodes, so the loops over
units and over nodes cannot come back to the forest that they began with (`Pass.ActsWhere.run_iff`).
The other is what holds of a node from its visit on (`Pass.Settles`).  A visit may change the node
itself and what its children see of it, and since a walk comes to parents before their children, the
later visits spoil nothing (`Pass.Settles.wp_run`).
-/

namespace SolidityTree

open Forest

variable {f g : Forest} {a j k u : NodeId}

namespace Forest

/-! ### Nodes that stay in their places -/

/-- The nodes of the first forest are in the second one, below the same parents. -/
structure Retains (f g : Forest) : Prop where
  consistent : g.Consistent
  contains_of_contains : ∀ {k}, f.contains k → g.contains k
  parent?_eq : ∀ {k}, f.contains k → g.parent? k = f.parent? k

namespace Retains

/-- Above an old node there are the same nodes as before. -/
theorem reaches_iff (hfg : Retains f g) (hf : f.Consistent) (hk : f.contains k) :
    g.Reaches k a ↔ f.Reaches k a := by
  constructor
  · intro h
    have hup : f.Reaches k a ∧ f.contains a := by
      induction h with
      | refl => exact ⟨.refl, hk⟩
      | tail _ hp ih =>
        rw [hfg.parent?_eq ih.2] at hp
        exact ⟨ih.1.tail hp, hf.contains_parent hp⟩
    exact hup.1
  · intro h
    have hup : g.Reaches k a ∧ f.contains a := by
      induction h with
      | refl => exact ⟨.refl, hk⟩
      | tail _ hp ih =>
        have hp' := hp
        rw [← hfg.parent?_eq ih.2] at hp'
        exact ⟨ih.1.tail hp', hf.contains_parent hp⟩
    exact hup.1

/-- An old node is in the tree of the same root. -/
theorem root_eq (hfg : Retains f g) (hf : f.Consistent) (hk : f.contains k) :
    g.root k = f.root k := by
  obtain ⟨hreach, hroot⟩ := hf.root_spec hk
  refine hfg.consistent.root_eq (hfg.contains_of_contains hk) ((hfg.reaches_iff hf hk).2 hreach) ?_
  rw [hfg.parent?_eq (hf.contains_of_reaches hk hreach), hroot]

theorem mem_walk (hfg : Retains f g) (hf : f.Consistent) (hk : f.contains k)
    (hmem : k ∈ g.walk u) : k ∈ f.walk u :=
  hf.mem_walk_iff.2 ⟨hk, (hfg.reaches_iff hf hk).1 (hfg.consistent.mem_walk_iff.1 hmem).2⟩

theorem of_sameTrees (hfg : SameTrees f g) (hf : f.Consistent) : Retains f g where
  consistent := hfg.consistent hf
  contains_of_contains hk := hfg.contains_iff.2 hk
  parent?_eq _ := hfg.parent?_eq _

end Retains

/-! ### Forests that have become larger -/

/-- The second forest is the first one, or it has all its nodes and one more. -/
def Enlarges (f g : Forest) : Prop :=
  g = f ∨ (∀ k, f.contains k → g.contains k) ∧ ∃ k, g.contains k ∧ ¬ f.contains k

namespace Enlarges

theorem refl (f : Forest) : Enlarges f f := .inl rfl

theorem contains_of_contains (hfg : Enlarges f g) (hk : f.contains k) : g.contains k := by
  rcases hfg with rfl | ⟨hsub, -⟩
  · exact hk
  · exact hsub k hk

theorem trans (hfg : Enlarges f g) (hgh : Enlarges g h) : Enlarges f h := by
  rcases hfg with rfl | ⟨hsub, k, hk, hnew⟩
  · exact hgh
  · exact .inr ⟨fun j hj => hgh.contains_of_contains (hsub j hj), k, hgh.contains_of_contains hk, hnew⟩

theorem antisymm (hfg : Enlarges f g) (hgf : Enlarges g f) : f = g := by
  rcases hfg with rfl | ⟨-, k, hk, hnew⟩
  · rfl
  · exact absurd (hgf.contains_of_contains hk) hnew

end Enlarges

end Forest

open Run

namespace Pass

variable {p : Pass} {config : Config} {units : List NodeId}

/-! ### Where a pass acts -/

/-- The pass does nothing to a node where `A` does not hold, and makes a new node where it does. -/
structure ActsWhere (p : Pass) (config : Config) (A : Forest → NodeId → Prop) : Prop where
  idle : ∀ {g k}, ¬ A g k → p.visit config k g = .ok () g
  makes : ∀ {g k}, g.Consistent → A g k →
    wp (p.visit config k) (fun _ h => ∃ j, h.contains j ∧ ¬ g.contains j) (fun _ => True) g

namespace ActsWhere

variable {A : Forest → NodeId → Prop}

theorem visit_iff (hA : p.ActsWhere config A) (hg : g.Consistent) :
    p.visit config k g = .ok () g ↔ ¬ A g k := by
  refine ⟨fun h hacts => ?_, hA.idle⟩
  obtain ⟨j, hj, hnew⟩ := wp_ok (hA.makes hg hacts) h
  exact hnew hj

theorem wp_visit_enlarges (hA : p.ActsWhere config A) (hp : p.MendsGrown) (hg : g.Consistent) :
    wp (p.visit config k) (fun _ h => h.Consistent ∧ Enlarges g h) (fun _ => True) g := by
  have hmended : wp (p.visit config k) (fun _ h => Mended True g [] g h) (fun _ => True) g :=
    wp_visit_mended hp config (grown_self hg)
  by_cases hacts : A g k
  · refine (hmended.and (hA.makes hg hacts)).mono (fun _ h ⟨hh, hnew⟩ => ?_) fun _ _ => trivial
    exact ⟨hh.grown.consistent, .inr ⟨fun j hj => hh.contains_of_contains hj, hnew⟩⟩
  · rw [wp, hA.idle hacts]
    exact ⟨hg, .refl g⟩

theorem wp_run_enlarges (hA : p.ActsWhere config A) (hp : p.MendsGrown) (hg : g.Consistent) :
    wp (p.run config units) (fun _ h => h.Consistent ∧ Enlarges g h) (fun _ => True) g := by
  refine wp_forM (fun u _ h ⟨hh, hgh⟩ => wp_bind (wp_get ?_)) ⟨hg, .refl g⟩
  refine wp_forM (fun k _ h ⟨hh, hgh⟩ => ?_) ⟨hh, hgh⟩
  exact (hA.wp_visit_enlarges hp hh).mono (fun _ h' ⟨hh', hhh'⟩ => ⟨hh', hgh.trans hhh'⟩) fun _ h => h

/-- A pass that goes over a list of nodes. -/
theorem forM_iff (hA : p.ActsWhere config A) (hp : p.MendsGrown) (hg : g.Consistent)
    (ids : List NodeId) : ids.forM (p.visit config) g = .ok () g ↔ ∀ k ∈ ids, ¬ A g k := by
  rw [forM_eq_self_iff Enlarges.refl Enlarges.trans Enlarges.antisymm
    (fun _ _ _ hf => hA.wp_visit_enlarges hp hf) hg]
  simp only [hA.visit_iff hg]

/-- **A pass changes nothing in the trees of units** only if it acts on no node of them. -/
theorem run_iff (hA : p.ActsWhere config A) (hp : p.MendsGrown) (hg : g.Consistent) :
    p.run config units g = .ok () g ↔ ∀ u ∈ units, ∀ k ∈ g.walk u, ¬ A g k := by
  have hunit : ∀ u ∈ units, ∀ f, f.Consistent →
      wp (do let tree := (← get).walk u; tree.forM (p.visit config))
        (fun _ g => g.Consistent ∧ Enlarges f g) (fun _ => True) f := by
    intro u _ f hf
    refine wp_bind (wp_get (wp_forM (fun k _ g ⟨hg, hfg⟩ => ?_) ⟨hf, .refl f⟩))
    exact (hA.wp_visit_enlarges hp hg).mono (fun _ h ⟨hh, hgh⟩ => ⟨hh, hfg.trans hgh⟩) fun _ h => h
  rw [run, forM_eq_self_iff Enlarges.refl Enlarges.trans Enlarges.antisymm hunit hg]
  exact forall₂_congr fun u _ => hA.forM_iff hp hg (g.walk u)

/-- The passes after the first one cannot undo what it does. -/
theorem runAll_cons_iff (hA : p.ActsWhere config A) (hp : p.MendsGrown) {rest : List Pass}
    (hrest : ∀ q ∈ rest, q.MendsGrown) (hg : g.Consistent) :
    runAll (p :: rest) config units g = .ok () g ↔
      p.run config units g = .ok () g ∧ runAll rest config units g = .ok () g := by
  constructor
  · intro h
    obtain ⟨⟨⟩, h, hfirst, hsecond⟩ := bind_eq_ok.1 h
    obtain ⟨hh, hgh⟩ := wp_ok (hA.wp_run_enlarges hp hg) hfirst
    have hself : Grown True h h [] := grown_self hh
    have hback := wp_ok (wp_runAll_mended hrest config units hself) hsecond
    obtain rfl : h = g := by
      rcases hgh with heq | ⟨-, k, hk, hnew⟩
      · exact heq
      · exact absurd (hback.contains_of_contains hk) hnew
    exact ⟨hfirst, hsecond⟩
  · rintro ⟨hfirst, hsecond⟩
    exact bind_eq_ok.2 ⟨(), g, hfirst, hsecond⟩

end ActsWhere

/-! ### What a pass leaves behind -/

/-- Visits succeed, and lead from a forest `f` to forests `g` with `I f g`.  From its visit on `P`
holds of a node: only a visit of the node or of one above it could spoil that, and of nodes that
come to the forest `P` holds anyway. -/
structure Settles (p : Pass) (config : Config) (I : Forest → Forest → Prop)
    (P : Forest → NodeId → Prop) : Prop where
  refl : ∀ {f}, f.Consistent → I f f
  trans : ∀ {f g h}, I f g → I g h → I f h
  retains : ∀ {f g}, f.Consistent → I f g → Retains f g
  new : ∀ {f g j}, I f g → ¬ f.contains j → P g j
  visit : ∀ {f k}, f.Consistent → wp (p.visit config k)
    (fun _ g => I f g ∧ P g k ∧ ∀ j, f.contains j → ¬ f.Reaches j k → P f j → P g j)
    (fun _ => False) f

namespace Settles

variable {I : Forest → Forest → Prop} {P : Forest → NodeId → Prop}

/-- What holds in the whole tree of a unit still does if it does of the old nodes in it. -/
theorem mem_walk (hp : p.Settles config I P) (hf : f.Consistent) (hfg : I f g)
    (hP : ∀ k ∈ f.walk u, P g k) : ∀ k ∈ g.walk u, P g k := by
  intro k hk
  by_cases hold : f.contains k
  · exact hP k ((hp.retains hf hfg).mem_walk hf hold hk)
  · exact hp.new hfg hold

/-- The pass goes over one tree. -/
theorem wp_walk (hp : p.Settles config I P) (hf : f.Consistent) (u : NodeId) :
    wp ((f.walk u).forM (p.visit config)) (fun _ g => I f g ∧ (∀ k ∈ g.walk u, P g k) ∧
      ∀ j, f.contains j → (∀ k ∈ f.walk u, ¬ f.Reaches j k) → P f j → P g j) (fun _ => False) f := by
  have hvisit : ∀ k ∈ f.walk u, ∀ g, I f g → wp (p.visit config k) (fun _ h => I f h ∧ P h k ∧
      ∀ j, f.contains j ∧ ¬ f.Reaches j k → P g j → P h j) (fun _ => False) g := by
    intro k _ g hfg
    have hretains := hp.retains hf hfg
    refine (hp.visit hretains.consistent).mono (fun _ h ⟨hgh, hk, hkeep⟩ => ⟨hp.trans hfg hgh, hk, ?_⟩)
      fun _ h => h
    rintro j ⟨hj, hjk⟩ hPj
    refine hkeep j (hretains.contains_of_contains hj) ?_ hPj
    rwa [hretains.reaches_iff hf hj]
  have horder : (f.walk u).Pairwise fun j k => f.contains j ∧ ¬ f.Reaches j k :=
    (hf.pairwise_walk u).imp_of_mem fun hj _ hjk => ⟨(hf.mem_walk_iff.1 hj).1, hjk⟩
  refine (wp_forM_pairwise (P := fun k g => P g k) hvisit horder (hp.refl hf)).mono
    (fun _ g ⟨hfg, htree, hkeep⟩ => ⟨hfg, hp.mem_walk hf hfg htree, ?_⟩) fun _ h => h
  exact fun j hj habove => hkeep j fun k hk => ⟨hj, habove k hk⟩

/-- **A pass succeeds, and then all trees that it went over are settled.** -/
theorem wp_run (hp : p.Settles config I P) (hf : f.Consistent) (hnodup : units.Nodup)
    (hroots : ∀ u ∈ units, f.contains u ∧ f.parent? u = none) :
    wp (p.run config units) (fun _ g => I f g ∧ ∀ u ∈ units, ∀ k ∈ g.walk u, P g k)
      (fun _ => False) f := by
  have hunit : ∀ u ∈ units, ∀ g, I f g →
      wp (do let tree := (← get).walk u; tree.forM (p.visit config))
        (fun _ h => I f h ∧ (∀ k ∈ h.walk u, P h k) ∧ ∀ v, (v ∈ units ∧ u ∈ units) ∧ v ≠ u →
          (∀ k ∈ g.walk v, P g k) → ∀ k ∈ h.walk v, P h k) (fun _ => False) g := by
    intro u _ g hfg
    have hretains := hp.retains hf hfg
    have hg := hretains.consistent
    have hroot : ∀ v ∈ units, g.parent? v = none := fun v hv => by
      rw [hretains.parent?_eq (hroots v hv).1, (hroots v hv).2]
    refine wp_bind (wp_get ((hp.wp_walk hg u).mono
      (fun _ h ⟨hgh, htree, hkeep⟩ => ⟨hp.trans hfg hgh, htree, ?_⟩) fun _ h => h))
    rintro v ⟨⟨hv, hu⟩, hne⟩ hPv
    refine hp.mem_walk hg hgh fun k hk => ?_
    obtain ⟨hreg, hkv⟩ := hg.mem_walk_iff.1 hk
    -- the node is in the tree of another root than those that were visited
    refine hkeep k hreg (fun i hi hki => ?_) (hPv k hk)
    have hku : g.Reaches k u := hki.trans (hg.mem_walk_iff.1 hi).2
    exact hne (hkv.root_unique hku (hroot v hv) (hroot u hu))
  have horder : units.Pairwise fun v u => (v ∈ units ∧ u ∈ units) ∧ v ≠ u :=
    hnodup.imp_of_mem fun hv hu hne => ⟨⟨hv, hu⟩, hne⟩
  refine (wp_forM_pairwise (P := fun u g => ∀ k ∈ g.walk u, P g k) hunit horder (hp.refl hf)).mono
    (fun _ g ⟨hfg, htrees, _⟩ => ⟨hfg, htrees⟩) fun _ h => h

end Settles

end Pass

end SolidityTree
