import SolidityTree.Proofs.Clearing
import SolidityTree.Proofs.Comments

/-!
# When the passes are idempotent

A read lets the standard passes go over its units.  Once they have, there is no lost reference left,
and every node is settled as far as comments go (`Forest.Finished`).  So if they go over the units
once more, there are two ways in which they can still act: inline assembly may have come to the
trees with the Yul code of other inline assembly, after the walk was taken, and comments may be
overlooked (`Run.postprocess_read_eq_self_iff`).
-/

namespace SolidityTree

open Forest

variable {f g h : Forest} {j k u : NodeId} {config : Config} {units : List NodeId}

/-! ### References -/

namespace Builtin

/-- The reference of a node is not lost. -/
def Cleared (f : Forest) (k : NodeId) : Prop :=
  ∀ n, f.get? k = some n → n.payload.attributes.referenced?.any (isLost f) = false

theorem visit_eq_self (h : Cleared g k) : pass.visit config k g = .ok () g := by
  refine Run.eq_ok_of_wp (Run.wp_bind (Run.wp_get ?_))
  split
  · next hsupports =>
    obtain ⟨n, hn, -⟩ := (Option.any_eq_true _ _).1 hsupports
    refine Run.wp.andThen (P := fun _ h => h = g) ?_ fun _ h hh => Run.wp_pure hh
    refine Run.wp_bind (Run.wp_ask_of_ok (node_eq_ok.2 hn) (Run.wp_bind (Run.wp_get ?_)))
    rw [h n hn]
    exact Run.wp_pure rfl
  · exact Run.wp_pure rfl

theorem settles (config : Config) : pass.Settles config SameTrees Cleared where
  refl _ := .of_get? rfl fun _ => rfl
  trans := .trans
  retains hf hfg := .of_sameTrees hfg hf
  new {f g j} hfg hnew n hn := absurd (hfg.contains_iff.1 (contains_iff_get?.2 ⟨n, hn⟩)) hnew
  visit {f k} _ := by
    refine (wp_visit_clears k).mono (fun _ g hclears => ?_) fun _ => False.elim
    refine ⟨hclears.sameTrees, fun n hn => ?_, fun j _ hjk hj n hn => ?_⟩
    · rw [hclears.get?_eq, if_pos (List.mem_singleton_self k)] at hn
      obtain ⟨m, -, rfl⟩ := Option.map_eq_some_iff.1 hn
      rw [hclears.isLost_eq]
      exact any_isLost_clear
    · have hne : j ≠ k := by
        rintro rfl
        exact hjk .refl
      rw [hclears.get?_eq, if_neg (mt List.mem_singleton.1 hne)] at hn
      rw [hclears.isLost_eq]
      exact hj n hn

/-- Documentation nodes have no references, and the old nodes are all there. -/
theorem Cleared.annotates (hfg : Comments.Annotates f g) (h : f.contains k → Cleared f k) :
    Cleared g k := by
  intro m hm
  by_cases hk : f.contains k
  · obtain ⟨n, hn⟩ := contains_iff_get?.1 hk
    obtain ⟨payload, hattributes, hn'⟩ := hfg.get?_eq hn
    obtain rfl := Option.some.inj (hn'.symm.trans hm)
    have hold := h hk n hn
    show payload.attributes.referenced?.any _ = false
    rw [hattributes]
    cases hreference : n.payload.attributes.referenced? with
    | none => rfl
    | some reference =>
      rw [hreference, Option.any_some, isLost, Bool.and_eq_false_iff] at hold
      rw [Option.any_some, isLost, Bool.and_eq_false_iff]
      refine hold.imp_right fun hreg => ?_
      rw [Bool.not_eq_false'] at hreg ⊢
      exact hfg.contains_of_contains hreg
  · have hkind : m.payload.attributes.kind = .structuredDocumentation := hfg.new hm hk
    revert hkind
    cases m.payload.attributes <;> intro hkind <;> cases hkind
    rfl

end Builtin

/-! ### Inline assembly -/

namespace Assembly

/-- Inline assembly comes with a tree that has not become a child of it. -/
def Unexpanded (f : Forest) (k : NodeId) : Prop := (f.get? k).any pass.supports

theorem wp_visit_makes (hg : g.Consistent) (hacts : Unexpanded g k) :
    Run.wp (pass.visit config k) (fun _ h => ∃ j, h.contains j ∧ ¬ g.contains j)
      (fun _ => True) g := by
  unfold Unexpanded at hacts
  obtain ⟨n, hn, hsupports⟩ := (Option.any_eq_true _ _).1 hacts
  obtain ⟨tree, htree, -⟩ := (Option.any_eq_true _ _).1 (Bool.and_eq_true_iff.1 hsupports).2
  refine Run.wp_bind (Run.wp_get ?_)
  rw [if_pos hacts]
  refine Run.wp.andThen (P := fun _ h => ∃ j, h.contains j ∧ ¬ g.contains j) ?_
    fun _ h hh => Run.wp_pure hh
  refine Run.wp_bind (Run.wp_get ?_)
  rw [hn, Option.bind_some, htree]
  -- the root of the converted tree is new, and stays
  have hconvert : Run.wp (Run.transaction (Run.convertRoot config .modern tree))
      (fun yul h => h.contains yul ∧ ¬ g.contains yul) (fun _ => True) g := by
    have hbegin : Grown True g g.begin [] := (grown_self hg).sameTrees (.of_get? rfl fun _ => rfl)
    refine Run.wp_transaction ((Run.wp_convert_grown config (fun _ => rfl) config.maxDepth tree
      hbegin).mono (fun yul h hh => ?_) fun _ _ => trivial)
    obtain ⟨hyul, hnew, -⟩ := hh.root List.mem_cons_self
    exact ⟨contains_commit.trans hyul, hnew⟩
  refine hconvert.andThen fun yul h ⟨hyul, hnew⟩ => ?_
  have hadopt : Run.Keeps (fun h => h.contains yul) (adopt k yul) := fun h hh => by
    refine Run.wp_bind (Run.wp_get ?_)
    split
    · exact Run.wp_throw hh
    · exact Run.wp_bind (Run.wp_modify (Run.wp_pure ((SameNodes.attach _ _ _ _).contains_iff.2 hh)))
  refine ((hadopt h hyul).mono (fun _ _ h => h) fun _ _ => trivial).andThen fun references h hyul => ?_
  refine Run.wp_bind (Run.wp_get ?_)
  have hlinks : Run.Keeps (fun h => h.contains yul) ((h.walk yul).forM fun k =>
      modify (Forest.modify · k (link references))) :=
    Run.keeps_forM fun k _ h hh => Run.wp_modify ((contains_modify _).trans hh)
  exact ((hlinks h hyul).mono (fun _ _ h => h) fun _ _ => trivial).andThen fun _ h hyul =>
    Run.wp_pure ⟨yul, hyul, hnew⟩

theorem actsWhere (config : Config) : pass.ActsWhere config Unexpanded where
  idle {g k} hidle := by
    unfold Unexpanded at hidle
    refine Run.eq_ok_of_wp (Run.wp_bind (Run.wp_get ?_))
    rw [if_neg hidle]
    exact Run.wp_pure rfl
  makes := wp_visit_makes

end Assembly

/-! ### The standard passes -/

/-- What the standard passes leave behind in the trees of units. -/
structure Forest.Finished (config : Config) (units : List NodeId) (g : Forest) : Prop where
  consistent : g.Consistent
  cleared : ∀ u ∈ units, ∀ k ∈ g.walk u, Builtin.Cleared g k
  settled : ∀ u ∈ units, ∀ k ∈ g.walk u, Comments.Settled config g k

namespace Run

open Output

/-- The passes after the expansion of inline assembly succeed. -/
theorem wp_lastPasses_finished {whole : Prop} (hg : Grown whole f g units) :
    wp (Pass.runAll [Builtin.pass, Comments.pass] config units) (fun _ h => Finished config units h)
      (fun _ => False) g := by
  have hroots : ∀ {h}, SameTrees g h → ∀ u ∈ units, h.contains u ∧ h.parent? u = none :=
    fun hgh u hu => by
      rw [hgh.contains_iff, hgh.parent?_eq]
      exact ⟨(hg.root hu).1, (hg.root hu).2.2⟩
  refine ((Builtin.settles config).wp_run hg.consistent hg.nodup
    (hroots (.of_get? rfl fun _ => rfl))).andThen fun _ h ⟨hgh, hcleared⟩ => ?_
  have hh := hgh.consistent hg.consistent
  refine ((Comments.settles config).wp_run hh hg.nodup (hroots hgh)).andThen
    fun _ h' ⟨hannotates, hsettled⟩ => wp_pure ⟨hannotates.consistent, fun u hu k hk => ?_, hsettled⟩
  exact .annotates hannotates fun hreg =>
    hcleared u hu k (hannotates.retains.mem_walk hh hreg hk)

theorem wp_postprocess_finished {whole : Prop} (hg : Grown whole f g units) :
    wp (postprocess config units) (fun _ h => Finished config units h) (fun _ => True) g := by
  refine (Pass.wp_run_mended Assembly.mendsGrown config units hg).andThen fun _ h hh => ?_
  exact (wp_lastPasses_finished hh.grown).mono (fun _ _ h => h) fun _ hE => hE.elim

/-- Where the standard passes have been, they change nothing only if neither inline assembly nor a
comment is left to them. -/
theorem postprocess_eq_self_iff (hg : g.Finished config units) :
    postprocess config units g = .ok () g ↔ ∀ u ∈ units, ∀ k ∈ g.walk u,
      ¬ Assembly.Unexpanded g k ∧ ¬ Comments.Overlooked config g k := by
  have hbuiltin : Builtin.pass.run config units g = .ok () g := by
    refine forM_eq_self fun u hu => ?_
    show ((g.walk u).forM (Builtin.pass.visit config)) g = .ok () g
    exact forM_eq_self fun k hk => Builtin.visit_eq_self (hg.cleared u hu k hk)
  have hcomments : Pass.runAll [Comments.pass] config units g = .ok () g ↔
      ∀ u ∈ units, ∀ k ∈ g.walk u, ¬ Comments.Overlooked config g k := by
    have hnil : Pass.runAll [] config units g = .ok () g := rfl
    rw [(Comments.actsWhere config).runAll_cons_iff Comments.mendsGrown (by simp) hg.consistent,
      and_iff_left hnil, (Comments.actsWhere config).run_iff Comments.mendsGrown hg.consistent]
    refine forall₂_congr fun u hu => forall₂_congr fun k hk => not_congr ?_
    exact (hg.settled u hu k hk).acts_iff
  have hlast : Pass.runAll [Builtin.pass, Comments.pass] config units g = .ok () g ↔
      Pass.runAll [Comments.pass] config units g = .ok () g := by
    constructor
    · intro h
      obtain ⟨⟨⟩, h', hfirst, hsecond⟩ := bind_eq_ok.1 h
      have hfirst : Builtin.pass.run config units g = .ok () h' := hfirst
      rw [hbuiltin] at hfirst
      cases hfirst
      exact hsecond
    · exact fun h => bind_eq_ok.2 ⟨(), g, hbuiltin, h⟩
  have hmends : ∀ p ∈ [Builtin.pass, Comments.pass], p.MendsGrown := fun p hp =>
    Pass.mendsGrown_standard p (List.mem_cons_of_mem _ hp)
  show Pass.runAll [Assembly.pass, Builtin.pass, Comments.pass] config units g = .ok () g ↔ _
  rw [(Assembly.actsWhere config).runAll_cons_iff Assembly.mendsGrown hmends hg.consistent,
    (Assembly.actsWhere config).run_iff Assembly.mendsGrown hg.consistent, hlast, hcomments]
  simp only [forall_and]

/-- The end of a transaction leaves the nodes as they are. -/
theorem finished_commit (hg : g.Finished config units) : g.commit.Finished config units := by
  have hannotates : Comments.Annotates g g.commit :=
    { consistent := hg.consistent.of_get? id_commit fun _ => get?_commit
      get?_eq := fun {k n} hk => ⟨n.payload, rfl, get?_commit.trans hk⟩
      new := fun {k n} hk hnew =>
        absurd (contains_commit.symm.trans (contains_iff_get?.2 ⟨n, hk⟩)) hnew }
  have hold : ∀ {u k}, k ∈ g.commit.walk u → g.contains k ∧ k ∈ g.walk u := fun {u k} hk => by
    have hreg := contains_commit.symm.trans (contains_of_mem_walkWithin hk)
    exact ⟨hreg, hannotates.retains.mem_walk hg.consistent hreg hk⟩
  refine ⟨hannotates.consistent, fun u hu k hk => ?_, fun u hu k hk => ?_⟩
  · exact .annotates hannotates fun _ => hg.cleared u hu k (hold hk).2
  · exact hannotates.settled hg.consistent (hold hk).1 get?_commit (fun _ _ => get?_commit)
      (hg.settled u hu k (hold hk).2)

/-- **Going over the units of a read once more** changes nothing exactly if no node of theirs is
inline assembly that the read has left unexpanded, as it does inside the Yul code of other inline
assembly, or a container with a comment that is overlooked. -/
theorem postprocess_read_eq_self_iff (hf : f.Consistent) (hpasses : config.postprocess)
    {output : Json} (h : read config output f = .ok units g) :
    postprocess config units g = .ok () g ↔ ∀ u ∈ units, ∀ k ∈ g.walk u,
      ¬ Assembly.Unexpanded g k ∧ ¬ Comments.Overlooked config g k := by
  have hread : wp (read config output) (fun units g => g.Finished config units) (fun _ => True) f := by
    refine wp_bind (wp_ask (fun rs _ => wp_transaction ?_) trivial)
    have hbegin : Grown False f f.begin [] := grown_begin hf
    refine (wp_readRoots_grown config rs False.elim hbegin).andThen
      fun ids g ⟨hg, _⟩ => wp_bind (wp_get ?_)
    have hperm := List.mergeSort_perm ids fun a b => placeOf g a ≤ placeOf g b
    rw [if_pos hpasses]
    exact (wp_postprocess_finished (hg.perm hperm)).andThen fun _ h hh => wp_pure (finished_commit hh)
  exact postprocess_eq_self_iff (wp_ok hread h)

/-- A unit with inline assembly inside the Yul code of inline assembly. -/
def nestedAssembly : Json :=
  .object [("nodeType", .string "SourceUnit"), ("nodes", .array
    [.object [("nodeType", .string "InlineAssembly"),
      ("AST", .object [("nodeType", .string "YulBlock"), ("statements", .array
        [.object [("nodeType", .string "InlineAssembly"),
          ("AST", .object [("nodeType", .string "YulBlock")])]])])]])]

/-- The inner assembly is still to be expanded after the read. -/
theorem postprocess_nestedAssembly_ne :
    (empty 0).Consistent ∧ Config.standard.postprocess ∧
      ∃ g, read .standard nestedAssembly (empty 0) = .ok [1] g ∧
        postprocess .standard [1] g ≠ .ok () g := by
  have hread : read .standard nestedAssembly =
      transaction (readUnits .standard [Root.ofRecord nestedAssembly]) := read_eq_transaction rfl
  have hends : seen? (read .standard nestedAssembly)
      (fun units g => (units, (g.walk 1).contains 4, (g.get? 4).any Assembly.pass.supports))
      (empty 0) = some ([1], true, true) := by
    rw [hread, readUnits_singleton]
    decide +kernel
  obtain ⟨units, g, h, hview⟩ := seen?_eq_some hends
  obtain ⟨rfl, hrest⟩ := Prod.mk.inj hview
  obtain ⟨hwalk, hunexpanded⟩ := Prod.mk.inj hrest
  refine ⟨consistent_empty 0, rfl, g, h, ?_⟩
  rw [ne_eq, postprocess_read_eq_self_iff (consistent_empty 0) rfl h]
  intro hidle
  exact (hidle 1 List.mem_cons_self 4 (List.contains_iff_mem.1 hwalk)).1 hunexpanded

end Run

end SolidityTree
