import SolidityTree.Proofs.DocumentationNodes
import SolidityTree.Proofs.Growth

/-!
# Invariants of a read

A read converts the root records of an output; then the passes convert the trees of Yul code that
new nodes embed, make documentation nodes, and mend what there is.  So what these conversions keep,
and a registration of a documentation node, and an edit that keeps kinds and records and puts only
documentation nodes into fields for documentation (`Forest.Redocuments`), holds of the forest
throughout (`Run.ReadInvariant`).

Main statement: `Run.ReadInvariant.wp_readUnits`.
-/

namespace SolidityTree

open Forest

/-- What a read of the roots into `f` keeps, step by step. -/
structure Run.ReadInvariant (config : Config) (roots : List Output.Root) (f : Forest)
    (I : Forest → Prop) : Prop where
  redocuments : ∀ {g h}, I g → Redocuments g h → I h
  documentation : ∀ {g h id src text}, I g →
    g.register (.fresh id src (.structuredDocumentation text) none) = .ok h → I h
  tree : ∀ {g k tree}, I g → ¬ f.contains k → g.kind? k = some .inlineAssembly →
    (g.raw? k).bind (·.get? "AST") = some tree →
    wp (convertRoot config .modern tree) (fun _ h => I h) (fun _ => True) g
  root : ∀ {g root schema}, I g → root ∈ roots → Schema.detect? root.record = some schema →
    wp (convertRoot config schema root.record) (fun _ h => I h) (fun _ => True) g

namespace Assembly

theorem redocuments_link (references : List ExternalReference) (k : NodeId) (g : Forest) :
    Redocuments g (g.modify k (link references)) := by
  refine (Redocuments.refl g).modify (fun n => ?_) fun n _ => ?_
  · rcases link_eq_mapPayload references n with hlink | ⟨target, hlink⟩
    · rw [hlink]
    · rw [hlink]
      rfl
  · rcases link_eq_mapPayload references n with hlink | ⟨target, hlink⟩
    · rw [hlink]
      exact ⟨rfl, fun _ hd => .inl hd⟩
    · rw [hlink]
      exact ⟨Attributes.kind_setReferenced target n.payload.attributes, fun _ hd => .inl hd⟩

end Assembly

namespace Run.ReadInvariant

variable {config : Config} {roots : List Output.Root} {f g h : Forest} {I : Forest → Prop}
  {id : NodeId} {n : Node}

theorem of_get? (hI : ReadInvariant config roots f I) (hg : I g)
    (hget : ∀ k, h.get? k = g.get? k) : I h := hI.redocuments hg (.of_get? hget)

theorem wp_redocuments (hI : ReadInvariant config roots f I) {run : Run Unit} (hg : I g)
    (hrun : Keeps (Redocuments g) run) : wp run (fun _ h => I h) (fun _ => True) g :=
  (hrun g (.refl g)).mono (fun _ _ => hI.redocuments hg) fun _ _ => trivial

/-! ### Passes -/

theorem wp_builtin (hI : ReadInvariant config roots f I) (hg : I g) :
    wp (Builtin.process id) (fun _ h => I h) (fun _ => True) g := by
  refine wp_bind (wp_ask (fun n _ => wp_bind (wp_get ?_)) trivial)
  split
  · exact wp_bind (wp_modify (wp_pure (hI.redocuments hg
      ((Redocuments.refl g).modifyPayload_of_slots
        (fun p => Attributes.kind_setReferenced _ p.attributes) fun _ => rfl))))
  · exact wp_pure hg

theorem wp_adopt (hI : ReadInvariant config roots f I) (hg : I g) (yul : NodeId) :
    wp (Assembly.adopt id yul) (fun _ h => I h) (fun _ => True) g := by
  refine wp_bind (wp_get ?_)
  split
  · exact wp_throw trivial
  · next references payload hexpand =>
    obtain ⟨m, hm, hexpand⟩ := Option.bind_eq_some_iff.1 hexpand
    refine wp_bind (wp_modify (wp_pure (hI.redocuments hg
      ((Redocuments.refl _).attach hm (Payload.attributes_expand? hexpand) fun d hd => .inl ?_))))
    rwa [Payload.documentationNode?_expand? hexpand] at hd

theorem wp_assembly (hI : ReadInvariant config roots f I) (hid : ¬ f.contains id) (hg : I g)
    (hn : g.get? id = some n) (hsupports : Assembly.pass.supports n) :
    wp (Assembly.process config id) (fun _ h => I h) (fun _ => True) g := by
  have hempty : n.payload.isUnexpanded := (Bool.and_eq_true_iff.1 hsupports).1
  rw [Payload.isUnexpanded, decide_eq_true_eq] at hempty
  refine wp_bind (wp_get ?_)
  split
  · exact wp_pure hg
  · next tree htree =>
    have hkind : g.begin.kind? id = some .inlineAssembly :=
      (kind?_of_get? hn).trans (congrArg some hempty.1)
    have hraw : (g.begin.raw? id).bind (·.get? "AST") = some tree := by
      rw [hn, Option.bind_some] at htree
      rw [raw?, show g.begin.get? id = some n from hn, Option.bind_some]
      exact htree
    have hconvert := hI.tree (hI.of_get? hg (h := g.begin) fun _ => rfl) hid hkind hraw
    refine wp_bind (wp_transaction (hconvert.mono (fun yul h hh => ?_) fun _ _ => trivial))
    have hcommit : I h.commit := hI.of_get? hh fun _ => get?_commit
    refine (hI.wp_adopt hcommit yul).andThen fun references g' hg' => wp_bind (wp_get ?_)
    have hlinks : Keeps I ((g'.walk yul).forM fun k =>
        modify (Forest.modify · k (Assembly.link references))) :=
      keeps_forM fun k _ g'' hg'' =>
        wp_modify (hI.redocuments hg'' (Assembly.redocuments_link references k g''))
    exact ((hlinks g' hg').mono (fun _ _ h => h) fun _ _ => trivial).andThen fun _ h hh => wp_pure hh

theorem wp_make (hI : ReadInvariant config roots f I) (hg : I g) (owner : NodeId)
    (found : Comments.Found) :
    wp (Comments.make owner found) (fun _ h => I h) (fun _ => True) g := by
  refine wp_bind (wp_get (wp_bind (wp_nextId (wp_register (fun h hregister => ?_) trivial))))
  have hnext : I g.nextId.2 := hI.of_get? hg fun _ => rfl
  exact hI.documentation hnext hregister

theorem wp_recoverPreceding (hI : ReadInvariant config roots f I) (hg : I g)
    (source : List Char) :
    wp (Comments.recoverPreceding source id) (fun _ h => I h) (fun _ => True) g := by
  refine wp_bind (wp_get ?_)
  split
  · exact wp_pure hg
  · split
    · exact wp_pure hg
    · next found _ =>
      refine (hI.wp_make hg id found).andThen fun doc h hh => ?_
      exact (hI.wp_redocuments hh (keeps_attachDocumentation_redocuments doc)).andThen
        fun _ h hh => wp_pure hh

theorem wp_recoverDangling (hI : ReadInvariant config roots f I) (hg : I g)
    (source : List Char) :
    wp (Comments.recoverDangling source id) (fun _ h => I h) (fun _ => True) g := by
  refine wp_bind (wp_ask (fun n _ => wp_bind (wp_get ?_)) trivial)
  split
  · exact wp_pure hg
  · split
    · exact wp_pure hg
    · next found _ =>
      refine (hI.wp_make hg id found).andThen fun doc h hh => ?_
      exact (hI.wp_redocuments hh (keeps_attachDangling_redocuments doc)).andThen
        fun _ h hh => wp_pure hh

theorem wp_comments (hI : ReadInvariant config roots f I) (hg : I g) :
    wp (Comments.process config id) (fun _ h => I h) (fun _ => True) g := by
  refine wp_bind (wp_get ?_)
  split
  · exact wp_pure hg
  · next source _ =>
    refine (hI.wp_recoverPreceding hg source).andThen fun _ g hg => ?_
    exact (hI.wp_recoverDangling hg source).andThen fun _ h hh => wp_pure hh

/-- A standard pass keeps the invariant when it mends a new node that it supports. -/
theorem wp_process (hI : ReadInvariant config roots f I) {p : Pass} (hp : p ∈ Pass.standard)
    (hid : ¬ f.contains id) (hg : I g) (hn : g.get? id = some n) (hsupports : p.supports n) :
    wp (p.process config id) (fun _ h => I h) (fun _ => True) g := by
  simp only [Pass.standard, List.mem_cons, List.not_mem_nil, or_false] at hp
  rcases hp with rfl | rfl | rfl
  · exact hI.wp_assembly hid hg hn hsupports
  · exact hI.wp_builtin hg
  · exact hI.wp_comments hg

/-! ### Units -/

open Output

theorem wp_readRoot (hI : ReadInvariant config roots f I) {root : Root} (hroot : root ∈ roots)
    (hg : I g) : wp (readRoot config root) (fun _ h => I h) (fun _ => True) g := by
  unfold readRoot
  split
  · exact wp_throw trivial
  · next schema hschema =>
    refine (hI.root hg hroot hschema).andThen fun id h hh => wp_bind (wp_get ?_)
    dsimp only
    split
    · exact wp_bind (wp_throw trivial)
    · exact wp_bind (wp_modify (wp_pure (hI.redocuments hh
        ((Redocuments.refl h).modifyPayload_of_slots
          (fun p => Attributes.kind_mapUnit (placed root) p.attributes) fun _ => rfl))))

theorem wp_readRoots (hI : ReadInvariant config roots f I) {some : List Root}
    (hsome : some ⊆ roots) (hg : I g) :
    wp (readRoots config some) (fun _ h => I h) (fun _ => True) g := by
  induction some generalizing g with
  | nil => exact wp_pure hg
  | cons root rest ih =>
    obtain ⟨hroot, hrest⟩ := List.cons_subset.1 hsome
    refine (hI.wp_readRoot hroot hg).andThen fun id h hh => ?_
    exact (ih hrest hh).andThen fun ids h' hh' => wp_pure hh'

/-- **What every step of a read keeps** holds in the end, if it holds in the beginning. -/
theorem wp_readUnits (hI : ReadInvariant config roots f I) (hf : I f.begin) :
    wp (readUnits config roots) (fun _ h => I h) (fun _ => True) f.begin := by
  have hextends := (Run.wp_readRoots config roots (extends_begin f)).mono (fun _ _ h => h)
    fun _ _ => trivial
  have hread := hextends.and (hI.wp_readRoots (List.Subset.refl roots) hf)
  refine (hread.mono (fun _ _ h => h) fun _ _ => trivial).andThen
    fun ids g ⟨⟨hg, hids⟩, hkept⟩ => wp_bind (wp_get ?_)
  dsimp only
  split
  · -- the nodes that the passes come to are new ones
    refine wp.andThen (P := fun _ h => Extends f h ∧ I h) ?_ fun _ h hh => wp_pure hh.2
    refine Pass.wp_runAll_of (S := fun k => ¬ f.contains k)
      (fun g hg u hu k hk => hg.1.not_contains_of_mem_walk hu hk) (fun p hp k hk g n hg hn hn' => ?_)
      (fun u hu => hids u (List.mem_mergeSort.1 hu)) ⟨hg, hkept⟩
    have hmends := Pass.mendsNew_standard p hp (E := fun _ => True) config
      ⟨fun _ => trivial, fun _ _ => trivial⟩ hk g hg.1
    exact (hmends.and (hI.wp_process hp hk hg.2 hn hn')).mono (fun _ _ h => h) fun _ _ => trivial
  · exact wp_pure hkept

/-- So it does when the whole read has succeeded. -/
theorem of_read {output : Json} {units : List NodeId} (h : read config output f = .ok units g)
    (hI : ∀ roots, Output.roots output = .ok roots → ReadInvariant config roots f I)
    (hf : I f.begin) : I g := by
  have hread : wp (read config output) (fun _ g => I g) (fun _ => True) f := by
    refine wp_bind (wp_ask (fun roots hroots => wp_transaction ?_) trivial)
    exact ((hI roots hroots).wp_readUnits hf).mono
      (fun _ _ hg => (hI roots hroots).of_get? hg fun _ => get?_commit) fun _ _ => trivial
  exact wp_ok hread h

end Run.ReadInvariant

end SolidityTree
