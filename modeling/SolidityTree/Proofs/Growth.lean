import SolidityTree.Proofs.Reading
import SolidityTree.Proofs.Recovery
import SolidityTree.Proofs.Trees

/-!
# A read adds whole trees

A forest has grown from an older one with some roots (`Forest.Grown`) if it is consistent and the
roots are new nodes without parent; where nothing may be lost on the way, they are all of them.
Conversion of a record adds one root, since the registered node adopts the roots that the records
below it have become (`Run.wp_convert_grown`).  A pass makes new nodes and attaches them, so it adds
none (`Pass.wp_visit_mended`).

Main statement: `Run.read_grows`.
-/

namespace SolidityTree

namespace Forest

variable {f g h : Forest} {id k p c : NodeId} {whole : Prop} {roots ids : List NodeId}

/-! ### The same trees -/

/-- The same nodes with the same children and parents. -/
structure SameTrees (g h : Forest) : Prop where
  id_eq : h.id = g.id
  stamp?_eq : ∀ k, h.stamp? k = g.stamp? k
  children_eq : ∀ k, h.children k = g.children k
  parent?_eq : ∀ k, h.parent? k = g.parent? k

namespace SameTrees

theorem trans {h' : Forest} (hgh : SameTrees g h) (hhh : SameTrees h h') : SameTrees g h' where
  id_eq := hhh.id_eq.trans hgh.id_eq
  stamp?_eq k := (hhh.stamp?_eq k).trans (hgh.stamp?_eq k)
  children_eq k := (hhh.children_eq k).trans (hgh.children_eq k)
  parent?_eq k := (hhh.parent?_eq k).trans (hgh.parent?_eq k)

theorem of_get? (hid : h.id = g.id) (hget : ∀ k, h.get? k = g.get? k) : SameTrees g h where
  id_eq := hid
  stamp?_eq k := by rw [stamp?, hget, stamp?]
  children_eq k := by rw [children, hget, children]
  parent?_eq k := by rw [parent?, hget, parent?]

theorem modifyPayload {change : Payload → Payload}
    (hchildren : ∀ n, g.get? id = some n → (change n.payload).children = n.children) :
    SameTrees g (g.modifyPayload id change) where
  id_eq := rfl
  stamp?_eq _ := stamp?_modifyPayload change
  children_eq _ := children_modifyPayload_of_eq hchildren
  parent?_eq _ := parent?_modifyPayload change

theorem contains_iff (hgh : SameTrees g h) : h.contains k ↔ g.contains k := by
  rw [contains_iff_stamp?, contains_iff_stamp?, hgh.stamp?_eq]

theorem consistent (hgh : SameTrees g h) (hg : g.Consistent) : h.Consistent := by
  refine .of_views (fun k s hs => ?_) (fun c p => ?_) (fun p => ?_) ?_
  · rw [hgh.stamp?_eq] at hs
    rw [hg.eq_of_stamp? hs, hgh.id_eq]
  · rw [hgh.children_eq, hgh.parent?_eq]
    exact hg.mem_children_iff
  · rw [hgh.children_eq]
    exact hg.nodup p
  · simpa only [hgh.parent?_eq] using hg.ends

end SameTrees

/-! ### Growth -/

/-- A consistent forest with new nodes, some of which are listed as roots.  If the growth is `whole`
then all new roots are listed. -/
structure Grown (whole : Prop) (f g : Forest) (roots : List NodeId) : Prop where
  consistent : g.Consistent
  contains_of_contains : ∀ {k}, f.contains k → g.contains k
  nodup : roots.Nodup
  root : ∀ {r}, r ∈ roots → g.contains r ∧ ¬ f.contains r ∧ g.parent? r = none
  mem_roots : whole → ∀ {k}, g.contains k → ¬ f.contains k → g.parent? k = none → k ∈ roots

theorem grown_begin (hf : f.Consistent) : Grown whole f f.begin [] where
  consistent := hf.begin
  contains_of_contains hk := hk
  nodup := List.nodup_nil
  root hr := by simp at hr
  mem_roots _ _ hk hnew := absurd hk hnew

namespace Grown

theorem sameTrees (hg : Grown whole f g roots) (hgh : SameTrees g h) : Grown whole f h roots where
  consistent := hgh.consistent hg.consistent
  contains_of_contains hk := hgh.contains_iff.2 (hg.contains_of_contains hk)
  nodup := hg.nodup
  root hr := by
    rw [hgh.contains_iff, hgh.parent?_eq]
    exact hg.root hr
  mem_roots hwhole k hk hnew hroot := by
    rw [hgh.contains_iff] at hk
    rw [hgh.parent?_eq] at hroot
    exact hg.mem_roots hwhole hk hnew hroot

theorem nextId (hg : Grown whole f g roots) : Grown whole f g.nextId.2 roots :=
  hg.sameTrees (.of_get? rfl fun _ => rfl)

/-- A new node takes the place of the roots that it adopts. -/
theorem register (hg : Grown whole f g (roots ++ ids)) {n : Node} (hregister : g.register n = .ok h)
    (hroot : n.parent? = none) (hsome : n.children.Subperm ids)
    (hall : whole → n.children.Perm ids) : Grown whole f h (roots ++ [n.id]) := by
  obtain ⟨hnodup, hnodupids, hdisjoint⟩ := List.nodup_append.1 hg.nodup
  have hself := not_mem_children_of_register hregister
  obtain ⟨hfresh, hchildren, hinsert⟩ := register_eq_ok hregister
  have hparent : ∀ k, h.parent? k =
      if k = n.id then none else if k ∈ n.children then some n.id else g.parent? k := fun k => by
    rw [hinsert, parent?_insert n hself fun c hc => (hchildren c hc).1, hroot]
  have hcontains : ∀ k, h.contains k ↔ k = n.id ∨ g.contains k := fun k =>
    contains_register hregister
  refine ⟨hg.consistent.register hregister hroot ?_, fun hk => ?_, ?_, fun {r} hr => ?_,
    fun hwhole k hk hnew hkroot => ?_⟩
  · obtain ⟨some, hperm, hsublist⟩ := hsome
    exact hperm.nodup_iff.1 (hsublist.nodup hnodupids)
  · exact (hcontains _).2 (Or.inr (hg.contains_of_contains hk))
  · refine List.nodup_append.2 ⟨hnodup, List.nodup_singleton _, ?_⟩
    rintro r hr _ (_ | ⟨_, ⟨⟩⟩) rfl
    exact hfresh (hg.root (List.mem_append_left _ hr)).1
  · rw [hcontains, hparent]
    rcases List.mem_append.1 hr with hr | hr
    · -- a root from before, which the node has not adopted
      obtain ⟨hreg, hnew, hrroot⟩ := hg.root (List.mem_append_left _ hr)
      have hne : r ≠ n.id := by
        rintro rfl
        exact hfresh hreg
      have hnot : r ∉ n.children := fun hc => hdisjoint r hr r (hsome.subset hc) rfl
      rw [if_neg hne, if_neg hnot]
      exact ⟨Or.inr hreg, hnew, hrroot⟩
    · obtain rfl := List.mem_singleton.1 hr
      rw [if_pos rfl]
      exact ⟨Or.inl rfl, fun hold => hfresh (hg.contains_of_contains hold), rfl⟩
  · rw [List.mem_append, List.mem_singleton]
    rw [hcontains] at hk
    rw [hparent] at hkroot
    by_cases hkid : k = n.id
    · exact Or.inr hkid
    · have hnot : k ∉ n.children := by
        intro hc
        rw [if_neg hkid, if_pos hc] at hkroot
        contradiction
      rw [if_neg hkid, if_neg hnot] at hkroot
      have hmem := hg.mem_roots hwhole (hk.resolve_left hkid) hnew hkroot
      rcases List.mem_append.1 hmem with hmem | hmem
      · exact Or.inl hmem
      · exact absurd ((hall hwhole).mem_iff.2 hmem) hnot

/-- A root becomes the child of another node. -/
theorem attach (hg : Grown whole f g (roots ++ [c])) (hc : g.Attachable p c) {n : Node}
    (hn : g.get? p = some n) {payload : Payload} (hgains : n.payload.Gains c payload) :
    Grown whole f (g.attach p c payload) roots := by
  obtain ⟨hnodup, -, hdisjoint⟩ := List.nodup_append.1 hg.nodup
  have hcontains : ∀ k, (g.attach p c payload).contains k ↔ g.contains k := fun k =>
    (SameNodes.attach g p c payload).contains_iff
  have hparent : ∀ k, (g.attach p c payload).parent? k = if k = c then some p else g.parent? k :=
    fun k => parent?_attach hc.contains_child payload
  refine ⟨hg.consistent.attach hc hn hgains.children_perm, fun hk => ?_, hnodup, fun {r} hr => ?_,
    fun hwhole k hk hnew hroot => ?_⟩
  · exact (hcontains _).2 (hg.contains_of_contains hk)
  · have hne : r ≠ c := hdisjoint r hr c List.mem_cons_self
    rw [hcontains, hparent, if_neg hne]
    exact hg.root (List.mem_append_left _ hr)
  · rw [hcontains] at hk
    rw [hparent] at hroot
    split at hroot
    · contradiction
    · next hne =>
      have hmem := hg.mem_roots hwhole hk hnew hroot
      rcases List.mem_append.1 hmem with hmem | hmem
      · exact hmem
      · exact absurd (List.mem_singleton.1 hmem) hne

end Grown

/-! ### Source units -/

/-- The attributes of the source unit under an id. -/
def unit? (f : Forest) (k : NodeId) : Option UnitAttributes := (f.get? k).bind Node.unit?

theorem unit?_of_get? {n : Node} (hn : f.get? k = some n) : f.unit? k = n.unit? := by
  rw [unit?, hn]
  rfl

theorem contains_of_unit? {u : UnitAttributes} (h : f.unit? k = some u) : f.contains k := by
  obtain ⟨n, hn, -⟩ := Option.bind_eq_some_iff.1 h
  exact contains_iff_get?.2 ⟨n, hn⟩

/-- Registration changes the marks of old nodes at most. -/
theorem additive_unit? (k : NodeId) (u : UnitAttributes) :
    Run.Additive fun g => g.unit? k = some u where
  nextId hg := hg
  register {f g n} hf hregister := by
    have hself := not_mem_children_of_register hregister
    obtain ⟨hfresh, -, rfl⟩ := register_eq_ok hregister
    have hne : k ≠ n.id := by
      rintro rfl
      exact hfresh (contains_of_unit? hf)
    rw [unit?, get?_insert n hself, if_neg hne]
    split
    · rw [← hf, unit?]
      cases f.get? k <;> rfl
    · exact hf

/-- The units of the first forest are units of the second one, with the same attributes. -/
def KeepsUnits (g h : Forest) : Prop := ∀ k u, g.unit? k = some u → h.unit? k = some u

theorem additive_keepsUnits (g : Forest) : Run.Additive (KeepsUnits g) where
  nextId hh k u hk := hh k u hk
  register hh hregister k u hk := (additive_unit? k u).register (hh k u hk) hregister

/-- A change of a node that keeps the attributes of a unit. -/
theorem unit?_modify {change : Node → Node} (h : ∀ n, (change n).unit? = n.unit?) :
    (f.modify id change).unit? k = f.unit? k := by
  rw [unit?, get?_modify, unit?]
  split
  · cases f.get? k with
    | none => rfl
    | some n => exact h n
  · rfl

theorem unit?_mapUnit {u : UnitAttributes} (h : f.unit? k = some u)
    (change : UnitAttributes → UnitAttributes) :
    (f.modifyPayload k (Payload.mapUnit · change)).unit? k = some (change u) := by
  obtain ⟨n, hn, hu⟩ := Option.bind_eq_some_iff.1 h
  rw [unit?, modifyPayload, get?_modify, if_pos rfl, hn]
  have hattributes : n.payload.attributes.unit? = some u := hu
  show (n.payload.attributes.mapUnit change).unit? = some (change u)
  rw [Attributes.unit?_mapUnit, hattributes]
  rfl

theorem unit?_setParent (p? : Option NodeId) : (f.setParent id p?).unit? k = f.unit? k :=
  unit?_modify fun _ => rfl

theorem unit?_attach {n : Node} (hn : f.get? p = some n) {payload : Payload}
    (h : payload.attributes = n.payload.attributes) :
    (f.attach p c payload).unit? k = f.unit? k := by
  rw [attach, unit?_setParent, unit?, modifyPayload, get?_modify, unit?]
  split
  · next hk =>
    subst hk
    rw [hn]
    exact congrArg Attributes.unit? h
  · rfl

end Forest

open Forest

namespace Run

variable {f g : Forest} {id : NodeId} {whole : Prop} {roots : List NodeId}

/-! ### Conversion -/

/-- **A record becomes one root**, whatever records there are below it. -/
theorem wp_convert_grown (config : Config) {schema : Schema} (hschema : whole → schema = .modern)
    (levels : Nat) (r : Json) (hg : Grown whole f g roots) :
    wp (convert config schema levels r) (fun id h => Grown whole f h (roots ++ [id]))
      (fun _ => True) g := by
  -- on the levels that are left, for whatever roots there are already
  induction levels generalizing r g roots with
  | zero => exact wp_throw trivial
  | succ levels ih =>
    refine wp_bind (wp_ask (fun (kind, draft) hdraft => ?_) trivial)
    have hid : wp (idOf r) (fun _ h => Grown whole f h roots) (fun _ => True) g :=
      wp_idOf (I := fun h => Grown whole f h roots) hg hg.nextId trivial
    refine hid.andThen fun id g hg => wp_bind (wp_ask (fun src _ => ?_) trivial)
    have hlists : draft.wp (fun trace p => p.children.Subperm (trace.map Prod.snd) ∧
        (whole → p.children.Perm (trace.map Prod.snd))) [] := by
      by_cases hwhole : whole
      · have hmodern : schema.draft r = .ok (kind, draft) := hdraft
        rw [hschema hwhole] at hmodern
        exact (Schema.wp_draft_modern hmodern).mono fun _ _ h =>
          ⟨h.listsSome, fun _ => h.listsAll⟩
      · exact (Schema.wp_draft hdraft).mono fun _ _ ⟨_, h⟩ =>
          ⟨h.listsSome, fun h => absurd h hwhole⟩
    -- each record below adds its root to those that this one may adopt
    have hrecord : ∀ r (trace : Draft.Trace) g, Grown whole f g (roots ++ trace.map Prod.snd) →
        wp (convert config schema levels r)
          (fun id h => Grown whole f h (roots ++ (trace ++ [(r, id)]).map Prod.snd))
          (fun _ => True) g := by
      intro r trace g hg
      refine (ih r hg).mono (fun id h hh => ?_) fun _ h => h
      rw [List.append_assoc] at hh
      rwa [List.map_append]
    have hrun := Draft.wp_run (fun trace h => Grown whole f h (roots ++ trace.map Prod.snd)) hrecord
      (fun _ _ _ => trivial) hlists (by rwa [List.map_nil, List.append_nil])
    refine hrun.andThen fun payload g ⟨trace, ⟨hsome, hall⟩, hg⟩ => ?_
    refine wp_bind (wp_register (fun h hregister => wp_pure ?_) trivial)
    exact hg.register hregister rfl hsome hall

end Run

/-! ### Passes -/

/-- The forest has grown with the same roots as `g`, whose nodes and units it has. -/
structure Forest.Mended (whole : Prop) (f : Forest) (roots : List NodeId) (g h : Forest) : Prop where
  grown : Grown whole f h roots
  contains_of_contains : ∀ {k}, g.contains k → h.contains k
  keepsUnits : KeepsUnits g h

variable {f g h : Forest} {id c yul : NodeId} {whole : Prop} {roots : List NodeId}

namespace Forest

theorem Grown.mended (hg : Grown whole f g roots) : Mended whole f roots g g :=
  ⟨hg, fun h => h, fun _ _ h => h⟩

theorem Mended.trans {h' : Forest} (hg : Mended whole f roots g h)
    (hh : Mended whole f roots h h') : Mended whole f roots g h' :=
  ⟨hh.grown, fun hk => hh.contains_of_contains (hg.contains_of_contains hk),
    fun k u hk => hh.keepsUnits k u (hg.keepsUnits k u hk)⟩

/-- A root that has been added to `g`, the old nodes unchanged, is attached to one of these. -/
theorem Grown.mended_attach (hg : g.Consistent) (hh : Grown whole f h (roots ++ [c]))
    (hold : ∀ {k}, g.contains k → h.get? k = g.get? k) (hc : ¬ g.contains c) {n : Node}
    (hn : g.get? id = some n) {payload : Payload} (hgains : n.payload.Gains c payload) :
    Mended whole f roots g (h.attach id c payload) := by
  have hid : g.contains id := contains_iff_get?.2 ⟨n, hn⟩
  have hn' : h.get? id = some n := (hold hid).trans hn
  have hreg : ∀ {k}, g.contains k → h.contains k := fun {k} hk => by
    obtain ⟨m, hm⟩ := contains_iff_get?.1 hk
    exact contains_iff_get?.2 ⟨m, (hold hk).trans hm⟩
  obtain ⟨hcreg, -, hroot⟩ := hh.root (List.mem_append_right roots (List.mem_singleton_self c))
  have hattachable : h.Attachable id c := by
    refine hg.attachable_of_new hid (fun {k} hk => ⟨hreg hk, ?_⟩) hc hcreg hroot
    rw [parent?, hold hk, parent?]
  refine ⟨hh.attach hattachable hn' hgains, fun hk => ?_, fun k u hk => ?_⟩
  · exact (SameNodes.attach h id c payload).contains_iff.2 (hreg hk)
  · rw [unit?_attach hn' hgains.attributes_eq, unit?, hold (contains_of_unit? hk)]
    exact hk

/-- A change of a payload that keeps its children and the attributes of a unit. -/
theorem Mended.modifyPayload (hg : Mended whole f roots g h) {change : Payload → Payload}
    (hchildren : ∀ p : Payload, (change p).children = p.children)
    (hunit : ∀ p : Payload, (change p).attributes.unit? = p.attributes.unit?) :
    Mended whole f roots g (h.modifyPayload id change) where
  grown := hg.grown.sameTrees (.modifyPayload fun n _ => hchildren n.payload)
  contains_of_contains hk := by
    rw [contains_modifyPayload]
    exact hg.contains_of_contains hk
  keepsUnits k u hk := by
    have hnode : ∀ n : Node, (n.mapPayload change).unit? = n.unit? := fun n => hunit n.payload
    rw [Forest.modifyPayload, unit?_modify hnode]
    exact hg.keepsUnits k u hk

end Forest

namespace Pass

open Run

/-- A pass lets a forest grow without a new root when it mends a node that it supports. -/
def MendsGrown (p : Pass) : Prop :=
  ∀ (config : Config) {whole : Prop} {f g : Forest} {roots : List NodeId} {id : NodeId} {n : Node},
    Grown whole f g roots → g.get? id = some n → p.supports n →
      wp (p.process config id) (fun _ h => Mended whole f roots g h) (fun _ => True) g

theorem wp_visit_mended {p : Pass} (hp : p.MendsGrown) (config : Config)
    (hg : Grown whole f g roots) :
    wp (p.visit config id) (fun _ h => Mended whole f roots g h) (fun _ => True) g := by
  refine wp_bind (wp_get ?_)
  split
  · next hsupports =>
    obtain ⟨n, hn, hn'⟩ := (Option.any_eq_true _ _).1 hsupports
    exact (hp config hg hn hn').andThen fun _ h hh => wp_pure hh
  · exact wp_pure hg.mended

theorem wp_run_mended {p : Pass} (hp : p.MendsGrown) (config : Config) (units : List NodeId)
    (hg : Grown whole f g roots) :
    wp (p.run config units) (fun _ h => Mended whole f roots g h) (fun _ => True) g := by
  refine wp_forM (fun unit _ h hh => wp_bind (wp_get ?_)) hg.mended
  refine wp_forM (fun k _ h hh => ?_) hh
  exact (wp_visit_mended hp config hh.grown).mono (fun _ _ => hh.trans) fun _ h => h

theorem wp_runAll_mended {passes : List Pass} (hpasses : ∀ p ∈ passes, p.MendsGrown)
    (config : Config) (units : List NodeId) (hg : Grown whole f g roots) :
    wp (runAll passes config units) (fun _ h => Mended whole f roots g h) (fun _ => True) g := by
  refine wp_forM (fun p hp h hh => ?_) hg.mended
  exact (wp_run_mended (hpasses p hp) config units hh.grown).mono (fun _ _ => hh.trans) fun _ h => h

end Pass

/-! ### References -/

theorem Attributes.unit?_setReferenced (target : NodeId) (attributes : Attributes) :
    (attributes.setReferenced target).unit? = attributes.unit? := by
  cases attributes <;> rfl

theorem Builtin.mendsGrown : Builtin.pass.MendsGrown := by
  intro config whole f g roots id n hg _ _
  refine Run.wp_bind (Run.wp_ask (fun n _ => Run.wp_bind (Run.wp_get ?_)) trivial)
  split
  · exact Run.wp_bind (Run.wp_modify (Run.wp_pure (hg.mended.modifyPayload
      (fun p => p.children_setReferenced _) fun p => Attributes.unit?_setReferenced _ _)))
  · exact Run.wp_pure hg.mended

/-! ### Inline assembly -/

/-- The place for one child is filled, which was empty. -/
theorem Slots.children_setOptional_perm {slots : List Slot} (child : NodeId)
    (hshape : Shape.optional ∈ shapes slots) (hempty : optional? slots = none) :
    (children (setOptional child slots)).Perm (child :: children slots) := by
  induction slots using setOptional.induct with
  | case1 => simp [shapes] at hshape
  | case2 c? rest =>
    obtain rfl : c? = none := hempty
    exact .refl _
  | case3 slot rest hs ih =>
    have hslot : slot.shape ≠ .optional := by
      cases slot with
      | optional c? => exact absurd rfl (hs c?)
      | _ => simp [Slot.shape]
    rw [shapes, List.map_cons, List.mem_cons] at hshape
    rw [optional?.eq_3 _ _ hs] at hempty
    rw [setOptional.eq_3 _ _ _ hs, children_cons, children_cons]
    have hrest := ih (hshape.resolve_left (Ne.symm hslot)) hempty
    exact (hrest.append_left slot.children).trans List.perm_middle

theorem Payload.gains_expand? {p p' : Payload} {yul : NodeId} {references : List ExternalReference}
    (hempty : p.isUnexpanded) (h : p.expand? yul = some (references, p')) : Gains yul p p' := by
  rw [isUnexpanded, decide_eq_true_eq] at hempty
  have hshape : Shape.optional ∈ Slots.shapes p.slots := by
    have hkind : p.attributes.kind = .inlineAssembly := hempty.1
    rw [p.shapes_eq, hkind]
    decide
  unfold expand? at h
  split at h
  · cases h
    exact ⟨rfl, Slots.children_setOptional_perm yul hshape hempty.2⟩
  · contradiction

namespace Assembly

/-- Linking changes the reference of a Yul identifier at most. -/
theorem link_eq_mapPayload (references : List ExternalReference) (n : Node) :
    link references n = n ∨ ∃ target, link references n = n.mapPayload (·.setReferenced target) := by
  unfold link
  split
  · split
    · exact Or.inl rfl
    · split
      · next r _ => exact Or.inr ⟨r.declaration, rfl⟩
      · exact Or.inl rfl
  · exact Or.inl rfl

theorem mended_link (hg : Mended whole f roots g h) (references : List ExternalReference)
    (k : NodeId) : Mended whole f roots g (h.modify k (link references)) := by
  cases hn : h.get? k with
  | none =>
    rw [modify_eq_self fun n hn' => by rw [hn] at hn'; contradiction]
    exact hg
  | some n =>
    have hsame : ∀ m, h.get? k = some m → m = n := fun m hm => Option.some.inj (hm.symm.trans hn)
    rcases link_eq_mapPayload references n with hlink | ⟨target, hlink⟩
    · rw [modify_eq_self fun m hm => by rw [hsame m hm, hlink]]
      exact hg
    · rw [modify_congr fun m hm => by rw [hsame m hm, hlink, ← hsame m hm]]
      exact hg.modifyPayload (fun p => p.children_setReferenced target) fun p =>
        Attributes.unit?_setReferenced target p.attributes

/-- The converted tree, a new root, is adopted. -/
theorem wp_adopt_mended (hg : g.Consistent) (hh : Grown whole f h (roots ++ [yul]))
    (hold : ∀ {k}, g.contains k → h.get? k = g.get? k) (hyul : ¬ g.contains yul) {n : Node}
    (hn : g.get? id = some n) (hempty : n.payload.isUnexpanded) :
    Run.wp (adopt id yul) (fun _ h' => Mended whole f roots g h') (fun _ => True) h := by
  have hn' : h.get? id = some n := (hold (contains_iff_get?.2 ⟨n, hn⟩)).trans hn
  refine Run.wp_bind (Run.wp_get ?_)
  rw [hn', Option.bind_some]
  split
  · exact Run.wp_throw trivial
  · next references payload hexpand =>
    have hgains := Payload.gains_expand? hempty hexpand
    exact Run.wp_bind (Run.wp_modify (Run.wp_pure (hh.mended_attach hg hold hyul hn hgains)))

theorem mendsGrown : pass.MendsGrown := by
  intro config whole f g roots id n hg hn hsupports
  have hempty : n.payload.isUnexpanded := (Bool.and_eq_true_iff.1 hsupports).1
  refine Run.wp_bind (Run.wp_get ?_)
  split
  · exact Run.wp_pure hg.mended
  · next tree _ =>
    have hbegin : Grown whole f g.begin roots := hg.sameTrees (.of_get? rfl fun _ => rfl)
    have hconvert := (Run.wp_convert_grown config (fun _ => rfl) config.maxDepth tree hbegin).and
      ((Run.givesNew_convert config .modern config.maxDepth tree g.begin (extends_begin g)))
    refine Run.wp_bind (Run.wp_transaction (hconvert.mono (fun yul h hh => ?_) fun _ _ => trivial))
    obtain ⟨hh, hextends, hyul⟩ := hh
    have hcommit : Grown whole f h.commit (roots ++ [yul]) :=
      hh.sameTrees (.of_get? id_commit fun _ => get?_commit)
    have hold : ∀ {k}, g.contains k → h.commit.get? k = g.get? k := fun hk => by
      rw [get?_commit, hextends.get?_eq hk]
    refine (wp_adopt_mended hg.consistent hcommit hold hyul hn hempty).andThen
      fun references g' hg' => ?_
    refine Run.wp_bind (Run.wp_get ?_)
    have hlinks : Run.Keeps (Mended whole f roots g) ((g'.walk yul).forM fun k =>
        modify (Forest.modify · k (link references))) :=
      Run.keeps_forM fun k _ g'' hg'' => Run.wp_modify (mended_link hg'' references k)
    exact ((hlinks g' hg').mono (fun _ _ h => h) fun _ _ => trivial).andThen fun _ h hh =>
      Run.wp_pure hh

end Assembly

/-! ### Documentation -/

namespace Comments

variable {owner : NodeId} {found : Found}

/-- A new root is made and attached to a node that was there before. -/
theorem Documents.mended {gains : NodeId → Payload → Payload → Prop}
    (hgains : ∀ {doc p p'}, gains doc p p' → p.Gains doc p')
    (hdoc : Documents gains owner found g h) (hg : Grown whole f g roots) :
    Mended whole f roots g h := by
  obtain ⟨n, payload, hn, hpayload, rfl⟩ := hdoc.attach_eq
  have hmade : Grown whole f (withDoc g owner found) (roots ++ [g.nextId.1]) := by
    have hnext : Grown whole f g.nextId.2 (roots ++ []) := by
      rw [List.append_nil]
      exact hg.nextId
    exact hnext.register hdoc.register_eq rfl (List.Subperm.refl []) fun _ => .refl []
  exact hmade.mended_attach hg.consistent get?_withDoc_of_contains g.not_contains_nextId hn
    (hgains hpayload)

theorem mendsGrown : pass.MendsGrown := by
  intro config whole f g roots id n hg hn hsupports
  have hreg : g.contains id := contains_iff_get?.2 ⟨n, hn⟩
  have hkind : n.kind.isDocumentable := (Bool.and_eq_true_iff.1 hsupports).1
  refine Run.wp_bind (Run.wp_get ?_)
  split
  · exact Run.wp_pure hg.mended
  · next source _ =>
    have hpreceding : Run.wp (recoverPreceding source id) (fun _ h => Mended whole f roots g h)
        (fun _ => True) g := by
      refine (wp_recoverPreceding hg.consistent source hn hkind).mono (fun acts h hh => ?_)
        fun _ hE => hE.elim
      cases acts with
      | true =>
        obtain ⟨found, -, -, hdoc⟩ := hh
        exact hdoc.mended (fun h => h.toGains) hg
      | false =>
        obtain ⟨rfl, -⟩ := hh
        exact hg.mended
    refine hpreceding.andThen fun _ g' hg' => ?_
    refine Run.wp.andThen (P := fun _ h => Mended whole f roots g h) ?_ fun _ h hh => Run.wp_pure hh
    refine (wp_recoverDangling hg'.grown.consistent source (hg'.contains_of_contains hreg)).mono
      (fun acts h hh => ?_) fun _ hE => hE.elim
    cases acts with
    | true =>
      obtain ⟨found, -, -, -, hdoc⟩ := hh
      exact hg'.trans (hdoc.mended (fun h => h.toGains) hg'.grown)
    | false =>
      obtain ⟨rfl, -⟩ := hh
      exact hg'

end Comments

theorem Pass.mendsGrown_standard : ∀ p ∈ Pass.standard, p.MendsGrown := by
  intro p hp
  simp only [Pass.standard, List.mem_cons, List.not_mem_nil, or_false] at hp
  rcases hp with rfl | rfl | rfl
  · exact Assembly.mendsGrown
  · exact Builtin.mendsGrown
  · exact Comments.mendsGrown

/-! ### Reading -/

namespace Forest

theorem grown_self (hg : g.Consistent) : Grown whole g g [] where
  consistent := hg
  contains_of_contains hk := hk
  nodup := List.nodup_nil
  root hr := by simp at hr
  mem_roots _ _ hk hnew := absurd hk hnew

theorem Grown.perm {roots' : List NodeId} (hg : Grown whole f g roots)
    (hperm : roots'.Perm roots) : Grown whole f g roots' where
  consistent := hg.consistent
  contains_of_contains := hg.contains_of_contains
  nodup := hperm.nodup_iff.2 hg.nodup
  root hr := hg.root (hperm.mem_iff.1 hr)
  mem_roots hwhole _ hk hnew hroot := hperm.mem_iff.2 (hg.mem_roots hwhole hk hnew hroot)

/-- Neither above nor below an old node that is unchanged there are new ones. -/
theorem contains_iff_of_reaches (hf : f.Consistent) (hg : g.Consistent)
    (hold : ∀ {k}, f.contains k → g.get? k = f.get? k) {a b : NodeId} (hab : g.Reaches a b) :
    f.contains a ↔ f.contains b := by
  induction hab with
  | refl => rfl
  | tail _ hp ih =>
    rename_i b c
    refine ih.trans ⟨fun hb => ?_, fun hc => ?_⟩
    · rw [parent?, hold hb] at hp
      exact hf.contains_parent hp
    · have hmem := hg.mem_of_parent? hp
      rw [children, hold hc] at hmem
      exact hf.contains_child hmem

end Forest

namespace Run

open Output

/-- A root record becomes a unit with the key and the place that the output gives it. -/
theorem wp_readRoot_grown (config : Config) (root : Root)
    (hmodern : whole → Schema.detect? root.record = some .modern) (hg : Grown whole f g roots) :
    wp (readRoot config root) (fun id h => Grown whole f h (roots ++ [id]) ∧
      (∃ u, h.unit? id = some (placed root u)) ∧ KeepsUnits g h) (fun _ => True) g := by
  unfold readRoot
  split
  · exact wp_throw trivial
  · next schema hschema =>
    have hwhole : whole → schema = .modern := fun h => by
      rw [hmodern h] at hschema
      exact (Option.some.inj hschema).symm
    -- the unit is new to `g`, too, so what becomes of it is no matter to the units of `g`
    have hself : Grown whole g g [] := grown_self hg.consistent
    have hconvert := (wp_convert_grown config hwhole config.maxDepth root.record hg).and
      ((wp_convert_grown config hwhole config.maxDepth root.record hself).and
        ((additive_keepsUnits g).keeps_convert config schema config.maxDepth root.record g
          fun _ _ h => h))
    refine (hconvert.mono (fun _ _ h => h) fun _ _ => trivial).andThen fun id h ⟨hh, hnew, hkept⟩ => ?_
    obtain ⟨-, hnew, -⟩ := hnew.root List.mem_cons_self
    refine wp_bind (wp_get ?_)
    dsimp only
    split
    · exact wp_bind (wp_throw trivial)
    · next hunit =>
      refine wp_bind (wp_modify (wp_pure ⟨?_, ?_, fun k u hk => ?_⟩))
      · exact hh.sameTrees (.modifyPayload fun n _ => n.payload.children_mapUnit (placed root))
      · obtain ⟨u, hu⟩ : ∃ u, h.unit? id = some u := by
          rwa [Option.isNone_iff_eq_none, ← ne_eq, Option.ne_none_iff_exists'] at hunit
        exact ⟨u, unit?_mapUnit hu (placed root)⟩
      · have hne : k ≠ id := by
          rintro rfl
          exact hnew (contains_of_unit? hk)
        rw [unit?, modifyPayload, get?_modify_of_ne hne]
        exact hkept k u hk

theorem wp_readRoots_grown (config : Config) (rs : List Root)
    (hmodern : whole → ∀ root ∈ rs, Schema.detect? root.record = some .modern)
    (hg : Grown whole f g roots) :
    wp (readRoots config rs) (fun ids h => Grown whole f h (roots ++ ids) ∧
      List.Forall₂ (fun root id => ∃ u, h.unit? id = some (placed root u)) rs ids ∧ KeepsUnits g h)
      (fun _ => True) g := by
  induction rs generalizing g roots with
  | nil => exact wp_pure ⟨by rwa [List.append_nil], .nil, fun _ _ h => h⟩
  | cons root rest ih =>
    have hroot : whole → Schema.detect? root.record = some .modern := fun h =>
      hmodern h root List.mem_cons_self
    have hrest : whole → ∀ root ∈ rest, Schema.detect? root.record = some .modern := fun h root hr =>
      hmodern h root (List.mem_cons_of_mem _ hr)
    refine (wp_readRoot_grown config root hroot hg).andThen fun id h ⟨hh, ⟨u, hu⟩, hkept⟩ => ?_
    refine (ih hrest hh).andThen fun ids h' ⟨hh', hids, hkept'⟩ => wp_pure ⟨?_, ?_, ?_⟩
    · rwa [List.append_assoc] at hh'
    · exact .cons ⟨u, hkept' id _ hu⟩ hids
    · exact fun k u hk => hkept' k u (hkept k u hk)

end Run

/-- There is one unit for each root record, with the key and the place that the output gives it, and
the units are listed by their places. -/
structure Forest.UnitsOf (g : Forest) (rs : List Output.Root) (units : List NodeId) : Prop where
  entries : ∃ ids, ids.Perm units ∧
    List.Forall₂ (fun root id => ∃ u, g.unit? id = some (Run.placed root u)) rs ids
  sorted : units.Pairwise fun a b => ∀ u v, g.unit? a = some u → g.unit? b = some v →
    u.sourceListIndex ≤ v.sourceListIndex

namespace Forest.UnitsOf

variable {rs : List Output.Root} {units : List NodeId}

theorem isSome (hg : g.UnitsOf rs units) {u : NodeId} (hu : u ∈ units) :
    ∃ attributes, g.unit? u = some attributes := by
  obtain ⟨ids, hperm, hall⟩ := hg.entries
  obtain ⟨i, hi, rfl⟩ := List.mem_iff_getElem.1 (hperm.mem_iff.2 hu)
  obtain ⟨-, hget⟩ := List.forall₂_iff_get.1 hall
  obtain ⟨attributes, hattributes⟩ := hget i (hall.length_eq ▸ hi) hi
  exact ⟨_, hattributes⟩

theorem keep (hg : g.UnitsOf rs units) (hkept : KeepsUnits g h) : h.UnitsOf rs units where
  entries := by
    obtain ⟨ids, hperm, hall⟩ := hg.entries
    exact ⟨ids, hperm, hall.imp fun _ id ⟨u, hu⟩ => ⟨u, hkept id _ hu⟩⟩
  sorted := by
    refine hg.sorted.imp_of_mem fun {a b} ha hb hab u v hu hv => ?_
    obtain ⟨u', hu'⟩ := hg.isSome ha
    obtain ⟨v', hv'⟩ := hg.isSome hb
    rw [hkept a u' hu'] at hu
    rw [hkept b v' hv'] at hv
    exact hab u v (hu' ▸ hu) (hv' ▸ hv)

end Forest.UnitsOf

/-- What a read of units has made of a forest: it is consistent, the old nodes are as they were, and
the units are new roots.  If all root records are modern, then the new nodes are those of the trees
of the units, which have no node in common. -/
structure Forest.Read (f : Forest) (rs : List Output.Root) (units : List NodeId) (g : Forest) :
    Prop where
  consistent : g.Consistent
  get?_eq : ∀ {k}, f.contains k → g.get? k = f.get? k
  nodup : units.Nodup
  unit : ∀ u ∈ units, ¬ f.contains u ∧ (g.unit? u).isSome ∧ g.parent? u = none
  unitsOf : g.UnitsOf rs units
  nodup_walk : (units.flatMap g.walk).Nodup
  mem_walk_iff : (∀ root ∈ rs, Schema.detect? root.record = some .modern) →
    ∀ k, k ∈ units.flatMap g.walk ↔ g.contains k ∧ ¬ f.contains k

namespace Run

open Output

/-- The trees of the roots hold what is new, if no root is missing. -/
theorem mem_flatMap_walk_iff (hf : f.Consistent) (hg : Grown whole f g roots)
    (hold : ∀ {k}, f.contains k → g.get? k = f.get? k) (hwhole : whole) (k : NodeId) :
    k ∈ roots.flatMap g.walk ↔ g.contains k ∧ ¬ f.contains k := by
  have hside : ∀ {a b}, g.Reaches a b → (f.contains a ↔ f.contains b) := fun h =>
    contains_iff_of_reaches hf hg.consistent hold h
  rw [List.mem_flatMap]
  constructor
  · rintro ⟨r, hr, hk⟩
    obtain ⟨hreg, hreach⟩ := hg.consistent.mem_walk_iff.1 hk
    exact ⟨hreg, fun h => (hg.root hr).2.1 ((hside hreach).1 h)⟩
  · rintro ⟨hreg, hnew⟩
    obtain ⟨r, hreach, hroot⟩ := hg.consistent.exists_root k
    have hmem := hg.mem_roots hwhole (hg.consistent.contains_of_reaches hreg hreach)
      (fun h => hnew ((hside hreach).2 h)) hroot
    exact ⟨r, hmem, hg.consistent.mem_walk_iff.2 ⟨hreg, hreach⟩⟩

/-- Nodes in the order of their places. -/
theorem sorted_mergeSort (place : NodeId → Int) (ids : List NodeId) :
    (ids.mergeSort fun a b => place a ≤ place b).Pairwise fun a b => place a ≤ place b := by
  have hsorted : (ids.mergeSort fun a b => place a ≤ place b).Pairwise fun a b =>
      decide (place a ≤ place b) = true := by
    refine List.pairwise_mergeSort (fun a b c hab hbc => ?_) (fun a b => ?_) ids
    · rw [decide_eq_true_eq] at hab hbc ⊢
      exact Int.le_trans hab hbc
    · rw [Bool.or_eq_true, decide_eq_true_eq, decide_eq_true_eq]
      exact Int.le_total _ _
  exact hsorted.imp of_decide_eq_true

theorem placeOf_of_unit? {k : NodeId} {u : UnitAttributes} (h : g.unit? k = some u) :
    placeOf g k = u.sourceListIndex := by
  have hu : (g.get? k).bind Node.unit? = some u := h
  rw [placeOf, hu]
  rfl

/-- Units by their places. -/
theorem pairwise_mergeSort_placeOf (g : Forest) (ids : List NodeId) :
    (ids.mergeSort fun a b => placeOf g a ≤ placeOf g b).Pairwise fun a b =>
      ∀ u v, g.unit? a = some u → g.unit? b = some v → u.sourceListIndex ≤ v.sourceListIndex := by
  refine (sorted_mergeSort (placeOf g) ids).imp fun {a b} hab u v hu hv => ?_
  rwa [placeOf_of_unit? hu, placeOf_of_unit? hv] at hab

theorem wp_readUnits_grown (config : Config) (hf : f.Consistent) {rs : List Root}
    (hmodern : whole → ∀ root ∈ rs, Schema.detect? root.record = some .modern) :
    wp (readUnits config rs) (fun units g => Grown whole f g units ∧ g.UnitsOf rs units)
      (fun _ => True) f.begin := by
  refine (wp_readRoots_grown config rs hmodern (grown_begin hf)).andThen
    fun ids g ⟨hg, hids, _⟩ => wp_bind (wp_get ?_)
  have hperm := List.mergeSort_perm ids fun a b => placeOf g a ≤ placeOf g b
  have hunits : g.UnitsOf rs (ids.mergeSort fun a b => placeOf g a ≤ placeOf g b) :=
    ⟨⟨ids, hperm.symm, hids⟩, pairwise_mergeSort_placeOf g ids⟩
  dsimp only
  split
  · refine (Pass.wp_runAll_mended Pass.mendsGrown_standard config _ (hg.perm hperm)).andThen
      fun _ h hh => wp_pure ⟨hh.grown, hunits.keep hh.keepsUnits⟩
  · exact wp_pure ⟨hg.perm hperm, hunits⟩

/-- **A read that succeeds adds whole trees** to a consistent forest, one for each unit of the
output. -/
theorem read_grows (hf : f.Consistent) {config : Config} {output : Json} {units : List NodeId}
    (h : read config output f = .ok units g) :
    ∃ rs, Output.roots output = .ok rs ∧ f.Read rs units g := by
  have hread : wp (read config output)
      (fun units g => ∃ rs, Output.roots output = .ok rs ∧ f.Read rs units g) (fun _ => True) f := by
    refine wp_bind (wp_ask (fun rs hrs => wp_transaction ?_) trivial)
    -- old nodes stay untouched all the way; how the new trees grow is followed step by step
    have hextends := wp_readUnits (E := fun _ => True) config
      ⟨fun _ => trivial, fun _ _ => trivial⟩ rs (extends_begin f)
    have hgrown := wp_readUnits_grown config hf (fun h => h :
      (∀ root ∈ rs, Schema.detect? root.record = some .modern) → _)
    refine (hextends.and hgrown).mono (fun units h ⟨hextends, hgrown, hunits⟩ => ?_)
      fun _ _ => trivial
    have hcommit := hgrown.sameTrees (.of_get? (id_commit (f := h)) fun _ => get?_commit)
    have hold : ∀ {k}, f.contains k → h.commit.get? k = f.get? k := fun hk => by
      rw [get?_commit, hextends.get?_eq hk]
    have hunits : h.commit.UnitsOf rs units := hunits.keep fun k u hk => by
      rw [unit?, get?_commit]
      exact hk
    refine ⟨rs, hrs, hcommit.consistent, hold, hcommit.nodup, fun u hu => ?_, hunits, ?_, ?_⟩
    · obtain ⟨attributes, hattributes⟩ := hunits.isSome hu
      obtain ⟨-, hnew, hroot⟩ := hcommit.root hu
      exact ⟨hnew, by rw [hattributes]; rfl, hroot⟩
    · exact hcommit.consistent.nodup_flatMap_walk hcommit.nodup fun u hu => (hcommit.root hu).2.2
    · exact mem_flatMap_walk_iff hf hcommit hold
  exact wp_ok hread h

/-- A unit with inline assembly. -/
def withAssembly : Json :=
  .object [("nodeType", .string "SourceUnit"), ("nodes", .array
    [.object [("nodeType", .string "InlineAssembly"),
      ("AST", .object [("nodeType", .string "YulBlock")])]])]

/-- The Yul block, the last node to be made, is in the tree of the unit. -/
theorem read_grows_withAssembly :
    blockAndName.Consistent ∧ ∃ g, read .standard withAssembly blockAndName = .ok [3] g ∧
      5 ∈ g.walk 3 ∧ ∃ rs, Output.roots withAssembly = .ok rs ∧ blockAndName.Read rs [3] g := by
  have hread : read .standard withAssembly =
      transaction (readUnits .standard [Root.ofRecord withAssembly]) := read_eq_transaction rfl
  have hends : seen? (read .standard withAssembly)
      (fun units g => (units, (g.walk 3).contains 5)) blockAndName = some ([3], true) := by
    rw [hread, readUnits_singleton]
    decide +kernel
  obtain ⟨units, g, h, hview⟩ := seen?_eq_some hends
  obtain ⟨rfl, hwalk⟩ := Prod.mk.inj hview
  exact ⟨consistent_blockAndName, g, h, List.contains_iff_mem.1 hwalk,
    read_grows consistent_blockAndName h⟩

end Run

end SolidityTree
