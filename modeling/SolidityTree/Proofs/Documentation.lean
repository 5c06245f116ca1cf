import SolidityTree.Forest.Documentation
import SolidityTree.Proofs.Edits

/-!
# Documentation keeps forests consistent

Setting or attaching documentation takes several edits, and the forest between two of them need not
be consistent where documentation is kept in a field: the payload names the new node before its mark
does.  Only the edits before the payload changes can fail, so a run that fails ends consistent, too.

The runs are followed from a forest `f` by `Forest.Reshaped f`: consistent, with the same nodes.
-/

namespace SolidityTree

/-! ### Fields for documentation -/

theorem Slots.documentation?_eq_none_iff {slots : List Slot} :
    documentation? slots = none ↔ Shape.documentation ∉ shapes slots := by
  induction slots using documentation?.induct with
  | case1 => simp [documentation?, shapes]
  | case2 d rest => simp [documentation?, shapes, Slot.shape]
  | case3 slot rest hs ih =>
    have hslot : slot.shape ≠ .documentation := by
      cases slot <;> first | exact absurd rfl (hs _) | simp [Slot.shape]
    rw [documentation?.eq_3 _ _ hs, ih]
    simp [shapes, Ne.symm hslot]

namespace Payload

theorem documentation?_ne_none_iff {p : Payload} :
    p.documentation? ≠ none ↔ p.kind.hasDocumentationField := by
  rw [documentation?, ne_eq, Slots.documentation?_eq_none_iff, p.shapes_eq, not_not,
    Kind.hasDocumentationField, kind]
  simp

/-- No edit gives a payload a field for documentation. -/
theorem documentation?_remove_of_none {p p' : Payload} {child : NodeId}
    (hd : p.documentation? = none) (h : p.remove child = .removed p') :
    p'.documentation? = none := by
  rw [documentation?, Slots.documentation?_eq_none_iff] at hd ⊢
  rwa [Slots.shapes_remove (slots_of_remove h)]

/-- A documentation node in the field is a child; without one the field adds no child. -/
theorem children_setDocumentation_text {p : Payload} {text? : Option String}
    (h : ∀ doc, p.documentation? ≠ some (some (.node doc))) :
    (p.setDocumentation (text?.map .text)).children = p.children := by
  cases hd : p.documentation? with
  | none => exact children_setDocumentation_of_none hd _
  | some d? =>
    obtain ⟨before, after, hold, hnew⟩ := exists_children_setDocumentation hd
    have hd? : (Slot.documentation d?).children = [] := by
      rcases d? with _ | _ | doc
      · rfl
      · rfl
      · exact absurd hd (h doc)
    rw [hnew, hold, hd?]
    cases text? <;> rfl

end Payload

namespace Forest

variable {f g : Forest} {id old : NodeId}

/-! ### Documentation that is found -/

theorem documentation?_of_field {n : Node} (hn : f.get? id = some n) {d? : Option Documentation}
    (hd : n.payload.documentation? = some d?) : f.documentation? id = d? := by
  simp [documentation?, hn, hd]

/-- A documentation node is a child of its owner. -/
theorem mem_children_of_documentation? (h : f.documentation? id = some (.node old)) :
    old ∈ f.children id := by
  obtain ⟨n, hn, h⟩ := Option.bind_eq_some_iff.1 h
  rw [children_of_get? hn]
  split at h
  · next d? hd =>
    subst h
    exact Payload.mem_children_of_documentation? hd
  · obtain ⟨texts, -, h⟩ := Option.bind_eq_some_iff.1 h
    split at h
    · simp at h
    · obtain ⟨doc, hdoc, hold⟩ := Option.map_eq_some_iff.1 h
      cases hold
      exact List.mem_of_find?_eq_some hdoc

theorem documentationOf_eq_ok {old : Option Documentation} (h : f.documentationOf id = .ok old) :
    ∃ n, f.get? id = some n ∧ n.kind.isDocumentable ∧ old = f.documentation? id := by
  obtain ⟨n, hn, h⟩ := Except.bind_eq_ok.1 h
  dsimp only at h
  split at h
  · next hk => exact ⟨n, node_eq_ok.1 hn, hk, (Except.ok.inj h).symm⟩
  · contradiction

theorem checkDocumentation_eq_ok {doc : Handle} (h : f.checkDocumentation id doc = .ok ()) :
    f.checkAttachable id doc = .ok () := by
  obtain ⟨⟨⟩, hcheck, -⟩ := Except.bind_eq_ok.1 h
  exact hcheck

theorem kind_of_checkDocumentation {doc : Handle} (h : f.checkDocumentation id doc = .ok ()) :
    ∃ m, f.get? doc.id = some m ∧ m.kind = .structuredDocumentation := by
  obtain ⟨⟨⟩, -, h⟩ := Except.bind_eq_ok.1 h
  obtain ⟨m, hm, h⟩ := Except.bind_eq_ok.1 h
  refine ⟨m, node_eq_ok.1 hm, by_contra fun hne => ?_⟩
  dsimp only at h
  rw [if_pos hne] at h
  contradiction

/-! ### Edits of a consistent forest -/

namespace Reshaped

variable {g' : Forest} {parent child : NodeId} {h : Handle}

theorem append (hg : Reshaped f g) (happ : g.append parent h = .ok g') : Reshaped f g' :=
  hg.trans (hg.consistent.append happ)

theorem prepend (hg : Reshaped f g) (hpre : g.prepend parent h = .ok g') : Reshaped f g' :=
  hg.trans (hg.consistent.prepend hpre)

theorem remove (hg : Reshaped f g) (hrem : g.remove parent child = .ok g') : Reshaped f g' :=
  hg.trans (hg.consistent.remove hrem)

theorem replace (hg : Reshaped f g) (hrep : g.replace parent h old = .ok g') : Reshaped f g' :=
  hg.trans (hg.consistent.replace hrep)

theorem modifyPayload (hg : Reshaped f g) {change : Payload → Payload}
    (h : ∀ n, g.get? id = some n → (change n.payload).children = n.children) :
    Reshaped f (g.modifyPayload id change) :=
  hg.trans ⟨hg.consistent.modifyPayload h, .modifyPayload g id change⟩

/-- A documentation node takes the place of what the field for documentation holds. -/
theorem setDocumentation (hg : Reshaped f g) {doc : NodeId} (hdoc : g.Attachable id doc)
    {n : Node} (hn : g.get? id = some n) {d? : Option Documentation}
    (hd : n.payload.documentation? = some d?) :
    Reshaped f (((g.modifyPayload id (·.setDocumentation (some (.node doc)))).setParents
      (Slot.documentation d?).children none).setParent doc (some id)) := by
  obtain ⟨before, after, hold, hnew⟩ := Payload.exists_children_setDocumentation hd
  have hsame : SameNodes g (((g.modifyPayload id (·.setDocumentation (some (.node doc)))).setParents
      (Slot.documentation d?).children none).setParent doc (some id)) :=
    (SameNodes.modifyPayload g id _).trans ((SameNodes.setParents _ _ none).trans (.setParent _ doc _))
  have hcs : (before ++ [doc] ++ after).Perm (doc :: (before ++ after)) := by
    rw [List.append_assoc]
    exact List.perm_middle
  refine hg.trans ⟨hg.consistent.exchange hdoc (Slot.documentation d?).children hsame
    (fun k => ?_) (fun k => ?_) hcs ?_, hsame⟩
  · rw [children_setParent, children_setParents, children_modifyPayload hn, hnew]
    simp [eq_comm (a := k), Slot.children, Documentation.node?]
  · rw [parent?_setParent (by simpa using hdoc.contains_child), parent?_setParents_none,
      parent?_modifyPayload]
    simp [eq_comm (a := k)]
  · have hchildren : n.children = _ := hold
    rw [children_of_get? hn, hchildren, ← List.append_assoc]
    exact List.perm_append_comm.append_right after

end Reshaped

end Forest

namespace Run

open Forest

variable {f g : Forest} {id : NodeId}

/-! ### Texts -/

/-- Taking a documentation node from its owner leaves a forest in which no field of the owner holds
a documentation node. -/
theorem wp_detach (hg : Reshaped f g) {old : Option Documentation}
    (hold : g.documentationOf id = .ok old) :
    wp (detach id old) (fun _ g' => Reshaped f g' ∧ ∀ n, g'.get? id = some n →
      ∀ doc, n.payload.documentation? ≠ some (some (.node doc))) (Reshaped f) g := by
  obtain ⟨m, hm, -, rfl⟩ := documentationOf_eq_ok hold
  have hfield : ∀ doc, m.payload.documentation? = some (some (.node doc)) →
      g.documentation? id = some (.node doc) := fun doc hd => documentation?_of_field hm hd
  unfold detach
  split
  · next old hd =>
    -- what was taken out stood in the field, or in a container without such a field
    refine wp_edit (fun g' hrem => ⟨hg.remove hrem, fun n hn doc => ?_⟩) hg
    obtain ⟨m', payload, hm', hp, rfl⟩ := remove_eq_ok hrem
    obtain rfl : m' = m := Option.some.inj (hm'.symm.trans hm)
    have hpayload : n.payload = payload := by
      rw [get?_setParent, modifyPayload, get?_modify, if_pos rfl, hm] at hn
      split at hn <;> cases hn <;> rfl
    rw [hpayload]
    cases hdoc : m'.payload.documentation? with
    | none => rw [Payload.documentation?_remove_of_none hdoc hp]; simp
    | some d? =>
      obtain rfl : d? = some (.node old) := by rw [← hd, documentation?_of_field hm hdoc]
      have hnodup := hg.consistent.nodup id
      rw [children_of_get? hm] at hnodup
      rw [Payload.documentation?_remove hdoc hnodup hp]
      simp
  · next hd =>
    refine wp_pure ⟨hg, fun n hn doc hdoc => ?_⟩
    obtain rfl : n = m := Option.some.inj (hn.symm.trans hm)
    exact hd doc (hfield doc hdoc)

theorem keeps_detach {old : Option Documentation} : Keeps (Reshaped f) (detach id old) := by
  intro g hg
  unfold detach
  split
  · exact wp_edit (fun g' hrem => hg.remove hrem) hg
  · exact wp_pure hg

theorem keeps_setDocumentationText (text? : Option String) :
    Keeps (Reshaped f) (setDocumentationText id text?) := by
  intro g hg
  refine wp_bind (wp_ask (fun old hold => ?_) hg)
  refine (wp_detach hg hold).andThen fun _ g' ⟨hg', hfield⟩ => ?_
  refine wp_bind (wp_ask (fun n hn => wp_modify ?_) hg')
  rw [node_eq_ok] at hn
  split
  · exact hg'.modifyPayload fun n _ => n.payload.children_setDocString text?
  · refine hg'.modifyPayload fun m hm => ?_
    exact Payload.children_setDocumentation_text (hfield m hm)

theorem keeps_setDanglingText (text? : Option String) :
    Keeps (Reshaped f) (setDanglingText id text?) := by
  intro g hg
  refine wp_bind (wp_ask (fun old hold => ?_) hg)
  refine (keeps_detach g hg).andThen fun _ g' hg' => ?_
  refine wp_bind (wp_ask (fun n hn => wp_modify ?_) hg')
  exact hg'.modifyPayload fun n _ => n.payload.children_setDanglingDocString text?

/-! ### Nodes -/

theorem keeps_attachDocumentation (doc : Handle) :
    Keeps (Reshaped f) (attachDocumentation id doc) := by
  intro g hg
  refine wp_bind (wp_ask (fun old hold => ?_) hg)
  refine wp_bind (wp_ask (fun _ hcheck => ?_) hg)
  refine wp_bind (wp_ask (fun n hn => ?_) hg)
  rw [node_eq_ok] at hn
  split
  · -- a container lists the node among its children
    have hg' : Reshaped f (g.modifyPayload id (·.setDocString none)) :=
      hg.modifyPayload fun n _ => n.payload.children_setDocString none
    refine wp_bind (wp_modify ?_)
    split
    · exact wp_edit (fun g' hrep => hg'.replace hrep) hg'
    · exact wp_edit (fun g' hpre => hg'.prepend hpre) hg'
  · -- any other kind that can be documented has a field
    next hcontainer =>
    obtain ⟨m, hm, hkind, rfl⟩ := documentationOf_eq_ok hold
    obtain rfl : m = n := Option.some.inj (hm.symm.trans hn)
    rw [Kind.isDocumentable, Bool.or_eq_true, or_iff_left hcontainer] at hkind
    obtain ⟨d?, hd⟩ := Option.ne_none_iff_exists'.1 (Payload.documentation?_ne_none_iff.2 hkind)
    have hdoc := hg.consistent.attachable_of_check (checkDocumentation_eq_ok hcheck)
    have hend := hg.setDocumentation hdoc hn hd
    rw [documentation?_of_field hn hd]
    refine wp_bind (wp_modify ?_)
    rcases d? with _ | _ | old
    · exact wp_bind (wp_pure (wp_modify hend))
    · exact wp_bind (wp_pure (wp_modify hend))
    · exact wp_bind (wp_modify (wp_modify hend))

theorem keeps_attachDangling (doc : Handle) : Keeps (Reshaped f) (attachDangling id doc) := by
  intro g hg
  refine wp_bind (wp_ask (fun old hold => ?_) hg)
  refine wp_bind (wp_ask (fun _ hcheck => ?_) hg)
  refine wp_bind (wp_ask (fun n hn => ?_) hg)
  have hg' : Reshaped f (g.modifyPayload id (·.setDanglingDocString none)) :=
    hg.modifyPayload fun n _ => n.payload.children_setDanglingDocString none
  refine wp_bind (wp_modify ?_)
  split
  · exact wp_edit (fun g' hrep => hg'.replace hrep) hg'
  · exact wp_edit (fun g' happ => hg'.append happ) hg'

end Run

end SolidityTree
