import SolidityTree.Proofs.DocumentationNodes

/-!
# Failures leave nothing behind

The runs that set or attach documentation change the forest more than once, and a run that fails
keeps what it has changed.  They fail only before the first change: what they ask about at the
beginning is what the later edits need.

* A documentation node that is found can be taken out, since neither the field for documentation nor
  a child list demands its child (`Consistent.exists_remove_of_documentationOf`).
* What a container can take as documentation, it can take with whatever texts it keeps, and before
  all children, behind them or in the place of one of them (`Forest.TakesDocumentation`).

So an edit or a registration that fails leaves the forest as it was, unless it gives out ids
(`eq_of_step_error`).
-/

namespace SolidityTree

/-! ### Slots and payloads -/

namespace Slots

variable {slots : List Slot} {old new : NodeId}

theorem exists_replace? (h : old ∈ children slots) (new : NodeId) :
    ∃ slots', replace? old new slots = some slots' := by
  induction slots with
  | nil => contradiction
  | cons slot rest ih =>
    rw [replace?]
    split
    · exact ⟨_, rfl⟩
    · next hslot =>
      have hnot := Slot.not_mem_of_replace?_eq_none hslot
      obtain ⟨rest', hrest⟩ := ih ((List.mem_append.1 h).resolve_left hnot)
      exact ⟨slot :: rest', by rw [hrest, Option.map_some]⟩

end Slots

namespace Payload

variable {p : Payload} {old : NodeId}

theorem exists_replace? (h : old ∈ p.children) (new : NodeId) :
    ∃ p', p.replace? old new = some p' := by
  obtain ⟨slots, hslots⟩ := Slots.exists_replace? h new
  unfold replace?
  split
  · exact ⟨_, rfl⟩
  · next hnone =>
    rw [hslots] at hnone
    contradiction

theorem exists_remove_of_slots {slots : List Slot} (h : Slots.remove old p.slots = .removed slots) :
    ∃ p', p.remove old = .removed p' := by
  unfold remove
  split
  · exact ⟨_, rfl⟩
  · next hrequired =>
    rw [h] at hrequired
    contradiction
  · next habsent =>
    rw [h] at habsent
    contradiction

theorem exists_remove_of_container (h : p.kind.isDocumentationContainer) (hold : old ∈ p.children) :
    ∃ p', p.remove old = .removed p' := by
  obtain ⟨cs, hcs⟩ := slots_of_container h
  have hmem : old ∈ cs := by
    rw [children, hcs] at hold
    simpa using hold
  have hremove : Slots.remove old p.slots = .removed [.many (cs.erase old)] := by
    rw [hcs, Slots.remove, Slot.remove, if_pos hmem]
  exact exists_remove_of_slots hremove

end Payload

namespace Forest

variable {f g : Forest} {id old : NodeId} {doc : Handle}

/-! ### Taking documentation out -/

theorem danglingOf_eq_ok {old : Option Documentation} (h : f.danglingOf id = .ok old) :
    ∃ n, f.get? id = some n ∧ n.kind.isDocumentationContainer ∧ old = f.dangling? id := by
  obtain ⟨n, hn, h⟩ := Except.bind_eq_ok.1 h
  dsimp only at h
  split at h
  · next hk => exact ⟨n, node_eq_ok.1 hn, hk, (Except.ok.inj h).symm⟩
  · contradiction

/-- A dangling documentation node is a child of its owner. -/
theorem mem_children_of_dangling? (h : f.dangling? id = some (.node old)) :
    old ∈ f.children id := by
  obtain ⟨n, hn, h⟩ := Option.bind_eq_some_iff.1 h
  obtain ⟨⟨text?, dangling?⟩, -, h⟩ := Option.bind_eq_some_iff.1 h
  rw [children_of_get? hn]
  cases dangling? with
  | some text => simp at h
  | none =>
    obtain ⟨d, hd, hold⟩ := Option.map_eq_some_iff.1 h
    cases hold
    exact List.mem_reverse.1 (List.mem_of_find?_eq_some hd)

theorem exists_remove_of_payload {n : Node} {payload : Payload} (hn : f.get? id = some n)
    (h : n.payload.remove old = .removed payload) : ∃ g, f.remove id old = .ok g :=
  ⟨_, Except.bind_eq_ok.2 ⟨n, node_eq_ok.2 hn, by rw [h]⟩⟩

/-- The documentation before a node can be taken out. -/
theorem Consistent.exists_remove_of_documentationOf (hf : f.Consistent)
    (h : f.documentationOf id = .ok (some (.node old))) : ∃ g, f.remove id old = .ok g := by
  obtain ⟨n, hn, hkind, hold⟩ := documentationOf_eq_ok h
  have hmem := mem_children_of_documentation? hold.symm
  have hnodup := hf.nodup id
  rw [children_of_get? hn] at hmem hnodup
  cases hd : n.payload.documentation? with
  | some d? =>
    rw [documentation?_of_field hn hd] at hold
    subst hold
    obtain ⟨payload, hpayload⟩ :=
      Payload.exists_remove_of_slots (Slots.remove_eq_setDocumentation hd hnodup)
    exact exists_remove_of_payload hn hpayload
  | none =>
    -- without a field the kind is that of a container
    have hcontainer : n.kind.isDocumentationContainer := by
      rw [Kind.isDocumentable, Bool.or_eq_true] at hkind
      exact hkind.resolve_left fun hfield => Payload.documentation?_ne_none_iff.2 hfield hd
    obtain ⟨payload, hpayload⟩ := Payload.exists_remove_of_container hcontainer hmem
    exact exists_remove_of_payload hn hpayload

/-- The dangling documentation of a container can be taken out. -/
theorem exists_remove_of_danglingOf (h : f.danglingOf id = .ok (some (.node old))) :
    ∃ g, f.remove id old = .ok g := by
  obtain ⟨n, hn, hcontainer, hold⟩ := danglingOf_eq_ok h
  have hmem := mem_children_of_dangling? hold.symm
  rw [children_of_get? hn] at hmem
  obtain ⟨payload, hpayload⟩ := Payload.exists_remove_of_container hcontainer hmem
  exact exists_remove_of_payload hn hpayload

/-! ### Putting documentation into a container -/

theorem forest_eq_of_check (h : f.checkAttachable id doc = .ok ()) : doc.forest = f.id := by
  by_contra hne
  unfold checkAttachable at h
  dsimp only at h
  rw [if_pos hne] at h
  contradiction

theorem kind?_modifyPayload {change : Payload → Payload} (h : ∀ p, (change p).kind = p.kind)
    (k : NodeId) : (f.modifyPayload id change).kind? k = f.kind? k := by
  rw [kind?, Forest.modifyPayload, get?_modify, kind?]
  split
  · cases f.get? k with
    | none => rfl
    | some n => exact congrArg some (h n.payload)
  · rfl

/-- A container, and a documentation node that it can take as a child. -/
structure TakesDocumentation (f : Forest) (id : NodeId) (doc : Handle) : Prop where
  forest_eq : doc.forest = f.id
  attachable : f.Attachable id doc.id
  kind?_doc : f.kind? doc.id = some .structuredDocumentation
  container : ∃ kind, f.kind? id = some kind ∧ kind.isDocumentationContainer

theorem Consistent.takesDocumentation (hf : f.Consistent)
    (hcheck : f.checkDocumentation id doc = .ok ()) {n : Node} (hn : f.get? id = some n)
    (hcontainer : n.kind.isDocumentationContainer) : f.TakesDocumentation id doc where
  forest_eq := forest_eq_of_check (checkDocumentation_eq_ok hcheck)
  attachable := hf.attachable_of_check (checkDocumentation_eq_ok hcheck)
  kind?_doc := by
    obtain ⟨m, hm, hkind⟩ := kind_of_checkDocumentation hcheck
    rw [kind?_of_get? hm, hkind]
  container := ⟨n.kind, kind?_of_get? hn, hcontainer⟩

namespace TakesDocumentation

/-- The texts that the container keeps do not matter. -/
theorem modifyPayload (h : f.TakesDocumentation id doc) {change : Payload → Payload}
    (hkind : ∀ p, (change p).kind = p.kind) :
    (f.modifyPayload id change).TakesDocumentation id doc where
  forest_eq := h.forest_eq
  attachable :=
    { contains_parent := by simpa using h.attachable.contains_parent
      contains_child := by simpa using h.attachable.contains_child
      detached := by simpa using h.attachable.detached
      not_above := by simpa [Reaches] using h.attachable.not_above }
  kind?_doc := by rw [kind?_modifyPayload hkind, h.kind?_doc]
  container := by
    rw [kind?_modifyPayload hkind]
    exact h.container

theorem exists_container (h : f.TakesDocumentation id doc) :
    ∃ n, f.get? id = some n ∧ n.kind.isDocumentationContainer := by
  obtain ⟨kind, hkind, hcontainer⟩ := h.container
  obtain ⟨n, hn, rfl⟩ := Option.map_eq_some_iff.1 hkind
  exact ⟨n, hn, hcontainer⟩

theorem exists_prepend (hf : f.Consistent) (h : f.TakesDocumentation id doc) :
    ∃ g, f.prepend id doc = .ok g := by
  obtain ⟨n, hn, hcontainer⟩ := h.exists_container
  obtain ⟨payload, hpayload⟩ := Payload.exists_prepend? hcontainer doc.id
  exact ⟨_, prepend_of_check (hf.check_of_attachable h.forest_eq h.attachable) hn hpayload⟩

theorem exists_append (hf : f.Consistent) (h : f.TakesDocumentation id doc) :
    ∃ g, f.append id doc = .ok g := by
  obtain ⟨n, hn, hcontainer⟩ := h.exists_container
  obtain ⟨payload, hpayload⟩ := Payload.exists_append? hcontainer doc.id
  exact ⟨_, append_of_check (hf.check_of_attachable h.forest_eq h.attachable) hn hpayload⟩

/-- It is of the kind that any other documentation can be replaced with. -/
theorem exists_replace (hf : f.Consistent) (h : f.TakesDocumentation id doc)
    (hold : old ∈ f.children id) : ∃ g, f.replace id doc old = .ok g := by
  obtain ⟨n, hn, -⟩ := h.exists_container
  obtain ⟨m, hm, hkind⟩ := Option.map_eq_some_iff.1 h.kind?_doc
  rw [children_of_get? hn] at hold
  obtain ⟨payload, hpayload⟩ := Payload.exists_replace? hold doc.id
  have hcheck := hf.check_of_attachable h.forest_eq h.attachable
  by_cases hself : doc = f.handle old
  · exact ⟨f, by rw [replace, if_pos hself]⟩
  · refine ⟨(f.setParent old none).attach id doc.id payload, ?_⟩
    rw [replace, if_neg hself]
    refine Except.bind_eq_ok.2 ⟨(), hcheck, Except.bind_eq_ok.2 ⟨m, node_eq_ok.2 hm, ?_⟩⟩
    refine Except.bind_eq_ok.2 ⟨n, node_eq_ok.2 hn, ?_⟩
    rw [if_neg fun hmismatch => hmismatch.2 hkind, hpayload]

end TakesDocumentation

end Forest

namespace Run

open Forest

variable {f : Forest} {id : NodeId}

/-! ### Runs -/

/-- Started in a consistent forest, the run succeeds or leaves the forest as it was. -/
def AllOrNothing {α : Type} (run : Run α) : Prop :=
  ∀ f, f.Consistent → wp run (fun _ _ => True) (fun g => g = f) f

theorem wp_detach_of_remove (hf : f.Consistent) (old : Option Documentation)
    (hold : ∀ doc, old = some (.node doc) → ∃ g, f.remove id doc = .ok g) :
    wp (detach id old) (fun _ g => Reshaped f g) (fun _ => False) f := by
  unfold detach
  split
  · next doc =>
    obtain ⟨g, hg⟩ := hold doc rfl
    exact wp_edit_of_ok hg (hf.remove hg)
  · exact wp_pure (.refl hf)

/-- A text is set after its owner has been found, and what stands in its place can be taken out. -/
theorem allOrNothing_setDocumentationText (text? : Option String) :
    AllOrNothing (setDocumentationText id text?) := by
  intro f hf
  refine wp_bind (wp_ask (fun old hold => ?_) rfl)
  obtain ⟨n, hn, -, -⟩ := documentationOf_eq_ok hold
  have hdetach := wp_detach_of_remove hf old fun doc hdoc =>
    hf.exists_remove_of_documentationOf (hdoc ▸ hold)
  refine wp_bind (hdetach.mono (fun _ g hg => ?_) fun _ h => h.elim)
  obtain ⟨m, hm⟩ := contains_iff_get?.1 (hg.sameNodes.contains_iff.2 (contains_iff_get?.2 ⟨n, hn⟩))
  exact wp_bind (wp_ask_of_ok (node_eq_ok.2 hm) (wp_modify trivial))

theorem allOrNothing_setDanglingText (text? : Option String) :
    AllOrNothing (setDanglingText id text?) := by
  intro f hf
  refine wp_bind (wp_ask (fun old hold => ?_) rfl)
  obtain ⟨n, hn, -, -⟩ := danglingOf_eq_ok hold
  have hdetach := wp_detach_of_remove hf old fun doc hdoc =>
    exists_remove_of_danglingOf (hdoc ▸ hold)
  refine wp_bind (hdetach.mono (fun _ g hg => ?_) fun _ h => h.elim)
  obtain ⟨m, hm⟩ := contains_iff_get?.1 (hg.sameNodes.contains_iff.2 (contains_iff_get?.2 ⟨n, hn⟩))
  exact wp_bind (wp_ask_of_ok (node_eq_ok.2 hm) (wp_modify trivial))

/-- A container that has dropped its text takes the documentation node, whichever way. -/
theorem allOrNothing_attachDocumentation (doc : Handle) :
    AllOrNothing (attachDocumentation id doc) := by
  intro f hf
  refine wp_bind (wp_ask (fun old hold => ?_) rfl)
  refine wp_bind (wp_ask (fun _ hcheck => ?_) rfl)
  refine wp_bind (wp_ask (fun n hn => ?_) rfl)
  split
  · next hcontainer =>
    have htakes : (f.modifyPayload id (·.setDocString none)).TakesDocumentation id doc :=
      (hf.takesDocumentation hcheck (node_eq_ok.1 hn) hcontainer).modifyPayload
        fun p => Attributes.kind_setDocString none p.attributes
    have hf' : (f.modifyPayload id (·.setDocString none)).Consistent :=
      hf.modifyPayload fun n _ => n.payload.children_setDocString none
    refine wp_bind (wp_modify ?_)
    split
    · next old =>
      obtain ⟨m, hm, -, hdoc⟩ := documentationOf_eq_ok hold
      have hmem : old ∈ (f.modifyPayload id (·.setDocString none)).children id := by
        rw [children_modifyPayload_of_eq fun n _ => n.payload.children_setDocString none]
        exact mem_children_of_documentation? hdoc.symm
      obtain ⟨g, hg⟩ := htakes.exists_replace hf' hmem
      exact wp_edit_of_ok hg trivial
    · obtain ⟨g, hg⟩ := htakes.exists_prepend hf'
      exact wp_edit_of_ok hg trivial
  · -- a field takes the node without a further condition
    refine wp_bind (wp_modify ?_)
    split
    · exact wp_bind (wp_modify (wp_modify trivial))
    · exact wp_bind (wp_pure (wp_modify trivial))

theorem allOrNothing_attachDangling (doc : Handle) :
    AllOrNothing (attachDangling id doc) := by
  intro f hf
  refine wp_bind (wp_ask (fun old hold => ?_) rfl)
  refine wp_bind (wp_ask (fun _ hcheck => ?_) rfl)
  refine wp_bind (wp_ask (fun n hn => ?_) rfl)
  obtain ⟨m, hm, hcontainer, hdoc⟩ := danglingOf_eq_ok hold
  have htakes : (f.modifyPayload id (·.setDanglingDocString none)).TakesDocumentation id doc :=
    (hf.takesDocumentation hcheck hm hcontainer).modifyPayload
      fun p => Attributes.kind_setDanglingDocString none p.attributes
  have hf' : (f.modifyPayload id (·.setDanglingDocString none)).Consistent :=
    hf.modifyPayload fun n _ => n.payload.children_setDanglingDocString none
  refine wp_bind (wp_modify ?_)
  split
  · next old =>
    have hmem : old ∈ (f.modifyPayload id (·.setDanglingDocString none)).children id := by
      rw [children_modifyPayload_of_eq fun n _ => n.payload.children_setDanglingDocString none]
      exact mem_children_of_dangling? hdoc.symm
    obtain ⟨g, hg⟩ := htakes.exists_replace hf' hmem
    exact wp_edit_of_ok hg trivial
  · obtain ⟨g, hg⟩ := htakes.exists_append hf'
    exact wp_edit_of_ok hg trivial

end Run

/-! ### Steps -/

variable {f g : Forest} {fault : Fault}

/-- Whether a step takes ids from the counter, which stays moved on if the step fails. -/
def Step.givesOutIds : Step → Bool
  | make .. | edit (.copy _) => true
  | _ => false

theorem allOrNothing_step (s : Step) (hs : ¬ s.givesOutIds) : Run.AllOrNothing s.run := by
  have hedit : ∀ change, Run.AllOrNothing (Run.edit change) :=
    fun change f _ => Run.wp_edit (fun _ _ => trivial) rfl
  have heditWith : ∀ {α : Type} (change : Forest → Except Fault (α × Forest)),
      Run.AllOrNothing (do let _ ← Run.editWith change) :=
    fun change f _ => Run.wp_bind (Run.wp_editWith (fun _ _ _ => Run.wp_pure trivial) rfl)
  cases s with
  | register n =>
    intro f hf
    exact Run.wp_bind (Run.wp_register (fun _ _ => Run.wp_pure trivial) rfl)
  | make src payload => exact absurd rfl hs
  | edit e =>
    cases e with
    | append parent child => exact hedit _
    | prepend parent child => exact hedit _
    | remove parent child => exact hedit _
    | replace parent new old => exact hedit _
    | unregister id => exact heditWith _
    | removeSubtree id => exact heditWith _
    | setDocumentationText id text? => exact Run.allOrNothing_setDocumentationText text?
    | attachDocumentation id doc => exact Run.allOrNothing_attachDocumentation doc
    | setDanglingText id text? => exact Run.allOrNothing_setDanglingText text?
    | attachDangling id doc => exact Run.allOrNothing_attachDangling doc
    | copy root => exact absurd rfl hs

/-- **A step that fails changes nothing:** not the nodes, not the counter, not the transactions. -/
theorem eq_of_step_error (hf : f.Consistent) (s : Step) (hs : ¬ s.givesOutIds)
    (h : s.run f = .error fault g) : g = f := by
  have hg := Run.wp_error (allOrNothing_step s hs f hf) h
  exact hg

/-- An identifier is no documentation, and the block stays as it was. -/
theorem eq_of_step_error_blockAndName :
    ∃ fault g, (Step.edit (.attachDocumentation 1 ⟨0, 2⟩)).run Forest.blockAndName =
      .error fault g ∧ g = Forest.blockAndName := by
  have hstep : (Step.edit (.attachDocumentation 1 ⟨0, 2⟩)).run Forest.blockAndName =
      .error (.kindMismatch 2 .structuredDocumentation .identifier) Forest.blockAndName := rfl
  exact ⟨_, _, hstep, eq_of_step_error Forest.consistent_blockAndName _ (by decide) hstep⟩

end SolidityTree
