import SolidityTree.Payload
import Mathlib.Data.List.Nodup

/-!
# Children under edits of slots

Every edit of slots says what becomes of the sequence of children: a replacement puts the new child
where the old one first stood (`Slots.children_replace?`), a removal takes the first occurrence out
(`Slots.children_remove`), and the two insertions work at the ends.  The edits of payloads inherit
these equations, and the edits of attributes leave the children alone.
-/

namespace SolidityTree

/-! ### Holes -/

/-- Replacing a filled place replaces its child. -/
theorem filterMap_replace_some (old new : NodeId) (places : List (Option NodeId)) :
    (places.replace (some old) (some new)).filterMap id = (places.filterMap id).replace old new := by
  induction places with
  | nil => rfl
  | cons place rest ih =>
    cases place with
    | none => simpa [List.replace_cons] using ih
    | some c =>
      by_cases hc : old = c
      · subst hc; simp
      · have hne : (old == c) = false := by simpa using hc
        simpa [List.replace_cons, hne] using ih

/-- Making a filled place a hole takes its child out. -/
theorem filterMap_replace_none (child : NodeId) (places : List (Option NodeId)) :
    (places.replace (some child) none).filterMap id = (places.filterMap id).erase child := by
  induction places with
  | nil => rfl
  | cons place rest ih =>
    cases place with
    | none => simpa [List.replace_cons] using ih
    | some c =>
      by_cases hc : child = c
      · subst hc; simp
      · have hne : (child == c) = false := by simpa using hc
        simpa [List.replace_cons, hne, Ne.symm hc] using ih

namespace Slot

/-! ### One slot -/

@[simp] theorem children_one (c : NodeId) : (one c).children = [c] := rfl

@[simp] theorem children_optional (c? : Option NodeId) : (optional c?).children = c?.toList := rfl

@[simp] theorem children_many (cs : List NodeId) : (many cs).children = cs := rfl

@[simp] theorem children_sparse (places : List (Option NodeId)) :
    (sparse places).children = places.filterMap id := rfl

@[simp] theorem children_documentation_none : (documentation none).children = [] := rfl

@[simp] theorem children_documentation_text (s : String) :
    (documentation (some (.text s))).children = [] := rfl

@[simp] theorem children_documentation_node (id : NodeId) :
    (documentation (some (.node id))).children = [id] := rfl

@[simp] theorem children_operand_name (s : String) : (operand (.name s)).children = [] := rfl

@[simp] theorem children_operand_node (id : NodeId) : (operand (.node id)).children = [id] := rfl

theorem children_map (f : NodeId → NodeId) (slot : Slot) :
    (slot.map f).children = slot.children.map f := by
  cases slot with
  | one c => rfl
  | optional c? => cases c? <;> rfl
  | many cs => rfl
  | sparse places =>
    simp only [map, children, List.filterMap_map, List.map_filterMap]
    congr 1
  | documentation d? => rcases d? with _ | _ | _ <;> rfl
  | operand type => cases type <;> rfl

theorem children_replace? {old new : NodeId} {slot slot' : Slot}
    (h : slot.replace? old new = some slot') :
    old ∈ slot.children ∧ slot'.children = slot.children.replace old new := by
  cases slot with
  | one c => grind [replace?, children]
  | optional c? => grind [replace?, children]
  | many cs => grind [replace?, children]
  | sparse places =>
    simp only [replace?] at h
    split at h
    · next hmem =>
      cases h
      exact ⟨List.mem_filterMap.2 ⟨_, hmem, rfl⟩, filterMap_replace_some old new places⟩
    · contradiction
  | documentation d? =>
    simp only [replace?] at h
    split at h
    · next hd => cases h; subst hd; simp [children, Documentation.node?]
    · contradiction
  | operand type =>
    simp only [replace?] at h
    split at h
    · next ht => cases h; subst ht; simp [children, Operand.node?]
    · contradiction

theorem not_mem_of_replace?_eq_none {old new : NodeId} {slot : Slot}
    (h : slot.replace? old new = none) : old ∉ slot.children := by
  rcases slot with _ | _ | _ | _ | (_ | _ | _) | (_ | _) <;>
    grind [replace?, children, Documentation.node?, Operand.node?]

theorem children_remove {child : NodeId} {slot slot' : Slot}
    (h : slot.remove child = .removed slot') :
    child ∈ slot.children ∧ slot'.children = slot.children.erase child := by
  cases slot with
  | one c => grind [remove, children]
  | optional c? =>
    simp only [remove] at h
    split at h
    · next hc => cases h; subst hc; simp [children]
    · contradiction
  | many cs => grind [remove, children]
  | sparse places =>
    simp only [remove] at h
    split at h
    · next hmem =>
      cases h
      exact ⟨List.mem_filterMap.2 ⟨_, hmem, rfl⟩, filterMap_replace_none child places⟩
    · contradiction
  | documentation d? =>
    simp only [remove] at h
    split at h
    · next hd => cases h; subst hd; simp [children, Documentation.node?]
    · contradiction
  | operand type => grind [remove]

theorem remove_eq_absent_iff {child : NodeId} {slot : Slot} :
    slot.remove child = .absent ↔ child ∉ slot.children := by
  rcases slot with _ | _ | _ | _ | (_ | _ | _) | (_ | _) <;>
    grind [remove, children, Documentation.node?, Operand.node?]

end Slot

namespace Slots

/-! ### All slots of a node -/

@[simp] theorem children_nil : children [] = [] := rfl

@[simp] theorem children_cons (slot : Slot) (rest : List Slot) :
    children (slot :: rest) = slot.children ++ children rest := rfl

theorem children_map (f : NodeId → NodeId) (slots : List Slot) :
    children (slots.map (Slot.map f)) = (children slots).map f := by
  induction slots with
  | nil => rfl
  | cons slot rest ih => simp [Slot.children_map, ih]

theorem children_replace? {old new : NodeId} {slots slots' : List Slot}
    (h : replace? old new slots = some slots') :
    old ∈ children slots ∧ children slots' = (children slots).replace old new := by
  induction slots generalizing slots' with
  | nil => simp [replace?] at h
  | cons slot rest ih =>
    simp only [replace?] at h
    split at h
    · -- the child stands in this slot
      next hs =>
      cases h
      obtain ⟨hmem, heq⟩ := Slot.children_replace? hs
      simp [hmem, heq, List.replace_append_left]
    · -- it stands in a later one, and not in this one, where it would have been found
      next hs =>
      obtain ⟨rest', hr, rfl⟩ := Option.map_eq_some_iff.1 h
      obtain ⟨hmem, heq⟩ := ih hr
      have hnot := Slot.not_mem_of_replace?_eq_none hs
      simp [hmem, heq, List.replace_append_right hnot]

theorem children_remove {child : NodeId} {slots slots' : List Slot}
    (h : remove child slots = .removed slots') :
    child ∈ children slots ∧ children slots' = (children slots).erase child := by
  induction slots generalizing slots' with
  | nil => simp [remove] at h
  | cons slot rest ih =>
    simp only [remove] at h
    split at h
    · next hs =>
      cases h
      obtain ⟨hmem, heq⟩ := Slot.children_remove hs
      simp [hmem, heq, List.erase_append_left]
    · simp at h
    · -- only a slot without the child is passed over
      next hs =>
      have hnot := Slot.remove_eq_absent_iff.1 hs
      cases hr : remove child rest with
      | removed rest' =>
        rw [hr] at h
        cases h
        obtain ⟨hmem, heq⟩ := ih hr
        simp [hmem, heq, List.erase_append_right _ hnot]
      | absent => simp [hr, Removal.map] at h
      | required => simp [hr, Removal.map] at h

theorem children_prepend? {child : NodeId} {slots slots' : List Slot}
    (h : prepend? child slots = some slots') : children slots' = child :: children slots := by
  unfold prepend? at h
  split at h
  · cases h; rfl
  · contradiction

theorem children_append? {child : NodeId} {slots slots' : List Slot}
    (h : append? child slots = some slots') : children slots' = children slots ++ [child] := by
  induction slots using append?.induct generalizing slots' with
  | case1 => simp [append?] at h
  | case2 children => simp only [append?] at h; cases h; simp [Slot.children]
  | case3 slot hs => simp [append?] at h
  | case4 slot next rest ih =>
    simp only [append?] at h
    obtain ⟨rest', hr, rfl⟩ := Option.map_eq_some_iff.1 h
    simp [ih hr]

/-! ### The slot for documentation -/

/-- The slot for documentation stands between the same children whatever it holds. -/
theorem exists_children_setDocumentation {slots : List Slot} {d? : Option Documentation}
    (h : documentation? slots = some d?) :
    ∃ before after, ∀ e?, children (setDocumentation e? slots) =
      before ++ (Slot.documentation e?).children ++ after := by
  induction slots using documentation?.induct with
  | case1 => simp [documentation?] at h
  | case2 d rest => exact ⟨[], children rest, fun e? => by simp [setDocumentation]⟩
  | case3 slot rest hs ih =>
    -- the slots on the way come before it, and keep their children
    obtain ⟨before, after, heq⟩ := ih (by rwa [documentation?] at h; exact hs)
    refine ⟨slot.children ++ before, after, fun e? => ?_⟩
    rw [setDocumentation, children_cons, heq e?]
    · simp
    · exact hs

theorem setDocumentation_self {slots : List Slot} {d? : Option Documentation}
    (h : documentation? slots = some d?) : setDocumentation d? slots = slots := by
  induction slots using documentation?.induct with
  | case1 => simp [documentation?] at h
  | case2 d rest => simp only [documentation?, Option.some.injEq] at h; rw [setDocumentation, h]
  | case3 slot rest hs ih =>
    rw [setDocumentation, ih (by rwa [documentation?] at h; exact hs)]
    exact hs

theorem setDocumentation_eq_self_of_none {slots : List Slot} (h : documentation? slots = none)
    (d? : Option Documentation) : setDocumentation d? slots = slots := by
  induction slots using documentation?.induct with
  | case1 => rfl
  | case2 d rest => simp [documentation?] at h
  | case3 slot rest hs ih =>
    rw [setDocumentation, ih (by rwa [documentation?] at h; exact hs)]
    exact hs

theorem mem_children_of_documentation? {slots : List Slot} {doc : NodeId}
    (h : documentation? slots = some (some (.node doc))) : doc ∈ children slots := by
  obtain ⟨before, after, heq⟩ := exists_children_setDocumentation h
  rw [← setDocumentation_self h, heq]
  simp [Slot.children, Documentation.node?]

/-- What the slot is filled with is found there. -/
theorem documentation?_setDocumentation {slots : List Slot} {d? : Option Documentation}
    (h : documentation? slots = some d?) (e? : Option Documentation) :
    documentation? (setDocumentation e? slots) = some e? := by
  induction slots using documentation?.induct with
  | case1 => simp [documentation?] at h
  | case2 d rest => rfl
  | case3 slot rest hs ih =>
    rw [documentation?.eq_3 _ _ hs] at h
    rw [setDocumentation.eq_3 _ _ _ hs, documentation?.eq_3 _ _ hs]
    exact ih h

/-- A documentation node is taken out of its slot: no other slot before it holds the node, since no
child is listed twice. -/
theorem remove_eq_setDocumentation {old : NodeId} {slots : List Slot}
    (h : documentation? slots = some (some (.node old))) (hnodup : (children slots).Nodup) :
    remove old slots = .removed (setDocumentation none slots) := by
  induction slots using documentation?.induct with
  | case1 => simp [documentation?] at h
  | case2 d rest =>
    simp only [documentation?, Option.some.injEq] at h
    subst h
    simp [remove, Slot.remove, setDocumentation]
  | case3 slot rest hs ih =>
    rw [documentation?.eq_3 _ _ hs] at h
    rw [children_cons, List.nodup_append] at hnodup
    have habsent : slot.remove old = .absent := by
      rw [Slot.remove_eq_absent_iff]
      intro hmem
      exact hnodup.2.2 old hmem old (mem_children_of_documentation? h) rfl
    simp only [remove, habsent]
    rw [ih h hnodup.2.1, setDocumentation.eq_3 _ _ _ hs]
    rfl

/-! ### The slot for at most one child -/

/-- Filling the slot adds no other child. -/
theorem children_setOptional_subset (child : NodeId) (slots : List Slot) :
    children (setOptional child slots) ⊆ child :: children slots := by
  induction slots using setOptional.induct with
  | case1 => simp [setOptional]
  | case2 c? rest =>
    simp only [setOptional, children_cons, Slot.children, Option.toList_some]
    exact List.cons_subset_cons _ (List.subset_append_right _ _)
  | case3 slot rest hs ih =>
    rw [setOptional.eq_3 _ _ _ hs, children_cons, children_cons]
    intro c hc
    rcases List.mem_append.1 hc with hc | hc
    · exact List.mem_cons_of_mem _ (List.mem_append_left _ hc)
    · rcases List.mem_cons.1 (ih hc) with rfl | hc
      · exact List.mem_cons_self
      · exact List.mem_cons_of_mem _ (List.mem_append_right _ hc)

end Slots

namespace Payload

/-! ### Payloads -/

variable {p p' : Payload} {old new child yul : NodeId}

theorem ext_parts (hattributes : p'.attributes = p.attributes) (hslots : p'.slots = p.slots) :
    p' = p := by
  obtain ⟨attributes, slots, h⟩ := p
  obtain ⟨attributes', slots', h'⟩ := p'
  obtain rfl : attributes' = attributes := hattributes
  obtain rfl : slots' = slots := hslots
  rfl

theorem attributes_replace? (h : p.replace? old new = some p') : p'.attributes = p.attributes := by
  unfold replace? at h
  split at h
  · cases h; rfl
  · contradiction

theorem attributes_remove (h : p.remove child = .removed p') : p'.attributes = p.attributes := by
  unfold remove at h
  split at h
  · cases h; rfl
  · contradiction
  · contradiction

theorem attributes_prepend? (h : p.prepend? child = some p') : p'.attributes = p.attributes := by
  unfold prepend? at h
  split at h
  · cases h; rfl
  · contradiction

theorem attributes_append? (h : p.append? child = some p') : p'.attributes = p.attributes := by
  unfold append? at h
  split at h
  · cases h; rfl
  · contradiction

theorem attributes_expand? {references : List ExternalReference}
    (h : p.expand? yul = some (references, p')) : p'.attributes = p.attributes := by
  unfold expand? at h
  split at h
  · cases h; rfl
  · contradiction

theorem slots_of_replace? {p p' : Payload} {old new : NodeId} (h : p.replace? old new = some p') :
    Slots.replace? old new p.slots = some p'.slots := by
  unfold replace? at h
  split at h
  · next hs => cases h; exact hs
  · contradiction

theorem slots_of_remove {p p' : Payload} {child : NodeId} (h : p.remove child = .removed p') :
    Slots.remove child p.slots = .removed p'.slots := by
  unfold remove at h
  split at h
  · next hs => cases h; exact hs
  · contradiction
  · contradiction

theorem slots_of_prepend? {p p' : Payload} {child : NodeId} (h : p.prepend? child = some p') :
    Slots.prepend? child p.slots = some p'.slots := by
  unfold prepend? at h
  split at h
  · next hs => cases h; exact hs
  · contradiction

theorem slots_of_append? {p p' : Payload} {child : NodeId} (h : p.append? child = some p') :
    Slots.append? child p.slots = some p'.slots := by
  unfold append? at h
  split at h
  · next hs => cases h; exact hs
  · contradiction

theorem children_replace? {p p' : Payload} {old new : NodeId} (h : p.replace? old new = some p') :
    old ∈ p.children ∧ p'.children = p.children.replace old new :=
  Slots.children_replace? (slots_of_replace? h)

theorem children_remove {p p' : Payload} {child : NodeId} (h : p.remove child = .removed p') :
    child ∈ p.children ∧ p'.children = p.children.erase child :=
  Slots.children_remove (slots_of_remove h)

theorem children_prepend? {p p' : Payload} {child : NodeId} (h : p.prepend? child = some p') :
    p'.children = child :: p.children :=
  Slots.children_prepend? (slots_of_prepend? h)

theorem children_append? {p p' : Payload} {child : NodeId} (h : p.append? child = some p') :
    p'.children = p.children ++ [child] :=
  Slots.children_append? (slots_of_append? h)

/-! ### Attributes and references -/

@[simp] theorem children_setDocString (p : Payload) (text? : Option String) :
    (p.setDocString text?).children = p.children := rfl

@[simp] theorem children_setDanglingDocString (p : Payload) (text? : Option String) :
    (p.setDanglingDocString text?).children = p.children := rfl

@[simp] theorem children_setReferenced (p : Payload) (target : NodeId) :
    (p.setReferenced target).children = p.children := rfl

@[simp] theorem children_mapUnit (p : Payload) (f : UnitAttributes → UnitAttributes) :
    (p.mapUnit f).children = p.children := rfl

theorem children_rename (p : Payload) (f : NodeId → NodeId) :
    (p.rename f).children = p.children.map f :=
  Slots.children_map f p.slots

theorem children_expand?_subset {p p' : Payload} {yul : NodeId} {refs : List ExternalReference}
    (h : p.expand? yul = some (refs, p')) : p'.children ⊆ yul :: p.children := by
  unfold expand? at h
  split at h
  · cases h; exact Slots.children_setOptional_subset yul p.slots
  · contradiction

/-! ### Documentation -/

theorem exists_children_setDocumentation {p : Payload} {d? : Option Documentation}
    (h : p.documentation? = some d?) :
    ∃ before after, (p.children = before ++ (Slot.documentation d?).children ++ after) ∧
      ∀ e?, (p.setDocumentation e?).children =
        before ++ (Slot.documentation e?).children ++ after := by
  obtain ⟨before, after, heq⟩ := Slots.exists_children_setDocumentation h
  refine ⟨before, after, ?_, heq⟩
  rw [← heq, Slots.setDocumentation_self h]
  rfl

theorem children_setDocumentation_of_none {p : Payload} (h : p.documentation? = none)
    (d? : Option Documentation) : (p.setDocumentation d?).children = p.children :=
  congrArg Slots.children (Slots.setDocumentation_eq_self_of_none h d?)

/-- Filling the field for documentation adds no other child. -/
theorem children_setDocumentation_subset (p : Payload) (d? : Option Documentation) :
    (p.setDocumentation d?).children ⊆ (Slot.documentation d?).children ++ p.children := by
  cases h : p.documentation? with
  | none =>
    rw [children_setDocumentation_of_none h]
    exact List.subset_append_right _ _
  | some e? =>
    obtain ⟨before, after, hold, hnew⟩ := exists_children_setDocumentation h
    rw [hnew, hold]
    intro c hc
    simp only [List.mem_append] at hc ⊢
    tauto

theorem mem_children_of_documentation? {p : Payload} {doc : NodeId}
    (h : p.documentation? = some (some (.node doc))) : doc ∈ p.children :=
  Slots.mem_children_of_documentation? h

theorem documentation?_remove {p p' : Payload} {old : NodeId}
    (hd : p.documentation? = some (some (.node old))) (hnodup : p.children.Nodup)
    (h : p.remove old = .removed p') : p'.documentation? = some none := by
  have hslots := (Slots.remove_eq_setDocumentation hd hnodup).symm.trans (slots_of_remove h)
  rw [documentation?, ← Removal.removed.inj hslots]
  exact Slots.documentation?_setDocumentation hd none

end Payload

end SolidityTree
