import SolidityTree.Proofs.Traversal

/-!
# Removal of subtrees

A subtree is removed in two stages: its root is taken from its parent, and then the walk of the root
is forgotten.  What the first stage does to the payload of the parent is done by all its slots at
once, although the edit looks for the first that holds the child: no other slot holds it
(`Slots.remove_of_mem`).  It fails only in a slot that cannot be empty (`Slots.Requires`).  The
first stage changes no mark but that of the root, so the nodes below it are still those from which
the marks led there before (`Forest.reaches_iff_of_parent?`), and the second stage forgets exactly
them.

Main statement: `removeSubtree_spec`.
-/

namespace SolidityTree

/-- Whether a place of this shape has to hold something. -/
def Shape.isMandatory : Shape → Bool
  | .one | .operand => true
  | .optional | .many | .sparse | .documentation => false

namespace Slot

variable {child : NodeId} {slot : Slot}

/-- The slot as it is without a child.  A sparse slot keeps the place, as a hole; a slot that has to
hold something keeps the child. -/
def without (child : NodeId) : Slot → Slot
  | .one c => .one c
  | .optional c? => .optional (c?.filter (· ≠ child))
  | .many cs => .many (cs.filter (· ≠ child))
  | .sparse places => .sparse (places.map fun place => if place = some child then none else place)
  | .documentation d? => .documentation (d?.filter (· ≠ .node child))
  | .operand type => .operand type

theorem without_of_not_mem (h : child ∉ slot.children) : slot.without child = slot := by
  cases slot with
  | one c => rfl
  | optional c? =>
    cases c? with
    | none => rfl
    | some c =>
      have hc : c ≠ child := by
        rintro rfl
        exact h List.mem_cons_self
      simp [without, hc]
  | many cs =>
    have hcs : ∀ c ∈ cs, c ≠ child := by
      rintro c hc rfl
      exact h hc
    simpa [without] using hcs
  | sparse places =>
    have hplaces : ∀ place ∈ places, place ≠ some child := by
      rintro place hplace rfl
      exact h (List.mem_filterMap.2 ⟨_, hplace, rfl⟩)
    have hmap : ∀ place ∈ places, (if place = some child then none else place) = place := by
      intro place hplace
      exact if_neg (hplaces place hplace)
    rw [without, List.map_congr_left hmap, List.map_id']
  | documentation d? =>
    cases d? with
    | none => rfl
    | some d =>
      have hd : d ≠ .node child := by
        rintro rfl
        exact h List.mem_cons_self
      simp [without, hd]
  | operand type => rfl

theorem shape_without (child : NodeId) (slot : Slot) : (slot.without child).shape = slot.shape := by
  cases slot <;> rfl

/-- A child is taken out of a slot unless the slot has to hold something. -/
theorem remove_of_mem (hmem : child ∈ slot.children) (hnodup : slot.children.Nodup) :
    slot.remove child =
      if slot.shape.isMandatory then .required else .removed (slot.without child) := by
  cases slot with
  | one c =>
    obtain rfl : child = c := List.mem_singleton.1 hmem
    simp [remove, shape, Shape.isMandatory]
  | optional c? =>
    obtain rfl : c? = some child := by simpa [children] using hmem
    simp [remove, shape, Shape.isMandatory, without, Option.filter]
  | many cs =>
    have hcs : child ∈ cs := hmem
    have herase : cs.erase child = cs.filter (· ≠ child) := erase_eq_filter_ne child hnodup
    rw [remove, if_pos hcs, herase]
    rfl
  | sparse places =>
    have hplace : some child ∈ places := by simpa [children] using hmem
    rw [remove, if_pos hplace, replace_none_eq_map child hnodup]
    rfl
  | documentation d? =>
    obtain rfl : d? = some (.node child) := by
      rcases d? with _ | _ | id <;> simp_all [children, Documentation.node?]
    simp [remove, shape, Shape.isMandatory, without, Option.filter]
  | operand type =>
    obtain rfl : type = .node child := by
      cases type <;> simp_all [children, Operand.node?]
    simp [remove, shape, Shape.isMandatory]

end Slot

namespace Slots

variable {child : NodeId} {slots : List Slot}

theorem shapes_without (child : NodeId) (slots : List Slot) :
    shapes (slots.map (Slot.without child)) = shapes slots := by
  simp [shapes, Function.comp_def, Slot.shape_without]

/-- Whether a child stands in a slot that has to hold something. -/
def Requires (child : NodeId) (slots : List Slot) : Prop :=
  ∃ slot ∈ slots, slot.shape.isMandatory ∧ child ∈ slot.children

instance (child : NodeId) (slots : List Slot) : Decidable (Requires child slots) :=
  inferInstanceAs (Decidable (∃ slot ∈ slots, slot.shape.isMandatory ∧ child ∈ slot.children))

theorem requires_cons {slot : Slot} : Requires child (slot :: slots) ↔
    (slot.shape.isMandatory ∧ child ∈ slot.children) ∨ Requires child slots := by
  simp [Requires]

theorem not_requires_of_not_mem (h : child ∉ children slots) : ¬ Requires child slots := by
  rintro ⟨slot, hslot, -, hmem⟩
  exact h (List.mem_flatMap.2 ⟨slot, hslot, hmem⟩)

theorem map_without_of_not_mem (h : child ∉ children slots) :
    slots.map (Slot.without child) = slots := by
  have hslots : ∀ slot ∈ slots, slot.without child = slot := by
    intro slot hslot
    apply Slot.without_of_not_mem
    intro hmem
    exact h (List.mem_flatMap.2 ⟨slot, hslot, hmem⟩)
  rw [List.map_congr_left hslots, List.map_id']

/-- A child stands in one slot only, and is taken out of it unless that slot has to hold
something. -/
theorem remove_of_mem (hmem : child ∈ children slots) (hnodup : (children slots).Nodup) :
    remove child slots =
      if Requires child slots then .required else .removed (slots.map (Slot.without child)) := by
  induction slots with
  | nil => contradiction
  | cons slot rest ih =>
    rw [children_cons] at hmem hnodup
    obtain ⟨hslot, hrest, hdisjoint⟩ := List.nodup_append.1 hnodup
    by_cases hc : child ∈ slot.children
    · have hnot : child ∉ children rest := fun h => hdisjoint child hc child h rfl
      rw [remove, Slot.remove_of_mem hc hslot, List.map_cons, map_without_of_not_mem hnot]
      by_cases hmand : slot.shape.isMandatory
      · have hreq : Requires child (slot :: rest) := requires_cons.2 (.inl ⟨hmand, hc⟩)
        simp [hmand, hreq]
      · have hreq : ¬ Requires child (slot :: rest) := by
          rw [requires_cons]
          rintro (⟨h, -⟩ | h)
          · exact hmand h
          · exact not_requires_of_not_mem hnot h
        simp [hmand, hreq]
    · have hin : child ∈ children rest := (List.mem_append.1 hmem).resolve_left hc
      have hreq : Requires child (slot :: rest) ↔ Requires child rest := by
        rw [requires_cons]
        simp [hc]
      rw [remove, Slot.remove_eq_absent_iff.2 hc, ih hin hrest, List.map_cons,
        Slot.without_of_not_mem hc]
      by_cases h : Requires child rest
      · simp [h, hreq.2 h, Removal.map]
      · simp [h, hreq, Removal.map]

end Slots

namespace Payload

variable {child : NodeId} {p : Payload}

/-- The payload as it is without a child. -/
def without (p : Payload) (child : NodeId) : Payload :=
  p.withSlots (p.slots.map (Slot.without child)) (Slots.shapes_without child p.slots)

theorem remove_of_mem (hmem : child ∈ p.children) (hnodup : p.children.Nodup) :
    p.remove child =
      if Slots.Requires child p.slots then .required else .removed (p.without child) := by
  have hslots := Slots.remove_of_mem hmem hnodup
  unfold remove
  by_cases hreq : Slots.Requires child p.slots
  · rw [if_pos hreq] at hslots ⊢
    split <;> simp_all
  · rw [if_neg hreq] at hslots ⊢
    split <;> simp_all [without]

end Payload

namespace Forest

variable {f g : Forest} {child id k owner p : NodeId} {count : Nat} {n : Node}

/-! ### Taking a node from its parent -/

/-- A child is taken from its parent unless it stands in a slot that has to hold something. -/
theorem Consistent.remove_eq (hf : f.Consistent) (hmem : child ∈ f.children owner)
    (hn : f.get? owner = some n) :
    f.remove owner child =
      if Slots.Requires child n.payload.slots then .error (.requiredChild owner child n.kind)
      else .ok ((f.modifyPayload owner fun _ => n.payload.without child).setParent child none) := by
  have hnodup := hf.nodup owner
  rw [children_of_get? hn] at hmem hnodup
  have hp := Payload.remove_of_mem hmem hnodup
  rw [Forest.remove, node_eq_ok.2 hn]
  by_cases hreq : Slots.Requires child n.payload.slots
  · rw [if_pos hreq] at hp ⊢
    simp only [bind, Except.bind, hp]
  · rw [if_neg hreq] at hp ⊢
    simp only [bind, Except.bind, hp]

/-! ### Forgetting what is below it -/

/-- A forest without the tree of one of its nodes. -/
structure Uprooted (f g : Forest) (id : NodeId) : Prop where
  consistent : g.Consistent
  id_eq : g.id = f.id
  lastId_eq : g.lastId = f.lastId
  overrun_eq : g.overrun = f.overrun
  transactions_eq : g.transactions = f.transactions
  /-- The node and all that have it as an ancestor are gone, and no other. -/
  contains_iff : ∀ k, g.contains k ↔ f.contains k ∧ ¬ f.Reaches k id
  /-- What stays is as it was, but for the former parent. -/
  get?_eq : ∀ {k}, g.contains k → f.parent? id ≠ some k → g.get? k = f.get? k
  /-- The former parent has lost this child and nothing else. -/
  get?_parent : ∀ {p n}, f.parent? id = some p → f.get? p = some n →
    g.get? p = some { n with payload := n.payload.without id }
  children_parent : ∀ {p}, f.parent? id = some p → g.children p = (f.children p).filter (· ≠ id)

/-- The nodes that are forgotten are those that were below the root before it was taken from its
parent. -/
theorem Consistent.uprooted_removeSubtree (hf : f.Consistent)
    (h : f.removeSubtree id = .ok (count, g)) :
    Uprooted f g id ∧ ∃ gone : List NodeId, gone.Nodup ∧ gone.length = count ∧
      ∀ k, k ∈ gone ↔ f.contains k ∧ f.Reaches k id := by
  obtain ⟨d, hd, hsame, hroot, horigin, rfl, rfl⟩ := hf.removeSubtree_eq_ok h
  have hmark : ∀ c, c ≠ id → d.parent? c = f.parent? c := by
    intro c hc
    rcases horigin with rfl | ⟨p, hremove⟩
    · rfl
    · rw [hf.parent?_remove hremove, if_neg hc]
  have hgone : ∀ k, k ∈ d.walk id ↔ f.contains k ∧ f.Reaches k id := by
    intro k
    rw [hd.mem_walk_iff, hsame.contains_iff, reaches_iff_of_parent? hmark]
  -- a former parent means that the root has been taken from it, and it stays
  have hparent : ∀ {p}, f.parent? id = some p → f.remove p id = .ok d ∧ p ∉ d.walk id := by
    intro p hp
    constructor
    · rcases horigin with rfl | ⟨q, hremove⟩
      · rw [hp] at hroot
        contradiction
      · have hq := hf.parent?_of_mem (children_remove hremove).1
        rw [hp] at hq
        rwa [Option.some.inj hq]
    · intro hwalk
      exact hf.not_reaches_of_parent? hp ((hgone p).1 hwalk).2
  refine ⟨⟨hd.erase_walk hroot, hsame.id_eq, hsame.lastId_eq, hsame.overrun_eq,
    hsame.transactions_eq, ?_, ?_, ?_, ?_⟩, d.walk id, hd.nodup_walk id, rfl, hgone⟩
  · intro k
    rw [contains_erase, hgone, hsame.contains_iff]
    tauto
  · intro k hk hother
    obtain ⟨hwalk, hreg⟩ := contains_erase _ |>.1 hk
    rw [get?_erase, if_neg hwalk]
    rcases horigin with rfl | ⟨p, hremove⟩
    · rfl
    · have hp := hf.parent?_of_mem (children_remove hremove).1
      apply (hf.rearranged_remove hremove).get?_eq
      · rintro rfl
        exact hother hp
      · intro hmem
        obtain rfl := List.mem_singleton.1 hmem
        exact hwalk (hd.self_mem_walk hreg)
  · intro p n hp hn
    obtain ⟨hremove, hwalk⟩ := hparent hp
    have hne := hf.ne_of_mem_children (hf.mem_of_parent? hp)
    rw [hf.remove_eq (hf.mem_of_parent? hp) hn] at hremove
    split at hremove
    · contradiction
    · obtain rfl := Except.ok.inj hremove
      rw [get?_erase, if_neg hwalk, get?_setParent, if_neg hne, get?_modifyPayload hn, if_pos rfl]
  · intro p hp
    obtain ⟨hremove, hwalk⟩ := hparent hp
    rw [children_erase, if_neg hwalk, (children_remove hremove).2, if_pos rfl,
      erase_eq_filter_ne id (hf.nodup p)]

theorem removeSubtree_of_none (h : f.get? id = none) :
    f.removeSubtree id = .error (.unknownNode id) := by
  rw [removeSubtree, node, h]
  rfl

/-- A root is forgotten as it stands. -/
theorem removeSubtree_of_root (hn : f.get? id = some n) (hroot : n.parent? = none) :
    f.removeSubtree id = .ok ((f.walk id).length, f.erase (f.walk id)) := by
  rw [removeSubtree, node_eq_ok.2 hn]
  simp only [bind, Except.bind, hroot]
  rfl

/-- A child is taken from its parent first, and what this answers is passed on. -/
theorem removeSubtree_of_parent? (hn : f.get? id = some n) (hp : n.parent? = some p) :
    f.removeSubtree id =
      (f.remove p id).map fun d => ((d.walk id).length, d.erase (d.walk id)) := by
  rw [removeSubtree, node_eq_ok.2 hn]
  simp only [bind, Except.bind, hp]
  cases f.remove p id <;> rfl

/-- A tree stays only if it is not there or the place of its root cannot be left empty. -/
theorem Consistent.removeSubtree_eq_error_iff (hf : f.Consistent) {fault : Fault} :
    f.removeSubtree id = .error fault ↔ (¬ f.contains id ∧ fault = .unknownNode id) ∨
      ∃ p n, f.parent? id = some p ∧ f.get? p = some n ∧ Slots.Requires id n.payload.slots ∧
        fault = .requiredChild p id n.kind := by
  cases hm : f.get? id with
  | none =>
    have hfree := not_contains_of_get?_eq_none hm
    rw [removeSubtree_of_none hm]
    constructor
    · intro h
      exact .inl ⟨hfree, (Except.error.inj h).symm⟩
    · rintro (⟨-, rfl⟩ | ⟨p, n, hp, -⟩)
      · rfl
      · exact absurd (contains_of_parent? hp) hfree
  | some m =>
    have hreg : f.contains id := contains_iff_get?.2 ⟨m, hm⟩
    have hmark := parent?_of_get? hm
    cases hp : m.parent? with
    | none =>
      rw [hp] at hmark
      rw [removeSubtree_of_root hm hp]
      simp [hreg, hmark]
    | some p =>
      rw [hp] at hmark
      obtain ⟨n, hn⟩ := contains_iff_get?.1 (hf.contains_parent hmark)
      rw [removeSubtree_of_parent? hm hp, hf.remove_eq (hf.mem_of_parent? hmark) hn]
      by_cases hreq : Slots.Requires id n.payload.slots
      · rw [if_pos hreq]
        simp [hreg, hmark, hn, hreq, Except.map, eq_comm (a := fault)]
      · rw [if_neg hreq]
        simp [hreg, hmark, hn, hreq, Except.map]

/-- **A removed subtree is gone with exactly its descendants.**  Their number is given back, what
stays is as it was but for the place of the subtree in its former parent, and the forest is
consistent.  A subtree is kept only if there is none under the id, or if its root stands where the
parent cannot be without it. -/
theorem removeSubtree_spec (hf : f.Consistent) (id : NodeId) :
    (∀ {count g}, f.removeSubtree id = .ok (count, g) →
      Uprooted f g id ∧ ∃ gone : List NodeId, gone.Nodup ∧ gone.length = count ∧
        ∀ k, k ∈ gone ↔ f.contains k ∧ f.Reaches k id) ∧
    ∀ fault, f.removeSubtree id = .error fault ↔ (¬ f.contains id ∧ fault = .unknownNode id) ∨
      ∃ p n, f.parent? id = some p ∧ f.get? p = some n ∧ Slots.Requires id n.payload.slots ∧
        fault = .requiredChild p id n.kind := by
  constructor
  · intro count g h
    exact hf.uprooted_removeSubtree h
  · intro fault
    exact hf.removeSubtree_eq_error_iff

/-- The tuple leaves the block that it stands in with two of its three names; the first name leaves
a hole in the tuple. -/
theorem removeSubtree_spec_nestedBlocks :
    nestedBlocks.Consistent ∧
    (∃ g, nestedBlocks.removeSubtree 4 = .ok (3, g) ∧ g.children 5 = [3] ∧
      g.get? 6 = nestedBlocks.get? 6 ∧ ¬ g.contains 1) ∧
    ∃ g n, nestedBlocks.removeSubtree 1 = .ok (1, g) ∧ g.get? 4 = some n ∧
      n.payload.slots = [.sparse [none, none, some 2]] := by
  obtain ⟨htuple, -⟩ := removeSubtree_spec consistent_nestedBlocks 4
  obtain ⟨hname, -⟩ := removeSubtree_spec consistent_nestedBlocks 1
  have hwithoutTuple : nestedBlocks.removeSubtree 4 = .ok (3, _) := rfl
  have hwithoutName : nestedBlocks.removeSubtree 1 = .ok (1, _) := rfl
  have h4 : nestedBlocks.parent? 4 = some 5 := rfl
  have h1 : nestedBlocks.parent? 1 = some 4 := rfl
  have hnode : nestedBlocks.get? 4 = some _ := rfl
  obtain ⟨hup, -⟩ := htuple hwithoutTuple
  obtain ⟨hupName, -⟩ := hname hwithoutName
  refine ⟨consistent_nestedBlocks, ⟨_, hwithoutTuple, ?_, ?_, ?_⟩,
    ⟨_, _, hwithoutName, hupName.get?_parent h1 hnode, rfl⟩⟩
  · rw [hup.children_parent h4]
    rfl
  · apply hup.get?_eq
    · rw [hup.contains_iff]
      constructor
      · rfl
      · intro hreach
        exact absurd (hreach.eq_of_root rfl) (by decide)
    · rw [h4]
      decide
  · rw [hup.contains_iff]
    rintro ⟨-, hout⟩
    exact hout (.single h1)

end Forest

end SolidityTree
