import SolidityTree.Proofs.Failures
import SolidityTree.Proofs.Positions

/-!
# What can be replaced

A replacement names an owner, a child of it and the node that comes in the place of the child.
`Forest.replace` puts its questions about the three in a fixed order: whether the new node is the
old one, whether it can be attached, whether it may stand where documentation stands, and whether
the old one is a child at all.  A yes to the first question ends the replacement, so a node is put
in its own place under every owner, also under one that is not its parent or not registered.  For
two different nodes the conditions are those of `Forest.Replaceable`.

Main statement: `Forest.Consistent.replace_outcomes`.
-/

namespace SolidityTree

theorem Except.bind_eq_error {α β : Type} {x : Except Fault α} {next : α → Except Fault β}
    {fault : Fault} :
    x >>= next = .error fault ↔ x = .error fault ∨ ∃ a, x = .ok a ∧ next a = .error fault := by
  cases x <;> simp [bind, Except.bind]

namespace Forest

variable {f : Forest} {k old owner : NodeId} {new : Handle} {fault : Fault}

/-! ### Whether a node can be attached -/

theorem Consistent.checkAttachable_eq_ok_iff (hf : f.Consistent) :
    f.checkAttachable owner new = .ok () ↔ new.forest = f.id ∧ f.Attachable owner new.id :=
  ⟨fun h => ⟨forest_eq_of_check h, hf.attachable_of_check h⟩,
    fun ⟨hforest, h⟩ => hf.check_of_attachable hforest h⟩

theorem Attachable.exists_get? (h : f.Attachable owner k) :
    ∃ m n, f.get? k = some m ∧ f.get? owner = some n := by
  obtain ⟨m, hm⟩ := contains_iff_get?.1 h.contains_child
  obtain ⟨n, hn⟩ := contains_iff_get?.1 h.contains_parent
  exact ⟨m, n, hm, hn⟩

theorem node_eq_error (h : f.node k = .error fault) : fault = .unknownNode k := by
  unfold node at h
  split at h
  · contradiction
  · exact (Except.error.inj h).symm

theorem checkDetached_eq_error (h : f.checkDetached k = .error fault) :
    fault = .unknownNode k ∨ ∃ parent, fault = .alreadyAttached k parent := by
  rcases Except.bind_eq_error.1 h with h | ⟨n, -, h⟩
  · exact .inl (node_eq_error h)
  · split at h
    · exact .inr ⟨_, (Except.error.inj h).symm⟩
    · contradiction

/-- The faults of a node that cannot be attached. -/
theorem checkAttachable_eq_error (h : f.checkAttachable owner new = .error fault) :
    fault = .foreign new.id f.id new.forest ∨ fault = .unknownNode owner ∨
      fault = .unknownNode new.id ∨ (∃ parent, fault = .alreadyAttached new.id parent) ∨
      fault = .cycle owner new.id := by
  unfold checkAttachable at h
  dsimp only at h
  split at h
  · exact .inl (Except.error.inj h).symm
  rcases Except.bind_eq_error.1 h with h | ⟨n, -, h⟩
  · exact .inr (.inl (node_eq_error h))
  rcases Except.bind_eq_error.1 h with h | ⟨⟨⟩, -, h⟩
  · rcases checkDetached_eq_error h with h | h
    · exact .inr (.inr (.inl h))
    · exact .inr (.inr (.inr (.inl h)))
  · split at h
    · exact .inr (.inr (.inr (.inr (Except.error.inj h).symm)))
    · contradiction

/-- Which children the owner has is none of the questions about the new node. -/
theorem checkAttachable_ne_notAChild :
    f.checkAttachable owner new ≠ .error (.notAChild owner old) := by
  intro h
  rcases checkAttachable_eq_error h with h | h | h | ⟨parent, h⟩ | h <;> cases h

/-! ### Two different nodes -/

/-- A node that can be put in the place of a child. -/
structure Replaceable (f : Forest) (owner : NodeId) (new : Handle) (old : NodeId) : Prop where
  forest_eq : new.forest = f.id
  attachable : f.Attachable owner new.id
  mem_children : old ∈ f.children owner
  /-- Only documentation takes the place of documentation. -/
  kind?_eq : f.documentationNode? owner = some old → f.kind? new.id = some .structuredDocumentation

theorem replace_of_check_error (hne : new ≠ f.handle old)
    (hcheck : f.checkAttachable owner new = .error fault) :
    f.replace owner new old = .error fault := by
  rw [replace, if_neg hne, hcheck]
  rfl

/-- Once the new node can be attached, its kind and the children are looked at. -/
theorem replace_of_check (hne : new ≠ f.handle old) (hcheck : f.checkAttachable owner new = .ok ())
    {m n : Node} (hm : f.get? new.id = some m) (hn : f.get? owner = some n) :
    f.replace owner new old =
      if n.payload.documentation? = some (some (.node old)) ∧ m.kind ≠ .structuredDocumentation then
        .error (.kindMismatch new.id .structuredDocumentation m.kind)
      else
        match n.payload.replace? old new.id with
        | some payload => .ok ((f.setParent old none).attach owner new.id payload)
        | none => .error (.notAChild owner old) := by
  rw [replace, if_neg hne, hcheck, node_eq_ok.2 hm, node_eq_ok.2 hn]
  rfl

/-- What is no child is not documentation either, so the last question is reached. -/
theorem replace_of_not_mem (hne : new ≠ f.handle old)
    (hcheck : f.checkAttachable owner new = .ok ()) {m n : Node} (hm : f.get? new.id = some m)
    (hn : f.get? owner = some n) (hold : old ∉ f.children owner) :
    f.replace owner new old = .error (.notAChild owner old) := by
  rw [children_of_get? hn] at hold
  have hdoc : n.payload.documentation? ≠ some (some (.node old)) := fun h =>
    hold (Payload.mem_children_of_documentation? h)
  have hnone : n.payload.replace? old new.id = none := by
    rw [Option.eq_none_iff_forall_ne_some]
    intro payload hpayload
    exact hold (Payload.children_replace? hpayload).1
  rw [replace_of_check hne hcheck hm hn, if_neg fun h => hdoc h.1, hnone]

theorem Consistent.exists_replace_iff (hf : f.Consistent) (hne : new ≠ f.handle old) :
    (∃ g, f.replace owner new old = .ok g) ↔ f.Replaceable owner new old := by
  constructor
  · rintro ⟨g, h⟩
    rcases replace_eq_ok h with ⟨heq, -⟩ | ⟨hcheck, n, payload, hn, hpayload, hkind, -⟩
    · exact absurd heq hne
    obtain ⟨hforest, hattach⟩ := hf.checkAttachable_eq_ok_iff.1 hcheck
    refine ⟨hforest, hattach, ?_, fun hdoc => ?_⟩
    · rw [children_of_get? hn]
      exact (Payload.children_replace? hpayload).1
    · rw [documentationNode?_of_get? hn] at hdoc
      obtain ⟨m, hm, hm'⟩ := hkind (Payload.documentationNode?_eq_some.1 hdoc)
      rw [kind?_of_get? hm, hm']
  · intro h
    obtain ⟨m, n, hm, hn⟩ := h.attachable.exists_get?
    have hold := h.mem_children
    rw [children_of_get? hn] at hold
    obtain ⟨payload, hpayload⟩ := Payload.exists_replace? hold new.id
    have hkind : ¬ (n.payload.documentation? = some (some (.node old)) ∧
        m.kind ≠ .structuredDocumentation) := by
      rintro ⟨hdoc, hm'⟩
      have hkind := h.kind?_eq
      rw [documentationNode?_of_get? hn, kind?_of_get? hm, Option.some.injEq] at hkind
      exact hm' (hkind (Payload.documentationNode?_eq_some.2 hdoc))
    have hcheck := hf.check_of_attachable h.forest_eq h.attachable
    exact ⟨_, by rw [replace_of_check hne hcheck hm hn, if_neg hkind, hpayload]⟩

theorem Consistent.replace_eq_notAChild_iff (hf : f.Consistent) (hne : new ≠ f.handle old) :
    f.replace owner new old = .error (.notAChild owner old) ↔
      f.checkAttachable owner new = .ok () ∧ old ∉ f.children owner := by
  constructor
  · intro h
    cases hcheck : f.checkAttachable owner new with
    | error fault =>
      rw [replace_of_check_error hne hcheck] at h
      cases h
      exact absurd hcheck checkAttachable_ne_notAChild
    | ok =>
      refine ⟨rfl, fun hold => ?_⟩
      obtain ⟨m, n, hm, hn⟩ := (hf.attachable_of_check hcheck).exists_get?
      rw [children_of_get? hn] at hold
      obtain ⟨payload, hpayload⟩ := Payload.exists_replace? hold new.id
      rw [replace_of_check hne hcheck hm hn, hpayload] at h
      split at h <;> cases h
  · rintro ⟨hcheck, hold⟩
    obtain ⟨m, n, hm, hn⟩ := (hf.attachable_of_check hcheck).exists_get?
    exact replace_of_not_mem hne hcheck hm hn hold

/-! ### All nodes -/

/-- **A node takes its own place under any owner, and nothing changes;** another node is accepted
exactly if it can be attached and the old one is a child that it may stand for, and the fault that
the old one is no child is exactly that of a node that could be attached. -/
theorem Consistent.replace_outcomes (hf : f.Consistent) (owner old : NodeId) (new : Handle) :
    (new = f.handle old → f.replace owner new old = .ok f) ∧
    (new ≠ f.handle old →
      ((∃ g, f.replace owner new old = .ok g) ↔ f.Replaceable owner new old) ∧
      (f.replace owner new old = .error (.notAChild owner old) ↔
        f.checkAttachable owner new = .ok () ∧ old ∉ f.children owner) ∧
      ∀ {fault}, f.checkAttachable owner new = .error fault →
        f.replace owner new old = .error fault) := by
  refine ⟨fun heq => ?_, fun hne => ?_⟩
  · rw [Forest.replace, if_pos heq]
  · exact ⟨hf.exists_replace_iff hne, hf.replace_eq_notAChild_iff hne,
      fun hcheck => replace_of_check_error hne hcheck⟩

/-- The fourth name is no child of the block, and of no node with the id 9 either, yet it takes its
own place there; it takes the place of the third name, which is in the block, and not that of the
first, which is in the tuple. -/
theorem replace_outcomes_tupleAndBlock :
    (4 ∉ tupleAndBlock.children 6 ∧ tupleAndBlock.replace 6 ⟨0, 4⟩ 4 = .ok tupleAndBlock) ∧
    (¬ tupleAndBlock.contains 9 ∧ tupleAndBlock.replace 9 ⟨0, 4⟩ 4 = .ok tupleAndBlock) ∧
    (∃ g, tupleAndBlock.replace 6 ⟨0, 4⟩ 3 = .ok g) ∧
    tupleAndBlock.replace 6 ⟨0, 4⟩ 1 = .error (.notAChild 6 1) := by
  have hchildren : tupleAndBlock.children 6 = [3] := rfl
  have houtcomes := consistent_tupleAndBlock.replace_outcomes
  have hcheck : tupleAndBlock.checkAttachable 6 ⟨0, 4⟩ = .ok () := rfl
  obtain ⟨hforest, hattach⟩ := consistent_tupleAndBlock.checkAttachable_eq_ok_iff.1 hcheck
  have hthird : tupleAndBlock.Replaceable 6 ⟨0, 4⟩ 3 :=
    ⟨hforest, hattach, by simp [hchildren], fun hdoc => by cases hdoc⟩
  refine ⟨⟨by simp [hchildren], (houtcomes 6 4 ⟨0, 4⟩).1 rfl⟩,
    ⟨by decide, (houtcomes 9 4 ⟨0, 4⟩).1 rfl⟩, ?_, ?_⟩
  · exact ((houtcomes 6 3 ⟨0, 4⟩).2 (by decide)).1.2 hthird
  · exact ((houtcomes 6 1 ⟨0, 4⟩).2 (by decide)).2.1.2 ⟨hcheck, by simp [hchildren]⟩

end Forest

end SolidityTree
