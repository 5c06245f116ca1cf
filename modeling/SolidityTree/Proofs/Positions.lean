import SolidityTree.Proofs.Recovery
import SolidityTree.Proofs.Registrations

/-!
# Where edits put children

The children of a node are read off several slots, and each edit looks for its slot in a way of its
own.  What comes of it for the sequence of children does not show this: a child is put before all
others or behind them, taken out, or put in the place of another one (`Forest.children_of_edits`).
Beside the slots of its owner and the marks of the children that it names, an edit changes nothing
(`Forest.Rearranged`).

No child is listed twice, so "the first occurrence" that edits look for is the only one.
-/

namespace SolidityTree

/-! ### Sequences -/

/-- What takes the place of a value stands at its index. -/
theorem replace_eq_set_idxOf (old new : NodeId) (cs : List NodeId) :
    cs.replace old new = cs.set (cs.idxOf old) new := by
  induction cs with
  | nil => rfl
  | cons c rest ih =>
    by_cases hc : old = c
    · subst hc
      simp
    · have hne : (old == c) = false := by simpa using hc
      rw [List.replace_cons, hne, List.idxOf_cons_ne rest (Ne.symm hc), List.set_cons_succ]
      exact congrArg (c :: ·) ih

/-- A value that is listed once is taken out with all that are equal to it. -/
theorem erase_eq_filter_ne (child : NodeId) {cs : List NodeId} (h : cs.Nodup) :
    cs.erase child = cs.filter (· ≠ child) := by
  rw [h.erase_eq_filter]
  exact List.filter_congr fun c _ => by rw [bne, beq_eq_decide, decide_not]

/-- Where a child fills one place at most, taking it out makes a hole of that place. -/
theorem replace_none_eq_map (child : NodeId) {places : List (Option NodeId)}
    (h : (places.filterMap id).Nodup) :
    places.replace (some child) none =
      places.map fun place => if place = some child then none else place := by
  induction places with
  | nil => rfl
  | cons place rest ih =>
    by_cases hplace : place = some child
    · subst hplace
      have hrest : ∀ other ∈ rest, (if other = some child then none else other) = other := by
        intro other hother
        rw [if_neg]
        rintro rfl
        exact (List.nodup_cons.1 h).1 (List.mem_filterMap.2 ⟨_, hother, rfl⟩)
      rw [List.replace_cons_self, List.map_cons, if_pos rfl, List.map_congr_left hrest, List.map_id']
    · have hne : (some child == place) = false := by simpa using Ne.symm hplace
      have hrest : (rest.filterMap id).Nodup := by
        cases place with
        | none => exact h
        | some c => exact (List.nodup_cons.1 h).2
      rw [List.replace_cons, hne, List.map_cons, if_neg hplace]
      exact congrArg (place :: ·) (ih hrest)

/-- The components of a tuple are its only slot. -/
theorem Payload.slots_of_tuple {p : Payload} (h : p.kind = .tupleExpression) :
    ∃ places, p.slots = [.sparse places] := by
  have hlayout : p.kind.layout.map Field.shape = [.sparse] := by
    rw [h]
    rfl
  obtain ⟨slot, hslots, hslot⟩ := exists_slots_eq hlayout
  cases slot with
  | sparse places => exact ⟨places, hslots⟩
  | _ => contradiction

/-- A component that is taken out of a tuple leaves a hole. -/
theorem Payload.slots_remove_of_sparse {p p' : Payload} {child : NodeId}
    {places : List (Option NodeId)} (hslots : p.slots = [.sparse places])
    (h : p.remove child = .removed p') (hnodup : p.children.Nodup) :
    p'.slots = [.sparse (places.map fun place => if place = some child then none else place)] := by
  have hremove := slots_of_remove h
  rw [children, hslots, Slots.children_cons, Slots.children_nil, List.append_nil] at hnodup
  rw [hslots, Slots.remove, Slot.remove] at hremove
  split at hremove
  · next hslot =>
    split at hslot
    · cases hslot
      rw [← replace_none_eq_map child hnodup]
      exact (Removal.removed.inj hremove).symm
    · contradiction
  · contradiction
  · cases hremove

namespace Forest

variable {f g : Forest} {child k new old owner : NodeId}

/-! ### What an edit leaves alone -/

/-- The slots of one node and the parent marks of some are all that differs between two forests. -/
structure Rearranged (f g : Forest) (owner : NodeId) (moved : List NodeId) : Prop where
  id_eq : g.id = f.id
  lastId_eq : g.lastId = f.lastId
  overrun_eq : g.overrun = f.overrun
  transactions_eq : g.transactions = f.transactions
  get?_eq : ∀ {k}, k ≠ owner → k ∉ moved → g.get? k = f.get? k
  /-- The owner may hold other children, and keeps all else. -/
  get?_owner : ∀ {n}, f.get? owner = some n → ∃ payload, payload.attributes = n.payload.attributes ∧
    g.get? owner = some { n with payload := payload }
  /-- The mark of a child that moves may be another one, and nothing else of it. -/
  get?_moved : ∀ {k n}, k ∈ moved → f.get? k = some n →
    ∃ parent?, g.get? k = some { n with parent? := parent? }

/-- Under every id the node is found that was there, but for the payload of the owner and the marks
of those that move. -/
theorem rearranged_of_get? (mark? : NodeId → Option NodeId) {n : Node} {payload : Payload}
    {moved : List NodeId} (hsame : SameNodes f g) (hn : f.get? owner = some n)
    (hattributes : payload.attributes = n.payload.attributes) (howner : owner ∉ moved)
    (hget : ∀ k, g.get? k = if k = owner then some { n with payload := payload }
      else if k ∈ moved then (f.get? k).map fun m => { m with parent? := mark? k }
      else f.get? k) :
    Rearranged f g owner moved where
  id_eq := hsame.id_eq
  lastId_eq := hsame.lastId_eq
  overrun_eq := hsame.overrun_eq
  transactions_eq := hsame.transactions_eq
  get?_eq {k} hk hmoved := by rw [hget, if_neg hk, if_neg hmoved]
  get?_owner {m} hm := by
    obtain rfl : m = n := Option.some.inj (hm.symm.trans hn)
    exact ⟨payload, hattributes, by rw [hget, if_pos rfl]⟩
  get?_moved {k m} hk hm := by
    have hne : k ≠ owner := by
      rintro rfl
      exact howner hk
    exact ⟨mark? k, by rw [hget, if_neg hne, if_pos hk, hm, Option.map_some]⟩

theorem get?_modifyPayload {n : Node} (hn : f.get? owner = some n) (payload : Payload) :
    (f.modifyPayload owner fun _ => payload).get? k =
      if k = owner then some { n with payload := payload } else f.get? k := by
  rw [modifyPayload, get?_modify]
  by_cases hk : k = owner
  · subst hk
    rw [if_pos rfl, if_pos rfl, hn]
    rfl
  · rw [if_neg (Ne.symm hk), if_neg hk]

/-- A child gets its mark, and its owner the payload that lists it. -/
theorem rearranged_attach {n : Node} {payload : Payload} (hn : f.get? owner = some n)
    (hattributes : payload.attributes = n.payload.attributes) (hne : child ≠ owner) :
    Rearranged f (f.attach owner child payload) owner [child] := by
  apply rearranged_of_get? (fun _ => some owner) (SameNodes.attach f owner child payload) hn
    hattributes
  · simpa using Ne.symm hne
  · intro k
    rw [attach, get?_setParent, get?_modifyPayload hn]
    by_cases hk : child = k
    · subst hk
      simp [hne]
    · simp [hk, Ne.symm hk]

/-- A node that can be attached is not its own new parent. -/
theorem Attachable.ne (h : f.Attachable owner child) : child ≠ owner := by
  rintro rfl
  exact h.not_above .refl

/-- No node is its own child. -/
theorem Consistent.ne_of_mem_children (hf : f.Consistent) (h : child ∈ f.children owner) :
    child ≠ owner := by
  rintro rfl
  exact hf.not_reaches_of_parent? (hf.parent?_of_mem h) .refl

/-! ### The edits -/

/-- A child that is attached is listed as its new owner's payload says. -/
theorem attach_spec {n : Node} {payload : Payload} (hattach : f.Attachable owner child)
    (hn : f.get? owner = some n) (hattributes : payload.attributes = n.payload.attributes) :
    (f.attach owner child payload).children owner = payload.children ∧
      (f.attach owner child payload).parent? child = some owner ∧
      Rearranged f (f.attach owner child payload) owner [child] := by
  refine ⟨?_, ?_, rearranged_attach hn hattributes hattach.ne⟩
  · rw [children_attach hn, if_pos rfl]
  · rw [parent?_attach hattach.contains_child, if_pos rfl]

theorem Consistent.rearranged_remove (hf : f.Consistent) (h : f.remove owner child = .ok g) :
    Rearranged f g owner [child] := by
  have hsame := (hf.remove h).sameNodes
  have hne := hf.ne_of_mem_children (children_remove h).1
  obtain ⟨n, payload, hn, hp, rfl⟩ := remove_eq_ok h
  apply rearranged_of_get? (fun _ => none) hsame hn (Payload.attributes_remove hp)
  · simpa using Ne.symm hne
  · intro k
    rw [get?_setParent, get?_modifyPayload hn]
    by_cases hk : child = k
    · subst hk
      simp [hne]
    · simp [hk, Ne.symm hk]

/-- A component that is taken out of a tuple leaves a hole in its place. -/
theorem Consistent.slots_remove_of_tuple (hf : f.Consistent) (h : f.remove owner child = .ok g)
    {n : Node} (hn : f.get? owner = some n) (hkind : n.kind = .tupleExpression) :
    ∃ places m, n.payload.slots = [.sparse places] ∧ g.get? owner = some m ∧
      m.payload.slots =
        [.sparse (places.map fun place => if place = some child then none else place)] := by
  have hne := hf.ne_of_mem_children (children_remove h).1
  obtain ⟨n', payload, hn', hp, rfl⟩ := remove_eq_ok h
  obtain rfl : n = n' := Option.some.inj (hn.symm.trans hn')
  have hnodup : n.payload.children.Nodup := by
    have := hf.nodup owner
    rwa [children_of_get? hn] at this
  obtain ⟨places, hplaces⟩ := Payload.slots_of_tuple hkind
  refine ⟨places, { n with payload := payload }, hplaces, ?_, ?_⟩
  · rw [get?_setParent, if_neg hne, get?_modifyPayload hn, if_pos rfl]
  · exact Payload.slots_remove_of_sparse hplaces hp hnodup

theorem Consistent.replace_spec (hf : f.Consistent) {new : Handle}
    (h : f.replace owner new old = .ok g) (hne : new ≠ f.handle old) :
    old ∈ f.children owner ∧ g.children owner = (f.children owner).replace old new.id ∧
      g.parent? old = none ∧ g.parent? new.id = some owner ∧
      Rearranged f g owner [old, new.id] := by
  have hsame := (hf.replace h).sameNodes
  rcases replace_eq_ok h with ⟨heq, -⟩ | ⟨hcheck, n, payload, hn, hp, -, rfl⟩
  · exact absurd heq hne
  obtain ⟨hmem, hcs⟩ := Payload.children_replace? hp
  have hold : old ∈ f.children owner := by rwa [children_of_get? hn]
  have hattach := hf.attachable_of_check hcheck
  -- the new child has no parent yet, so the three nodes differ
  have hnew : new.id ≠ old := by
    intro heq
    have hparent := hf.parent?_of_mem hold
    rw [← heq, hattach.detached] at hparent
    contradiction
  have hownerold := hf.ne_of_mem_children hold
  have hownernew := hattach.ne
  have hn' : (f.setParent old none).get? owner = some n := by
    rw [get?_setParent, if_neg hownerold, hn]
  have hget : ∀ k, ((f.setParent old none).attach owner new.id payload).get? k =
      if k = owner then some { n with payload := payload }
      else if k ∈ [old, new.id] then
        (f.get? k).map fun m => { m with parent? := if k = old then none else some owner }
      else f.get? k := by
    intro k
    rw [Forest.attach, get?_setParent, get?_modifyPayload hn', get?_setParent]
    by_cases hk : k = owner
    · subst hk
      simp [hownernew]
    · by_cases hkold : k = old
      · subst hkold
        simp [hnew, hk]
      · by_cases hknew : k = new.id
        · subst hknew
          simp [hk, hkold, Ne.symm hkold]
        · simp [hk, hkold, hknew, Ne.symm hkold, Ne.symm hknew]
  refine ⟨hold, ?_, ?_, ?_, ?_⟩
  · rw [children_attach hn', if_pos rfl, hcs, children_of_get? hn]
    rfl
  · obtain ⟨m, hm⟩ := contains_iff_get?.1 (hf.contains_child hold)
    rw [parent?, hget, if_neg hownerold, if_pos List.mem_cons_self, hm]
    simp
  · rw [parent?_attach (by simpa using hattach.contains_child), if_pos rfl]
  · apply rearranged_of_get? _ hsame hn (Payload.attributes_replace? hp) _ hget
    simp [Ne.symm hownerold, Ne.symm hownernew]

/-- **An edit puts children where it says:** behind all others, before them, out of their sequence,
or at the index of another one; a component that is taken out of a tuple leaves a hole. -/
theorem children_of_edits (hf : f.Consistent) (owner : NodeId) :
    (∀ {child g}, f.append owner child = .ok g →
      g.children owner = f.children owner ++ [child.id] ∧ g.parent? child.id = some owner ∧
        Rearranged f g owner [child.id]) ∧
    (∀ {child g}, f.prepend owner child = .ok g →
      g.children owner = child.id :: f.children owner ∧ g.parent? child.id = some owner ∧
        Rearranged f g owner [child.id]) ∧
    (∀ {child g}, f.remove owner child = .ok g →
      child ∈ f.children owner ∧ g.children owner = (f.children owner).filter (· ≠ child) ∧
        g.parent? child = none ∧ Rearranged f g owner [child] ∧
        ∀ {n}, f.get? owner = some n → n.kind = .tupleExpression →
          ∃ places m, n.payload.slots = [.sparse places] ∧ g.get? owner = some m ∧
            m.payload.slots =
              [.sparse (places.map fun place => if place = some child then none else place)]) ∧
    (∀ {new old g}, f.replace owner new old = .ok g → new ≠ f.handle old →
      old ∈ f.children owner ∧ (g.children owner).length = (f.children owner).length ∧
        g.children owner = (f.children owner).set ((f.children owner).idxOf old) new.id ∧
        g.parent? old = none ∧ g.parent? new.id = some owner ∧
        Rearranged f g owner [old, new.id]) := by
  refine ⟨?_, ?_, ?_, ?_⟩
  · intro child g h
    obtain ⟨hcheck, n, payload, hn, hp, rfl⟩ := append_eq_ok h
    obtain ⟨hchildren, hrest⟩ :=
      attach_spec (hf.attachable_of_check hcheck) hn (Payload.attributes_append? hp)
    rw [Payload.children_append? hp] at hchildren
    rw [hchildren, children_of_get? hn]
    exact ⟨rfl, hrest⟩
  · intro child g h
    obtain ⟨hcheck, n, payload, hn, hp, rfl⟩ := prepend_eq_ok h
    obtain ⟨hchildren, hrest⟩ :=
      attach_spec (hf.attachable_of_check hcheck) hn (Payload.attributes_prepend? hp)
    rw [Payload.children_prepend? hp] at hchildren
    rw [hchildren, children_of_get? hn]
    exact ⟨rfl, hrest⟩
  · intro child g h
    obtain ⟨hmem, hchildren⟩ := children_remove h
    refine ⟨hmem, ?_, ?_, hf.rearranged_remove h, hf.slots_remove_of_tuple h⟩
    · rw [hchildren, if_pos rfl, erase_eq_filter_ne child (hf.nodup owner)]
    · rw [hf.parent?_remove h, if_pos rfl]
  · intro new old g h hne
    obtain ⟨hold, hchildren, hrest⟩ := hf.replace_spec h hne
    refine ⟨hold, ?_, ?_, hrest⟩
    · rw [hchildren, replace_eq_set_idxOf, List.length_set]
    · rw [hchildren, replace_eq_set_idxOf]

/-- Four names, the tuple `(x, , x)` of the first two, and a block with the third. -/
def tupleAndBlockNodes : List Node :=
  [1, 2, 3, 4].map (fun id => .fresh id .unknown (.identifier "" "x" .builtin []) none) ++
    [.fresh 5 .unknown (.tupleExpression "" false [some 1, none, some 2]) none, blockNode 6 [3]]

/-- The forest of these nodes. -/
def tupleAndBlock : Forest := tupleAndBlockNodes.foldl insert (empty 0)

theorem consistent_tupleAndBlock : tupleAndBlock.Consistent := by
  have hregister : (empty 0).registerAll tupleAndBlockNodes = .ok tupleAndBlock := rfl
  exact (consistent_empty 0).registerAll hregister (by decide)

/-- The fourth name is put behind the third, before it and in its place, and the first is taken out
of the tuple. -/
theorem children_of_edits_tupleAndBlock :
    (∃ g, tupleAndBlock.append 6 ⟨0, 4⟩ = .ok g ∧ g.children 6 = [3, 4]) ∧
    (∃ g, tupleAndBlock.prepend 6 ⟨0, 4⟩ = .ok g ∧ g.children 6 = [4, 3]) ∧
    (∃ g m, tupleAndBlock.remove 5 1 = .ok g ∧ g.get? 5 = some m ∧
      m.payload.slots = [.sparse [none, none, some 2]]) ∧
    (∃ g, tupleAndBlock.replace 6 ⟨0, 4⟩ 3 = .ok g ∧ g.children 6 = [4]) := by
  have hchildren : tupleAndBlock.children 6 = [3] := rfl
  obtain ⟨happend, hprepend, -, hreplace⟩ := children_of_edits consistent_tupleAndBlock 6
  obtain ⟨-, -, hremove, -⟩ := children_of_edits consistent_tupleAndBlock 5
  have happended : tupleAndBlock.append 6 ⟨0, 4⟩ = .ok _ := rfl
  have hprepended : tupleAndBlock.prepend 6 ⟨0, 4⟩ = .ok _ := rfl
  have hremoved : tupleAndBlock.remove 5 1 = .ok _ := rfl
  have hreplaced : tupleAndBlock.replace 6 ⟨0, 4⟩ 3 = .ok _ := rfl
  rw [hchildren] at happend hprepend hreplace
  have htuple : tupleAndBlock.get? 5 = some _ := rfl
  obtain ⟨-, -, -, -, hhole⟩ := hremove hremoved
  obtain ⟨places, m, hplaces, hm, hslots⟩ := hhole htuple rfl
  obtain rfl : places = [some 1, none, some 2] := by
    have : [Slot.sparse [some 1, none, some 2]] = [.sparse places] := hplaces
    simpa using this.symm
  exact ⟨⟨_, happended, (happend happended).1⟩, ⟨_, hprepended, (hprepend hprepended).1⟩,
    ⟨_, m, hremoved, hm, hslots⟩,
    ⟨_, hreplaced, (hreplace hreplaced (by decide)).2.2.1⟩⟩

end Forest

end SolidityTree
