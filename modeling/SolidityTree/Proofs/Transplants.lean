import SolidityTree.Proofs.Positions

/-!
# Taking nodes out and putting them back

A node that is taken out of a forest leaves its children behind as roots, and a node that is put in
adopts the children that it names.  Each undoes what the other does to the marks of the children,
whatever the slots of the payload look like, because both go through one list of them: a child that
is left behind had its mark from the node, and a child that is adopted was a root before.

* `Forest.get?_setParents_of_parent?`: marks that are changed and changed back.
* `Forest.Consistent.register_unregister`: neither operation leaves a trace after the other, but for
  the counter, which does not go back.
-/

namespace SolidityTree

/-- A node as it is handed out by a forest: without marks. -/
def Node.unmarked (n : Node) : Node := { n with parent? := none, forest? := none }

@[simp] theorem Node.id_unmarked (n : Node) : n.unmarked.id = n.id := rfl

@[simp] theorem Node.children_unmarked (n : Node) : n.unmarked.children = n.children := rfl

/-- Without a parent and back in its forest it is the node that it was. -/
theorem Node.mark_unmarked {n : Node} {forest : ForestId} (hroot : n.parent? = none)
    (hforest : n.forest? = some forest) : { n.unmarked with forest? := some forest } = n := by
  rw [unmarked, ← hroot, ← hforest]

/-- A node without marks is not changed by its time in a forest. -/
theorem Node.unmarked_mark {n : Node} (forest : ForestId) (hroot : n.parent? = none)
    (hforest : n.forest? = none) : Node.unmarked { n with forest? := some forest } = n := by
  rw [unmarked, ← hroot, ← hforest]

namespace Forest

variable {f g : Forest} {id k : NodeId} {m n : Node}

/-! ### Marks -/

/-- Marks that are changed are as before when they are changed back. -/
theorem get?_setParents_of_parent? {ids : List NodeId} {old? : Option NodeId}
    (new? : Option NodeId)
    (hget : g.get? k =
      if k ∈ ids then (f.get? k).map fun n => { n with parent? := new? } else f.get? k)
    (hold : ∀ c ∈ ids, f.parent? c = old?) :
    (g.setParents ids old?).get? k = f.get? k := by
  rw [get?_setParents, hget]
  by_cases hk : k ∈ ids
  · rw [if_pos hk, if_pos hk]
    cases hn : f.get? k with
    | none => rfl
    | some n =>
      have hparent : n.parent? = old? := (parent?_of_get? hn).symm.trans (hold k hk)
      subst hparent
      rfl
  · rw [if_neg hk, if_neg hk]

/-! ### Out and in again -/

theorem unregister_of_root (hm : f.get? id = some m) (hroot : m.parent? = none) :
    f.unregister id = .ok (m.unmarked, (f.erase [id]).setParents m.children none) :=
  Except.bind_eq_ok.2 ⟨m, node_eq_ok.2 hm, by rw [hroot]; rfl⟩

/-- The children of a node that is taken out are still there, and roots. -/
theorem Consistent.root_of_unregistered (hf : f.Consistent) {c : NodeId}
    (hc : c ∈ f.children id) :
    ((f.erase [id]).setParents (f.children id) none).contains c ∧
      ((f.erase [id]).setParents (f.children id) none).parent? c = none := by
  constructor
  · rw [contains_setParents, contains_erase]
    exact ⟨by simpa using hf.ne_of_mem_children hc, hf.contains_child hc⟩
  · rw [parent?_setParents_none, if_pos hc]

theorem Consistent.get?_insert_unregistered (hf : f.Consistent) (hm : f.get? id = some m)
    (hroot : m.parent? = none) :
    (((f.erase [id]).setParents m.children none).insert m.unmarked).get? k = f.get? k := by
  obtain ⟨rfl, hforest⟩ := hf.stamp_eq hm
  have hself : m.id ∉ m.children := fun h =>
    hf.ne_of_mem_children ((children_of_get? hm).symm ▸ h) rfl
  rw [get?_insert m.unmarked hself, m.id_unmarked, m.children_unmarked]
  by_cases hk : k = m.id
  · -- the node itself gets back the mark of the forest, and had no other one
    subst hk
    rw [if_pos rfl, hm, id_setParents]
    exact congrArg some (Node.mark_unmarked hroot hforest)
  · have herase : (f.erase [m.id]).get? k = f.get? k := by
      rw [get?_erase, if_neg (by simpa using hk)]
    have hold : ∀ c ∈ m.children, (f.erase [m.id]).parent? c = some m.id := by
      intro c hc
      rw [← children_of_get? hm] at hc
      rw [parent?_erase, if_neg (by simpa using hf.ne_of_mem_children hc)]
      exact hf.parent?_of_mem hc
    rw [if_neg hk, ← herase,
      ← get?_setParents_of_parent? none (get?_setParents m.children none) hold,
      get?_setParents (f := (f.erase [m.id]).setParents m.children none)]

/-- A node that is taken out and registered again leaves the forest as it was. -/
theorem Consistent.insert_unregistered (hf : f.Consistent) (htransactions : f.transactions = [])
    (hlast : id ≤ f.lastId) (hm : f.get? id = some m) (hroot : m.parent? = none) :
    ((f.erase [id]).setParents m.children none).insert m.unmarked = f := by
  obtain ⟨hid, hlastId, hover, htrans⟩ := setParents_frame (f := f.erase [id]) m.children none
  obtain ⟨rfl, -⟩ := hf.stamp_eq hm
  refine ext_get? ?_ (fun k => hf.get?_insert_unregistered hm hroot) ?_ ?_ ?_
  · rw [id_insert, hid]
    rfl
  · rw [lastId_insert, hlastId]
    exact max_eq_left hlast
  · rw [overrun_insert, hover]
    rfl
  · rw [transactions_insert, htrans]
    show note m.id f.transactions = f.transactions
    rw [htransactions]
    rfl

theorem Consistent.register_of_unregister (hf : f.Consistent) (htransactions : f.transactions = [])
    (hlast : id ≤ f.lastId) (hid : f.contains id) (hroot : f.parent? id = none) :
    ∃ n g, f.unregister id = .ok (n, g) ∧ f.get? id = some { n with forest? := some f.id } ∧
      g.register n = .ok f := by
  obtain ⟨m, hm⟩ := contains_iff_get?.1 hid
  rw [parent?_of_get? hm] at hroot
  have hchildren := children_of_get? hm
  obtain ⟨hmid, hforest⟩ := hf.stamp_eq hm
  refine ⟨_, _, unregister_of_root hm hroot, ?_, ?_⟩
  · rw [hm, Node.mark_unmarked hroot hforest]
  · rw [register_of_roots (n := m.unmarked) ?_ rfl ?_]
    · rw [hf.insert_unregistered htransactions hlast hm hroot]
    · rw [contains_setParents, contains_erase]
      exact fun h => h.1 (List.mem_singleton.2 hmid)
    · rw [← hchildren]
      intro c hc
      exact hf.root_of_unregistered (hchildren.symm ▸ hc)

/-! ### In and out again -/

theorem get?_unregister_inserted (hfree : ¬ f.contains n.id) (hself : n.id ∉ n.children)
    (hroots : ∀ c ∈ n.children, f.parent? c = none) :
    (((f.insert n).erase [n.id]).setParents n.children none).get? k = f.get? k := by
  refine get?_setParents_of_parent? (some n.id) ?_ hroots
  rw [get?_erase, get?_insert n hself]
  by_cases hk : k = n.id
  · subst hk
    rw [if_pos List.mem_cons_self, if_neg hself, get?_eq_none_of_not_contains hfree]
  · rw [if_neg (by simpa using hk), if_neg hk]

theorem unregister_of_register (htransactions : f.transactions = []) (hfree : ¬ f.contains n.id)
    (hparent : n.parent? = none) (hforest : n.forest? = none)
    (hroots : ∀ c ∈ n.children, f.contains c ∧ f.parent? c = none) :
    ∃ g, f.register n = .ok g ∧
      g.unregister n.id = .ok (n, { f with lastId := max f.lastId n.id }) := by
  have hself : n.id ∉ n.children := fun h => hfree (hroots n.id h).1
  have hn : (f.insert n).get? n.id = some { n with forest? := some f.id } := by
    rw [get?_insert n hself, if_pos rfl]
  refine ⟨_, register_of_roots hfree hforest hroots, ?_⟩
  rw [unregister_of_root hn hparent]
  obtain ⟨hid, hlastId, hover, htrans⟩ :=
    setParents_frame (f := (f.insert n).erase [n.id]) n.children none
  refine congrArg Except.ok (Prod.ext ?_ (ext_get? ?_ (fun k => ?_) ?_ ?_ ?_))
  · exact Node.unmarked_mark f.id hparent hforest
  · exact hid.trans (id_insert n)
  · exact get?_unregister_inserted hfree hself fun c hc => (hroots c hc).2
  · exact hlastId.trans (lastId_insert n)
  · exact hover.trans (overrun_insert n)
  · refine htrans.trans ((transactions_insert n).trans ?_)
    show note n.id f.transactions = f.transactions
    rw [htransactions]
    rfl

/-! ### Both ways -/

/-- **Taking out and putting in undo each other.**  A root that is taken out is handed out without
marks, and registered again it leaves the very same forest.  A node that can be registered is handed
out as it was when it is taken out again, and of the registration only the counter keeps a trace. -/
theorem Consistent.register_unregister (hf : f.Consistent) (htransactions : f.transactions = [])
    (hlast : ∀ k, f.contains k → k ≤ f.lastId) :
    (∀ id, f.contains id → f.parent? id = none →
      ∃ n g, f.unregister id = .ok (n, g) ∧ f.get? id = some { n with forest? := some f.id } ∧
        g.register n = .ok f) ∧
    (∀ n : Node, ¬ f.contains n.id → n.parent? = none → n.forest? = none →
      (∀ c ∈ n.children, f.contains c ∧ f.parent? c = none) →
      ∃ g, f.register n = .ok g ∧
        g.unregister n.id = .ok (n, { f with lastId := max f.lastId n.id })) :=
  ⟨fun id hid hroot => hf.register_of_unregister htransactions (hlast id hid) hid hroot,
    fun _ hfree hparent hforest hroots =>
      unregister_of_register htransactions hfree hparent hforest hroots⟩

/-- The tuple of two names is taken out and put back; a block around the fourth name and the tuple
is put in and taken out, and the counter stays where the block has moved it to. -/
theorem register_unregister_tupleAndBlock :
    (∃ n g, tupleAndBlock.unregister 5 = .ok (n, g) ∧ n.children = [1, 2] ∧
      g.parent? 1 = none ∧ g.register n = .ok tupleAndBlock) ∧
    (∃ g, tupleAndBlock.register (blockNode 9 [4, 5]) = .ok g ∧ g.parent? 5 = some 9 ∧
      g.unregister 9 = .ok (blockNode 9 [4, 5], { tupleAndBlock with lastId := 9 })) := by
  have hlast : ∀ k, tupleAndBlock.contains k → k ≤ tupleAndBlock.lastId := by
    have hkeys : ∀ k ∈ tupleAndBlock.nodes.keys, k ≤ tupleAndBlock.lastId := by decide
    exact fun k hk => hkeys k (Std.ExtTreeMap.mem_keys.2 hk)
  obtain ⟨hout, hin⟩ := consistent_tupleAndBlock.register_unregister rfl hlast
  have hroots : ∀ c ∈ (blockNode 9 [4, 5]).children,
      tupleAndBlock.contains c ∧ tupleAndBlock.parent? c = none := by decide
  refine ⟨?_, ?_⟩
  · obtain ⟨n, g, hunregister, hn, hregister⟩ := hout 5 (by decide) rfl
    have htuple : tupleAndBlock.unregister 5 = .ok _ := rfl
    obtain ⟨rfl, rfl⟩ := Prod.mk.inj (Except.ok.inj (htuple.symm.trans hunregister))
    exact ⟨_, _, hunregister, rfl, rfl, hregister⟩
  · obtain ⟨g, hregister, hunregister⟩ := hin (blockNode 9 [4, 5]) (by decide) rfl rfl hroots
    have hblock : tupleAndBlock.register (blockNode 9 [4, 5]) = .ok _ := rfl
    obtain rfl := Except.ok.inj (hblock.symm.trans hregister)
    exact ⟨_, hregister, rfl, hunregister⟩

end Forest

end SolidityTree
