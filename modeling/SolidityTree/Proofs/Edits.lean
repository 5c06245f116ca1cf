import SolidityTree.Proofs.Consistent
import SolidityTree.Proofs.Run

/-!
# Edits keep forests consistent

An edit of children changes two accounts of one tree: what the payload of the parent lists, and the
parent mark of the child.  Each edit below is shown to change both in step, by way of what it leaves
as children and as marks (`Consistent.exchange`, `Consistent.relink`); the two edits that forget
nodes are removals of whole trees (`Consistent.prune_iff`).

Edits of children register and forget no node: `Forest.SameNodes`.
-/

namespace SolidityTree

/-- Putting a value in the place of another one takes that one out and adds the new one. -/
theorem replace_perm_cons_erase {old new : NodeId} {cs : List NodeId} (h : old ∈ cs) :
    (cs.replace old new).Perm (new :: cs.erase old) := by
  induction cs with
  | nil => simp at h
  | cons c rest ih =>
    by_cases hc : old = c
    · subst hc; simp
    · have hrest : old ∈ rest := (List.mem_cons.1 h).resolve_left hc
      have hne : (old == c) = false := by simpa using hc
      rw [List.replace_cons, hne, List.erase_cons_tail (by simpa using Ne.symm hc)]
      exact ((ih hrest).cons c).trans (.swap new c _)

namespace Forest

variable {f f' : Forest} {c child id k p parent : NodeId}

/-! ### Edits that keep the nodes -/

/-- The same nodes are registered, and the same is noted about them; only payloads and parent marks
may differ. -/
structure SameNodes (f f' : Forest) : Prop where
  id_eq : f'.id = f.id
  lastId_eq : f'.lastId = f.lastId
  overrun_eq : f'.overrun = f.overrun
  transactions_eq : f'.transactions = f.transactions
  stamp?_eq : ∀ k, f'.stamp? k = f.stamp? k

namespace SameNodes

theorem refl (f : Forest) : SameNodes f f := ⟨rfl, rfl, rfl, rfl, fun _ => rfl⟩

theorem trans {g : Forest} (h : SameNodes f f') (h' : SameNodes f' g) : SameNodes f g where
  id_eq := h'.id_eq.trans h.id_eq
  lastId_eq := h'.lastId_eq.trans h.lastId_eq
  overrun_eq := h'.overrun_eq.trans h.overrun_eq
  transactions_eq := h'.transactions_eq.trans h.transactions_eq
  stamp?_eq k := (h'.stamp?_eq k).trans (h.stamp?_eq k)

theorem contains_iff (h : SameNodes f f') : f'.contains k ↔ f.contains k := by
  rw [contains_iff_stamp?, contains_iff_stamp?, h.stamp?_eq]

theorem setParent (f : Forest) (id : NodeId) (p? : Option NodeId) :
    SameNodes f (f.setParent id p?) :=
  ⟨rfl, rfl, rfl, rfl, fun _ => stamp?_setParent p?⟩

theorem setParents (f : Forest) (ids : List NodeId) (p? : Option NodeId) :
    SameNodes f (f.setParents ids p?) where
  id_eq := (setParents_frame ids p?).1
  lastId_eq := (setParents_frame ids p?).2.1
  overrun_eq := (setParents_frame ids p?).2.2.1
  transactions_eq := (setParents_frame ids p?).2.2.2
  stamp?_eq _ := stamp?_setParents ids p?

theorem modifyPayload (f : Forest) (id : NodeId) (change : Payload → Payload) :
    SameNodes f (f.modifyPayload id change) :=
  ⟨rfl, rfl, rfl, rfl, fun _ => stamp?_modifyPayload change⟩

theorem attach (f : Forest) (parent child : NodeId) (payload : Payload) :
    SameNodes f (f.attach parent child payload) :=
  (modifyPayload f parent _).trans (setParent _ child _)

end SameNodes

/-- The forest is consistent and has the nodes of `f`. -/
structure Reshaped (f g : Forest) : Prop where
  consistent : g.Consistent
  sameNodes : SameNodes f g

theorem Reshaped.refl (hf : f.Consistent) : Reshaped f f := ⟨hf, .refl f⟩

theorem Reshaped.trans {g : Forest} (h : Reshaped f f') (h' : Reshaped f' g) : Reshaped f g :=
  ⟨h'.consistent, h.sameNodes.trans h'.sameNodes⟩

/-- A change of a payload that keeps its children keeps the forest consistent. -/
theorem Consistent.modifyPayload (hf : f.Consistent) {change : Payload → Payload}
    (h : ∀ n, f.get? id = some n → (change n.payload).children = n.children) :
    (f.modifyPayload id change).Consistent := by
  have hsame := SameNodes.modifyPayload f id change
  refine .of_views (fun k s hs => ?_) (fun c p => ?_) (fun p => ?_) ?_
  · rw [hsame.stamp?_eq] at hs
    exact hf.eq_of_stamp? hs
  · rw [children_modifyPayload_of_eq h, parent?_modifyPayload]
    exact hf.mem_children_iff
  · rw [children_modifyPayload_of_eq h]
    exact hf.nodup p
  · simpa using hf.ends

/-! ### Conditions -/

theorem checkDetached_eq_ok (h : f.checkDetached k = .ok ()) :
    f.contains k ∧ f.parent? k = none := by
  obtain ⟨n, hn, h⟩ := Except.bind_eq_ok.1 h
  rw [node_eq_ok] at hn
  refine ⟨contains_iff_get?.2 ⟨n, hn⟩, ?_⟩
  rw [parent?_of_get? hn]
  split at h
  · contradiction
  · assumption

theorem checkDetached_of_root (hreg : f.contains k) (hroot : f.parent? k = none) :
    f.checkDetached k = .ok () := by
  obtain ⟨n, hn⟩ := contains_iff_get?.1 hreg
  rw [parent?_of_get? hn] at hroot
  exact Except.bind_eq_ok.2 ⟨n, node_eq_ok.2 hn, by rw [hroot]⟩

theorem forM_checkDetached_eq_ok {cs : List NodeId} (h : cs.forM f.checkDetached = .ok ()) :
    ∀ c ∈ cs, f.contains c ∧ f.parent? c = none := by
  induction cs with
  | nil => simp
  | cons c rest ih =>
    obtain ⟨⟨⟩, hc, hrest⟩ := Except.bind_eq_ok.1 h
    intro k hk
    rcases List.mem_cons.1 hk with rfl | hk
    · exact checkDetached_eq_ok hc
    · exact ih hrest k hk

theorem forM_checkDetached_of_roots {cs : List NodeId}
    (h : ∀ c ∈ cs, f.contains c ∧ f.parent? c = none) : cs.forM f.checkDetached = .ok () := by
  induction cs with
  | nil => rfl
  | cons c rest ih =>
    obtain ⟨⟨hreg, hroot⟩, hrest⟩ := List.forall_mem_cons.1 h
    exact Except.bind_eq_ok.2 ⟨(), checkDetached_of_root hreg hroot, ih hrest⟩

/-- A node can be attached if it belongs to the forest, is nobody's child and is not above its new
parent. -/
structure Attachable (f : Forest) (parent child : NodeId) : Prop where
  contains_parent : f.contains parent
  contains_child : f.contains child
  detached : f.parent? child = none
  not_above : ¬ f.Reaches parent child

theorem Consistent.attachable_of_check (hf : f.Consistent) {h : Handle}
    (hc : f.checkAttachable parent h = .ok ()) : f.Attachable parent h.id := by
  unfold checkAttachable at hc
  dsimp only at hc
  split at hc
  · contradiction
  · obtain ⟨n, hn, hc⟩ := Except.bind_eq_ok.1 hc
    obtain ⟨⟨⟩, hdet, hc⟩ := Except.bind_eq_ok.1 hc
    obtain ⟨hreg, hroot⟩ := checkDetached_eq_ok hdet
    have hparent : f.contains parent := contains_iff_get?.2 ⟨n, node_eq_ok.1 hn⟩
    refine ⟨hparent, hreg, hroot, fun hr => ?_⟩
    rw [if_pos ((hf.mem_ancestry_iff hparent).2 hr)] at hc
    contradiction

theorem Consistent.check_of_attachable (hf : f.Consistent) {h : Handle} (hforest : h.forest = f.id)
    (hc : f.Attachable parent h.id) : f.checkAttachable parent h = .ok () := by
  obtain ⟨n, hn⟩ := contains_iff_get?.1 hc.contains_parent
  have habove : h.id ∉ f.ancestry parent := fun hmem =>
    hc.not_above ((hf.mem_ancestry_iff hc.contains_parent).1 hmem)
  simp only [checkAttachable, hforest, ne_eq, not_true_eq_false, if_false, node_eq_ok.2 hn,
    checkDetached_of_root hc.contains_child hc.detached, habove]
  rfl

/-! ### Adding and exchanging children -/

/-- **A node gets one child, perhaps in the place of others.**  The children that go are left
without parent. -/
theorem Consistent.exchange (hf : f.Consistent) (hc : f.Attachable p c) {cs rest : List NodeId}
    (gone : List NodeId) (hsame : SameNodes f f')
    (hchildren : ∀ k, f'.children k = if k = p then cs else f.children k)
    (hparent : ∀ k, f'.parent? k =
      if k = c then some p else if k ∈ gone then none else f.parent? k)
    (hnew : cs.Perm (c :: rest)) (hold : (f.children p).Perm (gone ++ rest)) :
    f'.Consistent := by
  have hnodup : (gone ++ rest).Nodup := hold.nodup_iff.1 (hf.nodup p)
  have hunlisted : c ∉ f.children p := fun h => by
    have := hf.parent?_of_mem h
    rw [hc.detached] at this
    contradiction
  have hmem : ∀ k, k ∈ cs ↔ k = c ∨ k ∈ rest := fun k => by rw [hnew.mem_iff, List.mem_cons]
  have hmark : ∀ k, f.parent? k = some p ↔ k ∈ gone ∨ k ∈ rest := fun k => by
    rw [← hf.mem_children_iff, hold.mem_iff, List.mem_append]
  refine hf.relink hsame.id_eq hsame.stamp?_eq hchildren (fun k => ?_) ?_ fun k hk hnot => ?_
  · -- the new child, the children that go, those that stay, and all other nodes
    rw [hparent]
    by_cases hkc : k = c
    · simp [hkc, hmem]
    · by_cases hgone : k ∈ gone
      · have hnot : k ∉ rest := fun h => (List.nodup_append.1 hnodup).2.2 k hgone k h rfl
        simp [hkc, hgone, hmem, hnot, (hmark k).2 (Or.inl hgone)]
      · by_cases hrest : k ∈ rest
        · simp [hkc, hgone, hmem, hrest, (hmark k).2 (Or.inr hrest)]
        · have hother : f.parent? k ≠ some p := fun h => by
            rcases (hmark k).1 h with h | h
            · exact hgone h
            · exact hrest h
          simp [hkc, hgone, hmem, hrest, hother]
  · refine hnew.nodup_iff.2 (List.nodup_cons.2 ⟨fun h => hunlisted ?_, hnodup.of_append_right⟩)
    exact hold.mem_iff.2 (List.mem_append_right _ h)
  · rcases (hmem k).1 hk with rfl | hk
    · exact ⟨hc.detached, hc.not_above⟩
    · exact absurd (hold.mem_iff.2 (List.mem_append_right _ hk)) hnot

theorem children_attach {n : Node} (h : f.get? p = some n) (payload : Payload) :
    (f.attach p c payload).children k = if k = p then payload.children else f.children k := by
  rw [attach, children_setParent, children_modifyPayload h]
  simp [eq_comm (a := k)]

theorem parent?_attach (h : f.contains c) (payload : Payload) :
    (f.attach p c payload).parent? k = if k = c then some p else f.parent? k := by
  rw [attach, parent?_setParent (by simpa using h), parent?_modifyPayload]
  simp [eq_comm (a := k)]

theorem Consistent.attach (hf : f.Consistent) (hc : f.Attachable p c) {n : Node}
    (hn : f.get? p = some n) {payload : Payload}
    (hnew : payload.children.Perm (c :: n.children)) : (f.attach p c payload).Consistent := by
  refine hf.exchange hc [] (SameNodes.attach f p c payload) (fun k => children_attach hn payload)
    (fun k => ?_) hnew ?_
  · rw [parent?_attach hc.contains_child]; simp
  · rw [children_of_get? hn, List.nil_append]

theorem append_eq_ok {h : Handle} (happ : f.append parent h = .ok f') :
    f.checkAttachable parent h = .ok () ∧ ∃ n payload, f.get? parent = some n ∧
      n.payload.append? h.id = some payload ∧ f' = f.attach parent h.id payload := by
  obtain ⟨⟨⟩, hcheck, happ⟩ := Except.bind_eq_ok.1 happ
  obtain ⟨n, hn, happ⟩ := Except.bind_eq_ok.1 happ
  split at happ
  · next payload hp =>
    exact ⟨hcheck, n, payload, node_eq_ok.1 hn, hp, (Except.ok.inj happ).symm⟩
  · contradiction

theorem prepend_eq_ok {h : Handle} (hpre : f.prepend parent h = .ok f') :
    f.checkAttachable parent h = .ok () ∧ ∃ n payload, f.get? parent = some n ∧
      n.payload.prepend? h.id = some payload ∧ f' = f.attach parent h.id payload := by
  obtain ⟨⟨⟩, hcheck, hpre⟩ := Except.bind_eq_ok.1 hpre
  obtain ⟨n, hn, hpre⟩ := Except.bind_eq_ok.1 hpre
  split at hpre
  · next payload hp =>
    exact ⟨hcheck, n, payload, node_eq_ok.1 hn, hp, (Except.ok.inj hpre).symm⟩
  · contradiction

theorem append_of_check {h : Handle} {n : Node} {payload : Payload}
    (hcheck : f.checkAttachable parent h = .ok ()) (hn : f.get? parent = some n)
    (hp : n.payload.append? h.id = some payload) :
    f.append parent h = .ok (f.attach parent h.id payload) :=
  Except.bind_eq_ok.2 ⟨(), hcheck, Except.bind_eq_ok.2 ⟨n, node_eq_ok.2 hn, by rw [hp]⟩⟩

theorem prepend_of_check {h : Handle} {n : Node} {payload : Payload}
    (hcheck : f.checkAttachable parent h = .ok ()) (hn : f.get? parent = some n)
    (hp : n.payload.prepend? h.id = some payload) :
    f.prepend parent h = .ok (f.attach parent h.id payload) :=
  Except.bind_eq_ok.2 ⟨(), hcheck, Except.bind_eq_ok.2 ⟨n, node_eq_ok.2 hn, by rw [hp]⟩⟩

theorem Consistent.append (hf : f.Consistent) {h : Handle}
    (happ : f.append parent h = .ok f') : Reshaped f f' := by
  obtain ⟨hcheck, n, payload, hn, hp, rfl⟩ := append_eq_ok happ
  refine ⟨hf.attach (hf.attachable_of_check hcheck) hn ?_, SameNodes.attach ..⟩
  rw [Payload.children_append? hp]
  exact List.perm_append_singleton _ _

theorem Consistent.prepend (hf : f.Consistent) {h : Handle}
    (hpre : f.prepend parent h = .ok f') : Reshaped f f' := by
  obtain ⟨hcheck, n, payload, hn, hp, rfl⟩ := prepend_eq_ok hpre
  refine ⟨hf.attach (hf.attachable_of_check hcheck) hn ?_, SameNodes.attach ..⟩
  rw [Payload.children_prepend? hp]
  exact .refl _

theorem replace_eq_ok {new : Handle} {old : NodeId} (hrep : f.replace parent new old = .ok f') :
    (new = f.handle old ∧ f' = f) ∨
    f.checkAttachable parent new = .ok () ∧ ∃ n payload, f.get? parent = some n ∧
      n.payload.replace? old new.id = some payload ∧
      (n.payload.documentation? = some (some (.node old)) →
        ∃ m, f.get? new.id = some m ∧ m.kind = .structuredDocumentation) ∧
      f' = (f.setParent old none).attach parent new.id payload := by
  unfold replace at hrep
  split at hrep
  · -- a child in the place of itself
    next heq => exact Or.inl ⟨heq, (Except.ok.inj hrep).symm⟩
  · obtain ⟨⟨⟩, hcheck, hrep⟩ := Except.bind_eq_ok.1 hrep
    obtain ⟨m, hm, hrep⟩ := Except.bind_eq_ok.1 hrep
    obtain ⟨n, hn, hrep⟩ := Except.bind_eq_ok.1 hrep
    split at hrep
    · contradiction
    · next hkind =>
      split at hrep
      · next payload hp =>
        refine Or.inr ⟨hcheck, n, payload, node_eq_ok.1 hn, hp, fun hdoc => ?_,
          (Except.ok.inj hrep).symm⟩
        exact ⟨m, node_eq_ok.1 hm, by_contra fun hne => hkind ⟨hdoc, hne⟩⟩
      · contradiction

theorem Consistent.replace (hf : f.Consistent) {new : Handle} {old : NodeId}
    (hrep : f.replace parent new old = .ok f') : Reshaped f f' := by
  rcases replace_eq_ok hrep with ⟨-, rfl⟩ | ⟨hcheck, n, payload, hn, hp, -, rfl⟩
  · exact .refl hf
  obtain ⟨hmem, hcs⟩ := Payload.children_replace? hp
  have hattach := hf.attachable_of_check hcheck
  have hold : f.contains old := hf.contains_child (by rwa [children_of_get? hn])
  have hsame := (SameNodes.setParent f old none).trans
    (SameNodes.attach (f.setParent old none) parent new.id payload)
  obtain ⟨m, hm⟩ : ∃ m, (f.setParent old none).get? parent = some m :=
    contains_iff_get?.1 (by simpa using hattach.contains_parent)
  refine ⟨hf.exchange hattach [old] hsame (fun k => ?_) (fun k => ?_)
    (hcs ▸ replace_perm_cons_erase hmem) ?_, hsame⟩
  · rw [children_attach hm, children_setParent]
  · rw [parent?_attach (by simpa using hattach.contains_child), parent?_setParent hold]
    simp [eq_comm (a := k)]
  · rw [children_of_get? hn]
    exact List.perm_cons_erase hmem

/-! ### Removing a child -/

theorem remove_eq_ok (hrem : f.remove parent child = .ok f') :
    ∃ n payload, f.get? parent = some n ∧ n.payload.remove child = .removed payload ∧
      f' = (f.modifyPayload parent fun _ => payload).setParent child none := by
  obtain ⟨n, hn, hrem⟩ := Except.bind_eq_ok.1 hrem
  split at hrem
  · next payload hp => exact ⟨n, payload, node_eq_ok.1 hn, hp, (Except.ok.inj hrem).symm⟩
  · contradiction
  · contradiction

theorem children_remove (hrem : f.remove parent child = .ok f') :
    child ∈ f.children parent ∧ ∀ k, f'.children k =
      if k = parent then (f.children parent).erase child else f.children k := by
  obtain ⟨n, payload, hn, hp, rfl⟩ := remove_eq_ok hrem
  obtain ⟨hmem, hcs⟩ := Payload.children_remove hp
  refine ⟨by rwa [children_of_get? hn], fun k => ?_⟩
  rw [children_setParent, children_modifyPayload hn, children_of_get? hn]
  by_cases hk : k = parent
  · simp only [hk, ↓reduceIte]; exact hcs
  · simp [hk, Ne.symm hk]

theorem Consistent.parent?_remove (hf : f.Consistent) (hrem : f.remove parent child = .ok f') :
    f'.parent? k = if k = child then none else f.parent? k := by
  have hmem := (children_remove hrem).1
  obtain ⟨n, payload, hn, hp, rfl⟩ := remove_eq_ok hrem
  rw [parent?_setParent (by simpa using hf.contains_child hmem), parent?_modifyPayload]
  simp [eq_comm (a := k)]

theorem Consistent.remove (hf : f.Consistent) (hrem : f.remove parent child = .ok f') :
    Reshaped f f' := by
  obtain ⟨hmem, hchildren⟩ := children_remove hrem
  have hsame : SameNodes f f' := by
    obtain ⟨n, payload, -, -, rfl⟩ := remove_eq_ok hrem
    exact (SameNodes.modifyPayload f parent _).trans (SameNodes.setParent _ child none)
  have hin : ∀ k, k ∈ (f.children parent).erase child ↔ k ≠ child ∧ f.parent? k = some parent :=
    fun k => by rw [(hf.nodup parent).mem_erase_iff, hf.mem_children_iff]
  refine ⟨hf.relink hsame.id_eq hsame.stamp?_eq hchildren (fun k => ?_)
    ((hf.nodup parent).erase child) fun k hk hnot => ?_, hsame⟩
  · -- what stays of the children is what keeps its mark
    rw [hf.parent?_remove hrem]
    simp only [hin]
    by_cases hk : k = child
    · subst hk; simp [hf.parent?_of_mem hmem]
    · by_cases hp : f.parent? k = some parent <;> simp [hk, hp]
  · exact absurd (List.mem_of_mem_erase hk) hnot

/-! ### Forgetting nodes -/

theorem unregister_eq_ok {n : Node} (h : f.unregister id = .ok (n, f')) :
    f.contains id ∧ f.parent? id = none ∧
      f' = (f.erase [id]).setParents (f.children id) none := by
  obtain ⟨m, hm, h⟩ := Except.bind_eq_ok.1 h
  rw [node_eq_ok] at hm
  rw [children_of_get? hm, parent?_of_get? hm]
  split at h
  · contradiction
  · next hroot =>
    exact ⟨contains_iff_get?.2 ⟨m, hm⟩, hroot, (congrArg Prod.snd (Except.ok.inj h)).symm⟩

theorem stamp?_erase (ids : List NodeId) :
    (f.erase ids).stamp? k = if k ∈ ids then none else f.stamp? k := by
  rw [stamp?, get?_erase]
  split <;> rfl

theorem children_erase (ids : List NodeId) :
    (f.erase ids).children k = if k ∈ ids then [] else f.children k := by
  rw [children, get?_erase]
  split <;> rfl

theorem parent?_erase (ids : List NodeId) :
    (f.erase ids).parent? k = if k ∈ ids then none else f.parent? k := by
  rw [parent?, get?_erase]
  split <;> rfl

theorem parent?_setParents_none (ids : List NodeId) :
    (f.setParents ids none).parent? k = if k ∈ ids then none else f.parent? k := by
  rw [parent?, get?_setParents]
  split
  · cases f.get? k <;> rfl
  · rfl

/-- A root is forgotten, and its children become roots. -/
theorem Consistent.unregister (hf : f.Consistent) {n : Node}
    (h : f.unregister id = .ok (n, f')) : f'.Consistent := by
  obtain ⟨-, hroot, rfl⟩ := unregister_eq_ok h
  refine (hf.prune_iff (· = id) (by simp; rfl) (fun k => ?_) (fun k => ?_)
    fun k => ?_).2 fun p c hc hgone => ?_
  · rw [stamp?_setParents, stamp?_erase]; simp
  · rw [children_setParents, children_erase]; simp
  · -- the nodes whose marks are cleared are those whose mark names the node
    rw [parent?_setParents_none, parent?_erase]
    simp only [hf.mem_children_iff, List.mem_singleton]
    by_cases hk : k = id
    · simp [hk]
    · cases hp : f.parent? k with
      | none => simp [hk]
      | some p => by_cases hpi : p = id <;> simp [hk, hpi, Option.filter]
  · -- nobody lists a root
    subst hgone
    have := hf.parent?_of_mem hc
    rw [hroot] at this
    contradiction

/-- A node of a whole tree that is not its root is reached through its parent. -/
theorem Consistent.mem_walk_of_mem_children (hf : f.Consistent) (hroot : f.parent? id = none)
    (hc : c ∈ f.children p) (hwalk : c ∈ f.walk id) : p ∈ f.walk id := by
  have hp := hf.parent?_of_mem hc
  refine hf.mem_walk_iff.2 ⟨hf.contains_parent hp, ?_⟩
  rcases Relation.ReflTransGen.cases_head (hf.mem_walk_iff.1 hwalk).2 with rfl | ⟨q, hq, hr⟩
  · rw [hroot] at hp
    contradiction
  · rw [hp] at hq
    obtain rfl := Option.some.inj hq
    exact hr

/-- A whole tree is forgotten. -/
theorem Consistent.erase_walk (hf : f.Consistent) (hroot : f.parent? id = none) :
    (f.erase (f.walk id)).Consistent := by
  refine (hf.prune_iff (· ∈ f.walk id) (show (f.erase (f.walk id)).id = f.id from rfl)
    (fun k => stamp?_erase _) (fun k => children_erase _) fun k => ?_).2 fun p c hc hgone => ?_
  · rw [parent?_erase]
    by_cases hk : k ∈ f.walk id
    · rw [if_pos hk, if_pos hk]
    · rw [if_neg hk, if_neg hk]
      cases hp : f.parent? k with
      | none => rfl
      | some p =>
        -- below a node of the tree there are only nodes of the tree
        have hout : p ∉ f.walk id := fun h => by
          refine hk (hf.mem_walk_iff.2 ⟨contains_of_parent? hp, ?_⟩)
          exact .head hp (hf.mem_walk_iff.1 h).2
        simp [hout, Option.filter]
  · exact hf.mem_walk_of_mem_children hroot hc hgone

/-- What is forgotten is a whole tree whose root has been taken from its parent. -/
theorem Consistent.removeSubtree_eq_ok (hf : f.Consistent) {count : Nat}
    (h : f.removeSubtree id = .ok (count, f')) :
    ∃ g : Forest, g.Consistent ∧ SameNodes f g ∧ g.parent? id = none ∧
      (g = f ∨ ∃ p, f.remove p id = .ok g) ∧ f' = g.erase (g.walk id) ∧
      count = (g.walk id).length := by
  obtain ⟨n, hn, h⟩ := Except.bind_eq_ok.1 h
  rw [node_eq_ok] at hn
  dsimp only at h
  split at h
  · next p _ =>
    obtain ⟨g, hg, h⟩ := Except.bind_eq_ok.1 h
    obtain ⟨hcons, hsame⟩ := hf.remove hg
    obtain ⟨hcount, hrest⟩ := Prod.mk.inj (Except.ok.inj h)
    refine ⟨g, hcons, hsame, ?_, .inr ⟨p, hg⟩, hrest.symm, hcount.symm⟩
    rw [hf.parent?_remove hg, if_pos rfl]
  · next hp =>
    obtain ⟨hcount, hrest⟩ := Prod.mk.inj (Except.ok.inj h)
    refine ⟨f, hf, .refl f, ?_, .inl rfl, hrest.symm, hcount.symm⟩
    rw [parent?_of_get? hn, hp]

/-- A node is taken from its parent and forgotten with the whole tree below it. -/
theorem Consistent.removeSubtree (hf : f.Consistent) {count : Nat}
    (h : f.removeSubtree id = .ok (count, f')) : f'.Consistent := by
  obtain ⟨g, hg, -, hroot, -, rfl, -⟩ := hf.removeSubtree_eq_ok h
  exact hg.erase_walk hroot

end Forest

end SolidityTree
