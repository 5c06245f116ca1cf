import SolidityTree.Forest.Edit
import SolidityTree.Proofs.Children

/-!
# What edits do to single nodes

The primitives that edits are made of are described here by what is found under each id afterwards.
Three views of a node are followed besides the node itself: its children (`Forest.children`), its
parent mark (`Forest.parent?`) and its stamp (`Forest.stamp?`), which no edit of a registered node
changes.  Two forests in which the same is found under every id are equal (`Forest.ext_get?`).
-/

namespace SolidityTree.Forest

variable {f g : Forest} {id k : NodeId}

/-! ### Registered nodes -/

/-- The id and the forest that the node under an id carries itself. -/
def stamp? (f : Forest) (k : NodeId) : Option (NodeId × Option ForestId) :=
  (f.get? k).map fun n => (n.id, n.forest?)

theorem contains_iff_get? : f.contains k ↔ ∃ n, f.get? k = some n := by
  rw [contains, Std.ExtTreeMap.contains_eq_isSome_getElem?, Option.isSome_iff_exists]
  rfl

theorem contains_iff_stamp? : f.contains k ↔ ∃ s, f.stamp? k = some s := by
  rw [contains_iff_get?]
  constructor
  · rintro ⟨n, hn⟩
    exact ⟨(n.id, n.forest?), by rw [stamp?, hn]; rfl⟩
  · rintro ⟨s, hs⟩
    obtain ⟨n, hn, -⟩ := Option.map_eq_some_iff.1 hs
    exact ⟨n, hn⟩

theorem get?_eq_none_of_not_contains (h : ¬ f.contains k) : f.get? k = none := by
  rw [contains_iff_get?, not_exists] at h
  exact Option.eq_none_iff_forall_ne_some.2 h

theorem not_contains_of_get?_eq_none (h : f.get? k = none) : ¬ f.contains k := by
  rw [contains_iff_get?, h]
  simp

/-- Two forests in which the same is found under every id are equal. -/
theorem ext_get? (hid : f.id = g.id) (hget : ∀ k, f.get? k = g.get? k)
    (hlast : f.lastId = g.lastId) (hover : f.overrun = g.overrun)
    (htrans : f.transactions = g.transactions) : f = g := by
  obtain ⟨i, nodes, l, o, t⟩ := f
  obtain ⟨i', nodes', l', o', t'⟩ := g
  obtain rfl : nodes = nodes' := Std.ExtTreeMap.ext_getElem? fun k => hget k
  simp_all

theorem children_of_get? {n : Node} (h : f.get? k = some n) : f.children k = n.children := by
  rw [children, h]; rfl

theorem parent?_of_get? {n : Node} (h : f.get? k = some n) : f.parent? k = n.parent? := by
  rw [parent?, h]; rfl

theorem children_eq_nil_of_not_contains (h : ¬ f.contains k) : f.children k = [] := by
  rw [children, get?_eq_none_of_not_contains h]; rfl

theorem contains_of_mem_children {c : NodeId} (h : c ∈ f.children k) : f.contains k := by
  by_contra hk
  simp [children_eq_nil_of_not_contains hk] at h

theorem contains_of_parent? {p : NodeId} (h : f.parent? k = some p) : f.contains k := by
  obtain ⟨n, hn, -⟩ := Option.bind_eq_some_iff.1 h
  exact contains_iff_get?.2 ⟨n, hn⟩

theorem node_eq_ok {n : Node} : f.node k = .ok n ↔ f.get? k = some n := by
  unfold node
  split <;> simp_all

/-! ### Changes of one node -/

theorem get?_modify (change : Node → Node) :
    (f.modify id change).get? k = if id = k then (f.get? k).map change else f.get? k := by
  rw [get?, modify, Std.ExtTreeMap.getElem?_modify]
  by_cases h : id = k
  · subst h; simp [get?]
  · simp [h, get?]

theorem get?_modify_of_ne (h : k ≠ id) (change : Node → Node) :
    (f.modify id change).get? k = f.get? k := by
  rw [get?_modify, if_neg (Ne.symm h)]

@[simp] theorem contains_modify (change : Node → Node) :
    (f.modify id change).contains k = f.contains k := by
  rw [Bool.eq_iff_iff, contains_iff_get?, contains_iff_get?, get?_modify]
  split <;> simp

theorem get?_setParent (parent? : Option NodeId) :
    (f.setParent id parent?).get? k =
      if id = k then (f.get? k).map fun n => { n with parent? := parent? } else f.get? k :=
  get?_modify _

@[simp] theorem contains_setParent (p? : Option NodeId) :
    (f.setParent id p?).contains k = f.contains k :=
  contains_modify _

@[simp] theorem children_setParent (p? : Option NodeId) :
    (f.setParent id p?).children k = f.children k := by
  rw [children, get?_setParent, children]
  split
  · cases f.get? k <;> rfl
  · rfl

@[simp] theorem stamp?_setParent (p? : Option NodeId) :
    (f.setParent id p?).stamp? k = f.stamp? k := by
  rw [stamp?, get?_setParent, stamp?]
  split <;> simp [Function.comp_def]

theorem parent?_setParent (h : f.contains id) (p? : Option NodeId) :
    (f.setParent id p?).parent? k = if id = k then p? else f.parent? k := by
  rw [parent?, get?_setParent, parent?]
  split
  · next hk =>
    obtain ⟨n, hn⟩ := contains_iff_get?.1 h
    subst hk
    simp [hn]
  · rfl

@[simp] theorem contains_modifyPayload (change : Payload → Payload) :
    (f.modifyPayload id change).contains k = f.contains k :=
  contains_modify _

@[simp] theorem stamp?_modifyPayload (change : Payload → Payload) :
    (f.modifyPayload id change).stamp? k = f.stamp? k := by
  rw [stamp?, modifyPayload, get?_modify, stamp?]
  split <;> simp [Function.comp_def, Node.mapPayload]

@[simp] theorem parent?_modifyPayload (change : Payload → Payload) :
    (f.modifyPayload id change).parent? k = f.parent? k := by
  rw [parent?, modifyPayload, get?_modify, parent?]
  split
  · cases f.get? k <;> rfl
  · rfl

theorem children_modifyPayload {n : Node} (h : f.get? id = some n) (change : Payload → Payload) :
    (f.modifyPayload id change).children k =
      if id = k then (change n.payload).children else f.children k := by
  rw [children, modifyPayload, get?_modify, children]
  split
  · next hk => subst hk; simp [h, Node.mapPayload, Node.children]
  · rfl

/-- A change of the payload that keeps the children of the node changes no children. -/
theorem children_modifyPayload_of_eq {change : Payload → Payload}
    (h : ∀ n, f.get? id = some n → (change n.payload).children = n.children) :
    (f.modifyPayload id change).children k = f.children k := by
  rw [children, modifyPayload, get?_modify, children]
  split
  · next hk =>
    subst hk
    cases hn : f.get? id with
    | none => rfl
    | some n => simpa [Node.mapPayload, Node.children] using h n hn
  · rfl

/-! ### Marks of several nodes -/

theorem get?_setParents (ids : List NodeId) (p? : Option NodeId) :
    (f.setParents ids p?).get? k =
      if k ∈ ids then (f.get? k).map fun n => { n with parent? := p? } else f.get? k := by
  induction ids generalizing f with
  | nil => simp [setParents]
  | cons c rest ih =>
    show ((f.setParent c p?).setParents rest p?).get? k = _
    rw [ih, get?_setParent]
    by_cases hc : c = k
    · subst hc
      simp [Function.comp_def]
    · simp [hc, Ne.symm hc]

@[simp] theorem contains_setParents (ids : List NodeId) (p? : Option NodeId) :
    (f.setParents ids p?).contains k = f.contains k := by
  rw [Bool.eq_iff_iff, contains_iff_get?, contains_iff_get?, get?_setParents]
  split <;> simp

@[simp] theorem children_setParents (ids : List NodeId) (p? : Option NodeId) :
    (f.setParents ids p?).children k = f.children k := by
  rw [children, get?_setParents, children]
  split
  · cases f.get? k <;> rfl
  · rfl

@[simp] theorem stamp?_setParents (ids : List NodeId) (p? : Option NodeId) :
    (f.setParents ids p?).stamp? k = f.stamp? k := by
  rw [stamp?, get?_setParents, stamp?]
  split <;> simp [Function.comp_def]

theorem setParents_frame (ids : List NodeId) (p? : Option NodeId) :
    (f.setParents ids p?).id = f.id ∧ (f.setParents ids p?).lastId = f.lastId ∧
      (f.setParents ids p?).overrun = f.overrun ∧
        (f.setParents ids p?).transactions = f.transactions := by
  induction ids generalizing f with
  | nil => exact ⟨rfl, rfl, rfl, rfl⟩
  | cons c rest ih => exact ih (f := f.setParent c p?)

@[simp] theorem id_setParents (ids : List NodeId) (p? : Option NodeId) :
    (f.setParents ids p?).id = f.id := (setParents_frame ids p?).1

/-! ### Nodes that come and go -/

theorem get?_erase (ids : List NodeId) :
    (f.erase ids).get? k = if k ∈ ids then none else f.get? k := by
  show (ids.foldl (fun nodes id => nodes.erase id) f.nodes)[k]? = if k ∈ ids then none else f.nodes[k]?
  -- on the ids, for whatever map the ones before them leave
  generalize f.nodes = nodes
  induction ids generalizing nodes with
  | nil => simp
  | cons c rest ih =>
    rw [List.foldl_cons, ih, Std.ExtTreeMap.getElem?_erase]
    by_cases hc : c = k
    · subst hc; simp
    · simp [hc, Ne.symm hc]

theorem contains_erase (ids : List NodeId) :
    (f.erase ids).contains k ↔ k ∉ ids ∧ f.contains k := by
  rw [contains_iff_get?, contains_iff_get?, get?_erase]
  split <;> simp_all

theorem get?_clearParents :
    f.clearParents.get? k = (f.get? k).map fun n =>
      if n.parent?.all f.contains then n else { n with parent? := none } := by
  rw [get?, clearParents, Std.ExtTreeMap.getElem?_map]
  rfl

/-- A new node that does not list itself is found as it was given, with the stamp of the forest, and
its children are found with their mark. -/
theorem get?_insert (n : Node) (hself : n.id ∉ n.children) :
    (f.insert n).get? k =
      if k = n.id then some { n with forest? := some f.id }
      else if k ∈ n.children then (f.get? k).map fun m => { m with parent? := some n.id }
      else f.get? k := by
  -- the forest with the node, before its children are marked
  have hraw : ∀ k, ({ f with nodes := f.nodes.insert n.id { n with forest? := some f.id } } :
      Forest).get? k = if k = n.id then some { n with forest? := some f.id } else f.get? k := by
    intro k
    show (f.nodes.insert n.id _)[k]? = _
    rw [Std.ExtTreeMap.getElem?_insert]
    by_cases hk : k = n.id
    · subst hk; simp
    · simp [hk, Ne.symm hk, get?]
  show (({ f with nodes := f.nodes.insert n.id { n with forest? := some f.id } } :
    Forest).setParents n.children (some n.id)).get? k = _
  rw [get?_setParents, hraw]
  by_cases hk : k = n.id
  · subst hk; simp [hself]
  · simp [hk]

@[simp] theorem id_insert (n : Node) : (f.insert n).id = f.id := by
  simp [insert]

theorem lastId_insert (n : Node) : (f.insert n).lastId = max f.lastId n.id := by
  simp [insert, setParents_frame]

theorem overrun_insert (n : Node) : (f.insert n).overrun = f.overrun := by
  simp [insert, setParents_frame]

theorem transactions_insert (n : Node) :
    (f.insert n).transactions = note n.id f.transactions := by
  simp [insert, setParents_frame]

theorem contains_insert (n : Node) (hself : n.id ∉ n.children) :
    (f.insert n).contains k ↔ k = n.id ∨ f.contains k := by
  rw [contains_iff_get?, contains_iff_get?, get?_insert n hself]
  by_cases hk : k = n.id
  · simp [hk]
  · by_cases hc : k ∈ n.children <;> simp [hk, hc]

theorem children_insert (n : Node) (hself : n.id ∉ n.children) :
    (f.insert n).children k = if k = n.id then n.children else f.children k := by
  rw [children, get?_insert n hself, children]
  by_cases hk : k = n.id
  · simp only [hk, ↓reduceIte]; rfl
  · by_cases hc : k ∈ n.children
    · simp only [hk, hc, ↓reduceIte]
      cases f.get? k <;> rfl
    · simp only [hk, hc, ↓reduceIte]

theorem parent?_insert (n : Node) (hself : n.id ∉ n.children)
    (hchildren : ∀ c ∈ n.children, f.contains c) :
    (f.insert n).parent? k =
      if k = n.id then n.parent? else if k ∈ n.children then some n.id else f.parent? k := by
  rw [parent?, get?_insert n hself, parent?]
  by_cases hk : k = n.id
  · simp only [hk, ↓reduceIte]; rfl
  · by_cases hc : k ∈ n.children
    · obtain ⟨m, hm⟩ := contains_iff_get?.1 (hchildren k hc)
      simp [hk, hc, hm]
    · simp only [hk, hc, ↓reduceIte]

theorem stamp?_insert (n : Node) (hself : n.id ∉ n.children) :
    (f.insert n).stamp? k = if k = n.id then some (n.id, some f.id) else f.stamp? k := by
  rw [stamp?, get?_insert n hself, stamp?]
  by_cases hk : k = n.id
  · simp [hk]
  · by_cases hc : k ∈ n.children <;> simp [hk, hc, Function.comp_def]

end SolidityTree.Forest
