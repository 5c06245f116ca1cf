import SolidityTree.Proofs.Rollback

/-!
# Extensions

A transaction that only adds to a forest leaves an extension of it (`Forest.Extends`): the old nodes
are as they were, what is new is noted, and new nodes list new nodes only.  The last point is what
keeps an extension apart from the old trees: whoever starts at a new node and follows children meets
new nodes only (`Extends.not_contains_of_mem_walk`), and whatever is done to those leaves an
extension.

A rollback takes an extension back to the forest it began with (`Extends.rollback_eq`).  A
transaction inside another one leaves an extension in either way (`Extends.commit`,
`Extends.rollback`).
-/

namespace SolidityTree.Forest

variable {f g h : Forest} {id k p r : NodeId}

/-- New nodes were noted and list new nodes only, and no old node was changed. -/
structure Extends (f g : Forest) : Prop where
  journaled : ∃ made, Journaled f g made
  get?_eq : ∀ {k}, f.contains k → g.get? k = f.get? k
  new_of_mem : ∀ {p c}, ¬ f.contains p → c ∈ g.children p → ¬ f.contains c

theorem extends_begin (f : Forest) : Extends f f.begin where
  journaled := ⟨[], journaled_begin f⟩
  get?_eq _ := rfl
  new_of_mem hp hc := absurd (contains_of_mem_children hc) hp

/-- What a consistent forest has is found unchanged after a rollback, if it was there when the
transaction began and was not changed. -/
theorem get?_rollback_of_contains (hf : f.Consistent) {made : List NodeId}
    (hmade : Journaled g h made) (hg : ∀ {c}, f.contains c → g.contains c)
    (hget : ∀ {c}, f.contains c → h.get? c = f.get? c) (hk : f.contains k) :
    h.rollback.get? k = f.get? k := by
  obtain ⟨n, hn⟩ := contains_iff_get?.1 hk
  have hstays : ∀ {c}, f.contains c → (h.erase made).get? c = f.get? c := fun {c} hc => by
    rw [get?_erase, if_neg fun hin => hmade.fresh c hin (hg hc), hget hc]
  -- the mark of an old node names an old node, so the rollback does not clear it
  have hparent : n.parent?.all (h.erase made).contains := by
    cases hp : n.parent? with
    | none => rfl
    | some p =>
      have hreg := hf.contains_parent (parent?_of_get? hn ▸ hp)
      obtain ⟨m, hm⟩ := contains_iff_get?.1 hreg
      exact contains_iff_get?.2 ⟨m, (hstays hreg).trans hm⟩
  rw [get?_rollback hmade.transactions_eq, hstays hk, hn, Option.map_some, if_pos hparent]

namespace Extends

theorem contains_of_contains (hg : Extends f g) (hk : f.contains k) : g.contains k := by
  obtain ⟨made, hmade⟩ := hg.journaled
  exact hmade.contains_of_contains hk

/-! ### Adding and changing new nodes -/

theorem nextId (hg : Extends f g) : Extends f g.nextId.2 := by
  obtain ⟨made, hmade⟩ := hg.journaled
  exact ⟨⟨made, hmade.congr rfl rfl fun _ => Iff.rfl⟩, hg.get?_eq, hg.new_of_mem⟩

theorem register (hg : Extends f g) {n : Node} (hregister : g.register n = .ok h)
    (hchildren : ∀ c ∈ n.children, ¬ f.contains c) : Extends f h ∧ ¬ f.contains n.id := by
  have hself := not_mem_children_of_register hregister
  obtain ⟨hfresh, -, hinsert⟩ := register_eq_ok hregister
  have hnew : ¬ f.contains n.id := fun hold => hfresh (hg.contains_of_contains hold)
  obtain ⟨made, hmade⟩ := hg.journaled
  refine ⟨⟨⟨_, hmade.register hregister⟩, fun {k} hk => ?_, fun {p c} hp hc => ?_⟩, hnew⟩
  · -- the marks that registration sets are those of new nodes
    have hid : k ≠ n.id := fun heq => hnew (heq ▸ hk)
    have hchild : k ∉ n.children := fun hmem => hchildren k hmem hk
    rw [hinsert, get?_insert n hself, if_neg hid, if_neg hchild, hg.get?_eq hk]
  · rw [children_register hregister] at hc
    split at hc
    · exact hchildren c hc
    · exact hg.new_of_mem hp hc

/-- A new node may be changed in any way that gives it no old child. -/
theorem modify (hg : Extends f g) (hid : ¬ f.contains id) {change : Node → Node}
    (hchildren : ∀ n, g.get? id = some n → ∀ c ∈ (change n).children, ¬ f.contains c) :
    Extends f (g.modify id change) := by
  obtain ⟨made, hmade⟩ := hg.journaled
  refine ⟨⟨made, hmade.congr rfl rfl fun k => by rw [contains_modify]⟩, fun {k} hk => ?_,
    fun {p c} hp hc => ?_⟩
  · rw [get?_modify_of_ne, hg.get?_eq hk]
    exact fun heq => hid (heq ▸ hk)
  · rw [children, get?_modify] at hc
    split at hc
    · next heq =>
      subst heq
      cases hn : g.get? id with
      | none => simp [hn] at hc
      | some n =>
        rw [hn] at hc
        exact hchildren n hn c hc
    · exact hg.new_of_mem hp hc

theorem new_of_get? (hg : Extends f g) (hid : ¬ f.contains id) {n : Node}
    (hn : g.get? id = some n) : ∀ c ∈ n.children, ¬ f.contains c := by
  intro c hc
  rw [← children_of_get? hn] at hc
  exact hg.new_of_mem hid hc

theorem setParent (hg : Extends f g) (hid : ¬ f.contains id) (p? : Option NodeId) :
    Extends f (g.setParent id p?) :=
  hg.modify hid fun _ hn c hc => hg.new_of_get? hid hn c hc

theorem modifyPayload (hg : Extends f g) (hid : ¬ f.contains id) {change : Payload → Payload}
    (hchildren : ∀ n, g.get? id = some n → ∀ c ∈ (change n.payload).children, ¬ f.contains c) :
    Extends f (g.modifyPayload id change) :=
  hg.modify hid hchildren

/-- A change of a payload that keeps its children. -/
theorem modifyPayload_of_eq (hg : Extends f g) (hid : ¬ f.contains id) {change : Payload → Payload}
    (hchildren : ∀ p : Payload, (change p).children = p.children) :
    Extends f (g.modifyPayload id change) := by
  refine hg.modifyPayload hid fun n hn => ?_
  rw [hchildren]
  exact hg.new_of_get? hid hn

theorem attach (hg : Extends f g) {child : NodeId} (hp : ¬ f.contains p) (hc : ¬ f.contains child)
    {payload : Payload} (hpayload : ∀ c ∈ payload.children, ¬ f.contains c) :
    Extends f (g.attach p child payload) :=
  (hg.modifyPayload hp fun _ _ => hpayload).setParent hc _

theorem append (hg : Extends f g) {child : Handle} (hp : ¬ f.contains p)
    (hc : ¬ f.contains child.id) (happend : g.append p child = .ok h) : Extends f h := by
  obtain ⟨-, n, payload, hn, hpayload, rfl⟩ := append_eq_ok happend
  refine hg.attach hp hc fun c hmem => ?_
  rw [Payload.children_append? hpayload, List.mem_append, List.mem_singleton] at hmem
  rcases hmem with hmem | rfl
  · exact hg.new_of_get? hp hn c hmem
  · exact hc

theorem prepend (hg : Extends f g) {child : Handle} (hp : ¬ f.contains p)
    (hc : ¬ f.contains child.id) (hprepend : g.prepend p child = .ok h) : Extends f h := by
  obtain ⟨-, n, payload, hn, hpayload, rfl⟩ := prepend_eq_ok hprepend
  refine hg.attach hp hc fun c hmem => ?_
  rw [Payload.children_prepend? hpayload, List.mem_cons] at hmem
  rcases hmem with rfl | hmem
  · exact hc
  · exact hg.new_of_get? hp hn c hmem

theorem replace (hg : Extends f g) {new : Handle} {old : NodeId} (hp : ¬ f.contains p)
    (hnew : ¬ f.contains new.id) (hreplace : g.replace p new old = .ok h) : Extends f h := by
  rcases replace_eq_ok hreplace with ⟨-, rfl⟩ | ⟨-, n, payload, hn, hpayload, -, rfl⟩
  · exact hg
  obtain ⟨hold, hchildren⟩ := Payload.children_replace? hpayload
  -- the node that goes was a child of a new node, so its mark may change, too
  refine (hg.setParent (hg.new_of_get? hp hn old hold) none).attach hp hnew fun c hmem => ?_
  rw [hchildren, (replace_perm_cons_erase hold).mem_iff, List.mem_cons] at hmem
  rcases hmem with rfl | hmem
  · exact hnew
  · exact hg.new_of_get? hp hn c (List.mem_of_mem_erase hmem)

/-- A tree that begins with a new node holds new nodes only. -/
theorem not_contains_of_mem_walk (hg : Extends f g) (hr : ¬ f.contains r) (hk : k ∈ g.walk r) :
    ¬ f.contains k := by
  -- the bound of the walk plays no part
  unfold walk at hk
  generalize g.size = depth at hk
  induction depth generalizing r with
  | zero => simp [walkWithin] at hk
  | succ depth ih =>
    rw [walkWithin] at hk
    cases hn : g.get? r with
    | none => simp [hn] at hk
    | some n =>
      simp only [hn, List.mem_cons, List.mem_flatMap] at hk
      rcases hk with rfl | ⟨c, hc, hk⟩
      · exact hr
      · exact ih (hg.new_of_get? hr hn c hc) hk

/-! ### The end of a transaction -/

/-- **A rollback takes an extension back** to the forest that it began with. -/
theorem rollback_eq (hf : f.Consistent) (hg : Extends f g) : g.rollback = f := by
  obtain ⟨made, hmade⟩ := hg.journaled
  have heq := Forest.rollback_eq hmade.transactions_eq
  refine ext_get? ?_ (fun k => ?_) (by rw [heq]) (by rw [heq]) (by rw [heq])
  · rw [heq]
    exact hmade.id_eq
  · -- old nodes were not changed, and what is not old was noted
    by_cases hk : f.contains k
    · exact get?_rollback_of_contains hf hmade (fun hc => hc) hg.get?_eq hk
    · rw [get?_eq_none_of_not_contains hk,
        get?_eq_none_of_not_contains fun h => hk (hmade.contains_rollback_iff.1 h)]

/-- A transaction inside the first one is committed. -/
theorem commit (hg : Extends f g) (hh : Extends g h) : Extends f h.commit := by
  obtain ⟨made, hmade⟩ := hg.journaled
  obtain ⟨made', hmade'⟩ := hh.journaled
  refine ⟨⟨_, hmade.commit hmade'⟩, fun {k} hk => ?_, fun {p c} hp hc => ?_⟩
  · rw [get?_commit, hh.get?_eq (hg.contains_of_contains hk), hg.get?_eq hk]
  · rw [children_commit] at hc
    -- a node of `g` lists what it listed there; one made since lists what is new even to `g`
    by_cases hreg : g.contains p
    · rw [children, hh.get?_eq hreg] at hc
      exact hg.new_of_mem hp hc
    · exact fun hold => hh.new_of_mem hreg hc (hg.contains_of_contains hold)

/-- A transaction inside the first one is rolled back. -/
theorem rollback (hf : f.Consistent) (hg : Extends f g) (hh : Extends g h) :
    Extends f h.rollback := by
  obtain ⟨made, hmade⟩ := hg.journaled
  obtain ⟨made', hmade'⟩ := hh.journaled
  refine ⟨⟨made, hmade.rollback hmade'⟩, fun hk => ?_, fun {p c} hp hc => ?_⟩
  · exact get?_rollback_of_contains hf hmade' hg.contains_of_contains
      (fun hc => (hh.get?_eq (hg.contains_of_contains hc)).trans (hg.get?_eq hc)) hk
  · have hreg : g.contains p := hmade'.contains_rollback_iff.1 (contains_of_mem_children hc)
    -- nodes of the inner transaction list nothing any more, and those of `g` are unchanged
    rw [children_rollback hmade'.transactions_eq, if_neg fun hin => hmade'.fresh p hin hreg,
      children, hh.get?_eq hreg] at hc
    exact hg.new_of_mem hp hc

end Extends

end SolidityTree.Forest
