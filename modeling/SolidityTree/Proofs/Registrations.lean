import SolidityTree.Proofs.Making
import SolidityTree.Proofs.Views

/-!
# The order of registrations

Nodes are registered one after another, children before the nodes that list them.  Two nodes that
have nothing to do with each other can be registered in either order (`register_comm`), so lists of
nodes that list no children but their own can be put in any order: registration succeeds in all
orders or in none, and leaves the same forest, up to the order in which transactions have noted the
nodes (`registerAll_perm`).
-/

namespace SolidityTree

/-- The view of all but the order in which nodes were registered. -/
def View.unordered : View := ⟨.all, fun _ => true, false⟩

namespace Forest

variable {v : View} {f g h : Forest} {n m : Node} {ns ms : List Node} {k : NodeId}

theorem alike_unordered (hid : f.id = g.id) (hlast : f.lastId = g.lastId)
    (hover : f.overrun = g.overrun) (hget : ∀ k, f.get? k = g.get? k)
    (htransactions : List.Forall₂ (View.SameTransaction .unordered) f.transactions g.transactions) :
    f.Alike .unordered g :=
  ⟨hid, hlast, hover, fun k => by rw [hget k], htransactions⟩

/-- In that view, the same nodes are found. -/
theorem Alike.get?_eq (hfg : f.Alike .unordered g) (k : NodeId) : f.get? k = g.get? k := by
  have hnode : View.unordered.node = fun n => n := funext fun n => rfl
  have hnodes := hfg.nodes k
  rwa [hnode, Option.map_id', Option.map_id'] at hnodes

/-! ### Several nodes -/

/-- Registers nodes, one after another. -/
def registerAll (f : Forest) (ns : List Node) : Except Fault Forest := ns.foldlM register f

theorem registerAll_cons_eq_ok :
    f.registerAll (n :: ns) = .ok h ↔ ∃ g, f.register n = .ok g ∧ g.registerAll ns = .ok h :=
  Except.bind_eq_ok

theorem registerAll_append_eq_ok :
    f.registerAll (ns ++ ms) = .ok h ↔ ∃ g, f.registerAll ns = .ok g ∧ g.registerAll ms = .ok h := by
  rw [registerAll, List.foldlM_append]
  exact Except.bind_eq_ok

theorem registerAll_snoc_eq_ok :
    f.registerAll (ns ++ [n]) = .ok h ↔ ∃ g, f.registerAll ns = .ok g ∧ g.register n = .ok h := by
  have hsingle : ∀ g : Forest, g.registerAll [n] = g.register n := fun g => bind_pure _
  simp only [registerAll_append_eq_ok, hsingle]

theorem Alike.registerAll (hfg : f.Alike v g) (hf : f.registerAll ns = .ok h) :
    ∃ h', g.registerAll ns = .ok h' ∧ h.Alike v h' := by
  induction ns generalizing f g with
  | nil =>
    obtain rfl : f = h := Except.ok.inj hf
    exact ⟨g, rfl, hfg⟩
  | cons n ns ih =>
    obtain ⟨f', hn, hf'⟩ := registerAll_cons_eq_ok.1 hf
    rcases (hfg.register (n := n) rfl).cases with ⟨f'', g', hf'', hg', hfg'⟩ | ⟨fault, hf'', -⟩
    · obtain rfl : f' = f'' := Except.ok.inj (hn.symm.trans hf'')
      obtain ⟨h', hh', hhh'⟩ := ih hfg' hf'
      exact ⟨h', registerAll_cons_eq_ok.2 ⟨g', hg', hh'⟩, hhh'⟩
    · rw [hn] at hf''
      contradiction

theorem contains_registerAll (h : f.registerAll ns = .ok g) :
    g.contains k ↔ k ∈ ns.map Node.id ∨ f.contains k := by
  induction ns generalizing f with
  | nil =>
    obtain rfl : f = g := Except.ok.inj h
    simp
  | cons n ns ih =>
    obtain ⟨f', hn, hrest⟩ := registerAll_cons_eq_ok.1 h
    rw [ih hrest, contains_register hn, List.map_cons, List.mem_cons]
    tauto

/-- Nodes without parent marks that list no child twice keep a forest consistent. -/
theorem Consistent.registerAll (hf : f.Consistent) (h : f.registerAll ns = .ok g)
    (hns : ∀ n ∈ ns, n.parent? = none ∧ n.children.Nodup) : g.Consistent := by
  induction ns generalizing f with
  | nil =>
    obtain rfl : f = g := Except.ok.inj h
    exact hf
  | cons n ns ih =>
    obtain ⟨f', hn, hrest⟩ := registerAll_cons_eq_ok.1 h
    obtain ⟨⟨hroot, hnodup⟩, hproper⟩ := List.forall_mem_cons.1 hns
    exact ih (hf.register hn hroot hnodup) hrest hproper

/-- The ids of the nodes were free. -/
theorem not_contains_of_registerAll (h : f.registerAll ns = .ok g) (hk : k ∈ ns.map Node.id) :
    ¬ f.contains k := by
  induction ns generalizing f with
  | nil => simp at hk
  | cons n ns ih =>
    obtain ⟨f', hn, hrest⟩ := registerAll_cons_eq_ok.1 h
    rcases List.mem_cons.1 hk with rfl | hk
    · exact (register_eq_ok hn).1
    · exact fun hf => ih hrest hk ((contains_register hn).2 (.inr hf))

theorem payload?_register (h : f.register n = .ok g) :
    (g.get? k).map Node.payload = if k = n.id then some n.payload else
      (f.get? k).map Node.payload := by
  have hself := not_mem_children_of_register h
  obtain ⟨-, -, rfl⟩ := register_eq_ok h
  rw [get?_insert n hself]
  by_cases hk : k = n.id
  · rw [if_pos hk, if_pos hk]
    rfl
  · rw [if_neg hk, if_neg hk]
    split
    · cases f.get? k <;> rfl
    · rfl

/-- Registered nodes are found with their payloads, and old nodes keep theirs. -/
theorem payload?_registerAll (h : f.registerAll ns = .ok g) :
    (∀ k, f.contains k → (g.get? k).map Node.payload = (f.get? k).map Node.payload) ∧
      ∀ n ∈ ns, (g.get? n.id).map Node.payload = some n.payload := by
  induction ns generalizing f with
  | nil =>
    obtain rfl : f = g := Except.ok.inj h
    exact ⟨fun _ _ => rfl, fun n hn => by simp at hn⟩
  | cons n ns ih =>
    obtain ⟨f', hn, hrest⟩ := registerAll_cons_eq_ok.1 h
    obtain ⟨hold, hnew⟩ := ih hrest
    refine ⟨fun k hk => ?_, List.forall_mem_cons.2 ⟨?_, hnew⟩⟩
    · have hne : k ≠ n.id := fun heq => (register_eq_ok hn).1 (heq ▸ hk)
      rw [hold k ((contains_register hn).2 (.inr hk)), payload?_register hn, if_neg hne]
    · rw [hold n.id ((contains_register hn).2 (.inl rfl)), payload?_register hn, if_pos rfl]

/-- A change of the payload of a new node, which leaves its children, can as well be made before
the node is registered. -/
theorem register_mapPayload_eq_ok {change : Payload → Payload} (hfresh : n.forest? = none)
    (hchildren : (change n.payload).children = n.children) :
    f.register (n.mapPayload change) = .ok g ↔
      ∃ h, f.register n = .ok h ∧ h.modifyPayload n.id change = g := by
  have hlists : (n.mapPayload change).children = n.children := hchildren
  have hinsert : n.id ∉ n.children →
      (f.insert n).modifyPayload n.id change = f.insert (n.mapPayload change) := by
    intro hself
    have hself' : (n.mapPayload change).id ∉ (n.mapPayload change).children := by rwa [hlists]
    refine ext_get? ?_ (fun k => ?_) ?_ ?_ ?_
    · exact (id_insert n).trans (id_insert (n.mapPayload change)).symm
    · rw [modifyPayload, get?_modify, get?_insert n hself, get?_insert _ hself', hlists]
      show (if n.id = k then _ else _) = if k = n.id then _ else _
      by_cases hk : k = n.id
      · rw [if_pos hk.symm, if_pos hk, if_pos hk]
        rfl
      · rw [if_neg (Ne.symm hk), if_neg hk, if_neg hk]
        rfl
    · exact (lastId_insert n).trans (lastId_insert (n.mapPayload change)).symm
    · exact (overrun_insert n).trans (overrun_insert (n.mapPayload change)).symm
    · exact (transactions_insert n).trans (transactions_insert (n.mapPayload change)).symm
  constructor
  · intro h
    have hself := not_mem_children_of_register h
    rw [hlists] at hself
    obtain ⟨hfree, hroots, rfl⟩ := register_eq_ok h
    rw [hlists] at hroots
    exact ⟨f.insert n, register_of_roots hfree hfresh hroots, hinsert hself⟩
  · rintro ⟨h, hn, rfl⟩
    have hself := not_mem_children_of_register hn
    obtain ⟨hfree, hroots, rfl⟩ := register_eq_ok hn
    rw [hinsert hself]
    exact register_of_roots hfree hfresh (by rwa [hlists])

/-! ### Two nodes -/

/-- Neither node lists the other one, or a child of the other one. -/
structure Unrelated (n m : Node) : Prop where
  ne : n.id ≠ m.id
  not_mem_left : m.id ∉ n.children
  not_mem_right : n.id ∉ m.children
  disjoint : n.children.Disjoint m.children

/-- What must hold for a new node to be registered does not depend on a node that is unrelated to
it. -/
theorem Unrelated.register (hnm : Unrelated n m) (hm : m.forest? = none) (hself : n.id ∉ n.children)
    (hfree : ¬ (f.insert n).contains m.id)
    (hchildren : ∀ c ∈ m.children, (f.insert n).contains c ∧ (f.insert n).parent? c = none)
    (hold : ∀ c ∈ n.children, f.contains c) : f.register m = .ok (f.insert m) := by
  refine register_of_roots (fun hreg => hfree ((contains_insert n hself).2 (.inr hreg))) hm
    fun c hc => ?_
  have hne : c ≠ n.id := fun heq => hnm.not_mem_right (heq ▸ hc)
  obtain ⟨hreg, hroot⟩ := hchildren c hc
  rw [parent?_insert n hself hold, if_neg hne, if_neg fun hc' => hnm.disjoint hc' hc] at hroot
  exact ⟨((contains_insert n hself).1 hreg).resolve_left hne, hroot⟩

/-- Unrelated nodes leave the same forest in either order. -/
theorem Unrelated.insert_comm (hnm : Unrelated n m) (hn : n.id ∉ n.children)
    (hm : m.id ∉ m.children) : ((f.insert n).insert m).Alike .unordered ((f.insert m).insert n) := by
  refine alike_unordered ?_ ?_ ?_ (fun k => ?_) ?_
  · rw [id_insert, id_insert, id_insert, id_insert]
  · rw [lastId_insert, lastId_insert, lastId_insert, lastId_insert]
    rw [Int.max_assoc, Int.max_comm n.id, Int.max_assoc]
  · rw [overrun_insert, overrun_insert, overrun_insert, overrun_insert]
  · rw [get?_insert m hm, get?_insert n hn, get?_insert n hn, get?_insert m hm, id_insert, id_insert]
    by_cases hkn : k = n.id
    · subst hkn
      rw [if_neg hnm.ne, if_neg hnm.not_mem_right, if_pos rfl, if_pos rfl]
    · by_cases hkm : k = m.id
      · subst hkm
        rw [if_pos rfl, if_neg hkn, if_neg hnm.not_mem_left, if_pos rfl]
      · rw [if_neg hkn, if_neg hkm, if_neg hkn, if_neg hkm]
        by_cases hc : k ∈ n.children
        · have hc' : k ∉ m.children := fun hc' => hnm.disjoint hc hc'
          rw [if_neg hc', if_pos hc, if_pos hc, if_neg hc']
        · rw [if_neg hc, if_neg hc]
  · rw [transactions_insert, transactions_insert, transactions_insert, transactions_insert]
    cases f.transactions with
    | nil => exact .nil
    | cons t outer =>
      refine .cons ⟨List.Perm.swap _ _ _, rfl, rfl⟩ ?_
      exact List.forall₂_same.2 fun t _ => View.sameTransaction_refl t

theorem register_comm (hnm : Unrelated n m) (hnfresh : n.forest? = none) (hmfresh : m.forest? = none)
    (hn : f.register n = .ok g) (hm : g.register m = .ok h) :
    ∃ g' h', f.register m = .ok g' ∧ g'.register n = .ok h' ∧ h.Alike .unordered h' := by
  have hnself := not_mem_children_of_register hn
  have hmself := not_mem_children_of_register hm
  obtain ⟨hnfree, hnchildren, rfl⟩ := register_eq_ok hn
  obtain ⟨hmfree, hmchildren, rfl⟩ := register_eq_ok hm
  have hm' : f.register m = .ok (f.insert m) :=
    hnm.register hmfresh hnself hmfree hmchildren fun c hc => (hnchildren c hc).1
  refine ⟨f.insert m, (f.insert m).insert n, hm', register_of_roots ?_ hnfresh fun c hc => ?_,
    hnm.insert_comm hnself hmself⟩
  · rw [contains_insert m hmself]
    exact fun hreg => hreg.elim hnm.ne hnfree
  · have hne : c ≠ m.id := fun heq => hnm.not_mem_left (heq ▸ hc)
    have hold : ∀ c ∈ m.children, f.contains c := fun c hc => ((register_eq_ok hm').2.1 c hc).1
    rw [contains_insert m hmself, parent?_insert m hmself hold, if_neg hne,
      if_neg fun hc' => hnm.disjoint hc hc']
    exact ⟨.inr (hnchildren c hc).1, (hnchildren c hc).2⟩

/-! ### Lists of nodes -/

/-- The nodes are in no forest yet, and list no children but each other. -/
structure SelfContained (ns : List Node) : Prop where
  fresh : ∀ n ∈ ns, n.forest? = none
  children_subset : ∀ n ∈ ns, n.children ⊆ ns.map Node.id

theorem selfContained_nil : SelfContained [] :=
  ⟨fun _ h => absurd h List.not_mem_nil, fun _ h => absurd h List.not_mem_nil⟩

theorem SelfContained.append (hns : SelfContained ns) (hms : SelfContained ms) :
    SelfContained (ns ++ ms) where
  fresh n hn := (List.mem_append.1 hn).elim (hns.fresh n) (hms.fresh n)
  children_subset n hn := by
    rw [List.map_append]
    rcases List.mem_append.1 hn with hn | hn
    · exact fun c hc => List.mem_append_left _ (hns.children_subset n hn hc)
    · exact fun c hc => List.mem_append_right _ (hms.children_subset n hn hc)

/-- One more node may list those before it. -/
theorem SelfContained.append_singleton (hns : SelfContained ns) (hm : m.forest? = none)
    (hchildren : m.children ⊆ ns.map Node.id) : SelfContained (ns ++ [m]) where
  fresh n hn := (List.mem_append.1 hn).elim (hns.fresh n) fun hn => by
    rw [List.mem_singleton.1 hn, hm]
  children_subset n hn := by
    rw [List.map_append]
    rcases List.mem_append.1 hn with hn | hn
    · exact fun c hc => List.mem_append_left _ (hns.children_subset n hn hc)
    · rw [List.mem_singleton.1 hn]
      exact fun c hc => List.mem_append_left _ (hchildren hc)

/-- A node that is unrelated to others can be registered before them. -/
theorem registerAll_cons_of_append (hm : m.forest? = none) (hns : ∀ n ∈ ns, n.forest? = none)
    (hunrelated : ∀ n ∈ ns, Unrelated n m) (h : f.registerAll (ns ++ [m]) = .ok g) :
    ∃ g', f.registerAll (m :: ns) = .ok g' ∧ g.Alike .unordered g' := by
  induction ns generalizing f with
  | nil => exact ⟨g, h, alike_refl g⟩
  | cons n ns ih =>
    obtain ⟨hn, hns⟩ := List.forall_mem_cons.1 hns
    obtain ⟨hnm, hunrelated⟩ := List.forall_mem_cons.1 hunrelated
    obtain ⟨f₁, hf₁, hrest⟩ := registerAll_cons_eq_ok.1 h
    obtain ⟨g', hg', hgg'⟩ := ih hns hunrelated hrest
    obtain ⟨f₂, hf₂, hg'⟩ := registerAll_cons_eq_ok.1 hg'
    -- the node has come before all others but the first one, and changes places with that
    obtain ⟨f₁', f₂', hf₁', hf₂', halike⟩ := register_comm hnm hn hm hf₁ hf₂
    obtain ⟨g'', hg'', hgg''⟩ := halike.registerAll hg'
    exact ⟨g'', registerAll_cons_eq_ok.2 ⟨f₁', hf₁', registerAll_cons_eq_ok.2 ⟨f₂', hf₂', hg''⟩⟩,
      hgg'.trans hgg''⟩

/-- Two lists of unrelated nodes can change places. -/
theorem registerAll_append_comm (hns : ∀ n ∈ ns, n.forest? = none)
    (hms : ∀ m ∈ ms, m.forest? = none) (hunrelated : ∀ n ∈ ns, ∀ m ∈ ms, Unrelated n m)
    (h : f.registerAll (ns ++ ms) = .ok g) :
    ∃ g', f.registerAll (ms ++ ns) = .ok g' ∧ g.Alike .unordered g' := by
  induction ms generalizing f g with
  | nil =>
    rw [List.append_nil] at h
    exact ⟨g, h, alike_refl g⟩
  | cons m ms ih =>
    obtain ⟨hm, hms⟩ := List.forall_mem_cons.1 hms
    have hm' : ∀ n ∈ ns, Unrelated n m := fun n hn => hunrelated n hn m List.mem_cons_self
    rw [← List.singleton_append, ← List.append_assoc, registerAll_append_eq_ok] at h
    obtain ⟨f₁, hf₁, hrest⟩ := h
    -- the first node of the second list goes to the front, and the others follow it
    obtain ⟨f₂, hf₂, hf₁₂⟩ := registerAll_cons_of_append hm hns hm' hf₁
    obtain ⟨g', hg', hgg'⟩ := hf₁₂.registerAll hrest
    obtain ⟨f₃, hf₃, hf₂⟩ := registerAll_cons_eq_ok.1 hf₂
    obtain ⟨g'', hg'', hgg''⟩ := ih hms
      (fun n hn m hm => hunrelated n hn m (List.mem_cons_of_mem _ hm))
      (registerAll_append_eq_ok.2 ⟨f₂, hf₂, hg'⟩)
    exact ⟨g'', registerAll_cons_eq_ok.2 ⟨f₃, hf₃, hg''⟩, hgg'.trans hgg''⟩

/-- Lists of nodes that can be registered one after another are unrelated. -/
theorem SelfContained.unrelated (hns : SelfContained ns) (hms : SelfContained ms)
    (h : f.registerAll (ns ++ ms) = .ok g) : ∀ n ∈ ns, ∀ m ∈ ms, Unrelated n m := by
  obtain ⟨f₁, hf₁, hrest⟩ := registerAll_append_eq_ok.1 h
  have hids : ∀ k ∈ ns.map Node.id, k ∉ ms.map Node.id := fun k hk hk' =>
    not_contains_of_registerAll hrest hk' ((contains_registerAll hf₁).2 (.inl hk))
  intro n hn m hm
  have hnid : n.id ∈ ns.map Node.id := List.mem_map_of_mem hn
  have hmid : m.id ∈ ms.map Node.id := List.mem_map_of_mem hm
  exact ⟨fun heq => hids _ hnid (heq ▸ hmid), fun hc => hids _ (hns.children_subset n hn hc) hmid,
    fun hc => hids _ hnid (hms.children_subset m hm hc),
    fun c hc hc' => hids c (hns.children_subset n hn hc) (hms.children_subset m hm hc')⟩

/-- **The order of self-contained lists of nodes does not matter** for their registration, but for
the order in which transactions note the nodes. -/
theorem registerAll_perm {nss mss : List (List Node)} (hperm : nss.Perm mss)
    (hself : ∀ ns ∈ nss, SelfContained ns) (h : f.registerAll nss.flatten = .ok g) :
    ∃ g', f.registerAll mss.flatten = .ok g' ∧ g.Alike .unordered g' := by
  induction hperm generalizing f g with
  | nil => exact ⟨g, h, alike_refl g⟩
  | cons ns _ ih =>
    obtain ⟨f₁, hf₁, hrest⟩ := registerAll_append_eq_ok.1 h
    obtain ⟨g', hg', hgg'⟩ := ih (fun ns hns => hself ns (List.mem_cons_of_mem _ hns)) hrest
    exact ⟨g', registerAll_append_eq_ok.2 ⟨f₁, hf₁, hg'⟩, hgg'⟩
  | swap ns ms rest =>
    obtain ⟨hms, hself⟩ := List.forall_mem_cons.1 hself
    obtain ⟨hns, -⟩ := List.forall_mem_cons.1 hself
    rw [List.flatten_cons, List.flatten_cons, ← List.append_assoc, registerAll_append_eq_ok] at h
    obtain ⟨f₁, hf₁, hrest⟩ := h
    obtain ⟨f₂, hf₂, hf₁₂⟩ := registerAll_append_comm hms.fresh hns.fresh (hms.unrelated hns hf₁) hf₁
    obtain ⟨g', hg', hgg'⟩ := hf₁₂.registerAll hrest
    rw [List.flatten_cons, List.flatten_cons, ← List.append_assoc]
    exact ⟨g', registerAll_append_eq_ok.2 ⟨f₂, hf₂, hg'⟩, hgg'⟩
  | trans hfirst _ ih ih' =>
    obtain ⟨g₁, hg₁, hgg₁⟩ := ih hself h
    obtain ⟨g₂, hg₂, hgg₂⟩ := ih' (fun ns hns => hself ns (hfirst.mem_iff.2 hns)) hg₁
    exact ⟨g₂, hg₂, hgg₁.trans hgg₂⟩

end Forest

end SolidityTree
