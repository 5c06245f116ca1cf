import SolidityTree.Proofs.Registrations
import SolidityTree.Proofs.Trees

/-!
# Copies of trees

A copy of a tree is the tree under other names (`Run.exists_copy`).  Three things lead there.

* A renamed payload has the slots, the children and the references of the payload renamed, and all
  else of it as it was (`Node.isCopyOf_copied`).
* The names are new: where there is room, the ids given out lie above the counter, no node has them,
  and no two are the same (`Run.wp_rename_named`).
* The tree is copied from its end, so when the turn of a node comes its children have copies, and
  these copies have no parent yet (`PartlyCopied.register_eq`).  The invariant of the loop
  (`Forest.PartlyCopied`) says this of the part of the tree that has been copied.
-/

namespace SolidityTree

/-! ### References of attributes -/

namespace Attributes

/-- The ids that the attributes refer to. -/
def references : Attributes → List NodeId
  | contractDefinition c =>
    c.scope :: (c.linearizedBaseContracts ++ c.usedErrors ++ c.usedEvents)
  | functionDefinition f => [f.scope]
  | structDefinition _ scope _ _ => [scope]
  | variableDeclaration v => [v.scope]
  | identifier _ _ referenced overloaded => referenced :: overloaded
  | memberAccess _ _ referenced => [referenced]
  | identifierPath _ referenced => [referenced]
  | userDefinedTypeName _ _ referenced => [referenced]
  | yulIdentifier _ referenced => [referenced]
  | importDirective i => i.scope :: i.sourceUnit :: i.symbolAliases.map SymbolAlias.declaration
  | sourceUnit u => u.exportedSymbols.map Prod.snd
  | inlineAssembly a => a.externalReferences.map ExternalReference.declaration
  | returnStatement parameters => [parameters]
  | variableDeclarationStatement assignments => assignments.filterMap id
  | usingForDirective _ operators => operators.map OperatorBinding.function
  | _ => []

/-- All else that is in the attributes, with the places of references marked. -/
def scalars : Attributes → Attributes
  | contractDefinition c => contractDefinition
      { c with
        scope := .builtin
        linearizedBaseContracts := c.linearizedBaseContracts.map fun _ => .builtin
        usedErrors := c.usedErrors.map fun _ => .builtin
        usedEvents := c.usedEvents.map fun _ => .builtin }
  | functionDefinition f => functionDefinition { f with scope := .builtin }
  | structDefinition name _ visibility place => structDefinition name .builtin visibility place
  | variableDeclaration v => variableDeclaration { v with scope := .builtin }
  | identifier type name _ overloaded =>
    identifier type name .builtin (overloaded.map fun _ => .builtin)
  | memberAccess type name _ => memberAccess type name .builtin
  | identifierPath name _ => identifierPath name .builtin
  | userDefinedTypeName type name? _ => userDefinedTypeName type name? .builtin
  | yulIdentifier name _ => yulIdentifier name .builtin
  | importDirective i => importDirective
      { i with
        scope := .builtin
        sourceUnit := .builtin
        symbolAliases := i.symbolAliases.map fun a => { a with declaration := .builtin } }
  | sourceUnit u => sourceUnit
      { u with exportedSymbols := u.exportedSymbols.map fun (name, _) => (name, .builtin) }
  | inlineAssembly a => inlineAssembly
      { a with
        externalReferences := a.externalReferences.map fun r => { r with declaration := .builtin } }
  | returnStatement _ => returnStatement .builtin
  | variableDeclarationStatement assignments =>
    variableDeclarationStatement (assignments.map (Option.map fun _ => .builtin))
  | usingForDirective isGlobal operators =>
    usingForDirective isGlobal (operators.map fun o => { o with function := .builtin })
  | attributes => attributes

variable (name : NodeId → NodeId) (attributes : Attributes)

theorem references_mapReferences :
    (attributes.mapReferences name).references = attributes.references.map name := by
  cases attributes with
  | variableDeclarationStatement assignments =>
    simp only [mapReferences, references, List.filterMap_map, List.map_filterMap]
    rfl
  | _ => simp [mapReferences, references, Function.comp_def]

theorem scalars_mapReferences : (attributes.mapReferences name).scalars = attributes.scalars := by
  cases attributes <;> simp [mapReferences, scalars, Function.comp_def]

end Attributes

/-! ### Copies of nodes -/

namespace Node

/-- The node is another one with its children and references renamed. -/
structure IsCopyOf (name : NodeId → NodeId) (copy n : Node) : Prop where
  kind_eq : copy.kind = n.kind
  src_eq : copy.src = n.src
  raw?_eq : copy.raw? = n.raw?
  children_eq : copy.children = n.children.map name
  slots_eq : copy.payload.slots = n.payload.slots.map (Slot.map name)
  references_eq : copy.payload.attributes.references = n.payload.attributes.references.map name
  scalars_eq : copy.payload.attributes.scalars = n.payload.attributes.scalars

/-- The node that is registered as the copy of another one. -/
def copied (name : NodeId → NodeId) (id : NodeId) (n : Node) : Node :=
  .fresh (name id) n.src (n.payload.rename name) n.raw?

theorem isCopyOf_copied (name : NodeId → NodeId) (id : NodeId) (n : Node)
    (parent? : Option NodeId) (forest? : Option ForestId) :
    ({ n.copied name id with parent? := parent?, forest? := forest? } : Node).IsCopyOf name n where
  kind_eq := Attributes.kind_mapReferences name n.payload.attributes
  src_eq := rfl
  raw?_eq := rfl
  children_eq := Payload.children_rename n.payload name
  slots_eq := rfl
  references_eq := Attributes.references_mapReferences name n.payload.attributes
  scalars_eq := Attributes.scalars_mapReferences name n.payload.attributes

end Node

namespace Forest

variable {f g : Forest} {tree done : List NodeId} {name : NodeId → NodeId} {a k r : NodeId}

/-! ### New names -/

/-- The nodes of a tree get names that no node has or has had, and all others keep theirs. -/
structure NewNames (f : Forest) (tree : List NodeId) (name : NodeId → NodeId) : Prop where
  name_eq : ∀ {k}, k ∉ tree → name k = k
  inj : ∀ {a b}, a ∈ tree → b ∈ tree → name a = name b → a = b
  not_contains : ∀ {a}, a ∈ tree → ¬ f.contains (name a)
  lastId_lt : ∀ {a}, a ∈ tree → f.lastId < name a

/-! ### Copying one node after another -/

/-- The forest `f` with copies of some nodes of a tree.  A copy has no parent while there is none of
the parent of the node. -/
structure PartlyCopied (f : Forest) (name : NodeId → NodeId) (done : List NodeId) (g : Forest) :
    Prop where
  id_eq : g.id = f.id
  overrun_eq : g.overrun = f.overrun
  contains_iff : ∀ {k}, g.contains k ↔ f.contains k ∨ ∃ a ∈ done, name a = k
  get?_eq : ∀ {k}, f.contains k → g.get? k = f.get? k
  get?_copy : ∀ {a n}, a ∈ done → f.get? a = some n → ∃ parent?, g.get? (name a) =
    some { n.copied name a with parent? := parent?, forest? := some f.id }
  parent?_copy : ∀ {a}, a ∈ done → (∀ p ∈ done, a ∉ f.children p) → g.parent? (name a) = none

theorem PartlyCopied.start (hid : g.id = f.id) (hover : g.overrun = f.overrun)
    (hget : ∀ k, g.get? k = f.get? k) : PartlyCopied f name [] g where
  id_eq := hid
  overrun_eq := hover
  contains_iff {k} := by
    rw [contains_iff_get?, hget, ← contains_iff_get?]
    simp
  get?_eq {k} _ := hget k
  get?_copy h := by contradiction
  parent?_copy h := by contradiction

namespace Turn

variable {n : Node} (hturn : Turn f tree done a) (hnames : NewNames f tree name)

include hturn hnames

theorem name_ne (hb : k ∈ done) : name k ≠ name a := by
  intro heq
  exact hturn.not_mem (hnames.inj (hturn.done_subset hb) hturn.mem heq ▸ hb)

/-- The copy of a node lists the copies of its children and no other. -/
theorem name_mem_children_iff (hn : f.get? a = some n) (hb : k ∈ done) :
    name k ∈ (n.copied name a).children ↔ k ∈ f.children a := by
  rw [children_of_get? hn, show (n.copied name a).children = n.children.map name from
    Payload.children_rename n.payload name, List.mem_map]
  constructor
  · rintro ⟨c, hc, heq⟩
    rw [← children_of_get? hn] at hc
    have hcdone := hturn.children_subset hc
    rw [← hnames.inj (hturn.done_subset hcdone) (hturn.done_subset hb) heq, ← children_of_get? hn]
    exact hc
  · exact fun hk => ⟨k, hk, rfl⟩

omit hnames in
theorem exists_of_mem_children (hn : f.get? a = some n)
    (hk : k ∈ (n.copied name a).children) : ∃ c ∈ f.children a, c ∈ done ∧ name c = k := by
  have hk' : k ∈ (n.payload.rename name).children := hk
  rw [Payload.children_rename] at hk'
  obtain ⟨c, hc, rfl⟩ := List.mem_map.1 hk'
  have hc' : c ∈ f.children a := by rwa [children_of_get? hn]
  exact ⟨c, hc', hturn.children_subset hc', rfl⟩

theorem not_mem_children (hn : f.get? a = some n) : name a ∉ (n.copied name a).children := by
  intro hself
  obtain ⟨c, -, hc, heq⟩ := hturn.exists_of_mem_children hn hself
  exact hturn.name_ne hnames hc heq

end Turn

namespace PartlyCopied

variable {n : Node} (hnames : NewNames f tree name) (hg : PartlyCopied f name done g)
  (hturn : Turn f tree done a) (hn : f.get? a = some n)

include hnames hg hturn hn

/-- **A node whose children have been copied can be copied.** -/
theorem register_eq (hf : f.Consistent) :
    g.register (n.copied name a) = .ok (g.insert (n.copied name a)) := by
  apply register_of_roots
  · show ¬ g.contains (name a)
    rw [hg.contains_iff]
    rintro (hold | ⟨b, hb, heq⟩)
    · exact hnames.not_contains hturn.mem hold
    · exact hturn.name_ne hnames hb heq
  · rfl
  · intro k hk
    obtain ⟨c, hc, hdone, rfl⟩ := hturn.exists_of_mem_children hn hk
    refine ⟨hg.contains_iff.2 (.inr ⟨c, hdone, rfl⟩), hg.parent?_copy hdone ?_⟩
    -- the parent of the children has no copy yet
    intro p hp hcp
    have hparent := (hf.parent?_of_mem hcp).symm.trans (hf.parent?_of_mem hc)
    exact hturn.not_mem (Option.some.inj hparent ▸ hp)

/-- What one more copy leaves. -/
theorem insert : PartlyCopied f name (a :: done) (g.insert (n.copied name a)) := by
  have hself := hturn.not_mem_children hnames hn
  have hget : ∀ k, (g.insert (n.copied name a)).get? k =
      if k = name a then some { n.copied name a with forest? := some g.id }
      else if k ∈ (n.copied name a).children then
        (g.get? k).map fun m => { m with parent? := some (name a) }
      else g.get? k := fun k => get?_insert _ hself
  -- the copies of other nodes are found as before, but for a parent mark if they are children now
  have hkeep : ∀ {b}, b ∈ done → b ∉ f.children a →
      (g.insert (n.copied name a)).get? (name b) = g.get? (name b) := by
    intro b hb hnot
    rw [hget, if_neg (hturn.name_ne hnames hb),
      if_neg (mt (hturn.name_mem_children_iff hnames hn hb).1 hnot)]
  refine ⟨?_, ?_, ?_, ?_, ?_, ?_⟩
  · rw [id_insert, hg.id_eq]
  · rw [overrun_insert, hg.overrun_eq]
  · intro k
    rw [contains_insert _ hself, hg.contains_iff]
    constructor
    · rintro (rfl | hold | ⟨b, hb, rfl⟩)
      · exact .inr ⟨a, List.mem_cons_self, rfl⟩
      · exact .inl hold
      · exact .inr ⟨b, List.mem_cons_of_mem a hb, rfl⟩
    · rintro (hold | ⟨b, hb, rfl⟩)
      · exact .inr (.inl hold)
      · rcases List.mem_cons.1 hb with rfl | hb
        · exact .inl rfl
        · exact .inr (.inr ⟨b, hb, rfl⟩)
  · intro k hk
    have hne : k ≠ name a := by
      rintro rfl
      exact hnames.not_contains hturn.mem hk
    have hnot : k ∉ (n.copied name a).children := by
      intro hmem
      obtain ⟨c, -, hc, rfl⟩ := hturn.exists_of_mem_children hn hmem
      exact hnames.not_contains (hturn.done_subset hc) hk
    rw [hget, if_neg hne, if_neg hnot, hg.get?_eq hk]
  · intro b m hb hm
    rcases List.mem_cons.1 hb with rfl | hb
    · obtain rfl : m = n := Option.some.inj (hm.symm.trans hn)
      exact ⟨none, by rw [hget, if_pos rfl, hg.id_eq]; rfl⟩
    · obtain ⟨parent?, hcopy⟩ := hg.get?_copy hb hm
      by_cases hchild : b ∈ f.children a
      · refine ⟨some (name a), ?_⟩
        rw [hget, if_neg (hturn.name_ne hnames hb),
          if_pos ((hturn.name_mem_children_iff hnames hn hb).2 hchild), hcopy]
        rfl
      · exact ⟨parent?, by rw [hkeep hb hchild, hcopy]⟩
  · intro b hb hparents
    obtain ⟨hroot, hparents⟩ := List.forall_mem_cons.1 hparents
    rcases List.mem_cons.1 hb with rfl | hb
    · rw [parent?, hget, if_pos rfl]
      rfl
    · rw [parent?, hkeep hb hroot]
      exact hg.parent?_copy hb hparents

end PartlyCopied

end Forest

namespace Run

open Forest

variable {f g : Forest} {name : NodeId → NodeId} {r : NodeId}

/-! ### Runs -/

/-- What giving out names for some ids leaves: the nodes as they were, room for `n` more names, and
a table that gives these ids, and no others, different new names above the counter. -/
structure Named (f : Forest) (ids : List NodeId) (n : Nat) (names : Std.ExtTreeMap NodeId NodeId)
    (g : Forest) : Prop where
  id_eq : g.id = f.id
  get?_eq : ∀ k, g.get? k = f.get? k
  overrun_eq : g.overrun = f.overrun
  room : g.Room n
  lastId_le : f.lastId ≤ g.lastId
  mem : ∀ {a}, a ∈ ids → a ∈ names
  entry : ∀ {a x : NodeId}, names[a]? = some x →
    a ∈ ids ∧ f.lastId < x ∧ x ≤ g.lastId ∧ ¬ f.contains x
  inj : ∀ {a b x : NodeId}, names[a]? = some x → names[b]? = some x → a = b

theorem named_nil {n : Nat} (hroom : f.Room n) : Named f [] n ∅ f where
  id_eq := rfl
  get?_eq _ := rfl
  overrun_eq := rfl
  room := hroom
  lastId_le := Int.le_refl _
  mem := nofun
  entry h := by simp at h
  inj h := by simp at h

/-- The names given out so far are not above the counter, so the next one differs from them. -/
theorem Named.insert {ids : List NodeId} {n : Nat} {names : Std.ExtTreeMap NodeId NodeId}
    (h : Named f ids (n + 1) names g) (id : NodeId) :
    Named f (ids ++ [id]) n (names.insert id g.nextId.1) g.nextId.2 := by
  have hlt : g.lastId < g.nextId.1 := lastId_lt_nextId h.room.hasNext
  have hentry : ∀ {a x : NodeId}, (names.insert id g.nextId.1)[a]? = some x →
      a = id ∧ x = g.nextId.1 ∨ names[a]? = some x := by
    intro a x ha
    rw [Std.ExtTreeMap.getElem?_insert] at ha
    split at ha
    · next heq => exact .inl ⟨(Std.LawfulEqCmp.eq_of_compare heq).symm, (Option.some.inj ha).symm⟩
    · exact .inr ha
  have hne : ∀ {b x : NodeId}, names[b]? = some x → x ≠ g.nextId.1 := fun hb =>
    Int.ne_of_lt (Int.lt_of_le_of_lt (h.entry hb).2.2.1 hlt)
  refine ⟨h.id_eq, h.get?_eq, h.room.overrun_nextId.trans h.overrun_eq, h.room.nextId,
    Int.le_trans h.lastId_le (Int.le_of_lt hlt), fun {a} ha => ?_, fun {a x} ha => ?_,
    fun {a b x} ha hb => ?_⟩
  · rw [Std.ExtTreeMap.mem_insert]
    rcases List.mem_append.1 ha with ha | ha
    · exact .inr (h.mem ha)
    · exact .inl (by rw [List.mem_singleton.1 ha]; exact Std.ReflCmp.compare_self)
  · rcases hentry ha with ⟨rfl, rfl⟩ | ha
    · have hnew : ¬ f.contains g.nextId.1 := by
        rw [contains_iff_get?, ← h.get?_eq, ← contains_iff_get?]
        exact g.not_contains_nextId
      exact ⟨by simp, Int.lt_of_le_of_lt h.lastId_le hlt, Int.le_refl _, hnew⟩
    · obtain ⟨hids, hx, hle, hnew⟩ := h.entry ha
      exact ⟨List.mem_append_left _ hids, hx, Int.le_trans hle (Int.le_of_lt hlt), hnew⟩
  · rcases hentry ha with ⟨ha, hx⟩ | ha' <;> rcases hentry hb with ⟨hb, hx'⟩ | hb'
    · rw [ha, hb]
    · exact absurd hx (hne hb')
    · exact absurd hx' (hne ha')
    · exact h.inj ha' hb'

/-- Where there is room, the ids of a list get new names. -/
theorem wp_rename_named (ids : List NodeId) (hroom : f.Room ids.length) :
    wp (rename ids) (Named f ids 0) (fun _ => False) f := by
  have hids : wp (rename ids) (fun names g => ∀ n, f.Room (ids.length + n) → Named f ids n names g)
      (fun _ => False) f := by
    apply wp_rename_induction
      (P := fun done names g => ∀ n, f.Room (done.length + n) → Named f done n names g)
    · intro n hroom
      exact named_nil (by simpa using hroom)
    · intro done names g id hg n hroom
      rw [List.length_append, List.length_singleton, Nat.add_assoc, Nat.add_comm 1 n] at hroom
      exact (hg (n + 1) hroom).insert id
  exact hids.mono (fun _ _ h => h 0 hroom) fun _ h => h

theorem Named.newNames {ids : List NodeId} {n : Nat} {names : Std.ExtTreeMap NodeId NodeId}
    (h : Named f ids n names g) : NewNames f ids (fun k => names.getD k k) := by
  have hget : ∀ {k}, k ∈ ids → names[k]? = some (names.getD k k) :=
    fun hk => Std.ExtTreeMap.getElem?_eq_some_getD (h.mem hk)
  refine ⟨fun {k} hk => ?_, fun ha hb heq => h.inj (hget ha) (heq ▸ hget hb), fun ha => ?_,
    fun ha => ?_⟩
  · have hnone : names[k]? = none := by
      apply Option.eq_none_iff_forall_ne_some.2
      intro x hx
      exact hk (h.entry hx).1
    rw [Std.ExtTreeMap.getD_eq_getD_getElem?, hnone, Option.getD_none]
  · exact (h.entry (hget ha)).2.2.2
  · exact (h.entry (hget ha)).2.1

/-- A tree is copied from its end. -/
theorem wp_copyNodes (hf : f.Consistent) (hnames : NewNames f (f.walk r) name)
    (hg : PartlyCopied f name [] g) :
    wp ((f.walk r).reverse.forM (copyNode name)) (fun _ h => PartlyCopied f name (f.walk r) h)
      (fun _ => False) g := by
  refine wp_copyNodes_induction hf hg fun a done g hturn hg => ?_
  have hreg : f.contains a := contains_of_mem_walkWithin hturn.mem
  obtain ⟨n, hn⟩ := contains_iff_get?.1 hreg
  have hga : g.get? a = some n := (hg.get?_eq hreg).trans hn
  have hregister := register_run_eq (hg.register_eq hnames hturn hn hf)
  exact wp_bind (wp_ask_of_ok (node_eq_ok.2 hga)
    (wp_bind (wp_of_ok hregister (wp_pure (hg.insert hnames hturn hn)))))

theorem checkOwned_eq_ok {h : Handle} (hforest : h.forest = f.id) :
    checkOwned h f = .ok () f := by
  rw [checkOwned, ask, if_pos hforest]

theorem wp_copy_newNames (hf : f.Consistent) (hr : f.contains r)
    (hroom : f.Room (f.walk r).length) :
    wp (copy (f.handle r)) (fun h g => ∃ name, h = f.handle (name r) ∧
      NewNames f (f.walk r) name ∧ PartlyCopied f name (f.walk r) g) (fun _ => False) f := by
  obtain ⟨n, hn⟩ := contains_iff_get?.1 hr
  refine wp_bind (wp_of_ok (checkOwned_eq_ok rfl) ?_)
  refine wp_bind (wp_ask_of_ok (node_eq_ok.2 hn) (wp_bind (wp_get ?_)))
  refine (wp_rename_named (f.walk r) hroom).andThen fun names g hg => ?_
  have hloop := wp_copyNodes hf hg.newNames (.start hg.id_eq hg.overrun_eq hg.get?_eq)
  refine hloop.andThen fun _ h hh => wp_bind (wp_get (wp_pure ⟨_, ?_, hg.newNames, hh⟩))
  rw [handle, hh.id_eq]
  rfl

/-- **A registered tree can be copied, and the copy is the tree under new names**, where the counter
bounds the ids and there are as many words above it as the tree has nodes: it does not run over.
The names of the copies are the ids that come to the forest, references inside the tree go to copies
and all others stay, the copy of the root has no parent, and what was there before is as it was. -/
theorem exists_copy (hf : f.Consistent) (hr : f.contains r)
    (hbound : ∀ k, f.contains k → k ≤ f.lastId)
    (hroom : Word.Leaves f.lastId (f.walk r).length) :
    ∃ name g, copy (f.handle r) f = .ok (f.handle (name r)) g ∧ g.Consistent ∧
      NewNames f (f.walk r) name ∧
      (∀ k, g.contains k ↔ f.contains k ∨ ∃ a ∈ f.walk r, name a = k) ∧
      (∀ a ∈ f.walk r, ∀ n, f.get? a = some n →
        ∃ copy, g.get? (name a) = some copy ∧ copy.IsCopyOf name n) ∧
      g.parent? (name r) = none ∧
      (∀ k, f.contains k → g.get? k = f.get? k) ∧ g.overrun = f.overrun := by
  obtain ⟨_, g, hrun, name, rfl, hnames, hg⟩ :=
    exists_ok_of_wp (wp_copy_newNames hf hr (room_of_le_lastId hbound hroom))
  have hconsistent : wp (copy (f.handle r)) (fun _ g => g.Consistent ∧ True)
      (fun g => g.Consistent ∧ True) f :=
    wp_copy hf trivial (fun _ _ => trivial) (fun _ _ _ _ _ => trivial) (f.handle r)
  refine ⟨name, g, hrun, (wp_ok hconsistent hrun).1, hnames, fun k => hg.contains_iff, ?_, ?_,
    fun k => hg.get?_eq, hg.overrun_eq⟩
  · intro a ha n hn
    obtain ⟨parent?, hcopy⟩ := hg.get?_copy ha hn
    exact ⟨_, hcopy, Node.isCopyOf_copied name a n parent? (some f.id)⟩
  · apply hg.parent?_copy (hf.mem_walk_iff.2 ⟨hr, .refl⟩)
    -- the root is not below itself, so its parent is outside the tree
    intro p hp hrp
    have hparent := hf.parent?_of_mem hrp
    exact hf.not_reaches_of_parent? hparent (hf.mem_walk_iff.1 hp).2

/-- The declaration of a variable and of another value that is dropped, with a name for the
variable as the initial value. -/
def declaringStatementNodes : List Node :=
  [.fresh 1 .unknown (.variableDeclaration
      ⟨false, false, "x", 9, false, .unspecified, .internally, .mutable, "", none⟩
      none none none none) none,
    .fresh 2 .unknown (.identifier "" "x" 1 [9]) none,
    .fresh 3 .unknown (.variableDeclarationStatement [some 1, none] none [1] (some 2)) none,
    blockNode 4 [3]]

/-- The forest of these nodes, in which the statement is one of a block. -/
def declaringStatement : Forest := declaringStatementNodes.foldl insert (empty 0)

theorem consistent_declaringStatement : declaringStatement.Consistent := by
  have hregister : (empty 0).registerAll declaringStatementNodes = .ok declaringStatement := rfl
  exact (consistent_empty 0).registerAll hregister (by decide)

/-- The copies of the statement and of the name refer to the copy of the declaration, and the name
still refers to the node 9, which is not in the tree. -/
theorem exists_copy_declaringStatement :
    ∃ (name : NodeId → NodeId) (g : Forest) (statement identifier : Node),
      copy (declaringStatement.handle 3) declaringStatement =
          .ok (declaringStatement.handle (name 3)) g ∧
        g.get? (name 3) = some statement ∧ statement.children = [name 1, name 2] ∧
        statement.payload.attributes.references = [name 1] ∧
        g.get? (name 2) = some identifier ∧
        identifier.payload.attributes.references = [name 1, 9] ∧ g.parent? (name 3) = none := by
  have hwalk : declaringStatement.walk 3 = [3, 1, 2] := rfl
  have hbound : ∀ k, declaringStatement.contains k → k ≤ declaringStatement.lastId := by
    have hkeys : ∀ k ∈ declaringStatement.nodes.keys, k ≤ declaringStatement.lastId := by decide
    exact fun k hk => hkeys k (Std.ExtTreeMap.mem_keys.2 hk)
  have hroom : Word.Leaves declaringStatement.lastId (declaringStatement.walk 3).length := by decide
  obtain ⟨name, g, hrun, -, hnames, -, hcopies, hroot, -⟩ :=
    exists_copy (r := 3) consistent_declaringStatement rfl hbound hroom
  rw [hwalk] at hnames hcopies
  have hstatement : declaringStatement.get? 3 = some _ := rfl
  have hidentifier : declaringStatement.get? 2 = some _ := rfl
  obtain ⟨statement, hget, hcopy⟩ := hcopies 3 (by decide) _ hstatement
  obtain ⟨identifier, hget', hcopy'⟩ := hcopies 2 (by decide) _ hidentifier
  have hreferences := hcopy'.references_eq
  have hnine : name 9 = 9 := hnames.name_eq (by decide)
  refine ⟨name, g, statement, identifier, hrun, hget, hcopy.children_eq, hcopy.references_eq,
    hget', ?_, hroot⟩
  rw [← hnine]
  exact hreferences

end Run

end SolidityTree
