import SolidityTree.Proofs.Recovery
import SolidityTree.Proofs.Sessions

/-!
# Nodes in fields for documentation

A forest is documented (`Forest.Documented`) if every node that a field for documentation holds is a
documentation node.  No edit of a tree puts any other node there: an edit keeps the kinds of nodes,
and a field that it fills gets what it held before or a documentation node (`Forest.Redocuments`).
An edit that forgets nodes keeps those that are held, since they are children of nodes that stay;
and a copy holds the copies of what the original holds, which are of the same kind.

A registration adds a field that somebody else has filled.  It keeps a forest documented exactly if
that holds a documentation node or none (`Forest.documented_register_iff`), and nothing checks this.
-/

namespace SolidityTree

/-! ### The field among the slots -/

/-- The content of a slot for documentation. -/
def Slot.documentation? : Slot → Option (Option Documentation)
  | .documentation d? => some d?
  | _ => none

namespace Slot

variable {slot slot' : Slot} {child old new : NodeId}

theorem documentation?_replace? (h : slot.replace? old new = some slot') :
    slot'.documentation? = slot.documentation? ∨ slot.documentation? = some (some (.node old)) ∧
      slot'.documentation? = some (some (.node new)) := by
  cases slot <;> grind [replace?, documentation?]

theorem documentation?_remove (h : slot.remove child = .removed slot') :
    slot'.documentation? = slot.documentation? ∨ slot'.documentation? = some none := by
  cases slot <;> grind [remove, documentation?]

theorem documentation?_map (f : NodeId → NodeId) (d : NodeId)
    (h : (slot.map f).documentation? = some (some (.node d))) :
    ∃ d', slot.documentation? = some (some (.node d')) ∧ d = f d' := by
  cases slot with
  | documentation d? =>
    rcases d? with _ | _ | d'
    · simp [map, documentation?] at h
    · simp [map, documentation?] at h
    · simp only [map, documentation?, Option.some.injEq, Documentation.node.injEq] at h
      exact ⟨d', rfl, h.symm⟩
  | operand type => cases type <;> simp [map, documentation?] at h
  | _ => simp [map, documentation?] at h

end Slot

namespace Slots

variable {slots slots' : List Slot} {child old new : NodeId}

theorem documentation?_cons (slot : Slot) (rest : List Slot) :
    documentation? (slot :: rest) = slot.documentation?.or (documentation? rest) := by
  cases slot <;> rfl

theorem documentation?_replace? (h : replace? old new slots = some slots') :
    documentation? slots' = documentation? slots ∨ documentation? slots = some (some (.node old)) ∧
      documentation? slots' = some (some (.node new)) := by
  induction slots generalizing slots' with
  | nil => simp [replace?] at h
  | cons slot rest ih =>
    simp only [replace?] at h
    split at h
    · next slot' hslot =>
      cases h
      rw [documentation?_cons, documentation?_cons]
      rcases Slot.documentation?_replace? hslot with heq | ⟨hold, hnew⟩
      · exact .inl (by rw [heq])
      · exact .inr (by rw [hold, hnew]; exact ⟨rfl, rfl⟩)
    · obtain ⟨rest', hrest, rfl⟩ := Option.map_eq_some_iff.1 h
      rw [documentation?_cons, documentation?_cons]
      cases hslot : slot.documentation? with
      | none => simpa using ih hrest
      | some d? => exact .inl rfl

theorem documentation?_remove_or (h : remove child slots = .removed slots') :
    documentation? slots' = documentation? slots ∨ documentation? slots' = some none := by
  induction slots generalizing slots' with
  | nil => simp [remove] at h
  | cons slot rest ih =>
    simp only [remove] at h
    split at h
    · next slot' hslot =>
      cases h
      rw [documentation?_cons, documentation?_cons]
      rcases Slot.documentation?_remove hslot with heq | hnone
      · exact .inl (by rw [heq])
      · exact .inr (by rw [hnone]; rfl)
    · contradiction
    · cases hrest : remove child rest with
      | removed rest' =>
        rw [hrest] at h
        cases h
        rw [documentation?_cons, documentation?_cons]
        cases hslot : slot.documentation? with
        | none => simpa using ih hrest
        | some d? => exact .inl rfl
      | absent => simp [hrest, Removal.map] at h
      | required => simp [hrest, Removal.map] at h

theorem documentation?_prepend? (h : prepend? child slots = some slots') :
    documentation? slots' = documentation? slots := by
  unfold prepend? at h
  split at h
  · cases h
    rfl
  · contradiction

theorem documentation?_append? (h : append? child slots = some slots') :
    documentation? slots' = documentation? slots := by
  induction slots using append?.induct generalizing slots' with
  | case1 => simp [append?] at h
  | case2 children =>
    simp only [append?] at h
    cases h
    rfl
  | case3 slot hs => simp [append?] at h
  | case4 slot next rest ih =>
    simp only [append?] at h
    obtain ⟨rest', hrest, rfl⟩ := Option.map_eq_some_iff.1 h
    rw [documentation?_cons, documentation?_cons, ih hrest]

theorem documentation?_setOptional (child : NodeId) (slots : List Slot) :
    documentation? (setOptional child slots) = documentation? slots := by
  induction slots using setOptional.induct with
  | case1 => rfl
  | case2 c? rest => rfl
  | case3 slot rest hs ih =>
    rw [setOptional.eq_3 _ _ _ hs, documentation?_cons, documentation?_cons, ih]

theorem documentation?_map (f : NodeId → NodeId) (d : NodeId)
    (h : documentation? (slots.map (Slot.map f)) = some (some (.node d))) :
    ∃ d', documentation? slots = some (some (.node d')) ∧ d = f d' := by
  induction slots with
  | nil => simp [documentation?] at h
  | cons slot rest ih =>
    rw [List.map_cons, documentation?_cons] at h
    rw [documentation?_cons]
    cases hslot : slot.documentation? with
    | none =>
      -- a slot of another sort stays one
      have hmap : (slot.map f).documentation? = none := by
        cases slot with
        | documentation d? => contradiction
        | operand type => cases type <;> rfl
        | _ => rfl
      rw [hmap] at h
      simpa using ih h
    | some d? =>
      have hmap : (slot.map f).documentation? = some (some (.node d)) := by
        cases slot with
        | documentation d? => rcases d? with _ | _ | d' <;> exact h
        | _ => contradiction
      obtain ⟨d', hd', rfl⟩ := Slot.documentation?_map f d hmap
      exact ⟨d', by rw [← hslot, hd']; rfl, rfl⟩

end Slots

/-! ### The field of a payload -/

namespace Payload

variable {p p' : Payload} {child old new d : NodeId}

/-- The node in the field for documentation, where the kind has one. -/
def documentationNode? (p : Payload) : Option NodeId :=
  p.documentation?.bind fun d? => d?.bind Documentation.node?

theorem documentationNode?_eq_some :
    p.documentationNode? = some d ↔ p.documentation? = some (some (.node d)) := by
  unfold documentationNode?
  rcases p.documentation? with _ | _ | _ | d' <;> simp [Documentation.node?]

theorem documentationNode?_of_eq (h : p'.documentation? = p.documentation?) :
    p'.documentationNode? = p.documentationNode? := by
  rw [documentationNode?, h, documentationNode?]

theorem mem_children_of_documentationNode? (h : p.documentationNode? = some d) : d ∈ p.children :=
  mem_children_of_documentation? (documentationNode?_eq_some.1 h)

theorem documentationNode?_replace? (h : p.replace? old new = some p')
    (hd : p'.documentationNode? = some d) :
    p.documentationNode? = some d ∨ p.documentation? = some (some (.node old)) ∧ d = new := by
  rw [documentationNode?_eq_some] at hd ⊢
  rcases Slots.documentation?_replace? (slots_of_replace? h) with heq | ⟨hold, hnew⟩
  · exact .inl (heq.symm.trans hd)
  · have hboth := hnew.symm.trans hd
    simp only [Option.some.injEq, Documentation.node.injEq] at hboth
    exact .inr ⟨hold, hboth.symm⟩

theorem documentationNode?_remove (h : p.remove child = .removed p')
    (hd : p'.documentationNode? = some d) : p.documentationNode? = some d := by
  rw [documentationNode?_eq_some] at hd ⊢
  rcases Slots.documentation?_remove_or (slots_of_remove h) with heq | hnone
  · exact heq.symm.trans hd
  · have hboth := hnone.symm.trans hd
    simp at hboth

theorem documentationNode?_prepend? (h : p.prepend? child = some p') :
    p'.documentationNode? = p.documentationNode? :=
  documentationNode?_of_eq (Slots.documentation?_prepend? (slots_of_prepend? h))

theorem documentationNode?_append? (h : p.append? child = some p') :
    p'.documentationNode? = p.documentationNode? :=
  documentationNode?_of_eq (Slots.documentation?_append? (slots_of_append? h))

theorem documentationNode?_expand? {references : List ExternalReference}
    (h : p.expand? child = some (references, p')) :
    p'.documentationNode? = p.documentationNode? := by
  unfold expand? at h
  split at h
  · cases h
    exact documentationNode?_of_eq (Slots.documentation?_setOptional child p.slots)
  · contradiction

/-- The field holds what it is filled with, where there is one. -/
theorem documentationNode?_setDocumentation {d? : Option Documentation}
    (hd : (p.setDocumentation d?).documentationNode? = some d) : d? = some (.node d) := by
  rw [documentationNode?_eq_some] at hd
  cases hp : p.documentation? with
  | none =>
    have hsame : (p.setDocumentation d?).documentation? = p.documentation? :=
      congrArg Slots.documentation? (Slots.setDocumentation_eq_self_of_none hp d?)
    rw [hsame, hp] at hd
    contradiction
  | some e? =>
    rw [documentation?_setDocumentation hp d?] at hd
    exact Option.some.inj hd

theorem kind_rename (p : Payload) (f : NodeId → NodeId) : (p.rename f).kind = p.kind :=
  Attributes.kind_mapReferences f p.attributes

/-- A renamed payload holds the renamed node. -/
theorem documentationNode?_rename {f : NodeId → NodeId}
    (hd : (p.rename f).documentationNode? = some d) :
    ∃ d', p.documentationNode? = some d' ∧ d = f d' := by
  rw [documentationNode?_eq_some] at hd
  obtain ⟨d', hd', rfl⟩ := Slots.documentation?_map f d hd
  exact ⟨d', documentationNode?_eq_some.2 hd', rfl⟩

end Payload

namespace Forest

variable {f g h : Forest} {k id d p c old : NodeId}

/-! ### Views of nodes -/

/-- The kind of a node. -/
def kind? (f : Forest) (k : NodeId) : Option Kind := (f.get? k).map Node.kind

/-- The record that a node keeps. -/
def raw? (f : Forest) (k : NodeId) : Option Json := (f.get? k).bind Node.raw?

/-- The node in the field for documentation of a node. -/
def documentationNode? (f : Forest) (k : NodeId) : Option NodeId :=
  (f.get? k).bind fun n => n.payload.documentationNode?

/-- Every node in a field for documentation is a documentation node. -/
def Documented (f : Forest) : Prop :=
  ∀ k d, f.documentationNode? k = some d → f.kind? d = some .structuredDocumentation

/-- A payload whose field for documentation holds a documentation node, if it holds a node. -/
def Suits (f : Forest) (p : Payload) : Prop :=
  ∀ d, p.documentationNode? = some d → f.kind? d = some .structuredDocumentation

theorem kind?_of_get? {n : Node} (hn : f.get? k = some n) : f.kind? k = some n.kind := by
  rw [kind?, hn, Option.map_some]

theorem documentationNode?_of_get? {n : Node} (hn : f.get? k = some n) :
    f.documentationNode? k = n.payload.documentationNode? := by
  rw [documentationNode?, hn, Option.bind_some]

theorem exists_kind?_of_contains (hk : f.contains k) : ∃ kind, f.kind? k = some kind := by
  obtain ⟨n, hn⟩ := contains_iff_get?.1 hk
  exact ⟨n.kind, kind?_of_get? hn⟩

theorem contains_of_kind? {kind : Kind} (hk : f.kind? k = some kind) : f.contains k := by
  obtain ⟨n, hn, -⟩ := Option.map_eq_some_iff.1 hk
  exact contains_iff_get?.2 ⟨n, hn⟩

theorem documented_empty (id : ForestId) : (empty id).Documented := by
  intro k d hd
  cases hd

theorem Documented.suits (hf : f.Documented) {n : Node} (hn : f.get? k = some n) :
    f.Suits n.payload := fun d hd => hf k d ((documentationNode?_of_get? hn).trans hd)

/-! ### Edits of nodes -/

/-- The nodes are of the same kinds and keep the same records, and their fields for documentation
hold what they held before, or documentation nodes. -/
structure Redocuments (f g : Forest) : Prop where
  kind?_eq : ∀ k, g.kind? k = f.kind? k
  raw?_eq : ∀ k, g.raw? k = f.raw? k
  documentationNode? : ∀ {k d}, g.documentationNode? k = some d →
    f.documentationNode? k = some d ∨ f.kind? d = some .structuredDocumentation

theorem Documented.redocuments (hf : f.Documented) (hg : Redocuments f g) : g.Documented := by
  intro k d hd
  rw [hg.kind?_eq]
  exact (hg.documentationNode? hd).elim (hf k d) fun hd => hd

theorem Redocuments.of_get? (hget : ∀ k, g.get? k = f.get? k) : Redocuments f g where
  kind?_eq k := by rw [kind?, hget, kind?]
  raw?_eq k := by rw [raw?, hget, raw?]
  documentationNode? {k d} hd := by
    rw [Forest.documentationNode?, hget] at hd
    exact .inl hd

theorem Redocuments.refl (f : Forest) : Redocuments f f := .of_get? fun _ => rfl

namespace Redocuments

/-- A change of a node that keeps its kind and its record and fills its field with a documentation
node at most. -/
theorem modify (hg : Redocuments f g) {change : Node → Node}
    (hraw : ∀ n, (change n).raw? = n.raw?)
    (hchange : ∀ n, g.get? id = some n → (change n).kind = n.kind ∧
      ∀ d, (change n).payload.documentationNode? = some d →
        n.payload.documentationNode? = some d ∨ g.kind? d = some .structuredDocumentation) :
    Redocuments f (g.modify id change) := by
  refine ⟨fun k => ?_, fun k => ?_, fun {k d} hd => ?_⟩
  · rw [← hg.kind?_eq, kind?, get?_modify, kind?]
    split
    · next hk =>
      subst hk
      cases hn : g.get? id with
      | none => rfl
      | some n => exact congrArg some (hchange n hn).1
    · rfl
  · rw [← hg.raw?_eq, raw?, get?_modify, raw?]
    split
    · cases g.get? k with
      | none => rfl
      | some n => exact hraw n
    · rfl
  · rw [Forest.documentationNode?, get?_modify] at hd
    split at hd
    · next hk =>
      subst hk
      cases hn : g.get? id with
      | none => simp [hn] at hd
      | some n =>
        rw [hn] at hd
        rcases (hchange n hn).2 d hd with hold | hdoc
        · exact hg.documentationNode? ((documentationNode?_of_get? hn).trans hold)
        · exact .inr (hg.kind?_eq d ▸ hdoc)
    · exact hg.documentationNode? hd

theorem modifyPayload (hg : Redocuments f g) {change : Payload → Payload}
    (hchange : ∀ n, g.get? id = some n → (change n.payload).kind = n.kind ∧
      ∀ d, (change n.payload).documentationNode? = some d →
        n.payload.documentationNode? = some d ∨ g.kind? d = some .structuredDocumentation) :
    Redocuments f (g.modifyPayload id change) := hg.modify (fun _ => rfl) hchange

/-- A change of attributes only. -/
theorem modifyPayload_of_slots (hg : Redocuments f g) {change : Payload → Payload}
    (hkind : ∀ p : Payload, (change p).kind = p.kind)
    (hslots : ∀ p : Payload, (change p).slots = p.slots) :
    Redocuments f (g.modifyPayload id change) := by
  refine hg.modifyPayload fun n _ => ⟨hkind n.payload, fun d hd => .inl ?_⟩
  rwa [Payload.documentationNode?_of_eq (congrArg Slots.documentation? (hslots n.payload))] at hd

theorem setParent (hg : Redocuments f g) (id : NodeId) (p? : Option NodeId) :
    Redocuments f (g.setParent id p?) :=
  hg.modify (fun _ => rfl) fun _ _ => ⟨rfl, fun _ hd => .inl hd⟩

theorem setParents (hg : Redocuments f g) (ids : List NodeId) (p? : Option NodeId) :
    Redocuments f (g.setParents ids p?) := by
  induction ids generalizing g with
  | nil => exact hg
  | cons id rest ih => exact ih (hg.setParent id p?)

theorem attach (hg : Redocuments f g) {n : Node} (hn : g.get? p = some n) {payload : Payload}
    (hattributes : payload.attributes = n.payload.attributes)
    (hpayload : ∀ d, payload.documentationNode? = some d →
      n.payload.documentationNode? = some d ∨ g.kind? d = some .structuredDocumentation) :
    Redocuments f (g.attach p c payload) := by
  refine (hg.modifyPayload fun m hm => ?_).setParent c (some p)
  obtain rfl : m = n := Option.some.inj (hm.symm.trans hn)
  exact ⟨congrArg Attributes.kind hattributes, hpayload⟩

variable {doc : Handle}

theorem append (hg : Redocuments f g) (happ : g.append p doc = .ok h) : Redocuments f h := by
  obtain ⟨-, n, payload, hn, hp, rfl⟩ := append_eq_ok happ
  refine hg.attach hn (Payload.attributes_append? hp) fun d hd => .inl ?_
  rwa [Payload.documentationNode?_append? hp] at hd

theorem prepend (hg : Redocuments f g) (hpre : g.prepend p doc = .ok h) : Redocuments f h := by
  obtain ⟨-, n, payload, hn, hp, rfl⟩ := prepend_eq_ok hpre
  refine hg.attach hn (Payload.attributes_prepend? hp) fun d hd => .inl ?_
  rwa [Payload.documentationNode?_prepend? hp] at hd

/-- Only a documentation node takes the place of one in the field. -/
theorem replace (hg : Redocuments f g) (hrep : g.replace p doc old = .ok h) : Redocuments f h := by
  rcases replace_eq_ok hrep with ⟨-, rfl⟩ | ⟨-, n, payload, hn, hp, hcheck, rfl⟩
  · exact hg
  have hset := hg.setParent old none
  obtain ⟨m, hm, hpayload⟩ : ∃ m, (g.setParent old none).get? p = some m ∧
      m.payload = n.payload := by
    rw [get?_setParent, hn]
    split <;> exact ⟨_, rfl, rfl⟩
  refine hset.attach hm (hpayload ▸ Payload.attributes_replace? hp) fun d hd => ?_
  rw [hpayload]
  refine (Payload.documentationNode?_replace? hp hd).imp_right fun ⟨hold, hd⟩ => ?_
  obtain ⟨m', hm', hkind⟩ := hcheck hold
  rw [hset.kind?_eq, ← hg.kind?_eq, hd, kind?_of_get? hm', hkind]

theorem remove (hg : Redocuments f g) (hrem : g.remove p c = .ok h) : Redocuments f h := by
  obtain ⟨n, payload, hn, hp, rfl⟩ := remove_eq_ok hrem
  refine (hg.modifyPayload fun m hm => ?_).setParent c none
  obtain rfl : m = n := Option.some.inj (hm.symm.trans hn)
  exact ⟨congrArg Attributes.kind (Payload.attributes_remove hp), fun d hd =>
    .inl (Payload.documentationNode?_remove hp hd)⟩

end Redocuments

/-! ### Registration and forgetting -/

theorem kind?_register {n : Node} (hregister : f.register n = .ok g) :
    g.kind? k = if k = n.id then some n.kind else f.kind? k := by
  have hself := not_mem_children_of_register hregister
  obtain ⟨-, -, rfl⟩ := register_eq_ok hregister
  rw [kind?, get?_insert n hself, kind?]
  by_cases hk : k = n.id
  · rw [if_pos hk, if_pos hk]
    rfl
  · rw [if_neg hk, if_neg hk]
    split
    · cases f.get? k <;> rfl
    · rfl

theorem raw?_register {n : Node} (hregister : f.register n = .ok g) :
    g.raw? k = if k = n.id then n.raw? else f.raw? k := by
  have hself := not_mem_children_of_register hregister
  obtain ⟨-, -, rfl⟩ := register_eq_ok hregister
  rw [raw?, get?_insert n hself, raw?]
  by_cases hk : k = n.id
  · rw [if_pos hk, if_pos hk]
    rfl
  · rw [if_neg hk, if_neg hk]
    split
    · cases f.get? k <;> rfl
    · rfl

theorem documentationNode?_register {n : Node} (hregister : f.register n = .ok g) :
    g.documentationNode? k =
      if k = n.id then n.payload.documentationNode? else f.documentationNode? k := by
  have hself := not_mem_children_of_register hregister
  obtain ⟨-, -, rfl⟩ := register_eq_ok hregister
  rw [documentationNode?, get?_insert n hself, documentationNode?]
  by_cases hk : k = n.id
  · rw [if_pos hk, if_pos hk]
    rfl
  · rw [if_neg hk, if_neg hk]
    split
    · cases f.get? k <;> rfl
    · rfl

/-- A node that is held by another one was there before. -/
theorem kind?_register_of_documentationNode? {n : Node} (hregister : f.register n = .ok g)
    (hd : n.payload.documentationNode? = some d) : g.kind? d = f.kind? d := by
  rw [kind?_register hregister, if_neg]
  rintro rfl
  exact not_mem_children_of_register hregister (Payload.mem_children_of_documentationNode? hd)

/-- What is registered keeps its kind when more is registered. -/
theorem additive_kind? (k : NodeId) (kind : Kind) : Run.Additive fun g => g.kind? k = some kind where
  nextId hg := hg
  register {f g n} hf hregister := by
    rw [kind?_register hregister, if_neg, hf]
    rintro rfl
    obtain ⟨m, hm, -⟩ := Option.map_eq_some_iff.1 hf
    exact (register_eq_ok hregister).1 (contains_iff_get?.2 ⟨m, hm⟩)

theorem Documented.register (hf : f.Documented) {n : Node} (hregister : f.register n = .ok g)
    (hsuits : f.Suits n.payload) : g.Documented := by
  intro k d hd
  rw [documentationNode?_register hregister] at hd
  split at hd
  · rw [kind?_register_of_documentationNode? hregister hd]
    exact hsuits d hd
  · exact (additive_kind? d _).register (hf k d hd) hregister

/-- **A registration keeps a forest documented exactly if** the field for documentation of the new
node holds a documentation node, if it holds a node; it is accepted in any case. -/
theorem documented_register_iff (hf : f.Documented) {n : Node} (hregister : f.register n = .ok g) :
    g.Documented ↔ f.Suits n.payload := by
  refine ⟨fun hg d hd => ?_, hf.register hregister⟩
  rw [← kind?_register_of_documentationNode? hregister hd]
  exact hg n.id d (by rwa [documentationNode?_register hregister, if_pos rfl])

theorem Documented.nextId (hf : f.Documented) : f.nextId.2.Documented :=
  hf.redocuments (.of_get? fun _ => rfl)

/-- What no remaining node holds may be forgotten. -/
theorem Documented.erase (hf : f.Documented) {ids : List NodeId}
    (hids : ∀ k ∉ ids, ∀ d, f.documentationNode? k = some d → d ∉ ids) :
    (f.erase ids).Documented := by
  intro k d hd
  rw [documentationNode?, get?_erase] at hd
  split at hd
  · contradiction
  · next hk =>
    have hd : f.documentationNode? k = some d := hd
    rw [kind?, get?_erase, if_neg (hids k hk d hd)]
    exact hf k d hd

/-- A node that is held is a child. -/
theorem mem_children_of_documentationNode? (hd : f.documentationNode? k = some d) :
    d ∈ f.children k := by
  obtain ⟨n, hn, hd⟩ := Option.bind_eq_some_iff.1 hd
  rw [children_of_get? hn]
  exact Payload.mem_children_of_documentationNode? hd

theorem Documented.unregister (hf : f.Documented) (hcons : f.Consistent) {n : Node}
    (hun : f.unregister id = .ok (n, g)) : g.Documented := by
  obtain ⟨-, hroot, rfl⟩ := unregister_eq_ok hun
  have herase : (f.erase [id]).Documented := hf.erase fun k _ d hd hid => by
    obtain rfl := List.mem_singleton.1 hid
    have hparent := hcons.parent?_of_mem (mem_children_of_documentationNode? hd)
    rw [hroot] at hparent
    contradiction
  exact herase.redocuments ((Redocuments.refl _).setParents _ none)

theorem Documented.removeSubtree (hf : f.Documented) (hcons : f.Consistent) {count : Nat}
    (hrem : f.removeSubtree id = .ok (count, g)) : g.Documented := by
  obtain ⟨h, hh, -, hroot, horigin, rfl, -⟩ := hcons.removeSubtree_eq_ok hrem
  have hdoc : h.Documented := by
    rcases horigin with rfl | ⟨p, hremove⟩
    · exact hf
    · exact hf.redocuments ((Redocuments.refl f).remove hremove)
  refine hdoc.erase fun k hk d hd hwalk => hk ?_
  exact hh.mem_walk_of_mem_children hroot (mem_children_of_documentationNode? hd) hwalk

end Forest

open Forest

namespace Run

variable {f : Forest} {id : NodeId}

/-! ### Documentation -/

theorem keeps_detach_redocuments (d? : Option Documentation) :
    Keeps (Redocuments f) (detach id d?) := by
  intro g hg
  unfold detach
  split
  · exact wp_edit (fun _ hrem => hg.remove hrem) hg
  · exact wp_pure hg

theorem keeps_setDocumentationText_redocuments (text? : Option String) :
    Keeps (Redocuments f) (setDocumentationText id text?) := by
  intro g hg
  refine wp_bind (wp_ask (fun old _ => ?_) hg)
  refine (keeps_detach_redocuments old g hg).andThen fun _ g hg => ?_
  refine wp_bind (wp_ask (fun n _ => wp_modify ?_) hg)
  split
  · exact hg.modifyPayload_of_slots (fun p => Attributes.kind_setDocString text? p.attributes)
      fun _ => rfl
  · refine hg.modifyPayload fun m _ => ⟨rfl, fun d hd => ?_⟩
    have htext := Payload.documentationNode?_setDocumentation hd
    cases text? <;> simp at htext

theorem keeps_setDanglingText_redocuments (text? : Option String) :
    Keeps (Redocuments f) (setDanglingText id text?) := by
  intro g hg
  refine wp_bind (wp_ask (fun old _ => ?_) hg)
  refine (keeps_detach_redocuments old g hg).andThen fun _ g hg => ?_
  refine wp_bind (wp_ask (fun n _ => wp_modify ?_) hg)
  exact hg.modifyPayload_of_slots (fun p => Attributes.kind_setDanglingDocString text? p.attributes)
    fun _ => rfl

/-- What is attached was found to be a documentation node. -/
theorem keeps_attachDocumentation_redocuments (doc : Handle) :
    Keeps (Redocuments f) (attachDocumentation id doc) := by
  intro g hg
  refine wp_bind (wp_ask (fun old _ => ?_) hg)
  refine wp_bind (wp_ask (fun _ hcheck => ?_) hg)
  obtain ⟨m, hm, hkind⟩ := kind_of_checkDocumentation hcheck
  refine wp_bind (wp_ask (fun n _ => ?_) hg)
  split
  · have hg' : Redocuments f (g.modifyPayload id (·.setDocString none)) :=
      hg.modifyPayload_of_slots (fun p => Attributes.kind_setDocString none p.attributes) fun _ => rfl
    refine wp_bind (wp_modify ?_)
    split
    · exact wp_edit (fun _ hrep => hg'.replace hrep) hg'
    · exact wp_edit (fun _ hpre => hg'.prepend hpre) hg'
  · have hg' : Redocuments f (g.modifyPayload id (·.setDocumentation (some (.node doc.id)))) := by
      refine hg.modifyPayload fun _ _ => ⟨rfl, fun d hd => .inr ?_⟩
      have hsame := Payload.documentationNode?_setDocumentation hd
      rw [Option.some.injEq, Documentation.node.injEq] at hsame
      rw [← hsame, kind?_of_get? hm, hkind]
    refine wp_bind (wp_modify ?_)
    split
    · exact wp_bind (wp_modify (wp_modify ((hg'.setParent _ none).setParent doc.id (some id))))
    · exact wp_bind (wp_pure (wp_modify (hg'.setParent doc.id (some id))))

theorem keeps_attachDangling_redocuments (doc : Handle) :
    Keeps (Redocuments f) (attachDangling id doc) := by
  intro g hg
  refine wp_bind (wp_ask (fun old _ => ?_) hg)
  refine wp_bind (wp_ask (fun _ _ => ?_) hg)
  refine wp_bind (wp_ask (fun n _ => ?_) hg)
  have hg' : Redocuments f (g.modifyPayload id (·.setDanglingDocString none)) :=
    hg.modifyPayload_of_slots (fun p => Attributes.kind_setDanglingDocString none p.attributes)
      fun _ => rfl
  refine wp_bind (wp_modify ?_)
  split
  · exact wp_edit (fun _ hrep => hg'.replace hrep) hg'
  · exact wp_edit (fun _ happ => hg'.append happ) hg'

/-! ### Copies -/

/-- While a tree is copied the old nodes keep their payloads, and the copies that there are have the
kinds of the originals. -/
structure Copied (f : Forest) (name : NodeId → NodeId) (done : List NodeId) (g : Forest) :
    Prop where
  documented : g.Documented
  payload_eq : ∀ {k n}, f.get? k = some n → ∃ m, g.get? k = some m ∧ m.payload = n.payload
  kind?_copy : ∀ {k}, k ∈ done → g.kind? (name k) = f.kind? k

theorem Copied.start (hf : f.Documented) (name : NodeId → NodeId) {g : Forest}
    (hget : ∀ k, g.get? k = f.get? k) : Copied f name [] g where
  documented := hf.redocuments (.of_get? hget)
  payload_eq hn := ⟨_, (hget _).trans hn, rfl⟩
  kind?_copy := nofun

/-- The copy of a node holds the copy of what the node holds, if that is in the tree. -/
theorem wp_copyNode_copied (hf : f.Documented) {name : NodeId → NodeId} {r : NodeId}
    {done : List NodeId} {g : Forest} (hturn : Turn f (f.walk r) done id)
    (hg : Copied f name done g) :
    wp (copyNode name id) (fun _ => Copied f name (id :: done)) (fun g => g.Documented) g := by
  have hregistered : ∀ {k}, k ∈ f.walk r → f.contains k := contains_of_mem_walkWithin
  obtain ⟨n, hn⟩ := contains_iff_get?.1 (hregistered hturn.mem)
  refine wp_bind (wp_ask (fun m hm => ?_) hg.documented)
  obtain ⟨m', hm', hpayload⟩ := hg.payload_eq hn
  obtain rfl : m = m' := Option.some.inj ((node_eq_ok.1 hm).symm.trans hm')
  refine wp_bind (wp_register (fun h hregister => wp_pure ⟨?_, fun {k n'} hn' => ?_,
    fun {k} hk => ?_⟩) hg.documented)
  · refine hg.documented.register hregister fun d hd => ?_
    have hd : (m.payload.rename name).documentationNode? = some d := hd
    obtain ⟨d', hd', rfl⟩ := Payload.documentationNode?_rename hd
    rw [hpayload] at hd'
    -- what the node holds has been copied, and the copy has its kind
    have hin : d' ∈ done := hturn.children_subset
      (mem_children_of_documentationNode? ((documentationNode?_of_get? hn).trans hd'))
    rw [hg.kind?_copy hin]
    exact hf.suits hn d' hd'
  · obtain ⟨m', hm', hsame⟩ := hg.payload_eq hn'
    have hself := not_mem_children_of_register hregister
    obtain ⟨hfresh, -, rfl⟩ := register_eq_ok hregister
    rw [get?_insert _ hself, if_neg, hm']
    · split
      · exact ⟨_, rfl, hsame⟩
      · exact ⟨m', rfl, hsame⟩
    · rintro rfl
      exact hfresh (contains_iff_get?.2 ⟨m', hm'⟩)
  · rw [kind?_register hregister]
    rcases List.mem_cons.1 hk with rfl | hk
    · have hkind : (m.payload.rename name).kind = n.kind := by
        rw [Payload.kind_rename, hpayload]
        rfl
      exact (if_pos rfl).trans ((congrArg some hkind).trans (kind?_of_get? hn).symm)
    · -- the id of an earlier copy was taken
      obtain ⟨kind, hkind⟩ := exists_kind?_of_contains (hregistered (hturn.done_subset hk))
      have htaken : g.contains (name k) :=
        contains_of_kind? ((hg.kind?_copy hk).trans hkind)
      rw [if_neg, hg.kind?_copy hk]
      intro heq
      exact (register_eq_ok hregister).1 (heq ▸ htaken)

theorem keeps_copy_documented (hf : f.Consistent) (hdoc : f.Documented) (root : Handle) :
    wp (copy root) (fun _ g => g.Documented) (fun g => g.Documented) f := by
  refine wp_copy_of hdoc (fun g hg => hg.nextId) root fun name g _ hget => ?_
  have hloop := wp_copyNodes_induction (r := root.id) hf (Copied.start hdoc name hget)
    fun _ _ _ hturn hg => wp_copyNode_copied hdoc hturn hg
  exact hloop.mono (fun _ _ hg => hg.documented) fun _ h => h

end Run

/-! ### Edits -/

variable {f : Forest}

/-- **Every edit keeps a consistent forest documented.** -/
theorem documented_edit (hf : f.Consistent) (hdoc : f.Documented) (e : Edit) :
    Run.wp e.run (fun _ g => g.Documented) (fun g => g.Documented) f := by
  have hredocuments : ∀ {run : Run Unit}, Run.Keeps (Redocuments f) run →
      Run.wp run (fun _ g => g.Documented) (fun g => g.Documented) f := fun hrun =>
    (hrun f (.refl f)).mono (fun _ _ => hdoc.redocuments) fun _ => hdoc.redocuments
  cases e with
  | append p c =>
    exact Run.wp_edit (fun _ h => hdoc.redocuments ((Redocuments.refl f).append h)) hdoc
  | prepend p c =>
    exact Run.wp_edit (fun _ h => hdoc.redocuments ((Redocuments.refl f).prepend h)) hdoc
  | remove p c =>
    exact Run.wp_edit (fun _ h => hdoc.redocuments ((Redocuments.refl f).remove h)) hdoc
  | replace p new old =>
    exact Run.wp_edit (fun _ h => hdoc.redocuments ((Redocuments.refl f).replace h)) hdoc
  | unregister id =>
    exact Run.wp_bind (Run.wp_editWith (fun _ _ h => Run.wp_pure (hdoc.unregister hf h)) hdoc)
  | removeSubtree id =>
    exact Run.wp_bind (Run.wp_editWith (fun _ _ h => Run.wp_pure (hdoc.removeSubtree hf h)) hdoc)
  | setDocumentationText id text? =>
    exact hredocuments (Run.keeps_setDocumentationText_redocuments text?)
  | attachDocumentation id doc =>
    exact hredocuments (Run.keeps_attachDocumentation_redocuments doc)
  | setDanglingText id text? => exact hredocuments (Run.keeps_setDanglingText_redocuments text?)
  | attachDangling id doc => exact hredocuments (Run.keeps_attachDangling_redocuments doc)
  | copy root =>
    exact Run.wp_bind ((Run.keeps_copy_documented hf hdoc root).mono (fun _ _ h => Run.wp_pure h)
      fun _ h => h)

end SolidityTree
