import SolidityTree.Forest.Documentation
import SolidityTree.Proofs.Lookup

/-!
# Forests that look alike

Two forests may differ in what nothing depends on: in attributes that only one schema carries, in
the records that nodes keep, or in the order in which nodes were registered.  A view says which of
these are looked at (`View`), and two forests are alike in a view if they show the same there
(`Forest.Alike`).

Forests that are alike answer every question about their trees and their documentation alike, and
an edit of both leaves them alike or fails in both for the same reason (`Forest.EndAlike`).
-/

namespace SolidityTree

/-- A part of attributes that holds all that trees and their documentation depend on. -/
structure Attributes.Part where
  of : Attributes → Attributes
  kind_of : ∀ attributes, (of attributes).kind = attributes.kind
  unit?_of : ∀ attributes, (of attributes).unit? = attributes.unit?
  referenced?_of : ∀ attributes, (of attributes).referenced? = attributes.referenced?
  docStrings?_of : ∀ attributes, (of attributes).docStrings? = attributes.docStrings?
  setReferenced_of : ∀ target attributes,
    (of attributes).setReferenced target = of (attributes.setReferenced target)
  setDocString_of : ∀ text? attributes,
    (of attributes).setDocString text? = of (attributes.setDocString text?)
  setDanglingDocString_of : ∀ text? attributes,
    (of attributes).setDanglingDocString text? = of (attributes.setDanglingDocString text?)

/-- All of the attributes. -/
def Attributes.Part.all : Attributes.Part where
  of attributes := attributes
  kind_of _ := rfl
  unit?_of _ := rfl
  referenced?_of _ := rfl
  docStrings?_of _ := rfl
  setReferenced_of _ _ := rfl
  setDocString_of _ _ := rfl
  setDanglingDocString_of _ _ := rfl

/-- What is looked at in a forest, besides its trees and their documentation. -/
structure View where
  /-- The part of attributes that is seen. -/
  part : Attributes.Part
  /-- Whether the records are seen that nodes of a kind keep. -/
  records : Kind → Bool
  /-- Whether the order is seen in which nodes were registered. -/
  order : Bool

namespace View

/-! ### Payloads -/

/-- What is seen of a payload. -/
def payload (v : View) (p : Payload) : Payload :=
  p.withAttributes (v.part.of p.attributes) (v.part.kind_of p.attributes)

variable {v : View}

@[simp] theorem kind_payload (p : Payload) : (v.payload p).kind = p.kind :=
  v.part.kind_of p.attributes

@[simp] theorem children_payload (p : Payload) : (v.payload p).children = p.children := rfl

@[simp] theorem documentation?_payload (p : Payload) :
    (v.payload p).documentation? = p.documentation? := rfl

/-- A change of slots alone. -/
theorem payload_withSlots? {change : List Slot → Option (List Slot)}
    (h : ∀ {slots slots'}, change slots = some slots' → Slots.shapes slots' = Slots.shapes slots)
    (p : Payload) :
    (match hslots : change p.slots with
      | some slots => some ((v.payload p).withSlots slots (h hslots))
      | none => none) =
    Option.map v.payload (match hslots : change p.slots with
      | some slots => some (p.withSlots slots (h hslots))
      | none => none) := by
  split <;> rfl

theorem replace?_payload (p : Payload) (old new : NodeId) :
    (v.payload p).replace? old new = (p.replace? old new).map v.payload :=
  payload_withSlots? Slots.shapes_replace? p

theorem prepend?_payload (p : Payload) (child : NodeId) :
    (v.payload p).prepend? child = (p.prepend? child).map v.payload :=
  payload_withSlots? Slots.shapes_prepend? p

theorem append?_payload (p : Payload) (child : NodeId) :
    (v.payload p).append? child = (p.append? child).map v.payload :=
  payload_withSlots? Slots.shapes_append? p

theorem setReferenced_payload (p : Payload) (target : NodeId) :
    (v.payload p).setReferenced target = v.payload (p.setReferenced target) :=
  Payload.ext_parts (v.part.setReferenced_of target p.attributes) rfl

theorem setDocString_payload (p : Payload) (text? : Option String) :
    (v.payload p).setDocString text? = v.payload (p.setDocString text?) :=
  Payload.ext_parts (v.part.setDocString_of text? p.attributes) rfl

theorem setDanglingDocString_payload (p : Payload) (text? : Option String) :
    (v.payload p).setDanglingDocString text? = v.payload (p.setDanglingDocString text?) :=
  Payload.ext_parts (v.part.setDanglingDocString_of text? p.attributes) rfl

/-! ### Nodes -/

/-- What is seen of a node. -/
def node (v : View) (n : Node) : Node :=
  { n with raw? := if v.records n.kind then n.raw? else none, payload := v.payload n.payload }

@[simp] theorem kind_node (n : Node) : (v.node n).kind = n.kind := kind_payload n.payload

@[simp] theorem children_node (n : Node) : (v.node n).children = n.children := rfl

@[simp] theorem unit?_node (n : Node) : (v.node n).unit? = n.unit? :=
  v.part.unit?_of n.payload.attributes

@[simp] theorem docStrings?_node (n : Node) :
    (v.node n).payload.attributes.docStrings? = n.payload.attributes.docStrings? :=
  v.part.docStrings?_of n.payload.attributes

@[simp] theorem referenced?_node (n : Node) :
    (v.node n).payload.attributes.referenced? = n.payload.attributes.referenced? :=
  v.part.referenced?_of n.payload.attributes

section

variable {n m : Node} (h : v.node n = v.node m)
include h

theorem id_eq : n.id = m.id := (congrArg Node.id h :)

theorem src_eq : n.src = m.src := (congrArg Node.src h :)

theorem parent?_eq : n.parent? = m.parent? := (congrArg Node.parent? h :)

theorem forest?_eq : n.forest? = m.forest? := (congrArg Node.forest? h :)

theorem payload_eq : v.payload n.payload = v.payload m.payload := (congrArg Node.payload h :)

theorem kind_eq : n.kind = m.kind := by rw [← kind_node n, h, kind_node]

theorem children_eq : n.children = m.children := by rw [← children_node n, h, children_node]

theorem parented_eq (p? : Option NodeId) :
    v.node { n with parent? := p? } = v.node { m with parent? := p? } :=
  (congrArg (fun n : Node => { n with parent? := p? }) h :)

theorem stamped_eq (i : ForestId) :
    v.node { n with forest? := some i } = v.node { m with forest? := some i } :=
  (congrArg (fun n : Node => { n with forest? := some i }) h :)

end

/-- A change of the payload that keeps the kind shows as that alone. -/
theorem node_mapPayload {n : Node} {change : Payload → Payload}
    (hkind : (change n.payload).kind = n.kind) :
    v.node (n.mapPayload change) = { v.node n with payload := v.payload (change n.payload) } := by
  have hraw : (if v.records (n.mapPayload change).kind then n.raw? else none) =
      if v.records n.kind then n.raw? else none := by
    rw [show (n.mapPayload change).kind = n.kind from hkind]
  exact congrArg (fun raw? => ({ n with raw? := raw?, payload := v.payload (change n.payload) } :
    Node)) hraw

/-- Nodes that look alike still do when their payloads are changed alike. -/
theorem node_mapPayload_eq {n m : Node} {change change' : Payload → Payload}
    (h : v.node n = v.node m) (hkind : (change n.payload).kind = n.kind)
    (hchange : v.payload (change n.payload) = v.payload (change' m.payload)) :
    v.node (n.mapPayload change) = v.node (m.mapPayload change') := by
  have hkind' : (change' m.payload).kind = m.kind := by
    rw [← kind_payload, ← hchange, kind_payload, hkind, kind_eq h]
  rw [node_mapPayload hkind, node_mapPayload hkind', h, hchange]

/-! ### Transactions -/

/-- The same ids were registered, in the same order if that is seen. -/
def SameIds (v : View) (ids ids' : List NodeId) : Prop :=
  if v.order then ids = ids' else ids.Perm ids'

variable {ids ids' ids'' later later' : List NodeId} {t t' t'' : Transaction}

theorem SameIds.perm (h : v.SameIds ids ids') : ids.Perm ids' := by
  unfold SameIds at h
  split_ifs at h
  · rw [h]
  · exact h

theorem sameIds_refl (ids : List NodeId) : v.SameIds ids ids := by
  unfold SameIds
  split_ifs
  · rfl
  · rfl

theorem SameIds.trans (h : v.SameIds ids ids') (h' : v.SameIds ids' ids'') :
    v.SameIds ids ids'' := by
  unfold SameIds at h h' ⊢
  split_ifs at h h' ⊢
  · exact Eq.trans h h'
  · exact List.Perm.trans h h'

theorem SameIds.append (hlater : v.SameIds later later') (h : v.SameIds ids ids') :
    v.SameIds (later ++ ids) (later' ++ ids') := by
  unfold SameIds at hlater h ⊢
  split_ifs at hlater h ⊢
  · rw [hlater, h]
  · exact List.Perm.append hlater h

/-- The transactions noted the same ids, and began with the same counter, run over or not. -/
structure SameTransaction (v : View) (t t' : Transaction) : Prop where
  registered : v.SameIds t.registered t'.registered
  lastId_eq : t.lastId = t'.lastId
  overrun_eq : t.overrun = t'.overrun

theorem sameTransaction_refl (t : Transaction) : v.SameTransaction t t :=
  ⟨sameIds_refl t.registered, rfl, rfl⟩

theorem SameTransaction.trans (h : v.SameTransaction t t') (h' : v.SameTransaction t' t'') :
    v.SameTransaction t t'' :=
  ⟨h.registered.trans h'.registered, h.lastId_eq.trans h'.lastId_eq,
    h.overrun_eq.trans h'.overrun_eq⟩

/-- Where the order is seen, transactions that noted the same are the same. -/
theorem SameTransaction.eq (horder : v.order) (h : v.SameTransaction t t') : t = t' := by
  have hregistered := h.registered
  rw [SameIds, if_pos horder] at hregistered
  exact Transaction.ext hregistered h.lastId_eq h.overrun_eq

end View

namespace Forest

variable {v : View} {f g h : Forest} {id k : NodeId}

/-- The forests show the same in a view. -/
structure Alike (v : View) (f g : Forest) : Prop where
  id_eq : f.id = g.id
  lastId_eq : f.lastId = g.lastId
  overrun_eq : f.overrun = g.overrun
  nodes : ∀ k, (f.get? k).map v.node = (g.get? k).map v.node
  transactions : List.Forall₂ v.SameTransaction f.transactions g.transactions

/-- The edits leave forests that are alike, or fail for the same reason. -/
def EndAlike (v : View) : Except Fault Forest → Except Fault Forest → Prop
  | .ok f, .ok g => f.Alike v g
  | .error fault, .error fault' => fault = fault'
  | _, _ => False

/-- The two ways in which edits end alike. -/
theorem EndAlike.cases {edited edited' : Except Fault Forest} (h : EndAlike v edited edited') :
    (∃ f g, edited = .ok f ∧ edited' = .ok g ∧ f.Alike v g) ∨
      ∃ fault, edited = .error fault ∧ edited' = .error fault := by
  unfold EndAlike at h
  split at h
  · exact .inl ⟨_, _, rfl, rfl, h⟩
  · exact .inr ⟨_, congrArg Except.error h, rfl⟩
  · exact h.elim

theorem alike_refl (f : Forest) : f.Alike v f where
  id_eq := rfl
  lastId_eq := rfl
  overrun_eq := rfl
  nodes _ := rfl
  transactions := List.forall₂_same.2 fun t _ => View.sameTransaction_refl t

namespace Alike

variable {β : Type} (hfg : f.Alike v g)
include hfg

theorem trans (hgh : g.Alike v h) : f.Alike v h where
  id_eq := hfg.id_eq.trans hgh.id_eq
  lastId_eq := hfg.lastId_eq.trans hgh.lastId_eq
  overrun_eq := hfg.overrun_eq.trans hgh.overrun_eq
  nodes k := (hfg.nodes k).trans (hgh.nodes k)
  transactions := by
    have hfirst := hfg.transactions
    have hsecond := hgh.transactions
    generalize f.transactions = ts, g.transactions = ts', h.transactions = ts'' at hfirst hsecond
    induction hfirst generalizing ts'' with
    | nil => exact hsecond
    | cons ht _ ih =>
      cases hsecond with
      | cons ht' hrest => exact .cons (ht.trans ht') (ih _ hrest)

theorem transactions_eq (horder : v.order) : f.transactions = g.transactions :=
  List.forall₂_eq_eq_eq ▸ hfg.transactions.imp fun _ _ ht => ht.eq horder

/-! ### Questions -/

/-- What is found under an id in forests that are alike. -/
theorem get?_cases (k : NodeId) : f.get? k = none ∧ g.get? k = none ∨
    ∃ n m, f.get? k = some n ∧ g.get? k = some m ∧ v.node n = v.node m := by
  have hnodes := hfg.nodes k
  cases hn : f.get? k with
  | none =>
    rw [hn] at hnodes
    exact .inl ⟨rfl, Option.map_eq_none_iff.1 hnodes.symm⟩
  | some n =>
    rw [hn] at hnodes
    obtain ⟨m, hm, heq⟩ := Option.map_eq_some_iff.1 hnodes.symm
    exact .inr ⟨n, m, rfl, hm, heq.symm⟩

theorem exists_get? {n : Node} (hn : f.get? k = some n) :
    ∃ m, g.get? k = some m ∧ v.node n = v.node m := by
  rcases hfg.get?_cases k with ⟨hnone, -⟩ | ⟨n', m, hn', hm, hnode⟩
  · rw [hn] at hnone
    contradiction
  · obtain rfl : n = n' := Option.some.inj (hn.symm.trans hn')
    exact ⟨m, hm, hnode⟩

/-- What depends on what is seen of a node only. -/
theorem map_eq {answer : Node → β} (hseen : ∀ n, answer (v.node n) = answer n) (k : NodeId) :
    (f.get? k).map answer = (g.get? k).map answer := by
  rcases hfg.get?_cases k with ⟨hf, hg⟩ | ⟨n, m, hn, hm, hnode⟩
  · rw [hf, hg]
  · rw [hn, hm, Option.map_some, Option.map_some, ← hseen n, hnode, hseen]

theorem bind_eq {answer : Node → Option β} (hseen : ∀ n, answer (v.node n) = answer n)
    (k : NodeId) : (f.get? k).bind answer = (g.get? k).bind answer := by
  rcases hfg.get?_cases k with ⟨hf, hg⟩ | ⟨n, m, hn, hm, hnode⟩
  · rw [hf, hg]
  · rw [hn, hm, Option.bind_some, Option.bind_some, ← hseen n, hnode, hseen]

theorem node_bind_eq {answer : Node → Except Fault β} (hseen : ∀ n, answer (v.node n) = answer n)
    (k : NodeId) : (f.node k >>= answer) = (g.node k >>= answer) := by
  rcases hfg.get?_cases k with ⟨hf, hg⟩ | ⟨n, m, hn, hm, hnode⟩
  · rw [node, node, hf, hg]
  · rw [node_eq_ok.2 hn, node_eq_ok.2 hm]
    show answer n = answer m
    rw [← hseen n, hnode, hseen]

theorem contains_eq (k : NodeId) : f.contains k = g.contains k := by
  rw [Bool.eq_iff_iff, contains_iff_get?, contains_iff_get?]
  rcases hfg.get?_cases k with ⟨hf, hg⟩ | ⟨n, m, hn, hm, -⟩
  · rw [hf, hg]
  · rw [hn, hm]
    exact ⟨fun _ => ⟨m, rfl⟩, fun _ => ⟨n, rfl⟩⟩

theorem children_eq (k : NodeId) : f.children k = g.children k := by
  rw [children, hfg.map_eq View.children_node, children]

theorem parent?_eq (k : NodeId) : f.parent? k = g.parent? k := hfg.bind_eq (fun _ => rfl) k

theorem size_eq : f.size = g.size := by
  have hmaps : f.nodes.map (fun _ n => v.node n) = g.nodes.map fun _ n => v.node n :=
    Std.ExtTreeMap.ext_getElem? fun k => by
      rw [Std.ExtTreeMap.getElem?_map, Std.ExtTreeMap.getElem?_map]
      exact hfg.nodes k
  rw [size, ← Std.ExtTreeMap.size_map, hmaps, Std.ExtTreeMap.size_map, size]

theorem ancestry_eq (id : NodeId) : f.ancestry id = g.ancestry id := by
  have hwithin : ∀ bound id, f.ancestryWithin id bound = g.ancestryWithin id bound := by
    intro bound
    induction bound with
    | zero => exact fun _ => rfl
    | succ bound ih =>
      intro id
      rw [ancestryWithin, ancestryWithin, hfg.parent?_eq]
      cases g.parent? id with
      | none => rfl
      | some parent => exact congrArg (id :: ·) (ih parent)
  rw [ancestry, ancestry, hfg.size_eq, hwithin]

theorem root_eq (id : NodeId) : f.root id = g.root id := by rw [root, hfg.ancestry_eq, root]

theorem walk_eq (id : NodeId) : f.walk id = g.walk id := by
  have hwithin : ∀ depth id, f.walkWithin depth id = g.walkWithin depth id := by
    intro depth
    induction depth with
    | zero => exact fun _ => rfl
    | succ depth ih =>
      intro id
      rw [walkWithin, walkWithin, funext ih]
      rcases hfg.get?_cases id with ⟨hf, hg⟩ | ⟨n, m, hn, hm, hnode⟩
      · rw [hf, hg]
      · rw [hn, hm]
        show id :: n.children.flatMap _ = id :: m.children.flatMap _
        rw [View.children_eq hnode]
  rw [walk, walk, hfg.size_eq, hwithin]

theorem previous?_eq (id : NodeId) : f.previous? id = g.previous? id := by
  have hposition : f.position? id = g.position? id := by
    simp only [position?, hfg.parent?_eq, hfg.children_eq]
  rw [previous?, hposition, previous?]

theorem isDocumentationAt_eq (accepts : Int → Bool) :
    f.isDocumentationAt accepts = g.isDocumentationAt accepts := by
  funext c
  rw [isDocumentationAt, isDocumentationAt]
  rcases hfg.get?_cases c with ⟨hf, hg⟩ | ⟨n, m, hn, hm, hnode⟩
  · rw [hf, hg]
  · rw [hn, hm, Option.any_some, Option.any_some, View.kind_eq hnode, View.src_eq hnode]

theorem documentation?_eq (id : NodeId) : f.documentation? id = g.documentation? id := by
  unfold documentation?
  simp only [hfg.isDocumentationAt_eq]
  refine hfg.bind_eq (fun n => ?_) id
  rw [View.docStrings?_node]
  rfl

theorem dangling?_eq (id : NodeId) : f.dangling? id = g.dangling? id := by
  unfold dangling?
  simp only [hfg.isDocumentationAt_eq]
  refine hfg.bind_eq (fun n => ?_) id
  rw [View.docStrings?_node]
  rfl

/-! ### Conditions -/

theorem checkDetached_eq (id : NodeId) : f.checkDetached id = g.checkDetached id :=
  hfg.node_bind_eq (fun _ => rfl) id

theorem checkAttachable_eq (parent : NodeId) (child : Handle) :
    f.checkAttachable parent child = g.checkAttachable parent child := by
  have hrest : (f.node parent >>= fun _ => g.checkDetached child.id >>= fun _ =>
      if child.id ∈ g.ancestry parent then .error (.cycle parent child.id) else .ok ()) =
      (g.node parent >>= fun _ => g.checkDetached child.id >>= fun _ =>
        if child.id ∈ g.ancestry parent then .error (.cycle parent child.id) else .ok ()) :=
    hfg.node_bind_eq (fun _ => rfl) parent
  unfold checkAttachable
  rw [hfg.id_eq, hfg.checkDetached_eq, hfg.ancestry_eq]
  by_cases hforest : child.forest ≠ g.id
  · rw [if_pos hforest, if_pos hforest]
    rfl
  · rw [if_neg hforest, if_neg hforest]
    exact hrest

theorem documentationOf_eq (id : NodeId) : f.documentationOf id = g.documentationOf id := by
  unfold documentationOf
  rw [hfg.documentation?_eq]
  exact hfg.node_bind_eq (fun n => by rw [View.kind_node]) id

theorem danglingOf_eq (id : NodeId) : f.danglingOf id = g.danglingOf id := by
  unfold danglingOf
  rw [hfg.dangling?_eq]
  exact hfg.node_bind_eq (fun n => by rw [View.kind_node]) id

theorem checkDocumentation_eq (owner : NodeId) (doc : Handle) :
    f.checkDocumentation owner doc = g.checkDocumentation owner doc := by
  unfold checkDocumentation
  rw [hfg.checkAttachable_eq]
  exact congrArg (g.checkAttachable owner doc >>= ·)
    (funext fun _ => hfg.node_bind_eq (fun n => by rw [View.kind_node]) doc.id)

/-! ### Changes of nodes -/

theorem modify {change change' : Node → Node}
    (hchange : ∀ n m, f.get? id = some n → v.node n = v.node m →
      v.node (change n) = v.node (change' m)) :
    (f.modify id change).Alike v (g.modify id change') where
  id_eq := hfg.id_eq
  lastId_eq := hfg.lastId_eq
  overrun_eq := hfg.overrun_eq
  transactions := hfg.transactions
  nodes k := by
    rw [get?_modify, get?_modify]
    split
    · next hk =>
      subst hk
      rcases hfg.get?_cases id with ⟨hf, hg⟩ | ⟨n, m, hn, hm, hnode⟩
      · rw [hf, hg]
        rfl
      · rw [hn, hm]
        exact congrArg some (hchange n m hn hnode)
    · exact hfg.nodes k

theorem setParent (id : NodeId) (p? : Option NodeId) :
    (f.setParent id p?).Alike v (g.setParent id p?) :=
  hfg.modify fun _ _ _ hnode => View.parented_eq hnode p?

theorem modifyPayload {change change' : Payload → Payload}
    (hkind : ∀ n, f.get? id = some n → (change n.payload).kind = n.kind)
    (hchange : ∀ p q, v.payload p = v.payload q → v.payload (change p) = v.payload (change' q)) :
    (f.modifyPayload id change).Alike v (g.modifyPayload id change') :=
  hfg.modify fun n m hn hnode => View.node_mapPayload_eq hnode (hkind n hn)
    (hchange n.payload m.payload (View.payload_eq hnode))

/-- The same change of the payload in both, which what is seen decides. -/
theorem modifyPayload_same (change : Payload → Payload)
    (hkind : ∀ p, (change p).attributes.kind = p.attributes.kind)
    (hchange : ∀ p, change (v.payload p) = v.payload (change p)) (id : NodeId) :
    (f.modifyPayload id change).Alike v (g.modifyPayload id change) :=
  hfg.modifyPayload (fun n _ => hkind n.payload) fun p q hpq => by
    rw [← hchange, hpq, hchange]

theorem attach {payload payload' : Payload} {parent child : NodeId}
    (hkind : ∀ n, f.get? parent = some n → payload.kind = n.kind)
    (hpayload : v.payload payload = v.payload payload') :
    (f.attach parent child payload).Alike v (g.attach parent child payload') :=
  (hfg.modifyPayload hkind fun _ _ _ => hpayload).setParent child (some parent)

theorem setParents (ids : List NodeId) (p? : Option NodeId) :
    (f.setParents ids p?).Alike v (g.setParents ids p?) := by
  induction ids generalizing f g with
  | nil => exact hfg
  | cons id rest ih => exact ih (hfg.setParent id p?)

theorem erase {ids ids' : List NodeId} (hids : ∀ k, k ∈ ids ↔ k ∈ ids') :
    (f.erase ids).Alike v (g.erase ids') where
  id_eq := hfg.id_eq
  lastId_eq := hfg.lastId_eq
  overrun_eq := hfg.overrun_eq
  transactions := hfg.transactions
  nodes k := by
    rw [get?_erase, get?_erase]
    by_cases hk : k ∈ ids
    · rw [if_pos hk, if_pos ((hids k).1 hk)]
    · rw [if_neg hk, if_neg fun hk' => hk ((hids k).2 hk')]
      exact hfg.nodes k

theorem clearParents : f.clearParents.Alike v g.clearParents where
  id_eq := hfg.id_eq
  lastId_eq := hfg.lastId_eq
  overrun_eq := hfg.overrun_eq
  transactions := hfg.transactions
  nodes k := by
    rw [get?_clearParents, get?_clearParents, funext hfg.contains_eq]
    rcases hfg.get?_cases k with ⟨hf, hg⟩ | ⟨n, m, hn, hm, hnode⟩
    · rw [hf, hg]
    · rw [hn, hm]
      show some (v.node (if n.parent?.all g.contains then n else { n with parent? := none })) =
        some (v.node (if m.parent?.all g.contains then m else { m with parent? := none }))
      rw [View.parent?_eq hnode]
      split
      · exact congrArg some hnode
      · exact congrArg some (View.parented_eq hnode none)

/-! ### Registration -/

theorem nextId : f.nextId.1 = g.nextId.1 ∧ f.nextId.2.Alike v g.nextId.2 := by
  have hfree : ∀ bound id, f.freeFrom id bound = g.freeFrom id bound := by
    intro bound
    induction bound with
    | zero => exact fun _ => rfl
    | succ bound ih =>
      intro id
      rw [freeFrom, freeFrom, hfg.contains_eq, ih]
  have hnext : f.hasNext = g.hasNext := by
    rw [hasNext, hasNext, hfg.lastId_eq, hfg.size_eq, hfree]
  have hid : f.nextId.1 = g.nextId.1 := by
    show f.freeFrom _ f.size = g.freeFrom _ g.size
    rw [hnext, hfg.lastId_eq, hfg.size_eq, hfree]
  have hover : f.nextId.2.overrun = g.nextId.2.overrun := by
    show (f.overrun || !f.hasNext) = (g.overrun || !g.hasNext)
    rw [hnext, hfg.overrun_eq]
  exact ⟨hid, hfg.id_eq, hid, hover, hfg.nodes, hfg.transactions⟩

theorem insert {n m : Node} (hnode : v.node n = v.node m) : (f.insert n).Alike v (g.insert m) := by
  have hid := View.id_eq hnode
  -- the forests with the node, before its children are marked
  have hnew : ({ f with nodes := f.nodes.insert n.id { n with forest? := some f.id } } :
      Forest).Alike v { g with nodes := g.nodes.insert m.id { m with forest? := some g.id } } := by
    refine ⟨hfg.id_eq, hfg.lastId_eq, hfg.overrun_eq, fun k => ?_, hfg.transactions⟩
    show ((f.nodes.insert n.id _)[k]?).map v.node = ((g.nodes.insert m.id _)[k]?).map v.node
    rw [Std.ExtTreeMap.getElem?_insert, Std.ExtTreeMap.getElem?_insert, hfg.id_eq]
    show (if compare n.id k = .eq then _ else f.get? k).map v.node =
      (if compare m.id k = .eq then _ else g.get? k).map v.node
    rw [show compare n.id k = compare m.id k from congrArg (compare · k) hid]
    split
    · exact congrArg some (View.stamped_eq hnode g.id)
    · exact hfg.nodes k
  have hmarked := hnew.setParents n.children (some n.id)
  refine ⟨?_, ?_, ?_, fun k => ?_, ?_⟩
  · rw [id_insert, id_insert, hfg.id_eq]
  · rw [lastId_insert, lastId_insert, hfg.lastId_eq, hid]
  · rw [overrun_insert, overrun_insert, hfg.overrun_eq]
  · have hmarks : (some n.id, n.children) = (some m.id, m.children) := by
      rw [hid, View.children_eq hnode]
    obtain ⟨hparent, hchildren⟩ := Prod.mk.inj hmarks
    refine (hmarked.nodes k).trans ?_
    rw [hparent, hchildren]
    rfl
  · rw [transactions_insert, transactions_insert, hid]
    have htransactions := hfg.transactions
    generalize f.transactions = ts, g.transactions = ts' at htransactions
    cases htransactions with
    | nil => exact .nil
    | cons ht hrest =>
      exact .cons ⟨(View.sameIds_refl [m.id]).append ht.registered, ht.lastId_eq, ht.overrun_eq⟩
        hrest

theorem register {n m : Node} (hnode : v.node n = v.node m) :
    EndAlike v (f.register n) (g.register m) := by
  have hrest : EndAlike v (n.children.forM f.checkDetached >>= fun _ => .ok (f.insert n))
      (m.children.forM g.checkDetached >>= fun _ => .ok (g.insert m)) := by
    rw [funext hfg.checkDetached_eq, View.children_eq hnode]
    cases m.children.forM g.checkDetached with
    | error fault => exact rfl
    | ok _ => exact hfg.insert hnode
  rw [Forest.register, Forest.register, hfg.contains_eq, View.id_eq hnode, View.forest?_eq hnode,
    hfg.id_eq]
  split
  · exact rfl
  · split
    · split
      · exact rfl
      · exact hrest
    · exact hrest

/-! ### Transactions -/

theorem begin : f.begin.Alike v g.begin where
  id_eq := hfg.id_eq
  lastId_eq := hfg.lastId_eq
  overrun_eq := hfg.overrun_eq
  nodes := hfg.nodes
  transactions := .cons ⟨v.sameIds_refl [], hfg.lastId_eq, hfg.overrun_eq⟩ hfg.transactions

theorem commit : f.commit.Alike v g.commit := by
  have htransactions := hfg.transactions
  unfold Forest.commit
  generalize hf : f.transactions = ts, hg : g.transactions = ts' at htransactions
  cases htransactions with
  | nil => exact hfg
  | cons ht hrest =>
    cases hrest with
    | nil => exact ⟨hfg.id_eq, hfg.lastId_eq, hfg.overrun_eq, hfg.nodes, .nil⟩
    | cons houter hrest =>
      exact ⟨hfg.id_eq, hfg.lastId_eq, hfg.overrun_eq, hfg.nodes,
        .cons ⟨ht.registered.append houter.registered, houter.lastId_eq, houter.overrun_eq⟩ hrest⟩

theorem rollback : f.rollback.Alike v g.rollback := by
  have htransactions := hfg.transactions
  unfold Forest.rollback
  generalize f.transactions = ts, g.transactions = ts' at htransactions
  cases htransactions with
  | nil => exact hfg
  | cons ht hrest =>
    have hleft := (hfg.erase fun k => ht.registered.perm.mem_iff).clearParents
    exact ⟨hleft.id_eq, ht.lastId_eq, ht.overrun_eq, hleft.nodes, hrest⟩

/-! ### Edits of children -/

/-- A changed payload is attached, or there is a fault. -/
theorem attach? (change : Payload → Option Payload)
    (hkind : ∀ {p p'}, change p = some p' → p'.attributes = p.attributes)
    (hchange : ∀ p, change (v.payload p) = (change p).map v.payload) {n m : Node}
    (hnode : v.node n = v.node m) {parent child : NodeId} {fault fault' : Fault}
    (hn : ∀ n', f.get? parent = some n' → n'.kind = n.kind) (hfault : fault = fault') :
    EndAlike v
      (match change n.payload with
        | some payload => .ok (f.attach parent child payload)
        | none => .error fault)
      (match change m.payload with
        | some payload => .ok (g.attach parent child payload)
        | none => .error fault') := by
  have hmap : (change n.payload).map v.payload = (change m.payload).map v.payload := by
    rw [← hchange, View.payload_eq hnode, hchange]
  cases hp : change n.payload with
  | none =>
    rw [hp] at hmap
    rw [Option.map_eq_none_iff.1 hmap.symm]
    exact hfault
  | some p =>
    rw [hp] at hmap
    obtain ⟨q, hq, heq⟩ := Option.map_eq_some_iff.1 hmap.symm
    rw [hq]
    refine hfg.attach (fun n' hn' => ?_) heq.symm
    rw [hn n' hn']
    exact congrArg Attributes.kind (hkind hp)

/-- An edit of a node that is asked for first. -/
theorem node_bind {next next' : Node → Except Fault Forest}
    (hnext : ∀ n m, f.get? id = some n → v.node n = v.node m → EndAlike v (next n) (next' m)) :
    EndAlike v (f.node id >>= next) (g.node id >>= next') := by
  rcases hfg.get?_cases id with ⟨hf, hg⟩ | ⟨n, m, hn, hm, hnode⟩
  · rw [node, node, hf, hg]
    exact rfl
  · rw [node_eq_ok.2 hn, node_eq_ok.2 hm]
    exact hnext n m hn hnode

theorem prepend (parent : NodeId) (child : Handle) :
    EndAlike v (f.prepend parent child) (g.prepend parent child) := by
  rw [Forest.prepend, Forest.prepend, hfg.checkAttachable_eq]
  cases g.checkAttachable parent child with
  | error fault => exact rfl
  | ok _ =>
    refine hfg.node_bind fun n m hn hnode => ?_
    refine hfg.attach? (·.prepend? child.id) Payload.attributes_prepend?
      (fun p => View.prepend?_payload p child.id) hnode (fun n' hn' => ?_) ?_
    · rw [Option.some.inj (hn'.symm.trans hn)]
    · rw [View.kind_eq hnode]

theorem append (parent : NodeId) (child : Handle) :
    EndAlike v (f.append parent child) (g.append parent child) := by
  rw [Forest.append, Forest.append, hfg.checkAttachable_eq]
  cases g.checkAttachable parent child with
  | error fault => exact rfl
  | ok _ =>
    refine hfg.node_bind fun n m hn hnode => ?_
    refine hfg.attach? (·.append? child.id) Payload.attributes_append?
      (fun p => View.append?_payload p child.id) hnode (fun n' hn' => ?_) ?_
    · rw [Option.some.inj (hn'.symm.trans hn)]
    · rw [View.kind_eq hnode]

theorem replace (parent : NodeId) (new : Handle) (old : NodeId) :
    EndAlike v (f.replace parent new old) (g.replace parent new old) := by
  rw [Forest.replace, Forest.replace, hfg.checkAttachable_eq,
    show f.handle old = g.handle old from congrArg (Handle.mk · old) hfg.id_eq]
  split
  · exact hfg
  · cases g.checkAttachable parent new with
    | error fault => exact rfl
    | ok _ =>
      refine hfg.node_bind fun d d' _ hdoc => hfg.node_bind fun n m hn hnode => ?_
      rw [← View.documentation?_payload n.payload, View.payload_eq hnode,
        View.documentation?_payload, View.kind_eq hdoc]
      split
      · exact rfl
      · refine (hfg.setParent old none).attach? (·.replace? old new.id) Payload.attributes_replace?
          (fun p => View.replace?_payload p old new.id) hnode (fun n' hn' => ?_) rfl
        rw [get?_setParent, hn] at hn'
        split at hn'
        · rw [← Option.some.inj hn']
          rfl
        · rw [Option.some.inj hn']

end Alike

end Forest

end SolidityTree
