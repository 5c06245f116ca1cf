import SolidityTree.Pass.Comments
import SolidityTree.Proofs.Documentation
import SolidityTree.Proofs.Making
import Mathlib.Data.List.Find

/-!
# What the recovery of documentation does

Where a node has no documentation yet, attaching a documentation node to it is one edit: its payload
gets one more child and keeps all attributes (`Payload.Gains`).  So when the pass over comments acts
on a node, it makes one documentation node for each comment that it has found and changes nothing
else of the forest (`Comments.Documents`); otherwise it leaves the forest alone
(`Comments.wp_recoverPreceding`, `Comments.wp_recoverDangling`).
-/

namespace SolidityTree

/-! ### Payloads with one more child -/

/-- The same attributes, and one more child. -/
structure Payload.Gains (child : NodeId) (p p' : Payload) : Prop where
  attributes_eq : p'.attributes = p.attributes
  children_perm : p'.children.Perm (child :: p.children)

/-- One more child that is documentation before the node: in the field for it, which was empty, or
before all other children of a kind that keeps documentation among its children. -/
structure Payload.GainsBefore (doc : NodeId) (p p' : Payload) : Prop extends Gains doc p p' where
  place : p.documentation? = some none ∧ p' = p.setDocumentation (some (.node doc)) ∨
    p.attributes.docStrings?.isSome ∧ p'.documentation? = none ∧ p'.children = doc :: p.children

/-- One more child behind all others. -/
structure Payload.GainsBehind (doc : NodeId) (p p' : Payload) : Prop extends Gains doc p p' where
  place : p'.children = p.children ++ [doc]

namespace Payload

variable {p p' : Payload} {child doc : NodeId}

theorem gains_prepend? (h : p.prepend? child = some p') : Gains child p p' where
  attributes_eq := attributes_prepend? h
  children_perm := by rw [children_prepend? h]

theorem gains_append? (h : p.append? child = some p') : Gains child p p' where
  attributes_eq := attributes_append? h
  children_perm := by
    rw [children_append? h]
    exact List.perm_append_singleton child p.children

/-- A documentation node is put into the field for documentation, which is empty. -/
theorem gains_setDocumentation (h : p.documentation? = some none) :
    Gains doc p (p.setDocumentation (some (.node doc))) where
  attributes_eq := rfl
  children_perm := by
    obtain ⟨before, after, hold, hnew⟩ := exists_children_setDocumentation h
    rw [hnew, hold]
    exact (by simp : ((before ++ [doc]) ++ after).Perm (doc :: (before ++ [] ++ after)))

/-- What a field for documentation is filled with is found there. -/
theorem documentation?_setDocumentation {d? : Option Documentation}
    (h : p.documentation? = some d?) (e? : Option Documentation) :
    (p.setDocumentation e?).documentation? = some e? :=
  Slots.documentation?_setDocumentation h e?

/-- The kind decides whether there is a field for documentation. -/
theorem documentation?_isSome_of_attributes (h : p'.attributes = p.attributes) :
    p'.documentation?.isSome = p.documentation?.isSome := by
  rw [Bool.eq_iff_iff, ← Option.ne_none_iff_isSome, ← Option.ne_none_iff_isSome,
    documentation?_ne_none_iff, documentation?_ne_none_iff, kind, h, kind]

/-- Taking out a text that is not there changes nothing. -/
theorem setDocString_eq_self {dangling? : Option String}
    (h : p.attributes.docStrings? = some (none, dangling?)) : p.setDocString none = p := by
  refine ext_parts ?_ rfl
  show p.attributes.setDocString none = p.attributes
  cases ha : p.attributes with
  | contractDefinition c =>
    rw [ha] at h
    have hc : c.docString? = none := congrArg Prod.fst (Option.some.inj h)
    rw [Attributes.setDocString, ← hc]
  | block b =>
    rw [ha] at h
    have hb : b.docString? = none := congrArg Prod.fst (Option.some.inj h)
    rw [Attributes.setDocString, ← hb]
  | uncheckedBlock b =>
    rw [ha] at h
    have hb : b.docString? = none := congrArg Prod.fst (Option.some.inj h)
    rw [Attributes.setDocString, ← hb]
  | _ => rfl

theorem setDanglingDocString_eq_self {text? : Option String}
    (h : p.attributes.docStrings? = some (text?, none)) : p.setDanglingDocString none = p := by
  refine ext_parts ?_ rfl
  show p.attributes.setDanglingDocString none = p.attributes
  cases ha : p.attributes with
  | contractDefinition c =>
    rw [ha] at h
    have hc : c.danglingDocString? = none := congrArg Prod.snd (Option.some.inj h)
    rw [Attributes.setDanglingDocString, ← hc]
  | block b =>
    rw [ha] at h
    have hb : b.danglingDocString? = none := congrArg Prod.snd (Option.some.inj h)
    rw [Attributes.setDanglingDocString, ← hb]
  | uncheckedBlock b =>
    rw [ha] at h
    have hb : b.danglingDocString? = none := congrArg Prod.snd (Option.some.inj h)
    rw [Attributes.setDanglingDocString, ← hb]
  | _ => rfl

/-- The containers keep texts of documentation, and have no field for it. -/
theorem docStrings?_isSome_of_container (h : p.kind.isDocumentationContainer) :
    p.attributes.docStrings?.isSome ∧ p.documentation? = none := by
  have hfield : p.kind.hasDocumentationField = false := by
    revert h
    cases p.kind <;> decide
  refine ⟨?_, ?_⟩
  · revert h
    unfold kind
    cases p.attributes <;> first | (intro; rfl) | (intro h; cases h)
  · by_contra hne
    rw [documentation?_ne_none_iff.1 hne] at hfield
    contradiction

/-- A container has got the child before all others. -/
theorem GainsBefore.children_of_container (h : GainsBefore doc p p')
    (hkind : p.kind.isDocumentationContainer) : p'.children = doc :: p.children := by
  rcases h.place with ⟨hempty, -⟩ | ⟨-, -, hchildren⟩
  · rw [(docStrings?_isSome_of_container hkind).2] at hempty
    contradiction
  · exact hchildren

/-- A kind with one field for children has one slot. -/
theorem exists_slots_eq {shape : Shape} (h : p.kind.layout.map Field.shape = [shape]) :
    ∃ slot, p.slots = [slot] ∧ slot.shape = shape := by
  have hshapes : Slots.shapes p.slots = [shape] := p.shapes_eq.trans h
  obtain ⟨slot, rest, hslots, hslot, hrest⟩ := List.map_eq_cons_iff.1 hshapes
  obtain rfl := List.map_eq_nil_iff.1 hrest
  exact ⟨slot, hslots, hslot⟩

/-- The containers hold their children in one list. -/
theorem slots_of_container (h : p.kind.isDocumentationContainer) : ∃ cs, p.slots = [.many cs] := by
  have hlayout : p.kind.layout.map Field.shape = [.many] := by
    revert h
    cases p.kind <;> decide
  obtain ⟨slot, hslots, hslot⟩ := exists_slots_eq hlayout
  cases slot with
  | many cs => exact ⟨cs, hslots⟩
  | _ => contradiction

theorem exists_prepend? (h : p.kind.isDocumentationContainer) (child : NodeId) :
    ∃ p', p.prepend? child = some p' := by
  obtain ⟨cs, hcs⟩ := slots_of_container h
  unfold prepend?
  split
  · exact ⟨_, rfl⟩
  · next hnone =>
    rw [hcs] at hnone
    contradiction

theorem exists_append? (h : p.kind.isDocumentationContainer) (child : NodeId) :
    ∃ p', p.append? child = some p' := by
  obtain ⟨cs, hcs⟩ := slots_of_container h
  unfold append?
  split
  · exact ⟨_, rfl⟩
  · next hnone =>
    rw [hcs] at hnone
    contradiction

end Payload

namespace Forest

variable {f g : Forest} {id k : NodeId}

/-! ### Changes that come to the same -/

theorem modify_congr {change change' : Node → Node}
    (h : ∀ n, f.get? id = some n → change n = change' n) :
    f.modify id change = f.modify id change' := by
  refine ext_get? rfl (fun k => ?_) rfl rfl rfl
  rw [get?_modify, get?_modify]
  split
  · next hk =>
    subst hk
    cases hn : f.get? id with
    | none => rfl
    | some n => exact congrArg some (h n hn)
  · rfl

theorem modify_eq_self {change : Node → Node} (h : ∀ n, f.get? id = some n → change n = n) :
    f.modify id change = f := by
  refine ext_get? rfl (fun k => ?_) rfl rfl rfl
  rw [get?_modify]
  split
  · next hk =>
    subst hk
    cases hn : f.get? id with
    | none => rfl
    | some n => exact congrArg some (h n hn)
  · rfl

theorem modifyPayload_eq_self {change : Payload → Payload}
    (h : ∀ n, f.get? id = some n → change n.payload = n.payload) :
    f.modifyPayload id change = f := by
  refine modify_eq_self fun n hn => ?_
  show ({ n with payload := change n.payload } : Node) = n
  rw [h n hn]

/-- A payload is attached that is made from the one that the node has. -/
theorem setParent_modifyPayload {n : Node} (hn : f.get? id = some n) (change : Payload → Payload)
    (child : NodeId) : (f.modifyPayload id change).setParent child (some id) =
      f.attach id child (change n.payload) := by
  have hsame : f.modifyPayload id change = f.modifyPayload id fun _ => change n.payload := by
    refine modify_congr fun m hm => ?_
    obtain rfl : m = n := Option.some.inj (hm.symm.trans hn)
    rfl
  rw [hsame, attach]

/-! ### Attaching where there is no documentation -/

theorem documentationOf_of_kind {n : Node} (hn : f.get? id = some n) (h : n.kind.isDocumentable) :
    f.documentationOf id = .ok (f.documentation? id) :=
  Except.bind_eq_ok.2 ⟨n, node_eq_ok.2 hn, if_pos h⟩

theorem danglingOf_of_kind {n : Node} (hn : f.get? id = some n)
    (h : n.kind.isDocumentationContainer) : f.danglingOf id = .ok (f.dangling? id) :=
  Except.bind_eq_ok.2 ⟨n, node_eq_ok.2 hn, if_pos h⟩

theorem Consistent.checkDocumentation (hf : f.Consistent) {doc : Handle} {d : Node}
    (hforest : doc.forest = f.id) (hattachable : f.Attachable id doc.id)
    (hd : f.get? doc.id = some d) (hkind : d.kind = .structuredDocumentation) :
    f.checkDocumentation id doc = .ok () := by
  refine Except.bind_eq_ok.2 ⟨(), hf.check_of_attachable hforest hattachable, ?_⟩
  exact Except.bind_eq_ok.2 ⟨d, node_eq_ok.2 hd, if_neg (not_not_intro hkind)⟩

/-- A node that has come to a consistent forest without a parent can be attached to any node that
was there before, if no old mark has changed. -/
theorem Consistent.attachable_of_new (hf : f.Consistent) (hid : f.contains id)
    (hmarks : ∀ {k}, f.contains k → g.contains k ∧ g.parent? k = f.parent? k) (hnew : ¬ f.contains k)
    (hreg : g.contains k) (hroot : g.parent? k = none) : g.Attachable id k where
  contains_parent := (hmarks hid).1
  contains_child := hreg
  detached := hroot
  not_above h := by
    -- above an old node there are only old nodes
    have hold : ∀ {a}, g.Reaches id a → f.contains a := by
      intro a ha
      induction ha with
      | refl => exact hid
      | tail _ hp ih =>
        rw [(hmarks ih).2] at hp
        exact hf.contains_parent hp
    exact hnew (hold h)

end Forest

namespace Run

open Forest

variable {g : Forest} {id : NodeId} {doc : Handle}

/-- Documentation is attached before a node that has none: in its field, or before all children of a
container. -/
theorem wp_attachDocumentation {n : Node} (hn : g.get? id = some n) (hkind : n.kind.isDocumentable)
    (hcheck : g.checkDocumentation id doc = .ok ()) (hnone : g.documentation? id = none) :
    wp (attachDocumentation id doc) (fun _ h => ∃ payload, n.payload.GainsBefore doc.id payload ∧
      h = g.attach id doc.id payload) (fun _ => False) g := by
  have hold : g.documentationOf id = .ok none := by rw [documentationOf_of_kind hn hkind, hnone]
  refine wp_bind (wp_ask_of_ok hold (wp_bind (wp_ask_of_ok hcheck (wp_bind ?_))))
  refine wp_ask_of_ok (node_eq_ok.2 hn) ?_
  split
  · next hcontainer =>
    obtain ⟨htexts, hfield⟩ := Payload.docStrings?_isSome_of_container hcontainer
    obtain ⟨⟨text?, dangling?⟩, hstrings⟩ := Option.isSome_iff_exists.1 htexts
    -- there is no text to drop, either
    have htext : text? = none := by
      rw [documentation?, hn] at hnone
      cases text? with
      | none => rfl
      | some text => simp [hfield, hstrings] at hnone
    subst htext
    have hsame : g.modifyPayload id (Payload.setDocString · none) = g := by
      refine modifyPayload_eq_self fun m hm => ?_
      obtain rfl : m = _ := Option.some.inj (hm.symm.trans hn)
      exact Payload.setDocString_eq_self hstrings
    refine wp_bind (wp_modify ?_)
    rw [hsame]
    obtain ⟨payload, hpayload⟩ := Payload.exists_prepend? hcontainer doc.id
    have hgains := Payload.gains_prepend? hpayload
    have hfield' : payload.documentation? = none := by
      have := Payload.documentation?_isSome_of_attributes hgains.attributes_eq
      rwa [hfield, Option.isSome_none, Option.isSome_eq_false_iff, Option.isNone_iff_eq_none] at this
    refine wp_edit_of_ok (prepend_of_check (checkDocumentation_eq_ok hcheck) hn hpayload) ?_
    exact ⟨payload, ⟨hgains, .inr ⟨htexts, hfield', Payload.children_prepend? hpayload⟩⟩, rfl⟩
  · next hcontainer =>
    rw [Kind.isDocumentable, Bool.or_eq_true, or_iff_left hcontainer] at hkind
    obtain ⟨d?, hd⟩ := Option.ne_none_iff_exists'.1 (Payload.documentation?_ne_none_iff.2 hkind)
    obtain rfl : d? = none := by rw [← hnone, documentation?_of_field hn hd]
    refine wp_bind (wp_modify (wp_bind (wp_pure (wp_modify ?_))))
    exact ⟨_, ⟨Payload.gains_setDocumentation hd, .inl ⟨hd, rfl⟩⟩, setParent_modifyPayload hn _ _⟩

/-- Dangling documentation is attached to a container that has none, behind all children. -/
theorem wp_attachDangling {n : Node} (hn : g.get? id = some n)
    (hcontainer : n.kind.isDocumentationContainer) (hcheck : g.checkDocumentation id doc = .ok ())
    (hnone : g.dangling? id = none) :
    wp (attachDangling id doc) (fun _ h => ∃ payload, n.payload.GainsBehind doc.id payload ∧
      h = g.attach id doc.id payload) (fun _ => False) g := by
  have hold : g.danglingOf id = .ok none := by rw [danglingOf_of_kind hn hcontainer, hnone]
  refine wp_bind (wp_ask_of_ok hold (wp_bind (wp_ask_of_ok hcheck (wp_bind ?_))))
  refine wp_ask_of_ok (node_eq_ok.2 hn) ?_
  obtain ⟨htexts, -⟩ := Payload.docStrings?_isSome_of_container hcontainer
  obtain ⟨⟨before?, behind?⟩, hstrings⟩ := Option.isSome_iff_exists.1 htexts
  have htext : behind? = none := by
    rw [dangling?, hn] at hnone
    cases behind? with
    | none => rfl
    | some text => simp [hstrings] at hnone
  subst htext
  have hsame : g.modifyPayload id (Payload.setDanglingDocString · none) = g := by
    refine modifyPayload_eq_self fun m hm => ?_
    obtain rfl : m = _ := Option.some.inj (hm.symm.trans hn)
    exact Payload.setDanglingDocString_eq_self hstrings
  refine wp_bind (wp_modify ?_)
  rw [hsame]
  obtain ⟨payload, hpayload⟩ := Payload.exists_append? hcontainer doc.id
  refine wp_edit_of_ok (append_of_check (checkDocumentation_eq_ok hcheck) hn hpayload) ?_
  exact ⟨payload, ⟨Payload.gains_append? hpayload, Payload.children_append? hpayload⟩, rfl⟩

end Run

/-! ### Documentation that is found -/

namespace Forest

variable {f g : Forest} {id : NodeId}

/-- The documentation of a node depends on the node itself and on what its children are. -/
theorem documentation?_congr (hid : g.get? id = f.get? id)
    (hchildren : ∀ c ∈ f.children id, ∀ accepts,
      g.isDocumentationAt accepts c = f.isDocumentationAt accepts c) :
    g.documentation? id = f.documentation? id := by
  unfold documentation?
  rw [hid]
  cases hn : f.get? id with
  | none => rfl
  | some n =>
    rw [children_of_get? hn] at hchildren
    have hfind := List.find?_congr fun c hc => hchildren c hc (· ≤ n.src.offset)
    simp only [bind, Option.bind]
    rw [hfind]

theorem dangling?_congr (hid : g.get? id = f.get? id)
    (hchildren : ∀ c ∈ f.children id, ∀ accepts,
      g.isDocumentationAt accepts c = f.isDocumentationAt accepts c) :
    g.dangling? id = f.dangling? id := by
  unfold dangling?
  rw [hid]
  cases hn : f.get? id with
  | none => rfl
  | some n =>
    rw [children_of_get? hn] at hchildren
    have hfind := List.find?_congr fun c (hc : c ∈ n.children.reverse) =>
      hchildren c (List.mem_reverse.1 hc) (n.src.offset < ·)
    simp only [bind, Option.bind]
    rw [hfind]

end Forest

/-! ### Acting on one node -/

namespace Comments

open Forest

variable {f g h : Forest} {owner k : NodeId} {found : Found}

/-- The documentation node that a comment becomes. -/
def docNode (g : Forest) (owner : NodeId) (found : Found) : Node :=
  .fresh g.nextId.1
    ⟨found.offset, found.length, ((g.get? owner).map (·.src.source)).getD (-1)⟩
    (.structuredDocumentation found.text) none

/-- The forest with that node. -/
def withDoc (g : Forest) (owner : NodeId) (found : Found) : Forest :=
  g.nextId.2.insert (docNode g owner found)

/-- A comment has become a documentation node of its owner, and nothing else has changed. -/
structure Documents (gains : NodeId → Payload → Payload → Prop) (owner : NodeId) (found : Found)
    (g h : Forest) : Prop where
  register_eq : g.nextId.2.register (docNode g owner found) = .ok (withDoc g owner found)
  attach_eq : ∃ n payload, g.get? owner = some n ∧ gains g.nextId.1 n.payload payload ∧
    h = (withDoc g owner found).attach owner g.nextId.1 payload

/-- The next id is free, so the node can be registered. -/
theorem register_docNode (g : Forest) (owner : NodeId) (found : Found) :
    g.nextId.2.register (docNode g owner found) = .ok (withDoc g owner found) :=
  register_of_roots g.not_contains_nextId rfl fun _ hc => by cases hc

theorem make_eq_ok (g : Forest) (owner : NodeId) (found : Found) :
    make owner found g = .ok ((withDoc g owner found).handle g.nextId.1) (withDoc g owner found) :=
  Run.register_run_eq (register_docNode g owner found)

theorem get?_withDoc (owner : NodeId) (found : Found) (k : NodeId) :
    (withDoc g owner found).get? k =
      if k = g.nextId.1 then some { docNode g owner found with forest? := some g.id }
      else g.get? k := by
  have hself : (docNode g owner found).id ∉ (docNode g owner found).children := List.not_mem_nil
  have hnone : k ∉ (docNode g owner found).children := List.not_mem_nil
  rw [withDoc, get?_insert _ hself, if_neg hnone]
  rfl

/-- The new node is not yet among the children of any other. -/
theorem get?_withDoc_of_contains (hk : g.contains k) :
    (withDoc g owner found).get? k = g.get? k := by
  have hne : k ≠ g.nextId.1 := by
    rintro rfl
    exact g.not_contains_nextId hk
  rw [get?_withDoc, if_neg hne]

theorem isDocumentationAt_withDoc (hk : g.contains k) (accepts : Int → Bool) :
    (withDoc g owner found).isDocumentationAt accepts k = g.isDocumentationAt accepts k := by
  rw [isDocumentationAt, isDocumentationAt, get?_withDoc_of_contains hk]

/-- The new node takes up the room for one id. -/
theorem Documents.room {gains : NodeId → Payload → Payload → Prop} {n : Nat}
    (hdoc : Documents gains owner found g h) (hroom : g.Room (n + 1)) :
    h.Room n ∧ h.overrun = g.overrun := by
  obtain ⟨m, payload, -, -, rfl⟩ := hdoc.attach_eq
  have hsame := SameNodes.attach (withDoc g owner found) owner g.nextId.1 payload
  have hdoc := hdoc.register_eq
  refine ⟨hsame.room (hroom.nextId.register hdoc hroom.leaves_nextId), ?_⟩
  rw [hsame.overrun_eq, overrun_register hdoc, hroom.overrun_nextId]

/-- Where it was made, the new node can be attached to its owner. -/
theorem checkDocumentation_withDoc (hg : g.Consistent) (hreg : g.contains owner) (found : Found) :
    (withDoc g owner found).checkDocumentation owner
      ((withDoc g owner found).handle g.nextId.1) = .ok () := by
  have hregister := register_docNode g owner found
  have hdoc : (withDoc g owner found).get? g.nextId.1 =
      some { docNode g owner found with forest? := some g.id } := by
    rw [get?_withDoc, if_pos rfl]
  have hmarks : ∀ {k}, g.contains k → (withDoc g owner found).contains k ∧
      (withDoc g owner found).parent? k = g.parent? k := fun {k} hk => by
    rw [contains_iff_get?, parent?, get?_withDoc_of_contains hk]
    exact ⟨contains_iff_get?.1 hk, rfl⟩
  have hattachable := hg.attachable_of_new hreg hmarks g.not_contains_nextId
    (contains_iff_get?.2 ⟨_, hdoc⟩) (parent?_of_get? hdoc)
  exact (hg.nextId.register hregister rfl List.nodup_nil).checkDocumentation rfl hattachable hdoc rfl

theorem wp_recoverPreceding (hg : g.Consistent) (source : List Char) {n : Node}
    (hn : g.get? owner = some n) (hkind : n.kind.isDocumentable) :
    Run.wp (recoverPreceding source owner) (fun acts h =>
      if acts then ∃ found, g.documentation? owner = none ∧
        (precedingGap? g owner).bind (find? source) = some found ∧
          Documents Payload.GainsBefore owner found g h
      else h = g ∧ ((g.documentation? owner).isSome ∨
        (precedingGap? g owner).bind (find? source) = none)) (fun _ => False) g := by
  have hreg : g.contains owner := contains_iff_get?.2 ⟨n, hn⟩
  refine Run.wp_bind (Run.wp_get ?_)
  split
  · next hdoc => exact Run.wp_pure ⟨rfl, .inl hdoc⟩
  · next hdoc =>
    split
    · next hfind => exact Run.wp_pure ⟨rfl, .inr hfind⟩
    · next found hfind =>
      have hnone : g.documentation? owner = none := by simpa using hdoc
      refine Run.wp_bind (Run.wp_of_ok (make_eq_ok g owner found) ?_)
      have hn' : (withDoc g owner found).get? owner = some n := by
        rw [get?_withDoc_of_contains hreg, hn]
      have hnone' : (withDoc g owner found).documentation? owner = none := by
        rw [documentation?_congr (get?_withDoc_of_contains hreg) fun c hc =>
          isDocumentationAt_withDoc (hg.contains_child hc), hnone]
      have hcheck := checkDocumentation_withDoc hg hreg found
      refine (Run.wp_attachDocumentation hn' hkind hcheck hnone').andThen
        fun _ h ⟨payload, hgains, heq⟩ => Run.wp_pure ⟨found, hnone, hfind, ?_⟩
      exact ⟨register_docNode g owner found, n, payload, hn, hgains, heq⟩

theorem wp_recoverDangling (hg : g.Consistent) (source : List Char) (hreg : g.contains owner) :
    Run.wp (recoverDangling source owner) (fun acts h =>
      if acts then ∃ found, (g.get? owner).any (·.kind.isDocumentationContainer) ∧
        g.dangling? owner = none ∧
        (danglingGap? g source owner).bind (find? source) = some found ∧
          Documents Payload.GainsBehind owner found g h
      else h = g ∧ ((g.get? owner).all (!·.kind.isDocumentationContainer) ∨
        (g.dangling? owner).isSome ∨ (danglingGap? g source owner).bind (find? source) = none))
      (fun _ => False) g := by
  obtain ⟨n, hn⟩ := contains_iff_get?.1 hreg
  refine Run.wp_bind (Run.wp_ask_of_ok (node_eq_ok.2 hn) (Run.wp_bind (Run.wp_get ?_)))
  split
  · next hidle =>
    rw [Bool.or_eq_true] at hidle
    exact Run.wp_pure ⟨rfl, by rw [hn]; exact hidle.imp_right .inl⟩
  · next hidle =>
    rw [Bool.or_eq_true, not_or] at hidle
    split
    · next hfind => exact Run.wp_pure ⟨rfl, .inr (.inr hfind)⟩
    · next found hfind =>
      have hcontainer : n.kind.isDocumentationContainer := by simpa using hidle.1
      have hnone : g.dangling? owner = none := by simpa using hidle.2
      refine Run.wp_bind (Run.wp_of_ok (make_eq_ok g owner found) ?_)
      have hn' : (withDoc g owner found).get? owner = some n := by
        rw [get?_withDoc_of_contains hreg, hn]
      have hnone' : (withDoc g owner found).dangling? owner = none := by
        rw [dangling?_congr (get?_withDoc_of_contains hreg) fun c hc =>
          isDocumentationAt_withDoc (hg.contains_child hc), hnone]
      have hcheck := checkDocumentation_withDoc hg hreg found
      refine (Run.wp_attachDangling hn' hcontainer hcheck hnone').andThen
        fun _ h ⟨payload, hgains, heq⟩ =>
          Run.wp_pure ⟨found, by rw [hn]; exact hcontainer, hnone, hfind, ?_⟩
      exact ⟨register_docNode g owner found, n, payload, hn, hgains, heq⟩

end Comments

end SolidityTree
