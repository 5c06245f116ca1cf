import SolidityTree.Proofs.Positions
import SolidityTree.Proofs.Visits

/-!
# Expansion of inline assembly

The pass converts the Yul code of inline assembly in a transaction, makes the new tree a child of
the assembly, and then links the Yul identifiers of the tree.  A conversion that fails is rolled
back; a conversion that succeeds leaves the old nodes as they were, the assembly among them, so
nothing after it can fail (`Assembly.process_of_ok`).

The child is attached past the checks of other edits.  What makes up for them is that the converted
tree holds all that is new and has one root (`Run.mem_flatMap_walk_iff`), and that neither the mark
of this root nor the links change which nodes are below it.

What a Yul identifier refers to is followed from its record: the node of a visited record has the
range of the record and a payload that was read from it (`Forest.Stands`), and the links change what
it refers to only as `Assembly.target` says.

The ids of records without one are settled as the visits say, so where there is room for them they
go up from the counter, also if the conversion is rolled back.

Main statement: `Assembly.process_spec`.
-/

namespace SolidityTree

open Forest

/-! ### Nodes of visited records -/

/-- A payload has been read from a record. -/
def Schema.Gives (schema : Schema) (r : Json) (p : Payload) : Prop :=
  ∃ kind draft, schema.draft r = .ok (kind, draft) ∧
    ∃ (convert : Json → Run NodeId) (f g : Forest), draft.run convert f = .ok p g

/-- The record of a visit has become a node, which is as the record says. -/
def Forest.Stands (schema : Schema) (f : Forest) (v : Visit) : Prop :=
  ∃ m, f.get? v.id = some m ∧ Record.src v.record = .ok m.src ∧ schema.Gives v.record m.payload

variable {α : Type} {f g : Forest} {k : NodeId} {schema : Schema} {config : Config} {v : Visit}

/-- Registration changes the marks of old nodes at most. -/
theorem Forest.additive_stands (schema : Schema) (v : Visit) :
    Run.Additive fun f => f.Stands schema v where
  nextId h := h
  register {f g n} h hregister := by
    obtain ⟨m, hm, hsrc, hgives⟩ := h
    have hself := not_mem_children_of_register hregister
    obtain ⟨hfresh, -, rfl⟩ := register_eq_ok hregister
    have hne : v.id ≠ n.id := by
      intro heq
      exact hfresh (contains_iff_get?.2 ⟨m, heq ▸ hm⟩)
    by_cases hchild : v.id ∈ n.children
    · refine ⟨{ m with parent? := some n.id }, ?_, hsrc, hgives⟩
      rw [get?_insert n hself, if_neg hne, if_pos hchild, hm]
      rfl
    · refine ⟨m, ?_, hsrc, hgives⟩
      rw [get?_insert n hself, if_neg hne, if_neg hchild, hm]

namespace Run

theorem stands_draft {convert : Json → Run NodeId} {visits : Json → Visits}
    (hconvert : ∀ r f id g, convert r f = .ok id g → ∀ v ∈ visits r f, g.Stands schema v)
    (hkeeps : ∀ v r, Keeps (Stands schema · v) (convert r)) {d : Draft α} {a : α}
    (h : d.run convert f = .ok a g) :
    (∀ v ∈ d.visits convert visits f, g.Stands schema v) ∧
      ∀ v, f.Stands schema v → g.Stands schema v := by
  induction d generalizing f with
  | done b =>
    cases h
    exact ⟨fun v hv => by contradiction, fun v hv => hv⟩
  | fail fault => contradiction
  | convert r next ih =>
    obtain ⟨id, f', hid, hnext⟩ := bind_eq_ok.1 h
    obtain ⟨hvisits, hold⟩ := ih id hnext
    rw [Draft.visits, Visits.andThen_of_ok hid]
    constructor
    · intro v hv
      rcases List.mem_append.1 hv with hv | hv
      · exact hold v (hconvert r f id f' hid v hv)
      · exact hvisits v hv
    · intro v hv
      exact hold v (wp_ok (hkeeps v r f hv) hid)

/-- A record with an id and a range is visited before those below it. -/
theorem convertVisits_succ {levels : Nat} {r : Json} {kind : Kind} {draft : Draft Payload}
    {id : NodeId} {src : Span} (hdraft : schema.draft r = .ok (kind, draft))
    (hid : idOf r f = .ok id g) (hsrc : Record.src r = .ok src) :
    convertVisits config schema (levels + 1) r f = ⟨r, id⟩ ::
      draft.visits (convert config schema levels) (convertVisits config schema levels) g := by
  have hask : ask (fun _ => schema.draft r) f = .ok (kind, draft) f := ask_eq_ok.2 ⟨hdraft, rfl⟩
  have hrange : ask (fun _ => Record.src r) g = .ok src g := ask_eq_ok.2 ⟨hsrc, rfl⟩
  rw [convertVisits, Visits.andThen_of_ok hask]
  dsimp only
  rw [Visits.andThen_of_ok hid, Visits.andThen_of_ok hrange]
  rfl

/-- **Every visited record has become a node that is as the record says.** -/
theorem stands_convert {levels : Nat} {r : Json} {id : NodeId}
    (h : convert config schema levels r f = .ok id g) :
    ∀ v ∈ convertVisits config schema levels r f, g.Stands schema v := by
  -- on the levels: the records below have become nodes before the record itself
  induction levels generalizing r f id g with
  | zero => contradiction
  | succ levels ih =>
    obtain ⟨⟨kind, draft⟩, f₁, hask, h⟩ := bind_eq_ok.1 h
    obtain ⟨hdraft, rfl⟩ := ask_eq_ok.1 hask
    obtain ⟨own, f₂, hid, h⟩ := bind_eq_ok.1 h
    obtain ⟨src, f₃, hask, h⟩ := bind_eq_ok.1 h
    obtain ⟨hsrc, rfl⟩ := ask_eq_ok.1 hask
    obtain ⟨payload, f₃, hpayload, h⟩ := bind_eq_ok.1 h
    obtain ⟨handle, f₄, hrun, hend⟩ := bind_eq_ok.1 h
    obtain rfl : f₄ = g := by
      cases hend
      rfl
    have hregister := register_of_run hrun
    have hkeeps : ∀ v r, Keeps (Stands schema · v) (convert config schema levels r) := fun v r =>
      (additive_stands schema v).keeps_convert config schema levels r
    obtain ⟨hbelow, -⟩ := stands_draft (fun r f id g h => ih h) hkeeps hpayload
    rw [convertVisits_succ hdraft hid hsrc, List.forall_mem_cons]
    constructor
    · have hself := not_mem_children_of_register hregister
      obtain ⟨-, -, rfl⟩ := register_eq_ok hregister
      exact ⟨_, (get?_insert _ hself).trans (if_pos rfl), hsrc, kind, draft, hdraft, _, _, _,
        hpayload⟩
    · intro v hv
      exact (additive_stands schema v).register (hbelow v hv) hregister

/-- A node that a conversion has added has come of a visited record. -/
theorem exists_visit_of_new {levels : Nat} {r : Json} {id : NodeId}
    (h : convert config schema levels r f = .ok id g) (hreg : g.contains k)
    (hnew : ¬ f.contains k) :
    ∃ record, ⟨record, k⟩ ∈ convertVisits config schema levels r f ∧
      g.Stands schema ⟨record, k⟩ := by
  have hregistered := (numbers_convert config schema levels r).registered h
  have hmem := ((hregistered.contains_iff k).1 hreg).resolve_left hnew
  obtain ⟨v, hv, rfl⟩ := List.mem_map.1 hmem
  exact ⟨v.record, hv, stands_convert h v hv⟩

end Run

/-- A Yul identifier refers to what its record says. -/
theorem Schema.reference_of_gives {r : Json} {p : Payload} {name : String} {carried : NodeId}
    (h : Schema.modern.Gives r p) (hp : p.attributes = .yulIdentifier name carried) :
    carried = Record.reference r "referencedDeclaration" := by
  obtain ⟨kind, draft, hdraft, convert, f, g, hrun⟩ := h
  obtain ⟨-, hkind⟩ := Draft.exists_trace_of_run (wp_draft_kind hdraft) hrun
  obtain rfl : kind = .yulIdentifier := by
    rw [← hkind, Payload.kind, hp]
    rfl
  obtain ⟨payload, hpayload, rfl⟩ := draft_eq_ok hdraft
  cases hpayload
  have hreads : (Modern.payload .yulIdentifier r).wp (fun _ p => ∀ name carried,
      p.attributes = .yulIdentifier name carried →
        carried = Record.reference r "referencedDeclaration") [] := by
    refine Draft.wp_bind (Draft.wp_lift_of_ok fun attributes hattributes => ?_)
    refine Draft.wp_bind_any fun _ slots => Draft.wp_pure ?_
    intro name carried hp
    obtain ⟨text, -, hattributes⟩ := Except.bind_eq_ok.1 hattributes
    cases hattributes
    cases hp
    rfl
  obtain ⟨-, hreference⟩ := Draft.exists_trace_of_run hreads hrun
  exact hreference name carried hp

/-! ### Changes of several nodes -/

namespace Forest

variable {change : Node → Node} {ks : List NodeId}

/-- Changes nodes one after another. -/
def modifyAll (f : Forest) (ks : List NodeId) (change : Node → Node) : Forest :=
  ks.foldl (fun f k => f.modify k change) f

/-- Where the nodes differ, each is changed once. -/
theorem get?_modifyAll (hnodup : ks.Nodup) :
    (f.modifyAll ks change).get? k =
      if k ∈ ks then (f.get? k).map change else f.get? k := by
  induction ks generalizing f with
  | nil => rfl
  | cons c rest ih =>
    obtain ⟨hc, hrest⟩ := List.nodup_cons.1 hnodup
    show ((f.modify c change).modifyAll rest change).get? k = _
    rw [ih hrest, get?_modify]
    by_cases hk : c = k
    · subst hk
      simp [hc]
    · simp [hk, Ne.symm hk]

/-- A change of the payload that keeps the children keeps the trees. -/
theorem SameTrees.modify
    (h : ∀ n, ∃ payload : Payload, change n = { n with payload := payload } ∧
      payload.children = n.children) (k : NodeId) : SameTrees f (f.modify k change) := by
  have hnode : ∀ n : Node, (change n).id = n.id ∧ (change n).forest? = n.forest? ∧
      (change n).parent? = n.parent? ∧ (change n).children = n.children := by
    intro n
    obtain ⟨payload, hchange, hchildren⟩ := h n
    rw [hchange]
    exact ⟨rfl, rfl, rfl, hchildren⟩
  constructor
  · rfl
  · intro j
    rw [stamp?, get?_modify, stamp?]
    split <;> cases f.get? j <;> simp [hnode]
  · intro j
    rw [children, get?_modify, children]
    split <;> cases f.get? j <;> simp [hnode]
  · intro j
    rw [parent?, get?_modify, parent?]
    split <;> cases f.get? j <;> simp [hnode]

theorem SameTrees.modifyAll
    (h : ∀ n, ∃ payload : Payload, change n = { n with payload := payload } ∧
      payload.children = n.children) (ks : List NodeId) : SameTrees f (f.modifyAll ks change) := by
  induction ks generalizing f with
  | nil => exact .of_get? rfl fun _ => rfl
  | cons k rest ih => exact (SameTrees.modify h k).trans ih

end Forest

theorem Run.forM_modify (f : Forest) (ks : List NodeId) (change : Node → Node) :
    (ks.forM fun k => modify (Forest.modify · k change) : Run PUnit) f =
      .ok () (f.modifyAll ks change) := by
  induction ks generalizing f with
  | nil => rfl
  | cons k rest ih => exact Run.bind_eq_ok.2 ⟨(), f.modify k change, rfl, ih _⟩

/-! ### Links -/

namespace Assembly

variable {references : List ExternalReference} {n : Node}

/-- What a Yul identifier in a range refers to in the end, if it refers to `carried` in its record:
to that if it is a declaration, else to the first declaration that is listed for the range. -/
def target (references : List ExternalReference) (src : Span) (carried : NodeId) : NodeId :=
  if 0 ≤ carried then carried
  else ((references.find? fun r => r.src = src).map ExternalReference.declaration).getD carried

theorem exists_payload_of_link (references : List ExternalReference) (n : Node) :
    ∃ payload : Payload, link references n = { n with payload := payload } ∧
      payload.children = n.children := by
  rcases link_eq_mapPayload references n with h | ⟨target, h⟩
  · exact ⟨n.payload, h, rfl⟩
  · exact ⟨n.payload.setReferenced target, h, n.payload.children_setReferenced target⟩

/-- A Yul identifier stays one, and refers to its target. -/
theorem exists_carried_of_link {name : String} {referenced : NodeId}
    (h : (link references n).payload.attributes = .yulIdentifier name referenced) :
    ∃ carried, n.payload.attributes = .yulIdentifier name carried ∧
      referenced = target references n.src carried := by
  cases hn : n.payload.attributes with
  | yulIdentifier name' carried =>
    rw [link, hn] at h
    dsimp only at h
    by_cases hle : 0 ≤ carried
    · rw [if_pos hle, hn] at h
      cases h
      exact ⟨referenced, rfl, (if_pos hle).symm⟩
    · rw [if_neg hle] at h
      cases hfind : references.find? fun r => r.src = n.src with
      | none =>
        rw [hfind, hn] at h
        cases h
        refine ⟨referenced, rfl, ?_⟩
        rw [target, if_neg hle, hfind]
        rfl
      | some r =>
        rw [hfind] at h
        have hset : (n.payload.attributes.setReferenced r.declaration) =
            .yulIdentifier name referenced := h
        rw [hn] at hset
        cases hset
        refine ⟨carried, rfl, ?_⟩
        rw [target, if_neg hle, hfind]
        rfl
  | _ =>
    rw [link, hn] at h
    dsimp only at h
    rw [hn] at h
    contradiction

/-! ### The expansion -/

/-- What the pass supports: inline assembly with the tree of its Yul code, but without the child. -/
theorem exists_of_supports (h : pass.supports n) :
    ∃ tree assembly documentation?, tree? n = some tree ∧
      n.payload.attributes = .inlineAssembly assembly ∧
      n.payload.slots = [.documentation documentation?, .optional none] := by
  obtain ⟨hempty, hobject⟩ := Bool.and_eq_true_iff.1 h
  obtain ⟨tree, htree, -⟩ := (Option.any_eq_true _ _).1 hobject
  rw [Payload.isUnexpanded, decide_eq_true_eq] at hempty
  obtain ⟨hkind, hnone⟩ := hempty
  obtain ⟨assembly, hassembly⟩ : ∃ assembly, n.payload.attributes = .inlineAssembly assembly := by
    rw [Payload.kind] at hkind
    cases hattributes : n.payload.attributes with
    | inlineAssembly assembly => exact ⟨assembly, rfl⟩
    | _ =>
      rw [hattributes] at hkind
      contradiction
  -- the slots are those of the layout, and the second one is empty
  have hshapes : Slots.shapes n.payload.slots = [.documentation, .optional] := by
    rw [n.payload.shapes_eq, hassembly]
    rfl
  obtain ⟨first, rest, hslots, hfirst, hrest⟩ := List.map_eq_cons_iff.1 hshapes
  obtain ⟨second, rest, rfl, hsecond, hnil⟩ := List.map_eq_cons_iff.1 hrest
  obtain rfl := List.map_eq_nil_iff.1 hnil
  rw [hslots] at hnone ⊢
  cases first with
  | documentation documentation? =>
    cases second with
    | optional child? =>
      obtain rfl : child? = none := hnone
      exact ⟨tree, assembly, documentation?, htree, hassembly, rfl⟩
    | _ => contradiction
  | _ => contradiction

/-- The child fills the place that was empty. -/
theorem expand?_of_attributes {p : Payload} {assembly : AssemblyAttributes}
    {documentation? : Option Documentation} (hattributes : p.attributes = .inlineAssembly assembly)
    (hslots : p.slots = [.documentation documentation?, .optional none]) (yul : NodeId) :
    ∃ payload, p.expand? yul = some (assembly.externalReferences, payload) ∧
      payload.attributes = p.attributes ∧
      payload.slots = [.documentation documentation?, .optional (some yul)] := by
  refine ⟨p.withSlots (Slots.setOptional yul p.slots) (Slots.shapes_setOptional yul p.slots),
    ?_, rfl, ?_⟩
  · rw [Payload.expand?, hattributes]
  · show Slots.setOptional yul p.slots = _
    rw [hslots]
    rfl

/-- A forest in which a tree has become the child of inline assembly and its Yul identifiers have
been linked. -/
def graft (f : Forest) (id yul : NodeId) (payload : Payload) (references : List ExternalReference) :
    Forest :=
  (f.attach id yul payload).modifyAll ((f.attach id yul payload).walk yul) (link references)

variable {id yul : NodeId} {tree : Json} {fault : Fault}

theorem adopt_eq_ok {payload : Payload} (hn : f.get? id = some n)
    (hexpand : n.payload.expand? yul = some (references, payload)) :
    adopt id yul f = .ok references (f.attach id yul payload) := by
  have hplace : (f.get? id).bind (fun n => n.payload.expand? yul) = some (references, payload) := by
    rw [hn]
    exact hexpand
  rw [adopt, Run.bind_of_ok (Run.get_eq_ok f), hplace]
  rfl

/-- Inline assembly with the tree of its Yul code. -/
theorem process_eq (hn : f.get? id = some n) (htree : tree? n = some tree) :
    process config id f = (do
      let yul ← Run.transaction (Run.convert config .modern config.maxDepth tree)
      let references ← adopt id yul
      ((← get).walk yul).forM fun k => modify (Forest.modify · k (link references))
      return true) f := by
  rw [process, Run.bind_of_ok (Run.get_eq_ok f), hn, Option.bind_some, htree]
  rfl

theorem process_of_error (hn : f.get? id = some n) (htree : tree? n = some tree)
    (h : Run.convert config .modern config.maxDepth tree f.begin = .error fault g) :
    process config id f = .error fault g.rollback := by
  have htransaction : Run.transaction (Run.convert config .modern config.maxDepth tree) f =
      .error fault g.rollback := by
    rw [Run.transaction, h]
  rw [process_eq hn htree]
  exact Run.bind_of_error htransaction _

/-- Once the tree is converted, the rest goes through. -/
theorem process_of_ok {payload : Payload} (hn : f.get? id = some n) (htree : tree? n = some tree)
    (h : Run.convert config .modern config.maxDepth tree f.begin = .ok yul g)
    (hold : g.get? id = some n) (hexpand : n.payload.expand? yul = some (references, payload)) :
    process config id f = .ok true (graft g.commit id yul payload references) := by
  have htransaction : Run.transaction (Run.convert config .modern config.maxDepth tree) f =
      .ok yul g.commit := Run.transaction_eq_ok.2 ⟨g, h, rfl⟩
  have hadopt := adopt_eq_ok (get?_commit.trans hold) hexpand
  rw [process_eq hn htree, Run.bind_of_ok htransaction, Run.bind_of_ok hadopt,
    Run.bind_of_ok (Run.get_eq_ok _)]
  exact Run.bind_of_ok (Run.forM_modify _ _ _) _

/-! ### What a graft leaves -/

section Graft

variable {payload : Payload}

theorem sameTrees_graft (g : Forest) (id yul : NodeId) (payload : Payload)
    (references : List ExternalReference) :
    SameTrees (g.attach id yul payload) (graft g id yul payload references) :=
  .modifyAll (exists_payload_of_link references) _

theorem contains_graft (references : List ExternalReference) :
    (graft g id yul payload references).contains k ↔ g.contains k :=
  (sameTrees_graft ..).contains_iff.trans (SameNodes.attach ..).contains_iff

variable (hf : f.Consistent) (hg : Grown True f g [yul])
  (hold : ∀ {k}, f.contains k → g.get? k = f.get? k) (hn : f.get? id = some n)
  (hgains : n.payload.Gains yul payload)
include hf hg hold hn hgains

theorem consistent_attach : (g.attach id yul payload).Consistent := by
  have hroots : Grown True f g ([] ++ [yul]) := hg
  have hnew := (hg.root List.mem_cons_self).2.1
  exact (hroots.mended_attach hf hold hnew hn hgains).grown.consistent

/-- The new tree has the same nodes after its root has got a parent. -/
theorem mem_walk_attach :
    k ∈ (g.attach id yul payload).walk yul ↔ g.contains k ∧ ¬ f.contains k := by
  obtain ⟨hreg, -, -⟩ := hg.root List.mem_cons_self
  have hmark : ∀ c, c ≠ yul → (g.attach id yul payload).parent? c = g.parent? c := by
    intro c hc
    rw [parent?_attach hreg, if_neg hc]
  have hroots := Run.mem_flatMap_walk_iff hf hg hold trivial k
  rw [List.flatMap_singleton] at hroots
  rw [(consistent_attach hf hg hold hn hgains).mem_walk_iff, (SameNodes.attach ..).contains_iff,
    reaches_iff_of_parent? hmark, ← hg.consistent.mem_walk_iff, hroots]

theorem consistent_graft (references : List ExternalReference) :
    (graft g id yul payload references).Consistent :=
  (sameTrees_graft ..).consistent (consistent_attach hf hg hold hn hgains)

/-- Neither do the links change which nodes it has. -/
theorem mem_walk_graft (references : List ExternalReference) :
    k ∈ (graft g id yul payload references).walk yul ↔ g.contains k ∧ ¬ f.contains k := by
  have hsame := sameTrees_graft g id yul payload references
  have hmark : ∀ c, c ≠ yul → (graft g id yul payload references).parent? c =
      (g.attach id yul payload).parent? c := by
    intro c _
    exact hsame.parent?_eq c
  rw [(consistent_graft hf hg hold hn hgains references).mem_walk_iff, hsame.contains_iff,
    reaches_iff_of_parent? hmark, ← (consistent_attach hf hg hold hn hgains).mem_walk_iff,
    mem_walk_attach hf hg hold hn hgains]

/-- Of the old nodes only the assembly has changed, and of that only the payload. -/
theorem get?_graft_of_contains (references : List ExternalReference) (hk : f.contains k) :
    (graft g id yul payload references).get? k =
      if k = id then some { n with payload := payload } else f.get? k := by
  have hout : k ∉ (g.attach id yul payload).walk yul := by
    rw [mem_walk_attach hf hg hold hn hgains]
    rintro ⟨-, hnew⟩
    exact hnew hk
  have hne : yul ≠ k := by
    rintro rfl
    exact (hg.root List.mem_cons_self).2.1 hk
  have hid : g.get? id = some n := (hold (contains_iff_get?.2 ⟨n, hn⟩)).trans hn
  rw [graft, get?_modifyAll ((consistent_attach hf hg hold hn hgains).nodup_walk yul), if_neg hout,
    attach, get?_setParent, if_neg hne, get?_modifyPayload hid, hold hk]

/-- The new nodes have been linked, and one of them has got a parent. -/
theorem get?_graft_of_new (references : List ExternalReference) (hk : ¬ f.contains k) {m : Node}
    (hm : g.get? k = some m) : ∃ parent?, (graft g id yul payload references).get? k =
      some (link references { m with parent? := parent? }) := by
  have hin : k ∈ (g.attach id yul payload).walk yul :=
    (mem_walk_attach hf hg hold hn hgains).2 ⟨contains_iff_get?.2 ⟨m, hm⟩, hk⟩
  have hid : g.get? id = some n := (hold (contains_iff_get?.2 ⟨n, hn⟩)).trans hn
  have hne : k ≠ id := by
    rintro rfl
    exact hk (contains_iff_get?.2 ⟨n, hn⟩)
  rw [graft, get?_modifyAll ((consistent_attach hf hg hold hn hgains).nodup_walk yul), if_pos hin,
    attach, get?_setParent, get?_modifyPayload hid, if_neg hne, hm]
  by_cases hyul : yul = k
  · rw [if_pos hyul]
    exact ⟨some id, rfl⟩
  · rw [if_neg hyul]
    exact ⟨m.parent?, rfl⟩

/-- A new Yul identifier refers to the target of what its record refers to. -/
theorem linked_graft (references : List ExternalReference) (hk : ¬ f.contains k) {record : Json}
    (hstands : g.Stands .modern ⟨record, k⟩) {m : Node} {name : String} {referenced : NodeId}
    (hm : (graft g id yul payload references).get? k = some m)
    (hreferenced : m.payload.attributes = .yulIdentifier name referenced) :
    Record.src record = .ok m.src ∧ referenced = target references m.src
      (Record.reference record "referencedDeclaration") := by
  obtain ⟨before, hbefore, hsrc, hgives⟩ := hstands
  obtain ⟨parent?, hgraft⟩ := get?_graft_of_new hf hg hold hn hgains references hk hbefore
  obtain rfl := Option.some.inj (hgraft.symm.trans hm)
  obtain ⟨carried, hcarried, rfl⟩ := exists_carried_of_link hreferenced
  obtain rfl := Schema.reference_of_gives hgives hcarried
  obtain ⟨payload, hpayload, -⟩ :=
    exists_payload_of_link references { before with parent? := parent? }
  rw [hpayload]
  exact ⟨hsrc, rfl⟩

end Graft

/-! ### The whole pass -/

/-- The forest in which Yul code has become a child of inline assembly. -/
structure Expanded (config : Config) (f g : Forest) (id yul : NodeId) : Prop where
  consistent : g.Consistent
  fresh : ¬ f.contains yul
  parent?_yul : g.parent? yul = some id
  /-- The place for the child was empty and holds it now; all else of the assembly is as it was. -/
  get?_assembly : ∀ {n}, f.get? id = some n → ∃ documentation? payload,
    payload.attributes = n.payload.attributes ∧
      n.payload.slots = [.documentation documentation?, .optional none] ∧
      payload.slots = [.documentation documentation?, .optional (some yul)] ∧
      g.get? id = some { n with payload := payload }
  /-- All other old nodes are as they were. -/
  get?_eq : ∀ {k}, f.contains k → k ≠ id → g.get? k = f.get? k
  /-- The tree of the child holds what is new, and nothing else. -/
  mem_walk_iff : ∀ k, k ∈ g.walk yul ↔ g.contains k ∧ ¬ f.contains k
  /-- Every new node has come of a visited record; if it is a Yul identifier, it refers to the
  target of what the record refers to. -/
  linked : ∀ {n assembly}, f.get? id = some n → n.payload.attributes = .inlineAssembly assembly →
    ∀ k ∈ g.walk yul, ∃ record, ⟨record, k⟩ ∈ visits config id f ∧
      ∀ m name referenced, g.get? k = some m →
        m.payload.attributes = .yulIdentifier name referenced →
          Record.src record = .ok m.src ∧ referenced = target assembly.externalReferences m.src
            (Record.reference record "referencedDeclaration")

theorem visits_eq (hn : f.get? id = some n) (htree : tree? n = some tree) :
    visits config id f = Run.convertVisits config .modern config.maxDepth tree f.begin := by
  rw [visits, Visits.andThen_of_ok (Run.get_eq_ok f), hn, Option.bind_some, htree]
  rfl

theorem unchanged_or_expanded (hf : f.Consistent) (hn : f.get? id = some n)
    (hsupports : pass.supports n) (config : Config) :
    (∃ fault, process config id f = .error fault f) ∨
      ∃ yul g, process config id f = .ok true g ∧ Expanded config f g id yul := by
  obtain ⟨tree, assembly, documentation?, htree, hassembly, hslots⟩ := exists_of_supports hsupports
  have hextends :=
    Run.givesNew_convert config .modern config.maxDepth tree f.begin (extends_begin f)
  cases hconvert : Run.convert config .modern config.maxDepth tree f.begin with
  | error fault h =>
    refine .inl ⟨fault, ?_⟩
    rw [process_of_error hn htree hconvert, (Run.wp_error hextends hconvert).rollback_eq hf]
  | ok yul h =>
    obtain ⟨hext, hfresh⟩ := Run.wp_ok hextends hconvert
    have hgrown : Grown True f h.commit [yul] := by
      have hh : Grown True f h ([] ++ [yul]) := Run.wp_ok
        (Run.wp_convert_grown config (fun _ => rfl) config.maxDepth tree (grown_begin hf)) hconvert
      exact hh.sameTrees (.of_get? id_commit fun _ => get?_commit)
    have hold : ∀ {k}, f.contains k → h.commit.get? k = f.get? k := by
      intro k hk
      rw [get?_commit, hext.get?_eq hk]
    obtain ⟨payload, hexpand, hattributes, hfilled⟩ := expand?_of_attributes hassembly hslots yul
    have hgains : n.payload.Gains yul payload :=
      Payload.gains_expand? (Bool.and_eq_true_iff.1 hsupports).1 hexpand
    have hid : f.contains id := contains_iff_get?.2 ⟨n, hn⟩
    have hprocess := process_of_ok hn htree hconvert ((hext.get?_eq hid).trans hn) hexpand
    refine .inr ⟨yul, _, hprocess, ?_⟩
    constructor
    · exact consistent_graft hf hgrown hold hn hgains _
    · exact hfresh
    · rw [(sameTrees_graft ..).parent?_eq, parent?_attach (hgrown.root List.mem_cons_self).1,
        if_pos rfl]
    · intro m hm
      obtain rfl : n = m := Option.some.inj (hn.symm.trans hm)
      refine ⟨documentation?, payload, hattributes, hslots, hfilled, ?_⟩
      rw [get?_graft_of_contains hf hgrown hold hn hgains _ hid, if_pos rfl]
    · intro k hk hne
      rw [get?_graft_of_contains hf hgrown hold hn hgains _ hk, if_neg hne]
    · intro k
      rw [mem_walk_graft hf hgrown hold hn hgains, contains_graft]
    · intro m assembly' hm hassembly' k hk
      obtain rfl : n = m := Option.some.inj (hn.symm.trans hm)
      obtain rfl : assembly = assembly' := by
        rw [hassembly] at hassembly'
        exact Attributes.inlineAssembly.inj hassembly'
      obtain ⟨hreg, hnew⟩ := (mem_walk_graft hf hgrown hold hn hgains _).1 hk
      rw [contains_commit] at hreg
      obtain ⟨record, hvisit, m, hm, hrecord⟩ := Run.exists_visit_of_new hconvert hreg hnew
      have hstands : h.commit.Stands .modern ⟨record, k⟩ := ⟨m, get?_commit.trans hm, hrecord⟩
      rw [visits_eq hn htree]
      refine ⟨record, hvisit, ?_⟩
      intro m' name referenced hm' hreferenced
      exact linked_graft hf hgrown hold hn hgains _ hnew hstands hm' hreferenced

/-- **The expansion of inline assembly fails and leaves the forest as it was, or the Yul code has
become a child of the assembly**, with all that is new below it and every Yul identifier linked.
Where there is room for an id for each record of the Yul code, the counter does not run over: the
ids that are given out go up from it, also if the expansion fails in the end. -/
theorem process_spec (hf : f.Consistent) (hn : f.get? id = some n) (hsupports : pass.supports n)
    (config : Config) :
    ((∃ fault, process config id f = .error fault f) ∨
      ∃ yul g, process config id f = .ok true g ∧ Expanded config f g id yul) ∧
      (f.RoomFor (visits config id f) 0 → f.Ascending (visits config id f) ∧
        ∀ acts g, process config id f = .ok acts g → g.overrun = f.overrun) := by
  have hnumbers := numbers_process config id
  refine ⟨unchanged_or_expanded hf hn hsupports config, fun hroom => ?_⟩
  refine ⟨hnumbers.ascending hroom, fun acts g hok => ?_⟩
  exact ((hnumbers.registered hok).climbed hroom).overrun_eq

/-- The tree of Yul code that mentions `x`, without ids. -/
def mentionOfX : Json :=
  .object [("nodeType", .string "YulBlock"), ("statements", .array
    [.object [("nodeType", .string "YulExpressionStatement"), ("expression",
      .object [("nodeType", .string "YulIdentifier"), ("name", .string "x"),
        ("src", .string "5:1:0")])]])]

/-- Inline assembly that refers to the declaration 9 at the place where its code mentions `x`. -/
def assemblyNode : Node :=
  .fresh 1 .unknown
    (.inlineAssembly ⟨[⟨some "x", 9, ⟨5, 1, 0⟩, 1, none, false, false⟩], none, [], none⟩ none)
    (some (.object [("AST", mentionOfX)]))

/-- The forest of this node. -/
def assemblyAlone : Forest := (empty 0).insert assemblyNode

theorem consistent_assemblyAlone : assemblyAlone.Consistent := by
  have hregister : (empty 0).registerAll [assemblyNode] = .ok assemblyAlone := rfl
  exact (consistent_empty 0).registerAll hregister (by decide)

/-- The new block is a child of the assembly, and the identifier, two levels below, refers to the
declaration. -/
theorem process_spec_assemblyAlone :
    assemblyAlone.Consistent ∧ (∃ n, assemblyAlone.get? 1 = some n ∧ pass.supports n) ∧
      assemblyAlone.RoomFor (visits .standard 1 assemblyAlone) 0 ∧
      ∃ yul g, process .standard 1 assemblyAlone = .ok true g ∧
        Expanded .standard assemblyAlone g 1 yul ∧ g.overrun = assemblyAlone.overrun ∧
        ((g.get? 4).bind fun n => n.payload.attributes.referenced?) = some 9 := by
  have hn : assemblyAlone.get? 1 = some { assemblyNode with forest? := some 0 } := rfl
  have hsupports : pass.supports { assemblyNode with forest? := some 0 } := rfl
  have hends : Run.seen? (process .standard 1)
      (fun _ g => (g.get? 4).bind fun n => n.payload.attributes.referenced?) assemblyAlone =
        some (some 9) := by
    decide +kernel
  obtain ⟨changed, g, hrun, hview⟩ := Run.seen?_eq_some hends
  have hroom : assemblyAlone.RoomFor (visits .standard 1 assemblyAlone) 0 := by decide +kernel
  refine ⟨consistent_assemblyAlone, ⟨_, hn, hsupports⟩, hroom, ?_⟩
  obtain ⟨houtcome, hcounter⟩ := process_spec consistent_assemblyAlone hn hsupports .standard
  rcases houtcome with ⟨fault, hfails⟩ | ⟨yul, g', hprocess, hexpanded⟩
  · rw [hrun] at hfails
    contradiction
  · obtain rfl : g = g' := by
      rw [hrun] at hprocess
      exact (EStateM.Result.ok.inj hprocess).2
    exact ⟨yul, g, hprocess, hexpanded, (hcounter hroom).2 true g hprocess, hview⟩

end Assembly

end SolidityTree
