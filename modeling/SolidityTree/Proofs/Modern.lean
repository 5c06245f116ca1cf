import SolidityTree.Proofs.Children
import SolidityTree.Proofs.Draft
import SolidityTree.Schema.Modern

/-!
# Children of modern records

A modern record becomes a payload whose children are exactly the nodes that its records have become,
each once, and whose documentation, if it is a node, is that of the record in its field for
documentation (`Modern.wp_payload`).  For the kinds that are read field by field the children even
come in the order of conversion, slot by slot.
-/

namespace SolidityTree.Modern

open Draft Record

variable {trace : Trace}

/-! ### Fields -/

theorem wp_one {r : Json} {key : String} {Q : Trace → NodeId → Prop}
    (h : ∀ c id, Q (trace ++ [(c, id)]) id) : wp (one r key) Q trace :=
  wp_bind (wp_lift fun c => Draft.wp_one (h c))

theorem wp_optional {r : Json} {key : String} {Q : Trace → Option NodeId → Prop}
    (h : ∀ id? new, new.map Prod.snd = id?.toList → Q (trace ++ new) id?) :
    wp (optional r key) Q trace :=
  Draft.wp_optional fun id? new _ => h id? new

theorem wp_many {r : Json} {key : String} {Q : Trace → List NodeId → Prop}
    (h : ∀ new : Trace, Q (trace ++ new) (new.map Prod.snd)) : wp (many r key) Q trace :=
  wp_array (fun _ => by simpa using h []) fun _ _ => wp_all fun new _ => h new

/-- The record in the field for documentation. -/
def Documents (r doc : Json) : Prop := field? r "documentation" = some doc

/-- The documentation is given by its record, if it is a node. -/
def Given (r : Json) (trace : Trace) (d? : Option Documentation) : Prop :=
  ∀ d, d? = some (.node d) → ∃ doc, (doc, d) ∈ trace ∧ Documents r doc

theorem Given.append {r : Json} {d? : Option Documentation} {new : Trace} (h : Given r new d?) :
    Given r (trace ++ new) d? := fun d hd =>
  let ⟨doc, hdoc, hr⟩ := h d hd
  ⟨doc, List.mem_append_right _ hdoc, hr⟩

theorem wp_documentation {r : Json} {Q : Trace → Option Documentation → Prop}
    (h : ∀ d? new, new.map Prod.snd = (Slot.documentation d?).children → Given r new d? →
      Q (trace ++ new) d?) : wp (documentation r) Q trace := by
  unfold documentation
  split
  · exact wp_pure (by simpa using h none [] rfl (by simp [Given]))
  · next s _ => exact wp_pure (by simpa using h (some (.text s)) [] rfl (by simp [Given]))
  · next doc _ hdoc =>
    refine wp_bind (Draft.wp_one fun id => wp_pure (h (some (.node id)) [(doc, id)] rfl ?_))
    rintro d ⟨⟩
    exact ⟨doc, List.mem_singleton_self _, hdoc⟩

theorem wp_operand {r : Json} {key : String} {Q : Trace → Operand → Prop}
    (h : ∀ type new, new.map Prod.snd = (Slot.operand type).children → Q (trace ++ new) type) :
    wp (operand r key) Q trace := by
  refine wp_bind (wp_lift fun value => ?_)
  split
  · next s => exact wp_pure (by simpa using h (.name s) [] rfl)
  · exact wp_bind (Draft.wp_one fun id => wp_pure (h (.node id) [(value, id)] rfl))

/-- A slot holds the nodes of its field. -/
theorem wp_slot {r : Json} {field : Field}
    {Q : Trace → { s : Slot // s.shape = field.shape } → Prop}
    (h : ∀ s new, new.map Prod.snd = s.1.children →
      (∀ d?, s.1 = .documentation d? → Given r new d?) → Q (trace ++ new) s) :
    wp (slot r field) Q trace := by
  obtain ⟨shape, name, key⟩ := field
  cases shape with
  | one =>
    exact wp_bind (wp_one fun c id => wp_pure (h ⟨.one id, rfl⟩ [(c, id)] rfl (by simp)))
  | optional =>
    exact wp_bind (wp_optional fun id? new hnew =>
      wp_pure (h ⟨.optional id?, rfl⟩ new hnew (by simp)))
  | many =>
    exact wp_bind (wp_many fun new =>
      wp_pure (h ⟨.many (new.map Prod.snd), rfl⟩ new rfl (by simp)))
  | sparse =>
    exact wp_bind (wp_sparse fun places new _ hnew =>
      wp_pure (h ⟨.sparse places, rfl⟩ new hnew (by simp)))
  | documentation =>
    refine wp_bind (wp_documentation fun d? new hnew hgiven =>
      wp_pure (h ⟨.documentation d?, rfl⟩ new hnew ?_))
    rintro _ ⟨⟩
    exact hgiven
  | operand =>
    exact wp_bind (wp_operand fun type new hnew =>
      wp_pure (h ⟨.operand type, rfl⟩ new hnew (by simp)))

theorem wp_slots {r : Json} {fields : List Field}
    {Q : Trace → { slots : List Slot // Slots.shapes slots = fields.map Field.shape } → Prop}
    (h : ∀ ss new, new.map Prod.snd = Slots.children ss.1 →
      (∀ d?, Slots.documentation? ss.1 = some d? → Given r new d?) → Q (trace ++ new) ss) :
    wp (slots r fields) Q trace := by
  induction fields generalizing trace with
  | nil => exact wp_pure (by simpa using h ⟨[], rfl⟩ [] rfl (by simp [Slots.documentation?]))
  | cons field rest ih =>
    refine wp_bind (wp_slot fun s first hfirst hs => wp_bind (ih fun ss new hnew hss => wp_pure ?_))
    rw [List.append_assoc]
    refine h ⟨s.1 :: ss.1, _⟩ (first ++ new) (by simp [hfirst, hnew]) fun d? hd => ?_
    -- the first slot for documentation is this one, or one of the others
    obtain ⟨s, hshape⟩ := s
    cases s with
    | documentation e? =>
      obtain rfl : e? = d? := Option.some.inj hd
      intro d hd
      obtain ⟨doc, hdoc, hr⟩ := hs e? rfl d hd
      exact ⟨doc, List.mem_append_left _ hdoc, hr⟩
    | _ => exact (hss d? hd).append

/-! ### Payloads -/

/-- What the payload of a modern record takes from the trace. -/
def Reads (r : Json) (trace : Trace) (p : Payload) : Prop :=
  Takes (trace.map Prod.fst) (Documents r) trace p

theorem wp_regular (kind : Kind) (r : Json) : wp (regular kind r) (Reads r) [] := by
  refine wp_bind (wp_lift fun attributes => wp_bind (wp_slots fun slots new hnew hdocs =>
    wp_pure (.of_perm ?_ fun d hd => ?_)))
  · exact .of_eq hnew.symm
  · exact hdocs _ hd d rfl

/-- The documentation of a contract is one of its members, not in a place of its own. -/
theorem wp_contractDefinition (r : Json) : wp (contractDefinition r) (Reads r) [] := by
  refine wp_bind (wp_documentation fun documentation? docs hdocs _ => ?_)
  refine wp_bind (wp_many fun bases => wp_bind (wp_many fun members => ?_))
  refine wp_bind (wp_lift fun contract => wp_pure (.of_perm ?_ ?_))
  · simp [Payload.children, Payload.contractDefinition, hdocs, Slot.children]
  · simp [Payload.documentation?, Payload.contractDefinition, Slots.documentation?]

theorem wp_usingEntry {entry : Json} {Q : Trace → NodeId × Option OperatorBinding → Prop}
    (h : ∀ c e, Q (trace ++ [(c, e.1)]) e) : wp (usingEntry entry) Q trace := by
  unfold usingEntry
  split
  · next c _ => exact wp_bind (Draft.wp_one fun id => wp_pure (h c (id, none)))
  · exact wp_bind (wp_one fun c id => wp_bind (wp_lift fun operator => wp_pure (h c (id, _))))

theorem wp_usingEntries {entries : List Json}
    {Q : Trace → List (NodeId × Option OperatorBinding) → Prop}
    (h : ∀ es new, new.map Prod.snd = es.map Prod.fst → Q (trace ++ new) es) :
    wp (usingEntries entries) Q trace := by
  induction entries generalizing trace Q with
  | nil => exact wp_pure (by simpa using h [] [] rfl)
  | cons entry rest ih =>
    refine wp_bind (wp_usingEntry fun c e => wp_bind (ih fun es new hnew => wp_pure ?_))
    simpa using h (e :: es) ((c, e.1) :: new) (congrArg (e.1 :: ·) hnew)

/-- The functions are converted before the library, but listed after it. -/
theorem wp_usingForDirective (r : Json) : wp (usingForDirective r) (Reads r) [] := by
  refine wp_bind (wp_usingEntries fun entries functions hfunctions => ?_)
  refine wp_bind (wp_optional fun library? library hlibrary => wp_bind (wp_optional
    fun type? type htype => wp_pure (.of_perm ?_ ?_)))
  · have hchildren : (Payload.usingForDirective (Record.flag r "global")
        (entries.filterMap Prod.snd) library? (entries.map Prod.fst) type?).children =
        library?.toList ++ entries.map Prod.fst ++ type?.toList := by
      simp [Payload.children, Payload.usingForDirective]
    rw [hchildren, List.map_append, List.map_append, List.map_append, hfunctions, hlibrary, htype]
    -- the two change places, the type comes last in either order
    exact List.perm_append_comm.append_right type?.toList
  · simp [Payload.documentation?, Payload.usingForDirective, Slots.documentation?]

theorem wp_inlineAssembly (r : Json) : wp (inlineAssembly r) (Reads r) [] := by
  refine wp_bind (wp_lift fun assembly => wp_bind (wp_documentation fun d? new hnew hgiven =>
    wp_pure (.of_perm ?_ fun d hd => ?_)))
  · simp [Payload.children, Payload.inlineAssembly, hnew]
  · exact hgiven d (Option.some.inj hd)

theorem wp_variableDeclarationStatement (r : Json) :
    wp (variableDeclarationStatement r) (Reads r) [] := by
  refine wp_bind (wp_documentation fun d? docs hdocs hgiven => wp_bind (wp_sparse
    fun declarations places _ hplaces => ?_))
  refine wp_bind (wp_optional fun value? value hvalue => wp_pure (.of_perm ?_ fun d hd => ?_))
  · simp [Payload.children, Payload.variableDeclarationStatement, hdocs, hplaces, hvalue]
  · obtain ⟨doc, hdoc, hr⟩ := hgiven d (Option.some.inj hd)
    exact ⟨doc, List.mem_append_left _ (List.mem_append_left _ hdoc), hr⟩

theorem wp_yulCase (r : Json) : wp (yulCase r) (Reads r) [] := by
  have hbody : ∀ (value? : Option NodeId) (trace : Trace), trace.map Prod.snd = value?.toList →
      wp (do
        let body ← one r "body"
        return Payload.yulCase value? body) (Reads r) trace := fun value? trace htrace => by
    refine wp_bind (wp_one fun c body => wp_pure (.of_perm ?_ ?_))
    · simp [Payload.children, Payload.yulCase, htrace]
    · simp [Payload.documentation?, Payload.yulCase, Slots.documentation?]
  unfold yulCase
  split
  · exact wp_bind (wp_pure (hbody none [] rfl))
  · exact wp_bind (wp_pure (hbody none [] rfl))
  · next c _ _ => exact wp_bind (wp_some (Draft.wp_one fun id => hbody (some id) [(c, id)] rfl))

/-- **The children of a payload** are the nodes that its records have become, each once. -/
theorem wp_payload (kind : Kind) (r : Json) : wp (payload kind r) (Reads r) [] := by
  unfold payload
  split
  · exact wp_contractDefinition r
  · exact wp_usingForDirective r
  · exact wp_inlineAssembly r
  · exact wp_variableDeclarationStatement r
  · exact wp_yulCase r
  · exact wp_regular _ r

/-! ### Kinds -/

theorem kind_attributes {kind : Kind} {r : Json} {a : Attributes} (h : attributes kind r = .ok a) :
    a.kind = kind := by
  unfold attributes at h
  cases kind
  -- every kind ends with attributes of its own
  all_goals
    dsimp only at h
    repeat' (obtain ⟨_, -, h⟩ := Except.bind_eq_ok.1 h)
    cases h
    rfl

theorem wp_payload_kind (kind : Kind) (r : Json) :
    wp (payload kind r) (fun _ p => p.kind = kind) [] := by
  unfold payload
  split
  · exact wp_bind_any fun _ _ => wp_bind_any fun _ _ => wp_bind_any fun _ _ =>
      wp_bind_any fun _ _ => wp_pure rfl
  · exact wp_bind_any fun _ _ => wp_bind_any fun _ _ => wp_bind_any fun _ _ => wp_pure rfl
  · exact wp_bind_any fun _ _ => wp_bind_any fun _ _ => wp_pure rfl
  · exact wp_bind_any fun _ _ => wp_bind_any fun _ _ => wp_bind_any fun _ _ => wp_pure rfl
  · unfold yulCase
    split <;> exact wp_bind_any fun _ _ => wp_bind_any fun _ _ => wp_pure rfl
  · exact wp_bind (wp_lift_of_ok fun attributes hattributes =>
      wp_bind_any fun _ _ => wp_pure (kind_attributes hattributes))

end SolidityTree.Modern
