import SolidityTree.Proofs.Draft
import SolidityTree.Proofs.Rendering

/-!
# Modern records are read back

The record that a node is written down as in the modern schema is read as the payload of the node:
its draft converts the records of the children, in order, and finishes with that payload
(`Modern.yields_payload`).
-/

namespace SolidityTree.Modern

open Draft Record

variable {r : Json} {p : Payload} {record : NodeId → Json} {kindOf : NodeId → Option Kind}

/-! ### Attributes -/

theorem typeString_eq {s : String} (h : r.get? (typeEntry s).1 = some (typeEntry s).2) :
    typeString r = s := by
  have htext : text (.mkObject [("typeString", .string s)]) "typeString" = s := by
    refine text_eq ?_
    rw [Json.get?_mkObject]
    rfl
  rw [typeString]
  show ((r.get? (typeEntry s).1).map _).getD _ = s
  rw [h, Option.map_some]
  exact htext

theorem nameLocation?_eq {place? : Option Span} (hplace : place?.all (·.Fits))
    (h : r.get? (nameEntry place?).1 = some (nameEntry place?).2) : nameLocation? r = .ok place? :=
  span?_eq hplace h

theorem contract_eq {c : ContractAttributes} (hr : r.Has (entries (.contractDefinition c)))
    (hreadable : (Attributes.contractDefinition c).isReadable) :
    contract r c.docString? = .ok c := by
  obtain ⟨name, scope, kind, isAbstract, fullyImplemented, bases, errors, events, docString?,
    dangling?, place?⟩ := c
  simp only [Attributes.isReadable, Bool.and_eq_true, Option.isNone_iff_eq_none] at hreadable
  obtain ⟨⟨⟨⟨⟨hscope, hbases⟩, herrors⟩, hevents⟩, rfl⟩, hplace⟩ := hreadable
  simp only [entries, Json.has_cons] at hr
  obtain ⟨hname, hscope', hkind, habstract, himplemented, hbases', herrors', hevents', -, -, hplace',
    -⟩ := hr
  have himplemented' : (field? r "fullyImplemented").bind Json.bool? = some fullyImplemented := by
    rw [field?_eq himplemented rfl]
    rfl
  simp only [contract, requiredText_eq hname, reference_eq hscope hscope', word_eq hkind,
    flag_eq habstract, himplemented', ids_eq hbases hbases', ids_eq herrors herrors',
    ids_eq hevents hevents', nameLocation?_eq hplace hplace']
  rfl

theorem function_eq {f : FunctionAttributes} (hr : r.Has (entries (.functionDefinition f)))
    (hreadable : (Attributes.functionDefinition f).isReadable) : function r = .ok f := by
  simp only [Attributes.isReadable, Bool.and_eq_true, decide_eq_true_eq] at hreadable
  obtain ⟨⟨hscope, hconstructor⟩, hplace⟩ := hreadable
  simp only [entries, Json.has_cons] at hr
  obtain ⟨hscope', hkind, hname, hvirtual, hvisibility, hmutability, hplace', -⟩ := hr
  simp only [function, visibility, reference_eq hscope hscope', word?_eq hkind,
    text_eq hname, flag_eq hvirtual, wordD_eq hvisibility, word?_eq hmutability,
    nameLocation?_eq hplace hplace']
  show Except.ok { f with isConstructor := decide (f.kind = .constructor) } = .ok f
  rw [← hconstructor]

theorem variableDeclaration_eq {v : VariableAttributes}
    (hr : r.Has (entries (.variableDeclaration v)))
    (hreadable : (Attributes.variableDeclaration v).isReadable) :
    variableDeclaration r = .ok v := by
  obtain ⟨hscope, hplace⟩ := Bool.and_eq_true_iff.1 hreadable
  simp only [entries, Json.has_cons] at hr
  obtain ⟨hconstant, hindexed, hname, hscope', hstate, hlocation, hvisibility, hmutability, htype,
    hplace', -⟩ := hr
  simp only [variableDeclaration, visibility, flag_eq hconstant, flag_eq hindexed,
    text_eq hname, reference_eq hscope hscope', flag_eq hstate, wordD_eq hlocation,
    wordD_eq hvisibility, wordD_eq hmutability, typeString_eq htype,
    nameLocation?_eq hplace hplace']
  rfl

theorem sourceUnit_eq {u : UnitAttributes} {src : Span} (hr : r.Has (entries (.sourceUnit u)))
    (hreadable : (Attributes.sourceUnit u).isReadable) (hsrc : Record.src r = .ok src)
    (hindex : u.sourceListIndex = src.source) : sourceUnit r = .ok u := by
  obtain ⟨key, index, path, symbols, license?⟩ := u
  simp only [Attributes.isReadable, Bool.and_eq_true, decide_eq_true_eq] at hreadable
  obtain ⟨⟨rfl, hsymbols⟩, hsorted⟩ := hreadable
  obtain rfl : index = src.source := hindex
  simp only [entries, Json.has_cons] at hr
  obtain ⟨hpath, hexported, hlicense, -⟩ := hr
  simp only [sourceUnit, text_eq hpath, hsrc, exportedSymbols_eq hsorted hsymbols hexported,
    text?_eq hlicense]
  rfl

/-- Names of arguments are absent or there is at least one. -/
theorem fieldNames_eq {names? : Option (List String)} (h : names? ≠ some []) :
    (if (names?.getD []).isEmpty then none else some (names?.getD [])) = names? := by
  rcases names? with _ | _ | ⟨name, names⟩
  · rfl
  · contradiction
  · rfl

/-- The attributes of a kind that is read field by field. -/
theorem attributes_eq {a : Attributes} {src : Span} (hkind : a.kind.sorts?.isSome)
    (hr : r.Has (entries a)) (hreadable : a.isReadable) (hsrc : Record.src r = .ok src)
    (hindex : a.unit?.all (·.sourceListIndex = src.source)) (hne : a.kind ≠ .contractDefinition) :
    attributes a.kind r = .ok a := by
  cases a with
  | contractDefinition => contradiction
  | sourceUnit unit =>
    show (sourceUnit r >>= fun u => .ok (Attributes.sourceUnit u)) = _
    rw [sourceUnit_eq hr hreadable hsrc (of_decide_eq_true hindex)]
    rfl
  | variableDeclaration declared =>
    show (variableDeclaration r >>= fun v => .ok (Attributes.variableDeclaration v)) = _
    rw [variableDeclaration_eq hr hreadable]
    rfl
  | functionDefinition function =>
    show (Modern.function r >>= fun f => .ok (Attributes.functionDefinition f)) = _
    rw [function_eq hr hreadable]
    rfl
  | elementaryTypeName typeString name mutability =>
    simp only [entries, Json.has_cons] at hr
    obtain ⟨htype, hname, hmutability, -⟩ := hr
    simp only [attributes, Attributes.kind, typeString_eq htype, requiredText_eq hname,
      wordD_eq hmutability]
    rfl
  | block texts =>
    obtain ⟨docString?, dangling?⟩ := texts
    obtain rfl : dangling? = none := Option.isNone_iff_eq_none.1 hreadable
    simp only [entries, Json.has_cons] at hr
    obtain ⟨hdoc, -⟩ := hr
    simp only [attributes, Attributes.kind, blockTexts, text?_eq hdoc]
    rfl
  | variableDeclarationStatement places =>
    simp only [entries, Json.has_cons] at hr
    obtain ⟨hassignments, -⟩ := hr
    simp only [attributes, Attributes.kind, assignments_eq hreadable hassignments]
    rfl
  | returnStatement parameters =>
    simp only [entries, Json.has_cons] at hr
    obtain ⟨hparameters, -⟩ := hr
    simp only [attributes, Attributes.kind, reference_eq hreadable hparameters]
    rfl
  | assignment typeString operator | binaryOperation typeString operator =>
    simp only [entries, Json.has_cons] at hr
    obtain ⟨htype, hoperator, -⟩ := hr
    simp only [attributes, Attributes.kind, typeString_eq htype, requiredText_eq hoperator]
    rfl
  | unaryOperation typeString isPrefix operator =>
    simp only [entries, Json.has_cons] at hr
    obtain ⟨htype, hprefix, hoperator, -⟩ := hr
    simp only [attributes, Attributes.kind, typeString_eq htype, flag_eq hprefix,
      requiredText_eq hoperator]
    rfl
  | conditional typeString | indexAccess typeString | indexRangeAccess typeString =>
    simp only [entries, Json.has_cons] at hr
    obtain ⟨htype, -⟩ := hr
    simp only [attributes, Attributes.kind, typeString_eq htype]
    rfl
  | identifier typeString name referenced overloaded =>
    rw [Attributes.isReadable, Bool.and_eq_true] at hreadable
    simp only [entries, Json.has_cons] at hr
    obtain ⟨htype, hname, hreferenced, hoverloaded, -⟩ := hr
    simp only [attributes, Attributes.kind, typeString_eq htype, requiredText_eq hname,
      reference_eq hreadable.1 hreferenced, ids_eq hreadable.2 hoverloaded]
    rfl
  | literal l =>
    simp only [entries, Json.has_cons] at hr
    obtain ⟨htype, hkind, hhex, hvalue, hsubdenomination, -⟩ := hr
    simp only [attributes, Attributes.kind, literal, typeString_eq htype, word_eq hkind, text_eq hhex,
      text?_eq hvalue, text?_eq hsubdenomination]
    rfl
  | memberAccess typeString name referenced =>
    simp only [entries, Json.has_cons] at hr
    obtain ⟨htype, hname, hreferenced, -⟩ := hr
    simp only [attributes, Attributes.kind, typeString_eq htype, requiredText_eq hname,
      reference_eq hreadable hreferenced]
    rfl
  | functionCall typeString kind fieldNames? =>
    simp only [entries, Json.has_cons] at hr
    obtain ⟨htype, hkind, hnames, -⟩ := hr
    simp only [attributes, Attributes.kind, typeString_eq htype, word_eq hkind, texts_eq hnames]
    show Except.ok (Attributes.functionCall typeString kind (if _ then none else some _)) = _
    rw [fieldNames_eq (of_decide_eq_true hreadable)]
  | tupleExpression typeString isInlineArray =>
    simp only [entries, Json.has_cons] at hr
    obtain ⟨htype, hinline, -⟩ := hr
    simp only [attributes, Attributes.kind, typeString_eq htype, flag_eq hinline]
    rfl
  | parameterList | expressionStatement | ifStatement | forStatement | whileStatement => rfl
  | _ => contradiction

/-! ### Children -/

theorem yields_one {key : String} {c : NodeId} (h : r.get? key = some (record c))
    (hc : (record c).isObject) : Yields record (one r key) [c] c := by
  have hfield : required r key = .ok (record c) := by
    rw [required, field?_eq h (isNull_of_isObject hc)]
  exact yields_lift hfield (Draft.yields_one c)

theorem field?_optional {key : String} {child? : Option NodeId}
    (h : r.get? key = some (.ofOption record child?)) (hc : ∀ c ∈ child?, (record c).isObject) :
    field? r key = child?.map record := by
  cases child? with
  | none => exact field?_eq_none h
  | some c => exact field?_eq h (isNull_of_isObject (hc c rfl))

theorem yields_optional {key : String} {child? : Option NodeId}
    (h : r.get? key = some (.ofOption record child?)) (hc : ∀ c ∈ child?, (record c).isObject) :
    Yields record (optional r key) child?.toList child? := by
  rw [optional, field?_optional h hc]
  exact Draft.yields_optional hc

theorem yields_many {key : String} {cs : List NodeId}
    (h : r.get? key = some (.ofList record cs)) : Yields record (many r key) cs cs := by
  rw [many, field?_eq h rfl]
  exact yields_all cs

theorem yields_documentation {d? : Option Documentation}
    (h : r.get? "documentation" = some ((Slot.documentation d?).modern record))
    (hc : ∀ c ∈ (Slot.documentation d?).children, (record c).isObject) :
    Yields record (documentation r) (Slot.documentation d?).children d? := by
  rcases d? with _ | text | id
  · rw [documentation, field?_eq_none h]
    exact yields_pure
  · rw [documentation, field?_eq h rfl]
    exact yields_pure
  · have hobject := hc id List.mem_cons_self
    obtain ⟨fields, hfields⟩ := exists_eq_object hobject
    have hfield : field? r "documentation" = some (.object fields) := by
      rw [field?_eq h (isNull_of_isObject hobject), ← hfields]
      rfl
    rw [documentation, hfield]
    show Yields record (Draft.one (.object fields) >>= _) _ _
    rw [← hfields]
    exact (Draft.yields_one id).bind_pure

theorem yields_text {text? : Option String} (h : r.get? "documentation" = some (.text? text?)) :
    Yields record (documentation r) [] (text?.map .text) := by
  cases text? with
  | none => exact @yields_documentation r record none h (by simp)
  | some text => exact @yields_documentation r record (some (.text text)) h (by simp)

/-- A slot is read from the field that it is written to. -/
theorem yields_slot {field : Field} {s : Slot} (hs : s.shape = field.shape)
    (hoperand : field.shape ≠ .operand)
    (hkey : field.shape = .documentation → field.key = "documentation")
    (h : r.get? field.key = some (s.modern record)) (hc : ∀ c ∈ s.children, (record c).isObject) :
    Yields record (slot r field) s.children ⟨s, hs⟩ := by
  obtain ⟨shape, name, key⟩ := field
  obtain rfl : shape = s.shape := hs.symm
  cases s with
  | one c => exact (yields_one h (hc c List.mem_cons_self)).bind_pure
  | optional c? => exact (yields_optional h fun c hmem => hc c (Option.mem_toList.2 hmem)).bind_pure
  | many cs => exact (yields_many h).bind_pure
  | sparse places =>
    have hfield : field? r key = some (.array (places.map (.ofOption record))) := field?_eq h rfl
    have hplaces := (yields_allSparse hc).bind_pure (f := fun places =>
      (⟨.sparse places, rfl⟩ : { s : Slot // s.shape = .sparse }))
    show Yields record (Draft.sparse (field? r key) >>= _) _ _
    rw [hfield]
    exact hplaces
  | documentation d? =>
    obtain rfl : key = "documentation" := hkey rfl
    exact (yields_documentation h hc).bind_pure
  | operand type => exact absurd rfl hoperand

/-- The slots are read in the order in which they are laid out. -/
theorem yields_slots {fields : List Field} {ss : List Slot}
    (hss : Slots.shapes ss = fields.map Field.shape)
    (hfields : ∀ field ∈ fields, field.shape ≠ .operand ∧
      (field.shape = .documentation → field.key = "documentation"))
    (h : r.Has ((fields.zip ss).map fun (field, slot) => (field.key, slot.modern record)))
    (hc : ∀ c ∈ Slots.children ss, (record c).isObject) :
    Yields record (slots r fields) (Slots.children ss) ⟨ss, hss⟩ := by
  induction fields generalizing ss with
  | nil =>
    obtain rfl := List.map_eq_nil_iff.1 hss
    exact yields_pure
  | cons field rest ih =>
    obtain ⟨s, ss, rfl, hs, hrest⟩ := List.map_eq_cons_iff.1 hss
    obtain ⟨hfield, hfields⟩ := List.forall_mem_cons.1 hfields
    obtain ⟨hslot, h⟩ := Json.has_cons.1 h
    have hfirst := yields_slot hs hfield.1 hfield.2 hslot fun c hmem =>
      hc c (List.mem_flatMap.2 ⟨s, List.mem_cons_self, hmem⟩)
    have hothers := ih hrest hfields h fun c hmem => by
      obtain ⟨s', hs', hmem⟩ := List.mem_flatMap.1 hmem
      exact hc c (List.mem_flatMap.2 ⟨s', List.mem_cons_of_mem _ hs', hmem⟩)
    exact hfirst.bind hothers.bind_pure

/-! ### Payloads -/

theorem layout_spec {kind : Kind} (h : kind.sorts?.isSome) :
    ∀ field ∈ kind.layout, field.shape ≠ .operand ∧
      (field.shape = .documentation → field.key = "documentation") := by
  revert h
  cases kind <;> decide

theorem has_slots {head : Head} (hr : r.Has (recordEntries head p record)) :
    r.Has ((p.kind.layout.zip p.slots).map fun (field, slot) => (field.key, slot.modern record)) :=
  hr.mono fun _ h => List.mem_append_left _ (List.mem_append_right _ h)

/-- A contract keeps a text of documentation, and reads it where other kinds have a field. -/
theorem yields_contractDefinition {c : ContractAttributes} {nodes : List NodeId}
    (hr : r.Has (entries (.contractDefinition c)))
    (hnodes : r.get? "nodes" = some (.ofList record nodes))
    (hreadable : (Attributes.contractDefinition c).isReadable) :
    Yields record (contractDefinition r) nodes (.contractDefinition c nodes) := by
  have hcontract := contract_eq hr hreadable
  simp only [entries, Json.has_cons] at hr
  obtain ⟨-, -, -, -, -, -, -, -, hbases, hdoc, -⟩ := hr
  have hdocumentation : Yields record (documentation r) [] (c.docString?.map .text) :=
    yields_text hdoc
  have hbaseContracts : Yields record (many r _) [] [] := yields_many hbases
  refine hdocumentation.bind (hbaseContracts.bind ?_)
  refine (yields_many hnodes).bind_nil ?_
  cases htext : c.docString? <;> rw [htext] at hcontract <;> exact yields_lift hcontract yields_pure

/-- A declaration of variables leaves out the holes of its tuple, and here there are none. -/
theorem yields_variableDeclarationStatement {places : List (Option NodeId)}
    {text? : Option String} {declarations : List NodeId} {value? : Option NodeId}
    (hr : r.Has (entries (.variableDeclarationStatement places)))
    (hdoc : r.get? "documentation" = some (.text? text?))
    (hdeclarations : r.get? "declarations" = some (.ofList record declarations))
    (hvalue : r.get? "initialValue" = some (.ofOption record value?))
    (hreadable : (Attributes.variableDeclarationStatement places).isReadable)
    (hc : ∀ c ∈ declarations ++ value?.toList, (record c).isObject) :
    Yields record (variableDeclarationStatement r) (declarations ++ value?.toList)
      (.variableDeclarationStatement places (text?.map .text) declarations value?) := by
  simp only [entries, Json.has_cons] at hr
  have hassignments := assignments_eq hreadable hr.1
  have hsparse : Draft.sparse (field? r "declarations") =
      allSparse ((declarations.map some).map (.ofOption record)) := by
    rw [field?_eq hdeclarations rfl, List.map_map]
    rfl
  have hsome : (declarations.map some).filterMap id = declarations := by
    rw [List.filterMap_map]
    exact List.filterMap_some
  refine (yields_text hdoc).bind ?_
  have hplaces := @yields_allSparse record (declarations.map some)
  rw [hsome] at hplaces
  rw [hsparse]
  refine (hplaces fun c hmem => hc c (List.mem_append_left _ hmem)).bind ?_
  rw [hsome, hassignments]
  exact (yields_optional hvalue fun c hmem =>
    hc c (List.mem_append_right _ (Option.mem_toList.2 hmem))).bind_pure

/-- **The record is read as the payload.** -/
theorem yields_payload {head : Head} (hr : r.Has (recordEntries head p record))
    (hp : p.Shared kindOf) (hreadable : p.attributes.isReadable)
    (hindex : p.attributes.unit?.all (·.sourceListIndex = head.src.source))
    (hc : ∀ c ∈ p.children, (record c).isObject) :
    Yields record (payload p.kind r) p.children p := by
  have hentries : r.Has (entries p.attributes) :=
    hr.mono fun _ h => List.mem_append_left _ (List.mem_append_left _ h)
  have hsrc : Record.src r = .ok head.src :=
    src_eq head.src_fits (hr _ (List.mem_append_right _ (.tail _ (.tail _ (.head _)))))
  have hkind : p.kind.sorts?.isSome := hp.isSome_sorts?
  have hregular : p.kind ≠ .contractDefinition → Yields record (regular p.kind r) p.children p :=
    fun hne => yields_lift (attributes_eq hkind hentries hreadable hsrc hindex hne)
      (yields_slots p.shapes_eq (layout_spec hkind) (has_slots hr) hc).bind_pure
  cases hp with
  | contractDefinition contract nodes =>
    rw [show (Payload.contractDefinition contract nodes).children = nodes from List.append_nil _]
    exact yields_contractDefinition hentries (has_slots hr _ (.head _)) hreadable
  | variableDeclarationStatement places text? declarations value? =>
    have hslots := has_slots hr
    have hchildren : (Payload.variableDeclarationStatement places (text?.map .text) declarations
        value?).children = declarations ++ value?.toList := by
      cases text? <;> simp [Payload.children, Payload.variableDeclarationStatement, Slots.children,
        Slot.children, Documentation.node?]
    rw [hchildren] at hc ⊢
    refine yields_variableDeclarationStatement hentries ?_ (hslots _ (.tail _ (.head _)))
      (hslots _ (.tail _ (.tail _ (.head _)))) hreadable hc
    cases text? <;> exact hslots _ (.head _)
  | _ => exact hregular (by rintro ⟨⟩)

end SolidityTree.Modern
