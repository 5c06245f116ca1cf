import SolidityTree.Proofs.CommonPart
import SolidityTree.Proofs.Legacy
import SolidityTree.Proofs.ModernRecords

/-!
# Legacy records are read back

The record that a node is written down as in the legacy schema is read as what the schema carries of
the payload of the node (`Legacy.yields_payload`).

The children of a record stand in one array.  Most of them are read by their places, where a part
that may be absent takes a place only if it is there; of two such parts in a row the absent one is
told by its mark.  The children of functions, variables and declarations of variables are told apart
by their kinds.
-/

namespace SolidityTree

@[simp] theorem Slot.children_text (text? : Option String) :
    (Slot.documentation (text?.map .text)).children = [] := by
  cases text? <;> rfl

namespace Legacy

open Draft Record

variable {r : Json} {p : Payload} {record : NodeId → Json} {kindOf : NodeId → Option Kind}
  {head : Head} {text? : Option String}

/-! ### What a record says -/

/-- The record is that of a node with the payload, given the records of the children, and their
kinds are told by these records. -/
structure Written (record : NodeId → Json) (kindOf : NodeId → Option Kind) (p : Payload)
    (src : Span) (r : Json) : Prop where
  attributes_eq : attributes r = .mkObject (attributeEntries p)
  children_eq : r.get? "children" = some (.array (p.slots.flatMap (Slot.legacy record)))
  src_eq : Record.src r = .ok src
  shared : p.Shared kindOf
  isReadable : p.attributes.isReadable
  isObject : ∀ c ∈ p.children, (record c).isObject
  kind?_eq : ∀ c ∈ p.children, kind? (record c) = kindOf c

namespace Written

variable {src : Span}

theorem of_has (hr : r.Has (recordEntries head p record)) (hp : p.Shared kindOf)
    (hreadable : p.attributes.isReadable) (hc : ∀ c ∈ p.children, (record c).isObject)
    (hkind : ∀ c ∈ p.children, kind? (record c) = kindOf c) :
    Written record kindOf p head.src r where
  attributes_eq := by
    rw [attributes, hr _ (.head _)]
    rfl
  children_eq := hr _ (.tail _ (.head _))
  src_eq := Record.src_eq head.src_fits (hr _ (.tail _ (.tail _ (.tail _ (.tail _ (.head _))))))
  shared := hp
  isReadable := hreadable
  isObject := hc
  kind?_eq := hkind

theorem has_attributes (h : Written record kindOf p src r) :
    (attributes r).Has (attributeEntries p) := by
  rw [h.attributes_eq]
  exact Json.has_mkObject (nodup_keys h.shared)

theorem has_entries (h : Written record kindOf p src r) :
    (attributes r).Has (entries p.attributes) :=
  h.has_attributes.mono fun _ hentry => List.mem_append_left _ hentry

theorem docString?_eq (h : Written record kindOf p src r) : docString? r = docText? p :=
  text?_eq (h.has_attributes _ (List.mem_append_right _ (.head _)))

theorem documentation?_eq (h : Written record kindOf p src r)
    (htext : docText? p = text?) : documentation? r = text?.map .text := by
  rw [documentation?, h.docString?_eq, htext]

/-- Without the holes of a tuple, the array holds the records of the children. -/
theorem records_eq (h : Written record kindOf p src r) : records r = p.children.map record := by
  have hslot : ∀ s ∈ p.slots,
      (s.legacy record).filter (fun child => !child.isNull) = s.children.map record := by
    intro s hs
    have hnull : ∀ c ∈ s.children, (!(record c).isNull) = true := fun c hc => by
      rw [isNull_of_isObject (h.isObject c (List.mem_flatMap.2 ⟨s, hs, hc⟩)), Bool.not_false]
    have hall : (s.children.map record).filter (fun child => !child.isNull) =
        s.children.map record := by
      refine List.filter_eq_self.2 fun child hchild => ?_
      obtain ⟨c, hc, rfl⟩ := List.mem_map.1 hchild
      exact hnull c hc
    cases s with
    | sparse places =>
      clear hs hall
      show (places.map (.ofOption record)).filter _ = (places.filterMap id).map record
      induction places with
      | nil => rfl
      | cons place rest ih =>
        cases place with
        | none => exact ih hnull
        | some c =>
          have hc := hnull c List.mem_cons_self
          rw [List.map_cons, List.filter_cons, Json.ofOption, if_pos hc,
            ih fun c' hc' => hnull c' (List.mem_cons_of_mem _ hc')]
          rfl
    | _ => exact hall
  have hflat : ∀ ss ⊆ p.slots, (ss.flatMap (Slot.legacy record)).filter
      (fun child => !child.isNull) = (Slots.children ss).map record := by
    intro ss hss
    induction ss with
    | nil => rfl
    | cons s rest ih =>
      rw [List.flatMap_cons, List.filter_append, hslot s (hss List.mem_cons_self),
        ih fun s' hs' => hss (List.mem_cons_of_mem _ hs'), Slots.children_cons, List.map_append]
  rw [records, h.children_eq]
  exact hflat p.slots (List.Subset.refl _)

end Written

/-! ### Children by place -/

variable {rs : List Json} {index : Nat} {c : NodeId} {c? : Option NodeId} {cs : List NodeId}

theorem yields_child (h : rs[index]? = some (record c)) :
    Yields record (child r rs index) [c] c := by
  rw [child, h]
  exact yields_one c

theorem yields_child? (h : rs[index]? = c?.map record) (hc : ∀ c ∈ c?, (record c).isObject) :
    Yields record (child? rs index) c?.toList c? := by
  rw [child?, h]
  exact yields_optional hc

/-- A part that may be absent is marked by a null attribute if it is. -/
theorem yields_part {name : String}
    (hmark : ((attributes r).get? name).any Json.isNull = c?.isNone)
    (hc : ∀ c ∈ c?, (record c).isObject) :
    Yields record (part r name ((c?.toList ++ cs).map record)) c?.toList (c?, cs.map record) := by
  rw [part, hmark]
  cases c? with
  | none => exact yields_pure
  | some c =>
    have hpart : Yields record (Draft.optional ((some c).map record)) [c] (some c) :=
      yields_optional hc
    exact hpart.bind_pure

/-- Documentation that is a text takes no child. -/
theorem yields_documented (hdoc : documentation? r = text?.map .text)
    (hrs : records r = cs.map record)
    (hkind : ∀ c ∈ cs, kind? (record c) ≠ some .structuredDocumentation) :
    Yields record (documented r) [] (text?.map .text, cs.map record) := by
  unfold documented
  rw [hrs, hdoc]
  cases cs with
  | nil => exact yields_pure
  | cons c rest =>
    have hc := hkind c List.mem_cons_self
    show Yields record (if kind? (record c) = some .structuredDocumentation then _ else _) _ _
    rw [if_neg hc]
    exact yields_pure

/-! ### Children by kind -/

theorem yields_classified (hkind : ∀ c ∈ cs, kind? (record c) = kindOf c) :
    Yields record (classified (cs.map record)) cs (cs.map fun c => (kindOf c, c)) := by
  induction cs with
  | nil => exact yields_pure
  | cons c rest ih =>
    obtain ⟨hc, hrest⟩ := List.forall_mem_cons.1 hkind
    rw [List.map_cons, classified, hc]
    exact (yields_one c).bind (ih hrest).bind_pure

section

variable {xs ys : List NodeId} {p q : Kind → Bool} {test : Option Kind → Bool} {kind : Kind}

theorem any_of_eq {k? : Option Kind} (h : k? = some kind) : k?.any (· = kind) := by
  rw [h]
  exact decide_eq_true rfl

/-- What holds of all kinds of a sort holds of the kind of a child of that sort. -/
theorem of_any {k? : Option Kind} {P : Option Kind → Prop} (h : k?.any p)
    (hP : ∀ kind, p kind → P (some kind)) : P k? := by
  obtain ⟨kind, rfl, hkind⟩ := (Option.any_eq_true _ _).1 h
  exact hP kind hkind

theorem picked_eq_self (h : ∀ c ∈ xs, (kindOf c).any p) (hp : ∀ kind, p kind → test (some kind)) :
    picked test (xs.map fun c => (kindOf c, c)) = xs := by
  have hall : ∀ child ∈ xs.map fun c => (kindOf c, c), test child.1 :=
    List.forall_mem_map.2 fun c hc => of_any (P := fun k? => test k?) (h c hc) hp
  rw [picked, List.filter_eq_self.2 hall, List.map_map]
  exact List.map_id xs

theorem picked_eq_nil (h : ∀ c ∈ xs, (kindOf c).any p) (hp : ∀ kind, p kind → ¬ test (some kind)) :
    picked test (xs.map fun c => (kindOf c, c)) = [] := by
  have hnone : ∀ child ∈ xs.map fun c => (kindOf c, c), ¬ test child.1 :=
    List.forall_mem_map.2 fun c hc => of_any (P := fun k? => ¬ test k?) (h c hc) hp
  rw [picked, List.filter_eq_nil_iff.2 hnone, List.map_nil]

theorem picked_map_append (test : Option Kind → Bool) (xs ys : List NodeId) :
    picked test ((xs ++ ys).map fun c => (kindOf c, c)) =
      picked test (xs.map fun c => (kindOf c, c)) ++ picked test (ys.map fun c => (kindOf c, c)) := by
  rw [List.map_append, picked, List.filter_append, List.map_append]
  rfl

/-- Of children of two sorts, a test that only the first passes picks the first. -/
theorem picked_left (hxs : ∀ c ∈ xs, (kindOf c).any p) (hys : ∀ c ∈ ys, (kindOf c).any q)
    (hp : ∀ kind, p kind → test (some kind)) (hq : ∀ kind, q kind → ¬ test (some kind)) :
    picked test ((xs ++ ys).map fun c => (kindOf c, c)) = xs := by
  rw [picked_map_append, picked_eq_self hxs hp, picked_eq_nil hys hq, List.append_nil]

/-- Of children of two sorts, a test that only the second passes picks the second. -/
theorem picked_right (hxs : ∀ c ∈ xs, (kindOf c).any p) (hys : ∀ c ∈ ys, (kindOf c).any q)
    (hp : ∀ kind, p kind → ¬ test (some kind)) (hq : ∀ kind, q kind → test (some kind)) :
    picked test ((xs ++ ys).map fun c => (kindOf c, c)) = ys := by
  rw [picked_map_append, picked_eq_nil hxs hp, picked_eq_self hys hq, List.nil_append]

/-- A kind that is not of a sort is no kind of the sort. -/
theorem ne_of_sort (hp : ¬ p kind) (k : Kind) (hk : p k) : ¬ decide (some k = some kind) :=
  fun heq => hp (Option.some.inj (of_decide_eq_true heq) ▸ hk)

/-- Children of one kind are told from those of a sort without that kind. -/
theorem ofKind_left (hxs : ∀ c ∈ xs, (kindOf c).any (· = kind)) (hys : ∀ c ∈ ys, (kindOf c).any q)
    (hq : ¬ q kind) : ofKind kind ((xs ++ ys).map fun c => (kindOf c, c)) = xs := by
  show picked (fun k => k = some kind) _ = _
  exact picked_left hxs hys (fun k hk => by simpa using hk) (ne_of_sort hq)

/-- None of the children of two sorts is of a kind of neither. -/
theorem ofKind_eq_nil (hxs : ∀ c ∈ xs, (kindOf c).any p) (hys : ∀ c ∈ ys, (kindOf c).any q)
    (hp : ¬ p kind) (hq : ¬ q kind) :
    ofKind kind ((xs ++ ys).map fun c => (kindOf c, c)) = [] := by
  show picked (fun k => k = some kind) _ = _
  rw [picked_map_append, picked_eq_nil hxs (ne_of_sort hp), picked_eq_nil hys (ne_of_sort hq),
    List.append_nil]

theorem last?_eq {children : List (Option Kind × NodeId)}
    (h : picked test children = c?.toList) : last? test children = c? := by
  show (picked test children).getLast? = c?
  rw [h]
  cases c? <;> rfl

theorem lastOf?_eq_none (hxs : ∀ c ∈ xs, (kindOf c).any p) (hys : ∀ c ∈ ys, (kindOf c).any q)
    (hp : ¬ p kind) (hq : ¬ q kind) :
    lastOf? kind ((xs ++ ys).map fun c => (kindOf c, c)) = none :=
  last?_eq (ofKind_eq_nil hxs hys hp hq)

/-- A child whose kind passes a test is of no kind that fails it. -/
theorem ne_some_of_any {k? : Option Kind} (h : k?.any p) (hkind : ¬ p kind) : k? ≠ some kind := by
  rintro rfl
  exact hkind h

/-- Children of two sorts are no documentation if neither sort has it. -/
theorem not_documentation (hkind : ∀ c ∈ xs ++ ys, kind? (record c) = kindOf c)
    (hxs : ∀ c ∈ xs, (kindOf c).any p) (hys : ∀ c ∈ ys, (kindOf c).any q)
    (hp : ¬ p .structuredDocumentation) (hq : ¬ q .structuredDocumentation) :
    ∀ c ∈ xs ++ ys, kind? (record c) ≠ some .structuredDocumentation := by
  intro c hc
  rw [hkind c hc]
  rcases List.mem_append.1 hc with hc | hc
  · exact ne_some_of_any (hxs c hc) hp
  · exact ne_some_of_any (hys c hc) hq

end

/-! ### Declarations -/

variable {src : Span}

theorem yields_sourceUnit {unit : UnitAttributes} {nodes : List NodeId}
    (h : Written record kindOf (.sourceUnit unit nodes) src r)
    (hindex : unit.sourceListIndex = src.source) :
    Yields record (sourceUnit r) (Payload.sourceUnit unit nodes).children
      (.sourceUnit unit nodes) := by
  have hchildren : (Payload.sourceUnit unit nodes).children = nodes := List.append_nil nodes
  have hrs := h.records_eq
  rw [hchildren] at hrs ⊢
  have ha : (attributes r).Has (entries (.sourceUnit unit)) := h.has_entries
  have hreadable := h.isReadable
  obtain ⟨key, index, path, symbols, license?⟩ := unit
  simp only [entries, Json.has_cons] at ha
  obtain ⟨hpath, hexported, hlicense, -⟩ := ha
  simp only [Attributes.isReadable, Payload.sourceUnit, Bool.and_eq_true, decide_eq_true_eq]
    at hreadable
  obtain ⟨⟨rfl, hsymbols⟩, hsorted⟩ := hreadable
  obtain rfl : index = src.source := hindex
  refine yields_lift h.src_eq ?_
  rw [hrs, text_eq hpath, exportedSymbols_eq hsorted hsymbols hexported, text?_eq hlicense]
  exact (yields_all nodes).bind_pure

/-- The schema has no places for names, and no errors and events that are used. -/
theorem yields_contractDefinition {contract : ContractAttributes} {nodes : List NodeId}
    (h : Written record kindOf (.contractDefinition contract nodes) src r) :
    Yields record (contractDefinition r) (Payload.contractDefinition contract nodes).children
      (Payload.contractDefinition contract nodes).common := by
  have hchildren : (Payload.contractDefinition contract nodes).children = nodes :=
    List.append_nil nodes
  have hrs := h.records_eq
  rw [hchildren] at hrs ⊢
  have ha : (attributes r).Has (entries (.contractDefinition contract)) := h.has_entries
  have hreadable := h.isReadable
  have hdoc : docString? r = contract.docString? := h.docString?_eq
  simp only [Attributes.isReadable, Payload.contractDefinition, Bool.and_eq_true,
    Option.isNone_iff_eq_none] at hreadable
  obtain ⟨⟨⟨⟨⟨hscope, hbases⟩, -⟩, -⟩, hdangling⟩, -⟩ := hreadable
  simp only [entries, Json.has_cons] at ha
  obtain ⟨hname, hscope', hkind, habstract, himplemented, hbases', -⟩ := ha
  unfold contractDefinition
  rw [hrs]
  refine (yields_all nodes).bind_nil ?_
  refine yields_lift (requiredText_eq hname) (yields_lift (word_eq hkind) ?_)
  rw [reference_eq hscope hscope', flag_eq habstract, field?_eq himplemented rfl,
    ids_eq hbases hbases', hdoc, ← hdangling]
  exact yields_pure

/-- A variable is all that its children are not: what is no type name is its value. -/
theorem yields_variableDeclaration {declared : VariableAttributes}
    {typeName? value? : Option NodeId}
    (h : Written record kindOf
      (.variableDeclaration declared (text?.map .text) typeName? none value?) src r)
    (htype : ∀ c ∈ typeName?, kindOf c = some .elementaryTypeName)
    (hvalue : ∀ c ∈ value?, (kindOf c).any Kind.isExpression) :
    Yields record (variableDeclaration r)
      (Payload.variableDeclaration declared (text?.map .text) typeName? none value?).children
      (Payload.variableDeclaration declared (text?.map .text) typeName? none value?).common := by
  have ha : (attributes r).Has (entries (.variableDeclaration declared)) := h.has_entries
  have hdoc : documentation? r = text?.map .text := h.documentation?_eq (by cases text? <;> rfl)
  have hchildren : (Payload.variableDeclaration declared (text?.map .text) typeName? none
      value?).children = typeName?.toList ++ value?.toList := by
    simp [Payload.children, Payload.variableDeclaration]
  have hrs := h.records_eq
  have hkind := h.kind?_eq
  rw [hchildren] at hrs hkind ⊢
  obtain ⟨hscope, -⟩ := Bool.and_eq_true_iff.1 h.isReadable
  have htype' : ∀ c ∈ typeName?.toList, (kindOf c).any Kind.isTypeName := fun c hc => by
    rw [htype c (Option.mem_toList.1 hc)]
    rfl
  have hvalue' : ∀ c ∈ value?.toList, (kindOf c).any Kind.isExpression := fun c hc =>
    hvalue c (Option.mem_toList.1 hc)
  have hne := not_documentation hkind htype' hvalue' (by decide) (by decide)
  simp only [entries, Json.has_cons] at ha
  obtain ⟨hconstant, hindexed, hname, hscope', hstate, hlocation, hvisibility, hmutability, hstring,
    -⟩ := ha
  refine (yields_documented hdoc hrs hne).bind ((yields_classified hkind).bind_nil ?_)
  refine yields_lift (wordD_eq hlocation _) (yields_lift (wordD_eq hvisibility _) ?_)
  refine yields_lift (wordD_eq hmutability _) ?_
  -- no kind is both that of a type name and that of an expression
  have htypes : last? (fun k => k.any Kind.isTypeName)
      ((typeName?.toList ++ value?.toList).map fun c => (kindOf c, c)) = typeName? :=
    last?_eq (picked_left htype' hvalue' (fun _ h => h) fun k => by cases k <;> decide)
  have hvalues : last? (fun k => !k.any Kind.isTypeName && k ≠ some .overrideSpecifier &&
      k ≠ some .structuredDocumentation)
      ((typeName?.toList ++ value?.toList).map fun c => (kindOf c, c)) = value? :=
    last?_eq (picked_right htype' hvalue' (fun k => by cases k <;> decide)
      fun k => by cases k <;> decide)
  show Payload.variableDeclaration _ _ (last? (fun k => k.any Kind.isTypeName) _) _
    (last? (fun k => !k.any Kind.isTypeName && _ && _) _) = _
  rw [htypes, hvalues, lastOf?_eq_none htype' hvalue' (by decide) (by decide),
    lastOf?_eq_none htype' hvalue' (by decide) (by decide), flag_eq hconstant, flag_eq hindexed,
    text_eq hname, reference_eq hscope hscope', flag_eq hstate, typeString, text_eq hstring]
  rfl

/-- The two parameter lists come in order, and the body is no parameter list. -/
theorem yields_functionDefinition {function : FunctionAttributes}
    {parameters returnParameters : NodeId} {body? : Option NodeId}
    (h : Written record kindOf (.functionDefinition function (text?.map .text) parameters none []
      returnParameters body?) src r)
    (hparameters : kindOf parameters = some .parameterList)
    (hreturn : kindOf returnParameters = some .parameterList)
    (hbody : ∀ c ∈ body?, (kindOf c).any Kind.isStatement) :
    Yields record (functionDefinition r)
      (Payload.functionDefinition function (text?.map .text) parameters none []
        returnParameters body?).children
      (Payload.functionDefinition function (text?.map .text) parameters none []
        returnParameters body?).common := by
  have ha : (attributes r).Has (entries (.functionDefinition function)) := h.has_entries
  have hdoc : documentation? r = text?.map .text := h.documentation?_eq (by cases text? <;> rfl)
  have hchildren : (Payload.functionDefinition function (text?.map .text) parameters none []
      returnParameters body?).children = [parameters, returnParameters] ++ body?.toList := by
    simp [Payload.children, Payload.functionDefinition]
  have hrs := h.records_eq
  have hkind := h.kind?_eq
  rw [hchildren] at hrs hkind ⊢
  have hreadable : (Attributes.functionDefinition function).isReadable := h.isReadable
  simp only [Attributes.isReadable, Bool.and_eq_true, decide_eq_true_eq] at hreadable
  obtain ⟨⟨hscope, hconstructor⟩, -⟩ := hreadable
  have hlists : ∀ c ∈ [parameters, returnParameters], (kindOf c).any (· = .parameterList) := by
    simp [hparameters, hreturn]
  have hbody' : ∀ c ∈ body?.toList, (kindOf c).any Kind.isStatement := fun c hc =>
    hbody c (Option.mem_toList.1 hc)
  have hbodies : lastBut? [.parameterList, .overrideSpecifier, .modifierInvocation]
      (([parameters, returnParameters] ++ body?.toList).map fun c => (kindOf c, c)) = body? :=
    last?_eq (picked_right hlists hbody' (fun k => by cases k <;> decide)
      fun k => by cases k <;> decide)
  simp only [entries, Json.has_cons] at ha
  obtain ⟨hscope', hfunction, hname, hvirtual, hvisibility, hmutability, -⟩ := ha
  refine yields_lift (word?_eq hfunction) ?_
  have hne := not_documentation hkind hlists hbody' (by decide) (by decide)
  refine (yields_documented hdoc hrs hne).bind ((yields_classified hkind).bind_nil ?_)
  rw [ofKind_left hlists hbody' (by decide), hbodies,
    lastOf?_eq_none hlists hbody' (by decide) (by decide),
    ofKind_eq_nil hlists hbody' (by decide) (by decide)]
  have hmutability' : stateMutability r = .ok function.stateMutability := by
    rw [stateMutability, word?_eq hmutability]
    rfl
  refine yields_lift (wordD_eq hvisibility _) (yields_lift hmutability' ?_)
  rw [reference_eq hscope hscope', text_eq hname, flag_eq hvirtual, Option.getD_some,
    ← hconstructor]
  exact yields_pure

theorem yields_parameterList {parameters : List NodeId}
    (h : Written record kindOf (.parameterList parameters) src r) :
    Yields record (parameterList r) (Payload.parameterList parameters).children
      (.parameterList parameters) := by
  have hchildren : (Payload.parameterList parameters).children = parameters :=
    List.append_nil parameters
  have hrs := h.records_eq
  rw [hchildren] at hrs ⊢
  unfold parameterList
  rw [hrs]
  exact (yields_all parameters).bind_pure

theorem yields_elementaryTypeName {typeString name : String} {mutability : StateMutability}
    (h : Written record kindOf (.elementaryTypeName typeString name mutability) src r) :
    Yields record (elementaryTypeName r) [] (.elementaryTypeName typeString name mutability) := by
  have ha : (attributes r).Has (entries (.elementaryTypeName typeString name mutability)) :=
    h.has_entries
  simp only [entries, Json.has_cons] at ha
  obtain ⟨htype, hname, hmutability, -⟩ := ha
  refine yields_lift (requiredText_eq hname) (yields_lift (wordD_eq hmutability _) ?_)
  rw [Legacy.typeString, text_eq htype]
  exact yields_pure

/-! ### Statements -/

theorem yields_block {texts : BlockAttributes} {statements : List NodeId}
    (h : Written record kindOf (.block texts statements) src r) :
    Yields record (block r) (Payload.block texts statements).children
      (.block texts statements) := by
  have hchildren : (Payload.block texts statements).children = statements :=
    List.append_nil statements
  have hrs := h.records_eq
  rw [hchildren] at hrs ⊢
  have hdoc : docString? r = texts.docString? := h.docString?_eq
  have hdangling : texts.danglingDocString? = none := Option.isNone_iff_eq_none.1 h.isReadable
  unfold block
  rw [hrs, hdoc, ← hdangling]
  exact (yields_all statements).bind_pure

theorem yields_expressionStatement {expression : NodeId}
    (h : Written record kindOf (.expressionStatement (text?.map .text) expression) src r) :
    Yields record (expressionStatement r)
      (Payload.expressionStatement (text?.map .text) expression).children
      (.expressionStatement (text?.map .text) expression) := by
  have hdoc : documentation? r = text?.map .text := h.documentation?_eq (by cases text? <;> rfl)
  have hchildren : (Payload.expressionStatement (text?.map .text) expression).children =
      [expression] := by
    simp [Payload.children, Payload.expressionStatement]
  have hrs := h.records_eq
  rw [hchildren] at hrs ⊢
  unfold expressionStatement
  rw [hrs, hdoc]
  exact (yields_child rfl).bind_pure

theorem yields_returnStatement {parameters : NodeId} {expression? : Option NodeId}
    (h : Written record kindOf (.returnStatement parameters (text?.map .text) expression?) src r) :
    Yields record (returnStatement r)
      (Payload.returnStatement parameters (text?.map .text) expression?).children
      (.returnStatement parameters (text?.map .text) expression?) := by
  have ha : (attributes r).Has (entries (.returnStatement parameters)) := h.has_entries
  have hdoc : documentation? r = text?.map .text := h.documentation?_eq (by cases text? <;> rfl)
  have hchildren : (Payload.returnStatement parameters (text?.map .text) expression?).children =
      expression?.toList := by
    simp [Payload.children, Payload.returnStatement]
  have hrs := h.records_eq
  have hc := h.isObject
  rw [hchildren] at hrs hc ⊢
  simp only [entries, Json.has_cons] at ha
  unfold returnStatement
  rw [hrs, hdoc, reference_eq h.isReadable ha.1]
  refine (yields_child? ?_ fun c hmem => hc c (Option.mem_toList.2 hmem)).bind_pure
  cases expression? <;> rfl

/-- The variables are told from the initial value by their kind. -/
theorem yields_variableDeclarationStatement {places : List (Option NodeId)}
    {declarations : List NodeId} {value? : Option NodeId}
    (h : Written record kindOf
      (.variableDeclarationStatement places (text?.map .text) declarations value?) src r)
    (hdeclarations : ∀ c ∈ declarations, kindOf c = some .variableDeclaration)
    (hvalue : ∀ c ∈ value?, (kindOf c).any Kind.isExpression) :
    Yields record (variableDeclarationStatement r)
      (Payload.variableDeclarationStatement places (text?.map .text) declarations value?).children
      (.variableDeclarationStatement places (text?.map .text) declarations value?) := by
  have ha : (attributes r).Has (entries (.variableDeclarationStatement places)) := h.has_entries
  have hdoc : documentation? r = text?.map .text := h.documentation?_eq (by cases text? <;> rfl)
  have hchildren : (Payload.variableDeclarationStatement places (text?.map .text) declarations
      value?).children = declarations ++ value?.toList := by
    simp [Payload.children, Payload.variableDeclarationStatement]
  have hrs := h.records_eq
  have hkind := h.kind?_eq
  rw [hchildren] at hrs hkind ⊢
  have hdeclarations' : ∀ c ∈ declarations, (kindOf c).any (· = .variableDeclaration) :=
    fun c hc => any_of_eq (hdeclarations c hc)
  have hvalue' : ∀ c ∈ value?.toList, (kindOf c).any Kind.isExpression := fun c hc =>
    hvalue c (Option.mem_toList.1 hc)
  have hlast : lastBut? [.variableDeclaration]
      ((declarations ++ value?.toList).map fun c => (kindOf c, c)) = value? :=
    last?_eq (picked_right hdeclarations' hvalue' (fun k => by cases k <;> decide)
      fun k => by cases k <;> decide)
  simp only [entries, Json.has_cons] at ha
  unfold variableDeclarationStatement
  rw [hrs, hdoc, assignments_eq h.isReadable ha.1]
  refine (yields_classified hkind).bind_nil ?_
  rw [ofKind_left hdeclarations' hvalue' (by decide), hlast]
  exact yields_pure

theorem yields_ifStatement {condition trueBody : NodeId} {falseBody? : Option NodeId}
    (h : Written record kindOf (.ifStatement (text?.map .text) condition trueBody falseBody?)
      src r) :
    Yields record (ifStatement r)
      (Payload.ifStatement (text?.map .text) condition trueBody falseBody?).children
      (.ifStatement (text?.map .text) condition trueBody falseBody?) := by
  have hdoc : documentation? r = text?.map .text := h.documentation?_eq (by cases text? <;> rfl)
  have hchildren : (Payload.ifStatement (text?.map .text) condition trueBody falseBody?).children =
      [condition, trueBody] ++ falseBody?.toList := by
    simp [Payload.children, Payload.ifStatement]
  have hrs := h.records_eq
  have hc := h.isObject
  rw [hchildren] at hrs hc ⊢
  unfold ifStatement
  rw [hrs, hdoc]
  refine (yields_child rfl).bind ((yields_child rfl).bind ?_)
  refine (yields_child? ?_ fun c hmem => ?_).bind_pure
  · cases falseBody? <;> rfl
  · exact hc c (List.mem_append_right _ (Option.mem_toList.2 hmem))

/-- The body comes after the parts that are there. -/
theorem yields_forStatement {initialization? condition? loop? : Option NodeId} {body : NodeId}
    (h : Written record kindOf
      (.forStatement (text?.map .text) initialization? condition? loop? body) src r) :
    Yields record (forStatement r)
      (Payload.forStatement (text?.map .text) initialization? condition? loop? body).children
      (.forStatement (text?.map .text) initialization? condition? loop? body) := by
  have hdoc : documentation? r = text?.map .text := h.documentation?_eq (by cases text? <;> rfl)
  have hchildren : (Payload.forStatement (text?.map .text) initialization? condition? loop?
      body).children = initialization?.toList ++ (condition?.toList ++ (loop?.toList ++ [body])) := by
    simp [Payload.children, Payload.forStatement]
  have hrs := h.records_eq
  have hc := h.isObject
  rw [hchildren] at hrs hc ⊢
  simp only [List.forall_mem_append, Option.mem_toList] at hc
  obtain ⟨hinitialization, hcondition, hloop, -⟩ := hc
  have hmark : ((attributes r).get? "initializationExpression").any Json.isNull =
        initialization?.isNone ∧
      ((attributes r).get? "condition").any Json.isNull = condition?.isNone ∧
      ((attributes r).get? "loopExpression").any Json.isNull = loop?.isNone := by
    simp only [h.attributes_eq, Json.get?_mkObject]
    cases initialization? <;> cases condition? <;> cases loop? <;> exact ⟨rfl, rfl, rfl⟩
  unfold forStatement
  rw [hrs, hdoc]
  refine (yields_part hmark.1 hinitialization).bind ?_
  refine (yields_part hmark.2.1 hcondition).bind ?_
  refine (yields_part hmark.2.2 hloop).bind ((yields_child ?_).bind_pure)
  cases initialization? <;> cases condition? <;> cases loop? <;> rfl

theorem yields_whileStatement {condition body : NodeId}
    (h : Written record kindOf (.whileStatement (text?.map .text) condition body) src r) :
    Yields record (whileStatement r)
      (Payload.whileStatement (text?.map .text) condition body).children
      (.whileStatement (text?.map .text) condition body) := by
  have hdoc : documentation? r = text?.map .text := h.documentation?_eq (by cases text? <;> rfl)
  have hchildren : (Payload.whileStatement (text?.map .text) condition body).children =
      [condition, body] := by
    simp [Payload.children, Payload.whileStatement]
  have hrs := h.records_eq
  rw [hchildren] at hrs ⊢
  unfold whileStatement
  rw [hrs, hdoc]
  exact (yields_child rfl).bind (yields_child rfl).bind_pure

/-! ### Expressions -/

theorem yields_assignment {typeString operator : String} {left right : NodeId}
    (h : Written record kindOf (.assignment typeString operator left right) src r) :
    Yields record (assignment r) [left, right] (.assignment typeString operator left right) := by
  have ha : (attributes r).Has (entries (.assignment typeString operator)) := h.has_entries
  have hrs : records r = [left, right].map record := h.records_eq
  simp only [entries, Json.has_cons] at ha
  obtain ⟨htype, hoperator, -⟩ := ha
  unfold assignment
  rw [hrs, Legacy.typeString, text_eq htype]
  refine yields_lift (requiredText_eq hoperator) ?_
  exact (yields_child rfl).bind (yields_child rfl).bind_pure

theorem yields_binaryOperation {typeString operator : String} {left right : NodeId}
    (h : Written record kindOf (.binaryOperation typeString operator left right) src r) :
    Yields record (binaryOperation r) [left, right]
      (.binaryOperation typeString operator left right) := by
  have ha : (attributes r).Has (entries (.binaryOperation typeString operator)) := h.has_entries
  have hrs : records r = [left, right].map record := h.records_eq
  simp only [entries, Json.has_cons] at ha
  obtain ⟨htype, hoperator, -⟩ := ha
  unfold binaryOperation
  rw [hrs, Legacy.typeString, text_eq htype]
  refine yields_lift (requiredText_eq hoperator) ?_
  exact (yields_child rfl).bind (yields_child rfl).bind_pure

theorem yields_unaryOperation {typeString operator : String} {isPrefix : Bool} {operand : NodeId}
    (h : Written record kindOf (.unaryOperation typeString isPrefix operator operand) src r) :
    Yields record (unaryOperation r) [operand]
      (.unaryOperation typeString isPrefix operator operand) := by
  have ha : (attributes r).Has (entries (.unaryOperation typeString isPrefix operator)) :=
    h.has_entries
  have hrs : records r = [operand].map record := h.records_eq
  simp only [entries, Json.has_cons] at ha
  obtain ⟨htype, hflag, hoperator, -⟩ := ha
  refine yields_lift (requiredText_eq hoperator) ?_
  rw [hrs, Legacy.typeString, text_eq htype, flag_eq hflag]
  exact (yields_child rfl).bind_pure

theorem yields_conditional {typeString : String}
    {condition trueExpression falseExpression : NodeId}
    (h : Written record kindOf (.conditional typeString condition trueExpression falseExpression)
      src r) :
    Yields record (conditional r) [condition, trueExpression, falseExpression]
      (.conditional typeString condition trueExpression falseExpression) := by
  have ha : (attributes r).Has (entries (.conditional typeString)) := h.has_entries
  have hrs : records r = [condition, trueExpression, falseExpression].map record := h.records_eq
  simp only [entries, Json.has_cons] at ha
  unfold conditional
  rw [hrs, Legacy.typeString, text_eq ha.1]
  exact (yields_child rfl).bind ((yields_child rfl).bind (yields_child rfl).bind_pure)

theorem yields_identifier {typeString name : String} {referenced : NodeId}
    {overloaded : List NodeId}
    (h : Written record kindOf (.identifier typeString name referenced overloaded) src r) :
    Yields record (identifier r) [] (.identifier typeString name referenced overloaded) := by
  have ha : (attributes r).Has (entries (.identifier typeString name referenced overloaded)) :=
    h.has_entries
  obtain ⟨hreferenced, hoverloaded⟩ := Bool.and_eq_true_iff.1 h.isReadable
  simp only [entries, Json.has_cons] at ha
  obtain ⟨htype, hname, hreferenced', hoverloaded', -⟩ := ha
  refine yields_lift (requiredText_eq hname) ?_
  rw [Legacy.typeString, text_eq htype, reference_eq hreferenced hreferenced',
    ids_eq hoverloaded hoverloaded']
  exact yields_pure

theorem yields_literal {l : LiteralAttributes} (h : Written record kindOf (.literal l) src r) :
    Yields record (literal r) [] (.literal l) := by
  have ha : (attributes r).Has (entries (.literal l)) := h.has_entries
  simp only [entries, Json.has_cons] at ha
  obtain ⟨htype, hkind, hhex, hvalue, hsubdenomination, -⟩ := ha
  refine yields_lift (wordD_eq hkind _) ?_
  rw [typeString, text_eq htype, text_eq hhex, text?_eq hvalue, text?_eq hsubdenomination]
  exact yields_pure

theorem yields_memberAccess {typeString name : String} {referenced expression : NodeId}
    (h : Written record kindOf (.memberAccess typeString name referenced expression) src r) :
    Yields record (memberAccess r) [expression]
      (.memberAccess typeString name referenced expression) := by
  have ha : (attributes r).Has (entries (.memberAccess typeString name referenced)) :=
    h.has_entries
  have hrs : records r = [expression].map record := h.records_eq
  simp only [entries, Json.has_cons] at ha
  obtain ⟨htype, hname, hreferenced, -⟩ := ha
  refine yields_lift (requiredText_eq hname) ?_
  rw [hrs, Legacy.typeString, text_eq htype, reference_eq h.isReadable hreferenced]
  exact (yields_child rfl).bind_pure

theorem yields_indexAccess {typeString : String} {base : NodeId} {index? : Option NodeId}
    (h : Written record kindOf (.indexAccess typeString base index?) src r) :
    Yields record (indexAccess r) (Payload.indexAccess typeString base index?).children
      (.indexAccess typeString base index?) := by
  have ha : (attributes r).Has (entries (.indexAccess typeString)) := h.has_entries
  have hchildren : (Payload.indexAccess typeString base index?).children =
      [base] ++ index?.toList := by
    simp [Payload.children, Payload.indexAccess]
  have hrs := h.records_eq
  have hc := h.isObject
  rw [hchildren] at hrs hc ⊢
  simp only [entries, Json.has_cons] at ha
  unfold indexAccess
  rw [hrs, Legacy.typeString, text_eq ha.1]
  refine (yields_child rfl).bind (yields_child? ?_ fun c hmem => ?_).bind_pure
  · cases index? <;> rfl
  · exact hc c (List.mem_append_right _ (Option.mem_toList.2 hmem))

theorem yields_indexRangeAccess {typeString : String} {base : NodeId}
    {start? stop? : Option NodeId}
    (h : Written record kindOf (.indexRangeAccess typeString base start? stop?) src r) :
    Yields record (indexRangeAccess r)
      (Payload.indexRangeAccess typeString base start? stop?).children
      (.indexRangeAccess typeString base start? stop?) := by
  have ha : (attributes r).Has (entries (.indexRangeAccess typeString)) := h.has_entries
  have hchildren : (Payload.indexRangeAccess typeString base start? stop?).children =
      [base] ++ (start?.toList ++ (stop?.toList ++ [])) := by
    simp [Payload.children, Payload.indexRangeAccess]
  have hrs := h.records_eq
  have hc := h.isObject
  rw [hchildren] at hrs hc ⊢
  simp only [List.forall_mem_append, Option.mem_toList] at hc
  obtain ⟨-, hstart, hstop, -⟩ := hc
  have hmark : ((attributes r).get? "startExpression").any Json.isNull = start?.isNone ∧
      ((attributes r).get? "endExpression").any Json.isNull = stop?.isNone := by
    simp only [h.attributes_eq, Json.get?_mkObject]
    cases start? <;> cases stop? <;> exact ⟨rfl, rfl⟩
  simp only [entries, Json.has_cons] at ha
  unfold indexRangeAccess
  rw [hrs, Legacy.typeString, text_eq ha.1]
  refine (yields_child rfl).bind ((yields_part hmark.1 hstart).bind ?_)
  exact (yields_part hmark.2 hstop).bind yields_pure

theorem yields_functionCall {typeString : String} {kind : CallKind}
    {fieldNames? : Option (List String)} {expression : NodeId} {arguments : List NodeId}
    (h : Written record kindOf (.functionCall typeString kind fieldNames? expression arguments)
      src r) :
    Yields record (functionCall r)
      (Payload.functionCall typeString kind fieldNames? expression arguments).children
      (.functionCall typeString kind fieldNames? expression arguments) := by
  have ha : (attributes r).Has (entries (.functionCall typeString kind fieldNames?)) :=
    h.has_entries
  have hnames : fieldNames? ≠ some [] := of_decide_eq_true h.isReadable
  have hchildren : (Payload.functionCall typeString kind fieldNames? expression
      arguments).children = [expression] ++ arguments := by
    simp [Payload.children, Payload.functionCall]
  have hrs := h.records_eq
  rw [hchildren] at hrs ⊢
  simp only [entries, Json.has_cons] at ha
  obtain ⟨htype, hkind, hnames', -⟩ := ha
  refine yields_lift (word?_eq hkind) ?_
  rw [hrs, Legacy.typeString, text_eq htype, texts_eq hnames']
  refine (yields_child rfl).bind ((yields_all arguments).bind_nil ?_)
  rw [Modern.fieldNames_eq hnames]
  exact yields_pure

/-- The array holds a null value for each hole of the tuple. -/
theorem yields_tupleExpression {typeString : String} {isInlineArray : Bool}
    {components : List (Option NodeId)}
    (h : Written record kindOf (.tupleExpression typeString isInlineArray components) src r) :
    Yields record (tupleExpression r)
      (Payload.tupleExpression typeString isInlineArray components).children
      (.tupleExpression typeString isInlineArray components) := by
  have ha : (attributes r).Has (entries (.tupleExpression typeString isInlineArray)) :=
    h.has_entries
  have hchildren : (Payload.tupleExpression typeString isInlineArray components).children =
      components.filterMap id := List.append_nil _
  have hc := h.isObject
  rw [hchildren] at hc ⊢
  have harray : Draft.sparse (r.get? "children") = allSparse (components.map (.ofOption record)) := by
    rw [h.children_eq]
    exact congrArg allSparse (List.append_nil _)
  simp only [entries, Json.has_cons] at ha
  unfold tupleExpression
  rw [harray, Legacy.typeString, text_eq ha.1, flag_eq ha.2.1]
  exact (yields_allSparse hc).bind_pure

/-! ### All kinds -/

/-- **The record is read as what the schema carries of the payload.** -/
theorem yields_payload (h : Written record kindOf p src r)
    (hindex : p.attributes.unit?.all (·.sourceListIndex = src.source)) :
    ∃ draft, payload? p.kind = some draft ∧ Yields record (draft r) p.children p.common := by
  have hp := h.shared
  cases hp with
  | sourceUnit unit nodes => exact ⟨_, rfl, yields_sourceUnit h (of_decide_eq_true hindex)⟩
  | contractDefinition => exact ⟨_, rfl, yields_contractDefinition h⟩
  | variableDeclaration declared text? typeName? value? htype hvalue =>
    exact ⟨_, rfl, yields_variableDeclaration h htype hvalue⟩
  | elementaryTypeName => exact ⟨_, rfl, yields_elementaryTypeName h⟩
  | functionDefinition function text? parameters returnParameters body? hparameters hreturn hbody =>
    exact ⟨_, rfl, yields_functionDefinition h hparameters hreturn hbody⟩
  | parameterList => exact ⟨_, rfl, yields_parameterList h⟩
  | block => exact ⟨_, rfl, yields_block h⟩
  | expressionStatement => exact ⟨_, rfl, yields_expressionStatement h⟩
  | variableDeclarationStatement places text? declarations value? hdeclarations hvalue =>
    exact ⟨_, rfl, yields_variableDeclarationStatement h hdeclarations hvalue⟩
  | returnStatement => exact ⟨_, rfl, yields_returnStatement h⟩
  | ifStatement => exact ⟨_, rfl, yields_ifStatement h⟩
  | forStatement => exact ⟨_, rfl, yields_forStatement h⟩
  | whileStatement => exact ⟨_, rfl, yields_whileStatement h⟩
  | assignment => exact ⟨_, rfl, yields_assignment h⟩
  | binaryOperation => exact ⟨_, rfl, yields_binaryOperation h⟩
  | unaryOperation => exact ⟨_, rfl, yields_unaryOperation h⟩
  | conditional => exact ⟨_, rfl, yields_conditional h⟩
  | identifier => exact ⟨_, rfl, yields_identifier h⟩
  | literal => exact ⟨_, rfl, yields_literal h⟩
  | memberAccess => exact ⟨_, rfl, yields_memberAccess h⟩
  | indexAccess => exact ⟨_, rfl, yields_indexAccess h⟩
  | indexRangeAccess => exact ⟨_, rfl, yields_indexRangeAccess h⟩
  | functionCall => exact ⟨_, rfl, yields_functionCall h⟩
  | tupleExpression => exact ⟨_, rfl, yields_tupleExpression h⟩

end Legacy

end SolidityTree
