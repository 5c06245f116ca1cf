import SolidityTree.Output
import SolidityTree.Proofs.Values

/-!
# Trees and their records

A tree by itself, outside any forest, can be written down as a record of either schema
(`Tree.render`).  A modern record keeps each attribute and each slot under the key that the modern
schema reads it from; a legacy record keeps the attributes under `attributes`, in the words of the
legacy schema, and the records of the children in the order of the slots under `children`.

Only trees of some kinds are written down faithfully: the table `Kind.sorts?` lists them, with what
each of their slots takes, and `Tree.WellSorted` says that a tree keeps to it.
-/

namespace SolidityTree

/-! ### Trees -/

/-- The identity of a node and its place in a source, all in signed 64-bit words. -/
structure Head where
  id : NodeId
  src : Span
  id_fits : Word.isSigned id := by decide
  src_fits : src.Fits := by decide

/-- A tree: what its root is, and the trees of the children that the payload of the root names. -/
inductive Tree where
  | node (head : Head) (payload : Payload) (children : List Tree)

namespace Tree

mutual

/-- Computes a value of a tree from the values of the trees below it. -/
def fold {α : Type} (f : Head → Payload → List Tree → List α → α) : Tree → α
  | .node head payload children => f head payload children (foldAll f children)

/-- The values of some trees. -/
def foldAll {α : Type} (f : Head → Payload → List Tree → List α → α) : List Tree → List α
  | [] => []
  | t :: rest => fold f t :: foldAll f rest

end

theorem foldAll_eq_map {α : Type} (f : Head → Payload → List Tree → List α → α) (ts : List Tree) :
    foldAll f ts = ts.map (fold f) := by
  induction ts with
  | nil => rfl
  | cons t rest ih => rw [foldAll, ih, List.map_cons]

theorem fold_node {α : Type} (f : Head → Payload → List Tree → List α → α) (head : Head)
    (payload : Payload) (ts : List Tree) :
    fold f (.node head payload ts) = f head payload ts (ts.map (fold f)) := by
  rw [fold, foldAll_eq_map]

/-- What holds of a tree whenever it holds of the trees below its root holds of all trees. -/
@[induction_eliminator]
theorem induction {P : Tree → Prop}
    (node : ∀ head payload ts, (∀ t ∈ ts, P t) → P (.node head payload ts)) (t : Tree) : P t :=
  @Tree.rec P (fun ts => ∀ t ∈ ts, P t) node (by simp)
    (fun _ _ ht hrest => List.forall_mem_cons.2 ⟨ht, hrest⟩) t

/-- The id of the root. -/
def id : Tree → NodeId
  | .node head _ _ => head.id

/-- The place of the root in its source. -/
def src : Tree → Span
  | .node head _ _ => head.src

/-- The payload of the root. -/
def payload : Tree → Payload
  | .node _ payload _ => payload

/-- The kind of the root. -/
def kind (t : Tree) : Kind := t.payload.kind

/-- How many levels the tree has. -/
def height : Tree → Nat := fold fun _ _ _ heights => heights.foldr max 0 + 1

/-- The tree and all trees below its root, in pre-order. -/
def subtrees : Tree → List Tree :=
  fold fun head payload ts lists => .node head payload ts :: lists.flatten

/-- The ids of all nodes, in pre-order. -/
def ids (t : Tree) : List NodeId := t.subtrees.map id

/-- The value that belongs to the tree with the given id among some trees. -/
def among {α : Type} (ts : List Tree) (values : List α) (c : NodeId) : Option α :=
  ((ts.map id).zip values).lookup c

end Tree

/-! ### Modern records -/

/-- A slot as the value of its field, given the records of the children. -/
def Slot.modern (record : NodeId → Json) : Slot → Json
  | .one child => record child
  | .optional child? => .ofOption record child?
  | .many children => .ofList record children
  | .sparse places => .ofList (.ofOption record) places
  | .documentation none => .null
  | .documentation (some (.text s)) => .string s
  | .documentation (some (.node id)) => record id
  | .operand (.name s) => .string s
  | .operand (.node id) => record id

namespace Modern

/-- The type of an expression or a type name. -/
def typeEntry (typeString : String) : String × Json :=
  ("typeDescriptions", .mkObject [("typeString", .string typeString)])

/-- The place of the name of a declaration. -/
def nameEntry (nameLocation? : Option Span) : String × Json :=
  ("nameLocation", .ofOption (fun s => .string s.text) nameLocation?)

/-- The attributes under the keys that they are read from. -/
def entries : Attributes → List (String × Json)
  | .sourceUnit u =>
    [("absolutePath", .string u.absolutePath),
     ("exportedSymbols", .mkObject (u.exportedSymbols.map fun (name, id) => (name, .ids [id]))),
     ("license", .text? u.license?)]
  | .contractDefinition c =>
    [("name", .string c.name), ("scope", .int c.scope), ("contractKind", .ofWord c.kind),
     ("abstract", .bool c.isAbstract), ("fullyImplemented", .bool c.fullyImplemented),
     ("linearizedBaseContracts", .ids c.linearizedBaseContracts),
     ("usedErrors", .ids c.usedErrors), ("usedEvents", .ids c.usedEvents),
     ("baseContracts", .array []), ("documentation", .text? c.docString?),
     nameEntry c.nameLocation?]
  | .variableDeclaration v =>
    [("constant", .bool v.constant), ("indexed", .bool v.indexed), ("name", .string v.name),
     ("scope", .int v.scope), ("stateVariable", .bool v.stateVariable),
     ("storageLocation", .ofWord v.storageLocation), ("visibility", .ofWord v.visibility),
     ("mutability", .ofWord v.mutability), typeEntry v.typeString, nameEntry v.nameLocation?]
  | .elementaryTypeName typeString name stateMutability =>
    [typeEntry typeString, ("name", .string name), ("stateMutability", .ofWord stateMutability)]
  | .functionDefinition f =>
    [("scope", .int f.scope), ("kind", .ofWord f.kind), ("name", .string f.name),
     ("virtual", .bool f.isVirtual), ("visibility", .ofWord f.visibility),
     ("stateMutability", .ofWord f.stateMutability), nameEntry f.nameLocation?]
  | .block b => [("documentation", .text? b.docString?)]
  | .variableDeclarationStatement assignments =>
    [("assignments", .ofList (.ofOption .int) assignments)]
  | .returnStatement parameters => [("functionReturnParameters", .int parameters)]
  | .assignment typeString operator | .binaryOperation typeString operator =>
    [typeEntry typeString, ("operator", .string operator)]
  | .unaryOperation typeString isPrefix operator =>
    [typeEntry typeString, ("prefix", .bool isPrefix), ("operator", .string operator)]
  | .conditional typeString | .indexAccess typeString | .indexRangeAccess typeString =>
    [typeEntry typeString]
  | .identifier typeString name referenced overloaded =>
    [typeEntry typeString, ("name", .string name), ("referencedDeclaration", .int referenced),
     ("overloadedDeclarations", .ids overloaded)]
  | .literal l =>
    [typeEntry l.typeString, ("kind", .ofWord l.kind), ("hexValue", .string l.hexValue),
     ("value", .text? l.value?), ("subdenomination", .text? l.subdenomination?)]
  | .memberAccess typeString memberName referenced =>
    [typeEntry typeString, ("memberName", .string memberName),
     ("referencedDeclaration", .int referenced)]
  | .functionCall typeString kind fieldNames? =>
    [typeEntry typeString, ("kind", .ofWord kind),
     ("names", .ofList .string (fieldNames?.getD []))]
  | .tupleExpression typeString isInlineArray =>
    [typeEntry typeString, ("isInlineArray", .bool isInlineArray)]
  | _ => []

/-- All entries of a record, the attributes before the children. -/
def recordEntries (head : Head) (p : Payload) (record : NodeId → Json) : List (String × Json) :=
  entries p.attributes ++
    (p.kind.layout.zip p.slots).map (fun (field, slot) => (field.key, slot.modern record)) ++
    [("id", .int head.id), ("nodeType", .ofWord p.kind), ("src", .string head.src.text)]

end Modern

/-! ### Legacy records -/

/-- The records in a slot, with a null value for each hole. -/
def Slot.legacy (record : NodeId → Json) : Slot → List Json
  | .sparse places => places.map (.ofOption record)
  | slot => slot.children.map record

namespace Legacy

/-- The attributes under the keys that they are read from.  The schema has no place for names, and
no errors and events that are used. -/
def entries : Attributes → List (String × Json)
  | .sourceUnit u =>
    [("absolutePath", .string u.absolutePath),
     ("exportedSymbols", .mkObject (u.exportedSymbols.map fun (name, id) => (name, .ids [id]))),
     ("license", .text? u.license?)]
  | .contractDefinition c =>
    [("name", .string c.name), ("scope", .int c.scope), ("contractKind", .ofWord c.kind),
     ("abstract", .bool c.isAbstract), ("fullyImplemented", .bool c.fullyImplemented),
     ("linearizedBaseContracts", .ids c.linearizedBaseContracts)]
  | .variableDeclaration v =>
    [("constant", .bool v.constant), ("indexed", .bool v.indexed), ("name", .string v.name),
     ("scope", .int v.scope), ("stateVariable", .bool v.stateVariable),
     ("storageLocation", .ofWord v.storageLocation), ("visibility", .ofWord v.visibility),
     ("mutability", .ofWord v.mutability), ("type", .string v.typeString)]
  | .elementaryTypeName typeString name stateMutability =>
    [("type", .string typeString), ("name", .string name),
     ("stateMutability", .ofWord stateMutability)]
  | .functionDefinition f =>
    [("scope", .int f.scope), ("kind", .ofWord f.kind), ("name", .string f.name),
     ("virtual", .bool f.isVirtual), ("visibility", .ofWord f.visibility),
     ("stateMutability", .ofWord f.stateMutability)]
  | .variableDeclarationStatement assignments =>
    [("assignments", .ofList (.ofOption .int) assignments)]
  | .returnStatement parameters => [("functionReturnParameters", .int parameters)]
  | .assignment typeString operator | .binaryOperation typeString operator =>
    [("type", .string typeString), ("operator", .string operator)]
  | .unaryOperation typeString isPrefix operator =>
    [("type", .string typeString), ("prefix", .bool isPrefix), ("operator", .string operator)]
  | .conditional typeString | .indexAccess typeString | .indexRangeAccess typeString =>
    [("type", .string typeString)]
  | .identifier typeString name referenced overloaded =>
    [("type", .string typeString), ("value", .string name),
     ("referencedDeclaration", .int referenced), ("overloadedDeclarations", .ids overloaded)]
  | .literal l =>
    [("type", .string l.typeString), ("token", .ofWord l.kind), ("hexvalue", .string l.hexValue),
     ("value", .text? l.value?), ("subdenomination", .text? l.subdenomination?)]
  | .memberAccess typeString memberName referenced =>
    [("type", .string typeString), ("member_name", .string memberName),
     ("referencedDeclaration", .int referenced)]
  | .functionCall typeString kind fieldNames? =>
    [("type", .string typeString), ("kind", .ofWord kind),
     ("names", .ofList .string (fieldNames?.getD []))]
  | .tupleExpression typeString isInlineArray =>
    [("type", .string typeString), ("isInlineArray", .bool isInlineArray)]
  | _ => []

/-- The text of documentation, from wherever the kind keeps it. -/
def docText? (p : Payload) : Option String :=
  match p.attributes.docStrings?, p.documentation? with
  | some (text?, _), _ => text?
  | none, some (some (.text s)) => some s
  | none, _ => none

/-- Whether absent parts of the kind are marked by null attributes. -/
def marksParts : Kind → Bool
  | .forStatement | .indexRangeAccess => true
  | _ => false

/-- The marks of absent parts. -/
def marks (p : Payload) : List (String × Json) :=
  if marksParts p.kind then
    (p.kind.layout.zip p.slots).filterMap fun (field, slot) =>
      if slot = .optional none then some (field.key, .null) else none
  else []

/-- All attributes of a record. -/
def attributeEntries (p : Payload) : List (String × Json) :=
  entries p.attributes ++ ("documentation", .text? (docText? p)) :: marks p

/-- All entries of a record. -/
def recordEntries (head : Head) (p : Payload) (record : NodeId → Json) : List (String × Json) :=
  [("attributes", .mkObject (attributeEntries p)),
   ("children", .array (p.slots.flatMap (Slot.legacy record))), ("id", .int head.id),
   ("name", .ofWord p.kind), ("src", .string head.src.text)]

end Legacy

/-! ### Both -/

/-- The entries of a record of the schema. -/
def Schema.recordEntries :
    Schema → Head → Payload → (NodeId → Json) → List (String × Json)
  | .legacy => Legacy.recordEntries
  | .modern => Modern.recordEntries

/-- The tree as a record of the schema. -/
def Tree.render (schema : Schema) : Tree → Json :=
  fold fun head payload ts records =>
    .mkObject (schema.recordEntries head payload fun c => (among ts records c).getD .null)

/-! ### Sorts -/

/-- Whether nodes of the kind are Solidity statements. -/
def Kind.isStatement : Kind → Bool
  | .block | .breakStatement | .continueStatement | .doWhileStatement | .emitStatement
  | .expressionStatement | .forStatement | .ifStatement | .inlineAssembly | .placeholderStatement
  | .returnStatement | .revertStatement | .throwStatement | .tryStatement | .uncheckedBlock
  | .variableDeclarationStatement | .whileStatement => true
  | _ => false

/-- The kinds that both schemas have on the same terms, with the kinds of children that each slot
takes.  No slot for documentation or overrides takes a child. -/
def Kind.sorts? : Kind → Option (List (Kind → Bool))
  | .sourceUnit | .contractDefinition | .block => some [any]
  | .variableDeclaration => some [nothing, (· = .elementaryTypeName), nothing, isExpression]
  | .elementaryTypeName | .identifier | .literal => some []
  | .functionDefinition =>
    some [nothing, (· = .parameterList), nothing, nothing, (· = .parameterList), isStatement]
  | .parameterList => some [(· = .variableDeclaration)]
  | .expressionStatement | .returnStatement => some [nothing, isExpression]
  | .variableDeclarationStatement =>
    some [nothing, (· = .variableDeclaration), isExpression]
  | .ifStatement => some [nothing, isExpression, isStatement, isStatement]
  | .forStatement => some [nothing, any, isExpression, any, isStatement]
  | .whileStatement => some [nothing, isExpression, isStatement]
  | .assignment | .binaryOperation | .indexAccess | .functionCall =>
    some [isExpression, isExpression]
  | .unaryOperation | .memberAccess | .tupleExpression => some [isExpression]
  | .conditional | .indexRangeAccess => some [isExpression, isExpression, isExpression]
  | _ => none
where
  any (_ : Kind) : Bool := true
  nothing (_ : Kind) : Bool := false

/-- Whether the kind is one of those, and every slot holds children that it takes. -/
def Payload.isSorted (kindOf : NodeId → Option Kind) (p : Payload) : Bool :=
  p.kind.sorts?.any fun sorts =>
    (sorts.zip p.slots).all fun (accepts, slot) => slot.children.all fun c => (kindOf c).any accepts

/-- Whether a modern record can be read as these attributes: all numbers fit signed 64-bit words,
and the fields that are derived from others agree with them. -/
def Attributes.isReadable : Attributes → Bool
  | .sourceUnit u =>
    u.sourceEntryKey = u.absolutePath && u.exportedSymbols.all (Word.isSigned ·.2) &&
      u.exportedSymbols.Pairwise (·.1 < ·.1)
  | .contractDefinition c =>
    Word.isSigned c.scope && c.linearizedBaseContracts.all Word.isSigned &&
      c.usedErrors.all Word.isSigned && c.usedEvents.all Word.isSigned &&
      c.danglingDocString?.isNone && c.nameLocation?.all (·.Fits)
  | .variableDeclaration v => Word.isSigned v.scope && v.nameLocation?.all (·.Fits)
  | .functionDefinition f =>
    Word.isSigned f.scope && f.isConstructor = decide (f.kind = .constructor) &&
      f.nameLocation?.all (·.Fits)
  | .block b => b.danglingDocString?.isNone
  | .variableDeclarationStatement assignments => assignments.all (·.all Word.isSigned)
  | .returnStatement parameters => Word.isSigned parameters
  | .identifier _ _ referenced overloaded =>
    Word.isSigned referenced && overloaded.all Word.isSigned
  | .memberAccess _ _ referenced => Word.isSigned referenced
  | .functionCall _ _ fieldNames? => fieldNames? ≠ some []
  | _ => true

namespace Tree

/-- Whether the root fits the trees below it, and a modern record can be read as it. -/
def isSound : Tree → Bool
  | .node head payload ts =>
    payload.children = ts.map id && payload.isSorted (among ts (ts.map kind)) &&
      payload.attributes.isReadable &&
      payload.attributes.unit?.all (·.sourceListIndex = head.src.source)

/-- Every node of the tree fits its children, and a modern record can be read as it. -/
def WellSorted (t : Tree) : Prop := ∀ s ∈ t.subtrees, s.isSound

instance (t : Tree) : Decidable t.WellSorted := inferInstanceAs (Decidable (∀ s ∈ t.subtrees, _))

end Tree

/-! ### Payloads of these kinds -/

/-- What a slot of a shape holds. -/
def Shape.Content : Shape → Type
  | .one => NodeId
  | .optional => Option NodeId
  | .many => List NodeId
  | .sparse => List (Option NodeId)
  | .documentation => Option Documentation
  | .operand => Operand

/-- The slot of a shape with what it holds. -/
def Slot.of : (shape : Shape) → shape.Content → Slot
  | .one => .one
  | .optional => .optional
  | .many => .many
  | .sparse => .sparse
  | .documentation => .documentation
  | .operand => .operand

namespace Slots

/-- What slots of the shapes hold, one after another. -/
def Contents : List Shape → Type
  | [] => Unit
  | shape :: rest => shape.Content × Contents rest

/-- The slots of the shapes with what they hold. -/
def of : (shapes : List Shape) → Contents shapes → List Slot
  | [], _ => []
  | shape :: rest, (content, contents) => .of shape content :: of rest contents

/-- Slots are given by their shapes and what they hold. -/
theorem exists_contents (slots : List Slot) : ∃ contents, slots = of (shapes slots) contents := by
  induction slots with
  | nil => exact ⟨(), rfl⟩
  | cons slot rest ih =>
    obtain ⟨contents, hrest⟩ := ih
    have hslot : ∃ content, slot = .of slot.shape content := by cases slot <;> exact ⟨_, rfl⟩
    obtain ⟨content, hslot⟩ := hslot
    exact ⟨(content, contents), congrArg₂ List.cons hslot hrest⟩

theorem exists_of_shapes {slots : List Slot} {expected : List Shape} (h : shapes slots = expected) :
    ∃ contents, slots = of expected contents := h ▸ exists_contents slots

/-- Every slot holds children that its sort takes. -/
def Sorted (kindOf : NodeId → Option Kind) : List (Kind → Bool) → List Slot → Prop
  | accepts :: sorts, slot :: slots =>
    (∀ c ∈ slot.children, (kindOf c).any accepts) ∧ Sorted kindOf sorts slots
  | _, _ => True

theorem sorted_of_all {kindOf : NodeId → Option Kind} {sorts : List (Kind → Bool)}
    {slots : List Slot} (h : (sorts.zip slots).all fun (accepts, slot) =>
      slot.children.all fun c => (kindOf c).any accepts) : Sorted kindOf sorts slots := by
  induction sorts generalizing slots with
  | nil => trivial
  | cons accepts sorts ih =>
    cases slots with
    | nil => trivial
    | cons slot slots =>
      obtain ⟨hslot, hslots⟩ := Bool.and_eq_true_iff.1 h
      exact ⟨List.all_eq_true.1 hslot, ih hslots⟩

end Slots

namespace Payload

variable {kindOf : NodeId → Option Kind}

/-- The payloads of these kinds, with what is known of children that a legacy record tells apart by
their kinds. -/
inductive Shared (kindOf : NodeId → Option Kind) : Payload → Prop
  | sourceUnit unit nodes : Shared kindOf (.sourceUnit unit nodes)
  | contractDefinition contract nodes : Shared kindOf (.contractDefinition contract nodes)
  | variableDeclaration declared (text? : Option String) (typeName? value? : Option NodeId)
      (htype : ∀ c ∈ typeName?, kindOf c = some .elementaryTypeName)
      (hvalue : ∀ c ∈ value?, (kindOf c).any Kind.isExpression) :
      Shared kindOf
        (.variableDeclaration declared (text?.map .text) typeName? none value?)
  | elementaryTypeName typeString name stateMutability :
      Shared kindOf (.elementaryTypeName typeString name stateMutability)
  | functionDefinition function (text? : Option String) (parameters returnParameters : NodeId)
      (body? : Option NodeId) (hparameters : kindOf parameters = some .parameterList)
      (hreturn : kindOf returnParameters = some .parameterList)
      (hbody : ∀ c ∈ body?, (kindOf c).any Kind.isStatement) :
      Shared kindOf (.functionDefinition function (text?.map .text) parameters none []
        returnParameters body?)
  | parameterList parameters : Shared kindOf (.parameterList parameters)
  | block (texts : BlockAttributes) statements : Shared kindOf (.block texts statements)
  | expressionStatement (text? : Option String) expression :
      Shared kindOf (.expressionStatement (text?.map .text) expression)
  | variableDeclarationStatement assignments (text? : Option String) declarations value?
      (hdeclarations : ∀ c ∈ declarations, kindOf c = some .variableDeclaration)
      (hvalue : ∀ c ∈ value?, (kindOf c).any Kind.isExpression) :
      Shared kindOf (.variableDeclarationStatement assignments (text?.map .text) declarations value?)
  | returnStatement parameters (text? : Option String) expression? :
      Shared kindOf (.returnStatement parameters (text?.map .text) expression?)
  | ifStatement (text? : Option String) condition trueBody falseBody? :
      Shared kindOf (.ifStatement (text?.map .text) condition trueBody falseBody?)
  | forStatement (text? : Option String) initialization? condition? loop? body :
      Shared kindOf (.forStatement (text?.map .text) initialization? condition? loop? body)
  | whileStatement (text? : Option String) condition body :
      Shared kindOf (.whileStatement (text?.map .text) condition body)
  | assignment typeString operator left right :
      Shared kindOf (.assignment typeString operator left right)
  | binaryOperation typeString operator left right :
      Shared kindOf (.binaryOperation typeString operator left right)
  | unaryOperation typeString isPrefix operator operand :
      Shared kindOf (.unaryOperation typeString isPrefix operator operand)
  | conditional typeString condition trueExpression falseExpression :
      Shared kindOf (.conditional typeString condition trueExpression falseExpression)
  | identifier typeString name referenced overloaded :
      Shared kindOf (.identifier typeString name referenced overloaded)
  | literal literal : Shared kindOf (.literal literal)
  | memberAccess typeString memberName referenced expression :
      Shared kindOf (.memberAccess typeString memberName referenced expression)
  | indexAccess typeString base index? : Shared kindOf (.indexAccess typeString base index?)
  | indexRangeAccess typeString base start? stop? :
      Shared kindOf (.indexRangeAccess typeString base start? stop?)
  | functionCall typeString kind fieldNames? expression arguments :
      Shared kindOf (.functionCall typeString kind fieldNames? expression arguments)
  | tupleExpression typeString isInlineArray components :
      Shared kindOf (.tupleExpression typeString isInlineArray components)

theorem not_any_nothing (k? : Option Kind) : ¬ k?.any Kind.sorts?.nothing := by
  cases k? <;> simp [Kind.sorts?.nothing]

/-- A field for documentation that takes no child holds a text or nothing. -/
theorem exists_text {d? : Option Documentation}
    (h : ∀ c ∈ (Slot.documentation d?).children, (kindOf c).any Kind.sorts?.nothing) :
    ∃ text? : Option String, d? = text?.map .text := by
  rcases d? with _ | text | id
  · exact ⟨none, rfl⟩
  · exact ⟨some text, rfl⟩
  · exact absurd (h id List.mem_cons_self) (not_any_nothing _)

theorem eq_nil_of_nothing {cs : List NodeId}
    (h : ∀ c ∈ cs, (kindOf c).any Kind.sorts?.nothing) : cs = [] :=
  List.eq_nil_iff_forall_not_mem.2 fun c hc => not_any_nothing _ (h c hc)

theorem eq_some_of_any {k? : Option Kind} {kind : Kind} (h : k?.any (· = kind)) : k? = some kind := by
  obtain ⟨k, hk, heq⟩ := (Option.any_eq_true _ _).1 h
  rw [hk, of_decide_eq_true heq]

theorem shared_of_isSorted {p : Payload} (h : p.isSorted kindOf) : p.Shared kindOf := by
  obtain ⟨sorts, hsorts, hall⟩ := (Option.any_eq_true _ _).1 h
  obtain ⟨attributes, slots, hshapes⟩ := p
  have hsorted : Slots.Sorted kindOf sorts slots := Slots.sorted_of_all hall
  obtain ⟨contents, rfl⟩ := Slots.exists_of_shapes hshapes
  cases attributes with
  | sourceUnit unit =>
    obtain ⟨nodes, _⟩ := contents
    exact .sourceUnit ..
  | contractDefinition contract =>
    obtain ⟨nodes, _⟩ := contents
    exact .contractDefinition ..
  | block texts =>
    obtain ⟨statements, _⟩ := contents
    exact .block ..
  | parameterList =>
    obtain ⟨parameters, _⟩ := contents
    exact .parameterList ..
  | elementaryTypeName typeString name stateMutability =>
    exact .elementaryTypeName ..
  | identifier typeString name referenced overloaded =>
    exact .identifier ..
  | literal literal =>
    exact .literal ..
  | assignment typeString operator =>
    obtain ⟨left, right, _⟩ := contents
    exact .assignment ..
  | binaryOperation typeString operator =>
    obtain ⟨left, right, _⟩ := contents
    exact .binaryOperation ..
  | unaryOperation typeString isPrefix operator =>
    obtain ⟨operand, _⟩ := contents
    exact .unaryOperation ..
  | memberAccess typeString memberName referenced =>
    obtain ⟨expression, _⟩ := contents
    exact .memberAccess ..
  | tupleExpression typeString isInlineArray =>
    obtain ⟨components, _⟩ := contents
    exact .tupleExpression ..
  | conditional typeString =>
    obtain ⟨condition, trueExpression, falseExpression, _⟩ := contents
    exact .conditional ..
  | indexAccess typeString =>
    obtain ⟨base, index?, _⟩ := contents
    exact .indexAccess ..
  | indexRangeAccess typeString =>
    obtain ⟨base, start?, stop?, _⟩ := contents
    exact .indexRangeAccess ..
  | functionCall typeString kind fieldNames? =>
    obtain ⟨expression, arguments, _⟩ := contents
    exact .functionCall ..
  | expressionStatement =>
    obtain ⟨documentation?, expression, _⟩ := contents
    cases hsorts
    obtain ⟨text?, rfl⟩ := exists_text hsorted.1
    exact .expressionStatement ..
  | returnStatement parameters =>
    obtain ⟨documentation?, expression?, _⟩ := contents
    cases hsorts
    obtain ⟨text?, rfl⟩ := exists_text hsorted.1
    exact .returnStatement ..
  | ifStatement =>
    obtain ⟨documentation?, condition, trueBody, falseBody?, _⟩ := contents
    cases hsorts
    obtain ⟨text?, rfl⟩ := exists_text hsorted.1
    exact .ifStatement ..
  | forStatement =>
    obtain ⟨documentation?, initialization?, condition?, loop?, body, _⟩ := contents
    cases hsorts
    obtain ⟨text?, rfl⟩ := exists_text hsorted.1
    exact .forStatement ..
  | whileStatement =>
    obtain ⟨documentation?, condition, body, _⟩ := contents
    cases hsorts
    obtain ⟨text?, rfl⟩ := exists_text hsorted.1
    exact .whileStatement ..
  | variableDeclaration declared =>
    obtain ⟨documentation?, typeName?, override?, value?, _⟩ := contents
    cases hsorts
    obtain ⟨hdocumentation, htype, hoverride, hvalue, -⟩ := hsorted
    obtain ⟨text?, rfl⟩ := exists_text hdocumentation
    obtain rfl := Option.toList_eq_nil_iff.1 (eq_nil_of_nothing hoverride)
    refine .variableDeclaration _ _ _ _ (fun c hc => ?_) fun c hc => ?_
    · exact eq_some_of_any (htype c (Option.mem_toList.2 hc))
    · exact hvalue c (Option.mem_toList.2 hc)
  | functionDefinition function =>
    obtain ⟨documentation?, parameters, override?, modifiers, returnParameters, body?, _⟩ := contents
    cases hsorts
    obtain ⟨hdocumentation, hparameters, hoverride, hmodifiers, hreturn, hbody, -⟩ := hsorted
    obtain ⟨text?, rfl⟩ := exists_text hdocumentation
    obtain rfl := Option.toList_eq_nil_iff.1 (eq_nil_of_nothing hoverride)
    obtain rfl := eq_nil_of_nothing hmodifiers
    refine .functionDefinition _ _ _ _ _ ?_ ?_ fun c hc => ?_
    · exact eq_some_of_any (hparameters _ List.mem_cons_self)
    · exact eq_some_of_any (hreturn _ List.mem_cons_self)
    · exact hbody c (Option.mem_toList.2 hc)
  | variableDeclarationStatement assignments =>
    obtain ⟨documentation?, declarations, value?, _⟩ := contents
    cases hsorts
    obtain ⟨hdocumentation, hdeclarations, hvalue, -⟩ := hsorted
    obtain ⟨text?, rfl⟩ := exists_text hdocumentation
    refine .variableDeclarationStatement _ _ _ _ (fun c hc => ?_) fun c hc => ?_
    · exact eq_some_of_any (hdeclarations c hc)
    · exact hvalue c (Option.mem_toList.2 hc)
  | _ => cases hsorts

theorem Shared.isSome_sorts? {p : Payload} (h : p.Shared kindOf) : p.kind.sorts?.isSome := by
  cases h <;> rfl

end Payload

/-! ### Fields of records -/

theorem Payload.length_slots (p : Payload) : p.slots.length = p.kind.layout.length := by
  have h := congrArg List.length p.shapes_eq
  rwa [Slots.shapes, List.length_map, List.length_map] at h

namespace Modern

variable {head : Head} {p : Payload} {record : NodeId → Json}

theorem nodup_keys (attributes : Attributes) :
    ((entries attributes).map Prod.fst ++ attributes.kind.layout.map Field.key ++
      ["id", "nodeType", "src"]).Nodup := by
  cases attributes <;>
    simp [entries, Attributes.kind, Kind.layout, Field.documentation, typeEntry, nameEntry]

/-- No two fields of a modern record have the same key. -/
theorem has_record (head : Head) (p : Payload) (record : NodeId → Json) :
    (Json.mkObject (recordEntries head p record)).Has (recordEntries head p record) := by
  refine Json.has_mkObject ?_
  have hkeys : ((p.kind.layout.zip p.slots).map
      fun (field, slot) => (field.key, slot.modern record)).map Prod.fst =
        p.kind.layout.map Field.key := by
    rw [List.map_map, ← List.map_fst_zip p.length_slots.ge, List.map_map,
      List.map_fst_zip p.length_slots.ge]
    rfl
  rw [recordEntries, List.map_append, List.map_append, hkeys]
  exact nodup_keys p.attributes

end Modern

namespace Legacy

variable {head : Head} {p : Payload} {record : NodeId → Json} {kindOf : NodeId → Option Kind}

theorem nodup_keys (hp : p.Shared kindOf) : ((attributeEntries p).map Prod.fst).Nodup := by
  cases hp with
  | forStatement text? initialization? condition? loop? body =>
    cases initialization? <;> cases condition? <;> cases loop? <;> exact of_decide_eq_true rfl
  | indexRangeAccess typeString base start? stop? =>
    cases start? <;> cases stop? <;> exact of_decide_eq_true rfl
  | _ => exact of_decide_eq_true rfl

/-- No two fields of a legacy record have the same key. -/
theorem has_record (head : Head) (p : Payload) (record : NodeId → Json) :
    (Json.mkObject (recordEntries head p record)).Has (recordEntries head p record) :=
  Json.has_mkObject (of_decide_eq_true rfl)

end Legacy

namespace Tree

variable {schema : Schema} {ts : List Tree} {t : Tree}

/-- The record of a tree among some trees with a given id, null if there is no such tree. -/
def recordIn (schema : Schema) (ts : List Tree) (c : NodeId) : Json :=
  (among ts (ts.map (render schema)) c).getD .null

theorem render_node (head : Head) (payload : Payload) (ts : List Tree) :
    (Tree.node head payload ts).render schema =
      .mkObject (schema.recordEntries head payload (recordIn schema ts)) := by
  rw [render, fold_node]
  rfl

theorem isObject_render (t : Tree) : (t.render schema).isObject := by
  cases t
  rw [render_node]
  rfl

/-- In a list of trees with different ids, each tree is found under its own. -/
theorem among_map {α : Type} (hids : (ts.map id).Nodup) (ht : t ∈ ts) (f : Tree → α) :
    among ts (ts.map f) t.id = some (f t) := by
  induction ts with
  | nil => contradiction
  | cons t' rest ih =>
    rw [List.map_cons, List.nodup_cons] at hids
    rw [among, List.map_cons, List.map_cons, List.zip_cons_cons, Json.lookup_cons_ite]
    rcases List.mem_cons.1 ht with rfl | ht
    · rw [if_pos rfl]
    · have hne : t.id ≠ t'.id := by
        intro heq
        exact hids.1 (heq ▸ List.mem_map_of_mem ht)
      rw [if_neg hne]
      exact ih hids.2 ht

theorem recordIn_id (hids : (ts.map id).Nodup) (ht : t ∈ ts) :
    recordIn schema ts t.id = t.render schema := by
  rw [recordIn, among_map hids ht, Option.getD_some]

/-- A record has the tag of its kind. -/
theorem get?_tagKey_render (schema : Schema) (t : Tree) :
    (t.render schema).get? schema.tagKey = some (.ofWord t.kind) := by
  obtain ⟨head, payload, ts⟩ := t
  rw [render_node]
  cases schema with
  | modern =>
    exact Modern.has_record head payload (recordIn .modern ts) _
      (List.mem_append_right _ (.tail _ (.head _)))
  | legacy =>
    exact Legacy.has_record head payload (recordIn .legacy ts) _
      (.tail _ (.tail _ (.tail _ (.head _))))

/-- A legacy record has no tag of the modern schema. -/
theorem get?_nodeType_render_legacy (t : Tree) : (t.render .legacy).get? "nodeType" = none := by
  cases t
  rw [render_node, Json.get?_mkObject]
  rfl

/-- The tag of a record names the kind of the tree, whatever the schema. -/
theorem kind?_render (schema : Schema) (t : Tree) :
    Record.kind? (t.render schema) = some t.kind := by
  have htag : Record.tag (t.render schema) = Vocabulary.word t.kind := by
    cases schema with
    | modern =>
      have htype : (t.render .modern).get? "nodeType" = _ := get?_tagKey_render .modern t
      rw [Record.tag, htype]
      rfl
    | legacy =>
      have hname : (t.render .legacy).get? "name" = _ := get?_tagKey_render .legacy t
      rw [Record.tag, get?_nodeType_render_legacy, hname]
      rfl
  rw [Record.kind?, htag, LawfulVocabulary.ofWord?_word]

/-- The schema of a record is told by its fields. -/
theorem detect?_render (schema : Schema) (t : Tree) :
    Schema.detect? (t.render schema) = some schema := by
  cases schema with
  | modern =>
    have htype : (t.render .modern).get? "nodeType" = _ := get?_tagKey_render .modern t
    rw [Schema.detect?, htype]
    rfl
  | legacy =>
    have hname : (t.render .legacy).get? "name" = _ := get?_tagKey_render .legacy t
    have hattributes : ((t.render .legacy).get? "attributes").isSome := by
      cases t
      rw [render_node, Schema.recordEntries, Legacy.has_record _ _ _ _ (.head _)]
      rfl
    rw [Schema.detect?, get?_nodeType_render_legacy, hname, hattributes]
    rfl

end Tree

end SolidityTree
