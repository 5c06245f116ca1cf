import SolidityTree.Payload.Attributes

/-!
# Payloads

The payload of a node is what its kind gives it: attributes, and the slots that hold its children,
laid out as the kind demands.  The children of a node are not stored a second time; they are read
off the slots in order (`Payload.children`).

Every edit below works on the slots or on the attributes and keeps the layout.
-/

namespace SolidityTree

/-- What the kind of a node gives it. -/
structure Payload where
  attributes : Attributes
  slots : List Slot
  /-- The slots are laid out as the kind demands. -/
  shapes_eq : Slots.shapes slots = attributes.kind.layout.map Field.shape := by rfl
  deriving DecidableEq

namespace Payload

/-- The kind of a payload. -/
def kind (p : Payload) : Kind := p.attributes.kind

/-- The children that a payload names, in order. -/
def children (p : Payload) : List NodeId := Slots.children p.slots

/-! ### Edits of children -/

/-- Other slots of the same shapes. -/
def withSlots (p : Payload) (slots : List Slot) (h : Slots.shapes slots = Slots.shapes p.slots) :
    Payload :=
  ⟨p.attributes, slots, h.trans p.shapes_eq⟩

/-- Puts `new` where the payload first holds `old`, if it does. -/
def replace? (p : Payload) (old new : NodeId) : Option Payload :=
  match h : Slots.replace? old new p.slots with
  | some slots => some (p.withSlots slots (Slots.shapes_replace? h))
  | none => none

/-- Takes out the first occurrence of a child. -/
def remove (p : Payload) (child : NodeId) : Removal Payload :=
  match h : Slots.remove child p.slots with
  | .removed slots => .removed (p.withSlots slots (Slots.shapes_remove h))
  | .required => .required
  | .absent => .absent

/-- Puts a child before all others, where the kind begins with a child list. -/
def prepend? (p : Payload) (child : NodeId) : Option Payload :=
  match h : Slots.prepend? child p.slots with
  | some slots => some (p.withSlots slots (Slots.shapes_prepend? h))
  | none => none

/-- Puts a child after all others, where the kind ends with a child list. -/
def append? (p : Payload) (child : NodeId) : Option Payload :=
  match h : Slots.append? child p.slots with
  | some slots => some (p.withSlots slots (Slots.shapes_append? h))
  | none => none

/-! ### Edits of attributes -/

/-- Other attributes of the same kind. -/
def withAttributes (p : Payload) (attributes : Attributes)
    (h : attributes.kind = p.attributes.kind) : Payload :=
  ⟨attributes, p.slots, by rw [h]; exact p.shapes_eq⟩

/-- The payload of a copy: every child and every reference renamed. -/
def rename (p : Payload) (f : NodeId → NodeId) : Payload :=
  (p.withSlots (p.slots.map (Slot.map f)) (Slots.shapes_map f p.slots)).withAttributes
    (p.attributes.mapReferences f) (Attributes.kind_mapReferences f p.attributes)

/-- Lets an identifier, or a node like one, refer to another declaration. -/
def setReferenced (p : Payload) (target : NodeId) : Payload :=
  p.withAttributes (p.attributes.setReferenced target)
    (Attributes.kind_setReferenced target p.attributes)

/-- Changes the attributes of a source unit, and no other. -/
def mapUnit (p : Payload) (f : UnitAttributes → UnitAttributes) : Payload :=
  p.withAttributes (p.attributes.mapUnit f) (Attributes.kind_mapUnit f p.attributes)

/-! ### Documentation -/

/-- The content of the field for documentation, where the kind has one. -/
def documentation? (p : Payload) : Option (Option Documentation) := Slots.documentation? p.slots

/-- Fills the field for documentation, where the kind has one. -/
def setDocumentation (p : Payload) (documentation? : Option Documentation) : Payload :=
  p.withSlots (Slots.setDocumentation documentation? p.slots)
    (Slots.shapes_setDocumentation documentation? p.slots)

/-- Sets the text of preceding documentation, where the kind keeps such texts. -/
def setDocString (p : Payload) (text? : Option String) : Payload :=
  p.withAttributes (p.attributes.setDocString text?)
    (Attributes.kind_setDocString text? p.attributes)

/-- Sets the text of dangling documentation, where the kind keeps such texts. -/
def setDanglingDocString (p : Payload) (text? : Option String) : Payload :=
  p.withAttributes (p.attributes.setDanglingDocString text?)
    (Attributes.kind_setDanglingDocString text? p.attributes)

/-! ### Inline assembly -/

/-- Whether the payload is that of inline assembly whose Yul code is not a child yet. -/
def isUnexpanded (p : Payload) : Bool := p.kind = .inlineAssembly ∧ Slots.optional? p.slots = none

/-- The declarations that inline assembly refers to, and its payload with the root of its Yul code
as a child.  Other kinds have no such place. -/
def expand? (p : Payload) (yul : NodeId) : Option (List ExternalReference × Payload) :=
  match p.attributes with
  | .inlineAssembly assembly =>
    some (assembly.externalReferences,
      p.withSlots (Slots.setOptional yul p.slots) (Slots.shapes_setOptional yul p.slots))
  | _ => none

end Payload

end SolidityTree
