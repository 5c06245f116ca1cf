import SolidityTree.Json
import SolidityTree.Kind

/-!
# Child slots

A slot is the content of one field that holds children.  The children of a node are those of its
slots, one slot after another, and every edit of a node's children is an edit of one slot: the first
that holds the child in question.

Main definitions: `Slot.children`, `Slot.replace?`, `Slot.remove`, and the same on lists of slots in
the namespace `Slots`.  No edit changes the shape of a slot (`Slots.shapes`).
-/

namespace SolidityTree

/-- The identity of a node in its forest.  Compilers give nonnegative ones. -/
abbrev NodeId := Int

/-- The reference to a symbol without a declaration, built into the language or the compiler. -/
def NodeId.builtin : NodeId := -1

/-- The documentation of a node: a text of its own or a child of kind `StructuredDocumentation`. -/
inductive Documentation where
  | text (s : String)
  | node (id : NodeId)
  deriving DecidableEq, Repr

/-- The child that holds a documentation. -/
def Documentation.node? : Documentation → Option NodeId
  | .node id => some id
  | .text _ => none

/-- The type named by an expression: older compilers give its bare name, newer ones a child. -/
inductive Operand where
  | name (s : String)
  | node (id : NodeId)
  deriving DecidableEq, Repr

/-- The child that names the type. -/
def Operand.node? : Operand → Option NodeId
  | .node id => some id
  | .name _ => none

/-- The content of a field that holds children. -/
inductive Slot where
  | one (child : NodeId)
  | optional (child? : Option NodeId)
  | many (children : List NodeId)
  | sparse (places : List (Option NodeId))
  | documentation (documentation? : Option Documentation)
  | operand (type : Operand)
  deriving DecidableEq, Repr

/-- What becomes of taking a child out of a place. -/
inductive Removal (α : Type) where
  /-- The child is not there. -/
  | absent
  /-- The child is there, but the place cannot be left empty. -/
  | required
  /-- The child is gone, and this is left. -/
  | removed (rest : α)
  deriving DecidableEq, Repr

/-- Changes what is left. -/
def Removal.map {α β : Type} (f : α → β) : Removal α → Removal β
  | .absent => .absent
  | .required => .required
  | .removed rest => .removed (f rest)

namespace Slot

/-! ### One slot -/

/-- The shape of a slot. -/
def shape : Slot → Shape
  | .one _ => .one
  | .optional _ => .optional
  | .many _ => .many
  | .sparse _ => .sparse
  | .documentation _ => .documentation
  | .operand _ => .operand

/-- The children in a slot, in order. -/
def children : Slot → List NodeId
  | .one child => [child]
  | .optional child? => child?.toList
  | .many children => children
  | .sparse places => places.filterMap id
  | .documentation documentation? => (documentation?.bind Documentation.node?).toList
  | .operand type => type.node?.toList

/-- Every child in a slot renamed. -/
def map (f : NodeId → NodeId) : Slot → Slot
  | .one child => .one (f child)
  | .optional child? => .optional (child?.map f)
  | .many children => .many (children.map f)
  | .sparse places => .sparse (places.map (Option.map f))
  | .documentation (some (.node id)) => .documentation (some (.node (f id)))
  | .documentation documentation? => .documentation documentation?
  | .operand (.node id) => .operand (.node (f id))
  | .operand type => .operand type

/-- Puts `new` where the slot first holds `old`. -/
def replace? (old new : NodeId) : Slot → Option Slot
  | .one child => if child = old then some (.one new) else none
  | .optional child? => if child? = some old then some (.optional (some new)) else none
  | .many children => if old ∈ children then some (.many (children.replace old new)) else none
  | .sparse places =>
    if some old ∈ places then some (.sparse (places.replace (some old) (some new))) else none
  | .documentation documentation? =>
    if documentation? = some (.node old) then some (.documentation (some (.node new))) else none
  | .operand type => if type = .node old then some (.operand (.node new)) else none

/-- Takes out the first occurrence of a child.  In a sparse slot it leaves a hole. -/
def remove (child : NodeId) : Slot → Removal Slot
  | .one c => if c = child then .required else .absent
  | .optional c? => if c? = some child then .removed (.optional none) else .absent
  | .many children => if child ∈ children then .removed (.many (children.erase child)) else .absent
  | .sparse places =>
    if some child ∈ places then .removed (.sparse (places.replace (some child) none)) else .absent
  | .documentation d? => if d? = some (.node child) then .removed (.documentation none) else .absent
  | .operand type => if type = .node child then .required else .absent

/-! ### Shapes -/

theorem shape_map (f : NodeId → NodeId) (slot : Slot) : (slot.map f).shape = slot.shape := by
  unfold map; split <;> rfl

theorem shape_replace? {old new : NodeId} {slot slot' : Slot}
    (h : slot.replace? old new = some slot') : slot'.shape = slot.shape := by
  cases slot <;> grind [replace?, shape]

theorem shape_remove {child : NodeId} {slot slot' : Slot}
    (h : slot.remove child = .removed slot') : slot'.shape = slot.shape := by
  cases slot <;> grind [remove, shape]

/-! ### Text -/

/-- A documentation as a JSON object that says which of the two forms it has. -/
def documentationJson : Documentation → Json
  | .text s => .mkObject [("Text", .string s)]
  | .node id => .mkObject [("Node", .int id)]

/-- A type name as a JSON object that says which of the two forms it has. -/
def operandJson : Operand → Json
  | .name s => .mkObject [("Name", .string s)]
  | .node id => .mkObject [("Node", .int id)]

/-- A slot as the value of its field. -/
def toJson : Slot → Json
  | .one child => .int child
  | .optional child? => .ofOption .int child?
  | .many children => .ofList .int children
  | .sparse places => .ofList (.ofOption .int) places
  | .documentation documentation? => .ofOption documentationJson documentation?
  | .operand type => operandJson type

end Slot

namespace Slots

/-! ### All slots of a node -/

/-- The shapes of the slots. -/
def shapes (slots : List Slot) : List Shape := slots.map Slot.shape

/-- The children of the slots, in order. -/
def children (slots : List Slot) : List NodeId := slots.flatMap Slot.children

/-- Puts `new` where the slots first hold `old`. -/
def replace? (old new : NodeId) : List Slot → Option (List Slot)
  | [] => none
  | slot :: rest =>
    match slot.replace? old new with
    | some slot => some (slot :: rest)
    | none => (replace? old new rest).map (slot :: ·)

/-- Takes out the first occurrence of a child. -/
def remove (child : NodeId) : List Slot → Removal (List Slot)
  | [] => .absent
  | slot :: rest =>
    match slot.remove child with
    | .removed slot => .removed (slot :: rest)
    | .required => .required
    | .absent => (remove child rest).map (slot :: ·)

/-- Puts a child before all others, if the first slot takes any number of them. -/
def prepend? (child : NodeId) : List Slot → Option (List Slot)
  | .many children :: rest => some (.many (child :: children) :: rest)
  | _ => none

/-- Puts a child after all others, if the last slot takes any number of them. -/
def append? (child : NodeId) : List Slot → Option (List Slot)
  | [] => none
  | [.many children] => some [.many (children ++ [child])]
  | [_] => none
  | slot :: next :: rest => (append? child (next :: rest)).map (slot :: ·)

/-- The content of the first slot for documentation, if there is such a slot. -/
def documentation? : List Slot → Option (Option Documentation)
  | [] => none
  | .documentation documentation? :: _ => some documentation?
  | _ :: rest => documentation? rest

/-- Fills the first slot for documentation. -/
def setDocumentation (documentation? : Option Documentation) : List Slot → List Slot
  | [] => []
  | .documentation _ :: rest => .documentation documentation? :: rest
  | slot :: rest => slot :: setDocumentation documentation? rest

/-- The content of the first slot for at most one child. -/
def optional? : List Slot → Option NodeId
  | [] => none
  | .optional child? :: _ => child?
  | _ :: rest => optional? rest

/-- Fills the first slot for at most one child. -/
def setOptional (child : NodeId) : List Slot → List Slot
  | [] => []
  | .optional _ :: rest => .optional (some child) :: rest
  | slot :: rest => slot :: setOptional child rest

/-! ### Shapes -/

theorem shapes_map (f : NodeId → NodeId) (slots : List Slot) :
    shapes (slots.map (Slot.map f)) = shapes slots := by
  simp [shapes, Function.comp_def, Slot.shape_map]

theorem shapes_replace? {old new : NodeId} {slots slots' : List Slot}
    (h : replace? old new slots = some slots') : shapes slots' = shapes slots := by
  induction slots generalizing slots' with
  | nil => simp [replace?] at h
  | cons slot rest ih =>
    simp only [replace?] at h
    split at h
    · next hs => cases h; simp [shapes, Slot.shape_replace? hs]
    · obtain ⟨rest', hr, rfl⟩ := Option.map_eq_some_iff.1 h
      simpa [shapes] using ih hr

theorem shapes_remove {child : NodeId} {slots slots' : List Slot}
    (h : remove child slots = .removed slots') : shapes slots' = shapes slots := by
  induction slots generalizing slots' with
  | nil => simp [remove] at h
  | cons slot rest ih =>
    simp only [remove] at h
    split at h
    · next hs => cases h; simp [shapes, Slot.shape_remove hs]
    · simp at h
    · cases hr : remove child rest with
      | removed rest' =>
        rw [hr] at h
        cases h
        simpa [shapes] using ih hr
      | absent => simp [hr, Removal.map] at h
      | required => simp [hr, Removal.map] at h

theorem shapes_prepend? {child : NodeId} {slots slots' : List Slot}
    (h : prepend? child slots = some slots') : shapes slots' = shapes slots := by
  unfold prepend? at h
  split at h
  · cases h; rfl
  · contradiction

theorem shapes_append? {child : NodeId} {slots slots' : List Slot}
    (h : append? child slots = some slots') : shapes slots' = shapes slots := by
  induction slots using append?.induct generalizing slots' with
  | case1 => simp [append?] at h
  | case2 children => simp only [append?] at h; cases h; rfl
  | case3 slot hs => simp [append?] at h
  | case4 slot next rest ih =>
    simp only [append?] at h
    obtain ⟨rest', hr, rfl⟩ := Option.map_eq_some_iff.1 h
    simpa [shapes] using ih hr

theorem shapes_setDocumentation (documentation? : Option Documentation) (slots : List Slot) :
    shapes (setDocumentation documentation? slots) = shapes slots := by
  induction slots using setDocumentation.induct with
  | case1 => rfl
  | case2 _ rest => rfl
  | case3 slot rest _ ih => simpa [setDocumentation, shapes] using ih

theorem shapes_setOptional (child : NodeId) (slots : List Slot) :
    shapes (setOptional child slots) = shapes slots := by
  induction slots using setOptional.induct with
  | case1 => rfl
  | case2 _ rest => rfl
  | case3 slot rest _ ih => simpa [setOptional, shapes] using ih

end Slots

end SolidityTree
