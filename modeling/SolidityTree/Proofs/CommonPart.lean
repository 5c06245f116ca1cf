import SolidityTree.Proofs.Views

/-!
# What both schemas carry

The legacy schema has no places for names and does not say which errors and events a contract uses;
and a node may keep its record, which differs from schema to schema.  What is left of a forest
without all that is its common part (`Forest.common`).

Forests have the same common part if they are alike in the view of it (`Forest.alike_common_iff`).
-/

namespace SolidityTree

/-! ### Payloads -/

/-- The attributes without the places of names, and without the errors and events that are used. -/
def Attributes.common : Attributes → Attributes
  | contractDefinition c =>
    contractDefinition { c with usedErrors := [], usedEvents := [], nameLocation? := none }
  | enumDefinition name _ => enumDefinition name none
  | enumValue name _ => enumValue name none
  | errorDefinition name _ => errorDefinition name none
  | eventDefinition anonymous name _ => eventDefinition anonymous name none
  | functionDefinition f => functionDefinition { f with nameLocation? := none }
  | modifierDefinition name isVirtual visibility _ =>
    modifierDefinition name isVirtual visibility none
  | structDefinition name scope visibility _ => structDefinition name scope visibility none
  | userDefinedValueTypeDefinition name _ => userDefinedValueTypeDefinition name none
  | variableDeclaration v => variableDeclaration { v with nameLocation? := none }
  | attributes => attributes

theorem Attributes.kind_common (attributes : Attributes) :
    attributes.common.kind = attributes.kind := by
  cases attributes <;> rfl

/-- No tree and no documentation depends on the rest. -/
def Attributes.Part.common : Attributes.Part where
  of := Attributes.common
  kind_of := Attributes.kind_common
  unit?_of attributes := by cases attributes <;> rfl
  referenced?_of attributes := by cases attributes <;> rfl
  docStrings?_of attributes := by cases attributes <;> rfl
  setReferenced_of _ attributes := by cases attributes <;> rfl
  setDocString_of _ attributes := by cases attributes <;> rfl
  setDanglingDocString_of _ attributes := by cases attributes <;> rfl

/-- The view of the common part. -/
def View.common : View := ⟨.common, fun _ => false, true⟩

namespace Payload

/-- The payload with the common attributes. -/
def common (p : Payload) : Payload := p.withAttributes p.attributes.common p.attributes.kind_common

@[simp] theorem children_common (p : Payload) : p.common.children = p.children := rfl

theorem common_common (p : Payload) : p.common.common = p.common :=
  ext_parts (by
    show p.attributes.common.common = p.attributes.common
    cases p.attributes <;> rfl) rfl

end Payload

/-! ### Nodes and forests -/

/-- The node without its record and with the common payload. -/
def Node.common (n : Node) : Node := { n with raw? := none, payload := n.payload.common }

theorem Node.kind_common (n : Node) : n.common.kind = n.kind := View.common.kind_node n

theorem Node.unit?_common (n : Node) : n.common.unit? = n.unit? := View.common.unit?_node n

theorem Node.common_common (n : Node) : n.common.common = n.common :=
  congrArg (fun p => ({ n with raw? := none, payload := p } : Node)) n.payload.common_common

namespace Forest

variable {f g : Forest} {id k : NodeId}

/-- The forest with the common parts of its nodes. -/
def common (f : Forest) : Forest := { f with nodes := f.nodes.map fun _ n => n.common }

theorem get?_common : f.common.get? k = (f.get? k).map Node.common := by
  rw [get?, common, Std.ExtTreeMap.getElem?_map]
  rfl

/-- Forests with the same common part are those that are alike in the view of it. -/
theorem alike_common_iff : f.Alike .common g ↔ f.common = g.common := by
  constructor
  · intro hfg
    refine ext_get? hfg.id_eq (fun k => ?_) hfg.lastId_eq hfg.overrun_eq (hfg.transactions_eq rfl)
    rw [get?_common, get?_common]
    exact hfg.nodes k
  · intro h
    have htransactions : f.transactions = g.transactions := (congrArg Forest.transactions h :)
    refine ⟨(congrArg Forest.id h :), (congrArg Forest.lastId h :), (congrArg Forest.overrun h :),
      fun k => ?_, ?_⟩
    · show (f.get? k).map Node.common = (g.get? k).map Node.common
      rw [← get?_common, h, get?_common]
    · rw [htransactions]
      exact List.forall₂_same.2 fun t _ => View.sameTransaction_refl t

theorem alike_common (f : Forest) : f.common.Alike .common f := by
  rw [alike_common_iff]
  refine ext_get? rfl (fun k => ?_) rfl rfl rfl
  rw [get?_common, get?_common, Option.map_map]
  exact congrArg (Option.map · (f.get? k)) (funext Node.common_common)

theorem contains_common : f.common.contains k = f.contains k := (alike_common f).contains_eq k

theorem walk_common : f.common.walk id = f.walk id := (alike_common f).walk_eq id

theorem commit_common (f : Forest) : f.common.commit = f.commit.common := by
  have htransactions : f.common.transactions = f.transactions := rfl
  rw [commit, htransactions, commit]
  split <;> rfl

/-- A node that only the common part is known of. -/
theorem exists_common_eq {n : Node} (h : f.common = g.common) (hn : f.get? k = some n) :
    ∃ m, g.get? k = some m ∧ m.common = n.common := by
  obtain ⟨m, hm, hnode⟩ := (alike_common_iff.2 h).exists_get? hn
  exact ⟨m, hm, hnode.symm⟩

end Forest

end SolidityTree
