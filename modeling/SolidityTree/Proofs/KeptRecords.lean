import SolidityTree.Proofs.Alike

/-!
# Nodes without their records

A configuration can drop the records of nodes (`Config.keepRaw`).  The records are not only kept for
show, since inline assembly is expanded from its record; but that record is kept in any case.  So
two reads that differ in this choice only have the same result, and leave forests that are the same
but for records (`Run.read_keepRaw`).
-/

namespace SolidityTree

/-- The nodes are the same, up to the records that they keep; inline assembly keeps the same one. -/
structure Node.SameButRecord (n m : Node) : Prop where
  rest_eq : { n with raw? := none } = { m with raw? := none }
  raw?_eq : n.kind = .inlineAssembly → n.raw? = m.raw?

/-- The forests are the same, up to the records that nodes keep. -/
structure Forest.SameButRecords (f g : Forest) : Prop where
  id_eq : f.id = g.id
  lastId_eq : f.lastId = g.lastId
  overrun_eq : f.overrun = g.overrun
  transactions_eq : f.transactions = g.transactions
  nodes : ∀ k, Option.Rel Node.SameButRecord (f.get? k) (g.get? k)

/-- The view of all but the records that may be dropped. -/
def View.bare : View := ⟨.all, fun kind => kind = .inlineAssembly, true⟩

namespace View

theorem seesAssembly_bare : View.bare.SeesAssembly := ⟨rfl, rfl⟩

theorem blurs_bare (keeps keeps' : Bool) : View.bare.Blurs keeps keeps' :=
  .inr fun _ hkind => of_decide_eq_true hkind

end View

theorem Node.sameButRecord_of_bare {n m : Node} (h : View.bare.node n = View.bare.node m) :
    n.SameButRecord m where
  rest_eq := (congrArg (fun n : Node => { n with raw? := none }) h :)
  raw?_eq := View.seesAssembly_bare.raw?_eq h

theorem Forest.sameButRecords_of_alike {f g : Forest} (h : f.Alike .bare g) :
    f.SameButRecords g where
  id_eq := h.id_eq
  lastId_eq := h.lastId_eq
  overrun_eq := h.overrun_eq
  transactions_eq := h.transactions_eq rfl
  nodes k := by
    rcases h.get?_cases k with ⟨hf, hg⟩ | ⟨n, m, hn, hm, hnode⟩
    · rw [hf, hg]
      exact .none
    · rw [hn, hm]
      exact .some (Node.sameButRecord_of_bare hnode)

/-- **Dropping records changes nothing else.**  Two reads of an output into the same forest, under
configurations that differ at most in whether nodes keep their records, succeed with the same units
or fail for the same reason, and leave forests that are the same up to these records. -/
theorem Run.read_keepRaw (config : Config) (keeps keeps' : Bool) (output : Json) (f : Forest) :
    match read { config with keepRaw := keeps } output f,
      read { config with keepRaw := keeps' } output f with
    | .ok units g, .ok units' g' => units = units' ∧ g.SameButRecords g'
    | .error fault g, .error fault' g' => fault = fault' ∧ g.SameButRecords g'
    | _, _ => False := by
  have hreads : EndAlike .bare (read { config with keepRaw := keeps } output)
      (read { config with keepRaw := keeps' } output) f f :=
    alike_read View.seesAssembly_bare (View.blurs_bare keeps keeps') output f f (Forest.alike_refl f)
  rcases hreads.cases with ⟨units, g, g', hread, hread', hg⟩ | ⟨fault, g, g', hread, hread', hg⟩
  · rw [hread, hread']
    exact ⟨rfl, Forest.sameButRecords_of_alike hg⟩
  · rw [hread, hread']
    exact ⟨rfl, Forest.sameButRecords_of_alike hg⟩

end SolidityTree
