import SolidityTree.Proofs.Making
import SolidityTree.Proofs.Reading

/-!
# Where ids can clash

Of all that a read does, only the registration of a record fails because an id is taken: what is
wrong with a record by itself is something else, and so is the reason why an edit of a tree fails.
Whether a computation can fail in that way follows from its parts.  So it is a class (`NoClash`), of
answers, of drafts and of runs alike, whose instances are found by what a computation is put
together from.

Main statements: `Schema.noClash_of_draft` and `Pass.noClash_lastPasses`.
-/

namespace SolidityTree

variable {α β : Type}

/-! ### Answers -/

/-- An answer that does not fail because an id is taken. -/
class Except.NoClash (e : Except Fault α) : Prop where
  ne_error : ∀ k, e ≠ .error (.idCollision k)

namespace Except.NoClash

theorem bind {e : Except Fault α} {next : α → Except Fault β} (h : NoClash e)
    (hnext : ∀ a, NoClash (next a)) : NoClash (e >>= next) where
  ne_error k hk := by
    cases he : e with
    | error fault =>
      rw [he] at hk
      exact h.ne_error k (he.trans (congrArg Except.error (Except.error.inj hk)))
    | ok a =>
      rw [he] at hk
      exact (hnext a).ne_error k hk

instance instPure (a : α) : NoClash (pure a) := ⟨nofun⟩

instance instOk (a : α) : NoClash (.ok a) := ⟨nofun⟩

instance instMalformed (subject : String) (defect : Defect) :
    NoClash (.error (.malformed subject defect) : Except Fault α) := ⟨nofun⟩

instance instUnsupportedKind (tag : String) (schema : Schema) :
    NoClash (.error (.unsupportedKind tag schema) : Except Fault α) := ⟨nofun⟩

instance instBind {e : Except Fault α} {next : α → Except Fault β} [h : NoClash e]
    [hnext : ∀ a, NoClash (next a)] : NoClash (e >>= next) := h.bind hnext

instance instMap {e : Except Fault α} {f : α → β} [h : NoClash e] : NoClash (f <$> e) := by
  refine ⟨fun k hk => ?_⟩
  cases he : e with
  | error fault =>
    rw [he] at hk
    exact h.ne_error k (he.trans (congrArg Except.error (Except.error.inj hk)))
  | ok a =>
    rw [he] at hk
    contradiction

instance instIte {p : Prop} [Decidable p] {e e' : Except Fault α} [NoClash e] [NoClash e'] :
    NoClash (if p then e else e') := by
  split <;> infer_instance

instance instMapM {items : List α} {f : α → Except Fault β} [hf : ∀ a, NoClash (f a)] :
    NoClash (items.mapM f) := by
  induction items with
  | nil => exact instPure []
  | cons a rest ih =>
    rw [List.mapM_cons]
    infer_instance

instance instForM {ι : Type} {items : List ι} {check : ι → Except Fault PUnit}
    [hcheck : ∀ i, NoClash (check i)] : NoClash (items.forM check) := by
  induction items with
  | nil => exact instPure _
  | cons i rest ih => exact (hcheck i).bind fun _ => ih

end Except.NoClash

/-! ### Fields of records -/

namespace Record

open SolidityTree.Except

instance noClash_required (r : Json) (key : String) : NoClash (required r key) := by
  unfold required missing
  split <;> infer_instance

instance noClash_requiredText (r : Json) (key : String) : NoClash (requiredText r key) := by
  refine (noClash_required r key).bind fun value => ?_
  split <;> infer_instance

instance noClash_id? (r : Json) : NoClash (id? r) := by
  unfold id?
  split
  · infer_instance
  · split <;> infer_instance

instance noClash_word (α : Type) [Vocabulary α] (r : Json) (key : String) :
    NoClash (word α r key) := by
  refine (noClash_requiredText r key).bind fun s => ?_
  split <;> infer_instance

instance noClash_word? (α : Type) [Vocabulary α] (r : Json) (key : String) :
    NoClash (word? α r key) := by
  unfold word?
  infer_instance

instance noClash_wordD [Vocabulary α] (r : Json) (key : String) (default : α) :
    NoClash (wordD r key default) := by
  unfold wordD
  infer_instance

instance noClash_span? (r : Json) (key : String) : NoClash (span? r key) := by
  unfold span?
  split
  · infer_instance
  · split <;> infer_instance
  · infer_instance

instance noClash_src (r : Json) : NoClash (src r) := by
  unfold src
  infer_instance

instance noClash_externalReference (entry : Json) : NoClash (externalReference entry) := by
  unfold externalReference
  infer_instance

instance noClash_externalReferences (r : Json) : NoClash (externalReferences r) := by
  unfold externalReferences
  infer_instance

end Record

/-! ### Drafts -/

namespace Draft

/-- No end of the draft is a failure because an id is taken. -/
def Unclashing : Draft α → Prop
  | .done _ => True
  | .fail fault => ∀ k, fault ≠ .idCollision k
  | .convert _ next => ∀ id, (next id).Unclashing

/-- A draft that does not fail because an id is taken. -/
class NoClash (d : Draft α) : Prop where
  unclashing : d.Unclashing

namespace NoClash

theorem bind {d : Draft α} {next : α → Draft β} (h : NoClash d)
    (hnext : ∀ a, NoClash (next a)) : NoClash (d >>= next) := by
  refine ⟨?_⟩
  show (d.bind next).Unclashing
  obtain ⟨h⟩ := h
  induction d with
  | done a => exact (hnext a).unclashing
  | fail fault => exact h
  | convert r wait ih => exact fun id => ih id (h id)

instance instPure (a : α) : NoClash (pure a) := ⟨trivial⟩

instance instDone (a : α) : NoClash (.done a) := ⟨trivial⟩

instance instFail (subject : String) (defect : Defect) :
    NoClash (.fail (.malformed subject defect) : Draft α) := ⟨nofun⟩

instance instBind {d : Draft α} {next : α → Draft β} [h : NoClash d]
    [hnext : ∀ a, NoClash (next a)] : NoClash (d >>= next) := h.bind hnext

instance instMap {d : Draft α} {f : α → β} [h : NoClash d] : NoClash (f <$> d) :=
  h.bind fun a => instPure (f a)

instance instLift {e : Except Fault α} [h : Except.NoClash e] : NoClash (liftM e : Draft α) := by
  refine ⟨?_⟩
  show (ofExcept e).Unclashing
  cases he : e with
  | ok a => trivial
  | error fault => exact fun k hk => h.ne_error k (he.trans (congrArg Except.error hk))

instance instIte {p : Prop} [Decidable p] {d d' : Draft α} [NoClash d] [NoClash d'] :
    NoClash (if p then d else d') := by
  split <;> infer_instance

instance instOne (r : Json) : NoClash (one r) := ⟨fun _ => trivial⟩

instance instOptional (r? : Option Json) : NoClash (optional r?) := by
  unfold optional
  split <;> infer_instance

instance instAll (rs : List Json) : NoClash (all rs) := by
  induction rs with
  | nil => exact instDone []
  | cons r rest ih =>
    unfold all
    infer_instance

instance instAllSparse (rs : List Json) : NoClash (allSparse rs) := by
  induction rs with
  | nil => exact instDone []
  | cons r rest ih =>
    unfold allSparse
    infer_instance

instance instArray {items : List Json → Draft (List α)} [∀ rs, NoClash (items rs)]
    (r? : Option Json) : NoClash (array items r?) := by
  unfold array
  split <;> infer_instance

instance instMany (r? : Option Json) : NoClash (many r?) := by
  unfold many
  infer_instance

instance instSparse (r? : Option Json) : NoClash (sparse r?) := by
  unfold sparse
  infer_instance

end NoClash

end Draft

/-! ### Modern records -/

namespace Modern

open Record

instance noClash_visibility (r : Json) : Except.NoClash (visibility r) := by
  unfold visibility
  infer_instance

instance noClash_nameLocation? (r : Json) : Except.NoClash (nameLocation? r) := by
  unfold nameLocation?
  infer_instance

instance noClash_contract (r : Json) (docString? : Option String) :
    Except.NoClash (contract r docString?) := by
  unfold contract
  infer_instance

instance noClash_function (r : Json) : Except.NoClash (function r) := by
  unfold function
  infer_instance

instance noClash_variableDeclaration (r : Json) : Except.NoClash (variableDeclaration r) := by
  unfold variableDeclaration
  infer_instance

instance noClash_literal (r : Json) : Except.NoClash (literal r) := by
  unfold literal
  infer_instance

instance noClash_importDirective (r : Json) : Except.NoClash (importDirective r) := by
  unfold importDirective
  infer_instance

instance noClash_sourceUnit (r : Json) : Except.NoClash (sourceUnit r) := by
  unfold sourceUnit
  infer_instance

instance noClash_assembly (r : Json) : Except.NoClash (assembly r) := by
  unfold assembly
  infer_instance

instance noClash_attributes (kind : Kind) (r : Json) : Except.NoClash (attributes kind r) := by
  cases kind <;> (dsimp only [attributes]; infer_instance)

open Draft

instance noClash_one (r : Json) (key : String) : NoClash (one r key) := by
  unfold one
  infer_instance

instance noClash_optional (r : Json) (key : String) : NoClash (optional r key) := by
  unfold optional
  infer_instance

instance noClash_many (r : Json) (key : String) : NoClash (many r key) := by
  unfold many
  infer_instance

instance noClash_documentation (r : Json) : NoClash (documentation r) := by
  unfold documentation
  split <;> infer_instance

instance noClash_operand (r : Json) (key : String) : NoClash (operand r key) := by
  refine (NoClash.instLift (e := required r key)).bind fun value => ?_
  split <;> infer_instance

instance noClash_slot (r : Json) (field : Field) : NoClash (slot r field) := by
  obtain ⟨shape, name, key⟩ := field
  cases shape <;> (dsimp only [slot]; infer_instance)

instance noClash_slots (r : Json) (fields : List Field) : NoClash (slots r fields) := by
  induction fields with
  | nil => exact NoClash.instPure _
  | cons field rest ih =>
    refine (noClash_slot r field).bind fun ⟨s, hs⟩ => ih.bind fun ⟨ss, hss⟩ => ?_
    exact NoClash.instPure _

instance noClash_regular (kind : Kind) (r : Json) : NoClash (regular kind r) := by
  refine (NoClash.instLift (e := attributes kind r)).bind fun attributes => ?_
  exact (noClash_slots r _).bind fun ⟨slots, hslots⟩ => NoClash.instPure _

instance noClash_contractDefinition (r : Json) : NoClash (contractDefinition r) := by
  unfold contractDefinition
  infer_instance

instance noClash_usingEntry (entry : Json) : NoClash (usingEntry entry) := by
  unfold usingEntry
  split <;> infer_instance

instance noClash_usingEntries (entries : List Json) : NoClash (usingEntries entries) := by
  induction entries with
  | nil => exact NoClash.instPure []
  | cons entry rest ih =>
    unfold usingEntries
    infer_instance

instance noClash_usingForDirective (r : Json) : NoClash (usingForDirective r) := by
  unfold usingForDirective
  infer_instance

instance noClash_inlineAssembly (r : Json) : NoClash (inlineAssembly r) := by
  unfold inlineAssembly
  infer_instance

instance noClash_variableDeclarationStatement (r : Json) :
    NoClash (variableDeclarationStatement r) := by
  unfold variableDeclarationStatement
  infer_instance

instance noClash_yulCase (r : Json) : NoClash (yulCase r) := by
  unfold yulCase
  split <;> infer_instance

instance noClash_payload (kind : Kind) (r : Json) : NoClash (payload kind r) := by
  unfold payload
  split <;> infer_instance

end Modern

/-! ### Legacy records -/

namespace Legacy

open Record Draft

instance noClash_visibility (r : Json) : Except.NoClash (visibility r) := by
  unfold visibility
  infer_instance

instance noClash_stateMutability (r : Json) : Except.NoClash (stateMutability r) := by
  unfold stateMutability
  infer_instance

instance noClash_child (r : Json) (rs : List Json) (index : Nat) : NoClash (child r rs index) := by
  unfold child
  split <;> infer_instance

instance noClash_child? (rs : List Json) (index : Nat) : NoClash (child? rs index) := by
  unfold child?
  infer_instance

instance noClash_documented (r : Json) : NoClash (documented r) := by
  unfold documented
  split <;> infer_instance

instance noClash_part (r : Json) (name : String) (rs : List Json) : NoClash (part r name rs) := by
  unfold part
  infer_instance

instance noClash_classified (rs : List Json) : NoClash (classified rs) := by
  induction rs with
  | nil => exact NoClash.instPure []
  | cons r rest ih =>
    unfold classified
    infer_instance

instance noClash_functionDefinition (r : Json) : NoClash (functionDefinition r) := by
  have hkind : NoClash (liftM (word? FunctionKind (attributes r) "kind") : Draft _) := inferInstance
  refine hkind.bind fun kind? => (noClash_documented r).bind fun (documentation?, rest) => ?_
  refine (noClash_classified rest).bind fun children => ?_
  split <;> infer_instance

instance noClash_modifierDefinition (r : Json) : NoClash (modifierDefinition r) := by
  refine (noClash_documented r).bind fun (documentation?, rest) => ?_
  refine (noClash_classified rest).bind fun children => ?_
  refine NoClash.instLift.bind fun name => NoClash.instLift.bind fun visibility => ?_
  unfold missing
  split <;> infer_instance

instance noClash_tryCatchClause (r : Json) : NoClash (tryCatchClause r) := by
  refine (noClash_classified (records r)).bind fun children => ?_
  unfold missing
  split <;> infer_instance

instance noClash_elementaryTypeNameExpression (r : Json) :
    NoClash (elementaryTypeNameExpression r) := by
  refine (noClash_child? (records r) 0).bind fun type? => ?_
  split <;> infer_instance

/-- The other kinds read the parts of a record one after another, whatever these are. -/
theorem noClash_payload? {kind : Kind} {draft : Json → Draft Payload}
    (h : payload? kind = some draft) (r : Json) : NoClash (draft r) := by
  cases kind <;> cases h <;> try infer_instance
  all_goals
    dsimp only [
      sourceUnit, pragmaDirective, importDirective, usingForDirective, contractDefinition,
      inheritanceSpecifier, structDefinition, enumDefinition, enumValue, parameterList,
      overrideSpecifier, variableDeclaration, modifierInvocation, eventDefinition,
      userDefinedTypeName, elementaryTypeName, mapping, arrayTypeName, functionTypeName,
      block, ifStatement, tryStatement, whileStatement, doWhileStatement, forStatement,
      inlineAssembly, returnStatement, emitStatement, variableDeclarationStatement,
      expressionStatement, conditional, assignment, tupleExpression, unaryOperation,
      binaryOperation, functionCall, functionCallOptions, newExpression, memberAccess,
      indexAccess, indexRangeAccess, identifier, literal, structuredDocumentation]
    infer_instance

end Legacy

/-! ### Records of either schema -/

instance Schema.noClash_draft (schema : Schema) (r : Json) : Except.NoClash (schema.draft r) := by
  unfold Schema.draft
  split
  · infer_instance
  · split
    · infer_instance
    · split <;> infer_instance

/-- **A draft fails for other reasons** than that an id is taken. -/
theorem Schema.noClash_of_draft {schema : Schema} {r : Json} {kind : Kind} {draft : Draft Payload}
    (h : schema.draft r = .ok (kind, draft)) : draft.NoClash := by
  obtain ⟨drafts, hdrafts, rfl⟩ := Schema.draft_eq_ok h
  cases schema with
  | legacy => exact Legacy.noClash_payload? hdrafts r
  | modern =>
    cases hdrafts
    exact Modern.noClash_payload kind r

namespace Output

open SolidityTree.Except

instance noClash_rootOf (listed : List String) (key : String) (source : Json) :
    NoClash (rootOf listed key source) := by
  unfold rootOf
  split <;> infer_instance

instance noClash_roots (output : Json) : NoClash (roots output) := by
  unfold roots
  split
  · infer_instance
  · split <;> infer_instance

end Output

/-! ### Runs -/

/-- A run that does not fail because an id is taken. -/
class Run.NoClash (run : Run α) : Prop where
  ne_error : ∀ f k g, run f ≠ .error (.idCollision k) g

namespace Run.NoClash

variable {run : Run α}

theorem bind {next : α → Run β} (h : NoClash run) (hnext : ∀ a, NoClash (next a)) :
    NoClash (run >>= next) where
  ne_error f k g hk := by
    have hk : EStateM.bind run next f = .error (.idCollision k) g := hk
    rw [EStateM.bind] at hk
    cases hrun : run f with
    | error fault f' =>
      rw [hrun] at hk
      cases hk
      exact h.ne_error f k _ hrun
    | ok a f' =>
      rw [hrun] at hk
      exact (hnext a).ne_error f' k g hk

instance instPure (a : α) : NoClash (pure a) := ⟨nofun⟩

instance instGet : NoClash get := ⟨nofun⟩

instance instModify (change : Forest → Forest) : NoClash (modify change) := ⟨nofun⟩

instance instNextId : NoClash nextId := ⟨nofun⟩

instance instBind {next : α → Run β} [h : NoClash run] [hnext : ∀ a, NoClash (next a)] :
    NoClash (run >>= next) := h.bind hnext

instance instIte {p : Prop} [Decidable p] {run' : Run α} [NoClash run] [NoClash run'] :
    NoClash (if p then run else run') := by
  split <;> infer_instance

theorem forM {ι : Type} {items : List ι} {body : ι → Run PUnit}
    (hbody : ∀ i ∈ items, NoClash (body i)) : NoClash (items.forM body) := by
  induction items with
  | nil => exact instPure _
  | cons i rest ih =>
    obtain ⟨hi, hrest⟩ := List.forall_mem_cons.1 hbody
    exact hi.bind fun _ => ih hrest

instance instForM {ι : Type} {items : List ι} {body : ι → Run PUnit}
    [hbody : ∀ i, NoClash (body i)] : NoClash (items.forM body) := forM fun i _ => hbody i

instance instAsk {question : Forest → Except Fault α} [h : ∀ f, Except.NoClash (question f)] :
    NoClash (ask question) where
  ne_error f k g hk := by
    rw [ask] at hk
    split at hk
    · contradiction
    · next hquestion =>
      cases hk
      exact (h f).ne_error k hquestion

instance instEdit {change : Forest → Except Fault Forest} [h : ∀ f, Except.NoClash (change f)] :
    NoClash (edit change) where
  ne_error f k g hk := by
    rw [edit] at hk
    split at hk
    · contradiction
    · next hchange =>
      cases hk
      exact (h f).ne_error k hchange

end Run.NoClash

/-! ### Edits -/

namespace Forest

open SolidityTree.Except

variable (f : Forest) (parent child id : NodeId) (c : Handle)

instance noClash_node : NoClash (f.node id) := by
  unfold node
  split
  · infer_instance
  · exact ⟨nofun⟩

instance noClash_checkDetached : NoClash (f.checkDetached id) := by
  refine (f.noClash_node id).bind fun n => ?_
  split
  · exact ⟨nofun⟩
  · infer_instance

instance noClash_checkAttachable : NoClash (f.checkAttachable parent c) := by
  have hforeign : NoClash (.error (.foreign c.id f.id c.forest) : Except Fault Unit) := ⟨nofun⟩
  have hcycle : NoClash (.error (.cycle parent c.id) : Except Fault Unit) := ⟨nofun⟩
  unfold checkAttachable
  infer_instance

instance noClash_append : NoClash (f.append parent c) := by
  refine (f.noClash_checkAttachable parent c).bind fun _ => (f.noClash_node parent).bind fun n => ?_
  split
  · infer_instance
  · exact ⟨nofun⟩

instance noClash_prepend : NoClash (f.prepend parent c) := by
  refine (f.noClash_checkAttachable parent c).bind fun _ => (f.noClash_node parent).bind fun n => ?_
  split
  · infer_instance
  · exact ⟨nofun⟩

instance noClash_replace : NoClash (f.replace parent c id) := by
  unfold replace
  split
  · infer_instance
  · refine (f.noClash_checkAttachable parent c).bind fun _ => (f.noClash_node c.id).bind fun m => ?_
    refine (f.noClash_node parent).bind fun n => ?_
    split
    · exact ⟨nofun⟩
    · split
      · infer_instance
      · exact ⟨nofun⟩

instance noClash_documentationOf : NoClash (f.documentationOf id) := by
  refine (f.noClash_node id).bind fun n => ?_
  dsimp only
  split
  · infer_instance
  · exact ⟨nofun⟩

instance noClash_danglingOf : NoClash (f.danglingOf id) := by
  refine (f.noClash_node id).bind fun n => ?_
  dsimp only
  split
  · infer_instance
  · exact ⟨nofun⟩

instance noClash_checkDocumentation : NoClash (f.checkDocumentation id c) := by
  have hkind : ∀ found, NoClash (.error (.kindMismatch c.id .structuredDocumentation found) :
      Except Fault Unit) := fun _ => ⟨nofun⟩
  unfold checkDocumentation
  infer_instance

/-- Registration fails in this way only if the id is taken. -/
theorem contains_of_register_eq_error {n : Node} {k : NodeId}
    (h : f.register n = .error (.idCollision k)) : f.contains n.id := by
  by_contra hfree
  have hforeign : ∀ found, NoClash (.error (.foreign n.id f.id found) : Except Fault PUnit) :=
    fun found => ⟨fun k hk => by cases hk⟩
  have hregister : NoClash (f.register n) := by
    rw [register, if_neg hfree]
    dsimp only
    split
    · split
      · exact (hforeign _).bind fun _ => inferInstance
      · infer_instance
    · infer_instance
  exact hregister.ne_error k h

end Forest

/-! ### Passes -/

namespace Run

theorem contains_of_register_eq_error {f g : Forest} {n : Node} {k : NodeId}
    (h : register n f = .error (.idCollision k) g) : f.contains n.id := by
  have h : EStateM.bind (edit (Forest.register · n)) _ f = .error (.idCollision k) g := h
  rw [EStateM.bind, edit] at h
  cases hregister : f.register n with
  | ok f' =>
    rw [hregister] at h
    contradiction
  | error fault =>
    rw [hregister] at h
    cases h
    exact f.contains_of_register_eq_error hregister

/-- A node that is made gets an id that is free. -/
instance noClash_makeAt (src : Span) (payload : Payload) : NoClash (makeAt src payload) where
  ne_error f _ _ hk := f.not_contains_nextId (contains_of_register_eq_error hk)

instance noClash_attachDocumentation (id : NodeId) (doc : Handle) :
    NoClash (attachDocumentation id doc) := by
  refine NoClash.instAsk.bind fun old => NoClash.instAsk.bind fun _ => ?_
  refine NoClash.instAsk.bind fun n => ?_
  split <;> refine (NoClash.instModify _).bind fun _ => ?_
  · split <;> infer_instance
  · split <;> infer_instance

instance noClash_attachDangling (id : NodeId) (doc : Handle) : NoClash (attachDangling id doc) := by
  refine NoClash.instAsk.bind fun old => NoClash.instAsk.bind fun _ => ?_
  refine NoClash.instAsk.bind fun n => ?_
  refine (NoClash.instModify _).bind fun _ => ?_
  split <;> infer_instance

end Run

namespace Comments

open SolidityTree.Run

instance noClash_make (owner : NodeId) (found : Found) : NoClash (make owner found) := by
  unfold make
  infer_instance

instance noClash_recoverPreceding (source : List Char) (id : NodeId) :
    NoClash (recoverPreceding source id) := by
  refine NoClash.instGet.bind fun f => ?_
  split
  · infer_instance
  · split <;> infer_instance

instance noClash_recoverDangling (source : List Char) (id : NodeId) :
    NoClash (recoverDangling source id) := by
  refine NoClash.instAsk.bind fun n => NoClash.instGet.bind fun f => ?_
  split
  · infer_instance
  · split <;> infer_instance

instance noClash_process (config : Config) (id : NodeId) : NoClash (process config id) := by
  refine NoClash.instGet.bind fun f => ?_
  split <;> infer_instance

end Comments

instance Builtin.noClash_process (id : NodeId) : Run.NoClash (process id) := by
  unfold process
  infer_instance

namespace Pass

theorem noClash_run {p : Pass} (config : Config) (h : ∀ id, Run.NoClash (p.process config id))
    (units : List NodeId) : Run.NoClash (p.run config units) := by
  unfold run visit
  infer_instance

/-- **The passes behind the expansion of inline assembly** do not fail because an id is taken. -/
theorem noClash_lastPasses (config : Config) (units : List NodeId) :
    Run.NoClash (runAll [Builtin.pass, Comments.pass] config units) := by
  refine Run.NoClash.forM (List.forall_mem_cons.2 ⟨?_, List.forall_mem_cons.2 ⟨?_, by simp⟩⟩)
  · exact noClash_run config (fun id => Builtin.noClash_process id) units
  · exact noClash_run config (fun id => Comments.noClash_process config id) units

end Pass

end SolidityTree
