import SolidityTree.Proofs.Additions
import SolidityTree.Proofs.ReadInvariants
import SolidityTree.Proofs.ShallowRecords

/-!
# Documentation nodes that are read

A record becomes a node of its own kind (`Schema.wp_draft_kind`), and its payload puts into the
field for documentation the node of a documentation record of the schema, whatever kind that is of.
So a read keeps a forest documented if every record that it meets names documentation of the right
kind (`Schema.WellDocumented`).  The records that it meets are those that drafts ask for and the
trees of Yul code that inline assembly embeds; these wait in the records of new nodes until the
passes come to them (`Forest.Documenting`).

Main statement: `documented_session_iff`.
-/

namespace SolidityTree

/-! ### Records that are met -/

namespace Schema

variable {schema schema' schema'' : Schema} {r s t : Json}

/-- The records that are met when one is read, each with its schema: those that are converted as
parts of it, and the trees of Yul code that these embed, with their parts. -/
inductive Meets (schema : Schema) (r : Json) : Schema → Json → Prop
  | self : Meets schema r schema r
  | asks {schema' : Schema} {s t : Json} : Meets schema r schema' s → schema'.Asks s t →
      Meets schema r schema' t
  | embeds {schema' : Schema} {s t : Json} : Meets schema r schema' s →
      schema'.kind? s = some .inlineAssembly → s.get? "AST" = some t → Meets schema r .modern t

theorem Meets.trans (hs : Meets schema r schema' s) (ht : Meets schema' s schema'' t) :
    Meets schema r schema'' t := by
  induction ht with
  | self => exact hs
  | asks _ hasks ih => exact ih.asks hasks
  | embeds _ hkind htree ih => exact ih.embeds hkind htree

/-- Where the kind of a record has a field for documentation, its documentation records are
converted to documentation nodes. -/
def DocumentsWell (schema : Schema) (r : Json) : Prop :=
  ∀ kind, schema.kind? r = some kind → kind.hasDocumentationField → ∀ doc, schema.Asks r doc →
    schema.Documents r doc → schema.kind? doc = some .structuredDocumentation

/-- All records that are met are so. -/
def WellDocumented (schema : Schema) (r : Json) : Prop :=
  ∀ schema' s, Meets schema r schema' s → schema'.DocumentsWell s

theorem WellDocumented.of_meets (hr : schema.WellDocumented r) (hs : Meets schema r schema' s) :
    schema'.WellDocumented s := fun schema'' t ht => hr schema'' t (hs.trans ht)

end Schema

/-! ### Conversion -/

namespace Forest

variable {f g h : Forest} {k : NodeId}

/-- A forest with new nodes that is documented, and will be when the trees that the new nodes embed
are expanded. -/
structure Documenting (f g : Forest) : Prop where
  documented : g.Documented
  embedded : ∀ {k tree}, ¬ f.contains k → g.kind? k = some .inlineAssembly →
    (g.raw? k).bind (·.get? "AST") = some tree → Schema.modern.WellDocumented tree

theorem documenting_begin (hf : f.Documented) : Documenting f f.begin where
  documented := hf.redocuments (.of_get? fun _ => rfl)
  embedded {k _} hk hkind := by
    obtain ⟨n, hn, -⟩ := Option.map_eq_some_iff.1 hkind
    exact absurd (contains_iff_get?.2 ⟨n, hn⟩) hk

namespace Documenting

theorem redocuments (hg : Documenting f g) (hgh : Redocuments g h) : Documenting f h where
  documented := hg.documented.redocuments hgh
  embedded hk hkind htree := by
    rw [hgh.kind?_eq] at hkind
    rw [hgh.raw?_eq] at htree
    exact hg.embedded hk hkind htree

theorem of_get? (hg : Documenting f g) (hget : ∀ k, h.get? k = g.get? k) : Documenting f h :=
  hg.redocuments (.of_get? hget)

theorem register (hg : Documenting f g) {n : Node} (hregister : g.register n = .ok h)
    (hsuits : g.Suits n.payload) (hembedded : ∀ tree, n.kind = .inlineAssembly →
      n.raw?.bind (·.get? "AST") = some tree → Schema.modern.WellDocumented tree) :
    Documenting f h where
  documented := hg.documented.register hregister hsuits
  embedded {k tree} hk hkind htree := by
    rw [kind?_register hregister] at hkind
    rw [raw?_register hregister] at htree
    by_cases hid : k = n.id
    · rw [if_pos hid] at hkind htree
      exact hembedded tree (Option.some.inj hkind) htree
    · rw [if_neg hid] at hkind htree
      exact hg.embedded hk hkind htree

end Documenting

end Forest

open Forest

variable {f g : Forest} {id : NodeId}

namespace Run

/-- A record becomes a node of its own kind, and what is documented stays so. -/
theorem wp_convert_documenting (config : Config) {schema : Schema} (levels : Nat) {r : Json}
    (hr : schema.WellDocumented r) (hg : Documenting f g) :
    wp (convert config schema levels r) (fun id h => Documenting f h ∧
      ∃ kind, schema.kind? r = some kind ∧ h.kind? id = some kind) (fun _ => True) g := by
  induction levels generalizing r g with
  | zero => exact wp_throw trivial
  | succ levels ih =>
    refine wp_bind (wp_ask (fun (kind, draft) hdraft => ?_) trivial)
    have hkind := Schema.kind?_of_draft hdraft
    refine (wp_idOf hg (hg.of_get? fun _ => rfl) trivial).andThen fun id g hg =>
      wp_bind (wp_ask (fun src _ => ?_) trivial)
    -- every node in the trace is of the kind of its record, which the record at hand has asked for
    let Kinds (trace : Draft.Trace) (g : Forest) : Prop := ∀ c ∈ trace, draft.Asks c.1 ∧
      ∃ kind, schema.kind? c.1 = some kind ∧ g.kind? c.2 = some kind
    have hkinds : ∀ trace, Additive (Kinds trace) := fun trace =>
      { nextId := fun hg => hg
        register := fun hg hregister c hc =>
          let ⟨hasks, kind, hrecord, hnode⟩ := hg c hc
          ⟨hasks, kind, hrecord, (additive_kind? c.2 kind).register hnode hregister⟩ }
    have hrecord : ∀ s, draft.Asks s → ∀ trace g, Documenting f g ∧ Kinds trace g →
        wp (convert config schema levels s)
          (fun id h => Documenting f h ∧ Kinds (trace ++ [(s, id)]) h) (fun _ => True) g := by
      intro s hasks trace g ⟨hg, htrace⟩
      have hs : schema.WellDocumented s :=
        hr.of_meets (Schema.Meets.self.asks ⟨kind, draft, hdraft, hasks⟩)
      have hkept := (hkinds trace).keeps_convert config schema levels s g htrace
      refine ((ih hs hg).and hkept).mono (fun id h ⟨⟨hh, hnode⟩, hold⟩ => ⟨hh, ?_⟩)
        fun _ _ => trivial
      exact List.forall_mem_append.2 ⟨hold, by simpa using ⟨hasks, hnode⟩⟩
    have hrun := Draft.wp_run_asked (fun trace g => Documenting f g ∧ Kinds trace g) hrecord
      (fun _ _ _ => trivial) ((Schema.wp_draft hdraft).and (Schema.wp_draft_kind hdraft))
      (f := g) ⟨hg, by simp [Kinds]⟩
    refine hrun.andThen fun payload g ⟨trace, ⟨⟨_, htakes⟩, hpayload⟩, hg, htrace⟩ => ?_
    refine wp_bind (wp_register (fun h hregister => wp_pure ⟨?_, kind, hkind, ?_⟩) trivial)
    · refine hg.register hregister (fun d hd => ?_) fun tree hassembly htree => ?_
      · have hd : payload.documentation? = some (some (.node d)) :=
          Payload.documentationNode?_eq_some.1 hd
        have hfield : payload.kind.hasDocumentationField :=
          Payload.documentation?_ne_none_iff.1 (by rw [hd]; nofun)
        obtain ⟨doc, hdoc, hdocuments⟩ := htakes.documentation d hd
        obtain ⟨hasks, kind', hrecord, hnode⟩ := htrace (doc, d) hdoc
        have hwell := hr schema r .self kind hkind (hpayload ▸ hfield) doc
          ⟨kind, draft, hdraft, hasks⟩ hdocuments
        rw [hnode, ← hrecord, hwell]
      · have hassembly : kind = .inlineAssembly := hpayload.symm.trans hassembly
        have htree : (Record.shallow schema r).get? "AST" = some tree := by
          have hraw : (if config.keepRaw ∨ kind = .inlineAssembly then some (Record.shallow schema r)
              else none).bind (·.get? "AST") = some tree := htree
          rwa [if_pos (Or.inr hassembly)] at hraw
        rw [hassembly] at hkind
        rw [Record.get?_shallow_tree hkind] at htree
        exact hr.of_meets (Schema.Meets.self.embeds hkind htree)
    · rw [kind?_register hregister]
      exact (if_pos rfl).trans (congrArg some hpayload)

end Run

/-! ### Reads -/

/-- A root record whose documentation is well. -/
def Output.Root.WellDocumented (root : Output.Root) : Prop :=
  ∀ schema, Schema.detect? root.record = some schema → schema.WellDocumented root.record

/-- The records of an output name documentation of the right kind. -/
def Output.WellDocumented (output : Json) : Prop :=
  ∀ roots, Output.roots output = .ok roots → ∀ root ∈ roots, root.WellDocumented

namespace Run

/-- A documentation node that is made has no children, and the trees that new nodes embed are ones
that the read has met. -/
theorem readInvariant_documenting (config : Config) {roots : List Output.Root}
    (hroots : ∀ root ∈ roots, root.WellDocumented) :
    ReadInvariant config roots f (Documenting f) where
  redocuments hg hgh := hg.redocuments hgh
  documentation hg hregister :=
    hg.register hregister (fun d hd => by cases hd) fun tree hkind => by cases hkind
  tree hg hk hkind htree :=
    (wp_convert_documenting config config.maxDepth (hg.embedded hk hkind htree) hg).mono
      (fun _ _ hh => hh.1) fun _ _ => trivial
  root hg hroot hschema :=
    (wp_convert_documenting config config.maxDepth (hroots _ hroot _ hschema) hg).mono
      (fun _ _ hh => hh.1) fun _ _ => trivial

/-- A consistent forest that is documented. -/
def Sound (f : Forest) : Prop := f.Consistent ∧ f.Documented

/-- **A read of well documented output keeps a consistent forest documented.** -/
theorem wp_read_sound (hf : f.Consistent) (hdoc : f.Documented) (config : Config) {output : Json}
    (houtput : Output.WellDocumented output) :
    wp (read config output) (fun _ g => Sound g) Sound f := by
  cases h : read config output f with
  | ok units g =>
    obtain ⟨_, -, hread⟩ := read_grows hf h
    have hdocumenting : Documenting f g := ReadInvariant.of_read h
      (fun roots hroots => readInvariant_documenting config (houtput roots hroots))
      (documenting_begin hdoc)
    exact wp_of_ok h ⟨hread.consistent, hdocumenting.documented⟩
  | error fault g =>
    obtain rfl := read_eq_of_error hf h
    unfold wp
    rw [h]
    exact ⟨hf, hdoc⟩

end Run

/-! ### Making -/

namespace Run

theorem wp_register_sound (hf : f.Consistent) (hdoc : f.Documented) {n : Node}
    (hroot : n.parent? = none) (hnodup : n.children.Nodup) (hsuits : f.Suits n.payload) :
    wp (register n) (fun _ g => Sound g) Sound f :=
  wp_register (fun _ hg => ⟨hf.register hg hroot hnodup, hdoc.register hg hsuits⟩) ⟨hf, hdoc⟩

theorem wp_makeAt_sound (hf : f.Consistent) (hdoc : f.Documented) (src : Span) {payload : Payload}
    (hnodup : payload.children.Nodup) (hsuits : f.Suits payload) :
    wp (makeAt src payload) (fun _ g => Sound g) Sound f :=
  wp_bind (wp_nextId (wp_register_sound hf.nextId hdoc.nextId rfl hnodup hsuits))

end Run

/-- A payload that is given to a maker lists no child twice and suits the forest; so does one that
the maker makes itself, but for an assignment, whose sides are given. -/
def Maker.Sound (f : Forest) : Maker → Prop
  | .make _ payload => payload.children.Nodup ∧ f.Suits payload
  | .makeWith _ payload => payload.children.Nodup ∧ f.Suits payload
  | .identifierFor _ => True
  | .assignment _ left right => left ≠ right
  | .variableDeclaration _ _ _ => True

theorem Maker.wp_run_sound (hf : f.Consistent) (hdoc : f.Documented) {m : Maker} (hm : m.Sound f) :
    Run.wp m.run (fun _ g => Run.Sound g) Run.Sound f := by
  cases m with
  | make src payload => exact Run.wp_makeAt_sound hf hdoc src hm.1 hm.2
  | makeWith children payload =>
    have hchecks : Run.Keeps (· = f) (children.forM Run.checkOwned) :=
      Run.keeps_forM fun c _ => Run.keeps_checkOwned c
    refine Run.wp.andThen (P := fun _ g => g = f) ((hchecks f rfl).mono (fun _ _ h => h) ?_) ?_
    · rintro _ rfl
      exact ⟨hf, hdoc⟩
    · rintro _ _ rfl
      exact Run.wp_makeAt_sound hf hdoc .unknown hm.1 hm.2
  | identifierFor declaration =>
    refine Run.wp_bind (Run.wp_ask (fun n _ => ?_) ⟨hf, hdoc⟩)
    split
    · exact Run.wp_makeAt_sound hf hdoc _ List.nodup_nil (fun d hd => by cases hd)
    · exact Run.wp_throw ⟨hf, hdoc⟩
  | assignment operator left right =>
    refine Run.wp_bind (Run.wp_get (Run.wp_makeAt_sound hf hdoc _ ?_ fun d hd => by cases hd))
    have hne : left ≠ right := hm
    have hsides : [left, right].Nodup := by simpa using hne
    exact hsides
  | variableDeclaration name typeName scope =>
    exact Run.wp_bind (Run.wp_get (Run.wp_makeAt_sound hf hdoc _ (List.nodup_singleton typeName)
      fun d hd => by cases hd))

/-! ### Sessions -/

/-- An edit of a tree, a registration, a maker, or a read of output. -/
inductive Act where
  | edit (e : Edit)
  | register (n : Node)
  | make (m : Maker)
  | read (config : Config) (output : Json)

namespace Act

/-- The run that an act names; what it answers is dropped. -/
def run : Act → Run Unit
  | edit e => e.run
  | register n => do let _ ← Run.register n
  | make m => do let _ ← m.run
  | read config output => do let _ ← Run.read config output

/-- A new node comes without a parent mark, lists no child twice and suits the forest, and output is
well documented. -/
def Sound (f : Forest) : Act → Prop
  | edit _ => True
  | register n => n.parent? = none ∧ n.children.Nodup ∧ f.Suits n.payload
  | make m => m.Sound f
  | read _ output => Output.WellDocumented output

/-- The forest after acts one after another, whatever comes of each. -/
def after : List Act → Forest → Forest
  | [], f => f
  | a :: rest, f => after rest (a.run.after f)

/-- Each act is sound where it is taken. -/
def AllSound : List Act → Forest → Prop
  | [], _ => True
  | a :: rest, f => a.Sound f ∧ AllSound rest (a.run.after f)

/-- **An act that is sound keeps a consistent forest documented**, whether it succeeds or fails. -/
theorem wp_run_sound (hf : f.Consistent) (hdoc : f.Documented) {a : Act} (ha : a.Sound f) :
    Run.wp a.run (fun _ g => Run.Sound g) Run.Sound f := by
  cases a with
  | edit e =>
    have hkept : Kept (fun _ => True) true := ⟨fun _ => trivial, fun _ _ => trivial,
      fun _ _ => trivial, fun _ _ _ _ _ _ _ => trivial⟩
    have hconsistent := keeps_edit hkept e (fun _ => rfl) f ⟨hf, trivial⟩
    exact (hconsistent.and (documented_edit hf hdoc e)).mono (fun _ _ h => ⟨h.1.1, h.2⟩)
      fun _ h => ⟨h.1.1, h.2⟩
  | register n =>
    obtain ⟨hroot, hnodup, hsuits⟩ := ha
    exact (Run.wp_register_sound hf hdoc hroot hnodup hsuits).andThen fun _ _ h => Run.wp_pure h
  | make m => exact (m.wp_run_sound hf hdoc ha).andThen fun _ _ h => Run.wp_pure h
  | read config output =>
    exact (Run.wp_read_sound hf hdoc config ha).andThen fun _ _ h => Run.wp_pure h

theorem sound_after (hf : f.Consistent) (hdoc : f.Documented) {a : Act} (ha : a.Sound f) :
    Run.Sound (a.run.after f) := by
  have hrun := wp_run_sound hf hdoc ha
  unfold Run.wp at hrun
  unfold Run.after
  cases h : a.run f <;> rw [h] at hrun <;> exact hrun

theorem sound_session (hf : f.Consistent) (hdoc : f.Documented) {acts : List Act}
    (hacts : AllSound acts f) : Run.Sound (after acts f) := by
  -- on the acts; what one of them leaves is what the others begin with
  induction acts generalizing f with
  | nil => exact ⟨hf, hdoc⟩
  | cons a rest ih =>
    obtain ⟨hf', hdoc'⟩ := sound_after hf hdoc hacts.1
    exact ih hf' hdoc' hacts.2

/-- **A session of sound acts** leaves a forest in which only documentation nodes stand in fields
for documentation; a node that is registered next keeps it so exactly if its payload suits the
forest, which nothing checks. -/
theorem documented_session_iff (hf : f.Consistent) (hdoc : f.Documented) {acts : List Act}
    (hacts : AllSound acts f) : (after acts f).Documented ∧ ∀ n g,
      (after acts f).register n = .ok g → (g.Documented ↔ (after acts f).Suits n.payload) := by
  obtain ⟨-, hsession⟩ := sound_session hf hdoc hacts
  exact ⟨hsession, fun n g hregister => documented_register_iff hsession hregister⟩

end Act

/-! ### A session -/

/-- A documentation record. -/
def docRecord : Json :=
  .object [("id", .int 1), ("nodeType", .string "StructuredDocumentation"), ("text", .string "d")]

/-- A statement with that documentation. -/
def documentedBreak : Json :=
  .object [("documentation", docRecord), ("id", .int 5), ("nodeType", .string "Break")]

/-- A unit with that statement. -/
def documentedUnit : Json :=
  .object [("id", .int 9), ("nodeType", .string "SourceUnit"), ("nodes", .array [documentedBreak])]

theorem asks_documentedUnit {t : Json} (h : Schema.modern.Asks documentedUnit t) :
    t = documentedBreak := by
  obtain ⟨kind, draft, hdraft, hasks⟩ := h
  cases hdraft
  rcases hasks with rfl | ⟨id, hasks⟩
  · rfl
  · exact hasks.elim

theorem asks_documentedBreak {t : Json} (h : Schema.modern.Asks documentedBreak t) :
    t = docRecord := by
  obtain ⟨kind, draft, hdraft, hasks⟩ := h
  cases hdraft
  rcases hasks with rfl | ⟨id, hasks⟩
  · rfl
  · exact hasks.elim

theorem asks_docRecord {t : Json} (h : Schema.modern.Asks docRecord t) : False := by
  obtain ⟨kind, draft, hdraft, hasks⟩ := h
  cases hdraft
  exact hasks

theorem wellDocumented_documentedUnit : Schema.modern.WellDocumented documentedUnit := by
  have hmeets : ∀ schema s, Schema.Meets .modern documentedUnit schema s →
      schema = .modern ∧ s ∈ [documentedUnit, documentedBreak, docRecord] := by
    intro schema s h
    induction h with
    | self => exact ⟨rfl, by simp⟩
    | asks _ hasks ih =>
      obtain ⟨rfl, hs⟩ := ih
      simp only [List.mem_cons, List.not_mem_nil, or_false] at hs
      rcases hs with rfl | rfl | rfl
      · exact ⟨rfl, by simp [asks_documentedUnit hasks]⟩
      · exact ⟨rfl, by simp [asks_documentedBreak hasks]⟩
      · exact (asks_docRecord hasks).elim
    | embeds _ hkind _ ih =>
      obtain ⟨rfl, hs⟩ := ih
      simp only [List.mem_cons, List.not_mem_nil, or_false] at hs
      rcases hs with rfl | rfl | rfl <;> cases hkind
  intro schema s h kind hkind hfield doc hasks _
  obtain ⟨rfl, hs⟩ := hmeets schema s h
  simp only [List.mem_cons, List.not_mem_nil, or_false] at hs
  rcases hs with rfl | rfl | rfl
  · cases hkind
    cases hfield
  · rw [asks_documentedBreak hasks]
    rfl
  · exact (asks_docRecord hasks).elim

/-- The unit is read, and an identifier is made beside it. -/
def documentedActs : List Act :=
  [.read { Config.standard with postprocess := false } documentedUnit,
    .make (.make .unknown (.identifier "" "x" .builtin []))]

/-- A statement whose documentation is the identifier. -/
def misdocumented : Node := .fresh 11 .unknown (.breakStatement (some (.node 10))) none

theorem after_documentedActs :
    ((Act.after documentedActs (empty 0)).register misdocumented).toBool = true ∧
      (Act.after documentedActs (empty 0)).kind? 10 = some .identifier := by
  have hread : Run.read { Config.standard with postprocess := false } documentedUnit =
      Run.transaction (Run.readUnits { Config.standard with postprocess := false }
        [Output.Root.ofRecord documentedUnit]) := Run.read_eq_transaction rfl
  rw [documentedActs, Act.after, Act.run, hread, Run.readUnits_singleton]
  decide +kernel

/-- The session is sound, and the registration after it is accepted all the same. -/
theorem documented_session_misdocumented :
    (Act.after documentedActs (empty 0)).Documented ∧
      ∃ g, (Act.after documentedActs (empty 0)).register misdocumented = .ok g ∧ ¬ g.Documented := by
  obtain ⟨haccepted, hkind⟩ := after_documentedActs
  have hsound : Act.AllSound documentedActs (empty 0) := by
    refine ⟨?_, ⟨List.nodup_nil, fun d hd => by cases hd⟩, trivial⟩
    rintro roots ⟨⟩ root hroot schema hschema
    obtain rfl := List.mem_singleton.1 hroot
    cases hschema
    exact wellDocumented_documentedUnit
  obtain ⟨hsession, hregister⟩ :=
    Act.documented_session_iff (consistent_empty 0) (documented_empty 0) hsound
  refine ⟨hsession, ?_⟩
  cases h : (Act.after documentedActs (empty 0)).register misdocumented with
  | error fault => rw [h] at haccepted; contradiction
  | ok g =>
    refine ⟨g, rfl, fun hdoc => ?_⟩
    have hsuits := (hregister misdocumented g h).1 hdoc 10 rfl
    rw [hkind] at hsuits
    contradiction

/-- A unit with a statement whose documentation is a statement. -/
def misdocumentedUnit : Json :=
  .object [("id", .int 9), ("nodeType", .string "SourceUnit"), ("nodes", .array
    [.object [("documentation", .object [("id", .int 1), ("nodeType", .string "Break")]),
      ("id", .int 5), ("nodeType", .string "Break")]])]

/-- The unit is read without complaint. -/
theorem not_documented_read : ∃ g,
    Run.read { Config.standard with postprocess := false } misdocumentedUnit (empty 0) = .ok [9] g ∧
      ¬ g.Documented := by
  have hread : Run.read { Config.standard with postprocess := false } misdocumentedUnit =
      Run.transaction (Run.readUnits { Config.standard with postprocess := false }
        [Output.Root.ofRecord misdocumentedUnit]) := Run.read_eq_transaction rfl
  have hends : Run.seen? (Run.read { Config.standard with postprocess := false } misdocumentedUnit)
      (fun units g => (units, g.documentationNode? 5, g.kind? 1)) (empty 0) =
        some ([9], some 1, some .breakStatement) := by
    rw [hread, Run.readUnits_singleton]
    decide +kernel
  obtain ⟨units, g, h, hview⟩ := Run.seen?_eq_some hends
  obtain ⟨rfl, hnode, hkind⟩ := by simpa using hview
  refine ⟨g, h, fun hdoc => ?_⟩
  have hbreak := hdoc 5 1 hnode
  rw [hkind] at hbreak
  contradiction

end SolidityTree
