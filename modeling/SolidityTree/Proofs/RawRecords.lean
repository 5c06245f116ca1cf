import SolidityTree.Proofs.ReadInvariants
import SolidityTree.Proofs.RecordParts
import SolidityTree.Proofs.ShallowRecords

/-!
# Records that live on as nodes

A node that is read keeps its record without the fields that hold records (`Record.shallow`), and
the records that were converted for it stand in such fields (`Modern.parts`), since each of them is
tagged.  The one exception are the functions of a using directive, which are wrapped: an entry of a
function list needs no tag, and if none has one then the directive keeps them all, although they
have become nodes.

Main statement: `Run.raw?_of_read`.
-/

namespace SolidityTree

open Forest

/-! ### Records in a record that is kept -/

namespace Modern

open Record Json

variable {r s t : Json} {path rest : List Accessor}

/-- A record keeps the record at the end of the path with the field that the path leads to: the tree
that inline assembly embeds, or an entry of a function list, if no entry is tagged. -/
def Keeps (r : Json) (path : List Accessor) : Prop :=
  Schema.modern.kind? r = some .inlineAssembly ∧ path.head? = some (.key "AST") ∨
    Schema.modern.kind? r = some .usingForDirective ∧ path.head? = some (.key "functionList") ∧
      ¬ (r.get? "functionList").any holdsRecord

/-- A record in a field makes the field one that holds records. -/
theorem holdsRecord_of_mem_fieldParts {shape : Shape} {key : String} {p : Part}
    (hp : p ∈ fieldParts r (shape, key)) (hvalue : holdsRecord p.value) :
    ∃ v, r.get? key = some v ∧ holdsRecord v := by
  rcases depth_of_mem_fieldParts hp with ⟨-, hfield⟩ | ⟨-, hitem⟩
  · exact ⟨p.value, (mem_fieldPart hfield).1, hvalue⟩
  · obtain ⟨items, i, hget, hitem, -⟩ := mem_itemParts hitem
    exact ⟨.array items, hget, holdsRecord_array (List.mem_of_getElem? hitem) hvalue⟩

theorem shares_shallow_iff {key : String} {v : Json} (h : r.get? key = some v) :
    (shallow .modern r).Shares r (.key key :: rest) ↔
      Schema.modern.kind? r = some .inlineAssembly ∧ key = "AST" ∨ ¬ holdsRecord v := by
  rw [← get?_shallow_eq_iff h]
  refine ⟨fun ⟨part, hkept, hpart⟩ => ?_, fun hkept => ⟨v, hkept, h⟩⟩
  obtain rfl := Option.some.inj (h.symm.trans hpart)
  exact hkept

/-- What is left of a record has none of the records in it, but for those that it keeps. -/
theorem Holds.shares_shallow_iff (h : Holds r path s) :
    (shallow .modern r).Shares r (path ++ rest) ↔ Keeps r path := by
  cases h with
  | @part kind p hkind hp hvalue =>
    rcases mem_parts hp with ⟨rfl, hentry⟩ | ⟨shape, key, hfield, hp⟩
    · obtain ⟨entries, i, entry, name, hget, -, -, hpath⟩ := mem_entryParts hentry
      rw [hpath, List.cons_append, Modern.shares_shallow_iff hget, Keeps, hkind, hget]
      simp
    · obtain ⟨v, hget, hholds⟩ :=
        holdsRecord_of_mem_fieldParts hp (holdsRecord_of_kind? hvalue)
      obtain ⟨inner, hpath⟩ := List.head?_eq_some_iff.1 (head?_of_mem_fieldParts hp).1
      rw [hpath, List.cons_append, Modern.shares_shallow_iff hget]
      refine iff_of_false ?_ ?_
      · rintro (⟨hassembly, rfl⟩ | hnone)
        · obtain rfl := Option.some.inj (hkind.symm.trans hassembly)
          exact tree_ne_of_mem_fields hfield rfl
        · exact hnone hholds
      · rintro (⟨hassembly, ⟨⟩⟩ | ⟨husing, ⟨⟩, -⟩)
        · obtain rfl := Option.some.inj (hkind.symm.trans hassembly)
          exact tree_ne_of_mem_fields hfield rfl
        · obtain rfl := Option.some.inj (hkind.symm.trans husing)
          exact functionList_ne_of_mem_fields hfield rfl
  | tree hkind htree ht =>
    rw [List.cons_append, Modern.shares_shallow_iff htree, Keeps, hkind]
    simp

/-- So it is with the records that are met further down. -/
theorem MeetsAt.shares_shallow_iff (h : MeetsAt r path t) (hpath : path ≠ []) :
    (shallow .modern r).Shares r path ↔ Keeps r path := by
  cases h with
  | self r => contradiction
  | @inner r s t first rest hs _ =>
    obtain ⟨name, more, rfl⟩ := hs.exists_cons
    exact hs.shares_shallow_iff

end Modern

/-! ### Nodes and their records -/

namespace Forest

variable {f g h : Forest} {n : Node} {k : NodeId} {r s raw : Json} {met met' : Json → Prop}

/-- The node is of the kind of the record and keeps what is left of it. -/
structure Records (g : Forest) (k : NodeId) (r : Json) : Prop where
  kind?_eq : g.kind? k = Schema.modern.kind? r
  raw?_eq : g.raw? k = some (Record.shallow .modern r)

theorem additive_records (k : NodeId) (r : Json) : Run.Additive fun g => g.Records k r where
  nextId hg := ⟨hg.kind?_eq, hg.raw?_eq⟩
  register {g h n} hg hregister := by
    have hne : k ≠ n.id := by
      rintro rfl
      obtain ⟨m, hm, -⟩ := Option.bind_eq_some_iff.1 hg.raw?_eq
      exact (register_eq_ok hregister).1 (contains_iff_get?.2 ⟨m, hm⟩)
    refine ⟨?_, ?_⟩
    · rw [kind?_register hregister, if_neg hne, hg.kind?_eq]
    · rw [raw?_register hregister, if_neg hne, hg.raw?_eq]

namespace Records

theorem redocuments (hg : g.Records k r) (hgh : Redocuments g h) : h.Records k r :=
  ⟨(hgh.kind?_eq k).trans hg.kind?_eq, (hgh.raw?_eq k).trans hg.raw?_eq⟩

theorem isSome_kind? (hg : g.Records k r) : (Schema.modern.kind? r).isSome := by
  obtain ⟨n, hn, -⟩ := Option.bind_eq_some_iff.1 hg.raw?_eq
  rw [← hg.kind?_eq, kind?_of_get? hn]
  rfl

end Records

/-- The records that are converted for the record have become new nodes. -/
def PartsRecorded (f g : Forest) (r : Json) : Prop :=
  ∀ kind, Schema.modern.kind? r = some kind → ∀ p ∈ Modern.parts kind r,
    ∃ c, ¬ f.contains c ∧ g.Records c p.value

/-- A forest with new nodes.  Those that keep a record keep what is left of one that was met, and
the records that were converted for that are new nodes, too. -/
structure Recording (f : Forest) (met : Json → Prop) (g : Forest) : Prop where
  contains_of_contains : ∀ {k}, f.contains k → g.contains k
  recorded : ∀ {k raw}, ¬ f.contains k → g.raw? k = some raw →
    ∃ r, met r ∧ g.Records k r ∧ PartsRecorded f g r

theorem recording_begin (f : Forest) : Recording f met f.begin where
  contains_of_contains hk := hk
  recorded {k raw} hk hraw := by
    obtain ⟨n, hn, -⟩ := Option.bind_eq_some_iff.1 hraw
    exact absurd (contains_iff_get?.2 ⟨n, hn⟩) hk

namespace Recording

theorem mono (hg : Recording f met g) (hmet : ∀ r, met r → met' r) : Recording f met' g where
  contains_of_contains := hg.contains_of_contains
  recorded hk hraw :=
    let ⟨r, hr, hrecords⟩ := hg.recorded hk hraw
    ⟨r, hmet r hr, hrecords⟩

theorem redocuments (hg : Recording f met g) (hgh : Redocuments g h) : Recording f met h where
  contains_of_contains {k} hk := by
    obtain ⟨kind, hkind⟩ := exists_kind?_of_contains (hg.contains_of_contains hk)
    exact contains_of_kind? ((hgh.kind?_eq _).trans hkind)
  recorded {k raw} hk hraw := by
    rw [hgh.raw?_eq] at hraw
    obtain ⟨r, hr, hrecords, hparts⟩ := hg.recorded hk hraw
    exact ⟨r, hr, hrecords.redocuments hgh, fun kind hkind p hp =>
      let ⟨c, hc, hrecord⟩ := hparts kind hkind p hp
      ⟨c, hc, hrecord.redocuments hgh⟩⟩

/-- A new node keeps no record, or what is left of one that was met. -/
theorem register (hg : Recording f met g) (hregister : g.register n = .ok h)
    (hnew : ∀ raw, n.raw? = some raw → ∃ r, met r ∧ h.Records n.id r ∧ PartsRecorded f h r) :
    Recording f met h where
  contains_of_contains hk := (contains_register hregister).2 (.inr (hg.contains_of_contains hk))
  recorded {k raw} hk hraw := by
    rw [raw?_register hregister] at hraw
    split at hraw
    · next hid =>
      subst hid
      exact hnew raw hraw
    · obtain ⟨r, hr, hrecords, hparts⟩ := hg.recorded hk hraw
      exact ⟨r, hr, (additive_records k r).register hrecords hregister, fun kind hkind p hp =>
        let ⟨c, hc, hrecord⟩ := hparts kind hkind p hp
        ⟨c, hc, (additive_records c p.value).register hrecord hregister⟩⟩

end Recording

/-! ### Records that a draft has converted -/

variable {trace : Draft.Trace}

/-- The records of a trace have become new nodes. -/
def TraceRecorded (f g : Forest) (trace : Draft.Trace) : Prop :=
  ∀ c ∈ trace, ¬ f.contains c.2 ∧ g.Records c.2 c.1

/-- What was met before, and the records of a trace with those below them. -/
def MetBelow (met : Json → Prop) (trace : Draft.Trace) (s : Json) : Prop :=
  met s ∨ ∃ c ∈ trace, ∃ path, Modern.MeetsAt c.1 path s

theorem additive_traceRecorded (f : Forest) (trace : Draft.Trace) :
    Run.Additive fun g => TraceRecorded f g trace where
  nextId hg c hc := ⟨(hg c hc).1, (additive_records c.2 c.1).nextId (hg c hc).2⟩
  register hg hregister c hc :=
    ⟨(hg c hc).1, (additive_records c.2 c.1).register (hg c hc).2 hregister⟩

/-- One more record has been converted. -/
theorem metBelow_append {id : NodeId}
    (h : MetBelow met trace r ∨ ∃ path, Modern.MeetsAt s path r) :
    MetBelow met (trace ++ [(s, id)]) r := by
  rcases h with (h | ⟨c, hc, h⟩) | h
  · exact .inl h
  · exact .inr ⟨c, List.mem_append_left _ hc, h⟩
  · exact .inr ⟨(s, id), List.mem_append_right _ (List.mem_singleton_self _), h⟩

/-- The records of the trace are met in the record that they were converted for. -/
theorem TraceRecorded.meetsAt (htrace : TraceRecorded f g trace) {kind : Kind}
    (hkind : Schema.modern.kind? r = some kind)
    (hparts : trace.map Prod.fst = (Modern.parts kind r).map Json.Part.value)
    (hs : MetBelow met trace s) : met s ∨ ∃ path, Modern.MeetsAt r path s := by
  refine hs.imp_right fun ⟨c, hc, path, hs⟩ => ?_
  obtain ⟨p, hp, hvalue⟩ : ∃ p ∈ Modern.parts kind r, p.value = c.1 := by
    rw [← List.mem_map, ← hparts]
    exact List.mem_map_of_mem hc
  have hsome : (Schema.modern.kind? p.value).isSome := hvalue ▸ (htrace c hc).2.isSome_kind?
  exact ⟨p.path ++ path, .inner (.part hkind hp hsome) (hvalue ▸ hs)⟩

theorem TraceRecorded.partsRecorded (htrace : TraceRecorded f g trace) {kind : Kind}
    (hkind : Schema.modern.kind? r = some kind)
    (hparts : trace.map Prod.fst = (Modern.parts kind r).map Json.Part.value) :
    PartsRecorded f g r := by
  intro kind' hkind' p hp
  obtain rfl := Option.some.inj (hkind.symm.trans hkind')
  obtain ⟨c, hc, hvalue⟩ : ∃ c ∈ trace, c.1 = p.value := by
    rw [← List.mem_map, hparts]
    exact List.mem_map_of_mem hp
  exact ⟨c.2, (htrace c hc).1, hvalue ▸ (htrace c hc).2⟩

/-- The node of a record is registered, when those that were converted for it have become nodes. -/
theorem Recording.register_record (hg : Recording f (MetBelow met trace) g)
    (htrace : TraceRecorded f g trace)
    (hparts : trace.map Prod.fst = (Modern.parts n.kind r).map Json.Part.value)
    (hkind : Schema.modern.kind? r = some n.kind)
    (hraw : n.raw? = some (Record.shallow .modern r)) (hregister : g.register n = .ok h) :
    Recording f (fun s => met s ∨ ∃ path, Modern.MeetsAt r path s) h ∧
      ¬ f.contains n.id ∧ h.Records n.id r := by
  have hself : h.Records n.id r := by
    refine ⟨?_, ?_⟩
    · rw [kind?_register hregister, if_pos rfl, hkind]
    · rw [raw?_register hregister, if_pos rfl, hraw]
  have htrace' := (additive_traceRecorded f trace).register htrace hregister
  refine ⟨(hg.mono fun s => htrace.meetsAt hkind hparts).register hregister fun _ _ =>
    ⟨r, .inr ⟨[], .self r⟩, hself, htrace'.partsRecorded hkind hparts⟩, fun hold => ?_, hself⟩
  exact (register_eq_ok hregister).1 (hg.contains_of_contains hold)

end Forest

namespace Run

variable {f g : Forest} {met : Json → Prop}

/-- A record becomes a node that keeps what is left of it; the records below are met as well. -/
theorem wp_convert_recording {config : Config} (hkeep : config.keepRaw) (levels : Nat) {r : Json}
    (hg : Recording f met g) :
    wp (convert config .modern levels r) (fun id h =>
      Recording f (fun s => met s ∨ ∃ path, Modern.MeetsAt r path s) h ∧
        ¬ f.contains id ∧ h.Records id r) (fun _ => True) g := by
  -- on the levels that are left, for whatever records were met before
  induction levels generalizing r met g with
  | zero => exact wp_throw trivial
  | succ levels ih =>
    refine wp_bind (wp_ask (fun (kind, draft) hdraft => ?_) trivial)
    refine (wp_idOf hg (hg.redocuments (.of_get? fun _ => rfl)) trivial).andThen fun id g hg =>
      wp_bind (wp_ask (fun src _ => ?_) trivial)
    have hconverts : draft.wp (fun trace p => p.kind = kind ∧
        trace.map Prod.fst = (Modern.parts kind r).map Json.Part.value) [] := by
      obtain ⟨payload, hpayload, rfl⟩ := Schema.draft_eq_ok hdraft
      cases hpayload
      exact (Modern.wp_payload_kind kind r).and (Modern.converts_payload kind r [])
    have hrecord : ∀ s trace g, Recording f (MetBelow met trace) g ∧ TraceRecorded f g trace →
        wp (convert config .modern levels s) (fun id h =>
          Recording f (MetBelow met (trace ++ [(s, id)])) h ∧
            TraceRecorded f h (trace ++ [(s, id)])) (fun _ => True) g := by
      intro s trace g ⟨hg, htrace⟩
      have hkept :=
        (additive_traceRecorded f trace).keeps_convert config .modern levels s g htrace
      refine ((ih (r := s) hg).and hkept).mono (fun id h ⟨⟨hh, hnode⟩, hold⟩ => ?_)
        fun _ _ => trivial
      exact ⟨hh.mono fun _ => metBelow_append,
        List.forall_mem_append.2 ⟨hold, by simpa using hnode⟩⟩
    have hrun := Draft.wp_run
      (fun trace g => Recording f (MetBelow met trace) g ∧ TraceRecorded f g trace) hrecord
      (fun _ _ _ => trivial) hconverts (f := g) ⟨hg.mono fun _ => .inl, fun c hc => by cases hc⟩
    refine hrun.andThen fun payload g ⟨trace, ⟨hpayload, hparts⟩, hg, htrace⟩ => ?_
    refine wp_bind (wp_register (fun h hregister => wp_pure ?_) trivial)
    subst hpayload
    exact hg.register_record (n := .fresh id src payload _) htrace hparts
      (Schema.kind?_of_draft hdraft) (if_pos (.inl hkeep)) hregister

/-! ### Reads -/

/-- A record that is met in one of the roots. -/
def MetIn (roots : List Output.Root) (r : Json) : Prop :=
  ∃ root ∈ roots, ∃ path, Modern.MeetsAt root.record path r

/-- The tree that inline assembly embeds is met in the root in which the assembly is. -/
theorem readInvariant_recording {config : Config} (hkeep : config.keepRaw)
    {roots : List Output.Root}
    (hmodern : ∀ root ∈ roots, Schema.detect? root.record = some .modern) :
    ReadInvariant config roots f (Recording f (MetIn roots)) where
  redocuments hg hgh := hg.redocuments hgh
  documentation hg hregister := hg.register hregister fun raw hraw => by cases hraw
  tree {g k tree} hg hk hkind htree := by
    obtain ⟨raw, hraw, htree⟩ := Option.bind_eq_some_iff.1 htree
    obtain ⟨s, ⟨root, hroot, path, hs⟩, hrecords, -⟩ := hg.recorded hk hraw
    rw [hrecords.kind?_eq] at hkind
    obtain rfl := Option.some.inj (hraw.symm.trans hrecords.raw?_eq)
    rw [Record.get?_shallow_tree hkind] at htree
    refine (wp_convert_recording hkeep config.maxDepth hg).mono (fun id h hh => hh.1.mono ?_)
      fun _ _ => trivial
    rintro t (ht | ⟨rest, ht⟩)
    · exact ht
    · have hholds : Modern.Holds s _ tree := .tree hkind htree hh.2.2.isSome_kind?
      exact ⟨root, hroot, _, hs.trans (.inner hholds ht)⟩
  root {g root schema} hg hroot hschema := by
    obtain rfl := Option.some.inj ((hmodern root hroot).symm.trans hschema)
    refine (wp_convert_recording hkeep config.maxDepth hg).mono (fun id h hh => hh.1.mono ?_)
      fun _ _ => trivial
    rintro t (ht | ⟨path, ht⟩)
    · exact ht
    · exact ⟨root, hroot, path, ht⟩

/-- **What nodes keep of the records of other nodes**, when all units are modern.  A new node with a
record keeps what is left of one that stands in a root, and the records that were converted for that
one are new nodes.  A record that stands inside it is kept where the record keeps it
(`Modern.Keeps`), and otherwise gone with the field that it stands in. -/
theorem raw?_of_read {config : Config} (hkeep : config.keepRaw) {output : Json}
    {roots : List Output.Root} (hroots : Output.roots output = .ok roots)
    (hmodern : ∀ root ∈ roots, Schema.detect? root.record = some .modern) {units : List NodeId}
    (h : read config output f = .ok units g) {k : NodeId} (hk : ¬ f.contains k) {raw : Json}
    (hraw : g.raw? k = some raw) :
    ∃ root ∈ roots, ∃ path r, Modern.MeetsAt root.record path r ∧ g.Records k r ∧
      PartsRecorded f g r ∧ raw = Record.shallow .modern r ∧
      ∀ rest s, rest ≠ [] → Modern.MeetsAt root.record (path ++ rest) s →
        (Modern.Keeps r rest → raw.at? rest = some s) ∧
          (¬ Modern.Keeps r rest → ¬ raw.Shares r rest) := by
  have hrecording : Recording f (MetIn roots) g := by
    refine ReadInvariant.of_read h (fun roots' hroots' => ?_) (recording_begin f)
    obtain rfl := Except.ok.inj (hroots.symm.trans hroots')
    exact readInvariant_recording hkeep hmodern
  obtain ⟨r, ⟨root, hroot, path, hr⟩, hrecords, hparts⟩ := hrecording.recorded hk hraw
  obtain rfl := Option.some.inj (hraw.symm.trans hrecords.raw?_eq)
  refine ⟨root, hroot, path, r, hr, hrecords, hparts, rfl, fun rest s hne hs => ?_⟩
  have hbelow := hr.of_append hs
  have hshares := hbelow.shares_shallow_iff hne
  refine ⟨fun hkeeps => ?_, fun hdrops hshared => hdrops (hshares.1 hshared)⟩
  rw [(hshares.2 hkeeps).at?_eq, hbelow.at?]

/-! ### A using directive -/

/-- The record of a function that is used. -/
def usedFunction : Json :=
  .object [("id", .int 1), ("name", .string "f"), ("nodeType", .string "IdentifierPath")]

/-- A using directive with that function. -/
def usingFunction : Json :=
  .object [("functionList", .array [.object [("function", usedFunction)]]), ("id", .int 2),
    ("nodeType", .string "UsingForDirective")]

/-- A unit with that directive. -/
def usingUnit : Json :=
  .object [("id", .int 9), ("nodeType", .string "SourceUnit"), ("nodes", .array [usingFunction])]

theorem eq_usingFunction_of_meetsAt {path : List Json.Accessor} {r : Json}
    (h : Modern.MeetsAt usingUnit path r)
    (hkind : Schema.modern.kind? r = some .usingForDirective) : r = usingFunction := by
  have hunit : ∀ {path s}, Modern.Holds usingUnit path s → s = usingFunction := fun hs => by
    cases hs with
    | part hkind hp _ =>
      cases hkind
      exact congrArg Json.Part.value (List.mem_singleton.1 hp)
    | tree hkind _ _ => cases hkind
  have hdirective : ∀ {path s}, Modern.Holds usingFunction path s → s = usedFunction := fun hs => by
    cases hs with
    | part hkind hp _ =>
      cases hkind
      exact congrArg Json.Part.value (List.mem_singleton.1 hp)
    | tree hkind _ _ => cases hkind
  have hfunction : ∀ {path s}, ¬ Modern.Holds usedFunction path s := fun hs => by
    cases hs with
    | part hkind hp _ =>
      cases hkind
      contradiction
    | tree hkind _ _ => cases hkind
  cases h with
  | self r => cases hkind
  | inner hs hrest =>
    obtain rfl := hunit hs
    cases hrest with
    | self r => rfl
    | inner hs hrest =>
      obtain rfl := hdirective hs
      cases hrest with
      | self r => cases hkind
      | inner hs _ => exact (hfunction hs).elim

/-- The directive keeps the record of the function, which is a node of its own. -/
theorem raw?_of_read_usingUnit : ∃ g raw c, read .standard usingUnit (empty 0) = .ok [9] g ∧
    g.raw? 2 = some raw ∧
    raw.at? [.key "functionList", .index 0, .key "function"] = some usedFunction ∧
    g.Records c usedFunction := by
  have hread : read .standard usingUnit =
      transaction (readUnits .standard [Output.Root.ofRecord usingUnit]) := read_eq_transaction rfl
  have hends : seen? (read .standard usingUnit)
      (fun units g => (units, g.kind? 2, (g.raw? 2).isSome)) (empty 0) =
        some ([9], some .usingForDirective, true) := by
    rw [hread, readUnits_singleton]
    decide +kernel
  obtain ⟨units, g, h, hview⟩ := seen?_eq_some hends
  obtain ⟨rfl, hkind, hsome⟩ := by simpa using hview
  obtain ⟨raw, hraw⟩ := Option.isSome_iff_exists.1 hsome
  have hmodern : ∀ root ∈ [Output.Root.ofRecord usingUnit],
      Schema.detect? root.record = some .modern := by
    rintro root hroot
    obtain rfl := List.mem_singleton.1 hroot
    rfl
  obtain ⟨root, hroot, path, r, hr, hrecords, hparts, -, hinside⟩ :=
    raw?_of_read (f := empty 0) (g := g) (k := 2) rfl rfl hmodern h (by decide) hraw
  obtain rfl := List.mem_singleton.1 hroot
  obtain rfl := eq_usingFunction_of_meetsAt hr (hrecords.kind?_eq.symm.trans hkind)
  have hpart : ⟨[.key "functionList", .index 0, .key "function"], usedFunction⟩ ∈
      Modern.parts .usingForDirective usingFunction := List.mem_singleton_self _
  obtain ⟨c, -, hc⟩ := hparts _ rfl _ hpart
  have hfunction := (hinside [.key "functionList", .index 0, .key "function"] usedFunction (by simp)
    (hr.trans (.of_holds (.part rfl hpart rfl)))).1 (.inr ⟨rfl, rfl, by decide⟩)
  exact ⟨g, raw, c, h, hraw, hfunction, hc⟩

end Run

end SolidityTree
