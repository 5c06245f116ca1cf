import SolidityTree.Proofs.Registrations
import SolidityTree.Proofs.Schemas
import SolidityTree.Reading

/-!
# Records that carry their ids

If a record and all records below it carry their ids, no id has to be given out, and the nodes that
they become do not depend on the forest (`Record.nodes?`).  All that is left for the forest is to
take these nodes in, one after another (`Run.convert_eq_ok_iff`, `Run.readRoots_eq_ok_iff`).
-/

namespace SolidityTree

open Forest

/-- No id has to be given out for a record, or for one below it.  A value that the schema does not
read as a record needs no id, since its conversion fails before that. -/
def Schema.OwnIds (schema : Schema) (r : Json) : Prop :=
  ∀ s kind draft, Relation.ReflTransGen schema.Asks r s → schema.draft s = .ok (kind, draft) →
    Record.id? s ≠ .ok none

theorem Schema.OwnIds.of_asks {schema : Schema} {r s : Json} (h : schema.OwnIds r)
    (hs : schema.Asks r s) : schema.OwnIds s := fun t kind draft ht => h t kind draft (.head hs ht)

/-! ### Drafts -/

namespace Draft

variable {α : Type} {of : Json → Option (List Node × Node)} {a : α} {ns : List Node}

/-- The nodes that the records of a draft become, and what the draft finishes with, given the nodes
of single records: those below the record, and its own. -/
def nodes? (of : Json → Option (List Node × Node)) : Draft α → Option (List Node × α)
  | .done a => some ([], a)
  | .fail _ => none
  | .convert r next =>
    (of r).bind fun (below, root) =>
      (nodes? of (next root.id)).map fun (rest, a) => (below ++ [root] ++ rest, a)

theorem nodes?_done_eq_some {b : α} : (done b).nodes? of = some (ns, a) ↔ ns = [] ∧ b = a := by
  rw [nodes?, Option.some.injEq, Prod.mk.injEq, eq_comm]

theorem nodes?_convert_eq_some {r : Json} {next : NodeId → Draft α} :
    (Draft.convert r next).nodes? of = some (ns, a) ↔ ∃ below root rest, of r = some (below, root) ∧
      (next root.id).nodes? of = some (rest, a) ∧ below ++ [root] ++ rest = ns := by
  simp only [nodes?, Option.bind_eq_some_iff, Option.map_eq_some_iff, Prod.exists, Prod.mk.injEq]
  constructor
  · rintro ⟨below, root, hr, rest, b, hrest, rfl, rfl⟩
    exact ⟨below, root, rest, hr, hrest, rfl⟩
  · rintro ⟨below, root, rest, hr, hrest, rfl⟩
    exact ⟨below, root, hr, rest, a, hrest, rfl, rfl⟩

/-- What a draft finishes with, and which nodes its records have become. -/
theorem exists_trace_of_nodes? {Q : Trace → α → Prop} {trace : Trace} {d : Draft α}
    (hof : ∀ r below root, of r = some (below, root) → SelfContained (below ++ [root]))
    (hd : d.wp Q trace) (h : d.nodes? of = some (ns, a)) :
    SelfContained ns ∧ ∃ later, Q (trace ++ later) a ∧ later.map Prod.snd ⊆ ns.map Node.id := by
  induction d generalizing trace ns with
  | done b =>
    obtain ⟨rfl, rfl⟩ := nodes?_done_eq_some.1 h
    exact ⟨selfContained_nil, [], by rwa [List.append_nil], List.nil_subset _⟩
  | fail fault => contradiction
  | convert r next ih =>
    obtain ⟨below, root, rest, hr, hrest, rfl⟩ := nodes?_convert_eq_some.1 h
    obtain ⟨hself, later, hQ, hlater⟩ := ih root.id (hd root.id) hrest
    refine ⟨(hof r below root hr).append hself, (r, root.id) :: later, ?_, ?_⟩
    · rwa [List.append_cons]
    · rw [List.map_cons, List.map_append, List.map_append]
      exact List.cons_subset.2 ⟨by simp, fun k hk => List.mem_append_right _ (hlater hk)⟩

/-- A draft whose records become their nodes by being registered is run by registering all of
them. -/
theorem run_eq_ok_iff {convert : Json → Run NodeId} {d : Draft α}
    (hconvert : ∀ r, d.Asks r → ∀ f id g, convert r f = .ok id g ↔
      ∃ below root, of r = some (below, root) ∧ root.id = id ∧
        f.registerAll (below ++ [root]) = .ok g) (f g : Forest) (a : α) :
    d.run convert f = .ok a g ↔ ∃ ns, d.nodes? of = some (ns, a) ∧ f.registerAll ns = .ok g := by
  induction d generalizing f with
  | done b =>
    constructor
    · intro h
      obtain ⟨rfl, rfl⟩ := EStateM.Result.ok.inj h
      exact ⟨[], nodes?_done_eq_some.2 ⟨rfl, rfl⟩, rfl⟩
    · rintro ⟨ns, h, hg⟩
      obtain ⟨rfl, rfl⟩ := nodes?_done_eq_some.1 h
      obtain rfl : f = g := Except.ok.inj hg
      rfl
  | fail fault => exact ⟨nofun, fun ⟨_, h, _⟩ => nomatch h⟩
  | convert r next ih =>
    have hrest := fun id => ih id fun s hs => hconvert s (.inr ⟨id, hs⟩)
    constructor
    · intro h
      obtain ⟨id, f', hr, h⟩ := Run.bind_eq_ok.1 h
      obtain ⟨below, root, hof, rfl, hf'⟩ := (hconvert r (.inl rfl) f id f').1 hr
      obtain ⟨rest, hnodes, hg⟩ := (hrest root.id f').1 h
      exact ⟨_, nodes?_convert_eq_some.2 ⟨below, root, rest, hof, hnodes, rfl⟩,
        registerAll_append_eq_ok.2 ⟨f', hf', hg⟩⟩
    · rintro ⟨ns, h, hg⟩
      obtain ⟨below, root, rest, hof, hnodes, rfl⟩ := nodes?_convert_eq_some.1 h
      obtain ⟨f', hf', hg⟩ := registerAll_append_eq_ok.1 hg
      exact Run.bind_eq_ok.2 ⟨root.id, f',
        (hconvert r (.inl rfl) f root.id f').2 ⟨below, root, hof, rfl, hf'⟩,
        (hrest root.id f').2 ⟨rest, hnodes, hg⟩⟩

end Draft

/-! ### Records -/

section

variable {config : Config} {schema : Schema} {levels : Nat} {r : Json} {below : List Node}
  {root : Node} {f g : Forest}

/-- The nodes that the records below a record become, and the node that it becomes itself, all with
the ids that the records carry. -/
def Record.nodes? (config : Config) (schema : Schema) : Nat → Json → Option (List Node × Node)
  | 0, _ => none
  | levels + 1, r =>
    match schema.draft r, Record.id? r, Record.src r with
    | .ok (kind, draft), .ok (some own), .ok src =>
      (draft.nodes? (nodes? config schema levels)).map fun (below, payload) =>
        (below, .fresh own src payload (if config.keepRaw ∨ kind = .inlineAssembly then
          some (Record.shallow schema r) else none))
    | _, _, _ => none

theorem Record.nodes?_succ_eq_some :
    nodes? config schema (levels + 1) r = some (below, root) ↔ ∃ kind draft id src payload,
      schema.draft r = .ok (kind, draft) ∧ Record.id? r = .ok (some id) ∧
        Record.src r = .ok src ∧
          draft.nodes? (nodes? config schema levels) = some (below, payload) ∧
          .fresh id src payload (if config.keepRaw ∨ kind = .inlineAssembly then
            some (Record.shallow schema r) else none) = root := by
  constructor
  · intro h
    rw [nodes?] at h
    split at h
    · next kind draft id src hdraft hid hsrc =>
      obtain ⟨⟨below', payload⟩, hbelow, heq⟩ := Option.map_eq_some_iff.1 h
      obtain ⟨rfl, rfl⟩ := Prod.mk.inj heq
      exact ⟨kind, draft, id, src, payload, hdraft, hid, hsrc, hbelow, rfl⟩
    · contradiction
  · rintro ⟨kind, draft, id, src, payload, hdraft, hid, hsrc, hbelow, rfl⟩
    rw [nodes?, hdraft, hid, hsrc]
    exact Option.map_eq_some_iff.2 ⟨(below, payload), hbelow, rfl⟩

/-- The nodes below a record list no children but each other, as does its own one; and if that is a
unit, it has the place that the record gives it. -/
theorem Record.selfContained_nodes? (h : nodes? config schema levels r = some (below, root)) :
    SelfContained below ∧ (root.forest? = none ∧ root.children ⊆ below.map Node.id) ∧
      ∀ u, root.unit? = some u →
        ∃ src, Record.src r = .ok src ∧ u.sourceListIndex = src.source := by
  induction levels generalizing r below root with
  | zero => contradiction
  | succ levels ih =>
    obtain ⟨kind, draft, id, src, payload, hdraft, -, -, hbelow, rfl⟩ := nodes?_succ_eq_some.1 h
    have hof : ∀ r below root, nodes? config schema levels r = some (below, root) →
        SelfContained (below ++ [root]) := fun r below root h => by
      obtain ⟨hself, ⟨hfresh, hchildren⟩, -⟩ := ih h
      exact hself.append_singleton hfresh hchildren
    obtain ⟨hself, later, ⟨⟨kept, htakes⟩, hplace⟩, hlater⟩ := Draft.exists_trace_of_nodes? hof
      ((Schema.wp_draft hdraft).and (Schema.wp_draft_place hdraft)) hbelow
    exact ⟨hself, ⟨rfl, fun c hc => hlater (htakes.listsSome.subset hc)⟩, hplace⟩

/-- The id of a record that does not need to be given one. -/
theorem Run.idOf_eq_ok_iff (hid : Record.id? r ≠ .ok none) {own : NodeId} :
    idOf r f = .ok own g ↔ Record.id? r = .ok (some own) ∧ f = g := by
  constructor
  · intro h
    obtain ⟨own?, f', hask, h⟩ := bind_eq_ok.1 h
    obtain ⟨hown, rfl⟩ := ask_eq_ok.1 hask
    cases own? with
    | none => exact absurd hown hid
    | some own' =>
      obtain ⟨rfl, rfl⟩ := EStateM.Result.ok.inj h
      exact ⟨hown, rfl⟩
  · rintro ⟨hown, rfl⟩
    exact bind_eq_ok.2 ⟨some own, f, ask_eq_ok.2 ⟨hown, rfl⟩, rfl⟩

/-- **The conversion of a record that carries its ids** registers its nodes, and does nothing else;
it succeeds if that does. -/
theorem Run.convert_eq_ok_iff (hids : schema.OwnIds r) (f : Forest) (own : NodeId) (g : Forest) :
    convert config schema levels r f = .ok own g ↔ ∃ below root,
      Record.nodes? config schema levels r = some (below, root) ∧ root.id = own ∧
        f.registerAll (below ++ [root]) = .ok g := by
  induction levels generalizing r f own g with
  | zero => exact ⟨nofun, fun ⟨_, _, h, _⟩ => nomatch h⟩
  | succ levels ih =>
    have hrun : ∀ {kind draft}, schema.draft r = .ok (kind, draft) → ∀ f g payload,
        draft.run (convert config schema levels) f = .ok payload g ↔ ∃ ns,
          draft.nodes? (Record.nodes? config schema levels) = some (ns, payload) ∧
            f.registerAll ns = .ok g := fun {kind draft} hdraft =>
      Draft.run_eq_ok_iff fun s hs => ih (hids.of_asks ⟨kind, draft, hdraft, hs⟩)
    constructor
    · intro h
      obtain ⟨⟨kind, draft⟩, f', hask, h⟩ := bind_eq_ok.1 h
      obtain ⟨hdraft, rfl⟩ := ask_eq_ok.1 hask
      obtain ⟨own, f', hidOf, h⟩ := bind_eq_ok.1 h
      obtain ⟨hown, rfl⟩ := (idOf_eq_ok_iff (hids r kind draft .refl hdraft)).1 hidOf
      obtain ⟨src, f', hask, h⟩ := bind_eq_ok.1 h
      obtain ⟨hsrc, rfl⟩ := ask_eq_ok.1 hask
      obtain ⟨payload, f', hpayload, h⟩ := bind_eq_ok.1 h
      obtain ⟨below, hbelow, hf'⟩ := (hrun hdraft _ _ _).1 hpayload
      obtain ⟨handle, g', hregister, h⟩ := bind_eq_ok.1 h
      obtain ⟨rfl, rfl⟩ := EStateM.Result.ok.inj h
      exact ⟨below, _, Record.nodes?_succ_eq_some.2
        ⟨kind, draft, own, src, payload, hdraft, hown, hsrc, hbelow, rfl⟩, rfl,
        registerAll_snoc_eq_ok.2 ⟨f', hf', register_of_run hregister⟩⟩
    · rintro ⟨below, root, hnodes, rfl, hg⟩
      obtain ⟨kind, draft, own, src, payload, hdraft, hown, hsrc, hbelow, rfl⟩ :=
        Record.nodes?_succ_eq_some.1 hnodes
      obtain ⟨f', hf', hregister⟩ := registerAll_snoc_eq_ok.1 hg
      refine bind_eq_ok.2 ⟨(kind, draft), f, ask_eq_ok.2 ⟨hdraft, rfl⟩, ?_⟩
      have hidOf := (idOf_eq_ok_iff (f := f) (hids r kind draft .refl hdraft)).2 ⟨hown, rfl⟩
      refine bind_eq_ok.2 ⟨own, f, hidOf, ?_⟩
      refine bind_eq_ok.2 ⟨src, f, ask_eq_ok.2 ⟨hsrc, rfl⟩, ?_⟩
      refine bind_eq_ok.2 ⟨payload, f', (hrun hdraft _ _ _).2 ⟨below, hbelow, hf'⟩, ?_⟩
      exact bind_eq_ok.2 ⟨_, g, register_run_eq hregister, rfl⟩

end

/-! ### Roots -/

namespace Output.Root

variable {config : Config} {root : Root} {below : List Node} {n : Node} {f g : Forest}

/-- The nodes of a root record: those below the unit, and the unit with the key and the place that
the output gives it. -/
def nodes? (config : Config) (root : Root) : Option (List Node × Node) :=
  match Schema.detect? root.record with
  | none => none
  | some schema =>
    ((Record.nodes? config schema config.maxDepth root.record).filter fun (_, n) =>
      n.unit?.isSome).map fun (below, n) =>
        (below, n.mapPayload (Payload.mapUnit · (Run.placed root)))

theorem nodes?_eq_some : root.nodes? config = some (below, n) ↔ ∃ schema m,
    Schema.detect? root.record = some schema ∧
      Record.nodes? config schema config.maxDepth root.record = some (below, m) ∧
        m.unit?.isSome ∧ m.mapPayload (Payload.mapUnit · (Run.placed root)) = n := by
  rw [nodes?]
  split
  · next hdetect =>
    simp [hdetect]
  · next schema hdetect =>
    simp only [Option.map_eq_some_iff, Option.filter_eq_some_iff, Prod.exists, Prod.mk.injEq]
    constructor
    · rintro ⟨below', m, ⟨hnodes, hunit⟩, rfl, rfl⟩
      exact ⟨schema, m, hdetect, hnodes, hunit, rfl⟩
    · rintro ⟨schema', m, hdetect', hnodes, hunit, rfl⟩
      obtain rfl := Option.some.inj (hdetect.symm.trans hdetect')
      exact ⟨below, m, ⟨hnodes, hunit⟩, rfl, rfl⟩

/-- No id has to be given out for the root record, or for one below it. -/
def OwnIds (root : Root) : Prop :=
  ∀ schema, Schema.detect? root.record = some schema → schema.OwnIds root.record

/-- Where a unit is to be listed: where the output puts it, or else where its record does. -/
def place? (root : Root) : Option Int :=
  (Record.src root.record).toOption.map fun src => root.index?.getD src.source

/-- A root by itself is listed where its record says. -/
theorem place?_ofRecord_eq_some {r : Json} {place : Int} :
    (ofRecord r).place? = some place ↔ ∃ src, Record.src r = .ok src ∧ src.source = place := by
  show (Record.src r).toOption.map Span.source = some place ↔ _
  cases Record.src r with
  | error fault => simp [Except.toOption]
  | ok src => simp [Except.toOption]

/-- The nodes of a root record list no children but each other, and the unit has its place. -/
theorem selfContained_nodes? (h : root.nodes? config = some (below, n)) :
    SelfContained (below ++ [n]) ∧
      ∃ u, n.unit? = some u ∧ root.place? = some u.sourceListIndex := by
  obtain ⟨schema, m, -, hnodes, hunit, rfl⟩ := nodes?_eq_some.1 h
  obtain ⟨hself, ⟨hfresh, hchildren⟩, hplace⟩ := Record.selfContained_nodes? hnodes
  obtain ⟨u, hu⟩ := Option.isSome_iff_exists.1 hunit
  obtain ⟨src, hsrc, hindex⟩ := hplace u hu
  have hplaced : (m.mapPayload (Payload.mapUnit · (Run.placed root))).unit? =
      some (Run.placed root u) := by
    have hattributes : m.payload.attributes.unit? = some u := hu
    show (m.payload.attributes.mapUnit (Run.placed root)).unit? = _
    rw [Attributes.unit?_mapUnit, hattributes]
    rfl
  refine ⟨hself.append_singleton hfresh hchildren, _, hplaced, ?_⟩
  rw [place?, hsrc]
  show some (root.index?.getD src.source) = some (root.index?.getD u.sourceListIndex)
  rw [hindex]

end Output.Root

namespace Run

variable {config : Config} {root : Output.Root} {f g : Forest}

theorem readRoot_eq_ok_iff (hids : root.OwnIds) {own : NodeId} :
    readRoot config root f = .ok own g ↔ ∃ below n, root.nodes? config = some (below, n) ∧
      n.id = own ∧ f.registerAll (below ++ [n]) = .ok g := by
  -- the unit is found right after its conversion, in which it has been registered last
  have hunit : ∀ {h h' : Forest} {n : Node}, h.register n = .ok h' →
      (h'.get? n.id).bind Node.unit? = n.unit? := fun {h h' n} hregister => by
    have hself := not_mem_children_of_register hregister
    obtain ⟨-, -, rfl⟩ := register_eq_ok hregister
    rw [get?_insert n hself, if_pos rfl]
    rfl
  cases hdetect : Schema.detect? root.record with
  | none =>
    rw [readRoot, hdetect]
    refine ⟨nofun, fun ⟨below, n, h, _⟩ => ?_⟩
    obtain ⟨schema, _, hschema, -⟩ := Output.Root.nodes?_eq_some.1 h
    rw [hdetect] at hschema
    contradiction
  | some schema =>
    rw [readRoot, hdetect]
    dsimp only
    constructor
    · intro h
      obtain ⟨own', f', hconvert, h⟩ := bind_eq_ok.1 h
      obtain ⟨below, m, hnodes, rfl, hf'⟩ :=
        (convert_eq_ok_iff (hids schema hdetect) _ _ _).1 hconvert
      obtain ⟨f₁, hbelow, hregister⟩ := registerAll_snoc_eq_ok.1 hf'
      obtain ⟨-, ⟨hfresh, -⟩, -⟩ := Record.selfContained_nodes? hnodes
      obtain ⟨f₂, f₃, hget, h⟩ := bind_eq_ok.1 h
      obtain ⟨rfl, rfl⟩ := EStateM.Result.ok.inj hget
      rw [hunit hregister] at h
      split at h
      · obtain ⟨_, _, hthrow, -⟩ := bind_eq_ok.1 h
        contradiction
      · next hsome =>
        obtain ⟨_, f₄, hmodify, h⟩ := bind_eq_ok.1 h
        obtain ⟨-, rfl⟩ := EStateM.Result.ok.inj hmodify
        obtain ⟨rfl, rfl⟩ := EStateM.Result.ok.inj h
        refine ⟨below, _, Output.Root.nodes?_eq_some.2 ⟨schema, m, hdetect, hnodes, ?_, rfl⟩, rfl,
          registerAll_snoc_eq_ok.2 ⟨f₁, hbelow, (register_mapPayload_eq_ok hfresh
            (Payload.children_mapUnit m.payload (placed root))).2 ⟨_, hregister, rfl⟩⟩⟩
        exact Option.isSome_iff_ne_none.2 fun hnone => hsome (Option.isNone_iff_eq_none.2 hnone)
    · rintro ⟨below, n, hnodes, rfl, hg⟩
      obtain ⟨schema', m, hdetect', hnodes, hsome, rfl⟩ := Output.Root.nodes?_eq_some.1 hnodes
      obtain rfl : schema = schema' := Option.some.inj (hdetect.symm.trans hdetect')
      obtain ⟨-, ⟨hfresh, -⟩, -⟩ := Record.selfContained_nodes? hnodes
      obtain ⟨f₁, hbelow, hg⟩ := registerAll_snoc_eq_ok.1 hg
      obtain ⟨f₂, hregister, rfl⟩ := (register_mapPayload_eq_ok hfresh
        (Payload.children_mapUnit m.payload (placed root))).1 hg
      refine bind_eq_ok.2 ⟨m.id, f₂, (convert_eq_ok_iff (hids schema hdetect) _ _ _).2
        ⟨below, m, hnodes, rfl, registerAll_snoc_eq_ok.2 ⟨f₁, hbelow, hregister⟩⟩, ?_⟩
      refine bind_eq_ok.2 ⟨f₂, f₂, rfl, ?_⟩
      have hnone : ¬ m.unit?.isNone := fun hnone => by
        rw [Option.isNone_iff_eq_none.1 hnone] at hsome
        contradiction
      rw [hunit hregister, if_neg hnone]
      rfl

/-- **The roots of units that carry their ids** are read by registering all their nodes. -/
theorem readRoots_eq_ok_iff {roots : List Output.Root} (hids : ∀ root ∈ roots, root.OwnIds)
    {ids : List NodeId} : readRoots config roots f = .ok ids g ↔ ∃ blocks : List (List Node × Node),
      List.Forall₂ (fun root block => root.nodes? config = some block) roots blocks ∧
        blocks.map (fun block => block.2.id) = ids ∧
          f.registerAll (blocks.map fun block => block.1 ++ [block.2]).flatten = .ok g := by
  induction roots generalizing f g ids with
  | nil =>
    constructor
    · intro h
      obtain ⟨rfl, rfl⟩ := EStateM.Result.ok.inj h
      exact ⟨[], .nil, rfl, rfl⟩
    · rintro ⟨blocks, hblocks, rfl, hg⟩
      obtain rfl := List.forall₂_nil_left_iff.1 hblocks
      obtain rfl : f = g := Except.ok.inj hg
      rfl
  | cons root rest ih =>
    obtain ⟨hroot, hrest⟩ := List.forall_mem_cons.1 hids
    constructor
    · intro h
      obtain ⟨own, f', hread, h⟩ := bind_eq_ok.1 h
      obtain ⟨below, n, hnodes, rfl, hf'⟩ := (readRoot_eq_ok_iff hroot).1 hread
      obtain ⟨ids, f'', hread, h⟩ := bind_eq_ok.1 h
      obtain ⟨blocks, hblocks, rfl, hf''⟩ := (ih hrest).1 hread
      obtain ⟨rfl, rfl⟩ := EStateM.Result.ok.inj h
      exact ⟨(below, n) :: blocks, .cons hnodes hblocks, rfl,
        registerAll_append_eq_ok.2 ⟨f', hf', hf''⟩⟩
    · rintro ⟨blocks, hblocks, rfl, hg⟩
      obtain ⟨block, blocks, hnodes, hrest', rfl⟩ := List.forall₂_cons_left_iff.1 hblocks
      obtain ⟨f', hf', hg⟩ := registerAll_append_eq_ok.1 hg
      exact bind_eq_ok.2 ⟨block.2.id, f',
        (readRoot_eq_ok_iff hroot).2 ⟨block.1, block.2, hnodes, rfl, hf'⟩,
        bind_eq_ok.2 ⟨_, g, (ih hrest).2 ⟨blocks, hrest', rfl, hg⟩, rfl⟩⟩

end Run

end SolidityTree
