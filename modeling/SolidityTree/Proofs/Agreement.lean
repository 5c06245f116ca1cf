import SolidityTree.Proofs.Alike
import SolidityTree.Proofs.Idempotence
import SolidityTree.Proofs.Planting

/-!
# Both schemas are read alike

A tree that both schemas have on the same terms can be written down as a record of either one.
Conversion makes that tree of both records (`Run.convertRoot_render`), so it does not matter which
schema a unit comes in (`Run.read_eq_ok_of_roots`): there is no inline assembly to expand, and the
other passes never look at what only one of the schemas carries.

Main statement: `Run.renderings_agree`.
-/

namespace SolidityTree

open Forest

variable {f g h : Forest} {t : Tree} {k : NodeId} {schema : Schema} {config : Config}

/-! ### Outlines -/

/-- The tree below a root, in pre-order: the id, the place and the common payload of each node. -/
def Forest.outline (f : Forest) (root : NodeId) : List (NodeId × Span × Payload) :=
  (f.walk root).filterMap fun k => (f.get? k).map fun n => (k, n.src, n.payload.common)

theorem Forest.outline_common (f : Forest) (root : NodeId) :
    f.common.outline root = f.outline root := by
  rw [outline, walk_common, outline]
  refine List.filterMap_congr fun k _ => ?_
  rw [get?_common, Option.map_map]
  congr 1
  funext n
  exact congrArg (fun p => (k, n.src, p)) n.payload.common_common

/-- The end of a transaction leaves the same tree. -/
theorem Forest.outline_commit (f : Forest) (root : NodeId) :
    f.commit.outline root = f.outline root := by
  rw [Forest.outline, walk_commit, Forest.outline]
  simp only [get?_commit]

namespace Tree

/-- The tree in pre-order: the id, the place and the common payload of each node. -/
def outline (t : Tree) : List (NodeId × Span × Payload) :=
  t.subtrees.map fun s => (s.id, s.src, s.payload.common)

theorem self_mem_subtrees (t : Tree) : t ∈ t.subtrees := by
  cases t
  rw [subtrees_node]
  exact List.mem_cons_self

theorem subtrees_subset {head : Head} {payload : Payload} {ts : List Tree} (ht : t ∈ ts) :
    t.subtrees ⊆ (node head payload ts).subtrees := by
  intro s hs
  rw [subtrees_node]
  exact List.mem_cons_of_mem _ (List.mem_flatMap.2 ⟨t, ht, hs⟩)

/-- A walk that goes deep enough finds a tree that is there. -/
theorem walkWithin_eq_ids {depth : Nat}
    (hlists : ∀ {head payload ts}, node head payload ts ∈ t.subtrees → payload.children = ts.map id)
    (hnodes : ∀ s ∈ t.subtrees, (g.get? s.id).map (fun n => (n.src, n.payload)) =
      some (s.src, s.payload)) (h : t.height ≤ depth) : g.walkWithin depth t.id = t.ids := by
  induction t generalizing depth with
  | node head payload ts ih =>
    obtain ⟨depth, rfl⟩ : ∃ n, depth = n + 1 :=
      Nat.exists_eq_add_one.2 (Nat.lt_of_lt_of_le (height_pos _) h)
    obtain ⟨n, hn, heq⟩ := Option.map_eq_some_iff.1 (hnodes _ (self_mem_subtrees _))
    have hpayload : n.payload = payload := congrArg Prod.snd heq
    have hchildren : n.children = ts.map id := by
      rw [Node.children, hpayload]
      exact hlists (self_mem_subtrees _)
    have hbelow : ∀ t ∈ ts, g.walkWithin depth t.id = t.ids := fun t ht =>
      ih t ht (fun hs => hlists (subtrees_subset ht hs))
        (fun s hs => hnodes s (subtrees_subset ht hs)) (height_node_le.1 h t ht)
    rw [Forest.walkWithin, hn, ids_node]
    show head.id :: n.children.flatMap (g.walkWithin depth) = _
    rw [hchildren, List.flatMap_map, List.flatMap_congr hbelow]

/-- **A planted tree is found** in the forest. -/
theorem outline_plant (hfits : Fits [t] f) : (t.plant f).outline t.id = t.outline := by
  have hplanted := planted hfits
  have hnodes : ∀ s ∈ t.subtrees, ((t.plant f).get? s.id).map (fun n => (n.src, n.payload)) =
      some (s.src, s.payload) := fun s hs => hplanted.node_eq s (by simpa using hs)
  have hheight : t.height ≤ (t.plant f).size := by
    refine Nat.le_trans t.height_le_length_ids (length_le_size_of_nodup ?_ fun k hk => ?_)
    · have hnodup := hfits.nodup
      rwa [flatMap_singleton_ids] at hnodup
    · exact (hplanted.contains_iff k).2 (.inl (by rwa [flatMap_singleton_ids]))
  have hwalk : (t.plant f).walk t.id = t.ids :=
    walkWithin_eq_ids (fun hs => hfits.lists (by simpa using hs)) hnodes hheight
  rw [Forest.outline, hwalk, ids, List.filterMap_map, outline, ← List.filterMap_eq_map]
  refine List.filterMap_congr fun s hs => ?_
  obtain ⟨n, hn, heq⟩ := Option.map_eq_some_iff.1 (hnodes s hs)
  obtain ⟨hsrc, hpayload⟩ := Prod.mk.inj heq
  rw [Function.comp_apply, Function.comp_apply, hn, Option.map_some, hsrc, hpayload]

/-! ### Sorted trees -/

/-- A sorted tree with distinct and free ids can be planted. -/
theorem WellSorted.fits (hsorted : t.WellSorted) (hids : t.ids.Nodup)
    (hfree : ∀ k ∈ t.ids, ¬ f.contains k) : Fits [t] f where
  lists {head payload ts} hs := by
    have hsound := hsorted _ (by simpa using hs)
    rw [isSound, Bool.and_eq_true, Bool.and_eq_true, Bool.and_eq_true, decide_eq_true_eq] at hsound
    exact hsound.1.1.1
  nodup := by rwa [flatMap_singleton_ids]
  free hk := hfree _ (by rwa [flatMap_singleton_ids] at hk)

/-- The kinds that both schemas have on the same terms do not include inline assembly. -/
theorem WellSorted.kind_ne (hsorted : t.WellSorted) {s : Tree} (hs : s ∈ t.subtrees) :
    s.kind ≠ .inlineAssembly := by
  intro hkind
  obtain ⟨head, payload, ts⟩ := s
  have hsound := hsorted _ hs
  rw [isSound, Bool.and_eq_true, Bool.and_eq_true, Bool.and_eq_true] at hsound
  have hsome := (Payload.shared_of_isSorted hsound.1.1.2).isSome_sorts?
  have hkind : payload.kind = .inlineAssembly := hkind
  rw [hkind] at hsome
  contradiction

theorem WellSorted.exists_unit (hsorted : t.WellSorted) (hkind : t.kind = .sourceUnit) :
    ∃ head unit nodes ts, t = node head (.sourceUnit unit nodes) ts := by
  obtain ⟨head, payload, ts⟩ := t
  have hsound := hsorted _ (self_mem_subtrees _)
  rw [isSound, Bool.and_eq_true, Bool.and_eq_true, Bool.and_eq_true] at hsound
  have hshared := Payload.shared_of_isSorted hsound.1.1.2
  have hkind : payload.kind = .sourceUnit := hkind
  cases hshared with
  | sourceUnit unit nodes => exact ⟨head, unit, nodes, ts, rfl⟩
  | _ => cases hkind

end Tree

open SolidityTree.Tree

/-! ### Outputs -/

/-- The path that the root names, if it is a source unit. -/
def Tree.path (t : Tree) : String := (t.payload.attributes.unit?.map (·.absolutePath)).getD ""

/-- The record of a unit by itself is an output, too, and gives the same path in both schemas. -/
theorem Output.roots_render (schema : Schema) (hsorted : t.WellSorted)
    (hkind : t.kind = .sourceUnit) :
    Output.roots (t.render schema) = .ok [⟨t.path, none, t.render schema⟩] := by
  obtain ⟨head, unit, nodes, ts, rfl⟩ := hsorted.exists_unit hkind
  have hsources : ((node head (.sourceUnit unit nodes) ts).render schema).get? "sources" = none := by
    rw [render_node, Json.get?_mkObject]
    cases schema <;> rfl
  have hpath : (((node head (.sourceUnit unit nodes) ts).render schema).get? "absolutePath" <|>
      (Legacy.attributes ((node head (.sourceUnit unit nodes) ts).render schema)).get?
        "absolutePath") = some (.string unit.absolutePath) := by
    cases schema with
    | modern =>
      rw [render_node, Schema.recordEntries,
        Modern.has_record head (.sourceUnit unit nodes) (recordIn .modern ts) _ (.head _)]
      rfl
    | legacy =>
      have hnone : ((node head (.sourceUnit unit nodes) ts).render .legacy).get? "absolutePath" =
          none := by
        rw [render_node, Json.get?_mkObject]
        rfl
      rw [hnone, render_node, Schema.recordEntries, Legacy.attributes,
        Legacy.has_record head (.sourceUnit unit nodes) (recordIn .legacy ts) _ (.head _),
        Option.getD_some, Json.get?_mkObject]
      rfl
  have hroot : Root.ofRecord ((node head (.sourceUnit unit nodes) ts).render schema) =
      ⟨unit.absolutePath, none, (node head (.sourceUnit unit nodes) ts).render schema⟩ := by
    rw [Root.ofRecord, hpath]
    rfl
  have hobject : ((node head (.sourceUnit unit nodes) ts).render schema).isObject :=
    isObject_render _
  obtain ⟨fields, hfields⟩ := Record.exists_eq_object hobject
  rw [hfields] at hsources hroot ⊢
  rw [roots, hsources]
  exact congrArg (fun root => Except.ok [root]) hroot

/-! ### Reading -/

namespace Run

open Output

/-- The unit that a record becomes has the key and the place that the output gives it already. -/
theorem modifyPayload_placed_eq_self {n : Node} (hsorted : t.WellSorted)
    (hkind : t.kind = .sourceUnit) (hn : g.get? k = some n)
    (hpayload : n.payload.common = t.payload.common) (record : Json) :
    g.modifyPayload k (Payload.mapUnit · (placed ⟨t.path, none, record⟩)) = g := by
  obtain ⟨head, unit, nodes, ts, rfl⟩ := hsorted.exists_unit hkind
  have hsound := hsorted _ (self_mem_subtrees _)
  rw [isSound, Bool.and_eq_true, Bool.and_eq_true] at hsound
  have hreadable : (Attributes.sourceUnit unit).isReadable := hsound.1.2
  rw [Attributes.isReadable, Bool.and_eq_true, Bool.and_eq_true, decide_eq_true_eq] at hreadable
  have hplaced : placed ⟨unit.absolutePath, none, record⟩ unit = unit := by
    have hkey := hreadable.1.1
    cases unit
    exact congrArg (UnitAttributes.mk · _ _ _ _) hkey.symm
  refine modifyPayload_eq_self fun m hm => ?_
  obtain rfl : m = n := Option.some.inj (hm.symm.trans hn)
  have hattributes : m.payload.attributes.common = .sourceUnit unit :=
    congrArg Payload.attributes hpayload
  refine Payload.ext_parts ?_ rfl
  show m.payload.attributes.mapUnit (placed ⟨unit.absolutePath, none, record⟩) = _
  revert hattributes
  cases m.payload.attributes <;> intro hattributes <;> cases hattributes
  rw [Attributes.mapUnit, hplaced]

/-- **The record of a unit becomes that unit**, as far as both schemas carry it. -/
theorem readRoot_render (hsorted : t.WellSorted) (hkind : t.kind = .sourceUnit)
    (hfits : Fits [t] f) (hheight : t.height ≤ config.maxDepth) :
    ∃ g, readRoot config ⟨t.path, none, t.render schema⟩ f = .ok t.id g ∧
      g.common = (t.plant f).common := by
  obtain ⟨g, hconvert, hg⟩ : ∃ g, convert config schema config.maxDepth (t.render schema) f =
      .ok t.id g ∧ g.common = (t.plant f).common := convert_render hsorted hfits hheight
  refine ⟨g, ?_, hg⟩
  -- the root of the planted tree is found under its id, with the common payload
  obtain ⟨n, hn, hnode⟩ := Option.map_eq_some_iff.1
    ((planted hfits).node_eq t (by simpa using t.self_mem_subtrees))
  obtain ⟨m, hm, hcommon⟩ := exists_common_eq (show (t.plant f).common = g.common from hg.symm) hn
  have hpayload : m.payload.common = t.payload.common := by
    rw [← (Prod.mk.inj hnode).2]
    exact congrArg Node.payload hcommon
  have hunit : (g.unit? t.id).isSome := by
    obtain ⟨head, unit, nodes, ts, rfl⟩ := hsorted.exists_unit hkind
    rw [unit?_of_get? hm, ← Node.unit?_common]
    show m.payload.common.attributes.unit?.isSome
    rw [hpayload]
    rfl
  have hplace := modifyPayload_placed_eq_self hsorted hkind hm hpayload (t.render schema)
  rw [readRoot, detect?_render]
  refine bind_eq_ok.2 ⟨t.id, g, hconvert, bind_eq_ok.2 ⟨g, g, rfl, ?_⟩⟩
  have hsome : ¬ ((g.get? t.id).bind Node.unit?).isNone := by
    obtain ⟨unit, hunit⟩ := Option.isSome_iff_exists.1 hunit
    have hunit : (g.get? t.id).bind Node.unit? = some unit := hunit
    rw [hunit]
    exact Bool.false_ne_true
  dsimp only
  rw [if_neg hsome]
  have hmodify : (modify (Forest.modifyPayload · t.id
      (Payload.mapUnit · (placed ⟨t.path, none, t.render schema⟩))) : Run Unit) g = .ok () g :=
    congrArg (EStateM.Result.ok ()) hplace
  exact bind_eq_ok.2 ⟨(), g, hmodify, rfl⟩

/-- No node of the forest is inline assembly. -/
def WithoutAssembly (g : Forest) : Prop := ∀ k n, g.get? k = some n → n.kind ≠ .inlineAssembly

/-- Without inline assembly there is nothing to expand. -/
theorem postprocess_eq_lastPasses (hg : WithoutAssembly g) (units : List NodeId) :
    postprocess config units g = Pass.runAll [Builtin.pass, Comments.pass] config units g := by
  have hidle : ∀ k, ¬ Assembly.Unexpanded g k := by
    intro k hacts
    obtain ⟨n, hn, hsupports⟩ := (Option.any_eq_true _ _).1 hacts
    have hempty : n.payload.isUnexpanded := (Bool.and_eq_true_iff.1 hsupports).1
    rw [Payload.isUnexpanded, decide_eq_true_eq] at hempty
    exact hg k n hn hempty.1
  have hassembly : Assembly.pass.run config units g = .ok () g := by
    refine forM_eq_self fun u _ => ?_
    show ((g.walk u).forM (Assembly.pass.visit config)) g = .ok () g
    exact forM_eq_self fun k _ => (Assembly.actsWhere config).idle (hidle k)
  exact bind_of_ok hassembly _

/-- The passes that are left succeed, and see the common part alone. -/
theorem exists_postprocess {units : List NodeId} (hg : Grown False f g units)
    (hwithout : WithoutAssembly g) :
    ∃ h, postprocess config units g = .ok () h ∧
      ∀ g', g'.common = g.common →
        ∃ h', postprocess config units g' = .ok () h' ∧ h'.common = h.common := by
  have halike : Run.Alike .common (Pass.runAll [Builtin.pass, Comments.pass] config units)
      (Pass.runAll [Builtin.pass, Comments.pass] config units) := by
    refine Pass.alike_runAll (fun p hp => ?_) units
    simp only [List.mem_cons, List.not_mem_nil, or_false] at hp
    rcases hp with rfl | rfl
    · exact Builtin.alike
    · exact Comments.alike rfl
  have hlast : wp (Pass.runAll [Builtin.pass, Comments.pass] config units)
      (fun _ h => Finished config units h) (fun _ => False) g := wp_lastPasses_finished hg
  cases hrun : Pass.runAll [Builtin.pass, Comments.pass] config units g with
  | error fault h => exact (wp_error hlast hrun).elim
  | ok _ h =>
    refine ⟨h, by rw [postprocess_eq_lastPasses hwithout, hrun], fun g' hcommon => ?_⟩
    have hwithout' : WithoutAssembly g' := fun k n hn => by
      obtain ⟨m, hm, hnode⟩ := exists_common_eq hcommon hn
      rw [← n.kind_common, ← hnode, m.kind_common]
      exact hwithout k m hm
    obtain ⟨h', hrun', hh⟩ := (halike g g' (alike_common_iff.2 hcommon.symm)).exists_ok hrun
    exact ⟨h', by rw [postprocess_eq_lastPasses hwithout', hrun'], (alike_common_iff.1 hh).symm⟩

/-- What a read of the record does, once the record has become a unit. -/
theorem read_render_eq (hsorted : t.WellSorted) (hkind : t.kind = .sourceUnit)
    (hread : readRoot config ⟨t.path, none, t.render schema⟩ f.begin = .ok t.id g)
    (hpasses : if config.postprocess then postprocess config [t.id] g = .ok () h else h = g) :
    read config (t.render schema) f = .ok [t.id] h.commit := by
  have hunits : readUnits config [⟨t.path, none, t.render schema⟩] f.begin = .ok [t.id] h := by
    rw [readUnits_singleton]
    refine bind_eq_ok.2 ⟨t.id, g, hread, ?_⟩
    split at hpasses
    · next hwanted =>
      rw [if_pos hwanted]
      exact bind_eq_ok.2 ⟨(), h, hpasses, rfl⟩
    · next hunwanted =>
      rw [if_neg hunwanted, hpasses]
      rfl
  rw [read_eq_transaction (Output.roots_render schema hsorted hkind), transaction, hunits]

/-- **Both schemas are read alike.**  A tree of a unit, written down as a record of the modern or of
the legacy schema, is accepted by a read into an empty forest, and the two forests are the same but
for what only one of the schemas carries; without the passes, they hold just that tree. -/
theorem renderings_agree (i : ForestId) (hsorted : t.WellSorted) (hkind : t.kind = .sourceUnit)
    (hids : t.ids.Nodup) (hheight : t.height ≤ config.maxDepth) :
    ∃ modern legacy, read config (t.render .modern) (empty i) = .ok [t.id] modern ∧
      read config (t.render .legacy) (empty i) = .ok [t.id] legacy ∧
      modern.common = legacy.common ∧
      (¬ config.postprocess → modern.outline t.id = t.outline ∧
        ∀ k, modern.contains k ↔ k ∈ t.ids) := by
  have hnew : ∀ k, ¬ (empty i).begin.contains k := by simp [contains, Forest.begin, empty]
  have hfits : Fits [t] (empty i).begin := hsorted.fits hids fun k _ => hnew k
  have hread : ∀ schema, ∃ g, readRoot config ⟨t.path, none, t.render schema⟩ (empty i).begin =
      .ok t.id g ∧ g.common = (t.plant (empty i).begin).common :=
    fun _ => readRoot_render hsorted hkind hfits hheight
  obtain ⟨g, hg, hgcommon⟩ := hread .modern
  obtain ⟨g', hg', hgcommon'⟩ := hread .legacy
  have hcommon : g'.common = g.common := hgcommon'.trans hgcommon.symm
  have hcommit : ∀ {h h' : Forest}, h'.common = h.common → h.commit.common = h'.commit.common :=
    fun {h h'} heq => by rw [← commit_common, ← heq, commit_common]
  have hcontains : ∀ k, g.contains k ↔ k ∈ t.ids := fun k => by
    have hplanted := (planted hfits).contains_iff k
    rw [flatMap_singleton_ids, or_iff_left (hnew k)] at hplanted
    rw [← contains_common, hgcommon, contains_common]
    exact hplanted
  by_cases hpasses : config.postprocess
  · have hgrown : Grown False (empty i) g [t.id] :=
      (wp_ok (wp_readRoot_grown config _ False.elim (grown_begin (consistent_empty i))) hg).1
    have hwithout : WithoutAssembly g := fun k n hn => by
      obtain ⟨s, hs, rfl⟩ := List.mem_map.1 ((hcontains k).1 (contains_iff_get?.2 ⟨n, hn⟩))
      obtain ⟨m, hm, hnode⟩ := exists_common_eq hgcommon hn
      obtain ⟨m', hm', hs'⟩ := Option.map_eq_some_iff.1
        ((planted hfits).node_eq s (by simpa using hs))
      obtain rfl : m = m' := Option.some.inj (hm.symm.trans hm')
      have hkind : m.kind = s.kind := congrArg Payload.kind (Prod.mk.inj hs').2
      rw [← n.kind_common, ← hnode, m.kind_common, hkind]
      exact hsorted.kind_ne hs
    obtain ⟨h, hh, hsame⟩ : ∃ h, postprocess config [t.id] g = .ok () h ∧
        ∀ g', g'.common = g.common →
          ∃ h', postprocess config [t.id] g' = .ok () h' ∧ h'.common = h.common :=
      exists_postprocess hgrown hwithout
    obtain ⟨h', hh', hcommon'⟩ := hsame g' hcommon
    refine ⟨h.commit, h'.commit, read_render_eq hsorted hkind hg (by rwa [if_pos hpasses]),
      read_render_eq hsorted hkind hg' (by rwa [if_pos hpasses]), hcommit hcommon', ?_⟩
    exact fun hunwanted => absurd hpasses hunwanted
  · refine ⟨g.commit, g'.commit, read_render_eq hsorted hkind hg (by rw [if_neg hpasses]),
      read_render_eq hsorted hkind hg' (by rw [if_neg hpasses]), hcommit hcommon, fun _ => ⟨?_, ?_⟩⟩
    · rw [outline_commit, ← outline_common, hgcommon, outline_common, outline_plant hfits]
    · exact fun k => by rw [contains_commit, hcontains]

/-- A contract with a typed variable that has a value, and with a function whose body is a loop that
has a condition only. -/
def loopUnit : Tree :=
  .node ⟨9, ⟨0, 70, 0⟩, rfl, by decide⟩ (.sourceUnit ⟨"a.sol", 0, "a.sol", [("C", 8)], none⟩ [8])
    [.node ⟨8, ⟨0, 70, 0⟩, rfl, by decide⟩
      (.contractDefinition ⟨"C", 9, .contract, false, true, [8], [], [], some "text", none, none⟩
        [12, 7])
      [.node ⟨12, ⟨13, 13, 0⟩, rfl, by decide⟩
        (.variableDeclaration ⟨false, false, "x", 8, true, .unspecified, .internally, .mutable,
          "bool", some ⟨18, 1, 0⟩⟩ none (some 10) none (some 11))
        [.node ⟨10, ⟨13, 4, 0⟩, rfl, by decide⟩ (.elementaryTypeName "bool" "bool" .nonPayable) [],
         .node ⟨11, ⟨22, 4, 0⟩, rfl, by decide⟩
          (.literal ⟨"bool", .bool, "74727565", some "true", none⟩) []],
       .node ⟨7, ⟨28, 40, 0⟩, rfl, by decide⟩
        (.functionDefinition ⟨8, .function, "f", false, .externally, .nonPayable, false, none⟩ none
          1 none [] 2 (some 6))
        [.node ⟨1, ⟨38, 2, 0⟩, rfl, by decide⟩ (.parameterList []) [],
         .node ⟨2, ⟨50, 0, 0⟩, rfl, by decide⟩ (.parameterList []) [],
         .node ⟨6, ⟨50, 18, 0⟩, rfl, by decide⟩ (.block ⟨none, none⟩ [5])
          [.node ⟨5, ⟨52, 14, 0⟩, rfl, by decide⟩ (.forStatement none none (some 3) none 4)
            [.node ⟨3, ⟨59, 1, 0⟩, rfl, by decide⟩ (.identifier "bool" "x" 12 []) [],
             .node ⟨4, ⟨64, 2, 0⟩, rfl, by decide⟩ (.block ⟨none, none⟩ []) []]]]]]

/-- The modern record names the type, the value and the condition.  The legacy one tells the type
and the value apart by their kinds, and marks the other parts of the loop as absent. -/
theorem renderings_agree_loopUnit :
    loopUnit.WellSorted ∧ loopUnit.kind = .sourceUnit ∧ loopUnit.ids.Nodup ∧
      loopUnit.height ≤ Config.standard.maxDepth ∧
      ∃ modern legacy, read .standard (loopUnit.render .modern) (empty 0) = .ok [9] modern ∧
        read .standard (loopUnit.render .legacy) (empty 0) = .ok [9] legacy ∧
        modern.common = legacy.common := by
  have hsorted : loopUnit.WellSorted := by decide +kernel
  have hids : loopUnit.ids.Nodup := by decide +kernel
  have hheight : loopUnit.height ≤ Config.standard.maxDepth := by decide +kernel
  obtain ⟨modern, legacy, hmodern, hlegacy, hcommon, -⟩ :=
    renderings_agree 0 hsorted rfl hids hheight
  exact ⟨hsorted, rfl, hids, hheight, modern, legacy, hmodern, hlegacy, hcommon⟩

end Run

end SolidityTree
