import SolidityTree.Proofs.Alike
import SolidityTree.Proofs.Growth
import SolidityTree.Proofs.OwnIds

/-!
# The order of roots

The units of an output are listed by their places, not in the order in which their root records are
read.  If these records and those below them carry their ids, then they become the same nodes in
whatever order they are read (`Run.readRoots_perm`); and if no two units have the same place, then
the passes find the same units in the same order, and give out the same ids.  So in the end the
order of the roots makes no difference at all (`Run.read_perm`).
-/

namespace SolidityTree

open Forest

theorem View.seesAssembly_unordered : View.unordered.SeesAssembly := ⟨rfl, rfl⟩

namespace Run

open Output

variable {config : Config} {roots roots' : List Root} {ids ids' : List NodeId} {f g : Forest}

/-- Root records that carry their ids can be read in any order. -/
theorem readRoots_perm (hperm : roots.Perm roots') (hids : ∀ root ∈ roots, root.OwnIds)
    (h : readRoots config roots f = .ok ids g) : ∃ ids' g',
      readRoots config roots' f = .ok ids' g' ∧ ids.Perm ids' ∧ g.Alike .unordered g' := by
  obtain ⟨blocks, hblocks, rfl, hg⟩ := (readRoots_eq_ok_iff hids).1 h
  obtain ⟨blocks', hblocks', hperm'⟩ := List.perm_comp_forall₂ hperm.symm hblocks
  have hself : ∀ ns ∈ blocks.map fun block => block.1 ++ [block.2], SelfContained ns := by
    intro ns hns
    obtain ⟨block, hblock, rfl⟩ := List.mem_map.1 hns
    obtain ⟨i, hi, rfl⟩ := List.mem_iff_getElem.1 hblock
    obtain ⟨hlength, hget⟩ := List.forall₂_iff_get.1 hblocks
    exact (Root.selfContained_nodes? (hget i (hlength ▸ hi) hi)).1
  obtain ⟨g', hg', hgg'⟩ := registerAll_perm (hperm'.symm.map _) hself hg
  have hids' : ∀ root ∈ roots', root.OwnIds := fun root hroot => hids root (hperm.mem_iff.2 hroot)
  exact ⟨_, g', (readRoots_eq_ok_iff hids').2 ⟨blocks', hblocks', rfl, hg'⟩,
    hperm'.symm.map fun block => block.2.id, hgg'⟩

/-- The units are at the places of their roots. -/
theorem map_placeOf_readRoots (hids : ∀ root ∈ roots, root.OwnIds)
    (h : readRoots config roots f = .ok ids g) :
    roots.map Root.place? = ids.map fun id => some (placeOf g id) := by
  obtain ⟨blocks, hblocks, rfl, hg⟩ := (readRoots_eq_ok_iff hids).1 h
  obtain ⟨-, hpayload⟩ := payload?_registerAll hg
  have hfound : ∀ block ∈ blocks,
      (g.get? block.2.id).map Node.payload = some block.2.payload := fun block hblock =>
    hpayload block.2 (List.mem_flatten.2
      ⟨_, List.mem_map_of_mem hblock, List.mem_append_right _ (List.mem_singleton_self _)⟩)
  rw [List.map_map]
  clear h hg hpayload hids
  induction hblocks with
  | nil => rfl
  | @cons root block rest blocks hroot _ ih =>
    obtain ⟨hblock, hblocks⟩ := List.forall_mem_cons.1 hfound
    obtain ⟨-, u, hu, hplace⟩ := Root.selfContained_nodes? hroot
    have hunit : g.unit? block.2.id = some u := by
      obtain ⟨m, hm, hpayload⟩ := Option.map_eq_some_iff.1 hblock
      rw [unit?_of_get? hm, ← hu, Node.unit?, hpayload, Node.unit?]
    rw [List.map_cons, List.map_cons, ih hblocks, hplace, Function.comp_apply,
      placeOf_of_unit? hunit]

/-- Nodes at different places have one order. -/
theorem mergeSort_eq_of_perm {place : NodeId → Int} (hperm : ids.Perm ids')
    (hnodup : (ids.map place).Nodup) :
    (ids.mergeSort fun a b => place a ≤ place b) = ids'.mergeSort fun a b => place a ≤ place b := by
  refine List.Perm.eq_of_pairwise (fun a b ha hb hab hba => ?_) (sorted_mergeSort place ids)
    (sorted_mergeSort place ids') ?_
  · rw [List.mem_mergeSort] at ha hb
    exact List.inj_on_of_nodup_map hnodup ha (hperm.mem_iff.2 hb) (Int.le_antisymm hab hba)
  · exact ((List.mergeSort_perm ids _).trans hperm).trans (List.mergeSort_perm ids' _).symm

/-- The root records carry their ids, and no two of their units have the same place. -/
structure Independent (roots : List Root) : Prop where
  ownIds : ∀ root ∈ roots, root.OwnIds
  places : roots.Pairwise fun root root' =>
    ∀ place place', root.place? = some place → root'.place? = some place' → place ≠ place'

theorem Independent.perm (hroots : Independent roots) (hperm : roots.Perm roots') :
    Independent roots' where
  ownIds root hroot := hroots.ownIds root (hperm.mem_iff.2 hroot)
  places := hroots.places.perm hperm fun h place place' hplace hplace' =>
    (h place' place hplace' hplace).symm

theorem Independent.nodup_places (hroots : Independent roots)
    (h : readRoots config roots f = .ok ids g) : (ids.map (placeOf g)).Nodup := by
  have hplaces : (roots.map Root.place?).Pairwise fun x y =>
      ∀ place place', x = some place → y = some place' → place ≠ place' :=
    List.pairwise_map.2 hroots.places
  rw [map_placeOf_readRoots hroots.ownIds h, List.pairwise_map] at hplaces
  exact List.pairwise_map.2 (hplaces.imp fun h => h _ _ rfl rfl)

/-- Independent roots can be read in any order, with all passes. -/
theorem readUnits_perm (hperm : roots.Perm roots') (hroots : Independent roots)
    {units : List NodeId} (h : readUnits config roots f = .ok units g) :
    ∃ g', readUnits config roots' f = .ok units g' ∧ g.Alike .unordered g' := by
  obtain ⟨ids, h₁, hread, hunits, hrest⟩ := readUnits_eq_ok.1 h
  obtain ⟨ids', h₂, hread', hperm', halike⟩ := readRoots_perm hperm hroots.ownIds hread
  have hunits' : (ids'.mergeSort fun a b => placeOf h₂ a ≤ placeOf h₂ b) = units := by
    rw [← hunits, mergeSort_eq_of_perm hperm' (hroots.nodup_places hread),
      placeOf_eq_of_alike halike]
  split at hrest
  · next hpasses =>
    -- from here on it is the same run, and it ends alike for forests that are alike
    have hpost : Alike .unordered (postprocess config units) (postprocess config units) :=
      @alike_postprocess .unordered config config.keepRaw config.keepRaw
        View.seesAssembly_unordered (.inl rfl) units
    obtain ⟨g', hg', hgg'⟩ := (hpost h₁ h₂ halike).exists_ok hrest
    exact ⟨g', readUnits_eq_ok.2 ⟨ids', h₂, hread', hunits', by rwa [if_pos hpasses]⟩, hgg'⟩
  · next hpasses =>
    rw [hrest] at halike
    exact ⟨h₂, readUnits_eq_ok.2 ⟨ids', h₂, hread', hunits', by rw [if_neg hpasses]⟩, halike⟩

/-- A read into a forest in no transaction leaves it in none. -/
theorem transactions_read (hf : f.transactions = []) {units : List NodeId}
    (h : transaction (readUnits config roots) f = .ok units g) : g.transactions = [] := by
  obtain ⟨g, hread, rfl⟩ := transaction_eq_ok.1 h
  obtain ⟨⟨made, hmade⟩, -, -⟩ := wp_ok (wp_readUnits (E := fun _ => True) config
    ⟨fun _ => trivial, fun _ _ => trivial⟩ roots (extends_begin f)) hread
  rw [Forest.commit, hmade.transactions_eq, hf]

/-- Independent roots can be read in any order into a forest in no transaction. -/
theorem transaction_readUnits_perm (hf : f.transactions = []) (hperm : roots.Perm roots')
    (hroots : Independent roots) {units : List NodeId}
    (h : transaction (readUnits config roots) f = .ok units g) :
    transaction (readUnits config roots') f = .ok units g := by
  have htransactions := transactions_read hf h
  obtain ⟨g, hread, rfl⟩ := transaction_eq_ok.1 h
  obtain ⟨g', hread', hgg'⟩ := readUnits_perm hperm hroots hread
  have h' : transaction (readUnits config roots') f = .ok units g'.commit :=
    transaction_eq_ok.2 ⟨g', hread', rfl⟩
  have heq : g.commit = g'.commit := ext_get? hgg'.commit.id_eq hgg'.commit.get?_eq
    hgg'.commit.lastId_eq hgg'.commit.overrun_eq
    (htransactions.trans (transactions_read hf h').symm)
  rw [h', heq]

/-- **The order of unit roots does not matter**, if they and the records below them carry their ids,
and if no two roots name the same source: an array of them is read into an empty forest with the
same units, and leaves the same forest, as is any array with the same roots in another order; or
neither of them can be read. -/
theorem read_perm {rs rs' : List Json} (hperm : rs.Perm rs')
    (hids : ∀ r ∈ rs, ∀ schema, Schema.detect? r = some schema → schema.OwnIds r)
    (hsources : rs.Pairwise fun r s => ∀ a b, Record.src r = .ok a → Record.src s = .ok b →
      a.source ≠ b.source)
    (config : Config) (i : ForestId) (units : List NodeId) (g : Forest) :
    read config (.array rs) (empty i) = .ok units g ↔
      read config (.array rs') (empty i) = .ok units g := by
  have hroots : Independent (rs.map Root.ofRecord) := by
    refine ⟨fun root hroot => ?_, List.pairwise_map.2 (hsources.imp fun h place place' hr hs => ?_)⟩
    · obtain ⟨r, hr, rfl⟩ := List.mem_map.1 hroot
      exact hids r hr
    · obtain ⟨a, ha, rfl⟩ := Root.place?_ofRecord_eq_some.1 hr
      obtain ⟨b, hb, rfl⟩ := Root.place?_ofRecord_eq_some.1 hs
      exact h a b ha hb
  have hread : ∀ rs : List Json, read config (.array rs) =
      transaction (readUnits config (rs.map Root.ofRecord)) := fun rs => read_eq_transaction rfl
  rw [hread, hread]
  exact ⟨transaction_readUnits_perm rfl (hperm.map _) hroots,
    transaction_readUnits_perm rfl (hperm.symm.map _) (hroots.perm (hperm.map _))⟩

/-- An empty unit. -/
def emptyUnit : Json :=
  .object [("id", .int 2), ("nodeType", .string "SourceUnit"), ("nodes", .array []),
    ("src", .string "0:9:0")]

/-- Inline assembly, with a Yul block that has no id. -/
def assemblyRecord : Json :=
  .object [("id", .int 4), ("nodeType", .string "InlineAssembly"),
    ("AST", .object [("nodeType", .string "YulBlock")])]

/-- A unit with that assembly. -/
def assemblyUnit : Json :=
  .object [("id", .int 5), ("nodeType", .string "SourceUnit"), ("nodes", .array [assemblyRecord]),
    ("src", .string "0:9:1")]

theorem ownIds_emptyUnit : Schema.modern.OwnIds emptyUnit := by
  intro s _ _ hs _
  rcases hs.cases_head with rfl | ⟨t, ⟨kind, draft, hdraft, hasks⟩, -⟩
  · exact nofun
  · cases hdraft
    exact hasks.elim

theorem ownIds_assemblyUnit : Schema.modern.OwnIds assemblyUnit := by
  intro s _ _ hs _
  rcases hs.cases_head with rfl | ⟨t, ⟨kind, draft, hdraft, hasks⟩, hs⟩
  · exact nofun
  cases hdraft
  obtain rfl : t = assemblyRecord := hasks.resolve_right fun hasks => hasks.choose_spec.elim
  rcases hs.cases_head with rfl | ⟨t, ⟨kind, draft, hdraft, hasks⟩, -⟩
  · exact nofun
  · cases hdraft
    exact hasks.elim

/-- The units are listed by their places in both orders, and the Yul block is given the same id. -/
theorem read_perm_assemblyUnit : ∃ g,
    read .standard (.array [emptyUnit, assemblyUnit]) (empty 0) = .ok [2, 5] g ∧
      read .standard (.array [assemblyUnit, emptyUnit]) (empty 0) = .ok [2, 5] g ∧
        6 ∈ g.walk 5 := by
  let roots := [Root.ofRecord emptyUnit, Root.ofRecord assemblyUnit]
  have hroots : seen? (readRoots .standard roots) (fun ids h => (ids, placeOf h 2, placeOf h 5))
      (empty 0).begin = some ([2, 5], 0, 1) := by decide +kernel
  have hpasses : seen? (do let ids ← readRoots .standard roots; postprocess .standard ids)
      (fun _ g => (g.walk 5).contains 6) (empty 0).begin = some true := by decide +kernel
  obtain ⟨ids, h, hids, hview⟩ := seen?_eq_some hroots
  obtain ⟨rfl, hplace, hplace'⟩ : ids = [2, 5] ∧ placeOf h 2 = 0 ∧ placeOf h 5 = 1 := by
    simpa using hview
  obtain ⟨⟨⟩, g, hpost, hwalk⟩ := seen?_eq_some hpasses
  obtain ⟨ids', h', hids', hpost⟩ := bind_eq_ok.1 hpost
  obtain ⟨rfl, rfl⟩ := EStateM.Result.ok.inj (hids.symm.trans hids')
  have hsorted : ([2, 5].mergeSort fun a b => placeOf h a ≤ placeOf h b) = [2, 5] := by
    refine List.mergeSort_of_pairwise (List.pairwise_pair.2 ?_)
    rw [hplace, hplace']
    decide
  have htransaction : read .standard (.array [emptyUnit, assemblyUnit]) =
      transaction (readUnits .standard roots) := read_eq_transaction rfl
  have hread : read .standard (.array [emptyUnit, assemblyUnit]) (empty 0) =
      .ok [2, 5] g.commit := by
    rw [htransaction]
    exact transaction_eq_ok.2 ⟨g, readUnits_eq_ok.2 ⟨_, h, hids, hsorted, hpost⟩, rfl⟩
  have hperm : [emptyUnit, assemblyUnit].Perm [assemblyUnit, emptyUnit] := .swap _ _ []
  have hown : ∀ r ∈ [emptyUnit, assemblyUnit], ∀ schema, Schema.detect? r = some schema →
      schema.OwnIds r := by
    refine List.forall_mem_cons.2 ⟨fun schema hschema => ?_, List.forall_mem_singleton.2
      fun schema hschema => ?_⟩
    · cases hschema
      exact ownIds_emptyUnit
    · cases hschema
      exact ownIds_assemblyUnit
  have hsources : [emptyUnit, assemblyUnit].Pairwise fun r s => ∀ a b,
      Record.src r = .ok a → Record.src s = .ok b → a.source ≠ b.source := by
    refine List.pairwise_pair.2 fun a b ha hb => ?_
    cases ha
    cases hb
    decide
  refine ⟨g.commit, hread, (read_perm hperm hown hsources .standard 0 [2, 5] _).1 hread, ?_⟩
  rw [walk_commit]
  exact List.contains_iff_mem.1 hwalk

end Run

end SolidityTree
