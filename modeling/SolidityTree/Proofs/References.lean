import SolidityTree.Proofs.Idempotence

/-!
# References after a read

A read with passes goes through four forests after one another (`Run.Stages`): the records are
converted, inline assembly is expanded, lost references are cleared, and comments are recovered.
Nothing that was there when references are cleared is lost later, and the nodes that the last pass
makes refer to nothing.  So in the end every reference in the trees of the units is negative or
names a node, and it is what the pass over references found unless it was lost
(`Run.references_read`).
-/

namespace SolidityTree

open Forest

variable {f g : Forest} {k : NodeId} {n : Node} {config : Config} {units : List NodeId}

namespace Run

open Output

/-- The forests between which the parts of a read with passes work, inside its transaction. -/
structure Stages (config : Config) (output : Json) (units : List NodeId)
    (f converted expanded cleared recovered : Forest) : Prop where
  converts : ∃ roots ids, Output.roots output = .ok roots ∧
    readRoots config roots f.begin = .ok ids converted ∧
      units = ids.mergeSort fun a b => placeOf converted a ≤ placeOf converted b
  expands : Assembly.pass.run config units converted = .ok () expanded
  clears : Builtin.pass.run config units expanded = .ok () cleared
  recovers : Comments.pass.run config units cleared = .ok () recovered

variable {output : Json} {converted expanded cleared recovered : Forest}

theorem exists_stages (hpasses : config.postprocess) (h : read config output f = .ok units g) :
    ∃ converted expanded cleared recovered,
      Stages config output units f converted expanded cleared recovered ∧ recovered.commit = g := by
  obtain ⟨roots, f', hask, hread⟩ := bind_eq_ok.1 h
  obtain ⟨hroots, rfl⟩ := ask_eq_ok.1 hask
  obtain ⟨recovered, hread, hcommit⟩ := transaction_eq_ok.1 hread
  obtain ⟨ids, converted, hids, rfl, hpost⟩ := readUnits_eq_ok.1 hread
  rw [if_pos hpasses] at hpost
  -- the three passes, one after another
  obtain ⟨⟨⟩, expanded, hexpands, hpost⟩ := bind_eq_ok.1 hpost
  obtain ⟨⟨⟩, cleared, hclears, hpost⟩ := bind_eq_ok.1 hpost
  obtain ⟨⟨⟩, f'', hrecovers, hend⟩ := bind_eq_ok.1 hpost
  cases hend
  exact ⟨converted, expanded, cleared, recovered,
    ⟨⟨roots, ids, hroots, hids, rfl⟩, hexpands, hclears, hrecovers⟩, hcommit⟩

namespace Stages

/-- The forest whose references are cleared has grown by the trees of the units. -/
theorem grown (hstages : Stages config output units f converted expanded cleared recovered)
    (hf : f.Consistent) : Grown False f expanded units := by
  obtain ⟨roots, ids, -, hids, rfl⟩ := hstages.converts
  obtain ⟨hgrown, -⟩ := wp_ok (wp_readRoots_grown config roots False.elim (grown_begin hf)) hids
  have hperm := List.mergeSort_perm ids fun a b => placeOf converted a ≤ placeOf converted b
  have hmended := Pass.wp_run_mended Assembly.mendsGrown config
    (ids.mergeSort fun a b => placeOf converted a ≤ placeOf converted b) (hgrown.perm hperm)
  exact (wp_ok hmended hstages.expands).grown

theorem wp_clears (hstages : Stages config output units f converted expanded cleared recovered)
    (hf : f.Consistent) : Builtin.Clears (units.flatMap expanded.walk) expanded cleared := by
  have hclears := Builtin.wp_run_clears config (hstages.grown hf).consistent units
  have hend := wp_ok hclears hstages.clears
  exact hend

/-- The last pass adds documentation nodes. -/
theorem annotates (hstages : Stages config output units f converted expanded cleared recovered)
    (hf : f.Consistent) : Comments.Annotates cleared recovered := by
  have hgrown := hstages.grown hf
  have hsame := (hstages.wp_clears hf).sameTrees
  have hroots : ∀ u ∈ units, cleared.contains u ∧ cleared.parent? u = none := fun u hu => by
    rw [hsame.contains_iff, hsame.parent?_eq]
    exact ⟨(hgrown.root hu).1, (hgrown.root hu).2.2⟩
  have hrecovers := (Comments.settles config).wp_run (hsame.consistent hgrown.consistent)
    hgrown.nodup hroots
  exact (wp_ok hrecovers hstages.recovers).1

/-- A node that refers to a declaration in the end was there when references were cleared, and has
had what it refers to from then on. -/
theorem exists_referenced?
    (hstages : Stages config output units f converted expanded cleared recovered)
    (hf : f.Consistent) {u : NodeId} (hu : u ∈ units) (hk : k ∈ recovered.walk u)
    (hn : recovered.get? k = some n) (hrefers : n.kind.refers) :
    ∃ m r, expanded.get? k = some m ∧ m.payload.attributes.referenced? = some r ∧
      n.payload.attributes.referenced? =
        some (if Builtin.isLost expanded r then NodeId.builtin else r) := by
  have hclears := hstages.wp_clears hf
  have hannotates := hstages.annotates hf
  have hcleared := hclears.sameTrees.consistent (hstages.grown hf).consistent
  -- it is no documentation node, so it is an old one, in the tree of the same unit
  have hold : cleared.contains k := by
    by_contra hnew
    have hkind := hannotates.new hn hnew
    rw [hkind] at hrefers
    contradiction
  have hwalk : k ∈ expanded.walk u := by
    have hmem := hannotates.retains.mem_walk hcleared hold hk
    rw [hcleared.mem_walk_iff, hclears.contains_eq] at hmem
    have hexpanded := (hstages.grown hf).consistent
    refine hexpanded.mem_walk_iff.2 ⟨hmem.1, ?_⟩
    exact ((Retains.of_sameTrees hclears.sameTrees hexpanded).reaches_iff hexpanded hmem.1).1 hmem.2
  rw [hclears.contains_eq] at hold
  obtain ⟨m, hm⟩ := contains_iff_get?.1 hold
  have hclear : cleared.get? k = some (Builtin.clear expanded m) := by
    rw [hclears.get?_eq, if_pos (List.mem_flatMap.2 ⟨u, hu, hwalk⟩), hm, Option.map_some]
  obtain ⟨payload, hattributes, hk'⟩ := hannotates.get?_eq hclear
  obtain rfl := Option.some.inj (hk'.symm.trans hn)
  have hattributes : payload.attributes = (Builtin.clear expanded m).payload.attributes :=
    hattributes
  obtain ⟨s, hs⟩ : ∃ s, payload.attributes.referenced? = some s := by
    rw [← Option.isSome_iff_exists, Attributes.isSome_referenced?]
    exact hrefers
  have hreference : ∃ r, m.payload.attributes.referenced? = some r := by
    rw [← Option.isSome_iff_exists]
    by_contra hnone
    have hnone := Option.not_isSome_iff_eq_none.1 hnone
    rw [hattributes, Builtin.clear_eq_self (by rw [hnone]; rfl), hnone] at hs
    contradiction
  obtain ⟨r, hr⟩ := hreference
  refine ⟨m, r, hm, hr, ?_⟩
  show payload.attributes.referenced? = _
  rw [hattributes, Builtin.referenced?_clear hr]

end Stages

/-- **After a read no reference is lost** in the trees of its units, and none has been changed that
was not.  What the pass over references has done is to clear those that were lost in the forest that
it found. -/
theorem references_read (hf : f.Consistent) (hpasses : config.postprocess)
    (h : read config output f = .ok units g) :
    ∃ converted expanded cleared recovered,
      Stages config output units f converted expanded cleared recovered ∧ recovered.commit = g ∧
      Builtin.Clears (units.flatMap expanded.walk) expanded cleared ∧
      (∀ k n, expanded.get? k = some n → ∃ m, cleared.get? k = some m ∧
        (m = n ∨ ∃ r, n.payload.attributes.referenced? = some r ∧
          m.mapPayload (Payload.setReferenced · r) = n)) ∧
      ∀ u ∈ units, ∀ k ∈ g.walk u, ∀ n, g.get? k = some n → n.kind.refers →
        ∃ m r s, expanded.get? k = some m ∧ m.payload.attributes.referenced? = some r ∧
          n.payload.attributes.referenced? = some s ∧ (s < 0 ∨ g.contains s) ∧
            (r < 0 ∨ expanded.contains r → s = r) := by
  obtain ⟨converted, expanded, cleared, recovered, hstages, rfl⟩ := exists_stages hpasses h
  have hclears := hstages.wp_clears hf
  refine ⟨converted, expanded, cleared, recovered, hstages, rfl, hclears,
    fun k n hn => hclears.exists_get? hn, fun u hu k hk n hn hrefers => ?_⟩
  rw [walk_commit] at hk
  rw [get?_commit] at hn
  obtain ⟨m, r, hm, hr, hs⟩ := hstages.exists_referenced? hf hu hk hn hrefers
  refine ⟨m, r, _, hm, hr, hs, ?_, fun hkept => ?_⟩
  · split
    · exact .inl (by decide)
    · next hkept =>
      rw [Builtin.isLost, Bool.and_eq_true, decide_eq_true_eq, not_and, Bool.not_eq_true',
        Bool.not_eq_false] at hkept
      refine (Int.lt_or_le r 0).imp_right fun hr => ?_
      rw [contains_commit]
      exact (hstages.annotates hf).contains_of_contains (hclears.contains_eq.trans (hkept hr))
  · refine if_neg fun hlost => ?_
    rw [Builtin.isLost, Bool.and_eq_true, decide_eq_true_eq] at hlost
    rcases hkept with hneg | hreg
    · exact Int.not_le_of_gt hneg hlost.1
    · rw [hreg] at hlost
      exact absurd hlost.2 Bool.false_ne_true

/-- A unit with an identifier that refers to nothing, and one that refers to the unit. -/
def lostReference : Json :=
  let identifier (name : String) (id : Int) : Json := .object
    [("nodeType", .string "Identifier"), ("name", .string name), ("referencedDeclaration", .int id)]
  .object [("nodeType", .string "SourceUnit"),
    ("nodes", .array [identifier "msg" 99, identifier "unit" 1])]

/-- The first reference is cleared, the second one is kept. -/
theorem references_read_lostReference :
    (empty 0).Consistent ∧ Config.standard.postprocess ∧
      ∃ g, read .standard lostReference (empty 0) = .ok [1] g ∧
        [2, 3] ⊆ g.walk 1 ∧
        ([2, 3].map fun k => (g.get? k).bind fun n => n.payload.attributes.referenced?) =
          [some NodeId.builtin, some 1] ∧
        ∃ converted expanded cleared recovered,
          Stages .standard lostReference [1] (empty 0) converted expanded cleared recovered ∧
            recovered.commit = g ∧ Builtin.Clears ([1].flatMap expanded.walk) expanded cleared := by
  have hread : read .standard lostReference =
      transaction (readUnits .standard [Root.ofRecord lostReference]) := read_eq_transaction rfl
  have hends : seen? (read .standard lostReference)
      (fun units g => (units, [2, 3].all (g.walk 1).contains,
        [2, 3].map fun k => (g.get? k).bind fun n => n.payload.attributes.referenced?))
      (empty 0) = some ([1], true, [some NodeId.builtin, some 1]) := by
    rw [hread, readUnits_singleton]
    decide +kernel
  obtain ⟨units, g, h, hview⟩ := seen?_eq_some hends
  obtain ⟨rfl, hrest⟩ := Prod.mk.inj hview
  obtain ⟨hwalk, hreferences⟩ := Prod.mk.inj hrest
  obtain ⟨converted, expanded, cleared, recovered, hstages, hcommit, hclears, -⟩ :=
    references_read (consistent_empty 0) rfl h
  have hwalk : [2, 3] ⊆ g.walk 1 := fun k hk =>
    List.contains_iff_mem.1 (List.all_eq_true.1 hwalk k hk)
  exact ⟨consistent_empty 0, rfl, g, h, hwalk, hreferences, converted, expanded, cleared,
    recovered, hstages, hcommit, hclears⟩

end Run

end SolidityTree
