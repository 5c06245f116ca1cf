import SolidityTree.Proofs.References
import SolidityTree.Proofs.Visits

/-!
# References to ids that are given out

Compilers refer to builtin symbols by ids that no record carries.  The pass over references clears
such a reference because no node has the id (`Run.references_read`).  By then every visited record
has become a node (`Run.Stages.registered`), those without an id of their own, too, and one of these
may have been given the very id of the symbol.  So a reference to an id that no record carries is
cleared unless the id was given out; if it was, the reference stays, and names the node that got the
id (`Run.captured_read`).
-/

namespace SolidityTree

open Forest

variable {f g : Forest} {k r : NodeId} {config : Config} {output : Json} {units : List NodeId}
  {vs : List Visit}

/-- The id of a visit is that of the record, or has been given out. -/
theorem Forest.Allotted.mem_ids_iff (hvs : f.Allotted vs) :
    k ∈ vs.map Visit.id ↔ k ∈ ownIds vs ∨ k ∈ drawnIds vs := by
  constructor
  · intro hk
    obtain ⟨v, hv, rfl⟩ := List.mem_map.1 hk
    cases hown : v.own? with
    | none => exact .inr (List.mem_map_of_mem (List.mem_filter.2 ⟨hv, by rw [hown]; rfl⟩))
    | some j =>
      have hid := hvs.id_eq v hv j hown
      exact .inl (List.mem_filterMap.2 ⟨v, hv, hid ▸ hown⟩)
  · rintro (hk | hk)
    · obtain ⟨v, hv, hown⟩ := List.mem_filterMap.1 hk
      exact List.mem_map.2 ⟨v, hv, hvs.id_eq v hv k hown⟩
    · obtain ⟨v, hv, rfl⟩ := List.mem_map.1 hk
      exact List.mem_map_of_mem (List.mem_filter.1 hv).1

namespace Run

variable {converted expanded cleared recovered : Forest}

/-- When references are cleared, the new nodes are those of the visited records. -/
theorem Stages.registered (hpasses : config.postprocess)
    (hstages : Stages config output units f converted expanded cleared recovered) :
    f.begin.Registered (readVisits config output f) expanded := by
  obtain ⟨roots, ids, hroots, hids, rfl⟩ := hstages.converts
  have hconverted := (numbers_readRoots config roots).registered hids
  have hexpanded := (numbers_pass Assembly.pass config (Assembly.numbers_process config)
    (ids.mergeSort fun a b => placeOf converted a ≤ placeOf converted b)).registered hstages.expands
  have hvisits : readVisits config output f = rootsVisits config roots f.begin ++
      Assembly.pass.visits config (Assembly.visits config)
        (ids.mergeSort fun a b => placeOf converted a ≤ placeOf converted b) converted := by
    have hask : ask (fun _ => Output.roots output) f = .ok roots f := by rw [ask, hroots]
    have hget : (get : Run Forest) converted = .ok converted converted := rfl
    rw [readVisits, Visits.andThen_of_ok hask, unitsVisits, Visits.andThen_of_ok hids,
      Visits.andThen_of_ok hget, if_pos hpasses]
    rfl
  rw [hvisits]
  exact hconverted.append hexpanded

/-- **A reference to an id that no record carries is cleared unless the id was given out** to a
record without one; then it stays, and names the node of that record. -/
theorem captured_read (hf : f.Consistent) (hpasses : config.postprocess)
    (h : read config output f = .ok units g) :
    ∃ converted expanded cleared recovered,
      Stages config output units f converted expanded cleared recovered ∧ recovered.commit = g ∧
      ∀ u ∈ units, ∀ k ∈ g.walk u, ∀ n, g.get? k = some n → n.kind.refers →
        ∃ m r s, expanded.get? k = some m ∧ m.payload.attributes.referenced? = some r ∧
          n.payload.attributes.referenced? = some s ∧ (s = r ∨ s = NodeId.builtin) ∧
            (0 ≤ r → ¬ f.contains r → r ∉ ownIds (readVisits config output f) →
              (s = NodeId.builtin ↔ r ∉ drawnIds (readVisits config output f)) ∧
              (r ∈ drawnIds (readVisits config output f) → s = r ∧ g.contains r)) := by
  obtain ⟨converted, expanded, cleared, recovered, hstages, rfl⟩ := exists_stages hpasses h
  refine ⟨converted, expanded, cleared, recovered, hstages, rfl, fun u hu k hk n hn hrefers => ?_⟩
  rw [walk_commit] at hk
  rw [get?_commit] at hn
  obtain ⟨m, r, hm, hr, hs⟩ := hstages.exists_referenced? hf hu hk hn hrefers
  refine ⟨m, r, _, hm, hr, hs, (ite_eq_or_eq _ _ _).symm, fun hle hfree hnone => ?_⟩
  -- the id has a node exactly if it was given out
  have hnew : expanded.contains r ↔ r ∈ drawnIds (readVisits config output f) := by
    have hallotted := (clashes_read config output).allotted f
    rw [(hstages.registered hpasses).contains_iff, hallotted.mem_ids_iff]
    exact ⟨fun hr => (hr.resolve_left hfree).resolve_left hnone, fun hr => .inr (.inr hr)⟩
  by_cases hdrawn : r ∈ drawnIds (readVisits config output f)
  · have hkept : ¬ Builtin.isLost expanded r := by
      rw [Builtin.isLost, hnew.2 hdrawn]
      simp
    rw [if_neg hkept]
    refine ⟨⟨fun hbuiltin => ?_, fun hnot => absurd hdrawn hnot⟩, fun _ => ⟨rfl, ?_⟩⟩
    · rw [hbuiltin] at hle
      exact absurd hle (by decide)
    · rw [contains_commit]
      exact (hstages.annotates hf).contains_of_contains
        ((hstages.wp_clears hf).contains_eq.trans (hnew.2 hdrawn))
  · have hlost : Builtin.isLost expanded r := by
      have hfresh : expanded.contains r = false := Bool.eq_false_of_not_eq_true (hdrawn ∘ hnew.1)
      simp [Builtin.isLost, hle, hfresh]
    rw [if_pos hlost]
    exact ⟨⟨fun _ => hdrawn, fun _ => rfl⟩, fun h => absurd h hdrawn⟩

/-- The visits of a single unit, which needs no order. -/
theorem unitsVisits_singleton (config : Config) (root : Output.Root) :
    unitsVisits config [root] = (rootVisits config root).andThen (readRoot config root) fun id =>
      if config.postprocess then Assembly.pass.visits config (Assembly.visits config) [id]
      else Visits.idle := by
  funext f
  have hroots : rootsVisits config [root] = rootVisits config root :=
    Visits.andThen_idle _ (readRoot config root)
  rw [unitsVisits, hroots]
  cases hunit : readRoot config root f with
  | error fault g =>
    have hread : readRoots config [root] f = .error fault g := bind_eq_error.2 (.inl hunit)
    rw [Visits.andThen_of_error hread, Visits.andThen_of_error hunit]
  | ok unit g =>
    have hread : readRoots config [root] f = .ok [unit] g := bind_eq_ok.2 ⟨unit, g, hunit, rfl⟩
    have hget : (get : Run Forest) g = .ok g g := rfl
    rw [Visits.andThen_of_ok hread, Visits.andThen_of_ok hunit, Visits.andThen_of_ok hget,
      List.mergeSort_singleton]
    rfl

/-- A unit with a reference to the id 3, which no record carries, and a record without an id. -/
def capturedReference : Json :=
  .object [("nodeType", .string "SourceUnit"), ("id", .int 1), ("nodes", .array
    [.object [("nodeType", .string "Identifier"), ("id", .int 2), ("name", .string "msg"),
      ("referencedDeclaration", .int 3)],
     .object [("nodeType", .string "PragmaDirective")]])]

/-- The id is given to the last record, so the reference stays. -/
theorem captured_read_capturedReference :
    (empty 0).Consistent ∧ Config.standard.postprocess ∧
      ∃ g, read .standard capturedReference (empty 0) = .ok [1] g ∧ 2 ∈ g.walk 1 ∧
        ((g.get? 2).bind fun n => n.payload.attributes.referenced?) = some 3 ∧
        3 ∉ ownIds (readVisits .standard capturedReference (empty 0)) ∧
        3 ∈ drawnIds (readVisits .standard capturedReference (empty 0)) := by
  have hread : read .standard capturedReference =
      transaction (readUnits .standard [Output.Root.ofRecord capturedReference]) :=
    read_eq_transaction rfl
  have hends : seen? (read .standard capturedReference)
      (fun units g => (units, (g.walk 1).contains 2,
        (g.get? 2).map fun n => (n.kind.refers, n.payload.attributes.referenced?)))
      (empty 0) = some ([1], true, some (true, some 3)) := by
    rw [hread, readUnits_singleton]
    decide +kernel
  have hvisits : readVisits .standard capturedReference (empty 0) =
      unitsVisits .standard [Output.Root.ofRecord capturedReference] (empty 0).begin := rfl
  have hown : 3 ∉ ownIds (readVisits .standard capturedReference (empty 0)) := by
    rw [hvisits, unitsVisits_singleton]
    decide +kernel
  obtain ⟨units, g, h, hview⟩ := seen?_eq_some hends
  obtain ⟨rfl, hrest⟩ := Prod.mk.inj hview
  obtain ⟨hwalk, hidentifier⟩ := Prod.mk.inj hrest
  obtain ⟨n, hn, hkind⟩ := Option.map_eq_some_iff.1 hidentifier
  obtain ⟨hrefers, hthree⟩ := Prod.mk.inj hkind
  have hwalk : 2 ∈ g.walk 1 := List.contains_iff_mem.1 hwalk
  obtain ⟨_, _, _, _, -, -, hcaptured⟩ := captured_read (consistent_empty 0) rfl h
  obtain ⟨m, r, s, -, -, hs, hrs, hiff⟩ := hcaptured 1 List.mem_cons_self 2 hwalk n hn hrefers
  -- the reference has not been cleared, so it is the one that was found
  obtain rfl := Option.some.inj (hs.symm.trans hthree)
  obtain rfl : 3 = r := hrs.resolve_right (by decide)
  refine ⟨consistent_empty 0, rfl, g, h, hwalk, by rw [hn]; exact hs, hown, ?_⟩
  by_contra hnone
  exact absurd ((hiff (by decide) (by decide) hown).1.2 hnone) (by decide)

end Run

end SolidityTree
