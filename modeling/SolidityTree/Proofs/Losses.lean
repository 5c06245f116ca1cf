import SolidityTree.Proofs.Growth
import Mathlib.Data.List.Nodup

/-!
# Records that are lost

A legacy record holds its children in one array, and its payload lists the nodes of those that its
kind keeps (`Legacy.kept`).  What a kind has no place for is either never converted or becomes a
node without a parent; in both cases the trees of the units do not reach it, and nothing that stands
below it.  So a record is reached from its unit exactly if every record on the way to it is kept by
the one before (`Run.reached_iff_kept`), and nothing is lost exactly if every record keeps all its
children (`Legacy.forall_keptBelow_iff`).

While records are converted the fact that is carried is that the node of a record lists the nodes of
the records that it keeps, and these in turn (`Legacy.Laid`); registration changes no children.
-/

namespace SolidityTree

namespace Legacy

open Record Draft Forest

variable {r s root : Json}

/-! ### Records below a record -/

theorem sizeOf_lt_of_mem_records (h : s ∈ records r) : sizeOf s < sizeOf r := by
  obtain ⟨h, -⟩ := List.mem_filter.1 h
  cases r with
  | object entries =>
    cases hchildren : entries.lookup "children" with
    | none =>
      have hnone : (Json.object entries).get? "children" = none := hchildren
      simp [hnone] at h
    | some children =>
      have hsome : (Json.object entries).get? "children" = some children := hchildren
      rw [hsome] at h
      cases children with
      | array items =>
        have hs : s ∈ items := h
        have hentry : ("children", Json.array items) ∈ entries := by
          obtain ⟨before, after, rfl, -⟩ := List.lookup_eq_some_iff.1 hchildren
          simp
        have hitems := List.sizeOf_lt_of_mem hs
        have hentries := List.sizeOf_lt_of_mem hentry
        simp at hentries ⊢
        omega
      | _ => simp [Json.items?] at h
  | _ => simp [Json.get?] at h

/-- The records below a record, in preorder. -/
def recordsBelow (r : Json) : List Json :=
  (records r).attach.flatMap fun s => s.1 :: recordsBelow s.1
termination_by sizeOf r
decreasing_by exact sizeOf_lt_of_mem_records s.2

theorem recordsBelow_eq (r : Json) :
    recordsBelow r = (records r).flatMap fun s => s :: recordsBelow s := by
  rw [recordsBelow]
  simp [List.flatMap_subtype]

/-- What is below the record of a child is below the record. -/
theorem mem_below_of_mem_records (hs : s ∈ records r) {t : Json} (ht : t ∈ s :: recordsBelow s) :
    t ∈ recordsBelow r := by
  rw [recordsBelow_eq]
  exact List.mem_flatMap.2 ⟨s, hs, ht⟩

/-- The child records of what is below a record are below it, too. -/
theorem mem_below_of_mem_cons {t : Json} (hs : s ∈ r :: recordsBelow r) (ht : t ∈ records s) :
    t ∈ recordsBelow r := by
  induction r using recordsBelow.induct with
  | case1 r ih =>
    rcases List.mem_cons.1 hs with rfl | hs
    · exact mem_below_of_mem_records ht List.mem_cons_self
    · rw [recordsBelow_eq] at hs
      obtain ⟨a, ha, hs⟩ := List.mem_flatMap.1 hs
      exact mem_below_of_mem_records ha (List.mem_cons_of_mem _ (ih ⟨a, ha⟩ hs))

/-- Where no record occurs twice, a record is a child of one record only. -/
theorem eq_of_mem_records {a b c : Json} (hnodup : (root :: recordsBelow root).Nodup)
    (ha : a ∈ root :: recordsBelow root) (hb : b ∈ root :: recordsBelow root) (hca : c ∈ records a)
    (hcb : c ∈ records b) : a = b := by
  induction root using recordsBelow.induct with
  | case1 root ih =>
    have hbelow := (List.nodup_cons.1 hnodup).2
    rw [recordsBelow_eq] at hbelow
    obtain ⟨hblocks, hdisjoint⟩ := List.nodup_flatMap.1 hbelow
    -- the blocks of two children have a record in common only if they are the same
    have hsame : ∀ x ∈ records root, ∀ y ∈ records root, ∀ t ∈ x :: recordsBelow x,
        t ∈ y :: recordsBelow y → x = y := by
      intro x hx y hy t htx hty
      by_contra hne
      have : Std.Symm (Function.onFun List.Disjoint fun s => s :: recordsBelow s) :=
        ⟨fun _ _ h t ht ht' => h ht' ht⟩
      exact hdisjoint.forall hx hy hne htx hty
    -- a child of the root is not below another one
    have hroot : ∀ x ∈ records root, ∀ t ∈ x :: recordsBelow x, c ∈ records t →
        c ∉ records root := by
      intro x hx t ht hct hc
      have hcx := mem_below_of_mem_cons ht hct
      obtain rfl := hsame x hx c hc c (List.mem_cons_of_mem _ hcx) List.mem_cons_self
      exact (List.nodup_cons.1 (hblocks x hx)).1 hcx
    rw [recordsBelow_eq] at ha hb
    rcases List.mem_cons.1 ha with rfl | ha <;> rcases List.mem_cons.1 hb with rfl | hb
    · rfl
    · obtain ⟨x, hx, hb⟩ := List.mem_flatMap.1 hb
      exact absurd hca (hroot x hx b hb hcb)
    · obtain ⟨x, hx, ha⟩ := List.mem_flatMap.1 ha
      exact absurd hcb (hroot x hx a ha hca)
    · obtain ⟨x, hx, ha⟩ := List.mem_flatMap.1 ha
      obtain ⟨y, hy, hb⟩ := List.mem_flatMap.1 hb
      obtain rfl := hsame x hx y hy c (List.mem_cons_of_mem _ (mem_below_of_mem_cons ha hca))
        (List.mem_cons_of_mem _ (mem_below_of_mem_cons hb hcb))
      exact ih ⟨x, hx⟩ (hblocks x hx) ha hb

/-! ### Records that are kept -/

theorem kept_subset (kind : Kind) (r : Json) : kept kind r ⊆ records r := by
  have hleading : leading r ⊆ records r := fun c hc =>
    leading_append_declared r ▸ List.mem_append_left _ hc
  have hdeclared : declared r ⊆ records r := fun c hc =>
    leading_append_declared r ▸ List.mem_append_right _ hc
  have hthose : ∀ test rs, rs ⊆ records r → those test rs ⊆ records r :=
    fun test rs hrs c hc => hrs (List.mem_filter.1 hc).1
  have hlast : ∀ test rs, rs ⊆ records r → lastThose test rs ⊆ records r :=
    fun test rs hrs c hc => hthose test rs hrs (List.mem_of_getLast? (Option.mem_toList.1 hc))
  have htake : (declared r).take 1 ⊆ records r := fun c hc => hdeclared (List.mem_of_mem_take hc)
  -- whatever is kept is chosen from the records, or from those behind the leading documentation
  cases kind <;> simp only [kept, List.append_subset, hleading, hdeclared, hthose, hlast, htake,
    List.take_subset, List.nil_subset, List.Subset.refl, and_self]

/-- The records among the children of a record that it keeps. -/
def keeps (r : Json) : List Json := ((Schema.legacy.kind? r).map (kept · r)).getD []

theorem keeps_subset (r : Json) : keeps r ⊆ records r := by
  unfold keeps
  cases Schema.legacy.kind? r with
  | none => exact List.nil_subset _
  | some kind => exact kept_subset kind r

/-- Every record on the way from a record to one below it is kept by the one before. -/
def KeptBelow : Json → Json → Prop := Relation.ReflTransGen fun r s => s ∈ keeps r

theorem KeptBelow.mem (h : KeptBelow root s) : s ∈ root :: recordsBelow root := by
  induction h with
  | refl => exact List.mem_cons_self
  | tail _ hs ih => exact List.mem_cons_of_mem _ (mem_below_of_mem_cons ih (keeps_subset _ hs))

/-- **Nothing is lost exactly if every record keeps all its children.** -/
theorem forall_keptBelow_iff (hnodup : (root :: recordsBelow root).Nodup) :
    (∀ s ∈ recordsBelow root, KeptBelow root s) ↔
      ∀ r ∈ root :: recordsBelow root, ∀ s ∈ records r, s ∈ keeps r := by
  constructor
  · intro h r hr s hs
    have hbelow := mem_below_of_mem_cons hr hs
    rcases Relation.ReflTransGen.cases_tail (h s hbelow) with rfl | ⟨p, hp, hsp⟩
    · exact absurd hbelow (List.nodup_cons.1 hnodup).1
    · rwa [eq_of_mem_records hnodup hr (KeptBelow.mem hp) hs (keeps_subset p hsp)]
  · intro h
    -- from the root down
    have hdown : ∀ r, KeptBelow root r →
        (∀ t ∈ r :: recordsBelow r, ∀ s ∈ records t, s ∈ keeps t) →
        ∀ s ∈ recordsBelow r, KeptBelow root s := by
      intro r
      induction r using recordsBelow.induct with
      | case1 r ih =>
        intro hr hall s hs
        rw [recordsBelow_eq] at hs
        obtain ⟨a, ha, hs⟩ := List.mem_flatMap.1 hs
        have hkept : KeptBelow root a := hr.tail (hall r List.mem_cons_self a ha)
        rcases List.mem_cons.1 hs with rfl | hs
        · exact hkept
        · exact ih ⟨a, ha⟩ hkept (fun t ht => hall t (List.mem_cons_of_mem _
            (mem_below_of_mem_records ha ht))) s hs
    exact hdown root .refl h

/-! ### Nodes of records -/

/-- The node of a record lists the nodes of the records that it keeps, and so do these in turn.  The
node has the record's own id, if there is one. -/
inductive Laid (g : Forest) : Json → NodeId → Prop
  | node {r : Json} {id : NodeId} (trace : Trace)
      (own : ∀ k, Record.id? r = .ok (some k) → id = k) (registered : g.contains id)
      (records : (trace.map Prod.fst).Perm (keeps r))
      (children : (g.children id).Perm (trace.map Prod.snd))
      (below : ∀ c ∈ trace, Laid g c.1 c.2) : Laid g r id

variable {f g h : Forest} {id k unit : NodeId}

/-- Nothing is asked of nodes but their children. -/
theorem Laid.mono (hlaid : Laid g r id)
    (hstays : ∀ k, g.contains k → h.contains k ∧ h.children k = g.children k) : Laid h r id := by
  induction hlaid with
  | node trace own registered records children _ ih =>
    exact .node trace own (hstays _ registered).1 records ((hstays _ registered).2 ▸ children) ih

theorem additive_laid (trace : Trace) : Run.Additive fun g => ∀ c ∈ trace, Laid g c.1 c.2 where
  nextId hg c hc := (hg c hc).mono fun _ hk => ⟨hk, rfl⟩
  register {f g n} hf hregister c hc := by
    refine (hf c hc).mono fun k hk => ⟨(contains_register hregister).2 (.inr hk), ?_⟩
    rw [children_register hregister, if_neg]
    rintro rfl
    exact (register_eq_ok hregister).1 hk

theorem Laid.exists_reaches (hg : g.Consistent) (hlaid : Laid g r id) (hs : KeptBelow r s) :
    ∃ k, Laid g s k ∧ g.Reaches k id := by
  induction hs with
  | refl => exact ⟨id, hlaid, .refl⟩
  | tail _ hs ih =>
    obtain ⟨k, ⟨trace, -, -, hrecords, hchildren, hbelow⟩, hk⟩ := ih
    obtain ⟨⟨s, c⟩, hc, rfl⟩ := List.mem_map.1 (hrecords.mem_iff.2 hs)
    have hchild : c ∈ g.children k := hchildren.mem_iff.2 (List.mem_map_of_mem hc)
    exact ⟨c, hbelow _ hc, .head (hg.parent?_of_mem hchild) hk⟩

theorem Laid.exists_keptBelow (hg : g.Consistent) (hlaid : Laid g r id) (hk : g.Reaches k id) :
    ∃ s, KeptBelow r s ∧ Laid g s k := by
  -- from the root down to the node
  induction hk using Relation.ReflTransGen.head_induction_on with
  | refl => exact ⟨r, .refl, hlaid⟩
  | head hparent _ ih =>
    obtain ⟨p, hp, ⟨trace, -, -, hrecords, hchildren, hbelow⟩⟩ := ih
    obtain ⟨⟨s, c⟩, hc, rfl⟩ := List.mem_map.1 (hchildren.mem_iff.1 (hg.mem_of_parent? hparent))
    exact ⟨s, hp.tail (hrecords.mem_iff.1 (List.mem_map_of_mem hc)), hbelow _ hc⟩

/-- **The tree of a record's node** holds exactly the nodes of the records that are kept. -/
theorem Laid.mem_walk_iff (hg : g.Consistent) (hlaid : Laid g root unit)
    (hids : ∀ s ∈ root :: recordsBelow root, ∃ id, Record.id? s = .ok (some id))
    (hdistinct : ((root :: recordsBelow root).map Record.id?).Nodup)
    (hs : s ∈ root :: recordsBelow root) (hid : Record.id? s = .ok (some id)) :
    id ∈ g.walk unit ↔ KeptBelow root s := by
  rw [hg.mem_walk_iff]
  constructor
  · rintro ⟨-, hreaches⟩
    obtain ⟨t, ht, ⟨_, hown, -⟩⟩ := hlaid.exists_keptBelow hg hreaches
    -- the node is that of a record with the same id, which is the same record
    obtain ⟨k, hk⟩ := hids t ht.mem
    obtain rfl := hown k hk
    rwa [List.inj_on_of_nodup_map hdistinct hs ht.mem (hid.trans hk.symm)]
  · intro hkept
    obtain ⟨k, ⟨_, hown, hregistered, -⟩, hk⟩ := hlaid.exists_reaches hg hkept
    obtain rfl := hown id hid
    exact ⟨hregistered, hk⟩

end Legacy

/-! ### Reading -/

namespace Run

open Legacy Output Forest

variable {f g : Forest} {config : Config} {output : Json} {units : List NodeId} {root : Root}

theorem wp_convert_laid (config : Config) (levels : Nat) (r : Json) (f : Forest) :
    wp (convert config .legacy levels r) (fun id g => Laid g r id) (fun _ => True) f := by
  induction levels generalizing r f with
  | zero => exact wp_throw trivial
  | succ levels ih =>
    refine wp_bind (wp_ask (fun (kind, draft) hdraft => ?_) trivial)
    have hid : wp (idOf r) (fun id _ => ∀ k, Record.id? r = .ok (some k) → id = k)
        (fun _ => True) f := by
      refine wp_bind (wp_ask (fun id? hid => ?_) trivial)
      rw [hid]
      cases id? with
      | none => exact wp_nextId nofun
      | some id => exact wp_pure fun k hk => Option.some.inj (Except.ok.inj hk)
    refine hid.andThen fun id g hown => wp_bind (wp_ask (fun src _ => ?_) trivial)
    -- what has been laid stays laid while the other records are converted
    have hrecord : ∀ r (trace : Draft.Trace) g, (∀ c ∈ trace, Laid g c.1 c.2) →
        wp (convert config .legacy levels r)
          (fun id h => ∀ c ∈ trace ++ [(r, id)], Laid h c.1 c.2) (fun _ => True) g := by
      intro r trace g hg
      have hkept := (additive_laid trace).keeps_convert config .legacy levels r g hg
      refine ((ih r g).and hkept).mono (fun id h hh => ?_) fun _ _ => trivial
      exact List.forall_mem_append.2 ⟨hh.2, by simpa using hh.1⟩
    have hrun := Draft.wp_run (fun trace g => ∀ c ∈ trace, Laid g c.1 c.2) hrecord
      (fun _ _ _ => trivial) (Schema.wp_draft_legacy hdraft) (f := g) (by simp)
    refine hrun.andThen fun payload g ⟨trace, hreads, hlaid⟩ => ?_
    refine wp_bind (wp_register (fun h hregister => wp_pure ?_) trivial)
    obtain ⟨taken, htaken, hrecords, hchildren⟩ := hreads.children
    have hkeeps : keeps r = kept kind r := by rw [keeps, Schema.kind?_of_draft hdraft]; rfl
    refine .node taken hown ((contains_register hregister).2 (.inl rfl)) (hkeeps ▸ hrecords) ?_
      fun c hc => (additive_laid trace).register hlaid hregister c (htaken.subset hc)
    have hnew : h.children id = payload.children := (children_register hregister).trans (if_pos rfl)
    exact hnew ▸ hchildren

theorem wp_readRoot_laid (hlegacy : Schema.detect? root.record = some .legacy) (f : Forest) :
    wp (readRoot config root) (fun id g => Laid g root.record id) (fun _ => True) f := by
  rw [readRoot, hlegacy]
  refine (wp_convert_laid config config.maxDepth root.record f).andThen fun id g hlaid => ?_
  refine wp_bind (wp_get ?_)
  dsimp only
  split
  · exact wp_bind (wp_throw trivial)
  · refine wp_bind (wp_modify (wp_pure (hlaid.mono fun k hk => ⟨by simpa using hk, ?_⟩)))
    exact children_modifyPayload_of_eq (fun n _ => n.payload.children_mapUnit (placed root))

/-- **A record is reached from its unit exactly if every record on the way to it is kept**, so
nothing is lost exactly if every record keeps all its children. -/
theorem reached_iff_kept (hf : f.Consistent) (hroots : Output.roots output = .ok [root])
    (hlegacy : Schema.detect? root.record = some .legacy) (hpasses : ¬ config.postprocess)
    (hids : ∀ s ∈ root.record :: recordsBelow root.record, ∃ id, Record.id? s = .ok (some id))
    (hdistinct : ((root.record :: recordsBelow root.record).map Record.id?).Nodup)
    (h : read config output f = .ok units g) :
    ∃ unit, units = [unit] ∧
      (∀ s ∈ recordsBelow root.record, ∀ id, Record.id? s = .ok (some id) →
        (g.contains id ∧ id ∈ g.walk unit ↔ KeptBelow root.record s)) ∧
      ((∀ s ∈ recordsBelow root.record, ∃ id, Record.id? s = .ok (some id) ∧ g.contains id ∧
          id ∈ g.walk unit) ↔
        ∀ r ∈ root.record :: recordsBelow root.record, ∀ s ∈ records r, s ∈ keeps r) := by
  obtain ⟨rs, -, hgrown⟩ := read_grows hf h
  have hg := hgrown.consistent
  -- without passes, the nodes are those that the conversion of the root has left
  rw [read_eq_transaction hroots, transaction_eq_ok] at h
  obtain ⟨converted, h, rfl⟩ := h
  rw [readUnits_singleton, bind_eq_ok] at h
  obtain ⟨unit, converted', hread, hrest⟩ := h
  rw [if_neg hpasses] at hrest
  obtain ⟨rfl, rfl⟩ : [unit] = units ∧ converted' = converted := EStateM.Result.ok.inj hrest
  have hlaid : Laid converted'.commit root.record unit :=
    (wp_ok (wp_readRoot_laid hlegacy f.begin) hread).mono fun k hk => by simpa using hk
  have hreached : ∀ s ∈ recordsBelow root.record, ∀ id, Record.id? s = .ok (some id) →
      (converted'.commit.contains id ∧ id ∈ converted'.commit.walk unit ↔
        KeptBelow root.record s) := by
    intro s hs id hid
    rw [← hlaid.mem_walk_iff hg hids hdistinct (List.mem_cons_of_mem _ hs) hid]
    exact and_iff_right_of_imp fun hwalk => (hg.mem_walk_iff.1 hwalk).1
  refine ⟨unit, rfl, hreached, ?_⟩
  rw [← forall_keptBelow_iff (List.Nodup.of_map _ hdistinct)]
  refine forall₂_congr fun s hs => ⟨?_, fun hkept => ?_⟩
  · rintro ⟨id, hid, hwalk⟩
    exact (hreached s hs id hid).1 hwalk
  · obtain ⟨id, hid⟩ := hids s (List.mem_cons_of_mem _ hs)
    exact ⟨id, hid, (hreached s hs id hid).2 hkept⟩

/-- A break statement with an id. -/
def breakRecord (id : Int) : Json := .object [("id", .int id), ("name", .string "Break")]

/-- A conditional statement with one child too many. -/
def crowdedIf : Json :=
  .object [("children", .array [breakRecord 1, breakRecord 2, breakRecord 3, breakRecord 4]),
    ("id", .int 5), ("name", .string "IfStatement")]

/-- A unit with that statement. -/
def crowdedUnit : Json :=
  .object [("children", .array [crowdedIf]), ("id", .int 9), ("name", .string "SourceUnit")]

theorem recordsBelow_crowdedUnit : recordsBelow crowdedUnit =
    [crowdedIf, breakRecord 1, breakRecord 2, breakRecord 3, breakRecord 4] := by
  have hbreak : ∀ id, recordsBelow (breakRecord id) = [] := fun id => by
    rw [recordsBelow_eq]
    rfl
  have hunit : records crowdedUnit = [crowdedIf] := rfl
  have hif : records crowdedIf =
      [breakRecord 1, breakRecord 2, breakRecord 3, breakRecord 4] := rfl
  rw [recordsBelow_eq, hunit, List.flatMap_singleton, recordsBelow_eq, hif]
  simp [hbreak]

/-- The read succeeds, and the last child of the statement is lost. -/
theorem reached_iff_kept_crowdedUnit :
    ∃ g, read { Config.standard with postprocess := false } crowdedUnit (empty 0) = .ok [9] g ∧
      Record.id? (breakRecord 4) = .ok (some 4) ∧ ¬ (g.contains 4 ∧ 4 ∈ g.walk 9) := by
  have hread : read { Config.standard with postprocess := false } crowdedUnit =
      transaction (readUnits { Config.standard with postprocess := false }
        [Root.ofRecord crowdedUnit]) := read_eq_transaction rfl
  have hends : seen? (read { Config.standard with postprocess := false } crowdedUnit)
      (fun units _ => units) (empty 0) = some [9] := by
    rw [hread, readUnits_singleton]
    decide +kernel
  obtain ⟨units, g, h, rfl⟩ := seen?_eq_some hends
  have hids : (crowdedUnit :: recordsBelow crowdedUnit).map Record.id? =
      [9, 5, 1, 2, 3, 4].map fun id => .ok (some id) := by
    rw [recordsBelow_crowdedUnit]
    rfl
  have hrecords : ∀ s ∈ crowdedUnit :: recordsBelow crowdedUnit,
      ∃ id, Record.id? s = .ok (some id) := by
    intro s hs
    have hmem := List.mem_map_of_mem (f := Record.id?) hs
    rw [hids] at hmem
    obtain ⟨id, -, hid⟩ := List.mem_map.1 hmem
    exact ⟨id, hid.symm⟩
  have hdistinct : ((crowdedUnit :: recordsBelow crowdedUnit).map Record.id?).Nodup := by
    rw [hids]
    exact List.Nodup.map (fun _ _ heq => Option.some.inj (Except.ok.inj heq)) (by decide)
  have hlast : breakRecord 4 ∈ recordsBelow crowdedUnit := by
    rw [recordsBelow_crowdedUnit]
    simp
  have hroots : Output.roots crowdedUnit = .ok [Root.ofRecord crowdedUnit] := rfl
  obtain ⟨unit, hunit, hreached, -⟩ := reached_iff_kept
    (consistent_empty 0) hroots rfl (by decide) hrecords hdistinct h
  obtain rfl := List.singleton_inj.1 hunit
  refine ⟨g, h, rfl, fun hwalk => ?_⟩
  -- the record is a child of the statement only, which keeps three others
  have hkept := (hreached _ hlast 4 rfl).1 hwalk
  rcases Relation.ReflTransGen.cases_tail hkept with heq | ⟨p, hp, hmem⟩
  · have heq : breakRecord 4 = crowdedUnit := heq
    simp [breakRecord, crowdedUnit] at heq
  · have hif : crowdedIf ∈ crowdedUnit :: recordsBelow crowdedUnit := by
      rw [recordsBelow_crowdedUnit]
      simp
    have hparent : p = crowdedIf := eq_of_mem_records (.of_map _ hdistinct) (KeptBelow.mem hp) hif
      (keeps_subset p hmem) (.tail _ (.tail _ (.tail _ (.head _))))
    have hkeeps : keeps crowdedIf = [breakRecord 1, breakRecord 2, breakRecord 3] := rfl
    rw [hparent, hkeeps] at hmem
    simp [breakRecord, Json.int] at hmem

end Run

end SolidityTree
