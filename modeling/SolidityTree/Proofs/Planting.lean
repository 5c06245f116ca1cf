import SolidityTree.Proofs.LegacyRecords
import SolidityTree.Proofs.Making

/-!
# Records become the trees that they were written from

A tree is planted in a forest by registering its nodes, those below the root before it
(`Tree.plant`).  The record that a tree is written down as, in either schema, is converted to that,
as far as both schemas carry it (`Run.convert_render`).

What a planted tree leaves in the forest is collected in `Planted`; like all that follows it is
shown for several trees, one after another, since such are the trees below a root.
-/

namespace SolidityTree

open Forest

namespace Tree

variable {head : Head} {payload : Payload} {ts rest : List Tree} {t s : Tree} {f g h : Forest}
  {k : NodeId}

/-! ### The parts of a tree -/

theorem subtrees_node : (node head payload ts).subtrees = node head payload ts ::
    ts.flatMap subtrees := by
  rw [subtrees, fold_node]
  rfl

theorem flatMap_singleton_ids : [t].flatMap ids = t.ids := List.append_nil _

theorem ids_node : (node head payload ts).ids = head.id :: ts.flatMap ids := by
  rw [ids, subtrees_node, List.map_cons, List.map_flatMap]
  rfl

theorem id_mem_ids (t : Tree) : t.id ∈ t.ids := by
  cases t
  rw [ids_node]
  exact List.mem_cons_self

theorem height_node_le {n : Nat} :
    (node head payload ts).height ≤ n + 1 ↔ ∀ t ∈ ts, t.height ≤ n := by
  have hmax : ∀ heights : List Nat, heights.foldr max 0 ≤ n ↔ ∀ m ∈ heights, m ≤ n := by
    intro heights
    induction heights with
    | nil => simp
    | cons m rest ih => rw [List.foldr_cons, Nat.max_le, ih, List.forall_mem_cons]
  rw [height, fold_node, Nat.succ_le_succ_iff, hmax, List.forall_mem_map]

theorem height_pos (t : Tree) : 0 < t.height := by
  cases t
  rw [height, fold_node]
  exact Nat.succ_pos _

/-- A tree has no more levels than nodes. -/
theorem height_le_length_ids (t : Tree) : t.height ≤ t.ids.length := by
  induction t with
  | node head payload ts ih =>
    rw [ids_node, List.length_cons, height_node_le]
    intro t ht
    have hsub : t.ids.Sublist (ts.flatMap ids) := List.sublist_flatten_of_mem (List.mem_map_of_mem ht)
    exact Nat.le_trans (ih t ht) hsub.length_le

theorem wellSorted_node : (node head payload ts).WellSorted ↔
    (node head payload ts).isSound ∧ ∀ t ∈ ts, t.WellSorted := by
  simp only [WellSorted, subtrees_node, List.forall_mem_cons, List.mem_flatMap]
  exact and_congr_right fun _ => ⟨fun h t ht s hs => h s ⟨t, ht, hs⟩,
    fun h s ⟨t, ht, hs⟩ => h t ht s hs⟩

/-- What holds of one tree if it holds of the trees below its root, and of several trees if it holds
of each of them, holds of all trees. -/
theorem induction_all {P : List Tree → Prop} (nil : P [])
    (cons : ∀ t rest, P [t] → P rest → P (t :: rest))
    (node : ∀ head payload ts, P ts → P [node head payload ts]) (ts : List Tree) : P ts := by
  have hall : ∀ ts : List Tree, (∀ t ∈ ts, P [t]) → P ts := by
    intro ts hts
    induction ts with
    | nil => exact nil
    | cons t rest ih =>
      obtain ⟨ht, hrest⟩ := List.forall_mem_cons.1 hts
      exact cons t rest ht (ih hrest)
  have htree : ∀ t, P [t] := by
    intro t
    induction t with
    | node head payload ts ih => exact node head payload ts (hall ts ih)
  exact hall ts fun t _ => htree t

/-! ### Planting -/

/-- Registers the nodes of a tree, those of the trees below the root before it. -/
def plant : Tree → Forest → Forest := fold fun head payload _ plants f =>
  (plants.foldl (fun g plant => plant g) f).insert (.fresh head.id head.src payload none)

/-- Plants several trees, one after another. -/
def plantAll (ts : List Tree) (f : Forest) : Forest := ts.foldl (fun g t => t.plant g) f

theorem plant_node : (node head payload ts).plant f =
    (plantAll ts f).insert (.fresh head.id head.src payload none) := by
  rw [plant, fold_node, List.foldl_map]
  rfl

/-- The common part of a forest decides the common part of what trees planted there leave. -/
theorem common_plantAll (h : f.common = g.common) :
    (plantAll ts f).common = (plantAll ts g).common := by
  induction ts using induction_all generalizing f g with
  | nil => exact h
  | cons t rest iht ihrest => exact ihrest (iht h)
  | node head payload ts ih =>
    show ((node head payload ts).plant f).common = ((node head payload ts).plant g).common
    rw [plant_node, plant_node]
    exact alike_common_iff.1 ((alike_common_iff.2 (ih h)).insert rfl)

/-- The trees have distinct ids, which are free, and each node lists the trees below it. -/
structure Fits (ts : List Tree) (f : Forest) : Prop where
  lists : ∀ {head payload ts'}, node head payload ts' ∈ ts.flatMap subtrees →
    payload.children = ts'.map id
  nodup : (ts.flatMap ids).Nodup
  free : ∀ {k}, k ∈ ts.flatMap ids → ¬ f.contains k

namespace Fits

theorem first (h : Fits (t :: rest) f) : Fits [t] f where
  lists ht := h.lists (by
    rw [List.flatMap_cons, List.mem_append]
    exact .inl (by simpa using ht))
  nodup := by
    rw [flatMap_singleton_ids]
    exact (List.nodup_append.1 h.nodup).1
  free hk := h.free (by
    rw [List.flatMap_cons, List.mem_append]
    exact .inl (by simpa using hk))

/-- The other trees fit once the ids of the first one are taken. -/
theorem others (h : Fits (t :: rest) f) (hg : ∀ k, g.contains k ↔ k ∈ t.ids ∨ f.contains k) :
    Fits rest g where
  lists ht := h.lists (List.mem_append_right _ ht)
  nodup := (List.nodup_append.1 h.nodup).2.1
  free {k} hk hreg := by
    rcases (hg k).1 hreg with ht | hreg
    · exact (List.nodup_append.1 h.nodup).2.2 k ht k hk rfl
    · exact h.free (List.mem_append_right _ hk) hreg

/-- The trees below a root. -/
theorem below (h : Fits [node head payload ts] f) : Fits ts f where
  lists ht := h.lists (by
    rw [List.flatMap_cons, subtrees_node]
    exact List.mem_append_left _ (List.mem_cons_of_mem _ ht))
  nodup := by
    have hnodup := h.nodup
    rw [flatMap_singleton_ids, ids_node] at hnodup
    exact (List.nodup_cons.1 hnodup).2
  free hk := h.free (by
    rw [flatMap_singleton_ids, ids_node]
    exact List.mem_cons_of_mem _ hk)

theorem children_eq (h : Fits [node head payload ts] f) : payload.children = ts.map id :=
  h.lists (by
    rw [List.flatMap_cons, subtrees_node]
    exact List.mem_append_left _ List.mem_cons_self)

theorem not_mem (h : Fits [node head payload ts] f) : head.id ∉ ts.flatMap ids := by
  have hnodup := h.nodup
  rw [flatMap_singleton_ids, ids_node] at hnodup
  exact (List.nodup_cons.1 hnodup).1

theorem not_contains (h : Fits [node head payload ts] f) : ¬ f.contains head.id :=
  h.free (by
    rw [flatMap_singleton_ids, ids_node]
    exact List.mem_cons_self)

theorem nodup_map_id (h : Fits ts f) : (ts.map id).Nodup := by
  have hsub : (ts.map id).Sublist (ts.flatMap ids) := by
    have hnodup := h.nodup
    clear h hnodup
    induction ts with
    | nil => exact .slnil
    | cons t rest ih =>
      have hid : [t.id].Sublist t.ids := List.singleton_sublist.2 t.id_mem_ids
      exact hid.append ih
  exact hsub.nodup h.nodup

end Fits

/-- What planted trees leave in a forest: their nodes are there with their places and payloads, the
roots have no parents, and the old nodes are as they were. -/
structure Planted (ts : List Tree) (f g : Forest) : Prop where
  contains_iff : ∀ k, g.contains k ↔ k ∈ ts.flatMap ids ∨ f.contains k
  get?_eq : ∀ {k}, f.contains k → g.get? k = f.get? k
  root : ∀ t ∈ ts, g.parent? t.id = none
  node_eq : ∀ s ∈ ts.flatMap subtrees,
    (g.get? s.id).map (fun n => (n.src, n.payload)) = some (s.src, s.payload)

namespace Planted

theorem contains_id (hg : Planted ts f g) (ht : t ∈ ts) : g.contains t.id :=
  (hg.contains_iff t.id).2 (.inl (List.mem_flatMap.2 ⟨t, ht, t.id_mem_ids⟩))

theorem trans (hg : Planted ts f g) (hh : Planted rest g h) : Planted (ts ++ rest) f h where
  contains_iff k := by
    rw [hh.contains_iff, hg.contains_iff, List.flatMap_append, List.mem_append]
    tauto
  get?_eq hk := by rw [hh.get?_eq ((hg.contains_iff _).2 (.inr hk)), hg.get?_eq hk]
  root t ht := by
    rcases List.mem_append.1 ht with ht | ht
    · rw [parent?, hh.get?_eq (hg.contains_id ht)]
      exact hg.root t ht
    · exact hh.root t ht
  node_eq s hs := by
    rw [List.flatMap_append, List.mem_append] at hs
    rcases hs with hs | hs
    · have hid : s.id ∈ ts.flatMap ids := by
        obtain ⟨t, ht, hs⟩ := List.mem_flatMap.1 hs
        exact List.mem_flatMap.2 ⟨t, ht, List.mem_map_of_mem hs⟩
      rw [hh.get?_eq ((hg.contains_iff _).2 (.inl hid))]
      exact hg.node_eq s hs
    · exact hh.node_eq s hs

/-- The root comes last and adopts the roots below it. -/
theorem insert (hfits : Fits [node head payload ts] f) (hg : Planted ts f g) :
    Planted [node head payload ts] f (g.insert (.fresh head.id head.src payload none)) := by
  have hchildren : (Node.fresh head.id head.src payload none).children = ts.map id :=
    hfits.children_eq
  have hmem : ∀ {k}, k ∈ ts.map id → k ∈ ts.flatMap ids := fun hk => by
    obtain ⟨t, ht, rfl⟩ := List.mem_map.1 hk
    exact List.mem_flatMap.2 ⟨t, ht, t.id_mem_ids⟩
  have hself : (Node.fresh head.id head.src payload none).id ∉
      (Node.fresh head.id head.src payload none).children := by
    rw [hchildren]
    exact fun h => hfits.not_mem (hmem h)
  have hget : ∀ k, (g.insert (.fresh head.id head.src payload none)).get? k =
      if k = head.id then some { Node.fresh head.id head.src payload none with forest? := some g.id }
      else if k ∈ ts.map id then (g.get? k).map fun m => { m with parent? := some head.id }
      else g.get? k := fun k => by
    rw [get?_insert _ hself, hchildren]
    rfl
  refine ⟨fun k => ?_, fun {k} hk => ?_, fun t ht => ?_, fun s hs => ?_⟩
  · rw [contains_insert _ hself, hg.contains_iff, flatMap_singleton_ids, ids_node, List.mem_cons,
      or_assoc]
    rfl
  · have hne : k ≠ head.id := by
      rintro rfl
      exact hfits.not_contains hk
    have hnot : k ∉ ts.map id := fun h => hfits.below.free (hmem h) hk
    rw [hget, if_neg hne, if_neg hnot, hg.get?_eq hk]
  · obtain rfl := List.mem_singleton.1 ht
    have hroot := hget head.id
    rw [if_pos rfl] at hroot
    exact parent?_of_get? hroot
  · have hs : s ∈ (node head payload ts).subtrees := by simpa using hs
    rw [subtrees_node] at hs
    rw [hget]
    rcases List.mem_cons.1 hs with rfl | hs
    · exact congrArg (Option.map fun n : Node => (n.src, n.payload)) (if_pos rfl)
    · have hne : s.id ≠ head.id := by
        rintro heq
        obtain ⟨t, ht, hs⟩ := List.mem_flatMap.1 hs
        exact hfits.not_mem (heq ▸ List.mem_flatMap.2 ⟨t, ht, List.mem_map_of_mem hs⟩)
      rw [if_neg hne, ← hg.node_eq s hs]
      split
      · cases g.get? s.id <;> rfl
      · rfl

end Planted

theorem planted_nil (f : Forest) : Planted [] f f where
  contains_iff k := by simp
  get?_eq _ := rfl
  root t ht := by simp at ht
  node_eq s hs := by simp at hs

/-- **Trees that fit are planted.** -/
theorem planted (hfits : Fits ts f) : Planted ts f (plantAll ts f) := by
  induction ts using induction_all generalizing f with
  | nil => exact planted_nil f
  | cons t rest iht ihrest =>
    have hfirst := iht hfits.first
    have hothers : Fits rest (t.plant f) := hfits.others fun k => by
      rw [← flatMap_singleton_ids]
      exact hfirst.contains_iff k
    exact hfirst.trans (ihrest hothers)
  | node head payload ts ih =>
    show Planted _ f ((node head payload ts).plant f)
    rw [plant_node]
    exact (ih hfits.below).insert hfits

end Tree

/-! ### Drafts -/

namespace Draft

variable {α : Type} {record : NodeId → Json} {convert : Json → Run NodeId} {d : Draft α} {a : α}
  {ts : List Tree} {f : Forest}

open SolidityTree.Tree

/-- A draft that converts the records of some trees plants them. -/
theorem Yields.run_eq_ok (hd : Yields record d (ts.map Tree.id) a)
    (hconvert : ∀ t ∈ ts, ∀ f, Fits [t] f → ∃ g, convert (record t.id) f = .ok t.id g ∧
      g.common = (t.plant f).common) (hfits : Fits ts f) :
    ∃ g, d.run convert f = .ok a g ∧ g.common = (plantAll ts f).common := by
  induction ts generalizing d f with
  | nil =>
    cases d with
    | done b =>
      obtain rfl : b = a := hd
      exact ⟨f, rfl, rfl⟩
    | fail fault => exact hd.elim
    | convert r next => exact hd.elim
  | cons t rest ih =>
    cases d with
    | done b => exact hd.elim
    | fail fault => exact hd.elim
    | convert r next =>
      obtain ⟨rfl, hnext⟩ := hd
      obtain ⟨ht, hrest⟩ := List.forall_mem_cons.1 hconvert
      obtain ⟨g, hrun, hg⟩ := ht f hfits.first
      -- what is to come fits the forest at hand, since it has the nodes of the planted tree
      have hothers : Fits rest g := hfits.others fun k => by
        rw [← contains_common, hg, contains_common, ← flatMap_singleton_ids]
        exact (planted hfits.first).contains_iff k
      obtain ⟨h, hrun', hh⟩ := ih hnext hrest hothers
      exact ⟨h, Run.bind_eq_ok.2 ⟨t.id, g, hrun, hrun'⟩, hh.trans (common_plantAll hg)⟩

end Draft

/-! ### Records -/

/-- A record with the tag of a kind that the schema has. -/
theorem Schema.draft_of_tag {schema : Schema} {r : Json} {kind : Kind} {draft : Json → Draft Payload}
    (htag : (r.get? schema.tagKey).bind Json.string? = some (Vocabulary.word kind))
    (hdraft : schema.payload? kind = some draft) : schema.draft r = .ok (kind, draft r) := by
  rw [Schema.draft, htag]
  dsimp only
  rw [LawfulVocabulary.ofWord?_word]
  dsimp only
  rw [hdraft]

namespace Tree

variable {schema : Schema} {head : Head} {payload : Payload} {ts : List Tree}

/-- **The draft of a record** converts the records of the trees below the root, and finishes with
what the schema carries of the payload. -/
theorem exists_draft_render (schema : Schema) (hsound : (node head payload ts).isSound)
    (hids : (ts.map id).Nodup) :
    ∃ draft p, schema.draft ((node head payload ts).render schema) = .ok (payload.kind, draft) ∧
      Draft.Yields (recordIn schema ts) draft (ts.map id) p ∧ p.common = payload.common := by
  rw [isSound, Bool.and_eq_true, Bool.and_eq_true, Bool.and_eq_true, decide_eq_true_eq] at hsound
  obtain ⟨⟨⟨hchildren, hsorted⟩, hreadable⟩, hindex⟩ := hsound
  have hshared := Payload.shared_of_isSorted hsorted
  have hobject : ∀ c ∈ payload.children, (recordIn schema ts c).isObject := by
    intro c hc
    rw [hchildren] at hc
    obtain ⟨t, ht, rfl⟩ := List.mem_map.1 hc
    rw [recordIn_id hids ht]
    exact isObject_render t
  have hkind : ∀ c ∈ payload.children,
      Record.kind? (recordIn schema ts c) = among ts (ts.map kind) c := by
    intro c hc
    rw [hchildren] at hc
    obtain ⟨t, ht, rfl⟩ := List.mem_map.1 hc
    rw [recordIn_id hids ht, kind?_render schema, among_map hids ht]
  have htag := congrArg (·.bind Json.string?) (get?_tagKey_render schema (node head payload ts))
  rw [render_node] at htag ⊢
  rw [← hchildren]
  cases schema with
  | modern =>
    have hr := Modern.has_record head payload (recordIn .modern ts)
    exact ⟨_, payload, Schema.draft_of_tag htag rfl,
      Modern.yields_payload hr hshared hreadable hindex hobject, rfl⟩
  | legacy =>
    have hr := Legacy.has_record head payload (recordIn .legacy ts)
    obtain ⟨draft, hdraft, hyields⟩ :=
      Legacy.yields_payload (.of_has hr hshared hreadable hobject hkind) hindex
    exact ⟨_, payload.common, Schema.draft_of_tag htag hdraft, hyields, payload.common_common⟩

/-- A record of either schema has the id and the place of the root. -/
theorem has_head (schema : Schema) :
    ((node head payload ts).render schema).Has
      [("id", .int head.id), ("src", .string head.src.text)] := by
  rw [render_node]
  simp only [Json.has_cons]
  cases schema with
  | modern =>
    have hr := Modern.has_record head payload (recordIn .modern ts)
    exact ⟨hr _ (List.mem_append_right _ (.head _)),
      hr _ (List.mem_append_right _ (.tail _ (.tail _ (.head _)))), nofun⟩
  | legacy =>
    have hr := Legacy.has_record head payload (recordIn .legacy ts)
    exact ⟨hr _ (.tail _ (.tail _ (.head _))),
      hr _ (.tail _ (.tail _ (.tail _ (.tail _ (.head _))))), nofun⟩

theorem id?_render (schema : Schema) :
    Record.id? ((node head payload ts).render schema) = .ok (some head.id) :=
  Record.id?_eq head.id_fits (Json.has_cons.1 (has_head schema)).1

theorem src_render (schema : Schema) :
    Record.src ((node head payload ts).render schema) = .ok head.src :=
  Record.src_eq head.src_fits (Json.has_cons.1 (Json.has_cons.1 (has_head schema)).2).1

end Tree

/-! ### Conversion -/

namespace Run

open SolidityTree.Tree

variable {config : Config} {schema : Schema} {levels : Nat} {t : Tree} {f : Forest}

/-- **The record of a tree becomes that tree**, as far as both schemas carry it. -/
theorem convert_render (hsorted : t.WellSorted) (hfits : Fits [t] f) (hheight : t.height ≤ levels) :
    ∃ g, convert config schema levels (t.render schema) f = .ok t.id g ∧
      g.common = (t.plant f).common := by
  -- on the tree, for whatever forest the trees before it have left
  induction t generalizing f levels with
  | node head payload ts ih =>
    obtain ⟨hsound, hbelow⟩ := wellSorted_node.1 hsorted
    obtain ⟨levels, rfl⟩ : ∃ n, levels = n + 1 :=
      Nat.exists_eq_add_one.2 (Nat.lt_of_lt_of_le (height_pos _) hheight)
    obtain ⟨draft, p, hdraft, hyields, hp⟩ :=
      exists_draft_render schema hsound hfits.below.nodup_map_id
    have hconvert : ∀ t ∈ ts, ∀ f, Fits [t] f → ∃ g,
        convert config schema levels (recordIn schema ts t.id) f = .ok t.id g ∧
          g.common = (t.plant f).common := by
      intro t ht f hfits'
      rw [recordIn_id hfits.below.nodup_map_id ht]
      exact ih t ht (hbelow t ht) hfits' (height_node_le.1 hheight t ht)
    obtain ⟨g, hrun, hg⟩ := hyields.run_eq_ok hconvert hfits.below
    have hid : idOf ((node head payload ts).render schema) f = .ok head.id f :=
      bind_eq_ok.2 ⟨some head.id, f, ask_eq_ok.2 ⟨id?_render schema, rfl⟩, rfl⟩
    have halike := alike_common_iff.2 hg
    -- the trees below the root have become roots, which the root can adopt
    have hplanted := planted hfits.below
    have hchildren : p.children = ts.map Tree.id := by
      rw [← hfits.children_eq, ← Payload.children_common p, hp, Payload.children_common]
    have hregister : ∀ raw?, g.register (.fresh head.id head.src p raw?) =
        .ok (g.insert (.fresh head.id head.src p raw?)) := by
      refine fun raw? => register_of_roots ?_ rfl fun c hc => ?_
      · rw [halike.contains_eq]
        intro hreg
        rcases (hplanted.contains_iff head.id).1 hreg with hmem | hreg
        · exact hfits.not_mem hmem
        · exact hfits.not_contains hreg
      · have hc' : c ∈ ts.map Tree.id := hchildren ▸ hc
        obtain ⟨t, ht, rfl⟩ := List.mem_map.1 hc'
        rw [halike.contains_eq, halike.parent?_eq]
        exact ⟨hplanted.contains_id ht, hplanted.root t ht⟩
    let r := (node head payload ts).render schema
    let raw? := if config.keepRaw ∨ payload.kind = .inlineAssembly then
      some (Record.shallow schema r) else none
    refine ⟨g.insert (.fresh head.id head.src p raw?), ?_, ?_⟩
    · rw [convert]
      refine bind_eq_ok.2 ⟨(payload.kind, draft), f, ask_eq_ok.2 ⟨hdraft, rfl⟩, ?_⟩
      refine bind_eq_ok.2 ⟨head.id, f, hid, ?_⟩
      refine bind_eq_ok.2 ⟨head.src, f, ask_eq_ok.2 ⟨src_render schema, rfl⟩, ?_⟩
      refine bind_eq_ok.2 ⟨p, g, hrun, ?_⟩
      exact bind_eq_ok.2 ⟨_, _, register_run_eq (hregister _), rfl⟩
    · have hnode : (Node.fresh head.id head.src p raw?).common =
          (Node.fresh head.id head.src payload none).common :=
        congrArg (Node.fresh head.id head.src · none) hp
      rw [plant_node]
      exact alike_common_iff.1 (halike.insert hnode)

end Run

end SolidityTree
