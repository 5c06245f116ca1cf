import SolidityTree.Proofs.Comments

/-!
# What the recovery of documentation adds

The pass makes at most two nodes of comments for a node that it supports, one before its children
and one behind them, and leaves all else of the forest alone (`Comments.Reconstructed`).  The nodes
quote comments of the source (`Quotation.IsQuoted`), one that ends right before the node and one
that ends right before its closing brace.

What the pass has done is built up from doing nothing (`reconstructed_refl`) by a step for each of
the two comments (`reconstructed_precede`, `Reconstructed.dangle`), and the pass always gets there
(`Comments.process_reconstructs`).  Each new node takes up the room for one id, so the counter does
not run over where there is room for them.
-/

namespace SolidityTree

/-! ### What the owner receives -/

namespace Payload

variable {p p' p'' : Payload} {before? behind? : Option NodeId} {d : NodeId}

/-- A payload has received at most one child before the others and at most one behind them.  A field
for documentation takes the first of them. -/
structure Receives (before? behind? : Option NodeId) (p p' : Payload) : Prop where
  attributes_eq : p'.attributes = p.attributes
  children_sublist : p.children.Sublist p'.children
  children_perm : p'.children.Perm (before?.toList ++ (p.children ++ behind?.toList))
  of_container : p.kind.isDocumentationContainer →
    p'.children = before?.toList ++ (p.children ++ behind?.toList)
  of_field : ¬ p.kind.isDocumentationContainer →
    behind? = none ∧ p' = before?.elim p fun d => p.setDocumentation (some (.node d))

theorem receives_refl (p : Payload) : Receives none none p p where
  attributes_eq := rfl
  children_sublist := List.Sublist.refl _
  children_perm := by simp
  of_container _ := by simp
  of_field _ := ⟨rfl, rfl⟩

theorem GainsBefore.receives (h : GainsBefore d p p') : Receives (some d) none p p' := by
  refine ⟨h.attributes_eq, ?_, ?_, fun hkind => ?_, fun hkind => ⟨rfl, ?_⟩⟩
  · rcases h.place with ⟨hempty, rfl⟩ | ⟨-, -, hchildren⟩
    · obtain ⟨before, after, hold, hnew⟩ := exists_children_setDocumentation hempty
      rw [hold, hnew]
      exact ((List.nil_sublist _).append_left before).append_right after
    · rw [hchildren]
      exact List.sublist_cons_self d p.children
  · rw [Option.toList_some, Option.toList_none, List.append_nil]
    exact h.children_perm
  · rw [h.children_of_container hkind]
    simp
  · rcases h.place with ⟨-, hset⟩ | ⟨htexts, -⟩
    · exact hset
    · obtain ⟨texts, htexts⟩ := Option.isSome_iff_exists.1 htexts
      exact absurd (isDocumentationContainer_of_docStrings? htexts) hkind

theorem Receives.gainsBehind (h : Receives before? none p p')
    (hkind : p.kind.isDocumentationContainer) (h' : GainsBehind d p' p'') :
    Receives before? (some d) p p'' where
  attributes_eq := h'.attributes_eq.trans h.attributes_eq
  children_sublist := by
    rw [h'.place]
    exact h.children_sublist.trans (List.sublist_append_left _ _)
  children_perm := by
    have hperm := h.children_perm
    rw [Option.toList_none, List.append_nil] at hperm
    rw [h'.place, Option.toList_some, ← List.append_assoc]
    exact hperm.append_right _
  of_container _ := by
    rw [h'.place, h.of_container hkind]
    simp
  of_field hfield := absurd hkind hfield

end Payload

namespace Comments

open Forest

/-- A node that has been made of a comment, for an owner in the source with an index. -/
structure Quotation.IsQuoted {source : List Char} (q : Quotation source) (index : Int)
    (d : Node) : Prop where
  src_eq : d.src = ⟨q.found.offset, q.found.length, index⟩
  payload_eq : d.payload = .structuredDocumentation q.found.text

variable {config : Config} {source : List Char} {found : Found} {f g h : Forest} {id d : NodeId}
  {n : Node}

/-! ### What the pass leaves behind -/

/-- A node has come that was made of a comment in the source of its owner. -/
structure Recovered (config : Config) (f g : Forest) (id : NodeId) (n : Node) (d : NodeId)
    (ends : ∀ {source}, Quotation source → Prop) : Prop where
  new : ¬ f.contains d
  exists_quotation : ∃ source, source? config f id = some source ∧
    ∃ q : Quotation source, ends q ∧ ∃ m, g.get? d = some m ∧ q.IsQuoted n.src.source m

/-- What has been recovered stays while the new node does. -/
theorem Recovered.mono {ends : ∀ {source}, Quotation source → Prop}
    (hg : Recovered config f g id n d ends) (hget : h.get? d = g.get? d) :
    Recovered config f h id n d ends where
  new := hg.new
  exists_quotation := by
    rw [hget]
    exact hg.exists_quotation

/-- What has come of a forest in which the documentation of a node `n` has been recovered.  The node
has got at most one new child before its other children, which quotes a comment right before it, and
at most one behind them, which quotes a comment right before its closing brace.  Nothing else has
changed, and documentation that was there is still read.  The counter has not run over if there was
room for the new nodes. -/
structure Reconstructed (config : Config) (f : Forest) (id : NodeId) (n : Node)
    (before? behind? : Option NodeId) (g : Forest) : Prop where
  consistent : g.Consistent
  contains_iff : ∀ {k}, g.contains k ↔ f.contains k ∨ before? = some k ∨ behind? = some k
  get?_eq : OnlyAt id f g
  owner : ∃ payload, g.get? id = some { n with payload } ∧
    n.payload.Receives before? behind? payload
  kept : ∀ flavour {seen}, f.documentationIn? flavour id = some seen →
    g.documentationIn? flavour id = some seen
  before : ∀ {d}, before? = some d → f.documentation? id = none ∧
    g.documentation? id = some (.node d) ∧
    Recovered config f g id n d fun q => (q.stop : Int) = n.src.offset
  behind : ∀ {d}, behind? = some d → n.kind.isDocumentationContainer ∧ f.dangling? id = none ∧
    (g.isDocumentationAt (n.src.offset < ·) d → g.dangling? id = some (.node d)) ∧
    Recovered config f g id n d fun q =>
      (q.stop : Int) = n.src.stop - 1 ∧ q.after.head? = some '\x7d'
  room : ∀ {m}, f.Room (before?.toList.length + behind?.toList.length + m) →
    g.Room m ∧ g.overrun = f.overrun

variable {before? behind? : Option NodeId}

/-- To begin with there is nothing new. -/
theorem reconstructed_refl (hf : f.Consistent) (hn : f.get? id = some n) :
    Reconstructed config f id n none none f where
  consistent := hf
  contains_iff := by simp
  get?_eq := fun _ _ => rfl
  owner := ⟨n.payload, hn, n.payload.receives_refl⟩
  kept _ _ h := h
  before h := by contradiction
  behind h := by contradiction
  room {m} h := ⟨h.mono (Nat.le_add_left m 0), rfl⟩

/-- What has been made of a comment is documentation of its owner that quotes it. -/
theorem Documents.recovered {gains : NodeId → Payload → Payload → Prop}
    (hdoc : Documents gains id found g h) (hn : (g.get? id).map (·.src.source) = some n.src.source)
    (hnew : ¬ f.contains g.nextId.1) (hsource : source? config f id = some source)
    {ends : ∀ {source}, Quotation source → Prop} (q : Quotation source) (hq : q.found = found)
    (hends : ends q) : Recovered config f h id n g.nextId.1 ends where
  new := hnew
  exists_quotation := by
    refine ⟨source, hsource, q, hends, _, hdoc.get?_docNode, ?_, ?_⟩
    · subst hq
      show (docNode g id q.found).src = _
      rw [docNode, Node.fresh, hn]
      rfl
    · subst hq
      rfl

/-- A comment before the node becomes a child before its children. -/
theorem reconstructed_precede (hf : f.Consistent) (hn : f.get? id = some n)
    (hsource : source? config f id = some source) (hnone : f.documentation? id = none)
    (hfind : (precedingGap? f id).bind (find? source) = some found)
    (hdoc : Documents Payload.GainsBefore id found f g) :
    Reconstructed config f id n (some f.nextId.1) none g := by
  have hfg := hdoc.annotates (fun h => h.toGains) hf
  obtain ⟨m, payload, hm, hgains, hget⟩ := hdoc.get?_owner
  obtain rfl : m = n := Option.some.inj (hm.symm.trans hn)
  obtain ⟨gap, hgap, hfind'⟩ := Option.bind_eq_some_iff.1 hfind
  obtain ⟨q, hq, hstop⟩ := exists_quotation hfind'
  refine ⟨hfg.consistent, ?_, hdoc.onlyAt, ?_, ?_, ?_, fun h => by contradiction, ?_⟩
  · intro k
    rw [hdoc.contains_iff, or_comm]
    simp only [Option.some.injEq, reduceCtorEq, or_false]
    exact or_congr_right eq_comm
  · exact ⟨payload, hget, hgains.receives⟩
  · intro flavour seen hseen
    cases flavour with
    | preceding =>
      rw [documentationIn?, hnone] at hseen
      contradiction
    | dangling => exact hdoc.dangling?_of_before hf hseen
  · rintro d ⟨⟩
    refine ⟨hnone, ?_, hdoc.recovered (by rw [hn]; rfl) hdoc.not_contains hsource q hq ?_⟩
    · exact hdoc.documentation?_eq hnone fun n hn => offset_le_of_precedingGap? hn hfind
    · rw [hstop, stop_of_precedingGap? hn hgap]
  · intro m hroom
    exact hdoc.room (Nat.add_comm 1 m ▸ hroom)

/-- What is not read now has not been read before. -/
theorem Reconstructed.dangling?_eq_none (hg : Reconstructed config f id n before? behind? g)
    (hnone : g.dangling? id = none) : f.dangling? id = none := by
  cases hseen : f.dangling? id with
  | none => rfl
  | some seen =>
    have hkept := hg.kept .dangling hseen
    rw [documentationIn?, hnone] at hkept
    contradiction

/-- The comment at the end of the node takes up the room for one more id. -/
theorem Reconstructed.room_dangle (hg : Reconstructed config f id n before? none g)
    {gains : NodeId → Payload → Payload → Prop} (hdoc : Documents gains id found g h) {m : Nat}
    (hroom : f.Room (before?.toList.length + 1 + m)) : h.Room m ∧ h.overrun = f.overrun := by
  rw [Nat.add_assoc, Nat.add_comm 1 m] at hroom
  obtain ⟨hroom, hbefore⟩ := hg.room hroom
  obtain ⟨hroom, hbehind⟩ := hdoc.room hroom
  exact ⟨hroom, hbehind.trans hbefore⟩

/-- A comment at the end of the node becomes a child behind its children. -/
theorem Reconstructed.dangle (hg : Reconstructed config f id n before? none g)
    (hn : f.get? id = some n) (hsource : source? config f id = some source)
    (hcontainer : (g.get? id).any (·.kind.isDocumentationContainer)) (hnone : g.dangling? id = none)
    (hfind : (danglingGap? g source id).bind (find? source) = some found)
    (hdoc : Documents Payload.GainsBehind id found g h) :
    Reconstructed config f id n before? (some g.nextId.1) h := by
  have hgh := hdoc.annotates (fun h => h.toGains) hg.consistent
  obtain ⟨payload, hget, hreceives⟩ := hg.owner
  obtain ⟨m, payload', hm, hgains, hget'⟩ := hdoc.get?_owner
  obtain rfl : m = { n with payload } := Option.some.inj (hm.symm.trans hget)
  have hkind : n.kind.isDocumentationContainer := by
    rwa [hm, Option.any_some, Annotates.kind_eq hreceives.attributes_eq] at hcontainer
  obtain ⟨gap, hgap, hfind'⟩ := Option.bind_eq_some_iff.1 hfind
  obtain ⟨q, hq, hstop⟩ := exists_quotation hfind'
  obtain ⟨hbrace, rest, hrest, hhead⟩ := stop_of_danglingGap? hm hgap
  -- the documentation before the container stays in its place
  have hkept : ∀ {seen}, g.documentation? id = some seen → h.documentation? id = some seen :=
    hdoc.documentation?_of_behind hg.consistent hcontainer
  refine ⟨hgh.consistent, ?_, ?_, ?_, ?_, ?_, ?_, hg.room_dangle hdoc⟩
  · intro k
    rw [hdoc.contains_iff, hg.contains_iff]
    simp only [reduceCtorEq, or_false, Option.some.injEq]
    tauto
  · intro k hk hne
    exact (hdoc.onlyAt (hg.contains_iff.2 (.inl hk)) hne).trans (hg.get?_eq hk hne)
  · exact ⟨payload', hget', hreceives.gainsBehind hkind hgains⟩
  · intro flavour seen hseen
    have hseen := hg.kept flavour hseen
    cases flavour with
    | preceding => exact hkept hseen
    | dangling =>
      rw [documentationIn?, hnone] at hseen
      contradiction
  · intro d hd
    obtain ⟨hnone', hread, hrecovered⟩ := hg.before hd
    have hreg : g.contains d := hg.contains_iff.2 (.inr (.inl hd))
    refine ⟨hnone', hkept hread, hrecovered.mono (hdoc.onlyAt hreg ?_)⟩
    rintro rfl
    exact hrecovered.new (contains_iff_get?.2 ⟨n, hn⟩)
  · rintro d ⟨⟩
    refine ⟨hkind, hg.dangling?_eq_none hnone, fun hsuits => ?_, ?_⟩
    · refine hdoc.dangling?_eq hcontainer hnone fun m hget => ?_
      obtain rfl := Option.some.inj (hm.symm.trans hget)
      rw [hdoc.isDocumentationAt_doc] at hsuits
      exact of_decide_eq_true hsuits
    · refine hdoc.recovered (by rw [hm]; rfl) (fun hold => ?_) hsource q hq ⟨?_, ?_⟩
      · exact hdoc.not_contains (hg.contains_iff.2 (.inl hold))
      · rw [hstop]
        exact hbrace
      · rw [← hstop, q.dropBytes?_stop] at hrest
        rw [Option.some.inj hrest]
        exact hhead

/-! ### The pass -/

/-- **The recovery of documentation always succeeds**, and adds at most two nodes that quote
comments of the source. -/
theorem process_reconstructs (hf : f.Consistent) (hn : f.get? id = some n)
    (hsupports : pass.supports n) (config : Config) :
    ∃ acts g before? behind?, pass.process config id f = .ok acts g ∧
      Reconstructed config f id n before? behind? g ∧
      acts = (before?.isSome || behind?.isSome) := by
  have hkind : n.kind.isDocumentable := (Bool.and_eq_true_iff.1 hsupports).1
  have hwp : Run.wp (process config id) (fun acts g => ∃ before? behind?,
      Reconstructed config f id n before? behind? g ∧
        acts = (before?.isSome || behind?.isSome)) (fun _ => False) f := by
    refine Run.wp_bind (Run.wp_get ?_)
    split
    · exact Run.wp_pure ⟨none, none, reconstructed_refl hf hn, rfl⟩
    · next source hsource =>
      have hpreceding : Run.wp (recoverPreceding source id) (fun acts g => ∃ before?,
          Reconstructed config f id n before? none g ∧ acts = before?.isSome)
          (fun _ => False) f := by
        refine (wp_recoverPreceding hf source hn hkind).mono (fun acts g hg => ?_) fun _ h => h
        cases acts with
        | true =>
          obtain ⟨found, hnone, hfind, hdoc⟩ := hg
          exact ⟨_, reconstructed_precede hf hn hsource hnone hfind hdoc, rfl⟩
        | false =>
          obtain ⟨rfl, -⟩ := hg
          exact ⟨none, reconstructed_refl hf hn, rfl⟩
      refine hpreceding.andThen fun precedes g hprecede => ?_
      obtain ⟨before?, hg, hprecedes⟩ := hprecede
      obtain ⟨payload, hget, -⟩ := hg.owner
      refine ((wp_recoverDangling hg.consistent source (contains_iff_get?.2 ⟨_, hget⟩)).mono
        (fun acts h hh => ?_) fun _ h => h).andThen fun _ _ h => Run.wp_pure h
      cases acts with
      | true =>
        obtain ⟨found, hcontainer, hnone, hfind, hdoc⟩ := hh
        exact ⟨before?, _, hg.dangle hn hsource hcontainer hnone hfind hdoc, by rw [hprecedes]; rfl⟩
      | false =>
        obtain ⟨rfl, -⟩ := hh
        exact ⟨before?, none, hg, by rw [hprecedes]; rfl⟩
  obtain ⟨acts, g, hrun, before?, behind?, hg, hacts⟩ := Run.exists_ok_of_wp hwp
  exact ⟨acts, g, before?, behind?, hrun, hg, hacts⟩

/-- A unit with an empty contract. -/
def emptyContractNodes : List Node :=
  [.fresh 1 ⟨6, 23, 0⟩ (.contractDefinition
      ⟨"C", 2, .contract, false, true, [1], [], [], none, none, none⟩ []) none,
    .fresh 2 ⟨0, 29, 0⟩ (.sourceUnit ⟨"a.sol", 0, "a.sol", [("C", 1)], none⟩ [1]) none]

/-- The forest of these nodes. -/
def emptyContract : Forest := emptyContractNodes.foldl insert (empty 0)

theorem consistent_emptyContract : emptyContract.Consistent := by
  have hregister : (empty 0).registerAll emptyContractNodes = .ok emptyContract := rfl
  exact (consistent_empty 0).registerAll hregister (by decide)

/-- A source in which the contract has a comment before it and another one inside. -/
def commentedSource : Config :=
  { Config.standard with sources := [("a.sol", "/// a\ncontract C \x7b /** b */ \x7d")] }

/-- Both comments become documentation. -/
theorem process_reconstructs_emptyContract : ∃ n g, emptyContract.get? 1 = some n ∧
    pass.process commentedSource 1 emptyContract = .ok true g ∧
    Reconstructed commentedSource emptyContract 1 n (some 3) (some 4) g ∧
    g.overrun = emptyContract.overrun := by
  have hn : emptyContract.get? 1 = some _ := rfl
  obtain ⟨g, hrun, hchildren⟩ : ∃ g, pass.process commentedSource 1 emptyContract = .ok true g ∧
      g.children 1 = [3, 4] := ⟨_, rfl, rfl⟩
  obtain ⟨acts, g', before?, behind?, hrun', hg, -⟩ :=
    process_reconstructs consistent_emptyContract hn rfl commentedSource
  cases hrun.symm.trans hrun'
  obtain ⟨payload, hget, hreceives⟩ := hg.owner
  rw [children_of_get? hget] at hchildren
  have hnew : before?.toList ++ behind?.toList = [3, 4] :=
    (hreceives.of_container rfl).symm.trans hchildren
  obtain ⟨rfl, rfl⟩ : before? = some 3 ∧ behind? = some 4 := by
    cases before? <;> cases behind? <;> simp_all
  exact ⟨_, g, hn, hrun, hg, (hg.room (m := 0) (by decide +kernel)).2⟩

end Comments

end SolidityTree
