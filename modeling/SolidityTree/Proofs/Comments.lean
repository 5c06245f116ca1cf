import SolidityTree.Proofs.DocumentationPlaces
import SolidityTree.Proofs.Quotations
import SolidityTree.Proofs.Repetition

/-!
# Comments that are found again

When the pass over comments comes to a node once more, it looks at the same gaps as before: gaps are
bounded by nodes that stay in their places, and documentation nodes do not bound the gap at the end
of a container (`Annotates.precedingGap?_eq`, `Annotates.danglingGap?_eq`).  A comment before the
node has become documentation that is found, since it begins no later than the node does
(`offset_le_of_precedingGap?`).  A comment at the end of a container has become documentation that
is found only if it begins later than the container, so the pass acts again where it does not
(`Overlooked`, `settles`).
-/

namespace SolidityTree

namespace Comments

open Forest

/-! ### Forests with more documentation -/

/-- Documentation nodes have come to a forest, and the old nodes have kept everything but the slots
of their payloads. -/
structure Annotates (f g : Forest) : Prop where
  consistent : g.Consistent
  get?_eq : ∀ {k n}, f.get? k = some n →
    ∃ payload, payload.attributes = n.payload.attributes ∧ g.get? k = some { n with payload }
  new : ∀ {k n}, g.get? k = some n → ¬ f.contains k → n.kind = .structuredDocumentation

/-- Of the old nodes no other than `k` has changed. -/
def OnlyAt (k : NodeId) (f g : Forest) : Prop :=
  ∀ {j}, f.contains j → j ≠ k → g.get? j = f.get? j

variable {f g h : Forest} {j k c owner : NodeId} {config : Config} {n m : Node}

namespace Annotates

theorem refl (hf : f.Consistent) : Annotates f f where
  consistent := hf
  get?_eq hk := ⟨_, rfl, hk⟩
  new hk hnew := absurd (contains_iff_get?.2 ⟨_, hk⟩) hnew

theorem contains_of_contains (hfg : Annotates f g) (hk : f.contains k) : g.contains k := by
  obtain ⟨n, hn⟩ := contains_iff_get?.1 hk
  obtain ⟨payload, -, hk⟩ := hfg.get?_eq hn
  exact contains_iff_get?.2 ⟨_, hk⟩

theorem kind_eq {payload : Payload} (h : payload.attributes = n.payload.attributes) :
    ({ n with payload } : Node).kind = n.kind :=
  congrArg Attributes.kind h

theorem trans (hfg : Annotates f g) (hgh : Annotates g h) : Annotates f h where
  consistent := hgh.consistent
  get?_eq hk := by
    obtain ⟨payload, hattributes, hk⟩ := hfg.get?_eq hk
    obtain ⟨payload', hattributes', hk⟩ := hgh.get?_eq hk
    exact ⟨payload', hattributes'.trans hattributes, hk⟩
  new {k n} hk hnew := by
    by_cases hreg : g.contains k
    · obtain ⟨m, hm⟩ := contains_iff_get?.1 hreg
      obtain ⟨payload, hattributes, hk'⟩ := hgh.get?_eq hm
      obtain rfl := Option.some.inj (hk'.symm.trans hk)
      rw [kind_eq hattributes]
      exact hfg.new hm hnew
    · exact hgh.new hk hreg

theorem retains (hfg : Annotates f g) : Retains f g where
  consistent := hfg.consistent
  contains_of_contains := hfg.contains_of_contains
  parent?_eq hk := by
    obtain ⟨n, hn⟩ := contains_iff_get?.1 hk
    obtain ⟨payload, -, hk⟩ := hfg.get?_eq hn
    rw [parent?_of_get? hk, parent?_of_get? hn]

theorem isDocumentationAt_eq (hfg : Annotates f g) (hk : f.contains k) (accepts : Int → Bool) :
    g.isDocumentationAt accepts k = f.isDocumentationAt accepts k := by
  obtain ⟨n, hn⟩ := contains_iff_get?.1 hk
  obtain ⟨payload, hattributes, hk⟩ := hfg.get?_eq hn
  rw [isDocumentationAt, isDocumentationAt, hk, hn, Option.any_some, Option.any_some,
    kind_eq hattributes]

/-- Old children are the documentation that they were. -/
theorem isDocumentationAt_children (hfg : Annotates f g) (hf : f.Consistent)
    (hn : f.get? k = some n) : ∀ c ∈ n.children, ∀ accepts,
      g.isDocumentationAt accepts c = f.isDocumentationAt accepts c := by
  intro c hc accepts
  rw [← children_of_get? hn] at hc
  exact hfg.isDocumentationAt_eq (hf.contains_child hc) accepts

theorem source?_eq (hfg : Annotates f g) (hf : f.Consistent) (hk : f.contains k) :
    source? config g k = source? config f k := by
  obtain ⟨n, hn⟩ := contains_iff_get?.1 (hf.contains_of_reaches hk (hf.root_spec hk).1)
  obtain ⟨payload, hattributes, hn'⟩ := hfg.get?_eq hn
  have hunit : ({ n with payload } : Node).unit? = n.unit? := congrArg Attributes.unit? hattributes
  unfold source?
  rw [hfg.retains.root_eq hf hk, hn', hn]
  show (({ n with payload } : Node).unit?).bind _ = n.unit?.bind _
  rw [hunit]

/-! ### Gaps -/

theorem previous?_eq (hfg : Annotates f g) (hj : f.contains j)
    (habove : ∀ p, f.parent? j = some p → g.get? p = f.get? p) : g.previous? j = f.previous? j := by
  have hposition : g.position? j = f.position? j := by
    unfold position?
    rw [hfg.retains.parent?_eq hj]
    cases hp : f.parent? j with
    | none => rfl
    | some p =>
      have hchildren : g.children p = f.children p := by
        rw [children, habove p hp, children]
      simp only [Option.bind_eq_bind, Option.bind_some, hchildren]
  rw [previous?, hposition, previous?]

/-- A sibling is a child of the same parent. -/
theorem contains_of_previous? (hf : f.Consistent) (h : f.previous? j = some c) : f.contains c := by
  obtain ⟨⟨siblings, index⟩, hposition, h⟩ := Option.bind_eq_some_iff.1 h
  obtain ⟨p, -, hposition⟩ := Option.bind_eq_some_iff.1 hposition
  obtain ⟨i, -, hi⟩ := Option.bind_eq_some_iff.1 hposition
  cases hi
  dsimp only at h
  split at h
  · contradiction
  · exact hf.contains_child (List.mem_of_getElem? h)

/-- The gap before a node depends on the places of its parent and of the sibling before it. -/
theorem precedingGap?_eq (hfg : Annotates f g) (hf : f.Consistent) (hj : f.contains j)
    (habove : ∀ p, f.parent? j = some p → g.get? p = f.get? p) :
    precedingGap? g j = precedingGap? f j := by
  obtain ⟨n, hn⟩ := contains_iff_get?.1 hj
  obtain ⟨payload, -, hn'⟩ := hfg.get?_eq hn
  have hplace : ∀ {c}, f.contains c →
      ∃ n m, f.get? c = some n ∧ g.get? c = some m ∧ m.src = n.src := by
    intro c hc
    obtain ⟨n, hn⟩ := contains_iff_get?.1 hc
    obtain ⟨payload, -, hm⟩ := hfg.get?_eq hn
    exact ⟨n, _, hn, hm, rfl⟩
  unfold precedingGap?
  rw [hfg.previous?_eq hj habove, hn, hn']
  have hinside : (n.parent?.bind fun p => (g.get? p).bind fun p => gap? p.src.offset n.src.offset) =
      n.parent?.bind fun p => (f.get? p).bind fun p => gap? p.src.offset n.src.offset := by
    cases hp : n.parent? with
    | none => rfl
    | some p =>
      rw [← parent?_of_get? hn] at hp
      obtain ⟨parent, parent', hget, hget', hsrc⟩ := hplace (hf.contains_parent hp)
      simp only [Option.bind_some, hget, hget', hsrc]
  simp only [Option.bind_eq_bind, Option.bind_some, hinside]
  cases hprevious : f.previous? j with
  | none => rfl
  | some s =>
    obtain ⟨sibling, sibling', hget, hget', hsrc⟩ := hplace (contains_of_previous? hf hprevious)
    simp only [Option.bind_some, hget, hget', Option.filter_some, hsrc]
    cases sibling.src.isUnknown <;> simp [hsrc]

/-- Documentation nodes do not move the end of the last child. -/
theorem lastStop?_eq (hfg : Annotates f g) {added : List NodeId}
    (hchildren : m.children = n.children ++ added) (hold : ∀ c ∈ n.children, f.contains c)
    (hnew : ∀ c ∈ added, ¬ f.contains c) : lastStop? g m = lastStop? f n := by
  let counts (c : Node) : Bool := c.kind ≠ .structuredDocumentation && !c.src.isUnknown
  have hadded : (added.filterMap g.get?).filter counts = [] := by
    rw [List.filter_eq_nil_iff]
    intro d hd
    obtain ⟨c, hc, hget⟩ := List.mem_filterMap.1 hd
    have hkind := hfg.new hget (hnew c hc)
    simp [counts, hkind]
  -- the old children are of the same kinds and in the same places
  have hstops : ∀ cs : List NodeId, (∀ c ∈ cs, f.contains c) →
      ((cs.filterMap g.get?).filter counts).map (·.src.stop) =
        ((cs.filterMap f.get?).filter counts).map (·.src.stop) := by
    intro cs hcs
    induction cs with
    | nil => rfl
    | cons c rest ih =>
      obtain ⟨hc, hrest⟩ := List.forall_mem_cons.1 hcs
      obtain ⟨n, hn⟩ := contains_iff_get?.1 hc
      obtain ⟨payload, hattributes, hn'⟩ := hfg.get?_eq hn
      have hcounts : counts { n with payload } = counts n := by
        show (decide (({ n with payload } : Node).kind ≠ _) && _) = _
        rw [kind_eq hattributes]
      rw [List.filterMap_cons_some hn', List.filterMap_cons_some hn, List.filter_cons,
        List.filter_cons, hcounts]
      cases counts n
      · exact ih hrest
      · exact congrArg (n.src.stop :: ·) (ih hrest)
  show ((((m.children.filterMap g.get?).filter counts).map (·.src.stop)).max?) = _
  rw [hchildren, List.filterMap_append, List.filter_append, hadded, List.append_nil,
    hstops n.children hold]
  rfl

/-- The gap at the end of a container stays when it gets documentation behind its children. -/
theorem danglingGap?_eq (hfg : Annotates f g) (hf : f.Consistent) (hn : f.get? k = some n)
    (hm : g.get? k = some m) (hsrc : m.src = n.src) {added : List NodeId}
    (hchildren : m.children = n.children ++ added) (hnew : ∀ c ∈ added, ¬ f.contains c)
    (source : List Char) : danglingGap? g source k = danglingGap? f source k := by
  have hold : ∀ c ∈ n.children, f.contains c := fun c hc => by
    rw [← children_of_get? hn] at hc
    exact hf.contains_child hc
  unfold danglingGap?
  rw [hm, hn]
  simp only [Option.bind_eq_bind, Option.bind_some, hsrc, hfg.lastStop?_eq hchildren hold hnew]

end Annotates

/-! ### What the pass looks for -/

/-- There is a comment before the node, and no documentation. -/
def Missing (config : Config) (f : Forest) (k : NodeId) (found : Found) : Prop :=
  ∃ source, (f.get? k).any pass.supports ∧ source? config f k = some source ∧
    f.documentation? k = none ∧ (precedingGap? f k).bind (find? source) = some found

/-- There is a comment at the end of the container, and no dangling documentation. -/
def MissingDangling (config : Config) (f : Forest) (k : NodeId) (found : Found) : Prop :=
  ∃ source, (f.get? k).any pass.supports ∧ source? config f k = some source ∧
    (f.get? k).any (·.kind.isDocumentationContainer) ∧ f.dangling? k = none ∧
      (danglingGap? f source k).bind (find? source) = some found

/-- There is a comment that the pass turns into documentation of the node. -/
def Acts (config : Config) (f : Forest) (k : NodeId) : Prop :=
  ∃ found, Missing config f k found ∨ MissingDangling config f k found

/-- The comment at the end of a container starts no later than the container does.  Documentation
made of it counts as documentation before the container, so the comment is never seen to be
there. -/
def Overlooked (config : Config) (f : Forest) (k : NodeId) : Prop :=
  ∃ n found, f.get? k = some n ∧ MissingDangling config f k found ∧
    (found.offset : Int) ≤ n.src.offset

/-- The pass acts on nodes that it supports, where it knows the source. -/
theorem Acts.exists_source (h : Acts config f k) :
    ∃ source, (f.get? k).any pass.supports ∧ source? config f k = some source := by
  obtain ⟨found, ⟨source, hsupports, hsource, -⟩ | ⟨source, hsupports, hsource, -⟩⟩ := h
  · exact ⟨source, hsupports, hsource⟩
  · exact ⟨source, hsupports, hsource⟩

/-- The pass would do nothing to the node, unless there is a comment that it overlooks. -/
def Settled (config : Config) (f : Forest) (k : NodeId) : Prop :=
  Acts config f k → Overlooked config f k

theorem settled_of (hpreceding : ∀ found, ¬ Missing config f k found)
    (hdangling : ∀ n found, f.get? k = some n → MissingDangling config f k found →
      (found.offset : Int) ≤ n.src.offset) : Settled config f k := by
  rintro ⟨found, hmissing | hmissing⟩
  · exact absurd hmissing (hpreceding found)
  · obtain ⟨source, hsupports, -⟩ := id hmissing
    obtain ⟨n, hn, -⟩ := (Option.any_eq_true _ _).1 hsupports
    exact ⟨n, found, hn, hmissing, hdangling n found hn hmissing⟩

theorem Settled.acts_iff (h : Settled config f k) : Acts config f k ↔ Overlooked config f k :=
  ⟨h, fun ⟨_, found, _, hmissing, _⟩ => ⟨found, .inr hmissing⟩⟩

namespace Annotates

/-- What the pass looks for at a node, and where, depends on the node, its parent and its children's
kinds and places. -/
theorem settled (hfg : Annotates f g) (hf : f.Consistent) (hj : f.contains j)
    (hget : g.get? j = f.get? j) (habove : ∀ p, f.parent? j = some p → g.get? p = f.get? p)
    (h : Settled config f j) : Settled config g j := by
  obtain ⟨n, hn⟩ := contains_iff_get?.1 hj
  have hchildren : ∀ c ∈ f.children j, ∀ accepts,
      g.isDocumentationAt accepts c = f.isDocumentationAt accepts c := fun c hc accepts =>
    hfg.isDocumentationAt_eq (hf.contains_child hc) accepts
  have hgap : ∀ source, danglingGap? g source j = danglingGap? f source j := fun source =>
    hfg.danglingGap?_eq hf hn (hget.trans hn) rfl (List.append_nil _).symm (by simp) source
  unfold Settled Acts Overlooked Missing MissingDangling at h ⊢
  simp only [hget, hfg.source?_eq hf hj, documentation?_congr hget hchildren,
    dangling?_congr hget hchildren, hfg.precedingGap?_eq hf hj habove, hgap]
  exact h

end Annotates

/-! ### Acting on one node -/

namespace Documents

variable {gains : NodeId → Payload → Payload → Prop} {found : Found}

theorem not_contains (hdoc : Documents gains owner found g h) : ¬ g.contains g.nextId.1 :=
  (register_eq_ok hdoc.register_eq).1

theorem contains_iff (hdoc : Documents gains owner found g h) :
    h.contains k ↔ k = g.nextId.1 ∨ g.contains k := by
  obtain ⟨n, payload, -, -, rfl⟩ := hdoc.attach_eq
  rw [(SameNodes.attach _ _ _ _).contains_iff]
  exact contains_register hdoc.register_eq

theorem onlyAt (hdoc : Documents gains owner found g h) : OnlyAt owner g h := by
  intro j hj hne
  have hnew := hdoc.not_contains
  have hj' : g.nextId.1 ≠ j := by
    rintro rfl
    exact hnew hj
  obtain ⟨n, payload, -, -, rfl⟩ := hdoc.attach_eq
  rw [attach, get?_setParent, if_neg hj', modifyPayload, get?_modify_of_ne hne,
    get?_withDoc_of_contains hj]

theorem get?_owner (hdoc : Documents gains owner found g h) : ∃ n payload, g.get? owner = some n ∧
    gains g.nextId.1 n.payload payload ∧ h.get? owner = some { n with payload } := by
  have hnew := hdoc.not_contains
  obtain ⟨n, payload, hn, hgains, rfl⟩ := hdoc.attach_eq
  have hreg : g.contains owner := contains_iff_get?.2 ⟨n, hn⟩
  have hne : g.nextId.1 ≠ owner := by
    rintro heq
    exact hnew (heq ▸ hreg)
  refine ⟨n, payload, hn, hgains, ?_⟩
  rw [attach, get?_setParent, if_neg hne, modifyPayload, get?_modify, if_pos rfl,
    get?_withDoc_of_contains hreg, hn]
  rfl

/-- The new node is the one that was made of the comment. -/
theorem get?_docNode (hdoc : Documents gains owner found g h) : h.get? g.nextId.1 =
    some { docNode g owner found with parent? := some owner, forest? := some g.id } := by
  have hnew := hdoc.not_contains
  obtain ⟨n, payload, hn, -, rfl⟩ := hdoc.attach_eq
  have hne : g.nextId.1 ≠ owner := by
    rintro heq
    exact hnew (heq ▸ contains_iff_get?.2 ⟨n, hn⟩)
  rw [attach, get?_setParent, if_pos rfl, modifyPayload, get?_modify_of_ne hne, get?_withDoc,
    if_pos rfl]
  rfl

/-- The new node stands where the comment does. -/
theorem get?_doc (hdoc : Documents gains owner found g h) : ∃ d, h.get? g.nextId.1 = some d ∧
    d.kind = .structuredDocumentation ∧ d.src.offset = found.offset :=
  ⟨_, hdoc.get?_docNode, rfl, rfl⟩

theorem isDocumentationAt_doc (hdoc : Documents gains owner found g h) (accepts : Int → Bool) :
    h.isDocumentationAt accepts g.nextId.1 = accepts found.offset := by
  obtain ⟨d, hd, hkind, hoffset⟩ := hdoc.get?_doc
  rw [isDocumentationAt, hd, Option.any_some, hkind, hoffset]
  simp

theorem annotates (hgains : ∀ {doc p p'}, gains doc p p' → p.Gains doc p')
    (hdoc : Documents gains owner found g h) (hg : g.Consistent) : Annotates g h where
  consistent := by
    have hself : Grown True g g [] := grown_self hg
    exact (hdoc.mended hgains hself).grown.consistent
  get?_eq {k n} hn := by
    by_cases hk : k = owner
    · subst hk
      obtain ⟨m, payload, hm, hpayload, hget⟩ := hdoc.get?_owner
      obtain rfl : m = n := Option.some.inj (hm.symm.trans hn)
      exact ⟨payload, (hgains hpayload).attributes_eq, hget⟩
    · exact ⟨n.payload, rfl, (hdoc.onlyAt (contains_iff_get?.2 ⟨n, hn⟩) hk).trans hn⟩
  new {k n} hn hnew := by
    obtain rfl := (hdoc.contains_iff.1 (contains_iff_get?.2 ⟨n, hn⟩)).resolve_right hnew
    obtain ⟨d, hd, hkind, -⟩ := hdoc.get?_doc
    obtain rfl := Option.some.inj (hd.symm.trans hn)
    exact hkind

/-- Documentation that begins no later than its owner is read before it. -/
theorem documentation?_eq (hdoc : Documents Payload.GainsBefore owner found g h)
    (hnone : g.documentation? owner = none)
    (hplace : ∀ n, g.get? owner = some n → (found.offset : Int) ≤ n.src.offset) :
    h.documentation? owner = some (.node g.nextId.1) := by
  obtain ⟨n, payload, hn, hgains, hget⟩ := hdoc.get?_owner
  rcases hgains.place with ⟨hempty, hset⟩ | ⟨htexts, -, hchildren⟩
  · rw [hset] at hget
    exact documentation?_of_field hget (Payload.documentation?_setDocumentation hempty _)
  · obtain ⟨texts, htexts⟩ := Option.isSome_iff_exists.1 htexts
    refine documentationIn?_of_first .preceding hn hget hgains.attributes_eq
      (Payload.isDocumentationContainer_of_docStrings? htexts) hchildren hnone ?_
    rw [hdoc.isDocumentationAt_doc]
    exact decide_eq_true (hplace n hn)

/-- Documentation that begins behind the beginning of its owner is read as dangling. -/
theorem dangling?_eq (hdoc : Documents Payload.GainsBehind owner found g h)
    (hcontainer : (g.get? owner).any (·.kind.isDocumentationContainer))
    (hnone : g.dangling? owner = none)
    (hplace : ∀ n, g.get? owner = some n → n.src.offset < found.offset) :
    h.dangling? owner = some (.node g.nextId.1) := by
  obtain ⟨n, payload, hn, hgains, hget⟩ := hdoc.get?_owner
  rw [hn, Option.any_some] at hcontainer
  refine documentationIn?_of_first .dangling hn hget hgains.attributes_eq hcontainer ?_ hnone ?_
  · rw [Flavour.inOrder, hgains.place, List.reverse_concat]
    rfl
  · rw [hdoc.isDocumentationAt_doc]
    exact decide_eq_true (hplace n hn)

/-- Documentation behind all children leaves the documentation before a container in its place. -/
theorem documentation?_of_behind (hdoc : Documents Payload.GainsBehind owner found g h)
    (hg : g.Consistent) (hcontainer : (g.get? owner).any (·.kind.isDocumentationContainer))
    {seen : Documentation} (hseen : g.documentation? owner = some seen) :
    h.documentation? owner = some seen := by
  have hgh := hdoc.annotates (fun h => h.toGains) hg
  obtain ⟨n, payload, hn, hgains, hget⟩ := hdoc.get?_owner
  rw [hn, Option.any_some] at hcontainer
  exact documentationIn?_of_last .preceding hn hget hgains.attributes_eq hcontainer
    (hgh.isDocumentationAt_children hg hn) hgains.place hseen

/-- Documentation before all children leaves the dangling documentation in its place. -/
theorem dangling?_of_before (hdoc : Documents Payload.GainsBefore owner found g h)
    (hg : g.Consistent) {seen : Documentation} (hseen : g.dangling? owner = some seen) :
    h.dangling? owner = some seen := by
  have hgh := hdoc.annotates (fun h => h.toGains) hg
  obtain ⟨n, payload, hn, hgains, hget⟩ := hdoc.get?_owner
  by_cases hcontainer : n.kind.isDocumentationContainer
  · have hlast : Flavour.dangling.inOrder payload.children =
        Flavour.dangling.inOrder n.children ++ [g.nextId.1] := by
      rw [Flavour.inOrder, hgains.children_of_container hcontainer, List.reverse_cons]
      rfl
    exact documentationIn?_of_last .dangling hn hget hgains.attributes_eq hcontainer
      (hgh.isDocumentationAt_children hg hn) hlast hseen
  · rw [dangling?_eq_none hn hcontainer] at hseen
    contradiction

end Documents

theorem OnlyAt.trans (hfg : Annotates f g) (honly : OnlyAt k f g) (honly' : OnlyAt k g h) :
    OnlyAt k f h := fun hj hne =>
  (honly' (hfg.contains_of_contains hj) hne).trans (honly hj hne)

/-- Documentation is found before the node, or there is no comment that it could be made of. -/
theorem wp_recoverPreceding_settles (hf : f.Consistent) (source : List Char)
    (hn : f.get? k = some n) (hkind : n.kind.isDocumentable) :
    Run.wp (recoverPreceding source k) (fun _ g => Annotates f g ∧ OnlyAt k f g ∧
      ((g.documentation? k).isSome ∨ (precedingGap? f k).bind (find? source) = none))
      (fun _ => False) f := by
  refine (wp_recoverPreceding hf source hn hkind).mono (fun acts g hg => ?_) fun _ h => h
  cases acts with
  | true =>
    obtain ⟨found, hnone, hfind, hdoc⟩ := hg
    refine ⟨hdoc.annotates (fun h => h.toGains) hf, hdoc.onlyAt, .inl ?_⟩
    rw [hdoc.documentation?_eq hnone fun n hn => offset_le_of_precedingGap? hn hfind]
    rfl
  | false =>
    obtain ⟨rfl, hidle⟩ := hg
    exact ⟨.refl hf, fun _ _ => rfl, hidle⟩

/-- Dangling documentation is found, or there is no comment that it could be made of, or what was
made of it is not found. -/
theorem wp_recoverDangling_settles (hf : f.Consistent) (source : List Char) (hreg : f.contains k) :
    Run.wp (recoverDangling source k) (fun _ g => Annotates f g ∧ OnlyAt k f g ∧
      ((f.documentation? k).isSome → (g.documentation? k).isSome) ∧
      ∀ n found, g.get? k = some n → n.kind.isDocumentationContainer → g.dangling? k = none →
        (danglingGap? g source k).bind (find? source) = some found →
          (found.offset : Int) ≤ n.src.offset) (fun _ => False) f := by
  refine (wp_recoverDangling hf source hreg).mono (fun acts g hg => ?_) fun _ h => h
  cases acts with
  | true =>
    obtain ⟨found, hcontainer, hnone, hfind, hdoc⟩ := hg
    have hfg := hdoc.annotates (fun h => h.toGains) hf
    refine ⟨hfg, hdoc.onlyAt, fun hsome => ?_, ?_⟩
    · obtain ⟨seen, hseen⟩ := Option.isSome_iff_exists.1 hsome
      rw [hdoc.documentation?_of_behind hf hcontainer hseen]
      rfl
    intro m found' hm _ hunseen hfind'
    -- the comment is found again, but not what was made of it
    obtain ⟨n, payload, hn, hgains, hget⟩ := hdoc.get?_owner
    obtain rfl := Option.some.inj (hget.symm.trans hm)
    have hnew : ∀ c ∈ [f.nextId.1], ¬ f.contains c := by
      intro c hc
      rw [List.mem_singleton.1 hc]
      exact hdoc.not_contains
    rw [hfg.danglingGap?_eq hf hn hget rfl hgains.place hnew, hfind] at hfind'
    obtain rfl := Option.some.inj hfind'
    by_contra hbehind
    have hread := hdoc.dangling?_eq hcontainer hnone fun n' hn' => by
      obtain rfl := Option.some.inj (hn'.symm.trans hn)
      exact Int.not_le.1 hbehind
    rw [hunseen] at hread
    contradiction
  | false =>
    obtain ⟨rfl, hidle⟩ := hg
    refine ⟨.refl hf, fun _ _ => rfl, fun h => h, fun n found hn hcontainer hnone hfind => ?_⟩
    rw [hn, hnone, hfind, Option.all_some, hcontainer] at hidle
    simp at hidle

/-- From the visit on the node is settled. -/
theorem wp_visit_settles (hf : f.Consistent) :
    Run.wp (pass.visit config k) (fun _ g => Annotates f g ∧ OnlyAt k f g ∧ Settled config g k)
      (fun _ => False) f := by
  have hidle : ¬ Acts config f k → Annotates f f ∧ OnlyAt k f f ∧ Settled config f k := fun h =>
    ⟨.refl hf, fun _ _ => rfl, fun hacts => absurd hacts h⟩
  refine Run.wp_bind (Run.wp_get ?_)
  split
  · next hsupports =>
    refine Run.wp.andThen (P := fun _ g => Annotates f g ∧ OnlyAt k f g ∧ Settled config g k) ?_
      fun _ g hg => Run.wp_pure hg
    obtain ⟨n, hn, hdocumentable⟩ := (Option.any_eq_true _ _).1 hsupports
    have hkind : n.kind.isDocumentable := (Bool.and_eq_true_iff.1 hdocumentable).1
    have hreg : f.contains k := contains_iff_get?.2 ⟨n, hn⟩
    refine Run.wp_bind (Run.wp_get ?_)
    split
    · next hnone =>
      refine Run.wp_pure (hidle fun hacts => ?_)
      obtain ⟨source, -, hsource⟩ := hacts.exists_source
      rw [hnone] at hsource
      contradiction
    · next source hsource =>
      refine (wp_recoverPreceding_settles hf source hn hkind).andThen fun _ g hrecovered => ?_
      obtain ⟨hfg, honly, hpreceding⟩ := hrecovered
      have hreg' := hfg.contains_of_contains hreg
      refine (wp_recoverDangling_settles hfg.consistent source hreg').andThen fun _ h hfound => ?_
      obtain ⟨hgh, honly', hkeep, hdangling⟩ := hfound
      refine Run.wp_pure ?_
      have hfh := hfg.trans hgh
      have honly : OnlyAt k f h := honly.trans hfg honly'
      have hsource' : ∀ {source'}, source? config h k = some source' → source' = source := by
        intro source' h
        rw [hfh.source?_eq hf hreg, hsource] at h
        exact (Option.some.inj h).symm
      refine ⟨hfh, honly, settled_of ?_ ?_⟩
      · rintro found ⟨source', -, heq, hnone, hfind⟩
        obtain rfl := hsource' heq
        rw [hfh.precedingGap?_eq hf hreg fun p hp => honly (hf.contains_parent hp) ?_] at hfind
        swap
        · rintro rfl
          exact hf.not_reaches_of_parent? hp .refl
        rcases hpreceding with hsome | hnothing
        · have := hkeep hsome
          rw [hnone] at this
          contradiction
        · rw [hnothing] at hfind
          contradiction
      · rintro n found hn ⟨source', -, heq, hcontainer, hnone, hfind⟩
        obtain rfl := hsource' heq
        rw [hn, Option.any_some] at hcontainer
        exact hdangling n found hn hcontainer hnone hfind
  · next hsupports =>
    refine Run.wp_pure (hidle fun hacts => ?_)
    obtain ⟨source, hsupports', -⟩ := hacts.exists_source
    exact hsupports hsupports'

/-! ### The pass -/

theorem settles (config : Config) : pass.Settles config Annotates (Settled config) where
  refl := .refl
  trans := .trans
  retains _ hfg := hfg.retains
  new {f g j} hfg hnew := by
    -- documentation nodes have no documentation
    intro hacts
    obtain ⟨source, hsupports, -⟩ := hacts.exists_source
    obtain ⟨n, hn, hsupports⟩ := (Option.any_eq_true _ _).1 hsupports
    simp only [pass, hfg.new hn hnew] at hsupports
    contradiction
  visit {f k} hf := by
    refine (wp_visit_settles hf).mono (fun _ g ⟨hfg, honly, hsettled⟩ => ⟨hfg, hsettled, ?_⟩)
      fun _ h => h
    intro j hj hjk hsettled
    have hne : j ≠ k := by
      rintro rfl
      exact hjk .refl
    refine hfg.settled hf hj (honly hj hne) (fun p hp => honly (hf.contains_parent hp) ?_) hsettled
    rintro rfl
    exact hjk (.single hp)

theorem visit_eq_self (hidle : ¬ Acts config g k) : pass.visit config k g = .ok () g := by
  refine Run.eq_ok_of_wp (Run.wp_bind (Run.wp_get ?_))
  split
  · next hsupports =>
    obtain ⟨n, hn, -⟩ := (Option.any_eq_true _ _).1 hsupports
    refine Run.wp.andThen (P := fun _ h => h = g) ?_ fun _ h hh => Run.wp_pure hh
    refine Run.wp_bind (Run.wp_get ?_)
    split
    · exact Run.wp_pure rfl
    · next source hsource =>
      have hpreceding : Run.wp (recoverPreceding source k) (fun _ h => h = g) (fun _ => False) g := by
        refine Run.wp_bind (Run.wp_get ?_)
        split
        · exact Run.wp_pure rfl
        · next hnone =>
          split
          · exact Run.wp_pure rfl
          · next found hfind =>
            rw [Bool.not_eq_true, Option.isSome_eq_false_iff, Option.isNone_iff_eq_none] at hnone
            exact absurd ⟨found, .inl ⟨source, hsupports, hsource, hnone, hfind⟩⟩ hidle
      have hdangling : Run.wp (recoverDangling source k) (fun _ h => h = g) (fun _ => False) g := by
        refine Run.wp_bind (Run.wp_ask_of_ok (node_eq_ok.2 hn) (Run.wp_bind (Run.wp_get ?_)))
        split
        · exact Run.wp_pure rfl
        · next hopen =>
          rw [Bool.or_eq_true, not_or, Bool.not_eq_true, Bool.not_eq_false', Bool.not_eq_true,
            Option.isSome_eq_false_iff, Option.isNone_iff_eq_none] at hopen
          split
          · exact Run.wp_pure rfl
          · next found hfind =>
            have hcontainer : (g.get? k).any (·.kind.isDocumentationContainer) := by
              rw [hn, Option.any_some]
              exact hopen.1
            exact absurd
              ⟨found, .inr ⟨source, hsupports, hsource, hcontainer, hopen.2, hfind⟩⟩ hidle
      refine hpreceding.andThen fun _ h hh => ?_
      subst hh
      exact hdangling.andThen fun _ h hh => Run.wp_pure hh
  · exact Run.wp_pure rfl

/-- Where the pass acts it makes documentation nodes. -/
theorem wp_visit_makes (hg : g.Consistent) (hacts : Acts config g k) :
    Run.wp (pass.visit config k) (fun _ h => ∃ j, h.contains j ∧ ¬ g.contains j)
      (fun _ => True) g := by
  obtain ⟨source, hsupports, hsource⟩ := hacts.exists_source
  obtain ⟨n, hn, hdocumentable⟩ := (Option.any_eq_true _ _).1 hsupports
  have hkind : n.kind.isDocumentable := (Bool.and_eq_true_iff.1 hdocumentable).1
  have hreg : g.contains k := contains_iff_get?.2 ⟨n, hn⟩
  refine Run.wp_bind (Run.wp_get ?_)
  rw [if_pos hsupports]
  refine Run.wp.andThen (P := fun _ h => ∃ j, h.contains j ∧ ¬ g.contains j) ?_
    fun _ h hh => Run.wp_pure hh
  refine Run.wp_bind (Run.wp_get ?_)
  rw [hsource]
  refine ((wp_recoverPreceding hg source hn hkind).mono (fun _ _ h => h) fun _ hE =>
    hE.elim).andThen fun acts h hh => ?_
  refine Run.wp.andThen (P := fun _ h => ∃ j, h.contains j ∧ ¬ g.contains j) ?_
    fun _ h hh => Run.wp_pure hh
  cases acts with
  | true =>
    -- what comes after keeps the node that has been made
    obtain ⟨found, -, -, hdoc⟩ := hh
    have hgh := hdoc.annotates (fun h => h.toGains) hg
    refine (wp_recoverDangling_settles hgh.consistent source (hgh.contains_of_contains hreg)).mono
      (fun _ h' ⟨hhh', _⟩ => ⟨g.nextId.1, ?_, hdoc.not_contains⟩) fun _ hE => hE.elim
    exact hhh'.contains_of_contains (hdoc.contains_iff.2 (.inl rfl))
  | false =>
    obtain ⟨rfl, hnothing⟩ := hh
    refine (wp_recoverDangling hg source hreg).mono (fun acts h' hh' => ?_) fun _ hE => hE.elim
    cases acts with
    | true =>
      obtain ⟨found, -, -, -, hdoc⟩ := hh'
      exact ⟨_, hdoc.contains_iff.2 (.inl rfl), hdoc.not_contains⟩
    | false =>
      obtain ⟨-, hnothing'⟩ := hh'
      obtain ⟨found, ⟨source', -, heq, hnone, hfind⟩ | ⟨source', -, heq, hcontainer, hnone, hfind⟩⟩ :=
        hacts
      · obtain rfl := Option.some.inj (hsource.symm.trans heq)
        rw [hnone, hfind] at hnothing
        simp at hnothing
      · obtain rfl := Option.some.inj (hsource.symm.trans heq)
        rw [hn, Option.any_some] at hcontainer
        rw [hn, hnone, hfind, Option.all_some, hcontainer] at hnothing'
        simp at hnothing'

theorem actsWhere (config : Config) : pass.ActsWhere config (Acts config) where
  idle := visit_eq_self
  makes := wp_visit_makes

end Comments

end SolidityTree
