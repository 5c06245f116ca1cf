import SolidityTree.Proofs.Failures
import SolidityTree.Proofs.Positions

/-!
# What is read after a text of documentation is set

A container keeps two texts and any number of documentation nodes among its children, and a reader
sees one of them for each flavour: the text, or else the first of the children that the flavour
accepts (`Forest.documentationIn?_of_container`).  The others are hidden
(`Forest.hiddenDocumentation`).

Setting a text takes out the child that is seen, if it is a child, and leaves the hidden ones where
they are.  A text that is given is then what is read.  Where a text is cleared, the first hidden
node comes to light, so there is no documentation afterwards exactly if none was hidden
(`Forest.documentation_of_set_text`).  The other flavour is read as before: a node precedes its
owner or dangles, and not both.
-/

namespace SolidityTree

/-! ### Texts -/

/-- The text of a flavour. -/
def Flavour.pick : Flavour → Option String × Option String → Option String
  | .preceding => Prod.fst
  | .dangling => Prod.snd

/-- The texts with another one of a flavour. -/
def Flavour.put (text? : Option String) :
    Flavour → Option String × Option String → Option String × Option String
  | .preceding, texts => (text?, texts.2)
  | .dangling, texts => (texts.1, text?)

theorem Flavour.pick_put (flavour other : Flavour) (text? : Option String)
    (texts : Option String × Option String) :
    other.pick (flavour.put text? texts) = if other = flavour then text? else other.pick texts := by
  cases flavour <;> cases other <;> rfl

namespace Payload

variable {p : Payload}

/-- The containers are the kinds that keep texts. -/
theorem isDocumentationContainer_of_docStrings? {texts : Option String × Option String}
    (h : p.attributes.docStrings? = some texts) : p.kind.isDocumentationContainer := by
  revert h
  unfold kind
  cases p.attributes <;> first | (intro; rfl) | (intro h; cases h)

/-- Sets the text of a flavour, where the kind keeps such texts. -/
def putText (text? : Option String) : Flavour → Payload → Payload
  | .preceding, p => p.setDocString text?
  | .dangling, p => p.setDanglingDocString text?

theorem docStrings?_putText (text? : Option String) (flavour : Flavour) (p : Payload) :
    (p.putText text? flavour).attributes.docStrings? =
      p.attributes.docStrings?.map (flavour.put text?) := by
  cases flavour
  · show (p.attributes.setDocString text?).docStrings? = _
    cases p.attributes <;> rfl
  · show (p.attributes.setDanglingDocString text?).docStrings? = _
    cases p.attributes <;> rfl

theorem kind_putText (text? : Option String) (flavour : Flavour) (p : Payload) :
    (p.putText text? flavour).kind = p.kind := by
  cases flavour
  · exact Attributes.kind_setDocString text? p.attributes
  · exact Attributes.kind_setDanglingDocString text? p.attributes

theorem children_putText (text? : Option String) (flavour : Flavour) (p : Payload) :
    (p.putText text? flavour).children = p.children := by
  cases flavour <;> rfl

end Payload

namespace Forest

variable {f g h : Forest} {id c : NodeId} {flavour other : Flavour}

/-! ### What is seen and what is hidden -/

/-- The documentation of a flavour. -/
def documentationIn? (f : Forest) : Flavour → NodeId → Option Documentation
  | .preceding => f.documentation?
  | .dangling => f.dangling?

/-- The children of a container that are documentation of a flavour, in the order in which they are
looked through. -/
def documentationChildren (f : Forest) (flavour : Flavour) (id : NodeId) : List NodeId :=
  match f.get? id with
  | none => []
  | some n =>
    if n.kind.isDocumentationContainer then
      match flavour with
      | .preceding => n.children.filter (f.isDocumentationAt (· ≤ n.src.offset))
      | .dangling => n.children.reverse.filter (f.isDocumentationAt (n.src.offset < ·))
    else []

theorem documentationChildren_of_container {n : Node} (hn : f.get? id = some n)
    (hkind : n.kind.isDocumentationContainer) (flavour : Flavour) :
    f.documentationChildren flavour id = match flavour with
      | .preceding => n.children.filter (f.isDocumentationAt (· ≤ n.src.offset))
      | .dangling => n.children.reverse.filter (f.isDocumentationAt (n.src.offset < ·)) := by
  simp only [documentationChildren, hn, hkind, if_true]

/-- Those of them that are not seen, because of a text or of one before them. -/
def hiddenDocumentation (f : Forest) (flavour : Flavour) (id : NodeId) : List NodeId :=
  (f.documentationChildren flavour id).filter fun c =>
    f.documentationIn? flavour id ≠ some (.node c)

/-- A container shows the text of a flavour, or else the first of its children that are such
documentation. -/
theorem documentationIn?_of_container {n : Node} {texts : Option String × Option String}
    (hn : f.get? id = some n) (htexts : n.payload.attributes.docStrings? = some texts)
    (flavour : Flavour) :
    f.documentationIn? flavour id = ((flavour.pick texts).map .text).or
      ((f.documentationChildren flavour id).head?.map .node) := by
  have hcontainer := Payload.isDocumentationContainer_of_docStrings? htexts
  have hkind : n.kind.isDocumentationContainer := hcontainer
  obtain ⟨-, hfield⟩ := Payload.docStrings?_isSome_of_container hcontainer
  obtain ⟨before?, behind?⟩ := texts
  cases flavour with
  | preceding =>
    simp only [documentationIn?, documentation?, documentationChildren_of_container hn hkind, hn,
      hfield, htexts, Option.bind_eq_bind, Option.bind_some, List.head?_filter]
    cases before? <;> rfl
  | dangling =>
    simp only [documentationIn?, dangling?, documentationChildren_of_container hn hkind, hn,
      htexts, Option.bind_eq_bind, Option.bind_some, List.head?_filter]
    cases behind? <;> rfl

theorem mem_documentationChildren {n : Node} (hn : f.get? id = some n) :
    c ∈ f.documentationChildren flavour id ↔ n.kind.isDocumentationContainer ∧ c ∈ n.children ∧
      match flavour with
      | .preceding => f.isDocumentationAt (· ≤ n.src.offset) c
      | .dangling => f.isDocumentationAt (n.src.offset < ·) c := by
  unfold documentationChildren
  rw [hn]
  cases flavour <;> by_cases hkind : n.kind.isDocumentationContainer <;> simp [hkind]

/-- A documentation node starts no later than its owner or after it. -/
theorem not_mem_documentationChildren_of_ne (h : c ∈ f.documentationChildren flavour id)
    (hne : other ≠ flavour) : c ∉ f.documentationChildren other id := by
  cases hn : f.get? id with
  | none =>
    rw [documentationChildren, hn] at h
    contradiction
  | some n =>
    intro hother
    obtain ⟨-, -, hplace⟩ := (mem_documentationChildren hn).1 h
    obtain ⟨-, -, hplace'⟩ := (mem_documentationChildren hn).1 hother
    unfold isDocumentationAt at hplace hplace'
    cases hc : f.get? c with
    | none => cases flavour <;> simp [hc] at hplace
    | some m =>
      rw [hc] at hplace hplace'
      cases flavour <;> cases other <;> simp at hplace hplace' hne <;> omega

/-- The node that is seen is one of them. -/
theorem mem_documentationChildren_of_documentationIn? {n : Node}
    {texts : Option String × Option String} (hn : f.get? id = some n)
    (htexts : n.payload.attributes.docStrings? = some texts)
    (h : f.documentationIn? flavour id = some (.node c)) :
    c ∈ f.documentationChildren flavour id := by
  rw [documentationIn?_of_container hn htexts] at h
  cases htext : flavour.pick texts with
  | some text => simp [htext] at h
  | none =>
    rw [htext, Option.map_none, Option.none_or] at h
    obtain ⟨d, hd, hc⟩ := Option.map_eq_some_iff.1 h
    cases hc
    exact List.mem_of_head? hd

/-! ### Taking out what is seen -/

/-- The child that holds a documentation is gone from the owner, and documentation nodes are where
they were. -/
structure Detached (f g : Forest) (id : NodeId) (old : Option Documentation) : Prop where
  get?_eq : ∀ {n}, f.get? id = some n → ∃ payload, g.get? id = some { n with payload := payload } ∧
    payload.attributes = n.payload.attributes ∧
    payload.children = n.children.filter fun c => old ≠ some (.node c)
  isDocumentationAt_eq : ∀ accepts k, g.isDocumentationAt accepts k = f.isDocumentationAt accepts k

/-- A node that moves keeps its kind and its place. -/
theorem Rearranged.isDocumentationAt_eq {owner : NodeId} {moved : List NodeId}
    (h : Rearranged f g owner moved) (hsame : SameNodes f g) (accepts : Int → Bool) (k : NodeId) :
    g.isDocumentationAt accepts k = f.isDocumentationAt accepts k := by
  unfold isDocumentationAt
  cases hk : f.get? k with
  | none =>
    have hnot : ¬ g.contains k := by
      rw [hsame.contains_iff, contains_iff_get?, hk]
      simp
    rw [get?_eq_none_of_not_contains hnot]
  | some n =>
    by_cases howner : k = owner
    · subst howner
      obtain ⟨payload, hattributes, hg⟩ := h.get?_owner hk
      rw [hg, Option.any_some, Option.any_some]
      show (payload.attributes.kind = _ && _) = _
      rw [hattributes]
      rfl
    · by_cases hmoved : k ∈ moved
      · obtain ⟨parent?, hg⟩ := h.get?_moved hmoved hk
        rw [hg]
        rfl
      · rw [h.get?_eq howner hmoved, hk]

theorem Detached.refl (f : Forest) (id : NodeId) {old : Option Documentation}
    (hold : ∀ c, old ≠ some (.node c)) : Detached f f id old where
  get?_eq {n} hn := by
    refine ⟨n.payload, hn, rfl, (List.filter_eq_self.2 ?_).symm⟩
    intro c _
    exact decide_eq_true (hold c)
  isDocumentationAt_eq _ _ := rfl

theorem Consistent.detached_remove (hf : f.Consistent) (h : f.remove id c = .ok g) :
    Detached f g id (some (.node c)) where
  get?_eq {n} hn := by
    obtain ⟨payload, hattributes, hg⟩ := (hf.rearranged_remove h).get?_owner hn
    obtain ⟨-, hchildren⟩ := children_remove h
    refine ⟨payload, hg, hattributes, ?_⟩
    have hcs := hchildren id
    rw [if_pos rfl, children_of_get? hg, children_of_get? hn] at hcs
    have hnodup := hf.nodup id
    rw [children_of_get? hn] at hnodup
    rw [show payload.children = n.children.erase c from hcs, hnodup.erase_eq_filter]
    apply List.filter_congr
    intro k _
    rw [bne, beq_eq_decide, ← decide_not]
    simp [eq_comm]
  isDocumentationAt_eq := (hf.rearranged_remove h).isDocumentationAt_eq (hf.remove h).sameNodes

theorem isDocumentationAt_modifyPayload {change : Payload → Payload}
    (h : ∀ p, (change p).kind = p.kind) (accepts : Int → Bool) (k : NodeId) :
    (f.modifyPayload id change).isDocumentationAt accepts k = f.isDocumentationAt accepts k := by
  rw [isDocumentationAt, Forest.modifyPayload, get?_modify, isDocumentationAt]
  split
  · cases f.get? k with
    | none => rfl
    | some n =>
      show ((change n.payload).kind = _ && _) = _
      rw [h]
      rfl
  · rfl

/-- What is seen in a flavour is taken out and the text of the flavour set: then a text that is
given is seen, or else the first of what was hidden, and the other flavour is seen as before. -/
theorem documentationIn?_putText (flavour : Flavour) {n : Node}
    {texts : Option String × Option String} (hn : f.get? id = some n)
    (htexts : n.payload.attributes.docStrings? = some texts)
    (hdetached : Detached f g id (f.documentationIn? flavour id)) (text? : Option String)
    (other : Flavour) :
    (g.modifyPayload id (·.putText text? flavour)).documentationIn? other id =
      if other = flavour then
        (text?.map .text).or ((f.hiddenDocumentation flavour id).head?.map .node)
      else f.documentationIn? other id := by
  obtain ⟨payload, hg, hattributes, hchildren⟩ := hdetached.get?_eq hn
  set h := g.modifyPayload id (·.putText text? flavour) with hh
  have hput : h.get? id = some { n with payload := payload.putText text? flavour } := by
    rw [hh, Forest.modifyPayload, get?_modify, if_pos rfl, hg]
    rfl
  have hputTexts : (payload.putText text? flavour).attributes.docStrings? =
      some (flavour.put text? texts) := by
    rw [Payload.docStrings?_putText, hattributes, htexts, Option.map_some]
  have hat : ∀ accepts k, h.isDocumentationAt accepts k = f.isDocumentationAt accepts k := by
    intro accepts k
    rw [hh, isDocumentationAt_modifyPayload (Payload.kind_putText text? flavour),
      hdetached.isDocumentationAt_eq]
  have hdocs : h.documentationChildren other id =
      (f.documentationChildren other id).filter fun c =>
        f.documentationIn? flavour id ≠ some (.node c) := by
    have hcontainer : n.kind.isDocumentationContainer :=
      Payload.isDocumentationContainer_of_docStrings? htexts
    have hcontainer' : (payload.putText text? flavour).kind.isDocumentationContainer :=
      Payload.isDocumentationContainer_of_docStrings? hputTexts
    have hcs : (payload.putText text? flavour).children =
        n.children.filter fun c => f.documentationIn? flavour id ≠ some (.node c) := by
      rw [Payload.children_putText, hchildren]
    rw [documentationChildren_of_container hput hcontainer',
      documentationChildren_of_container hn hcontainer]
    have hswap : ∀ (accepts : Int → Bool) (cs : List NodeId),
        (cs.filter fun c => f.documentationIn? flavour id ≠ some (.node c)).filter
            (h.isDocumentationAt accepts) =
          (cs.filter (f.isDocumentationAt accepts)).filter fun c =>
            f.documentationIn? flavour id ≠ some (.node c) := by
      intro accepts cs
      rw [List.filter_filter, List.filter_filter]
      refine List.filter_congr fun c _ => ?_
      rw [hat, Bool.and_comm]
    cases other
    · show ((payload.putText text? flavour).children).filter (h.isDocumentationAt _) = _
      rw [hcs]
      exact hswap _ n.children
    · show ((payload.putText text? flavour).children.reverse).filter (h.isDocumentationAt _) = _
      rw [hcs, ← List.filter_reverse]
      exact hswap _ n.children.reverse
  rw [documentationIn?_of_container hput hputTexts, Flavour.pick_put, hdocs]
  split
  · next heq => rw [heq, hiddenDocumentation]
  · next hne =>
    have hself : (f.documentationChildren other id).filter (fun c =>
        f.documentationIn? flavour id ≠ some (.node c)) = f.documentationChildren other id := by
      apply List.filter_eq_self.2
      intro c hc
      apply decide_eq_true
      intro hseen
      exact not_mem_documentationChildren_of_ne
        (mem_documentationChildren_of_documentationIn? hn htexts hseen) hne hc
    rw [hself, documentationIn?_of_container hn htexts]

/-! ### Fields for documentation -/

theorem dangling?_eq_none {n : Node} (hn : f.get? id = some n)
    (h : ¬ n.kind.isDocumentationContainer) : f.dangling? id = none := by
  have htexts : n.payload.attributes.docStrings? = none := by
    apply Option.eq_none_iff_forall_ne_some.2
    intro texts htexts
    exact h (Payload.isDocumentationContainer_of_docStrings? htexts)
  simp only [dangling?, hn, htexts, Option.bind_eq_bind, Option.bind_some, Option.bind_none]

/-- A field holds one documentation, so nothing is hidden by it. -/
theorem hiddenDocumentation_eq_nil {n : Node} (hn : f.get? id = some n)
    (h : ¬ n.kind.isDocumentationContainer) : f.hiddenDocumentation flavour id = [] := by
  simp [hiddenDocumentation, documentationChildren, hn, h]

end Forest

namespace Run

open Forest

variable {f g : Forest} {id : NodeId} {text? : Option String}

/-! ### Runs -/

theorem wp_detach_detached (hf : f.Consistent) (old : Option Documentation) :
    wp (detach id old) (fun _ g => Detached f g id old) (fun _ => True) f := by
  unfold detach
  split
  · exact wp_edit (fun g hg => hf.detached_remove hg) trivial
  · next hold => exact wp_pure (.refl f id fun c hc => hold c hc)

theorem wp_setDocumentationText (hf : f.Consistent) (text? : Option String) :
    wp (setDocumentationText id text?) (fun _ g =>
      g.documentation? id =
          (text?.map .text).or ((f.hiddenDocumentation .preceding id).head?.map .node) ∧
        g.dangling? id = f.dangling? id) (fun _ => True) f := by
  refine wp_bind (wp_ask (fun old hold => ?_) trivial)
  obtain ⟨n, hn, hkind, rfl⟩ := documentationOf_eq_ok hold
  refine (wp_detach_detached hf _).andThen fun _ g hdetached => ?_
  refine wp_bind (wp_ask (fun m hm => wp_modify ?_) trivial)
  obtain ⟨payload, hg, hattributes, -⟩ := hdetached.get?_eq hn
  obtain rfl := Option.some.inj (hg.symm.trans (node_eq_ok.1 hm))
  have hsame : payload.kind = n.kind := congrArg Attributes.kind hattributes
  split
  · next hcontainer =>
    have hcontainer' : payload.kind.isDocumentationContainer := hcontainer
    rw [hsame] at hcontainer'
    obtain ⟨texts, htexts⟩ :=
      Option.isSome_iff_exists.1 (Payload.docStrings?_isSome_of_container hcontainer').1
    have hput := documentationIn?_putText .preceding hn htexts hdetached text?
    exact ⟨hput .preceding, hput .dangling⟩
  · next hcontainer =>
    have hcontainer' : ¬ payload.kind.isDocumentationContainer := hcontainer
    rw [hsame] at hcontainer'
    -- the field is there, whatever has been taken out of it
    have hfield : payload.kind.hasDocumentationField := by
      rw [Kind.isDocumentable, Bool.or_eq_true, or_iff_left hcontainer'] at hkind
      rwa [hsame]
    obtain ⟨d?, hd⟩ := Option.ne_none_iff_exists'.1 (Payload.documentation?_ne_none_iff.2 hfield)
    have hset : (g.modifyPayload id (·.setDocumentation (text?.map .text))).get? id =
        some { n with payload := payload.setDocumentation (text?.map .text) } := by
      rw [Forest.modifyPayload, get?_modify, if_pos rfl, hg]
      rfl
    constructor
    · rw [documentation?_of_field hset (Payload.documentation?_setDocumentation hd _),
        hiddenDocumentation_eq_nil hn hcontainer']
      simp
    · rw [dangling?_eq_none hn hcontainer', dangling?_eq_none hset hcontainer]

theorem wp_setDanglingText (hf : f.Consistent) (text? : Option String) :
    wp (setDanglingText id text?) (fun _ g =>
      g.dangling? id =
          (text?.map .text).or ((f.hiddenDocumentation .dangling id).head?.map .node) ∧
        g.documentation? id = f.documentation? id) (fun _ => True) f := by
  refine wp_bind (wp_ask (fun old hold => ?_) trivial)
  obtain ⟨n, hn, hcontainer, rfl⟩ := danglingOf_eq_ok hold
  refine (wp_detach_detached hf _).andThen fun _ g hdetached => ?_
  refine wp_bind (wp_ask (fun m hm => wp_modify ?_) trivial)
  obtain ⟨texts, htexts⟩ :=
    Option.isSome_iff_exists.1 (Payload.docStrings?_isSome_of_container hcontainer).1
  have hput := documentationIn?_putText .dangling hn htexts hdetached text?
  exact ⟨hput .dangling, hput .preceding⟩

end Run

namespace Forest

/-- **A text of documentation that is set is read back, and one that is cleared is absent, except
that what it hid comes to light.**  The documentation of the other flavour is what it was. -/
theorem documentation_of_set_text (hf : f.Consistent) (id : NodeId) :
    (∀ {text? g}, Run.setDocumentationText id text? f = .ok () g →
      g.documentation? id =
          (text?.map .text).or ((f.hiddenDocumentation .preceding id).head?.map .node) ∧
        g.dangling? id = f.dangling? id) ∧
    (∀ {text? g}, Run.setDanglingText id text? f = .ok () g →
      g.dangling? id =
          (text?.map .text).or ((f.hiddenDocumentation .dangling id).head?.map .node) ∧
        g.documentation? id = f.documentation? id) := by
  constructor
  · intro text? g h
    have hread := Run.wp_ok (Run.wp_setDocumentationText hf text?) h
    exact hread
  · intro text? g h
    have hread := Run.wp_ok (Run.wp_setDanglingText hf text?) h
    exact hread

/-- Two blocks, each with a text and with a documentation node among its statements: the node in the
first precedes the block, the one in the second dangles. -/
def hidingBlocksNodes : List Node :=
  [.fresh 1 .unknown (.structuredDocumentation "hidden") none,
    .fresh 2 .unknown (.block ⟨some "seen", none⟩ [1]) none,
    .fresh 3 ⟨5, 9, 0⟩ (.structuredDocumentation "hidden") none,
    .fresh 4 .unknown (.block ⟨none, some "seen"⟩ [3]) none]

/-- The forest of these nodes. -/
def hidingBlocks : Forest := hidingBlocksNodes.foldl insert (empty 0)

theorem consistent_hidingBlocks : hidingBlocks.Consistent := by
  have hregister : (empty 0).registerAll hidingBlocksNodes = .ok hidingBlocks := rfl
  exact (consistent_empty 0).registerAll hregister (by decide)

/-- Neither block is without documentation when its text has been cleared. -/
theorem documentation_of_set_text_hidingBlocks :
    (∃ g, Run.setDocumentationText 2 none hidingBlocks = .ok () g ∧
      g.documentation? 2 = some (.node 1)) ∧
    ∃ g, Run.setDanglingText 4 none hidingBlocks = .ok () g ∧ g.dangling? 4 = some (.node 3) := by
  have hbefore : Run.setDocumentationText 2 none hidingBlocks = .ok () _ := rfl
  have hbehind : Run.setDanglingText 4 none hidingBlocks = .ok () _ := rfl
  have hhidden : hidingBlocks.hiddenDocumentation .preceding 2 = [1] := rfl
  have hhidden' : hidingBlocks.hiddenDocumentation .dangling 4 = [3] := rfl
  obtain ⟨hread, -⟩ := (documentation_of_set_text consistent_hidingBlocks 2).1 hbefore
  obtain ⟨hread', -⟩ := (documentation_of_set_text consistent_hidingBlocks 4).2 hbehind
  rw [hhidden] at hread
  rw [hhidden'] at hread'
  exact ⟨⟨_, hbefore, hread⟩, ⟨_, hbehind, hread'⟩⟩

end Forest

end SolidityTree
