import SolidityTree.Proofs.DocumentationTexts

/-!
# What is read after a documentation node is attached

Attaching documentation to a container is a matter of its child list: the node takes the place of
the one that was seen, or else the end from which children of the flavour are looked through
(`Forest.Placed`).  Readers go by something else.  To them the offset of a documentation node says
whether it precedes its owner or dangles.

Where the two agree (`Forest.InPlace`), the node that was attached is what is read, and the other
flavour is read as before.  Where they do not, the node is taken for documentation of the other
flavour, and the documentation that it should have been is what is left of the old
(`Forest.documentation_of_attach`).  A field for documentation has room for one and is asked for no
offset.
-/

namespace SolidityTree

/-! ### Flavours -/

namespace Flavour

/-- The other flavour. -/
def other : Flavour → Flavour
  | .preceding => .dangling
  | .dangling => .preceding

/-- Whether documentation that begins at the second offset is of the flavour, for an owner that
begins at the first. -/
def suits : Flavour → Int → Int → Bool
  | .preceding, owner, doc => doc ≤ owner
  | .dangling, owner, doc => owner < doc

/-- Children in the order in which documentation of the flavour is looked for. -/
def inOrder : Flavour → List NodeId → List NodeId
  | .preceding, cs => cs
  | .dangling, cs => cs.reverse

theorem suits_other (flavour : Flavour) (owner doc : Int) :
    flavour.other.suits owner doc = !flavour.suits owner doc := by
  cases flavour <;> simp [other, suits, ← decide_not]

theorem inOrder_other (flavour : Flavour) (cs : List NodeId) :
    flavour.other.inOrder cs = (flavour.inOrder cs).reverse := by
  cases flavour <;> simp [other, inOrder]

theorem other_ne (flavour : Flavour) : flavour.other ≠ flavour := by
  cases flavour <;> decide

theorem mem_inOrder {flavour : Flavour} {cs : List NodeId} {c : NodeId} :
    c ∈ flavour.inOrder cs ↔ c ∈ cs := by
  cases flavour <;> simp [inOrder]

theorem nodup_inOrder (flavour : Flavour) {cs : List NodeId} :
    (flavour.inOrder cs).Nodup ↔ cs.Nodup := by
  cases flavour <;> simp [inOrder]

/-- Where a child is found once, another one takes its place in either order. -/
theorem inOrder_replace (flavour : Flavour) {cs before after : List NodeId} {old new : NodeId}
    (hnodup : cs.Nodup) (h : flavour.inOrder cs = before ++ old :: after) :
    flavour.inOrder (cs.replace old new) = before ++ new :: after := by
  have hsplit : ∀ {xs ys : List NodeId}, (xs ++ old :: ys).Nodup →
      (xs ++ old :: ys).replace old new = xs ++ new :: ys := by
    intro xs ys hxs
    have hnot : old ∉ xs := fun hmem =>
      (List.nodup_append.1 hxs).2.2 old hmem old List.mem_cons_self rfl
    rw [List.replace_append_right hnot, List.replace_cons_self]
  cases flavour with
  | preceding =>
    rw [inOrder] at h
    subst h
    exact hsplit hnodup
  | dangling =>
    have hcs : cs = after.reverse ++ old :: before.reverse := by
      rw [inOrder, List.reverse_eq_iff] at h
      simpa using h
    subst hcs
    rw [inOrder, hsplit hnodup]
    simp

end Flavour

namespace Forest

variable {f g h : Forest} {id c : NodeId} {flavour : Flavour} {n : Node}

/-- A documentation node stands where readers take it for documentation of the flavour: in a field,
or on the right side of the beginning of its owner. -/
def InPlace (f : Forest) (flavour : Flavour) (id doc : NodeId) : Prop :=
  ∀ n d, f.get? id = some n → f.get? doc = some d → n.kind.isDocumentationContainer →
    flavour.suits n.src.offset d.src.offset

theorem inPlace_iff {d : Node} (hn : f.get? id = some n) (hd : f.get? c = some d)
    (hkind : n.kind.isDocumentationContainer) :
    f.InPlace flavour id c ↔ flavour.suits n.src.offset d.src.offset := by
  refine ⟨fun h => h n d hn hd hkind, fun h m e hm he _ => ?_⟩
  rwa [Option.some.inj (hm.symm.trans hn), Option.some.inj (he.symm.trans hd)]

/-- The children that are documentation of a flavour are those whose offsets suit it. -/
theorem documentationChildren_eq_filter (hn : f.get? id = some n)
    (hkind : n.kind.isDocumentationContainer) (flavour : Flavour) :
    f.documentationChildren flavour id = (flavour.inOrder n.children).filter
      (f.isDocumentationAt (flavour.suits n.src.offset)) := by
  rw [documentationChildren_of_container hn hkind]
  cases flavour <;> rfl

theorem isDocumentationAt_of_kind {d : Node} (hd : f.get? c = some d)
    (hkind : d.kind = .structuredDocumentation) (accepts : Int → Bool) :
    f.isDocumentationAt accepts c = accepts d.src.offset := by
  rw [isDocumentationAt, hd, Option.any_some, hkind]
  simp

/-- A documentation node is of one flavour only. -/
theorem not_isDocumentationAt_other {owner : Int}
    (h : f.isDocumentationAt (flavour.suits owner) c) :
    ¬ f.isDocumentationAt (flavour.other.suits owner) c := by
  unfold isDocumentationAt at h ⊢
  cases hc : f.get? c with
  | none => simp
  | some d =>
    rw [hc, Option.any_some, Bool.and_eq_true] at h
    simp [Flavour.suits_other, h.2]

/-- The child that is seen in a flavour, if a child is. -/
def seenDocumentation (f : Forest) (flavour : Flavour) (id : NodeId) : List NodeId :=
  ((f.documentationIn? flavour id).bind Documentation.node?).toList

theorem mem_seenDocumentation :
    c ∈ f.seenDocumentation flavour id ↔ f.documentationIn? flavour id = some (.node c) := by
  rw [seenDocumentation, Option.mem_toList, Option.bind_eq_some_iff]
  constructor
  · rintro ⟨d, hd, hc⟩
    cases d with
    | text s => contradiction
    | node k => rw [hd, Option.some.inj hc]
  · intro h
    exact ⟨_, h, rfl⟩

theorem isDocumentationAt_of_mem_seen (hn : f.get? id = some n)
    (hkind : n.kind.isDocumentationContainer) (h : c ∈ f.seenDocumentation flavour id) :
    f.isDocumentationAt (flavour.suits n.src.offset) c := by
  obtain ⟨⟨texts, htexts⟩, -⟩ :=
    (Payload.docStrings?_isSome_of_container hkind).imp_left Option.isSome_iff_exists.1
  have hmem := mem_documentationChildren_of_documentationIn? hn htexts (mem_seenDocumentation.1 h)
  rw [documentationChildren_eq_filter hn hkind] at hmem
  exact (List.mem_filter.1 hmem).2

/-! ### One more child -/

variable {payload : Payload}

/-- What readers see of a container depends on its texts and on the children they look through. -/
theorem exists_documentationIn?_eq (hn : f.get? id = some n)
    (hget : g.get? id = some { n with payload })
    (hattributes : payload.attributes = n.payload.attributes)
    (hkind : n.kind.isDocumentationContainer) (flavour : Flavour) : ∃ text? : Option Documentation,
    f.documentationIn? flavour id = text?.or (((flavour.inOrder n.children).filter
      (f.isDocumentationAt (flavour.suits n.src.offset))).head?.map .node) ∧
    g.documentationIn? flavour id = text?.or (((flavour.inOrder payload.children).filter
      (g.isDocumentationAt (flavour.suits n.src.offset))).head?.map .node) := by
  obtain ⟨⟨texts, htexts⟩, -⟩ :=
    (Payload.docStrings?_isSome_of_container hkind).imp_left Option.isSome_iff_exists.1
  have hkind' : ({ n with payload } : Node).kind.isDocumentationContainer := by
    have hsame : ({ n with payload } : Node).kind = n.kind := congrArg Attributes.kind hattributes
    rwa [hsame]
  refine ⟨(flavour.pick texts).map .text, ?_, ?_⟩
  · rw [documentationIn?_of_container hn htexts, documentationChildren_eq_filter hn hkind]
  · rw [← hattributes] at htexts
    rw [documentationIn?_of_container hget htexts, documentationChildren_eq_filter hget hkind']
    rfl

/-- A child that is looked at last hides nothing. -/
theorem documentationIn?_of_last (flavour : Flavour) (hn : f.get? id = some n)
    (hget : g.get? id = some { n with payload })
    (hattributes : payload.attributes = n.payload.attributes)
    (hkind : n.kind.isDocumentationContainer)
    (hchildren : ∀ k ∈ n.children, ∀ accepts,
      g.isDocumentationAt accepts k = f.isDocumentationAt accepts k)
    (hput : flavour.inOrder payload.children = flavour.inOrder n.children ++ [c])
    {seen : Documentation} (hseen : f.documentationIn? flavour id = some seen) :
    g.documentationIn? flavour id = some seen := by
  obtain ⟨text?, hbefore, hafter⟩ := exists_documentationIn?_eq hn hget hattributes hkind flavour
  have hold : (flavour.inOrder n.children).filter (g.isDocumentationAt (flavour.suits n.src.offset)) =
      (flavour.inOrder n.children).filter (f.isDocumentationAt (flavour.suits n.src.offset)) :=
    List.filter_congr fun k hk => hchildren k (Flavour.mem_inOrder.1 hk) _
  rw [hbefore] at hseen
  rw [hafter, hput, List.filter_append, hold, List.head?_append]
  cases text? with
  | some text => exact hseen
  | none =>
    obtain ⟨k, hk, rfl⟩ := Option.map_eq_some_iff.1 hseen
    rw [hk]
    rfl

/-- A child that is looked at first is seen, if it suits the flavour and there was nothing. -/
theorem documentationIn?_of_first (flavour : Flavour) (hn : f.get? id = some n)
    (hget : g.get? id = some { n with payload })
    (hattributes : payload.attributes = n.payload.attributes)
    (hkind : n.kind.isDocumentationContainer)
    (hput : flavour.inOrder payload.children = c :: flavour.inOrder n.children)
    (hnone : f.documentationIn? flavour id = none)
    (hsuits : g.isDocumentationAt (flavour.suits n.src.offset) c) :
    g.documentationIn? flavour id = some (.node c) := by
  obtain ⟨text?, hbefore, hafter⟩ := exists_documentationIn?_eq hn hget hattributes hkind flavour
  rw [hbefore, Option.or_eq_none_iff] at hnone
  rw [hafter, hput, List.filter_cons_of_pos hsuits, hnone.1]
  rfl

/-! ### Where the node is put -/

/-- A documentation node has come to a container: to the place of the node that was seen in the
flavour, or in front of the children that are looked through.  The text of the flavour is gone. -/
structure Placed (f g : Forest) (flavour : Flavour) (id doc : NodeId) : Prop where
  get?_owner : ∀ {n}, f.get? id = some n → ∃ payload, g.get? id = some { n with payload := payload } ∧
    payload.attributes.docStrings? = n.payload.attributes.docStrings?.map (flavour.put none) ∧
    ∃ before after, flavour.inOrder payload.children = before ++ doc :: after ∧
      flavour.inOrder n.children = before ++ (f.seenDocumentation flavour id ++ after) ∧
      ∀ c ∈ before, ¬ f.isDocumentationAt (flavour.suits n.src.offset) c
  isDocumentationAt_eq : ∀ accepts k, g.isDocumentationAt accepts k = f.isDocumentationAt accepts k

namespace Placed

variable {doc : NodeId}

/-- Among which children documentation is looked for afterwards. -/
theorem exists_children (hg : Placed f g flavour id doc) (hn : f.get? id = some n)
    (hkind : n.kind.isDocumentationContainer) : ∃ before after,
    flavour.inOrder n.children = before ++ (f.seenDocumentation flavour id ++ after) ∧
    (∀ c ∈ before, ¬ f.isDocumentationAt (flavour.suits n.src.offset) c) ∧
    g.documentationChildren flavour id = (before ++ doc :: after).filter
      (f.isDocumentationAt (flavour.suits n.src.offset)) ∧
    g.documentationChildren flavour.other id = (before ++ doc :: after).reverse.filter
      (f.isDocumentationAt (flavour.other.suits n.src.offset)) := by
  obtain ⟨payload, hget, htexts, before, after, hnew, hold, hbefore⟩ := hg.get?_owner hn
  obtain ⟨⟨texts, hstrings⟩, -⟩ :=
    (Payload.docStrings?_isSome_of_container hkind).imp_left Option.isSome_iff_exists.1
  rw [hstrings, Option.map_some] at htexts
  have hchildren : ∀ other, g.documentationChildren other id = (other.inOrder payload.children).filter
      (f.isDocumentationAt (other.suits n.src.offset)) := by
    intro other
    rw [documentationChildren_eq_filter hget (Payload.isDocumentationContainer_of_docStrings? htexts)]
    exact List.filter_congr fun c _ => hg.isDocumentationAt_eq _ c
  refine ⟨before, after, hold, hbefore, ?_, ?_⟩
  · rw [hchildren, hnew]
  · rw [hchildren, Flavour.inOrder_other, hnew]

/-- What is looked through afterwards is the new node, if readers take it for documentation of the
flavour, and then what was hidden. -/
theorem documentationChildren_eq (hg : Placed f g flavour id doc) (hn : f.get? id = some n)
    (hkind : n.kind.isDocumentationContainer) (hnodup : n.children.Nodup) :
    g.documentationChildren flavour id =
      (if f.isDocumentationAt (flavour.suits n.src.offset) doc then [doc] else []) ++
        f.hiddenDocumentation flavour id := by
  obtain ⟨before, after, hold, hbefore, hnew, -⟩ := hg.exists_children hn hkind
  have hnone : before.filter (f.isDocumentationAt (flavour.suits n.src.offset)) = [] :=
    List.filter_eq_nil_iff.2 hbefore
  have hdisjoint := flavour.nodup_inOrder.2 hnodup
  rw [hold] at hdisjoint
  have hhidden : f.hiddenDocumentation flavour id =
      after.filter (f.isDocumentationAt (flavour.suits n.src.offset)) := by
    rw [hiddenDocumentation, documentationChildren_eq_filter hn hkind, hold, List.filter_append,
      hnone, List.nil_append, List.filter_append, List.filter_append]
    -- what is seen is taken out, and stands nowhere else
    have hseen : ((f.seenDocumentation flavour id).filter (f.isDocumentationAt
        (flavour.suits n.src.offset))).filter
        (fun c => f.documentationIn? flavour id ≠ some (.node c)) = [] := by
      refine List.filter_eq_nil_iff.2 fun c hc => ?_
      simpa using mem_seenDocumentation.1 (List.mem_of_mem_filter hc)
    rw [hseen, List.nil_append]
    refine List.filter_eq_self.2 fun c hc => decide_eq_true fun hshown => ?_
    exact (List.nodup_append.1 hdisjoint.of_append_right).2.2 c (mem_seenDocumentation.2 hshown) c
      (List.mem_of_mem_filter hc) rfl
  rw [hnew, List.filter_append, hnone, List.nil_append, List.filter_cons, hhidden]
  split <;> rfl

/-- The other flavour has the same children as before, perhaps with the new node among them. -/
theorem exists_documentationChildren_other (hg : Placed f g flavour id doc)
    (hn : f.get? id = some n) (hkind : n.kind.isDocumentationContainer) :
    ∃ before after, f.documentationChildren flavour.other id = before ++ after ∧
      g.documentationChildren flavour.other id = before ++
        ((if f.isDocumentationAt (flavour.other.suits n.src.offset) doc then [doc] else []) ++
          after) := by
  obtain ⟨before, after, hold, -, -, hnew⟩ := hg.exists_children hn hkind
  set test := f.isDocumentationAt (flavour.other.suits n.src.offset) with htest
  refine ⟨after.reverse.filter test, before.reverse.filter test, ?_, ?_⟩
  · have hseen : (f.seenDocumentation flavour id).reverse.filter test = [] := by
      refine List.filter_eq_nil_iff.2 fun c hc => not_isDocumentationAt_other ?_
      exact isDocumentationAt_of_mem_seen hn hkind (List.mem_reverse.1 hc)
    rw [documentationChildren_eq_filter hn hkind, Flavour.inOrder_other, hold, ← htest]
    simp only [List.reverse_append, List.filter_append, hseen, List.append_nil]
  · rw [hnew, List.reverse_append, List.reverse_cons, List.append_assoc, List.filter_append,
      List.filter_append, List.filter_cons, List.filter_nil]

/-- The texts of the container afterwards are those of the other flavour. -/
theorem exists_texts (hg : Placed f g flavour id doc) (hn : f.get? id = some n)
    (hkind : n.kind.isDocumentationContainer) : ∃ texts,
    (∀ other, f.documentationIn? other id = ((other.pick texts).map .text).or
      ((f.documentationChildren other id).head?.map .node)) ∧
    ∀ other, g.documentationIn? other id =
      ((if other = flavour then none else other.pick texts).map .text).or
        ((g.documentationChildren other id).head?.map .node) := by
  obtain ⟨payload, hget, htexts, -⟩ := hg.get?_owner hn
  obtain ⟨⟨texts, hstrings⟩, -⟩ :=
    (Payload.docStrings?_isSome_of_container hkind).imp_left Option.isSome_iff_exists.1
  rw [hstrings, Option.map_some] at htexts
  refine ⟨texts, documentationIn?_of_container hn hstrings, fun other => ?_⟩
  rw [documentationIn?_of_container hget htexts, Flavour.pick_put]

/-- Where readers take the node for documentation of the flavour, it is what they see. -/
theorem documentationIn?_of_suits (hg : Placed f g flavour id doc) (hn : f.get? id = some n)
    (hkind : n.kind.isDocumentationContainer) (hnodup : n.children.Nodup)
    (hsuits : f.isDocumentationAt (flavour.suits n.src.offset) doc) :
    g.documentationIn? flavour id = some (.node doc) ∧
      g.documentationIn? flavour.other id = f.documentationIn? flavour.other id := by
  obtain ⟨texts, hf, hafter⟩ := hg.exists_texts hn hkind
  constructor
  · rw [hafter, if_pos rfl, hg.documentationChildren_eq hn hkind hnodup, if_pos hsuits]
    rfl
  · obtain ⟨before, after, hold, hnew⟩ := hg.exists_documentationChildren_other hn hkind
    rw [if_neg (not_isDocumentationAt_other hsuits), List.nil_append, ← hold] at hnew
    rw [hafter, if_neg flavour.other_ne, hnew, hf]

/-- Where they do not, they see what was hidden, and the node at best in the other flavour. -/
theorem documentationIn?_of_not_suits (hg : Placed f g flavour id doc) (hn : f.get? id = some n)
    (hkind : n.kind.isDocumentationContainer) (hnodup : n.children.Nodup)
    (hsuits : ¬ f.isDocumentationAt (flavour.suits n.src.offset) doc)
    (hother : f.isDocumentationAt (flavour.other.suits n.src.offset) doc) :
    g.documentationIn? flavour id = (f.hiddenDocumentation flavour id).head?.map .node ∧
      (g.documentationIn? flavour.other id = some (.node doc) ∨
        (f.documentationIn? flavour.other id).isSome ∧
          g.documentationIn? flavour.other id = f.documentationIn? flavour.other id) := by
  obtain ⟨texts, hf, hafter⟩ := hg.exists_texts hn hkind
  constructor
  · rw [hafter, if_pos rfl, hg.documentationChildren_eq hn hkind hnodup, if_neg hsuits]
    rfl
  · obtain ⟨before, after, hold, hnew⟩ := hg.exists_documentationChildren_other hn hkind
    rw [if_pos hother] at hnew
    rw [hafter, if_neg flavour.other_ne, hf, hold, hnew]
    cases flavour.other.pick texts with
    | some text => exact .inr ⟨rfl, rfl⟩
    | none =>
      cases before with
      | nil => exact .inl rfl
      | cons c before => exact .inr ⟨rfl, rfl⟩

end Placed

/-! ### Edits that put it there -/

/-- An edit that comes after the text of the flavour has been dropped. -/
theorem placed_of_rearranged {moved : List NodeId} {doc : NodeId}
    (hre : Rearranged (f.modifyPayload id (·.putText none flavour)) g id moved)
    (hsame : SameNodes (f.modifyPayload id (·.putText none flavour)) g)
    (hchildren : ∃ before after, flavour.inOrder (g.children id) = before ++ doc :: after ∧
      flavour.inOrder (f.children id) = before ++ (f.seenDocumentation flavour id ++ after) ∧
      ∀ n, f.get? id = some n →
        ∀ c ∈ before, ¬ f.isDocumentationAt (flavour.suits n.src.offset) c) :
    Placed f g flavour id doc where
  get?_owner {n} hn := by
    have hput : (f.modifyPayload id (·.putText none flavour)).get? id =
        some { n with payload := n.payload.putText none flavour } := by
      rw [Forest.modifyPayload, get?_modify, if_pos rfl, hn]
      rfl
    obtain ⟨payload, hattributes, hg⟩ := hre.get?_owner hput
    obtain ⟨before, after, hnew, hold, hbefore⟩ := hchildren
    rw [children_of_get? hg] at hnew
    rw [children_of_get? hn] at hold
    refine ⟨payload, hg, ?_, before, after, hnew, hold, hbefore n hn⟩
    rw [hattributes, Payload.docStrings?_putText]
  isDocumentationAt_eq accepts k := by
    rw [hre.isDocumentationAt_eq hsame,
      isDocumentationAt_modifyPayload (Payload.kind_putText none flavour)]

theorem children_modifyPayload_putText (f : Forest) (id : NodeId) (flavour : Flavour) (k : NodeId) :
    (f.modifyPayload id (·.putText none flavour)).children k = f.children k :=
  children_modifyPayload_of_eq fun n _ => n.payload.children_putText none flavour

theorem Consistent.modifyPayload_putText (hf : f.Consistent) (id : NodeId) (flavour : Flavour) :
    (f.modifyPayload id (·.putText none flavour)).Consistent :=
  hf.modifyPayload fun n _ => n.payload.children_putText none flavour

/-- The node that is seen is exchanged. -/
theorem Consistent.placed_replace (hf : f.Consistent) (flavour : Flavour) {doc : Handle}
    {old : NodeId} (hn : f.get? id = some n) (hkind : n.kind.isDocumentationContainer)
    (hold : f.documentationIn? flavour id = some (.node old)) (hne : doc ≠ f.handle old)
    (h : (f.modifyPayload id (·.putText none flavour)).replace id doc old = .ok g) :
    Placed f g flavour id doc.id := by
  have hf' := hf.modifyPayload_putText id flavour
  obtain ⟨-, hchildren, -, -, hre⟩ := hf'.replace_spec h hne
  refine placed_of_rearranged hre (hf'.replace h).sameNodes ?_
  have hnodup := hf.nodup id
  obtain ⟨⟨texts, htexts⟩, -⟩ :=
    (Payload.docStrings?_isSome_of_container hkind).imp_left Option.isSome_iff_exists.1
  -- the node that is seen is the first of its flavour
  have hfind : (flavour.inOrder n.children).find? (f.isDocumentationAt
      (flavour.suits n.src.offset)) = some old := by
    rw [documentationIn?_of_container hn htexts, documentationChildren_eq_filter hn hkind,
      List.head?_filter] at hold
    cases htext : flavour.pick texts with
    | some text => simp [htext] at hold
    | none => simpa [htext] using hold
  obtain ⟨-, before, after, hsplit, hbefore⟩ := List.find?_eq_some_iff_append.1 hfind
  rw [← children_of_get? hn] at hsplit
  have hseen : f.seenDocumentation flavour id = [old] := by
    rw [seenDocumentation, hold]
    rfl
  refine ⟨before, after, ?_, ?_, ?_⟩
  · rw [hchildren, children_modifyPayload_putText]
    exact flavour.inOrder_replace hnodup hsplit
  · rw [hsplit, hseen, List.singleton_append]
  · intro m hm c hc
    obtain rfl : m = n := Option.some.inj (hm.symm.trans hn)
    simpa using hbefore c hc

/-- There is no node to exchange, and the new one comes in front. -/
theorem Consistent.placed_attach (hf : f.Consistent) (flavour : Flavour) {doc : Handle} {m : Node}
    {payload : Payload} (hseen : ∀ old, f.documentationIn? flavour id ≠ some (.node old))
    (hcheck : (f.modifyPayload id (·.putText none flavour)).checkAttachable id doc = .ok ())
    (hm : (f.modifyPayload id (·.putText none flavour)).get? id = some m)
    (hattributes : payload.attributes = m.payload.attributes)
    (hpayload : flavour.inOrder payload.children = doc.id :: flavour.inOrder m.children) :
    Placed f ((f.modifyPayload id (·.putText none flavour)).attach id doc.id payload) flavour id
      doc.id := by
  have hattach := (hf.modifyPayload_putText id flavour).attachable_of_check hcheck
  obtain ⟨hchildren, -, hre⟩ := attach_spec hattach hm hattributes
  refine placed_of_rearranged hre (SameNodes.attach _ id doc.id payload) ?_
  have hnone : f.seenDocumentation flavour id = [] :=
    List.eq_nil_iff_forall_not_mem.2 fun old h => hseen old (mem_seenDocumentation.1 h)
  refine ⟨[], flavour.inOrder (f.children id), ?_, ?_, ?_⟩
  · rw [hchildren, hpayload, ← children_of_get? hm, children_modifyPayload_putText]
    rfl
  · rw [hnone]
    rfl
  · simp

/-- What holds of a forest in which documentation of a flavour has been attached. -/
structure Attached (f g : Forest) (flavour : Flavour) (id doc : NodeId) : Prop where
  attachable : f.Attachable id doc
  kind_doc : ∃ d, f.get? doc = some d ∧ d.kind = .structuredDocumentation
  placed : ∀ n, f.get? id = some n → n.kind.isDocumentationContainer → Placed f g flavour id doc
  field : ∀ n, f.get? id = some n → ¬ n.kind.isDocumentationContainer →
    g.documentationIn? flavour id = some (.node doc) ∧
      g.documentationIn? flavour.other id = f.documentationIn? flavour.other id

/-- A node whose marks are set keeps its payload. -/
theorem exists_get?_setParent {n : Node} (hn : f.get? id = some n) (child : NodeId)
    (p? : Option NodeId) : ∃ parent?, (f.setParent child p?).get? id = some { n with parent? } := by
  rw [get?_setParent]
  split
  · exact ⟨p?, by rw [hn]; rfl⟩
  · exact ⟨n.parent?, hn⟩

/-- A node that can be attached is no child of its owner yet. -/
theorem Consistent.ne_handle_of_attachable (hf : f.Consistent) (doc : Handle) {old : NodeId}
    (hattach : f.Attachable id doc.id) (hold : old ∈ f.children id) : doc ≠ f.handle old := by
  rintro rfl
  have hparent := hf.parent?_of_mem hold
  rw [show f.parent? old = none from hattach.detached] at hparent
  contradiction

/-- What readers see after documentation of a flavour has been attached. -/
theorem Consistent.documentationIn?_of_attached (hf : f.Consistent) {doc : NodeId}
    (h : Attached f g flavour id doc) :
    (g.documentationIn? flavour id = some (.node doc) ↔ f.InPlace flavour id doc) ∧
    (f.InPlace flavour id doc →
      g.documentationIn? flavour.other id = f.documentationIn? flavour.other id) ∧
    (¬ f.InPlace flavour id doc →
      g.documentationIn? flavour id = (f.hiddenDocumentation flavour id).head?.map .node ∧
      (g.documentationIn? flavour.other id = some (.node doc) ∨
        (f.documentationIn? flavour.other id).isSome ∧
          g.documentationIn? flavour.other id = f.documentationIn? flavour.other id)) := by
  obtain ⟨n, hn⟩ := contains_iff_get?.1 h.attachable.contains_parent
  obtain ⟨d, hd, hdoc⟩ := h.kind_doc
  by_cases hkind : n.kind.isDocumentationContainer
  · have hplaced := h.placed n hn hkind
    have hnodup : n.children.Nodup := by
      have := hf.nodup id
      rwa [children_of_get? hn] at this
    have hinPlace : f.InPlace flavour id doc ↔
        f.isDocumentationAt (flavour.suits n.src.offset) doc := by
      rw [isDocumentationAt_of_kind hd hdoc, inPlace_iff hn hd hkind]
    rw [hinPlace]
    by_cases hsuits : f.isDocumentationAt (flavour.suits n.src.offset) doc
    · obtain ⟨hself, hother⟩ := hplaced.documentationIn?_of_suits hn hkind hnodup hsuits
      exact ⟨⟨fun _ => hsuits, fun _ => hself⟩, fun _ => hother, fun h => absurd hsuits h⟩
    · have hsuits' : f.isDocumentationAt (flavour.other.suits n.src.offset) doc := by
        rw [isDocumentationAt_of_kind hd hdoc] at hsuits ⊢
        simpa [Flavour.suits_other] using hsuits
      obtain ⟨hself, hother⟩ := hplaced.documentationIn?_of_not_suits hn hkind hnodup hsuits hsuits'
      refine ⟨⟨fun hread => absurd ?_ hsuits, fun h => absurd h hsuits⟩, fun h => absurd h hsuits,
        fun _ => ⟨hself, hother⟩⟩
      -- what was hidden is a child, and the new node was none
      rw [hself, Option.map_eq_some_iff] at hread
      obtain ⟨c, hc, heq⟩ := hread
      cases heq
      have hmem := List.mem_of_mem_filter (List.mem_of_head? hc)
      have hchild := ((mem_documentationChildren hn).1 hmem).2.1
      rw [← children_of_get? hn] at hchild
      exact absurd rfl (hf.ne_handle_of_attachable (f.handle doc) h.attachable hchild)
  · have hinPlace : f.InPlace flavour id doc := fun n' _ hn' _ hcontainer => by
      obtain rfl := Option.some.inj (hn'.symm.trans hn)
      exact absurd hcontainer hkind
    obtain ⟨hself, hother⟩ := h.field n hn hkind
    exact ⟨⟨fun _ => hinPlace, fun _ => hself⟩, fun _ => hother, fun h => absurd hinPlace h⟩

end Forest

namespace Run

open Forest

variable {f : Forest} {id : NodeId}

/-! ### Runs -/

theorem wp_attachDocumentation_attached (hf : f.Consistent) (doc : Handle) :
    wp (attachDocumentation id doc) (fun _ g => Attached f g .preceding id doc.id)
      (fun _ => True) f := by
  refine wp_bind (wp_ask (fun old hold => ?_) trivial)
  refine wp_bind (wp_ask (fun _ hcheck => ?_) trivial)
  refine wp_bind (wp_ask (fun n hn => ?_) trivial)
  rw [node_eq_ok] at hn
  have hattach := hf.attachable_of_check (checkDocumentation_eq_ok hcheck)
  have hdoc := kind_of_checkDocumentation hcheck
  obtain ⟨m, hm, hkind, rfl⟩ := documentationOf_eq_ok hold
  obtain rfl : m = n := Option.some.inj (hm.symm.trans hn)
  split
  · next hcontainer =>
    have hend : ∀ g, Placed f g .preceding id doc.id → Attached f g .preceding id doc.id := by
      refine fun g hg => ⟨hattach, hdoc, fun _ _ _ => hg, fun m hm hfield => ?_⟩
      obtain rfl := Option.some.inj (hm.symm.trans hn)
      exact absurd hcontainer hfield
    refine wp_bind (wp_modify ?_)
    split
    · next old hseen =>
      have hne := hf.ne_handle_of_attachable doc hattach (mem_children_of_documentation? hseen)
      refine wp_edit (fun g hg => hend g ?_) trivial
      exact hf.placed_replace .preceding hn hcontainer hseen hne hg
    · next hseen =>
      refine wp_edit (fun g hg => hend g ?_) trivial
      obtain ⟨hcheck', m', payload, hm', hpayload, rfl⟩ := prepend_eq_ok hg
      exact hf.placed_attach .preceding hseen hcheck' hm'
        (Payload.attributes_prepend? hpayload) (Payload.children_prepend? hpayload)
  · next hcontainer =>
    -- the field is filled, and then marks are set
    have hfield : m.kind.hasDocumentationField := by
      rwa [Kind.isDocumentable, Bool.or_eq_true, or_iff_left hcontainer] at hkind
    obtain ⟨d?, hd⟩ := Option.ne_none_iff_exists'.1 (Payload.documentation?_ne_none_iff.2 hfield)
    have hset : (f.modifyPayload id (·.setDocumentation (some (.node doc.id)))).get? id =
        some { m with payload := m.payload.setDocumentation (some (.node doc.id)) } := by
      rw [Forest.modifyPayload, get?_modify, if_pos rfl, hn]
      rfl
    have hend : ∀ (g : Forest) (parent? : Option NodeId),
        g.get? id = some { m with
          payload := m.payload.setDocumentation (some (.node doc.id)), parent? } →
        Attached f g .preceding id doc.id := by
      refine fun g parent? hg => ⟨hattach, hdoc, fun m' hm' hplaced => ?_, fun m' hm' _ => ?_⟩
      · obtain rfl := Option.some.inj (hm'.symm.trans hn)
        exact absurd hplaced hcontainer
      · refine ⟨documentation?_of_field hg (Payload.documentation?_setDocumentation hd _), ?_⟩
        exact (dangling?_eq_none hg hcontainer).trans (dangling?_eq_none hn hcontainer).symm
    refine wp_bind (wp_modify ?_)
    split
    · refine wp_bind (wp_modify (wp_modify ?_))
      obtain ⟨p?, hp⟩ := exists_get?_setParent hset _ none
      obtain ⟨q?, hq⟩ := exists_get?_setParent hp doc.id (some id)
      exact hend _ q? hq
    · refine wp_bind (wp_pure (wp_modify ?_))
      obtain ⟨q?, hq⟩ := exists_get?_setParent hset doc.id (some id)
      exact hend _ q? hq

theorem wp_attachDangling_attached (hf : f.Consistent) (doc : Handle) :
    wp (attachDangling id doc) (fun _ g => Attached f g .dangling id doc.id)
      (fun _ => True) f := by
  refine wp_bind (wp_ask (fun old hold => ?_) trivial)
  refine wp_bind (wp_ask (fun _ hcheck => ?_) trivial)
  refine wp_bind (wp_ask (fun _ _ => ?_) trivial)
  have hattach := hf.attachable_of_check (checkDocumentation_eq_ok hcheck)
  have hdoc := kind_of_checkDocumentation hcheck
  obtain ⟨n, hn, hcontainer, rfl⟩ := danglingOf_eq_ok hold
  have hend : ∀ g, Placed f g .dangling id doc.id → Attached f g .dangling id doc.id := by
    refine fun g hg => ⟨hattach, hdoc, fun _ _ _ => hg, fun m hm hfield => ?_⟩
    obtain rfl := Option.some.inj (hm.symm.trans hn)
    exact absurd hcontainer hfield
  refine wp_bind (wp_modify ?_)
  split
  · next old hseen =>
    have hne := hf.ne_handle_of_attachable doc hattach (mem_children_of_dangling? hseen)
    refine wp_edit (fun g hg => hend g ?_) trivial
    exact hf.placed_replace .dangling hn hcontainer hseen hne hg
  · next hseen =>
    refine wp_edit (fun g hg => hend g ?_) trivial
    obtain ⟨hcheck', m, payload, hm, hpayload, rfl⟩ := append_eq_ok hg
    refine hf.placed_attach .dangling hseen hcheck' hm
      (Payload.attributes_append? hpayload) ?_
    rw [Flavour.inOrder, Payload.children_append? hpayload, List.reverse_concat]
    rfl

end Run

namespace Forest

/-- **A documentation node that is attached is read back exactly if its offset is in place**, and
then the documentation of the other flavour is what it was.  Where the offset is not, what was
hidden comes to light, and the node is read in the other flavour unless something hides it there. -/
theorem documentation_of_attach (hf : f.Consistent) (id : NodeId) :
    (∀ {doc g}, Run.attachDocumentation id doc f = .ok () g →
      (g.documentation? id = some (.node doc.id) ↔ f.InPlace .preceding id doc.id) ∧
      (f.InPlace .preceding id doc.id → g.dangling? id = f.dangling? id) ∧
      (¬ f.InPlace .preceding id doc.id →
        g.documentation? id = (f.hiddenDocumentation .preceding id).head?.map .node ∧
        (g.dangling? id = some (.node doc.id) ∨
          (f.dangling? id).isSome ∧ g.dangling? id = f.dangling? id))) ∧
    (∀ {doc g}, Run.attachDangling id doc f = .ok () g →
      (g.dangling? id = some (.node doc.id) ↔ f.InPlace .dangling id doc.id) ∧
      (f.InPlace .dangling id doc.id → g.documentation? id = f.documentation? id) ∧
      (¬ f.InPlace .dangling id doc.id →
        g.dangling? id = (f.hiddenDocumentation .dangling id).head?.map .node ∧
        (g.documentation? id = some (.node doc.id) ∨
          (f.documentation? id).isSome ∧ g.documentation? id = f.documentation? id))) := by
  constructor
  · intro doc g h
    have hread := hf.documentationIn?_of_attached
      (Run.wp_ok (Run.wp_attachDocumentation_attached hf doc) h)
    exact hread
  · intro doc g h
    have hread := hf.documentationIn?_of_attached
      (Run.wp_ok (Run.wp_attachDangling_attached hf doc) h)
    exact hread

/-- A block without a place in a source, a documentation node without one, and a documentation node
with one. -/
def blockAndNotesNodes : List Node :=
  [blockNode 1 [], .fresh 2 .unknown (.structuredDocumentation "a") none,
    .fresh 3 ⟨5, 9, 0⟩ (.structuredDocumentation "b") none]

/-- The forest of these nodes. -/
def blockAndNotes : Forest := blockAndNotesNodes.foldl insert (empty 0)

theorem consistent_blockAndNotes : blockAndNotes.Consistent := by
  have hregister : (empty 0).registerAll blockAndNotesNodes = .ok blockAndNotes := rfl
  exact (consistent_empty 0).registerAll hregister (by decide)

/-- The node without a place can only precede the block, and the other one can only dangle. -/
theorem documentation_of_attach_blockAndNotes :
    (∃ g, Run.attachDocumentation 1 ⟨0, 2⟩ blockAndNotes = .ok () g ∧
      g.documentation? 1 = some (.node 2)) ∧
    (∃ g, Run.attachDocumentation 1 ⟨0, 3⟩ blockAndNotes = .ok () g ∧
      g.documentation? 1 = none ∧ g.dangling? 1 = some (.node 3)) ∧
    ∃ g, Run.attachDangling 1 ⟨0, 2⟩ blockAndNotes = .ok () g ∧
      g.dangling? 1 = none ∧ g.documentation? 1 = some (.node 2) := by
  have hblock : blockAndNotes.get? 1 = some _ := rfl
  have hfirst : blockAndNotes.get? 2 = some _ := rfl
  have hsecond : blockAndNotes.get? 3 = some _ := rfl
  have hbefore : Run.attachDocumentation 1 ⟨0, 2⟩ blockAndNotes = .ok () _ := rfl
  have hmisplaced : Run.attachDocumentation 1 ⟨0, 3⟩ blockAndNotes = .ok () _ := rfl
  have hmisplaced' : Run.attachDangling 1 ⟨0, 2⟩ blockAndNotes = .ok () _ := rfl
  obtain ⟨hpreceding, hdangling⟩ := documentation_of_attach consistent_blockAndNotes 1
  have hin : blockAndNotes.InPlace .preceding 1 2 := (inPlace_iff hblock hfirst rfl).2 rfl
  have hout : ¬ blockAndNotes.InPlace .preceding 1 3 := by
    rw [inPlace_iff hblock hsecond rfl]
    decide
  have hout' : ¬ blockAndNotes.InPlace .dangling 1 2 := by
    rw [inPlace_iff hblock hfirst rfl]
    decide
  obtain ⟨hnone, hother⟩ := (hpreceding hmisplaced).2.2 hout
  obtain ⟨hnone', hother'⟩ := (hdangling hmisplaced').2.2 hout'
  -- there was no documentation that could hide the node
  have hopen : ¬ (blockAndNotes.dangling? 1).isSome := by decide
  have hopen' : ¬ (blockAndNotes.documentation? 1).isSome := by decide
  exact ⟨⟨_, hbefore, (hpreceding hbefore).1.2 hin⟩,
    ⟨_, hmisplaced, hnone, hother.resolve_right fun h => hopen h.1⟩,
    ⟨_, hmisplaced', hnone', hother'.resolve_right fun h => hopen' h.1⟩⟩

end Forest

end SolidityTree
