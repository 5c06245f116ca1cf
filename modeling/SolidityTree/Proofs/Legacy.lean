import SolidityTree.Conversion
import SolidityTree.Proofs.Modern
import Mathlib.Algebra.GroupWithZero.Nat

/-!
# Children of legacy records

A legacy record holds its children in one array, and each kind takes from it what it has places for
(`Legacy.kept`): all records, the first few, or, where children are told apart by their kinds, the
last of each sort that can stand there once.  The payload of a record lists exactly the nodes of the
records that its kind keeps, each once, and its documentation, if it is a node, is that of a
documentation record (`Legacy.wp_payload?`).

Whatever else is in the array is passed over or becomes a node that nobody lists.
-/

namespace SolidityTree.Legacy

open Record Draft

variable {trace : Trace} {r : Json}

/-! ### What a kind keeps -/

/-- A documentation record. -/
def Documents (doc : Json) : Prop := kind? doc = some .structuredDocumentation

/-- The documentation record that a declaration begins with, if it does. -/
def leading (r : Json) : List Json :=
  (records r).head?.toList.filter fun c => kind? c = some .structuredDocumentation

/-- The records of a declaration behind its leading documentation. -/
def declared (r : Json) : List Json := (records r).drop (leading r).length

/-- How many records an optional part takes: none if it is marked as absent. -/
def width (r : Json) (name : String) : Nat :=
  if ((attributes r).get? name).any Json.isNull then 0 else 1

/-- How many records some optional parts take. -/
def widths (r : Json) (names : List String) : Nat := (names.map (width r)).sum

/-- The records whose kind passes a test. -/
def those (test : Option Kind → Bool) (rs : List Json) : List Json :=
  rs.filter fun c => test (kind? c)

/-- The last record whose kind passes a test. -/
def lastThose (test : Option Kind → Bool) (rs : List Json) : List Json :=
  (those test rs).getLast?.toList

/-- The test for a kind. -/
def is (kind : Kind) (k : Option Kind) : Bool := k = some kind

/-- The test for none of some kinds. -/
def isNone (kinds : List Kind) (k : Option Kind) : Bool := !kinds.any fun kind => k = some kind

/-- The test for the initial value of a variable: neither type name nor override nor
documentation. -/
def isValue (k : Option Kind) : Bool :=
  !k.any Kind.isTypeName && k ≠ some .overrideSpecifier && k ≠ some .structuredDocumentation

/-- The records among the children of a record that its kind keeps. -/
@[simp] def kept (kind : Kind) (r : Json) : List Json :=
  match kind with
  -- any number of children
  | .sourceUnit | .contractDefinition | .structDefinition | .enumDefinition | .parameterList
  | .overrideSpecifier | .block | .tupleExpression => records r
  -- one child, and any number behind it
  | .inheritanceSpecifier | .modifierInvocation | .tryStatement | .functionCall
  | .functionCallOptions => records r
  -- children by place
  | .ifStatement | .conditional => (records r).take 3
  | .usingForDirective | .mapping | .arrayTypeName | .functionTypeName | .whileStatement
  | .doWhileStatement | .assignment | .binaryOperation | .indexAccess => (records r).take 2
  | .userDefinedTypeName | .returnStatement | .emitStatement | .expressionStatement
  | .unaryOperation | .newExpression | .memberAccess | .elementaryTypeNameExpression =>
    (records r).take 1
  | .eventDefinition => leading r ++ (declared r).take 1
  -- the body, or the base, and the parts that are there
  | .forStatement =>
    (records r).take (widths r ["initializationExpression", "condition", "loopExpression"] + 1)
  | .indexRangeAccess => (records r).take (1 + widths r ["startExpression", "endExpression"])
  -- children by kind
  | .functionDefinition =>
    leading r ++ (those (is .parameterList) (declared r) ++
      lastThose (is .overrideSpecifier) (declared r) ++
      those (is .modifierInvocation) (declared r) ++
      lastThose (isNone [.parameterList, .overrideSpecifier, .modifierInvocation]) (declared r))
  | .modifierDefinition =>
    leading r ++ (lastThose (is .parameterList) (declared r) ++
      lastThose (is .overrideSpecifier) (declared r) ++
      lastThose (isNone [.parameterList, .overrideSpecifier]) (declared r))
  | .variableDeclaration =>
    lastThose (is .structuredDocumentation) (records r) ++
      lastThose (·.any Kind.isTypeName) (records r) ++
      lastThose (is .overrideSpecifier) (records r) ++ lastThose isValue (records r)
  | .tryCatchClause =>
    lastThose (is .parameterList) (records r) ++ lastThose (isNone [.parameterList]) (records r)
  | .variableDeclarationStatement =>
    those (is .variableDeclaration) (records r) ++
      lastThose (isNone [.variableDeclaration]) (records r)
  -- no children
  | _ => []

/-- What the payload of a legacy record takes from the trace. -/
def Reads (kind : Kind) (r : Json) (trace : Trace) (p : Payload) : Prop :=
  Takes (kept kind r) Documents trace p

/-- A payload whose children are the nodes of all records, in order. -/
theorem Reads.of_eq {kind : Kind} {p : Payload} (hrecords : trace.map Prod.fst = kept kind r)
    (hchildren : p.children = trace.map Prod.snd)
    (hdocumentation : ∀ d, p.documentation? = some (some (.node d)) →
      ∃ doc, (doc, d) ∈ trace ∧ Documents doc) : Reads kind r trace p :=
  ⟨⟨trace, .refl _, .of_eq hrecords, .of_eq hchildren⟩, hdocumentation⟩

/-! ### Children by place -/

theorem isNull_of_mem_records {c : Json} (h : c ∈ records r) : ¬ c.isNull := by
  simpa using (List.mem_filter.1 h).2

/-- The records from a place on. -/
theorem isNull_of_mem_drop {c : Json} {n : Nat} (h : c ∈ (records r).drop n) : ¬ c.isNull :=
  isNull_of_mem_records (List.mem_of_mem_drop h)

theorem present_records (index : Nat) : present (records r)[index]? = (records r)[index]? := by
  cases h : (records r)[index]? with
  | none => rfl
  | some c => simp [present, isNull_of_mem_records (List.mem_of_getElem? h)]

theorem wp_child {rs : List Json} {index : Nat} {Q : Trace → NodeId → Prop}
    (h : ∀ c id, rs[index]? = some c → Q (trace ++ [(c, id)]) id) :
    wp (child r rs index) Q trace := by
  unfold child
  split
  · next c hc => exact wp_one fun id => h c id hc
  · trivial

/-- A record at the first place and those behind it. -/
theorem cons_tail {rs : List Json} {c : Json} (h : rs[0]? = some c) : c :: rs.tail = rs := by
  cases rs <;> simp_all

theorem wp_child? {index : Nat} {Q : Trace → Option NodeId → Prop}
    (h : ∀ id? new, new.map Prod.fst = (records r)[index]?.toList →
      new.map Prod.snd = id?.toList → Q (trace ++ new) id?) :
    wp (child? (records r) index) Q trace :=
  wp_optional fun id? new hrecord hid => h id? new (by rw [hrecord, present_records]) hid

/-- A text is no child. -/
@[simp] theorem children_documentation? (r : Json) :
    (Slot.documentation (documentation? r)).children = [] := by
  unfold documentation?
  cases docString? r <;> rfl

/-- A text is no node. -/
@[simp] theorem documentation?_ne_node (r : Json) (d : NodeId) :
    documentation? r ≠ some (.node d) := by
  unfold documentation?
  cases docString? r <;> simp

/-- The records of a declaration in two parts. -/
theorem leading_append_declared (r : Json) : leading r ++ declared r = records r := by
  unfold declared leading
  cases h : records r with
  | nil => rfl
  | cons c rest =>
    rw [List.head?_cons, Option.toList_some, List.filter_singleton]
    cases decide (kind? c = some .structuredDocumentation) <;> rfl

theorem documents_of_mem_leading {doc : Json} (h : doc ∈ leading r) : Documents doc := by
  simpa [Documents] using (List.mem_filter.1 h).2

/-- The documentation of a declaration is the node of its leading documentation record. -/
theorem wp_documented {Q : Trace → Option Documentation × List Json → Prop}
    (h : ∀ d? new, new.map Prod.fst = leading r →
      new.map Prod.snd = (Slot.documentation d?).children → Q (trace ++ new) (d?, declared r)) :
    wp (documented r) Q trace := by
  unfold documented
  split
  · next hnil =>
    have hleading : leading r = [] := by rw [leading, hnil]; rfl
    have hdeclared : declared r = [] := by rw [declared, hnil, List.drop_nil]
    have hnone := h (documentation? r) [] hleading.symm (children_documentation? r).symm
    rw [hdeclared, List.append_nil] at hnone
    exact wp_pure hnone
  · next first rest hcons =>
    have hsplit := leading_append_declared r
    split
    · next hdoc =>
      have hleading : leading r = [first] := by
        rw [leading, hcons]
        exact List.filter_eq_self.2 (by simpa using hdoc)
      rw [hleading, hcons] at hsplit
      have hrest : declared r = rest := (List.cons.inj hsplit).2
      refine wp_bind (wp_one fun id => wp_pure ?_)
      rw [← hrest]
      exact h (some (.node id)) [(first, id)] hleading.symm rfl
    · next hdoc =>
      have hleading : leading r = [] := by
        rw [leading, hcons]
        exact List.filter_eq_nil_iff.2 (by simpa using hdoc)
      rw [hleading, hcons, List.nil_append] at hsplit
      have hnone := h (documentation? r) [] hleading.symm (children_documentation? r).symm
      rw [hsplit, List.append_nil] at hnone
      exact wp_pure hnone

/-- The documentation of a declaration, once it is the slot's content. -/
theorem documents_of_leading {d? : Option Documentation} {new : Trace} {d : NodeId}
    (hrecords : new.map Prod.fst = leading r)
    (hids : new.map Prod.snd = (Slot.documentation d?).children) (hd : d? = some (.node d)) :
    ∃ doc, (doc, d) ∈ new ∧ Documents doc := by
  subst hd
  obtain ⟨⟨doc, id⟩, hmem, rfl⟩ := List.mem_map.1
    (show d ∈ new.map Prod.snd by rw [hids]; exact List.mem_singleton_self d)
  exact ⟨doc, hmem, documents_of_mem_leading (hrecords ▸ List.mem_map_of_mem hmem)⟩

/-- A part takes the next record unless it is marked as absent. -/
theorem wp_part {name : String} {rs : List Json} (hrs : ∀ c ∈ rs, ¬ c.isNull)
    {Q : Trace → Option NodeId × List Json → Prop}
    (h : ∀ id? new, new.map Prod.fst = rs.take (width r name) → new.map Prod.snd = id?.toList →
      Q (trace ++ new) (id?, rs.drop (width r name))) : wp (part r name rs) Q trace := by
  unfold part
  split
  · next hmarked =>
    have hwidth : width r name = 0 := if_pos hmarked
    rw [hwidth] at h
    exact wp_pure (by simpa using h none [] rfl rfl)
  · next hmarked =>
    have hwidth : width r name = 1 := if_neg hmarked
    rw [hwidth] at h
    refine wp_bind (wp_optional fun id? new hrecord hid => wp_pure ?_)
    have hhead : (present rs.head?).toList = rs.take 1 := by
      cases rs with
      | nil => rfl
      | cons c rest => simp [present, hrs c List.mem_cons_self]
    simpa using h id? new (hrecord.trans hhead) hid

/-! ### Children by kind -/

/-- The nodes of a trace, each with the kind that the tag of its record names. -/
def tagged (trace : Trace) : List (Option Kind × NodeId) := trace.map fun c => (kind? c.1, c.2)

/-- The part of a trace whose records pass a test. -/
def chosen (test : Option Kind → Bool) (trace : Trace) : Trace :=
  trace.filter fun c => test (kind? c.1)

/-- The last entry of a trace whose record passes a test. -/
def lastChosen (test : Option Kind → Bool) (trace : Trace) : Trace :=
  (chosen test trace).getLast?.toList

theorem wp_classified {rs : List Json} {Q : Trace → List (Option Kind × NodeId) → Prop}
    (h : ∀ new, new.map Prod.fst = rs → Q (trace ++ new) (tagged new)) :
    wp (classified rs) Q trace := by
  induction rs generalizing trace Q with
  | nil => exact wp_pure (by simpa [tagged] using h [] rfl)
  | cons c rest ih =>
    refine wp_bind (wp_one fun id => wp_bind (ih fun new hnew => wp_pure ?_))
    simpa [tagged] using h ((c, id) :: new) (congrArg (c :: ·) hnew)

/-- The children whose kind passes a test. -/
def picked (test : Option Kind → Bool) (children : List (Option Kind × NodeId)) : List NodeId :=
  (children.filter fun c => test c.1).map Prod.snd

theorem picked_tagged (test : Option Kind → Bool) (trace : Trace) :
    picked test (tagged trace) = (chosen test trace).map Prod.snd := by
  rw [picked, tagged, List.filter_map, List.map_map]
  rfl

theorem ofKind_tagged (kind : Kind) (trace : Trace) :
    ofKind kind (tagged trace) = (chosen (is kind) trace).map Prod.snd :=
  picked_tagged (is kind) trace

theorem toList_last?_tagged (test : Option Kind → Bool) (trace : Trace) :
    (last? test (tagged trace)).toList = (lastChosen test trace).map Prod.snd := by
  show (picked test (tagged trace)).getLast?.toList = _
  rw [picked_tagged, List.getLast?_map, lastChosen]
  cases (chosen test trace).getLast? <;> rfl

theorem toList_lastOf?_tagged (kind : Kind) (trace : Trace) :
    (lastOf? kind (tagged trace)).toList = (lastChosen (is kind) trace).map Prod.snd :=
  toList_last?_tagged (is kind) trace

theorem toList_lastBut?_tagged (kinds : List Kind) (trace : Trace) :
    (lastBut? kinds (tagged trace)).toList = (lastChosen (isNone kinds) trace).map Prod.snd :=
  toList_last?_tagged (isNone kinds) trace

theorem map_chosen (test : Option Kind → Bool) (trace : Trace) :
    (chosen test trace).map Prod.fst = those test (trace.map Prod.fst) := by
  rw [those, List.filter_map]
  rfl

theorem map_lastChosen (test : Option Kind → Bool) (trace : Trace) :
    (lastChosen test trace).map Prod.fst = lastThose test (trace.map Prod.fst) := by
  rw [lastThose, ← map_chosen, List.getLast?_map, lastChosen]
  cases (chosen test trace).getLast? <;> rfl

theorem lastChosen_sublist (test : Option Kind → Bool) (trace : Trace) :
    (lastChosen test trace).Sublist (chosen test trace) := by
  unfold lastChosen
  cases h : (chosen test trace).getLast? with
  | none => exact List.nil_sublist _
  | some c => exact List.singleton_sublist.2 (List.mem_of_getLast? h)

/-- No entry is chosen by two tests that no kind passes both of. -/
theorem flatMap_chosen_subperm (tests : List (Option Kind → Bool))
    (h : tests.Pairwise fun s t => ∀ k, s k → ¬ t k) (trace : Trace) :
    (tests.flatMap fun t => chosen t trace).Subperm trace := by
  induction tests generalizing trace with
  | nil => exact List.nil_subperm
  | cons t rest ih =>
    obtain ⟨ht, hrest⟩ := List.pairwise_cons.1 h
    -- the other tests choose from what the first one leaves
    have hchosen : ∀ s ∈ rest, chosen s (trace.filter fun c => !t (kind? c.1)) = chosen s trace := by
      intro s hs
      rw [chosen, List.filter_filter, chosen]
      refine List.filter_congr fun c _ => ?_
      have := ht s hs (kind? c.1)
      by_cases htc : t (kind? c.1) <;> simp_all
    have hle := ih hrest (trace.filter fun c => !t (kind? c.1))
    rw [List.flatMap_congr hchosen] at hle
    rw [List.flatMap_cons]
    exact ((List.Subperm.refl _).append hle).trans
      (List.filter_append_perm (fun c : Json × NodeId => t (kind? c.1)) trace).subperm

/-- Kinds are told apart from each other and from all others. -/
theorem pairwise_is_isNone (kinds : List Kind) (h : kinds.Nodup) :
    (kinds.map is ++ [isNone kinds]).Pairwise fun s t => ∀ k, s k → ¬ t k := by
  refine List.pairwise_append.2 ⟨?_, List.pairwise_singleton _ _, ?_⟩
  · refine List.pairwise_map.2 (h.imp fun {a b} hab k ha hb => hab ?_)
    have ha : k = some a := of_decide_eq_true ha
    have hb : k = some b := of_decide_eq_true hb
    exact Option.some.inj (ha.symm.trans hb)
  · intro s hs t ht k hk
    obtain ⟨kind, hkind, rfl⟩ := List.mem_map.1 hs
    rw [List.mem_singleton.1 ht]
    have : kinds.any fun kind => k = some kind := List.any_eq_true.2 ⟨kind, hkind, hk⟩
    simp [isNone, this]

/-! ### Directives -/

theorem wp_sourceUnit (r : Json) : wp (sourceUnit r) (Reads .sourceUnit r) [] := by
  refine wp_bind (wp_lift fun src => wp_bind (wp_all fun nodes hnodes => wp_pure ?_))
  refine .of_eq (by simpa [kept] using hnodes) ?_ ?_
  · simp [Payload.children, Payload.sourceUnit]
  · simp [Payload.documentation?, Payload.sourceUnit, Slots.documentation?]

theorem wp_pragmaDirective (r : Json) : wp (pragmaDirective r) (Reads .pragmaDirective r) [] :=
  wp_pure (.of_eq rfl rfl nofun)

theorem wp_importDirective (r : Json) : wp (importDirective r) (Reads .importDirective r) [] :=
  wp_bind (wp_lift fun _ => wp_pure (.of_eq rfl rfl nofun))

theorem wp_usingForDirective (r : Json) :
    wp (usingForDirective r) (Reads .usingForDirective r) [] := by
  refine wp_bind (wp_child? fun library? library hlibrary hid => ?_)
  refine wp_bind (wp_child? fun type? type htype hid' => wp_pure (.of_eq ?_ ?_ ?_))
  · simp [kept, List.take_add_one, hlibrary, htype]
  · simp [Payload.children, Payload.usingForDirective, hid, hid']
  · simp [Payload.documentation?, Payload.usingForDirective, Slots.documentation?]

/-! ### Declarations -/

theorem wp_contractDefinition (r : Json) :
    wp (contractDefinition r) (Reads .contractDefinition r) [] := by
  refine wp_bind (wp_all fun nodes hnodes => wp_bind (wp_lift fun name => ?_))
  refine wp_bind (wp_lift fun kind => wp_pure (.of_eq (by simpa [kept] using hnodes) ?_ ?_))
  · simp [Payload.children, Payload.contractDefinition]
  · simp [Payload.documentation?, Payload.contractDefinition, Slots.documentation?]

theorem wp_inheritanceSpecifier (r : Json) :
    wp (inheritanceSpecifier r) (Reads .inheritanceSpecifier r) [] := by
  refine wp_bind (wp_child fun b base hb => wp_bind (wp_all fun arguments harguments => ?_))
  refine wp_pure (.of_eq ?_ ?_ ?_)
  · simp [kept, harguments, cons_tail hb]
  · simp [Payload.children, Payload.inheritanceSpecifier]
  · simp [Payload.documentation?, Payload.inheritanceSpecifier, Slots.documentation?]

theorem wp_structDefinition (r : Json) :
    wp (structDefinition r) (Reads .structDefinition r) [] := by
  refine wp_bind (wp_documented fun d? docs hdocs hid => wp_bind (wp_lift fun name => ?_))
  refine wp_bind (wp_lift fun visibility => wp_bind (wp_all fun members hmembers => ?_))
  refine wp_pure (.of_eq ?_ ?_ fun d hd => ?_)
  · simp [kept, hdocs, hmembers, leading_append_declared]
  · simp [Payload.children, Payload.structDefinition, hid]
  · obtain ⟨doc, hdoc, h⟩ := documents_of_leading hdocs hid (Option.some.inj hd)
    exact ⟨doc, List.mem_append_left _ hdoc, h⟩

theorem wp_enumDefinition (r : Json) : wp (enumDefinition r) (Reads .enumDefinition r) [] := by
  refine wp_bind (wp_documented fun d? docs hdocs hid => wp_bind (wp_lift fun name => ?_))
  refine wp_bind (wp_all fun members hmembers => wp_pure (.of_eq ?_ ?_ fun d hd => ?_))
  · simp [kept, hdocs, hmembers, leading_append_declared]
  · simp [Payload.children, Payload.enumDefinition, hid]
  · obtain ⟨doc, hdoc, h⟩ := documents_of_leading hdocs hid (Option.some.inj hd)
    exact ⟨doc, List.mem_append_left _ hdoc, h⟩

theorem wp_enumValue (r : Json) : wp (enumValue r) (Reads .enumValue r) [] :=
  wp_bind (wp_lift fun _ => wp_pure (.of_eq rfl rfl nofun))

theorem wp_parameterList (r : Json) : wp (parameterList r) (Reads .parameterList r) [] := by
  refine wp_bind (wp_all fun parameters hparameters => wp_pure ?_)
  refine .of_eq (by simpa [kept] using hparameters) ?_ ?_
  · simp [Payload.children, Payload.parameterList]
  · simp [Payload.documentation?, Payload.parameterList, Slots.documentation?]

theorem wp_overrideSpecifier (r : Json) :
    wp (overrideSpecifier r) (Reads .overrideSpecifier r) [] := by
  refine wp_bind (wp_all fun overrides hoverrides => wp_pure ?_)
  refine .of_eq (by simpa [kept] using hoverrides) ?_ ?_
  · simp [Payload.children, Payload.overrideSpecifier]
  · simp [Payload.documentation?, Payload.overrideSpecifier, Slots.documentation?]

/-- The two parameter lists, the override, the modifiers and the body have different kinds. -/
theorem wp_functionDefinition (r : Json) :
    wp (functionDefinition r) (Reads .functionDefinition r) [] := by
  refine wp_bind (wp_lift fun kind? => wp_bind (wp_documented fun d? docs hdocs hid => ?_))
  refine wp_bind (wp_classified fun new hnew => ?_)
  dsimp only
  split
  · next parameters returnParameters hlists =>
    refine wp_bind (wp_lift fun visibility => wp_bind (wp_lift fun mutability => wp_pure ?_))
    refine ⟨⟨docs ++ (chosen (is .parameterList) new ++ lastChosen (is .overrideSpecifier) new ++
      chosen (is .modifierInvocation) new ++
      lastChosen (isNone [.parameterList, .overrideSpecifier, .modifierInvocation]) new),
      (List.Subperm.refl docs).append ?_, ?_, ?_⟩, fun d hd => ?_⟩
    · have hsub := flatMap_chosen_subperm _ (pairwise_is_isNone
        [.parameterList, .overrideSpecifier, .modifierInvocation] (by decide)) new
      refine .trans (List.Sublist.subperm ?_) hsub
      simp only [List.map_cons, List.map_nil, List.cons_append, List.nil_append, List.flatMap_cons,
        List.flatMap_nil, List.append_nil, List.append_assoc]
      exact (List.Sublist.refl _).append ((lastChosen_sublist _ _).append
        ((List.Sublist.refl _).append (lastChosen_sublist _ _)))
    · simp [kept, hdocs, hnew, map_chosen, map_lastChosen]
    · rw [ofKind_tagged] at hlists
      simp only [Payload.children, Payload.functionDefinition, Slots.children_cons,
        Slots.children_nil, Slot.children_one, Slot.children_optional, Slot.children_many,
        ofKind_tagged, toList_lastOf?_tagged, toList_lastBut?_tagged, List.map_append, hid, hlists,
        List.append_nil, List.append_assoc, List.cons_append, List.nil_append]
      -- the return parameters come behind the modifiers
      refine .append_left _ (.cons _ ?_)
      rw [← List.append_assoc, ← List.append_assoc]
      exact List.perm_middle
    · obtain ⟨doc, hdoc, h⟩ := documents_of_leading hdocs hid (Option.some.inj hd)
      exact ⟨doc, List.mem_append_left _ hdoc, h⟩
  · trivial

/-- What is not documentation is chosen behind the leading documentation. -/
theorem chosen_append_of_leading {docs new : Trace} (hdocs : docs.map Prod.fst = leading r)
    {test : Option Kind → Bool} (htest : ¬ test (some .structuredDocumentation)) :
    chosen test (docs ++ new) = chosen test new := by
  have hnone : chosen test docs = [] := by
    refine List.filter_eq_nil_iff.2 fun c hc => ?_
    have hdoc := documents_of_mem_leading (hdocs ▸ List.mem_map_of_mem hc)
    rwa [show kind? c.1 = _ from hdoc]
  rw [chosen, List.filter_append]
  exact congrArg (· ++ _) hnone

/-- The last documentation record is the leading one if there is none behind it. -/
theorem lastChosen_append_leading {docs new : Trace} (hdocs : docs.map Prod.fst = leading r) :
    lastChosen (is .structuredDocumentation) (docs ++ new) =
      match lastChosen (is .structuredDocumentation) new with
      | [] => docs
      | last => last := by
  have hall : chosen (is .structuredDocumentation) docs = docs := by
    refine List.filter_eq_self.2 fun c hc => ?_
    have hdoc := documents_of_mem_leading (hdocs ▸ List.mem_map_of_mem hc)
    exact decide_eq_true hdoc
  have hlength : docs.length ≤ 1 := by
    rw [← List.length_map (f := Prod.fst), hdocs, leading]
    refine Nat.le_trans (List.length_filter_le _ _) ?_
    cases (records r).head? <;> simp
  have happend : chosen (is .structuredDocumentation) (docs ++ new) =
      docs ++ chosen (is .structuredDocumentation) new := by
    conv_rhs => rw [← hall]
    exact List.filter_append ..
  rw [lastChosen, happend, List.getLast?_append, lastChosen]
  cases (chosen (is .structuredDocumentation) new).getLast? with
  | some c => rfl
  | none =>
    match docs, hlength with
    | [], _ => rfl
    | [c], _ => rfl

/-- No kind passes two of the tests for the children of a variable. -/
theorem pairwise_variableTests : [is .structuredDocumentation, fun k => k.any Kind.isTypeName,
    is .overrideSpecifier, isValue].Pairwise fun s t => ∀ k, s k → ¬ t k := by
  -- the kinds of type names are others than the two that are named
  have hoverride : ∀ k : Option Kind, k.any Kind.isTypeName → ¬ k = some .overrideSpecifier := by
    rintro k hk rfl
    exact absurd hk (by decide)
  have hdocumentation : Kind.structuredDocumentation.isTypeName = false := rfl
  simp only [List.pairwise_cons, List.mem_cons, forall_eq_or_imp, List.not_mem_nil, is, isValue]
  simp_all

/-- The documentation of a variable is the node of its last documentation record, or else what
leads its records. -/
theorem children_lastDocumentation {d? : Option Documentation} {docs new : Trace}
    (hdocs : docs.map Prod.fst = leading r)
    (hid : docs.map Prod.snd = (Slot.documentation d?).children) :
    (Slot.documentation
      ((lastOf? .structuredDocumentation (tagged new)).map .node <|> d?)).children =
        (lastChosen (is .structuredDocumentation) (docs ++ new)).map Prod.snd := by
  have hlast := toList_lastOf?_tagged .structuredDocumentation new
  rw [lastChosen_append_leading hdocs]
  cases hd : lastOf? .structuredDocumentation (tagged new) with
  | none =>
    rw [hd] at hlast
    rw [List.map_eq_nil_iff.1 hlast.symm]
    exact hid.symm
  | some d =>
    rw [hd] at hlast
    obtain ⟨c, hc, rfl⟩ := List.map_eq_singleton_iff.1 hlast.symm
    rw [hc]
    rfl

/-- The documentation of a variable, once it is the slot's content. -/
theorem documents_of_last {d? : Option Documentation} {docs new : Trace} {d : NodeId}
    (hdocs : docs.map Prod.fst = leading r)
    (hid : docs.map Prod.snd = (Slot.documentation d?).children)
    (hd : ((lastOf? .structuredDocumentation (tagged new)).map .node <|> d?) = some (.node d)) :
    ∃ doc, (doc, d) ∈ docs ++ new ∧ Documents doc := by
  cases hlast : lastOf? .structuredDocumentation (tagged new) with
  | none =>
    rw [hlast] at hd
    obtain ⟨doc, hdoc, h⟩ := documents_of_leading hdocs hid hd
    exact ⟨doc, List.mem_append_left _ hdoc, h⟩
  | some id =>
    rw [hlast] at hd
    obtain rfl : id = d := Documentation.node.inj (Option.some.inj hd)
    have hmem := congrArg Option.toList hlast
    rw [toList_lastOf?_tagged] at hmem
    obtain ⟨⟨doc, id⟩, hc, rfl⟩ := List.map_eq_singleton_iff.1 hmem
    have hchosen := (lastChosen_sublist (is .structuredDocumentation) new).subset
      (hc ▸ List.mem_singleton_self _)
    obtain ⟨hnew, hdoc⟩ := List.mem_filter.1 hchosen
    have hdoc : kind? doc = some .structuredDocumentation := of_decide_eq_true hdoc
    exact ⟨doc, List.mem_append_right _ hnew, hdoc⟩

/-- The type name, the override, the documentation and the value have different kinds. -/
theorem wp_variableDeclaration (r : Json) :
    wp (variableDeclaration r) (Reads .variableDeclaration r) [] := by
  refine wp_bind (wp_documented fun d? docs hdocs hid => wp_bind (wp_classified fun new hnew => ?_))
  dsimp only
  refine wp_bind (wp_lift fun location => wp_bind (wp_lift fun visibility => ?_))
  refine wp_bind (wp_lift fun mutability => wp_pure ?_)
  have hrecords : (docs ++ new).map Prod.fst = records r := by
    rw [List.map_append, hdocs, hnew, leading_append_declared]
  have hchosen : ∀ test : Option Kind → Bool, ¬ test (some .structuredDocumentation) →
      (last? test (tagged new)).toList = (lastChosen test (docs ++ new)).map Prod.snd := by
    intro test htest
    rw [toList_last?_tagged, lastChosen, lastChosen, chosen_append_of_leading hdocs htest]
  refine ⟨⟨lastChosen (is .structuredDocumentation) (docs ++ new) ++
    lastChosen (·.any Kind.isTypeName) (docs ++ new) ++
    lastChosen (is .overrideSpecifier) (docs ++ new) ++ lastChosen isValue (docs ++ new),
    ?_, ?_, .of_eq ?_⟩, fun d hd => ?_⟩
  · refine .trans (List.Sublist.subperm ?_) (flatMap_chosen_subperm _ pairwise_variableTests _)
    simp only [List.flatMap_cons, List.flatMap_nil, List.append_nil, List.append_assoc]
    exact (lastChosen_sublist _ _).append ((lastChosen_sublist _ _).append
      ((lastChosen_sublist _ _).append (lastChosen_sublist _ _)))
  · simp [kept, map_lastChosen, ← hrecords]
  · have htype := hchosen (·.any Kind.isTypeName) (by decide)
    have hoverride := hchosen (is .overrideSpecifier) (by decide)
    have hvalue := hchosen isValue (by decide)
    simp only [Payload.children, Payload.variableDeclaration, Slots.children_cons,
      Slots.children_nil, Slot.children_optional, List.map_append, List.append_assoc,
      List.append_nil]
    rw [children_lastDocumentation hdocs hid, ← htype, ← hoverride, ← hvalue]
    rfl
  · -- a documentation record behind the leading one comes first
    exact documents_of_last hdocs hid (Option.some.inj hd)

theorem wp_modifierDefinition (r : Json) :
    wp (modifierDefinition r) (Reads .modifierDefinition r) [] := by
  refine wp_bind (wp_documented fun d? docs hdocs hid => wp_bind (wp_classified fun new hnew => ?_))
  refine wp_bind (wp_lift fun name => wp_bind (wp_lift fun visibility => ?_))
  split
  · trivial
  · next parameters hlast =>
    have hlast := toList_lastOf?_tagged .parameterList new ▸ congrArg Option.toList hlast
    refine wp_pure ⟨⟨docs ++ (lastChosen (is .parameterList) new ++
      lastChosen (is .overrideSpecifier) new ++
      lastChosen (isNone [.parameterList, .overrideSpecifier]) new),
      (List.Subperm.refl docs).append ?_, ?_, .of_eq ?_⟩, fun d hd => ?_⟩
    · have hsub := flatMap_chosen_subperm _ (pairwise_is_isNone
        [.parameterList, .overrideSpecifier] (by decide)) new
      refine .trans (List.Sublist.subperm ?_) hsub
      simp only [List.map_cons, List.map_nil, List.cons_append, List.nil_append, List.flatMap_cons,
        List.flatMap_nil, List.append_nil, List.append_assoc]
      exact (lastChosen_sublist _ _).append ((lastChosen_sublist _ _).append
        (lastChosen_sublist _ _))
    · simp [kept, hdocs, hnew, map_lastChosen]
    · simp [Payload.children, Payload.modifierDefinition, hid, hlast, toList_lastOf?_tagged,
        toList_lastBut?_tagged]
    · obtain ⟨doc, hdoc, h⟩ := documents_of_leading hdocs hid (Option.some.inj hd)
      exact ⟨doc, List.mem_append_left _ hdoc, h⟩

theorem wp_modifierInvocation (r : Json) :
    wp (modifierInvocation r) (Reads .modifierInvocation r) [] := by
  refine wp_bind (wp_child fun n name hn => wp_bind (wp_lift fun kind? => ?_))
  refine wp_bind (wp_all fun arguments harguments => wp_pure (.of_eq ?_ ?_ ?_))
  · simp [kept, harguments, cons_tail hn]
  · simp [Payload.children, Payload.modifierInvocation]
  · simp [Payload.documentation?, Payload.modifierInvocation, Slots.documentation?]

theorem wp_eventDefinition (r : Json) : wp (eventDefinition r) (Reads .eventDefinition r) [] := by
  refine wp_bind (wp_documented fun d? docs hdocs hid => wp_bind (wp_lift fun name => ?_))
  refine wp_bind (wp_child fun p parameters hp => wp_pure (.of_eq ?_ ?_ fun d hd => ?_))
  · simp [kept, List.take_add_one, hdocs, hp]
  · simp [Payload.children, Payload.eventDefinition, hid]
  · obtain ⟨doc, hdoc, h⟩ := documents_of_leading hdocs hid (Option.some.inj hd)
    exact ⟨doc, List.mem_append_left _ hdoc, h⟩

/-! ### Type names -/

theorem wp_userDefinedTypeName (r : Json) :
    wp (userDefinedTypeName r) (Reads .userDefinedTypeName r) [] := by
  refine wp_bind (wp_child? fun path? path hpath hid => wp_pure (.of_eq ?_ ?_ ?_))
  · simp [kept, List.take_add_one, hpath]
  · simp [Payload.children, Payload.userDefinedTypeName, hid]
  · simp [Payload.documentation?, Payload.userDefinedTypeName, Slots.documentation?]

theorem wp_elementaryTypeName (r : Json) :
    wp (elementaryTypeName r) (Reads .elementaryTypeName r) [] :=
  wp_bind (wp_lift fun _ => wp_bind (wp_lift fun _ => wp_pure (.of_eq rfl rfl nofun)))

theorem wp_mapping (r : Json) : wp (mapping r) (Reads .mapping r) [] := by
  refine wp_bind (wp_child fun k key hk => wp_bind (wp_child fun v value hv => ?_))
  refine wp_pure (.of_eq ?_ rfl ?_)
  · simp [kept, List.take_add_one, hk, hv]
  · simp [Payload.documentation?, Payload.mapping, Slots.documentation?]

theorem wp_arrayTypeName (r : Json) : wp (arrayTypeName r) (Reads .arrayTypeName r) [] := by
  refine wp_bind (wp_child fun b base hb => wp_bind (wp_child? fun length? l hl hid => ?_))
  refine wp_pure (.of_eq ?_ ?_ ?_)
  · simp [kept, List.take_add_one, hb, hl]
  · simp [Payload.children, Payload.arrayTypeName, hid]
  · simp [Payload.documentation?, Payload.arrayTypeName, Slots.documentation?]

theorem wp_functionTypeName (r : Json) :
    wp (functionTypeName r) (Reads .functionTypeName r) [] := by
  refine wp_bind (wp_lift fun visibility => wp_bind (wp_lift fun mutability => ?_))
  refine wp_bind (wp_child fun p parameters hp => wp_bind (wp_child fun q returns hq => ?_))
  refine wp_pure (.of_eq ?_ rfl ?_)
  · simp [kept, List.take_add_one, hp, hq]
  · simp [Payload.documentation?, Payload.functionTypeName, Slots.documentation?]

/-! ### Statements -/

theorem wp_block (r : Json) : wp (block r) (Reads .block r) [] := by
  refine wp_bind (wp_all fun statements hstatements => wp_pure ?_)
  refine .of_eq (by simpa [kept] using hstatements) ?_ ?_
  · simp [Payload.children, Payload.block]
  · simp [Payload.documentation?, Payload.block, Slots.documentation?]

theorem wp_ifStatement (r : Json) : wp (ifStatement r) (Reads .ifStatement r) [] := by
  refine wp_bind (wp_child fun c condition hc => wp_bind (wp_child fun t trueBody ht => ?_))
  refine wp_bind (wp_child? fun falseBody? f hf hid => wp_pure (.of_eq ?_ ?_ ?_))
  · simp [kept, List.take_add_one, hc, ht, hf]
  · simp [Payload.children, Payload.ifStatement, hid]
  · simp [Payload.documentation?, Payload.ifStatement, Slots.documentation?]

theorem wp_tryCatchClause (r : Json) : wp (tryCatchClause r) (Reads .tryCatchClause r) [] := by
  refine wp_bind (wp_classified fun new hnew => ?_)
  split
  · trivial
  · next block hlast =>
    have hlast := toList_lastBut?_tagged [.parameterList] new ▸ congrArg Option.toList hlast
    refine wp_pure ⟨⟨lastChosen (is .parameterList) new ++
      lastChosen (isNone [.parameterList]) new, ?_, ?_, .of_eq ?_⟩, ?_⟩
    · have hsub := flatMap_chosen_subperm _ (pairwise_is_isNone
        [.parameterList] (by decide)) new
      refine .trans (List.Sublist.subperm ?_) hsub
      simp only [List.map_cons, List.map_nil, List.cons_append, List.nil_append, List.flatMap_cons,
        List.flatMap_nil, List.append_nil]
      exact (lastChosen_sublist _ _).append (lastChosen_sublist _ _)
    · simp [kept, hnew, map_lastChosen]
    · simp [Payload.children, Payload.tryCatchClause, hlast, toList_lastOf?_tagged]
    · simp [Payload.documentation?, Payload.tryCatchClause, Slots.documentation?]

theorem wp_tryStatement (r : Json) : wp (tryStatement r) (Reads .tryStatement r) [] := by
  refine wp_bind (wp_child fun c call hc => wp_bind (wp_all fun clauses hclauses => ?_))
  refine wp_pure (.of_eq ?_ ?_ ?_)
  · simp [kept, hclauses, cons_tail hc]
  · simp [Payload.children, Payload.tryStatement]
  · simp [Payload.documentation?, Payload.tryStatement, Slots.documentation?]

theorem wp_whileStatement (r : Json) : wp (whileStatement r) (Reads .whileStatement r) [] := by
  refine wp_bind (wp_child fun c condition hc => wp_bind (wp_child fun b body hb => ?_))
  refine wp_pure (.of_eq ?_ ?_ ?_)
  · simp [kept, List.take_add_one, hc, hb]
  · simp [Payload.children, Payload.whileStatement]
  · simp [Payload.documentation?, Payload.whileStatement, Slots.documentation?]

theorem wp_doWhileStatement (r : Json) :
    wp (doWhileStatement r) (Reads .doWhileStatement r) [] := by
  refine wp_bind (wp_child fun c condition hc => wp_bind (wp_child fun b body hb => ?_))
  refine wp_pure (.of_eq ?_ ?_ ?_)
  · simp [kept, List.take_add_one, hc, hb]
  · simp [Payload.children, Payload.doWhileStatement]
  · simp [Payload.documentation?, Payload.doWhileStatement, Slots.documentation?]

theorem wp_forStatement (r : Json) : wp (forStatement r) (Reads .forStatement r) [] := by
  refine wp_bind (wp_part (fun _ => isNull_of_mem_records) fun initialization? i hi hiid => ?_)
  refine wp_bind (wp_part (fun _ => isNull_of_mem_drop) fun condition? c hc hcid => ?_)
  rw [List.drop_drop]
  refine wp_bind (wp_part (fun _ => isNull_of_mem_drop) fun loop? l hl hlid => ?_)
  refine wp_bind (wp_child fun b body hb => wp_pure (.of_eq ?_ ?_ ?_))
  · have hparts : (i ++ c ++ l).map Prod.fst = (records r).take
        (widths r ["initializationExpression", "condition", "loopExpression"]) := by
      simp [widths, hi, hc, hl, List.take_add]
    have hpresent : ([initialization?, condition?, loop?].filterMap id).length =
        (i ++ c ++ l).length := by
      have hlength : (i ++ c ++ l).length =
          initialization?.toList.length + condition?.toList.length + loop?.toList.length := by
        simp [← hiid, ← hcid, ← hlid, Nat.add_assoc]
      rw [hlength]
      cases initialization? <;> cases condition? <;> cases loop? <;> rfl
    -- the body comes behind the parts, so none of them has run out of records
    have hlength := congrArg List.length hparts
    rw [List.length_map, List.length_take] at hlength
    have hbody := (List.getElem?_eq_some_iff.1 hb).1
    rw [hpresent, hlength] at hb
    rw [hpresent, hlength] at hbody
    rw [Nat.min_eq_left (by omega)] at hb
    simp only [kept, List.take_add_one, hb, ← hparts]
    simp
  · simp [Payload.children, Payload.forStatement, hiid, hcid, hlid]
  · simp [Payload.documentation?, Payload.forStatement, Slots.documentation?]

theorem wp_inlineAssembly (r : Json) : wp (inlineAssembly r) (Reads .inlineAssembly r) [] := by
  refine wp_bind (wp_lift fun references => wp_pure (.of_eq rfl ?_ ?_))
  · simp [Payload.children, Payload.inlineAssembly]
  · simp [Payload.documentation?, Payload.inlineAssembly, Slots.documentation?]

theorem wp_returnStatement (r : Json) : wp (returnStatement r) (Reads .returnStatement r) [] := by
  refine wp_bind (wp_child? fun expression? e he hid => wp_pure (.of_eq ?_ ?_ ?_))
  · simp [kept, List.take_add_one, he]
  · simp [Payload.children, Payload.returnStatement, hid]
  · simp [Payload.documentation?, Payload.returnStatement, Slots.documentation?]

theorem wp_emitStatement (r : Json) : wp (emitStatement r) (Reads .emitStatement r) [] := by
  refine wp_bind (wp_child fun c call hc => wp_pure (.of_eq ?_ ?_ ?_))
  · simp [kept, List.take_add_one, hc]
  · simp [Payload.children, Payload.emitStatement]
  · simp [Payload.documentation?, Payload.emitStatement, Slots.documentation?]

/-- The variables are of their kind, and the value is of another. -/
theorem wp_variableDeclarationStatement (r : Json) :
    wp (variableDeclarationStatement r) (Reads .variableDeclarationStatement r) [] := by
  refine wp_bind (wp_classified fun new hnew => wp_pure ⟨⟨chosen (is .variableDeclaration) new ++
    lastChosen (isNone [.variableDeclaration]) new, ?_, ?_, .of_eq ?_⟩, ?_⟩)
  · have hsub := flatMap_chosen_subperm _ (pairwise_is_isNone
      [.variableDeclaration] (by decide)) new
    refine .trans (List.Sublist.subperm ?_) hsub
    simp only [List.map_cons, List.map_nil, List.cons_append, List.nil_append, List.flatMap_cons,
      List.flatMap_nil, List.append_nil]
    exact (List.Sublist.refl _).append (lastChosen_sublist _ _)
  · simp [kept, hnew, map_chosen, map_lastChosen]
  · simp [Payload.children, Payload.variableDeclarationStatement, ofKind_tagged,
      toList_lastBut?_tagged]
  · simp [Payload.documentation?, Payload.variableDeclarationStatement, Slots.documentation?]

theorem wp_expressionStatement (r : Json) :
    wp (expressionStatement r) (Reads .expressionStatement r) [] := by
  refine wp_bind (wp_child fun e expression he => wp_pure (.of_eq ?_ ?_ ?_))
  · simp [kept, List.take_add_one, he]
  · simp [Payload.children, Payload.expressionStatement]
  · simp [Payload.documentation?, Payload.expressionStatement, Slots.documentation?]

/-! ### Expressions -/

theorem wp_conditional (r : Json) : wp (conditional r) (Reads .conditional r) [] := by
  refine wp_bind (wp_child fun c condition hc => wp_bind (wp_child fun t trueExpression ht => ?_))
  refine wp_bind (wp_child fun f falseExpression hf => wp_pure (.of_eq ?_ rfl ?_))
  · simp [kept, List.take_add_one, hc, ht, hf]
  · simp [Payload.documentation?, Payload.conditional, Slots.documentation?]

theorem wp_assignment (r : Json) : wp (assignment r) (Reads .assignment r) [] := by
  refine wp_bind (wp_lift fun operator => wp_bind (wp_child fun a left ha => ?_))
  refine wp_bind (wp_child fun b right hb => wp_pure (.of_eq ?_ rfl ?_))
  · simp [kept, List.take_add_one, ha, hb]
  · simp [Payload.documentation?, Payload.assignment, Slots.documentation?]

theorem wp_tupleExpression (r : Json) : wp (tupleExpression r) (Reads .tupleExpression r) [] := by
  refine wp_bind (wp_sparse fun places new hnew hid => wp_pure (.of_eq hnew ?_ ?_))
  · simp [Payload.children, Payload.tupleExpression, hid]
  · simp [Payload.documentation?, Payload.tupleExpression, Slots.documentation?]

theorem wp_unaryOperation (r : Json) : wp (unaryOperation r) (Reads .unaryOperation r) [] := by
  refine wp_bind (wp_lift fun operator => wp_bind (wp_child fun o operand ho => ?_))
  refine wp_pure (.of_eq ?_ rfl ?_)
  · simp [kept, List.take_add_one, ho]
  · simp [Payload.documentation?, Payload.unaryOperation, Slots.documentation?]

theorem wp_binaryOperation (r : Json) : wp (binaryOperation r) (Reads .binaryOperation r) [] := by
  refine wp_bind (wp_lift fun operator => wp_bind (wp_child fun a left ha => ?_))
  refine wp_bind (wp_child fun b right hb => wp_pure (.of_eq ?_ rfl ?_))
  · simp [kept, List.take_add_one, ha, hb]
  · simp [Payload.documentation?, Payload.binaryOperation, Slots.documentation?]

theorem wp_functionCall (r : Json) : wp (functionCall r) (Reads .functionCall r) [] := by
  refine wp_bind (wp_lift fun kind? => wp_bind (wp_child fun e expression he => ?_))
  refine wp_bind (wp_all fun arguments harguments => wp_pure (.of_eq ?_ ?_ ?_))
  · simp [kept, harguments, cons_tail he]
  · simp [Payload.children, Payload.functionCall]
  · simp [Payload.documentation?, Payload.functionCall, Slots.documentation?]

theorem wp_functionCallOptions (r : Json) :
    wp (functionCallOptions r) (Reads .functionCallOptions r) [] := by
  refine wp_bind (wp_child fun e expression he => wp_bind (wp_all fun options hoptions => ?_))
  refine wp_pure (.of_eq ?_ ?_ ?_)
  · simp [kept, hoptions, cons_tail he]
  · simp [Payload.children, Payload.functionCallOptions]
  · simp [Payload.documentation?, Payload.functionCallOptions, Slots.documentation?]

theorem wp_newExpression (r : Json) : wp (newExpression r) (Reads .newExpression r) [] := by
  refine wp_bind (wp_child fun t type ht => wp_pure (.of_eq ?_ rfl ?_))
  · simp [kept, List.take_add_one, ht]
  · simp [Payload.documentation?, Payload.newExpression, Slots.documentation?]

theorem wp_memberAccess (r : Json) : wp (memberAccess r) (Reads .memberAccess r) [] := by
  refine wp_bind (wp_lift fun name => wp_bind (wp_child fun e expression he => ?_))
  refine wp_pure (.of_eq ?_ rfl ?_)
  · simp [kept, List.take_add_one, he]
  · simp [Payload.documentation?, Payload.memberAccess, Slots.documentation?]

theorem wp_indexAccess (r : Json) : wp (indexAccess r) (Reads .indexAccess r) [] := by
  refine wp_bind (wp_child fun b base hb => wp_bind (wp_child? fun index? i hi hid => ?_))
  refine wp_pure (.of_eq ?_ ?_ ?_)
  · simp [kept, List.take_add_one, hb, hi]
  · simp [Payload.children, Payload.indexAccess, hid]
  · simp [Payload.documentation?, Payload.indexAccess, Slots.documentation?]

theorem wp_indexRangeAccess (r : Json) :
    wp (indexRangeAccess r) (Reads .indexRangeAccess r) [] := by
  refine wp_bind (wp_child fun b base hb => ?_)
  rw [← List.drop_one]
  refine wp_bind (wp_part (fun _ => isNull_of_mem_drop) fun start? s hs hsid => ?_)
  rw [List.drop_drop]
  refine wp_bind (wp_part (fun _ => isNull_of_mem_drop) fun stop? t ht htid => ?_)
  refine wp_pure (.of_eq ?_ ?_ ?_)
  · simp only [kept, widths, List.map_cons, List.map_nil, List.sum_cons, List.sum_nil, Nat.add_zero,
      List.take_add, List.drop_drop]
    simp [List.take_add_one, hb, hs, ht]
  · simp [Payload.children, Payload.indexRangeAccess, hsid, htid]
  · simp [Payload.documentation?, Payload.indexRangeAccess, Slots.documentation?]

theorem wp_identifier (r : Json) : wp (identifier r) (Reads .identifier r) [] :=
  wp_bind (wp_lift fun _ => wp_pure (.of_eq rfl rfl nofun))

theorem wp_elementaryTypeNameExpression (r : Json) :
    wp (elementaryTypeNameExpression r) (Reads .elementaryTypeNameExpression r) [] := by
  refine wp_bind (wp_child? fun id? new hnew hid => ?_)
  have hkept : new.map Prod.fst = kept .elementaryTypeNameExpression r := by
    simp [kept, List.take_add_one, hnew]
  cases id? with
  | none =>
    exact wp_bind (wp_bind (wp_lift fun name => wp_pure (wp_pure (.of_eq hkept hid.symm nofun))))
  | some id => exact wp_bind (wp_pure (wp_pure (.of_eq hkept hid.symm nofun)))

theorem wp_literal (r : Json) : wp (literal r) (Reads .literal r) [] :=
  wp_bind (wp_lift fun _ => wp_pure (.of_eq rfl rfl nofun))

theorem wp_structuredDocumentation (r : Json) :
    wp (structuredDocumentation r) (Reads .structuredDocumentation r) [] :=
  wp_bind (wp_lift fun _ => wp_pure (.of_eq rfl rfl nofun))

/-! ### All kinds -/

/-- **The children of a payload** are the nodes of the records that its kind keeps, each once. -/
theorem wp_payload? {kind : Kind} {draft : Json → Draft Payload} (h : payload? kind = some draft)
    (r : Json) : wp (draft r) (Reads kind r) [] := by
  unfold payload? at h
  split at h <;> cases h
  · exact wp_contractDefinition r
  · exact wp_enumDefinition r
  · exact wp_enumValue r
  · exact wp_eventDefinition r
  · exact wp_functionDefinition r
  · exact wp_modifierDefinition r
  · exact wp_structDefinition r
  · exact wp_variableDeclaration r
  · exact wp_assignment r
  · exact wp_binaryOperation r
  · exact wp_conditional r
  · exact wp_elementaryTypeNameExpression r
  · exact wp_functionCall r
  · exact wp_functionCallOptions r
  · exact wp_identifier r
  · exact wp_indexAccess r
  · exact wp_indexRangeAccess r
  · exact wp_literal r
  · exact wp_memberAccess r
  · exact wp_newExpression r
  · exact wp_tupleExpression r
  · exact wp_unaryOperation r
  · exact wp_importDirective r
  · exact wp_inheritanceSpecifier r
  · exact wp_modifierInvocation r
  · exact wp_overrideSpecifier r
  · exact wp_parameterList r
  · exact wp_pragmaDirective r
  · exact wp_sourceUnit r
  · exact wp_structuredDocumentation r
  · exact wp_usingForDirective r
  · exact wp_block r
  · exact wp_pure (.of_eq rfl (by simp [Payload.children, Payload.breakStatement])
      (by simp [Payload.documentation?, Payload.breakStatement, Slots.documentation?]))
  · exact wp_pure (.of_eq rfl (by simp [Payload.children, Payload.continueStatement])
      (by simp [Payload.documentation?, Payload.continueStatement, Slots.documentation?]))
  · exact wp_doWhileStatement r
  · exact wp_emitStatement r
  · exact wp_expressionStatement r
  · exact wp_forStatement r
  · exact wp_ifStatement r
  · exact wp_inlineAssembly r
  · exact wp_pure (.of_eq rfl (by simp [Payload.children, Payload.placeholderStatement])
      (by simp [Payload.documentation?, Payload.placeholderStatement, Slots.documentation?]))
  · exact wp_returnStatement r
  · exact wp_pure (.of_eq rfl (by simp [Payload.children, Payload.throwStatement])
      (by simp [Payload.documentation?, Payload.throwStatement, Slots.documentation?]))
  · exact wp_tryCatchClause r
  · exact wp_tryStatement r
  · exact wp_variableDeclarationStatement r
  · exact wp_whileStatement r
  · exact wp_arrayTypeName r
  · exact wp_elementaryTypeName r
  · exact wp_functionTypeName r
  · exact wp_mapping r
  · exact wp_userDefinedTypeName r

/-! ### Kinds -/

/-- Every kind ends with a payload of its own, whatever it has read and converted before. -/
theorem wp_payload?_kind {kind : Kind} {draft : Json → Draft Payload}
    (h : payload? kind = some draft) (r : Json) :
    (draft r).wp (fun _ p => p.kind = kind) [] := by
  cases kind <;> cases h
  all_goals
    repeat first
    | exact wp_pure rfl
    | exact trivial
    | refine wp_bind_any fun _ _ => ?_
    | split

end SolidityTree.Legacy
