import SolidityTree.Proofs.Subtrees

/-!
# Tables beside the list of children

Three kinds keep a table of attributes about the children in their list: the options of a call have
names, the operators of a using directive have functions, and a declaration statement says at which
positions its variables are declared.  `Forest.remove` and `Forest.replace` edit slots and leave
attributes alone, so a table goes on to say what it said about the list as it was.

* `getElem?_idxOf_erase_iff`, `idxOf_replace`: where the children that stay stand in the list.
* `Slots.list_replace?`, `Slots.list_map_without`: what the edits of slots do to the list.
* `Forest.Consistent.tables_of_edits`: when the tables still fit after an edit.
-/

namespace SolidityTree

/-! ### Sequences -/

theorem idxOf_of_getElem? {cs : List NodeId} {c : NodeId} {i : Nat} (h : cs.Nodup)
    (hi : cs[i]? = some c) : cs.idxOf c = i := by
  obtain ⟨hlt, rfl⟩ := List.getElem?_eq_some_iff.1 hi
  exact h.idxOf_getElem i hlt

/-- **All that stay keep their names when a value is taken out exactly if** the names are the same
from its own on: every value behind it gets the name of the one before. -/
theorem getElem?_idxOf_erase_iff {α : Type} (names : List α) {cs : List NodeId} (h : cs.Nodup)
    (child : NodeId) :
    (∀ c ∈ cs.erase child, names[(cs.erase child).idxOf c]? = names[cs.idxOf c]?) ↔
      ∀ j, cs.idxOf child ≤ j → j + 1 < cs.length → names[j]? = names[j + 1]? := by
  have herase : cs.erase child = cs.eraseIdx (cs.idxOf child) :=
    List.erase_eq_eraseIdx_of_idxOf rfl
  have hnodup := h.erase child
  constructor
  · intro hkept j hj hlt
    have hold : cs[j + 1]? = some cs[j + 1] := List.getElem?_eq_getElem hlt
    have hnew : (cs.erase child)[j]? = some cs[j + 1] := by
      rw [herase, List.getElem?_eraseIdx, if_neg (by omega), hold]
    have hname := hkept _ (List.mem_of_getElem? hnew)
    rwa [idxOf_of_getElem? hnodup hnew, idxOf_of_getElem? h hold] at hname
  · intro hnames c hc
    obtain ⟨j, hnew⟩ := List.mem_iff_getElem?.1 hc
    rw [idxOf_of_getElem? hnodup hnew]
    rw [herase, List.getElem?_eraseIdx] at hnew
    split at hnew
    · rw [idxOf_of_getElem? h hnew]
    · next hj =>
      rw [idxOf_of_getElem? h hnew]
      exact hnames j (by omega) (List.getElem?_eq_some_iff.1 hnew).1

theorem nodup_replace {cs : List NodeId} {new : NodeId} (old : NodeId) (h : cs.Nodup)
    (hnew : new ∉ cs) : (cs.replace old new).Nodup := by
  by_cases hold : old ∈ cs
  · rw [(replace_perm_cons_erase hold).nodup_iff, List.nodup_cons]
    exact ⟨fun hmem => hnew (List.mem_of_mem_erase hmem), h.erase old⟩
  · rwa [List.replace_of_not_mem hold]

/-- Where a value takes the place of another one, all stand where they stood. -/
theorem idxOf_replace {cs : List NodeId} {c new old : NodeId} (h : cs.Nodup) (hnew : new ∉ cs)
    (hc : c ∈ cs) : (cs.replace old new).idxOf (if c = old then new else c) = cs.idxOf c := by
  obtain ⟨i, hi⟩ := List.mem_iff_getElem?.1 hc
  rw [idxOf_of_getElem? h hi]
  apply idxOf_of_getElem? (nodup_replace old h hnew)
  rw [replace_eq_set_idxOf, List.getElem?_set]
  by_cases hold : c = old
  · subst hold
    rw [idxOf_of_getElem? h hi, if_pos rfl, if_pos rfl, if_pos (List.getElem?_eq_some_iff.1 hi).1]
  · rw [if_neg hold, if_neg, hi]
    rintro rfl
    obtain ⟨hlt, heq⟩ := List.getElem?_eq_some_iff.1 hi
    exact hold (heq.symm.trans (List.getElem_idxOf hlt))

/-! ### The list of a payload -/

namespace Slots

variable {child new old : NodeId} {slots slots' : List Slot}

/-- The content of the first slot for any number of children. -/
def list : List Slot → List NodeId
  | [] => []
  | .many cs :: _ => cs
  | _ :: rest => list rest

theorem sublist_list (slots : List Slot) : (list slots).Sublist (children slots) := by
  induction slots using list.induct with
  | case1 => exact .slnil
  | case2 cs rest => exact List.sublist_append_left _ _
  | case3 slot rest hs ih =>
    rw [list.eq_3 _ _ hs]
    exact ih.trans (List.sublist_append_right _ _)

theorem list_map_without (child : NodeId) (slots : List Slot) :
    list (slots.map (Slot.without child)) = (list slots).filter (· ≠ child) := by
  induction slots using list.induct with
  | case1 => rfl
  | case2 cs rest => rfl
  | case3 slot rest hs ih =>
    rw [list.eq_3 _ _ hs, ← ih]
    cases slot with
    | many cs => exact absurd rfl (hs cs)
    | _ => rfl

theorem list_replace? (h : replace? old new slots = some slots') (hnodup : (children slots).Nodup) :
    list slots' = (list slots).replace old new := by
  induction slots using list.induct generalizing slots' with
  | case1 => contradiction
  | case2 cs rest =>
    rw [replace?, Slot.replace?] at h
    by_cases hold : old ∈ cs
    · rw [if_pos hold] at h
      cases h
      rfl
    · rw [if_neg hold] at h
      obtain ⟨rest', -, rfl⟩ := Option.map_eq_some_iff.1 h
      exact (List.replace_of_not_mem hold).symm
  | case3 slot rest hs ih =>
    rw [children_cons, List.nodup_append] at hnodup
    rw [list.eq_3 _ _ hs]
    rw [replace?] at h
    split at h
    · -- the old child stands before the list, so it is not in it
      next slot' hslot =>
      cases h
      have hs' : ∀ cs, slot' ≠ .many cs := by
        rintro cs rfl
        have hshape := Slot.shape_replace? hslot
        cases slot with
        | many cs => exact hs cs rfl
        | _ => contradiction
      have hnot : old ∉ list rest := fun hmem =>
        hnodup.2.2 old (Slot.children_replace? hslot).1 old ((sublist_list rest).mem hmem) rfl
      rw [list.eq_3 _ _ hs', List.replace_of_not_mem hnot]
    · obtain ⟨rest', hrest, rfl⟩ := Option.map_eq_some_iff.1 h
      rw [list.eq_3 _ _ hs, ih hrest hnodup.2.1]

end Slots

namespace Payload

variable {child new old : NodeId} {p p' : Payload}

/-- The children in the list of a payload, for the kinds with one list. -/
def listed (p : Payload) : List NodeId := Slots.list p.slots

theorem listed_subset_children (p : Payload) : p.listed ⊆ p.children :=
  (Slots.sublist_list p.slots).subset

/-! ### Tables -/

/-- The name of an option of a call: the one at the same position. -/
def optionName? (p : Payload) (option : NodeId) : Option String :=
  match p.attributes with
  | .functionCallOptions _ names => names[p.listed.idxOf option]?
  | _ => none

/-- The functions that a using directive gives for operators. -/
def operatorFunctions (p : Payload) : List NodeId :=
  match p.attributes with
  | .usingForDirective _ operators => operators.map OperatorBinding.function
  | _ => []

/-- The variables that a declaration statement assigns to, without holes. -/
def assigned (p : Payload) : List NodeId :=
  match p.attributes with
  | .variableDeclarationStatement assignments => assignments.filterMap id
  | _ => []

/-! ### Edits of payloads -/

theorem listed_remove (h : p.remove child = .removed p') (hnodup : p.children.Nodup) :
    p'.listed = p.listed.erase child := by
  have hmem := (children_remove h).1
  rw [remove_of_mem hmem hnodup] at h
  split at h
  · contradiction
  · obtain rfl := Removal.removed.inj h
    have hlisted : p.listed.Nodup := (Slots.sublist_list p.slots).nodup hnodup
    rw [erase_eq_filter_ne child hlisted]
    exact Slots.list_map_without child p.slots

theorem listed_replace? (h : p.replace? old new = some p') (hnodup : p.children.Nodup) :
    p'.listed = p.listed.replace old new :=
  Slots.list_replace? (slots_of_replace? h) hnodup

/-- The same attributes beside a list that one child has left. -/
structure Left (gone : NodeId) (p p' : Payload) : Prop where
  attributes_eq : p'.attributes = p.attributes
  /-- All operators have their functions in the list if no function of an operator has left it. -/
  operatorFunctions_iff : p.operatorFunctions ⊆ p.listed →
    (p'.operatorFunctions ⊆ p'.listed ↔ gone ∉ p.operatorFunctions)
  /-- The assigned variables are those of the list if no variable has left it. -/
  assigned_iff : p.assigned = p.listed → (p'.assigned = p'.listed ↔ gone ∉ p.listed)

theorem left_of_listed {gone : NodeId} (hattributes : p'.attributes = p.attributes)
    (hmem : ∀ c ∈ p.listed, c ∈ p'.listed ↔ c ≠ gone)
    (hsame : gone ∉ p.listed → p'.listed = p.listed) : Left gone p p' where
  attributes_eq := hattributes
  operatorFunctions_iff hlisted := by
    rw [operatorFunctions, hattributes]
    constructor
    · intro hlisted' hgone
      exact (hmem gone (hlisted hgone)).1 (hlisted' hgone) rfl
    · intro hgone c hc
      refine (hmem c (hlisted hc)).2 ?_
      rintro rfl
      exact hgone hc
  assigned_iff hassigned := by
    have hassigned' : p'.assigned = p.listed := by rw [assigned, hattributes, ← hassigned, assigned]
    rw [hassigned']
    constructor
    · intro heq hgone
      exact (hmem gone hgone).1 (heq ▸ hgone) rfl
    · intro hgone
      exact (hsame hgone).symm

theorem left_remove (h : p.remove child = .removed p') (hnodup : p.children.Nodup) :
    Left child p p' := by
  have hlisted : p.listed.Nodup := (Slots.sublist_list p.slots).nodup hnodup
  apply left_of_listed (attributes_remove h)
  · intro c hc
    rw [listed_remove h hnodup, hlisted.mem_erase_iff]
    exact and_iff_left hc
  · intro hgone
    rw [listed_remove h hnodup, List.erase_of_not_mem hgone]

theorem left_replace? (h : p.replace? old new = some p') (hnodup : p.children.Nodup)
    (hnew : new ∉ p.children) : Left old p p' := by
  have hlisted : p.listed.Nodup := (Slots.sublist_list p.slots).nodup hnodup
  apply left_of_listed (attributes_replace? h)
  · intro c hc
    have hne : c ≠ new := by
      rintro rfl
      exact hnew (p.listed_subset_children hc)
    rw [listed_replace? h hnodup]
    by_cases hold : old ∈ p.listed
    · rw [(replace_perm_cons_erase hold).mem_iff, List.mem_cons, hlisted.mem_erase_iff]
      simp [hne, hc]
    · rw [List.replace_of_not_mem hold]
      exact ⟨fun _ heq => hold (heq ▸ hc), fun _ => hc⟩
  · intro hgone
    rw [listed_replace? h hnodup, List.replace_of_not_mem hgone]

/-- The names of the options that stay after a removal. -/
theorem optionName?_remove_iff (h : p.remove child = .removed p') (hnodup : p.children.Nodup)
    {type : String} {names : List String} (hp : p.attributes = .functionCallOptions type names) :
    (∀ c ∈ p'.listed, p'.optionName? c = p.optionName? c) ↔
      ∀ j, p.listed.idxOf child ≤ j → j + 1 < p.listed.length → names[j]? = names[j + 1]? := by
  have hlisted : p.listed.Nodup := (Slots.sublist_list p.slots).nodup hnodup
  simp only [optionName?, attributes_remove h, hp, listed_remove h hnodup]
  exact getElem?_idxOf_erase_iff names hlisted child

/-- After a replacement the new option has the name of the old one, and the others keep theirs. -/
theorem optionName?_replace? (h : p.replace? old new = some p') (hnodup : p.children.Nodup)
    (hnew : new ∉ p.children) {c : NodeId} (hc : c ∈ p.listed) :
    p'.optionName? (if c = old then new else c) = p.optionName? c := by
  have hlisted : p.listed.Nodup := (Slots.sublist_list p.slots).nodup hnodup
  have hnot : new ∉ p.listed := fun hmem => hnew (p.listed_subset_children hmem)
  rw [optionName?, attributes_replace? h, listed_replace? h hnodup, idxOf_replace hlisted hnot hc,
    optionName?]

end Payload

namespace Forest

variable {f g : Forest} {child owner old : NodeId} {new : Handle} {n : Node}

/-! ### Edits of forests -/

theorem Consistent.get?_remove (hf : f.Consistent) (h : f.remove owner child = .ok g)
    (hn : f.get? owner = some n) :
    ∃ m, g.get? owner = some m ∧ n.payload.remove child = .removed m.payload := by
  have hne := hf.ne_of_mem_children (children_remove h).1
  obtain ⟨n', payload, hn', hp, rfl⟩ := remove_eq_ok h
  obtain rfl : n = n' := Option.some.inj (hn.symm.trans hn')
  refine ⟨{ n with payload := payload }, ?_, hp⟩
  rw [get?_setParent, if_neg hne, get?_modifyPayload hn, if_pos rfl]

theorem Consistent.get?_replace (hf : f.Consistent) (h : f.replace owner new old = .ok g)
    (hne : new ≠ f.handle old) (hn : f.get? owner = some n) :
    new.id ∉ n.payload.children ∧
      ∃ m, g.get? owner = some m ∧ n.payload.replace? old new.id = some m.payload := by
  rcases replace_eq_ok h with ⟨heq, -⟩ | ⟨hcheck, n', payload, hn', hp, -, rfl⟩
  · exact absurd heq hne
  obtain rfl : n = n' := Option.some.inj (hn.symm.trans hn')
  have hattach := hf.attachable_of_check hcheck
  have hchildren : f.children owner = n.payload.children := children_of_get? hn
  have hold : old ≠ owner := by
    apply hf.ne_of_mem_children
    rw [hchildren]
    exact (Payload.children_replace? hp).1
  refine ⟨fun hmem => ?_, { n with payload := payload }, ?_, hp⟩
  · have hparent := hf.parent?_of_mem (hchildren ▸ hmem)
    rw [hattach.detached] at hparent
    contradiction
  · have hn' : (f.setParent old none).get? owner = some n := by
      rw [get?_setParent, if_neg hold, hn]
    rw [Forest.attach, get?_setParent, if_neg hattach.ne, get?_modifyPayload hn', if_pos rfl]

/-- **What the tables are worth after an edit.**  The attributes stay as they are.  So after a
removal the options of a call keep their names only if the names are the same from the removed one
on, and after a replacement they do; operators and assignments still fit if and only if the child
that has left its place was none of theirs. -/
theorem Consistent.tables_of_edits (hf : f.Consistent) (hn : f.get? owner = some n) :
    (∀ {child g}, f.remove owner child = .ok g →
      ∃ m, g.get? owner = some m ∧ Payload.Left child n.payload m.payload ∧
        ∀ {type names}, n.payload.attributes = .functionCallOptions type names →
          ((∀ c ∈ m.payload.listed, m.payload.optionName? c = n.payload.optionName? c) ↔
            ∀ j, n.payload.listed.idxOf child ≤ j → j + 1 < n.payload.listed.length →
              names[j]? = names[j + 1]?)) ∧
    (∀ {new old g}, f.replace owner new old = .ok g →
      (new = f.handle old ∧ g = f) ∨
      ∃ m, g.get? owner = some m ∧ Payload.Left old n.payload m.payload ∧
        ∀ c ∈ n.payload.listed,
          m.payload.optionName? (if c = old then new.id else c) = n.payload.optionName? c) := by
  have hnodup : n.payload.children.Nodup := by
    have := hf.nodup owner
    rwa [children_of_get? hn] at this
  constructor
  · intro child g h
    obtain ⟨m, hm, hp⟩ := hf.get?_remove h hn
    exact ⟨m, hm, Payload.left_remove hp hnodup, Payload.optionName?_remove_iff hp hnodup⟩
  · intro new old g h
    by_cases hne : new = f.handle old
    · rw [Forest.replace, if_pos hne] at h
      exact .inl ⟨hne, (Except.ok.inj h).symm⟩
    · obtain ⟨hnew, m, hm, hp⟩ := hf.get?_replace h hne hn
      exact .inr ⟨m, hm, Payload.left_replace? hp hnodup hnew,
        fun c hc => Payload.optionName?_replace? hp hnodup hnew hc⟩

/-- The call options `x{value: x, gas: x}`, a using directive that gives a function for an operator,
a declaration of two variables and a spare name, with names for all that they hold. -/
def sideTablesNodes : List Node :=
  [1, 2, 3, 5, 6, 8, 9, 11].map
      (fun id => .fresh id .unknown (.identifier "" "x" .builtin []) none) ++
    [.fresh 4 .unknown (.functionCallOptions "" ["value", "gas"] 1 [2, 3]) none,
     .fresh 7 .unknown (.usingForDirective false [⟨5, "+"⟩] none [5, 6] none) none,
     .fresh 10 .unknown
      (.variableDeclarationStatement [some 8, none, some 9] none [8, 9] none) none]

/-- The forest of these nodes. -/
def sideTables : Forest := sideTablesNodes.foldl insert (empty 0)

theorem consistent_sideTables : sideTables.Consistent := by
  have hregister : (empty 0).registerAll sideTablesNodes = .ok sideTables := rfl
  exact (consistent_empty 0).registerAll hregister (by decide)

/-- Without the first option the second one is no longer named `gas`, as it is when the first one is
replaced; the operator loses the function that is taken out, and the first assignment the variable
that is replaced. -/
theorem tables_of_edits_sideTables :
    (∃ g m, sideTables.remove 4 2 = .ok g ∧ g.get? 4 = some m ∧ m.payload.listed = [3] ∧
      m.payload.optionName? 3 ≠ some "gas") ∧
    (∃ g m, sideTables.replace 4 ⟨0, 11⟩ 2 = .ok g ∧ g.get? 4 = some m ∧
      m.payload.optionName? 11 = some "value" ∧ m.payload.optionName? 3 = some "gas") ∧
    (∃ g m, sideTables.remove 7 5 = .ok g ∧ g.get? 7 = some m ∧
      ¬ m.payload.operatorFunctions ⊆ m.payload.listed) ∧
    (∃ g m, sideTables.replace 10 ⟨0, 11⟩ 8 = .ok g ∧ g.get? 10 = some m ∧
      m.payload.assigned ≠ m.payload.listed) := by
  have hcall : sideTables.get? 4 = some _ := rfl
  have husing : sideTables.get? 7 = some _ := rfl
  have hstatement : sideTables.get? 10 = some _ := rfl
  have hremovedOption : sideTables.remove 4 2 = .ok _ := rfl
  have hreplacedOption : sideTables.replace 4 ⟨0, 11⟩ 2 = .ok _ := rfl
  have hremovedFunction : sideTables.remove 7 5 = .ok _ := rfl
  have hreplacedVariable : sideTables.replace 10 ⟨0, 11⟩ 8 = .ok _ := rfl
  obtain ⟨hremove, hreplace⟩ := consistent_sideTables.tables_of_edits hcall
  refine ⟨?_, ?_, ?_, ?_⟩
  · obtain ⟨m, hm, -, hnames⟩ := hremove hremovedOption
    have hlisted : m.payload.listed = [3] := by
      obtain rfl := Option.some.inj hm
      rfl
    refine ⟨_, m, hremovedOption, hm, hlisted, fun hgas => ?_⟩
    have hequal := (hnames rfl).1 (fun c hc => ?_) 0 (by decide) (by decide)
    · contradiction
    · rw [hlisted] at hc
      obtain rfl := List.mem_singleton.1 hc
      exact hgas
  · rcases hreplace hreplacedOption with ⟨hself, -⟩ | ⟨m, hm, -, hnames⟩
    · contradiction
    · exact ⟨_, m, hreplacedOption, hm, hnames 2 (by decide), hnames 3 (by decide)⟩
  · obtain ⟨m, hm, hleft, -⟩ := (consistent_sideTables.tables_of_edits husing).1 hremovedFunction
    have hfits := hleft.operatorFunctions_iff (by decide)
    exact ⟨_, m, hremovedFunction, hm, fun h => hfits.1 h (by decide)⟩
  · rcases (consistent_sideTables.tables_of_edits hstatement).2 hreplacedVariable with
      ⟨hself, -⟩ | ⟨m, hm, hleft, -⟩
    · contradiction
    · have hfits := hleft.assigned_iff rfl
      exact ⟨_, m, hreplacedVariable, hm, fun h => hfits.1 h (by decide)⟩

end Forest

end SolidityTree
