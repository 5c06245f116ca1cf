import SolidityTree.Proofs.Schemas

/-!
# What a node keeps of its record

A node keeps its record without the fields that hold records of other nodes (`Record.shallow`).
What counts as such a field is a matter of form: in the modern schema its value is tagged as a
record, or is an array with such a value in it (`Record.holdsRecord`).  Inline assembly keeps the
tree of its Yul code all the same.
-/

namespace SolidityTree.Record

variable {r v : Json} {key : String} {entries : List (String × Json)}

/-! ### Entries that pass a test -/

theorem lookup_filter {test : String × Json → Bool} (h : ∀ value, test (key, value)) :
    (entries.filter test).lookup key = entries.lookup key := by
  induction entries with
  | nil => rfl
  | cons entry rest ih =>
    obtain ⟨key', value⟩ := entry
    by_cases hkey : key = key'
    · subst hkey
      rw [List.filter_cons, if_pos (h value), List.lookup_cons_self, List.lookup_cons_self]
    · have hne : (key == key') = false := beq_eq_false_iff_ne.2 hkey
      rw [List.filter_cons, List.lookup_cons, hne, ← ih]
      split
      · rw [List.lookup_cons, hne]
      · rfl

/-- An entry is still found exactly if it passes the test itself. -/
theorem lookup_filter_eq_iff {test : String × Json → Bool} (h : entries.lookup key = some v) :
    (entries.filter test).lookup key = some v ↔ test (key, v) := by
  refine ⟨fun hfilter => ?_, fun htest => ?_⟩
  · obtain ⟨before, after, heq, -⟩ := List.lookup_eq_some_iff.1 hfilter
    have hmem : (key, v) ∈ entries.filter test := by simp [heq]
    exact (List.mem_filter.1 hmem).2
  · obtain ⟨before, after, rfl, hbefore⟩ := List.lookup_eq_some_iff.1 h
    rw [List.filter_append, List.filter_cons_of_pos htest]
    exact List.lookup_eq_some_iff.2 ⟨_, _, rfl, fun entry hentry =>
      hbefore entry (List.mem_of_mem_filter hentry)⟩

/-! ### Inline assembly -/

theorem tag_of_inlineAssembly
    (h : Schema.modern.kind? (.object entries) = some .inlineAssembly) :
    entries.lookup "nodeType" = some (.string "InlineAssembly") := by
  obtain ⟨tag, htag, hword⟩ := Option.bind_eq_some_iff.1 h
  obtain ⟨value, hvalue, hstring⟩ := Option.bind_eq_some_iff.1 htag
  have hfound : Vocabulary.word Kind.inlineAssembly = tag := by simpa using List.find?_some hword
  cases value with
  | string text =>
    obtain rfl : text = tag := Option.some.inj hstring
    rw [show entries.lookup "nodeType" = some (.string text) from hvalue, ← hfound]
    rfl
  | _ => contradiction

theorem kind?_eq_inlineAssembly_iff :
    Schema.modern.kind? (.object entries) = some .inlineAssembly ↔
      entries.lookup "nodeType" = some (.string "InlineAssembly") := by
  refine ⟨tag_of_inlineAssembly, fun htag => ?_⟩
  rw [Schema.kind?, show (Json.object entries).get? Schema.modern.tagKey = _ from htag]
  decide

/-- Inline assembly keeps the tree of its Yul code. -/
theorem get?_shallow_tree {schema : Schema} (hkind : schema.kind? r = some .inlineAssembly) :
    (shallow schema r).get? "AST" = r.get? "AST" := by
  cases r with
  | object entries =>
    have hshallow : ∀ test, (∀ value, test ("AST", value)) →
        (Json.object (entries.filter test)).get? "AST" = (Json.object entries).get? "AST" :=
      fun test htest => lookup_filter htest
    refine hshallow _ fun value => ?_
    cases schema with
    | legacy =>
      show decide ("AST" ≠ "children") = true
      decide
    | modern => simp [tag_of_inlineAssembly hkind]
  | _ => rfl

/-! ### Other fields -/

/-- A field is kept if it holds no records, and the tree of inline assembly is in any case. -/
theorem get?_shallow_eq_iff (h : r.get? key = some v) :
    (shallow .modern r).get? key = some v ↔
      Schema.modern.kind? r = some .inlineAssembly ∧ key = "AST" ∨ ¬ holdsRecord v := by
  cases r with
  | object entries =>
    refine (lookup_filter_eq_iff h).trans ?_
    rw [Bool.or_eq_true, Bool.and_eq_true, decide_eq_true_eq, Bool.not_eq_true', Bool.not_eq_true,
      kind?_eq_inlineAssembly_iff]
    refine or_congr_left (and_congr_left fun _ => ?_)
    split
    · next htag => simp [htag]
    · next htag => simpa using htag
  | _ => contradiction

/-- What is of a kind is tagged. -/
theorem holdsRecord_of_kind? (h : (Schema.modern.kind? r).isSome) : holdsRecord r := by
  obtain ⟨kind, hkind⟩ := Option.isSome_iff_exists.1 h
  obtain ⟨tag, htag, -⟩ := Option.bind_eq_some_iff.1 hkind
  obtain ⟨value, hvalue, -⟩ := Option.bind_eq_some_iff.1 htag
  cases r with
  | object entries => exact Option.isSome_iff_exists.2 ⟨value, hvalue⟩
  | _ => contradiction

theorem anyHoldsRecord_of_mem {items : List Json} (hmem : v ∈ items) (h : holdsRecord v) :
    anyHoldsRecord items := by
  induction items with
  | nil => contradiction
  | cons item rest ih =>
    rw [anyHoldsRecord, Bool.or_eq_true]
    rcases List.mem_cons.1 hmem with rfl | hmem
    · exact .inl h
    · exact .inr (ih hmem)

theorem holdsRecord_array {items : List Json} (hmem : v ∈ items) (h : holdsRecord v) :
    holdsRecord (.array items) := by
  rw [holdsRecord]
  exact anyHoldsRecord_of_mem hmem h

end SolidityTree.Record
