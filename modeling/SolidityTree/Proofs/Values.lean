import SolidityTree.Payload.Printing
import SolidityTree.Record
import SolidityTree.Proofs.SpanTexts
import Mathlib.Data.List.Nodup
import Mathlib.Data.String.Basic

/-!
# Values that are read back

What is written into a record comes out of it again: spans (`Span.ofText_text`), words of the closed
vocabularies (`LawfulVocabulary`), and fields under their keys (`Json.get?_mkObject_of_mem`).  So
whatever `Record` reads from a field is the value that the field was given.
-/

namespace SolidityTree

/-! ### Words -/

/-- The words of the vocabulary differ, so each stands for its value. -/
class LawfulVocabulary (α : Type) [Vocabulary α] : Prop where
  ofWord?_word : ∀ a : α, Vocabulary.ofWord? (Vocabulary.word a) = some a

instance : LawfulVocabulary Kind := ⟨fun kind => by cases kind <;> decide⟩
instance : LawfulVocabulary ContractKind := ⟨fun kind => by cases kind <;> decide⟩
instance : LawfulVocabulary FunctionKind := ⟨fun kind => by cases kind <;> decide⟩
instance : LawfulVocabulary Visibility := ⟨fun visibility => by cases visibility <;> decide⟩
instance : LawfulVocabulary StateMutability := ⟨fun mutability => by cases mutability <;> decide⟩
instance : LawfulVocabulary Mutability := ⟨fun mutability => by cases mutability <;> decide⟩
instance : LawfulVocabulary DataLocation := ⟨fun location => by cases location <;> decide⟩
instance : LawfulVocabulary LiteralKind := ⟨fun kind => by cases kind <;> decide⟩
instance : LawfulVocabulary CallKind := ⟨fun kind => by cases kind <;> decide⟩

/-! ### Fields -/

namespace Json

theorem lookup_cons_ite {κ α : Type} [BEq κ] [LawfulBEq κ] [DecidableEq κ] (k key : κ) (value : α)
    (entries : List (κ × α)) :
    List.lookup k ((key, value) :: entries) = if k = key then some value else entries.lookup k := by
  rw [List.lookup_cons]
  by_cases hk : k = key
  · rw [if_pos hk, beq_iff_eq.2 hk]
  · rw [if_neg hk, beq_eq_false_iff_ne.2 hk]

theorem lookup_insertEntry {α : Type} (key : String) (value : α) (entries : List (String × α))
    (k : String) : (insertEntry key value entries).lookup k =
      if k = key then some value else entries.lookup k := by
  induction entries with
  | nil => rw [insertEntry, lookup_cons_ite]
  | cons entry rest ih =>
    obtain ⟨k', v⟩ := entry
    rw [insertEntry]
    split
    · rw [lookup_cons_ite]
    · split
      · next heq =>
        subst heq
        rw [lookup_cons_ite, lookup_cons_ite]
        by_cases hk : k = key <;> simp [hk]
      · next hne =>
        rw [lookup_cons_ite, lookup_cons_ite, ih]
        by_cases hk : k = k'
        · subst hk
          rw [if_pos rfl, if_pos rfl, if_neg (Ne.symm hne)]
        · rw [if_neg hk, if_neg hk]

/-- **A field is found under its key**, the last one where a key is given more than once. -/
theorem get?_mkObject (entries : List (String × Json)) (key : String) :
    (mkObject entries).get? key = entries.reverse.lookup key := by
  rw [mkObject, ← List.foldr_reverse]
  show List.lookup key (entries.reverse.foldr (fun entry sorted =>
    insertEntry entry.1 entry.2 sorted) []) = _
  induction entries.reverse with
  | nil => rfl
  | cons entry rest ih =>
    obtain ⟨k, v⟩ := entry
    rw [List.foldr_cons, lookup_insertEntry, ih, lookup_cons_ite]

theorem get?_mkObject_of_mem {entries : List (String × Json)} {key : String} {value : Json}
    (hkeys : (entries.map Prod.fst).Nodup) (h : (key, value) ∈ entries) :
    (mkObject entries).get? key = some value := by
  rw [get?_mkObject]
  have hkeys : (entries.reverse.map Prod.fst).Nodup := by
    rwa [List.map_reverse, List.nodup_reverse]
  have h : (key, value) ∈ entries.reverse := List.mem_reverse.2 h
  generalize entries.reverse = entries at hkeys h
  induction entries with
  | nil => contradiction
  | cons entry rest ih =>
    obtain ⟨k, v⟩ := entry
    rw [List.map_cons, List.nodup_cons] at hkeys
    rw [lookup_cons_ite]
    rcases List.mem_cons.1 h with heq | hrest
    · cases heq
      rw [if_pos rfl]
    · have hne : key ≠ k := by
        rintro rfl
        exact hkeys.1 (List.mem_map.2 ⟨_, hrest, rfl⟩)
      rw [if_neg hne, ih hkeys.2 hrest]

/-- The value is an object with the entries among its fields. -/
def Has (r : Json) (entries : List (String × Json)) : Prop :=
  ∀ entry ∈ entries, r.get? entry.1 = some entry.2

theorem Has.mono {r : Json} {entries entries' : List (String × Json)} (h : r.Has entries)
    (hsub : entries' ⊆ entries) : r.Has entries' := fun entry hentry => h entry (hsub hentry)

theorem has_cons {r : Json} {entry : String × Json} {entries : List (String × Json)} :
    r.Has (entry :: entries) ↔ r.get? entry.1 = some entry.2 ∧ r.Has entries :=
  List.forall_mem_cons

/-- Where no key is given twice, all entries are fields. -/
theorem has_mkObject {entries : List (String × Json)} (hkeys : (entries.map Prod.fst).Nodup) :
    (mkObject entries).Has entries := fun _ hentry => get?_mkObject_of_mem hkeys hentry

theorem insertEntry_of_lt {α : Type} {key : String} {value : α} {entries : List (String × α)}
    (h : ∀ entry ∈ entries, entry.1 < key) :
    insertEntry key value entries = entries ++ [(key, value)] := by
  induction entries with
  | nil => rfl
  | cons entry rest ih =>
    obtain ⟨k, v⟩ := entry
    obtain ⟨hk, hrest⟩ := List.forall_mem_cons.1 h
    have hk : k < key := hk
    rw [insertEntry, if_neg (lt_asymm hk), if_neg hk.ne', ih hrest, List.cons_append]

/-- Entries that are in order stay as they are. -/
theorem mkObject_of_pairwise {entries : List (String × Json)}
    (h : entries.Pairwise (·.1 < ·.1)) : mkObject entries = .object entries := by
  have hfold : ∀ sorted, (sorted ++ entries).Pairwise (·.1 < ·.1) →
      entries.foldl (fun sorted entry => insertEntry entry.1 entry.2 sorted) sorted =
        sorted ++ entries := by
    clear h
    induction entries with
    | nil => simp
    | cons entry rest ih =>
      intro sorted h
      obtain ⟨k, v⟩ := entry
      have hlt := (List.pairwise_append.1 h).2.2
      have hinsert : insertEntry k v sorted = sorted ++ [(k, v)] :=
        insertEntry_of_lt fun entry hentry => hlt entry hentry _ List.mem_cons_self
      show List.foldl _ (insertEntry k v sorted) rest = _
      rw [hinsert, ih _ (by simpa using h), List.append_assoc, List.singleton_append]
  show object (entries.foldl (fun sorted entry => insertEntry entry.1 entry.2 sorted) []) = _
  rw [hfold [] h, List.nil_append]

theorem int64?_int {n : Int} (h : Word.isSigned n) : (int n).int64? = some n := by
  show (if Word.isSigned n then some n else none) = some n
  rw [if_pos h]

end Json

namespace Record

variable {α : Type} [Vocabulary α] [LawfulVocabulary α] {r value : Json} {key : String}

theorem field?_eq (h : r.get? key = some value) (hnull : value.isNull = false) :
    field? r key = some value := by
  rw [field?, h, Option.filter_some, hnull, Bool.not_false, if_pos rfl]

theorem isNull_of_isObject (h : value.isObject) : value.isNull = false := by
  cases value <;> first | rfl | contradiction

theorem exists_eq_object (h : value.isObject) : ∃ fields, value = .object fields := by
  cases value <;> first | exact ⟨_, rfl⟩ | contradiction

theorem field?_eq_none (h : r.get? key = some .null) : field? r key = none := by
  rw [field?, h]
  rfl

theorem text?_eq {s? : Option String} (h : r.get? key = some (.text? s?)) : text? r key = s? := by
  cases s? with
  | none => rw [text?, field?_eq_none h, Option.bind_none]
  | some s =>
    rw [text?, field?_eq h rfl]
    rfl

theorem text_eq {s : String} (h : r.get? key = some (.string s)) : text r key = s := by
  have htext : text? r key = some s := text?_eq h
  rw [text, htext, Option.getD_some]

theorem requiredText_eq {s : String} (h : r.get? key = some (.string s)) :
    requiredText r key = .ok s := by
  rw [requiredText, required, field?_eq h rfl]
  rfl

theorem flag_eq {b : Bool} (h : r.get? key = some (.bool b)) : flag r key = b := by
  rw [flag, field?_eq h rfl]
  rfl

theorem int64?_eq {n : Int} (hn : Word.isSigned n) (h : r.get? key = some (.int n)) :
    (field? r key).bind Json.int64? = some n := by
  rw [field?_eq h rfl, Option.bind_some, Json.int64?_int hn]

theorem reference_eq {n : NodeId} (hn : Word.isSigned n) (h : r.get? key = some (.int n)) :
    reference r key = n := by
  rw [reference, int64?_eq hn h, Option.getD_some]

theorem items_eq {values : List Json} (h : r.get? key = some (.array values)) :
    items r key = values := by
  rw [items, field?_eq h rfl]
  rfl

theorem ids_eq {ns : List NodeId} (hns : ns.all Word.isSigned) (h : r.get? key = some (.ids ns)) :
    ids r key = ns := by
  rw [ids, items_eq h, List.filterMap_map]
  rw [List.all_eq_true] at hns
  exact (List.filterMap_congr fun n hn => Json.int64?_int (hns n hn)).trans List.filterMap_some

theorem texts_eq {ss : List String} (h : r.get? key = some (.ofList .string ss)) :
    texts r key = ss := by
  rw [texts, items_eq h, List.filterMap_map]
  exact List.filterMap_some

theorem assignments_eq {places : List (Option NodeId)} (hplaces : places.all (·.all Word.isSigned))
    (h : r.get? "assignments" = some (.ofList (.ofOption .int) places)) :
    assignments r = places := by
  rw [assignments, items_eq h, List.map_map]
  rw [List.all_eq_true] at hplaces
  refine (List.map_congr_left fun place hplace => ?_).trans (List.map_id places)
  cases place with
  | none => rfl
  | some n => exact Json.int64?_int (hplaces _ hplace)

theorem word_eq {a : α} (h : r.get? key = some (.ofWord a)) : word α r key = .ok a := by
  rw [word, requiredText_eq h]
  dsimp only [bind, Except.bind]
  rw [LawfulVocabulary.ofWord?_word]

theorem word?_eq {a : α} (h : r.get? key = some (.ofWord a)) : word? α r key = .ok (some a) := by
  rw [word?, field?_eq h rfl, Option.isSome_some, if_pos rfl, word_eq h]
  rfl

theorem wordD_eq {a : α} (h : r.get? key = some (.ofWord a)) (default : α) :
    wordD r key default = .ok a := by
  rw [wordD, word?_eq h]
  rfl

theorem span?_eq {s? : Option Span} (hs : s?.all (·.Fits))
    (h : r.get? key = some (.ofOption (fun s => .string s.text) s?)) : span? r key = .ok s? := by
  cases s? with
  | none => rw [span?, field?_eq_none h]
  | some s =>
    rw [Option.all_some, decide_eq_true_eq] at hs
    rw [span?, field?_eq h rfl]
    dsimp only [Json.ofOption]
    rw [Span.ofText_text hs]

theorem src_eq {s : Span} (hs : s.Fits) (h : r.get? "src" = some (.string s.text)) :
    src r = .ok s := by
  have hspan : span? r "src" = .ok (some s) := span?_eq (by simpa using hs) h
  rw [src, hspan]
  rfl

theorem id?_eq {n : NodeId} (hn : Word.isSigned n) (h : r.get? "id" = some (.int n)) :
    id? r = .ok (some n) := by
  rw [id?, field?_eq h rfl]
  dsimp only
  rw [Json.int64?_int hn]

theorem exportedSymbols_eq {symbols : List (String × NodeId)}
    (hsorted : symbols.Pairwise (·.1 < ·.1)) (hsymbols : symbols.all (Word.isSigned ·.2))
    (h : r.get? "exportedSymbols" =
      some (.mkObject (symbols.map fun (name, id) => (name, .ids [id])))) :
    exportedSymbols r = symbols := by
  rw [Json.mkObject_of_pairwise (List.pairwise_map.2 hsorted)] at h
  rw [List.all_eq_true] at hsymbols
  rw [exportedSymbols, field?_eq h rfl]
  show List.filterMap _ (symbols.map _) = symbols
  rw [List.filterMap_map]
  refine (List.filterMap_congr fun symbol hsymbol => ?_).trans List.filterMap_some
  have hid := Json.int64?_int (hsymbols symbol hsymbol)
  show Option.map _ (Json.int64? (.int symbol.2)) = some symbol
  rw [hid]
  rfl

end Record

end SolidityTree
