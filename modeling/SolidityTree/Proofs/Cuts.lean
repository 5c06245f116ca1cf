import SolidityTree.Text.Blank
import Mathlib.Data.List.TakeWhile

/-!
# Blanks, cuts and patterns

What trimming, cutting and looking for a pattern do to a text, in the terms of the list library:
`Text.split` and `Text.join` are `List.splitOn` and `List.intercalate`, so each undoes the other,
and a pattern occurs where it is an infix.
-/

namespace SolidityTree.Text

variable {cs ds blanks pattern : List Char} {c : Char}

/-! ### Blanks -/

theorem trimStart_append (h : ∀ c ∈ blanks, isBlank c) : trimStart (blanks ++ cs) = trimStart cs :=
  List.dropWhile_append_of_pos h

/-- Blanks at the beginning are all that is missing. -/
theorem exists_append_trimStart (cs : List Char) :
    ∃ blanks, (∀ c ∈ blanks, isBlank c) ∧ blanks ++ trimStart cs = cs :=
  ⟨cs.takeWhile isBlank, fun _ => List.mem_takeWhile_imp, List.takeWhile_append_dropWhile⟩

theorem trimEnd_append (h : ∀ c ∈ blanks, isBlank c) : trimEnd (cs ++ blanks) = trimEnd cs := by
  rw [trimEnd, List.reverse_append, List.dropWhile_append_of_pos, trimEnd]
  exact fun c hc => h c (List.mem_reverse.1 hc)

/-- Blanks at the end are all that is missing. -/
theorem exists_trimEnd_append (cs : List Char) :
    ∃ blanks, (∀ c ∈ blanks, isBlank c) ∧ trimEnd cs ++ blanks = cs := by
  refine ⟨(cs.reverse.takeWhile isBlank).reverse, fun c hc => ?_, ?_⟩
  · exact List.mem_takeWhile_imp (List.mem_reverse.1 hc)
  · rw [trimEnd, ← List.reverse_append, List.takeWhile_append_dropWhile, List.reverse_reverse]

/-- The end is trimmed no further than a character that is no blank. -/
theorem trimEnd_append_cons (h : ¬ isBlank c) :
    trimEnd (cs ++ c :: ds) = cs ++ c :: trimEnd ds := by
  rw [trimEnd, List.reverse_append, List.reverse_cons, List.append_assoc, List.dropWhile_append]
  split
  · next hblank =>
    rw [trimEnd, List.isEmpty_iff.1 hblank, List.singleton_append, List.dropWhile_cons_of_neg h]
    simp
  · rw [List.reverse_append, List.reverse_append, List.reverse_reverse, trimEnd]
    simp

/-- Blanks at both ends do not count. -/
theorem trim_append_append {before after : List Char} (hbefore : ∀ c ∈ before, isBlank c)
    (hafter : ∀ c ∈ after, isBlank c) : trim (before ++ (cs ++ after)) = trim cs := by
  rw [trim, trimStart_append hbefore, trim, trimStart, trimStart, List.dropWhile_append]
  split
  · next hblank =>
    rw [List.isEmpty_iff.1 hblank, List.dropWhile_eq_nil_iff.2 hafter]
  · exact trimEnd_append hafter

/-! ### Cuts -/

theorem split_eq_splitOn (separator : Char) (cs : List Char) :
    split separator cs = cs.splitOn separator := by
  induction cs with
  | nil => rfl
  | cons c rest ih =>
    rw [split, ih, List.splitOn, List.splitOn, List.splitOnP_cons_eq_if_modifyHead]
    by_cases hc : c = separator
    · simp [hc]
    · rw [if_neg hc, if_neg (by simpa using hc)]
      cases h : rest.splitOnP (· == separator) with
      | nil => exact absurd h (List.splitOnP_ne_nil _ _)
      | cons part parts => rfl

theorem join_eq_intercalate (separator : Char) (parts : List (List Char)) :
    join separator parts = [separator].intercalate parts := by
  induction parts using join.induct with
  | case1 => rfl
  | case2 part => simp [join, List.intercalate]
  | case3 part parts hparts ih =>
    obtain ⟨next, parts, rfl⟩ := List.exists_cons_of_ne_nil hparts
    rw [join, ih] <;> simp [List.intercalate]

/-- The parts put together again are the text. -/
theorem join_split (separator : Char) (cs : List Char) :
    join separator (split separator cs) = cs := by
  rw [join_eq_intercalate, split_eq_splitOn, List.intercalate_splitOn]

/-- Parts without separators are found again. -/
theorem split_join {separator : Char} {parts : List (List Char)}
    (h : ∀ part ∈ parts, separator ∉ part) (hne : parts ≠ []) :
    split separator (join separator parts) = parts := by
  rw [join_eq_intercalate, split_eq_splitOn, List.splitOn_intercalate separator h hne]

theorem split_append_cons (separator : Char) (cs ds : List Char) :
    split separator (cs ++ separator :: ds) = split separator cs ++ split separator ds := by
  rw [split_eq_splitOn, split_eq_splitOn, split_eq_splitOn]
  exact List.splitOnP_append_cons cs ds (beq_self_eq_true separator)

theorem join_cons (separator : Char) (part : List Char) {parts : List (List Char)}
    (h : parts ≠ []) :
    join separator (part :: parts) = part ++ separator :: join separator parts := by
  obtain ⟨next, parts, rfl⟩ := List.exists_cons_of_ne_nil h
  rfl

/-- The first part is what the whole begins with. -/
theorem prefix_join (separator : Char) (part : List Char) (parts : List (List Char)) :
    part <+: join separator (part :: parts) := by
  cases parts with
  | nil => exact List.prefix_rfl
  | cons next parts => exact List.prefix_append _ _

theorem join_append_left (separator : Char) (before part : List Char) (parts : List (List Char)) :
    join separator ((before ++ part) :: parts) = before ++ join separator (part :: parts) := by
  cases parts with
  | nil => rfl
  | cons next parts => exact List.append_assoc _ _ _

theorem join_append {separator : Char} {parts rest : List (List Char)} (hparts : parts ≠ [])
    (hrest : rest ≠ []) : join separator (parts ++ rest) =
      join separator parts ++ separator :: join separator rest := by
  induction parts using join.induct with
  | case1 => contradiction
  | case2 part => exact join_cons separator part hrest
  | case3 part parts hne ih =>
    rw [List.cons_append, join_cons separator part (by simp [hrest]), ih hne,
      join_cons separator part hne, List.append_assoc, List.cons_append]

/-- The last parts are what the whole ends with. -/
theorem suffix_join {separator : Char} {parts rest : List (List Char)} (hrest : rest ≠ [])
    (h : rest <:+ parts) : join separator rest <:+ join separator parts := by
  obtain ⟨before, rfl⟩ := h
  by_cases hbefore : before = []
  · subst hbefore
    exact List.suffix_rfl
  · rw [join_append hbefore hrest]
    exact ⟨join separator before ++ [separator], by simp⟩

/-! ### Patterns -/

theorem occurs_iff : occurs pattern cs ↔ pattern <:+: cs := by
  induction cs with
  | nil => simp [occurs]
  | cons c rest ih =>
    rw [occurs, Bool.or_eq_true, List.isPrefixOf_iff_prefix, ih, List.infix_cons_iff]

theorem dropFirst_of_not_occurs (h : ¬ occurs pattern cs) : dropFirst pattern cs = cs := by
  induction cs with
  | nil => rfl
  | cons c rest ih =>
    rw [occurs, Bool.or_eq_true, not_or] at h
    rw [dropFirst, if_neg h.1, ih h.2]

/-- A pattern that begins a text is what is dropped. -/
theorem dropFirst_append (hne : pattern ≠ []) (cs : List Char) :
    dropFirst pattern (pattern ++ cs) = cs := by
  obtain ⟨p, rest, rfl⟩ := List.exists_cons_of_ne_nil hne
  rw [List.cons_append, dropFirst, if_pos, ← List.cons_append, List.drop_left]
  exact List.isPrefixOf_iff_prefix.2 (List.prefix_append (p :: rest) cs)

/-- What is dropped is taken out of the middle. -/
theorem exists_dropFirst (h : occurs pattern cs) :
    ∃ before after, before ++ (pattern ++ after) = cs ∧ dropFirst pattern cs = before ++ after := by
  induction cs with
  | nil =>
    obtain rfl : pattern = [] := by simpa [occurs] using h
    exact ⟨[], [], rfl, rfl⟩
  | cons c rest ih =>
    rw [occurs, Bool.or_eq_true] at h
    rw [dropFirst]
    split
    · next hprefix =>
      obtain ⟨after, hafter⟩ := List.isPrefixOf_iff_prefix.1 hprefix
      exact ⟨[], after, hafter, by rw [← hafter, List.drop_left, List.nil_append]⟩
    · next hprefix =>
      obtain ⟨before, after, hsplit, hdrop⟩ := ih (h.resolve_left hprefix)
      refine ⟨c :: before, after, ?_, ?_⟩
      · rw [← hsplit, List.cons_append]
      · rw [hdrop, List.cons_append]

end SolidityTree.Text
