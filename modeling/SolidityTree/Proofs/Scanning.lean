import SolidityTree.Comment
import SolidityTree.Proofs.Cuts

/-!
# Which comment a text ends with

What `Comment.trailing?` finds is a comment that the text ends with, blanks aside
(`Comment.append_trailing?`).  The last two characters decide whether a block or a run of lines is
looked for, and a block is taken to open with the last `/**`.  So a run is found whole unless its
last line ends with `*/` (`Comment.trailing?_run_iff`), and a block is found whole unless another
`/**` stands inside it (`Comment.trailing?_block_iff`).
-/

namespace SolidityTree.Comment

open Text

variable {cs before comment blanks body pattern : List Char}

/-! ### The last occurrence of a pattern -/

theorem splitLast?_eq_none_iff (hne : pattern ≠ []) :
    splitLast? pattern cs = none ↔ ¬ occurs pattern cs := by
  induction cs with
  | nil => simp [splitLast?, occurs, hne]
  | cons c rest ih =>
    rw [splitLast?, occurs, Bool.or_eq_true, not_or, ← ih]
    cases splitLast? pattern rest with
    | none => simp
    | some found => simp

/-- A text is split where the pattern begins for the last time. -/
theorem splitLast?_eq_some_iff (hne : pattern ≠ []) :
    splitLast? pattern cs = some (before, comment) ↔
      before ++ comment = cs ∧ pattern <+: comment ∧ ¬ occurs pattern comment.tail := by
  induction cs generalizing before comment with
  | nil =>
    refine ⟨fun h => (Option.some_ne_none _ h.symm).elim, fun ⟨happend, hprefix, _⟩ => ?_⟩
    obtain ⟨-, rfl⟩ := List.append_eq_nil_iff.1 happend
    exact absurd (List.prefix_nil.1 hprefix) hne
  | cons c rest ih =>
    rw [splitLast?]
    cases hrest : splitLast? pattern rest with
    | some found =>
      obtain ⟨before', comment'⟩ := found
      obtain ⟨happend', hprefix', hlast'⟩ := ih.1 hrest
      constructor
      · intro h
        cases h
        exact ⟨by rw [List.cons_append, happend'], hprefix', hlast'⟩
      · rintro ⟨happend, hprefix, hlast⟩
        cases before with
        | nil =>
          -- the occurrence in the rest comes later
          obtain rfl : comment = c :: rest := happend
          refine absurd (occurs_iff.2 ?_) hlast
          rw [List.tail_cons, ← happend']
          exact hprefix'.isInfix.trans (List.suffix_append _ _).isInfix
        | cons d before =>
          obtain ⟨rfl, htail⟩ := List.cons.inj happend
          cases hrest.symm.trans (ih.2 ⟨htail, hprefix, hlast⟩)
          rfl
    | none =>
      have hnot := (splitLast?_eq_none_iff hne).1 hrest
      constructor
      · intro h
        dsimp only at h
        split at h
        · next hprefix =>
          cases h
          exact ⟨rfl, List.isPrefixOf_iff_prefix.1 hprefix, hnot⟩
        · contradiction
      · rintro ⟨happend, hprefix, hlast⟩
        cases before with
        | nil =>
          obtain rfl : comment = c :: rest := happend
          exact if_pos (List.isPrefixOf_iff_prefix.2 hprefix)
        | cons d before =>
          obtain ⟨rfl, rfl⟩ := List.cons.inj happend
          refine absurd (occurs_iff.2 ?_) hnot
          exact hprefix.isInfix.trans (List.suffix_append _ _).isInfix

/-! ### Blocks -/

theorem block?_eq_some_iff :
    block? cs = some (before, comment) ↔ splitLast? "/**".toList cs = some (before, comment) ∧
      5 ≤ comment.length ∧ ¬ occurs "*/".toList ((comment.drop 3).take (comment.length - 5)) := by
  unfold block?
  cases splitLast? "/**".toList cs with
  | none => simp
  | some found =>
    obtain ⟨before', comment'⟩ := found
    dsimp only
    constructor
    · intro h
      split at h
      · next hwhole =>
        cases h
        exact ⟨rfl, by simpa using hwhole⟩
      · contradiction
    · rintro ⟨h, hwhole⟩
      cases h
      exact if_pos (by simpa using hwhole)

/-! ### Runs of lines -/

/-- A line of a run: indentation, the mark and what follows. -/
structure CommentLine where
  indent : List Char
  text : List Char
  isBlank_indent : ∀ c ∈ indent, isBlank c
  indent_inline : '\n' ∉ indent
  text_inline : '\n' ∉ text

namespace CommentLine

variable {first next : CommentLine} {rest : List CommentLine}

/-- The line from its mark on. -/
def marked (l : CommentLine) : List Char := "///".toList ++ l.text

/-- The whole line. -/
def chars (l : CommentLine) : List Char := l.indent ++ l.marked

theorem chars_inline (l : CommentLine) : '\n' ∉ l.chars := by
  simp [chars, marked, l.indent_inline, l.text_inline]

theorem trimStart_chars (l : CommentLine) : trimStart l.chars = l.marked := by
  rw [chars, trimStart_append l.isBlank_indent]
  rfl

theorem isCommentLine_chars (l : CommentLine) : isCommentLine l.chars := by
  rw [isCommentLine, trimStart_chars, List.isPrefixOf_iff_prefix]
  exact List.prefix_append _ _

/-- A run of lines, from its first mark on. -/
def run (first : CommentLine) (rest : List CommentLine) : List Char :=
  join '\n' (first.marked :: rest.map chars)

theorem join_chars (first : CommentLine) (rest : List CommentLine) :
    join '\n' ((first :: rest).map chars) = first.indent ++ run first rest :=
  join_append_left '\n' first.indent first.marked (rest.map chars)

theorem run_cons (first next : CommentLine) (rest : List CommentLine) :
    run first (next :: rest) = first.marked ++ '\n' :: (next.indent ++ run next rest) := by
  rw [← join_chars]
  rfl

theorem prefix_run (first : CommentLine) (rest : List CommentLine) :
    "///".toList <+: run first rest :=
  (List.prefix_append "///".toList first.text).trans (prefix_join _ _ _)

/-- The mark of a run is not trimmed. -/
theorem trimEnd_append_run (cs : List Char) (first : CommentLine) (rest : List CommentLine) :
    trimEnd (cs ++ run first rest) = cs ++ trimEnd (run first rest) := by
  obtain ⟨tail, htail⟩ := prefix_run first rest
  have hmark : ¬ isBlank '/' := by decide
  rw [← htail]
  show trimEnd (cs ++ '/' :: ("//".toList ++ tail)) =
    cs ++ trimEnd ([] ++ '/' :: ("//".toList ++ tail))
  rw [trimEnd_append_cons hmark, trimEnd_append_cons hmark, List.nil_append]

/-- The line without the blanks at its end. -/
def trimmed (l : CommentLine) : CommentLine :=
  { l with
    text := trimEnd l.text
    text_inline := fun hmem => by
      obtain ⟨blanks, -, htext⟩ := exists_trimEnd_append l.text
      exact l.text_inline (htext ▸ List.mem_append_left _ hmem) }

theorem marked_trimmed (l : CommentLine) : l.trimmed.marked = trimEnd l.marked := by
  show _ = trimEnd ("//".toList ++ '/' :: l.text)
  rw [trimEnd_append_cons (by decide)]
  rfl

/-- Trimming makes a run of a run: only the last line changes, since no line is blank. -/
theorem exists_run_eq_trimEnd (first : CommentLine) (rest : List CommentLine) :
    ∃ first' rest', first'.indent = first.indent ∧ run first' rest' = trimEnd (run first rest) := by
  induction rest generalizing first with
  | nil => exact ⟨first.trimmed, [], rfl, marked_trimmed first⟩
  | cons next rest ih =>
    obtain ⟨next', rest', hindent, hrun⟩ := ih next
    refine ⟨first, next' :: rest', rfl, ?_⟩
    rw [run_cons, run_cons, hindent, hrun]
    simp only [← List.cons_append, ← List.append_assoc, trimEnd_append_run]

end CommentLine

open CommentLine

variable {first : CommentLine} {rest : List CommentLine}

/-- The last line of a text. -/
def lastLine (cs : List Char) : List Char := (split '\n' cs).getLastD []

/-- A comment line that follows begins a run: the text is empty, or it ends with a line that is no
comment line, and its line end. -/
def BeginsRun (before : List Char) : Prop :=
  before = [] ∨ ∃ text, before = text ++ ['\n'] ∧ ¬ isCommentLine (lastLine text)

/-- The lines of the run are the last of all lines, up to the first that is no comment line. -/
theorem lineRun?_append (hbefore : BeginsRun before) :
    lineRun? (before ++ first.indent ++ run first rest) =
      some (before ++ first.indent, run first rest) := by
  have hrun : split '\n' (first.indent ++ run first rest) = (first :: rest).map chars := by
    rw [← join_chars]
    refine split_join (fun part hpart => ?_) (by simp)
    obtain ⟨l, -, rfl⟩ := List.mem_map.1 hpart
    exact l.chars_inline
  have hsplit : ∃ lines, split '\n' (before ++ first.indent ++ run first rest) =
      lines ++ (first :: rest).map chars ∧ lines.reverse.takeWhile isCommentLine = [] := by
    obtain rfl | ⟨text, rfl, hlast⟩ := hbefore
    · exact ⟨[], by rw [List.nil_append, List.nil_append, hrun], rfl⟩
    · refine ⟨split '\n' text, ?_, ?_⟩
      · rw [List.append_assoc, List.append_assoc, List.singleton_append, split_append_cons, hrun]
      · rw [lastLine, List.getLastD_eq_getLast?, ← List.head?_reverse] at hlast
        cases h : (split '\n' text).reverse with
        | nil => rfl
        | cons last lines =>
          rw [h] at hlast
          exact List.takeWhile_cons_of_neg hlast
  obtain ⟨lines, hsplit, hlines⟩ := hsplit
  have hcomments : ∀ line ∈ ((first :: rest).map chars).reverse, isCommentLine line := by
    intro line hline
    obtain ⟨l, -, rfl⟩ := List.mem_map.1 (List.mem_reverse.1 hline)
    exact l.isCommentLine_chars
  unfold lineRun?
  rw [hsplit, List.reverse_append, List.takeWhile_append_of_pos hcomments, hlines, List.append_nil,
    List.reverse_reverse, List.map_cons]
  dsimp only
  rw [trimStart_chars]
  show some (List.take (_ - (run first rest).length) _, run first rest) = _
  rw [List.length_append, Nat.add_sub_cancel, List.take_left]

/-- A run is what the text ends with, and begins with its mark. -/
theorem append_lineRun? (h : lineRun? cs = some (before, comment)) :
    before ++ comment = cs ∧ "///".toList <+: comment := by
  unfold lineRun? at h
  cases hrun : ((split '\n' cs).reverse.takeWhile isCommentLine).reverse with
  | nil =>
    rw [hrun] at h
    contradiction
  | cons line lines =>
    rw [hrun] at h
    have hsuffix : line :: lines <:+ split '\n' cs := by
      rw [← hrun, ← List.reverse_prefix, List.reverse_reverse]
      exact List.takeWhile_prefix _
    have hline : isCommentLine line := by
      have hmem : line ∈ ((split '\n' cs).reverse.takeWhile isCommentLine).reverse := by
        rw [hrun]
        exact List.mem_cons_self
      exact List.mem_takeWhile_imp (List.mem_reverse.1 hmem)
    have hcomment : join '\n' (trimStart line :: lines) <:+ cs := by
      obtain ⟨indent, -, hindent⟩ := exists_append_trimStart line
      have hlines : join '\n' (line :: lines) <:+ join '\n' (split '\n' cs) :=
        suffix_join (List.cons_ne_nil _ _) hsuffix
      rw [join_split, ← hindent, join_append_left] at hlines
      exact (List.suffix_append _ _).trans hlines
    cases h
    refine ⟨?_, (List.isPrefixOf_iff_prefix.1 hline).trans (prefix_join _ _ _)⟩
    obtain ⟨before, rfl⟩ := hcomment
    rw [List.length_append, Nat.add_sub_cancel, List.take_left]

/-! ### Comments at the end of a text -/

theorem append_block? (h : block? cs = some (before, comment)) :
    before ++ comment = cs ∧ "/**".toList <+: comment := by
  obtain ⟨happend, hprefix, -⟩ := (splitLast?_eq_some_iff (by decide)).1 (block?_eq_some_iff.1 h).1
  exact ⟨happend, hprefix⟩

theorem append_trailing? (h : trailing? cs = some (before, comment)) :
    (∃ blanks, (∀ c ∈ blanks, isBlank c) ∧ before ++ (comment ++ blanks) = cs) ∧
      ("///".toList <+: comment ∨ "/**".toList <+: comment) := by
  have hfound : before ++ comment = trimEnd cs ∧
      ("///".toList <+: comment ∨ "/**".toList <+: comment) := by
    unfold trailing? at h
    dsimp only at h
    split at h
    · exact (append_block? h).imp_right .inr
    · exact (append_lineRun? h).imp_right .inl
  obtain ⟨blanks, hblanks, hcs⟩ := exists_trimEnd_append cs
  exact ⟨⟨blanks, hblanks, by rw [← List.append_assoc, hfound.1, hcs]⟩, hfound.2⟩

/-- A run is taken for the end of a block if it ends with `*/`. -/
theorem trailing?_run_iff (hbefore : BeginsRun before) (hblanks : ∀ c ∈ blanks, isBlank c) :
    trailing? (before ++ join '\n' ((first :: rest).map chars) ++ blanks) =
        some (before ++ first.indent, trimEnd (run first rest)) ↔
      ¬ "*/".toList <:+ trimEnd (run first rest) := by
  obtain ⟨first', rest', hindent, hrun⟩ := exists_run_eq_trimEnd first rest
  have htrim : trimEnd (before ++ join '\n' ((first :: rest).map chars) ++ blanks) =
      before ++ first'.indent ++ run first' rest' := by
    rw [trimEnd_append hblanks, join_chars, ← List.append_assoc, trimEnd_append_run, hindent, hrun]
  have hends : "*/".toList <:+ before ++ first'.indent ++ run first' rest' ↔
      "*/".toList <:+ run first' rest' := by
    refine ⟨fun h => ?_, fun h => h.trans (List.suffix_append _ _)⟩
    have hlength : "///".toList.length ≤ (run first' rest').length :=
      (prefix_run first' rest').length_le
    have hshort : "*/".toList.length ≤ "///".toList.length := by decide
    exact List.suffix_of_suffix_length_le h (List.suffix_append _ _) (hshort.trans hlength)
  rw [← hrun, ← hindent, ← hends, ← List.isSuffixOf_iff_suffix]
  unfold trailing?
  rw [htrim]
  dsimp only
  split
  · next hclosing =>
    refine ⟨fun h => ?_, fun h => absurd hclosing h⟩
    -- a block does not begin with the mark of a line
    obtain ⟨tail, htail⟩ := prefix_run first' rest'
    obtain ⟨-, tail', htail'⟩ := append_block? h
    rw [← htail] at htail'
    cases htail'
  · next hclosing => exact ⟨fun _ => hclosing, fun _ => lineRun?_append hbefore⟩

/-- A block is taken to begin with the last opening mark. -/
theorem trailing?_block_iff (hbody : ¬ occurs "*/".toList body)
    (hblanks : ∀ c ∈ blanks, isBlank c) :
    trailing? (before ++ ("/**".toList ++ (body ++ "*/".toList)) ++ blanks) =
        some (before, "/**".toList ++ (body ++ "*/".toList)) ↔
      ¬ occurs "/**".toList (body ++ "*/".toList) := by
  have htrim : trimEnd (before ++ ("/**".toList ++ (body ++ "*/".toList)) ++ blanks) =
      before ++ ("/**".toList ++ (body ++ "*/".toList)) := by
    rw [trimEnd_append hblanks]
    have hlast : ∀ cs, trimEnd (cs ++ "*/".toList) = cs ++ "*/".toList := fun cs => by
      show trimEnd (cs ++ (['*'] ++ '/' :: [])) = _
      rw [← List.append_assoc, trimEnd_append_cons (by decide)]
      simp [trimEnd]
    rw [← List.append_assoc, ← List.append_assoc, hlast]
  have hends : "*/".toList.isSuffixOf (before ++ ("/**".toList ++ (body ++ "*/".toList))) := by
    rw [List.isSuffixOf_iff_suffix]
    exact ⟨before ++ ("/**".toList ++ body), by simp⟩
  have hinside : (("/**".toList ++ (body ++ "*/".toList)).drop 3).take
      (("/**".toList ++ (body ++ "*/".toList)).length - 5) = body := by
    have hlength : ("/**".toList ++ (body ++ "*/".toList)).length - 5 = body.length := by simp
    rw [hlength]
    exact List.take_left
  have hlong : 5 ≤ ("/**".toList ++ (body ++ "*/".toList)).length := by
    simp
  -- no occurrence begins in the second or the third character
  have hlater : occurs "/**".toList ("/**".toList ++ (body ++ "*/".toList)).tail =
      occurs "/**".toList (body ++ "*/".toList) := rfl
  unfold trailing?
  rw [htrim]
  dsimp only
  rw [if_pos hends, block?_eq_some_iff, splitLast?_eq_some_iff (by decide), hinside, hlater]
  exact ⟨fun h => h.1.2.2, fun h => ⟨⟨rfl, List.prefix_append _ _, h⟩, hlong, hbody⟩⟩

/-- **A comment is found whole unless marks of blocks stand where the scan looks for them.**  A run
of comment lines must not end with `*/`, and inside a block there must be no other `/**`, which may
share its last `*` with the closing mark. -/
theorem trailing?_whole_iff (hblanks : ∀ c ∈ blanks, isBlank c) :
    (∀ first rest, BeginsRun before →
      (trailing? (before ++ join '\n' ((first :: rest).map chars) ++ blanks) =
          some (before ++ first.indent, trimEnd (run first rest)) ↔
        ¬ "*/".toList <:+ trimEnd (run first rest))) ∧
    ∀ body, ¬ occurs "*/".toList body →
      (trailing? (before ++ ("/**".toList ++ (body ++ "*/".toList)) ++ blanks) =
          some (before, "/**".toList ++ (body ++ "*/".toList)) ↔
        ¬ occurs "/**".toList (body ++ "*/".toList)) :=
  ⟨fun _ _ hbefore => trailing?_run_iff hbefore hblanks,
    fun _ hbody => trailing?_block_iff hbody hblanks⟩

/-- A run that is found, and a run and a block that are not. -/
theorem trailing?_whole_iff_marksInside :
    trailing? "uint a;\n  /// b\n /// c \n".toList =
      some ("uint a;\n  ".toList, "/// b\n /// c".toList) ∧
    trailing? "uint a;\n  /// b */\n".toList ≠ some ("uint a;\n  ".toList, "/// b */".toList) ∧
    trailing? "uint a;\n/** b /** c */\n".toList ≠
      some ("uint a;\n".toList, "/** b /** c */".toList) := by
  have hbegins : BeginsRun "uint a;\n".toList := .inr ⟨"uint a;".toList, rfl, by decide⟩
  obtain ⟨hrun, hblock⟩ := @trailing?_whole_iff "uint a;\n".toList "\n".toList (List.all_eq_true.1 rfl)
  let first : CommentLine :=
    ⟨"  ".toList, " b".toList, List.all_eq_true.1 rfl, by decide, by decide⟩
  let second : CommentLine :=
    ⟨" ".toList, " c ".toList, List.all_eq_true.1 rfl, by decide, by decide⟩
  let closing : CommentLine :=
    ⟨"  ".toList, " b */".toList, List.all_eq_true.1 rfl, by decide, by decide⟩
  refine ⟨(hrun first [second] hbegins).2 (by decide), fun h => ?_, fun h => ?_⟩
  · exact (hrun closing [] hbegins).1 h (by decide)
  · exact (hblock " b /** c ".toList (by decide)).1 h (by decide)

end SolidityTree.Comment
