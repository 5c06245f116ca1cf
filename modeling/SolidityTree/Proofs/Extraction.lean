import SolidityTree.Comment
import SolidityTree.Proofs.Cuts
import Mathlib.Algebra.Order.BigOperators.Group.List
import Mathlib.Algebra.Order.Ring.Nat
import Mathlib.Data.List.Infix

/-!
# What is read out of a rendered comment

Lines of text are rendered as a run of `///` lines (`Comment.lineComment`) or as a `/** */` block
(`Comment.blockComment`).  Extraction takes the mark of each line away, and after it the first of
every other mark that stands anywhere in the line (`Comment.extract_lineComment`,
`Comment.extract_blockComment`).

The characters that are no blanks are the ink of a text (`Text.ink`).  Trimming leaves all of it,
and so does putting lines together, but a line that loses a mark has less ink than before.  So
rendering is undone exactly for the texts without marks (`Comment.extract_rendered`).
-/

namespace SolidityTree

namespace Text

variable {cs : List Char} {c : Char}

/-! ### Ink -/

/-- How many characters of a text are no blanks. -/
def ink (cs : List Char) : Nat := cs.countP (!isBlank ·)

theorem ink_append (cs ds : List Char) : ink (cs ++ ds) = ink cs + ink ds := List.countP_append

theorem ink_of_blank (h : ∀ c ∈ cs, isBlank c) : ink cs = 0 :=
  List.countP_eq_zero.2 fun c hc => by simp [h c hc]

theorem ink_pos (hc : c ∈ cs) (h : ¬ isBlank c) : 0 < ink cs :=
  List.countP_pos_iff.2 ⟨c, hc, by simpa using h⟩

theorem ink_trim (cs : List Char) : ink (trim cs) = ink cs := by
  obtain ⟨before, hbefore, hstart⟩ := exists_append_trimStart cs
  obtain ⟨after, hafter, hend⟩ := exists_trimEnd_append (trimStart cs)
  calc ink (trim cs) = ink (before ++ (trim cs ++ after)) := by
        rw [ink_append, ink_append, ink_of_blank hbefore, ink_of_blank hafter]
        omega
    _ = ink cs := by rw [trim, hend, hstart]

/-- Line ends are blank, so the ink is in the lines. -/
theorem ink_join {separator : Char} (h : isBlank separator) (parts : List (List Char)) :
    ink (join separator parts) = (parts.map ink).sum := by
  have hseparator : ink [separator] = 0 := ink_of_blank (by simpa using h)
  induction parts using join.induct with
  | case1 => rfl
  | case2 part => simp [join]
  | case3 part parts hne ih =>
    rw [join_cons separator part hne, List.append_cons, ink_append, ink_append, hseparator, ih,
      List.map_cons, List.sum_cons, Nat.add_zero]

end Text

namespace Comment

open Text

variable {lines : List (List Char)} {line comment pattern : List Char}

/-! ### Lines that lose something -/

/-- Where a change takes ink away from the marked lines and leaves the others alone, the text stays
only if no line is marked. -/
theorem trim_join_map_eq_iff {change : List Char → List Char} {marked : List Char → Prop}
    (hless : ∀ line, marked line → ink (change line) < ink line)
    (hsame : ∀ line, ¬ marked line → change line = line) :
    trim (join '\n' (lines.map change)) = trim (join '\n' lines) ↔
      ∀ line ∈ lines, ¬ marked line := by
  constructor
  · intro heq line hline hmarked
    have hle : ∀ line ∈ lines, (ink ∘ change) line ≤ ink line := by
      intro line _
      by_cases h : marked line
      · exact (hless line h).le
      · exact (congrArg ink (hsame line h)).le
    have hlt : ((lines.map change).map ink).sum < (lines.map ink).sum := by
      rw [List.map_map]
      exact List.sum_lt_sum _ _ hle ⟨line, hline, hless line hmarked⟩
    have hink := congrArg ink heq
    rw [ink_trim, ink_trim, ink_join rfl, ink_join rfl] at hink
    omega
  · intro hnone
    rw [List.map_congr_left fun line hline => hsame line (hnone line hline), List.map_id']

theorem ink_dropFirst_lt {c : Char} (hc : c ∈ pattern) (hblank : ¬ isBlank c)
    (h : occurs pattern line) : ink (dropFirst pattern line) < ink line := by
  obtain ⟨before, after, rfl, hdrop⟩ := exists_dropFirst h
  have hpos := ink_pos hc hblank
  rw [hdrop, ink_append, ink_append, ink_append]
  omega

theorem ink_dropFirst_le (pattern line : List Char) : ink (dropFirst pattern line) ≤ ink line := by
  by_cases h : occurs pattern line
  · obtain ⟨before, after, rfl, hdrop⟩ := exists_dropFirst h
    rw [hdrop, ink_append, ink_append, ink_append]
    omega
  · rw [dropFirst_of_not_occurs h]

/-- A star goes, with an opening mark or by itself. -/
theorem ink_dropFirst_dropFirst_lt (h : '*' ∈ line) :
    ink (dropFirst "*".toList (dropFirst "/**".toList line)) < ink line := by
  have hblank : ¬ isBlank '*' := by decide
  by_cases hopen : occurs "/**".toList line
  · exact (ink_dropFirst_le _ _).trans_lt (ink_dropFirst_lt (by decide) hblank hopen)
  · have hstar : occurs "*".toList line := occurs_iff.2 ((List.singleton_infix_iff '*' line).2 h)
    rw [dropFirst_of_not_occurs hopen]
    exact ink_dropFirst_lt List.mem_cons_self hblank hstar

theorem dropFirst_dropFirst_of_not_mem (h : '*' ∉ line) :
    dropFirst "*".toList (dropFirst "/**".toList line) = line := by
  have hnot : ∀ {pattern : List Char}, '*' ∈ pattern → ¬ occurs pattern line := fun hmem hoccurs =>
    h ((occurs_iff.1 hoccurs).subset hmem)
  rw [dropFirst_of_not_occurs (hnot (by decide)), dropFirst_of_not_occurs (hnot (by decide))]

/-! ### Lines and their marks -/

/-- A comment is read line by line, without the blanks at its ends. -/
theorem extract_of_marks {mark : List Char} {rest : List (List Char)}
    (hstart : trimStart comment = comment) (hmarks : marks comment = mark :: rest) :
    extract comment = trim (join '\n' ((split '\n' comment).map (cleanLine (mark :: rest)))) := by
  unfold extract
  simp only [hstart, hmarks]

theorem cleanLine_lineMark (line : List Char) :
    cleanLine ["/// ".toList, "///".toList] ("/// ".toList ++ line) =
      dropFirst "///".toList line := by
  show dropFirst "///".toList (dropFirst "/// ".toList ("/// ".toList ++ line)) = _
  rw [dropFirst_append (by decide)]

/-- An opening mark put into a line leaves a closing mark that is there: it begins with `/`, so it
can stand where the closing mark is torn. -/
theorem occurs_append_opening (before after : List Char)
    (h : occurs "*/".toList (before ++ after)) :
    occurs "*/".toList (before ++ ("/**".toList ++ after)) := by
  induction before with
  | nil =>
    rw [occurs_iff] at h ⊢
    exact h.trans (List.suffix_append _ _).isInfix
  | cons c before ih =>
    rw [List.cons_append, occurs, Bool.or_eq_true] at h ⊢
    rcases h with hprefix | hrest
    · left
      cases before with
      | nil =>
        obtain ⟨rest, hrest⟩ := List.isPrefixOf_iff_prefix.1 hprefix
        obtain rfl : '*' = c := (List.cons.inj hrest).1
        rfl
      | cons d before => exact hprefix
    · exact .inr (ih hrest)

/-- Taking an opening mark out of a line puts no closing mark together. -/
theorem not_occurs_dropFirst (h : ¬ occurs "*/".toList line) :
    ¬ occurs "*/".toList (dropFirst "/**".toList line) := by
  by_cases hopen : occurs "/**".toList line
  · obtain ⟨before, after, rfl, hdrop⟩ := exists_dropFirst hopen
    rw [hdrop]
    exact fun hclose => h (occurs_append_opening before after hclose)
  · rwa [dropFirst_of_not_occurs hopen]

theorem cleanLine_blockMark (h : ¬ occurs "*/".toList line) :
    cleanLine ["/**".toList, "*/".toList, "* ".toList, "*".toList] (" * ".toList ++ line) =
      dropFirst "*".toList (dropFirst "/**".toList line) := by
  have hopen : dropFirst "/**".toList ("* ".toList ++ line) =
      "* ".toList ++ dropFirst "/**".toList line := rfl
  have hclose : ∀ line, dropFirst "*/".toList ("* ".toList ++ line) =
      "* ".toList ++ dropFirst "*/".toList line := fun _ => rfl
  show dropFirst "*".toList (dropFirst "* ".toList (dropFirst "*/".toList
    (dropFirst "/**".toList ("* ".toList ++ line)))) = _
  rw [hopen, hclose, dropFirst_of_not_occurs (not_occurs_dropFirst h), dropFirst_append (by decide)]

/-! ### Rendered comments -/

/-- Lines of text as a run of comment lines. -/
def lineComment (lines : List (List Char)) : List Char :=
  join '\n' (lines.map ("/// ".toList ++ ·))

/-- Lines of text as a block, with the opening and the closing mark on lines of their own. -/
def blockComment (lines : List (List Char)) : List Char :=
  join '\n' ("/**".toList :: (lines.map (" * ".toList ++ ·) ++ [" */".toList]))

theorem extract_lineComment (hlines : ∀ line ∈ lines, '\n' ∉ line) (hne : lines ≠ []) :
    extract (lineComment lines) = trim (join '\n' (lines.map (dropFirst "///".toList))) := by
  have hsplit : split '\n' (lineComment lines) = lines.map ("/// ".toList ++ ·) := by
    refine split_join (fun part hpart => ?_) (by simpa using hne)
    obtain ⟨line, hline, rfl⟩ := List.mem_map.1 hpart
    simpa using hlines line hline
  obtain ⟨first, rest, rfl⟩ := List.exists_cons_of_ne_nil hne
  obtain ⟨tail, htail⟩ := prefix_join '\n' ("/// ".toList ++ first) (rest.map ("/// ".toList ++ ·))
  have hcomment : lineComment (first :: rest) = "/// ".toList ++ (first ++ tail) := by
    rw [← List.append_assoc, htail]
    rfl
  have hstart : trimStart (lineComment (first :: rest)) = lineComment (first :: rest) := by
    rw [hcomment]
    rfl
  have hmarks : marks (lineComment (first :: rest)) = ["/// ".toList, "///".toList] := by
    rw [hcomment]
    rfl
  rw [extract_of_marks hstart hmarks, hsplit, List.map_map]
  exact congrArg (fun lines => trim (join '\n' lines))
    (List.map_congr_left fun line _ => cleanLine_lineMark line)

theorem extract_blockComment (hlines : ∀ line ∈ lines, '\n' ∉ line) (hne : lines ≠ [])
    (hclosing : ∀ line ∈ lines, ¬ occurs "*/".toList line) :
    extract (blockComment lines) = trim (join '\n'
      (lines.map fun line => dropFirst "*".toList (dropFirst "/**".toList line))) := by
  let clean := cleanLine ["/**".toList, "*/".toList, "* ".toList, "*".toList]
  have hsplit : split '\n' (blockComment lines) =
      "/**".toList :: (lines.map (" * ".toList ++ ·) ++ [" */".toList]) := by
    refine split_join (fun part hpart => ?_) (by simp)
    rw [List.mem_cons, List.mem_append, List.mem_map, List.mem_singleton] at hpart
    obtain rfl | ⟨line, hline, rfl⟩ | rfl := hpart
    · decide
    · simpa using hlines line hline
    · decide
  obtain ⟨tail, htail⟩ :=
    prefix_join '\n' "/**".toList (lines.map (" * ".toList ++ ·) ++ [" */".toList])
  have hcomment : blockComment lines = "/**".toList ++ tail := htail.symm
  have hstart : trimStart (blockComment lines) = blockComment lines := by
    rw [hcomment]
    rfl
  have hmarks : marks (blockComment lines) =
      ["/**".toList, "*/".toList, "* ".toList, "*".toList] := by
    rw [hcomment]
    rfl
  have hclean : (lines.map (" * ".toList ++ ·)).map clean =
      lines.map fun line => dropFirst "*".toList (dropFirst "/**".toList line) := by
    rw [List.map_map]
    exact List.map_congr_left fun line hline => cleanLine_blockMark (hclosing line hline)
  rw [extract_of_marks hstart hmarks, hsplit, List.map_cons, List.map_append, hclean]
  -- of the marks on lines of their own the line ends remain
  show trim (join '\n' ([] :: (_ ++ [[]]))) = _
  rw [join_cons _ _ (by simp), join_append (by simpa using hne) (by simp)]
  show trim (['\n'] ++ (_ ++ ['\n'])) = _
  have hnewline : ∀ c ∈ ['\n'], isBlank c := List.forall_mem_singleton.2 rfl
  exact trim_append_append hnewline hnewline

/-- **Extraction undoes rendering exactly for the texts without marks.**  In a run of comment lines
the first `///` of each line of text is lost, and in a block the first `/**` and then the first `*`,
so what is read is the text of the lines with these taken out. -/
theorem extract_rendered (hlines : ∀ line ∈ lines, '\n' ∉ line) (hne : lines ≠ []) :
    (extract (lineComment lines) = trim (join '\n' (lines.map (dropFirst "///".toList))) ∧
      (extract (lineComment lines) = trim (join '\n' lines) ↔
        ∀ line ∈ lines, ¬ occurs "///".toList line)) ∧
    ((∀ line ∈ lines, ¬ occurs "*/".toList line) →
      extract (blockComment lines) = trim (join '\n'
        (lines.map fun line => dropFirst "*".toList (dropFirst "/**".toList line))) ∧
      (extract (blockComment lines) = trim (join '\n' lines) ↔ ∀ line ∈ lines, '*' ∉ line)) := by
  refine ⟨⟨extract_lineComment hlines hne, ?_⟩, fun hclosing =>
    ⟨extract_blockComment hlines hne hclosing, ?_⟩⟩
  · rw [extract_lineComment hlines hne]
    exact trim_join_map_eq_iff (fun _ => ink_dropFirst_lt List.mem_cons_self (by decide))
      fun _ => dropFirst_of_not_occurs
  · rw [extract_blockComment hlines hne hclosing]
    exact trim_join_map_eq_iff (fun _ => ink_dropFirst_dropFirst_lt)
      fun _ => dropFirst_dropFirst_of_not_mem

/-- Two texts that are not read back, one for each rendering. -/
theorem extract_rendered_markedTexts :
    extract (lineComment ["a /// b".toList]) ≠ "a /// b".toList ∧
      extract (blockComment ["returns a * b".toList]) ≠ "returns a * b".toList := by
  constructor
  · intro h
    have hread := @extract_rendered ["a /// b".toList] (by decide) (by decide)
    exact hread.1.2.1 h _ List.mem_cons_self (by decide)
  · intro h
    have hread := @extract_rendered ["returns a * b".toList] (by decide) (by decide)
    exact (hread.2 (by decide)).2.1 h _ List.mem_cons_self (by decide)

end Comment

end SolidityTree
