import SolidityTree.Pass.Comments
import SolidityTree.Proofs.Scanning

/-!
# Comments that are found in a source

A piece of a source that is asked for by its bytes stands there: what comes before it and what comes
up to its end have as many bytes as were asked for (`Text.append_slice?`).  So a comment that is
found in a gap stands between characters of the source, and from its end to the end of the gap there
are blanks only (`Comments.Quotation`, `Comments.exists_quotation`).  A gap before a node ends where
the node begins, and a gap inside a container ends before the closing brace
(`Comments.stop_of_precedingGap?`, `Comments.stop_of_danglingGap?`).
-/

namespace SolidityTree

/-! ### Pieces of a source -/

namespace Text

variable {n start stop : Nat} {cs ds : List Char}

theorem bytes_append (cs ds : List Char) : bytes (cs ++ ds) = bytes cs + bytes ds := by
  induction cs with
  | nil => simp [bytes]
  | cons c rest ih => rw [List.cons_append, bytes, ih, bytes, Nat.add_assoc]

/-- What is taken has the length that was asked for. -/
theorem append_takeBytes? (h : takeBytes? n cs = some ds) :
    ∃ after, ds ++ after = cs ∧ bytes ds = n := by
  induction cs generalizing n ds with
  | nil =>
    cases n with
    | zero => cases h; exact ⟨[], rfl, rfl⟩
    | succ n => contradiction
  | cons c rest ih =>
    cases n with
    | zero => cases h; exact ⟨c :: rest, rfl, rfl⟩
    | succ n =>
      rw [takeBytes?] at h
      split at h
      · obtain ⟨ds, hds, rfl⟩ := Option.map_eq_some_iff.1 h
        obtain ⟨after, rfl, hbytes⟩ := ih hds
        refine ⟨after, rfl, ?_⟩
        rw [bytes]
        omega
      · contradiction

/-- What is dropped has the length that was asked for. -/
theorem append_dropBytes? (h : dropBytes? n cs = some ds) :
    ∃ before, before ++ ds = cs ∧ bytes before = n := by
  induction cs generalizing n with
  | nil =>
    cases n with
    | zero => cases h; exact ⟨[], rfl, rfl⟩
    | succ n => contradiction
  | cons c rest ih =>
    cases n with
    | zero => cases h; exact ⟨[], rfl, rfl⟩
    | succ n =>
      rw [dropBytes?] at h
      split at h
      · obtain ⟨before, rfl, hbytes⟩ := ih h
        refine ⟨c :: before, rfl, ?_⟩
        rw [bytes]
        omega
      · contradiction

theorem dropBytes?_append (cs ds : List Char) : dropBytes? (bytes cs) (cs ++ ds) = some ds := by
  induction cs with
  | nil => cases ds <;> rfl
  | cons c rest ih =>
    obtain ⟨n, hn⟩ := Nat.exists_eq_succ_of_ne_zero (c.utf8Size_pos.ne')
    have hbytes : bytes (c :: rest) = (n + bytes rest) + 1 := by
      rw [bytes, hn]
      omega
    have hrest : n + bytes rest + 1 - c.utf8Size = bytes rest := by
      omega
    rw [hbytes, List.cons_append, dropBytes?, if_pos (by omega), hrest, ih]

theorem append_slice? (h : slice? cs start stop = some ds) : ∃ before after,
    before ++ (ds ++ after) = cs ∧ bytes before = start ∧ bytes before + bytes ds = stop := by
  unfold slice? at h
  split at h
  · obtain ⟨rest, hrest, hds⟩ := Option.bind_eq_some_iff.1 h
    obtain ⟨before, rfl, hbefore⟩ := append_dropBytes? hrest
    obtain ⟨after, rfl, hbytes⟩ := append_takeBytes? hds
    exact ⟨before, after, rfl, hbefore, by omega⟩
  · contradiction

end Text

/-! ### Comments in gaps -/

namespace Comments

open Forest

variable {source : List Char}

/-- A documentation comment in a source, with blanks behind it. -/
structure Quotation (source : List Char) where
  before : List Char
  comment : List Char
  blanks : List Char
  after : List Char
  append_eq : before ++ (comment ++ (blanks ++ after)) = source
  mark : "///".toList <+: comment ∨ "/**".toList <+: comment
  isBlank : ∀ c ∈ blanks, Text.isBlank c

namespace Quotation

/-- What is found where the comment stands. -/
def found (q : Quotation source) : Found :=
  ⟨Text.bytes q.before, Text.bytes q.comment, String.ofList (Comment.extract q.comment)⟩

/-- The byte where the blanks behind the comment end. -/
def stop (q : Quotation source) : Nat :=
  Text.bytes q.before + Text.bytes q.comment + Text.bytes q.blanks

theorem offset_le_stop (q : Quotation source) : q.found.offset ≤ q.stop := by
  show Text.bytes q.before ≤ Text.bytes q.before + Text.bytes q.comment + Text.bytes q.blanks
  omega

theorem dropBytes?_stop (q : Quotation source) : Text.dropBytes? q.stop source = some q.after := by
  have hstop : q.stop = Text.bytes (q.before ++ (q.comment ++ q.blanks)) := by
    rw [Text.bytes_append, Text.bytes_append, stop, Nat.add_assoc]
  have hsource : q.before ++ (q.comment ++ q.blanks) ++ q.after = source := by
    simp only [List.append_assoc]
    exact q.append_eq
  have hdrop := Text.dropBytes?_append (q.before ++ (q.comment ++ q.blanks)) q.after
  rwa [hsource, ← hstop] at hdrop

end Quotation

variable {gap : Nat × Nat} {found : Found} {f : Forest} {k : NodeId} {n : Node}

/-- What is found in a gap is a comment that the gap ends with. -/
theorem exists_quotation (h : find? source gap = some found) :
    ∃ q : Quotation source, q.found = found ∧ q.stop = gap.2 := by
  obtain ⟨piece, hpiece, h⟩ := Option.bind_eq_some_iff.1 h
  obtain ⟨⟨inside, comment⟩, htrailing, h⟩ := Option.bind_eq_some_iff.1 h
  cases h
  obtain ⟨before, after, happend, hstart, hstop⟩ := Text.append_slice? hpiece
  obtain ⟨⟨blanks, hblanks, rfl⟩, hmark⟩ := Comment.append_trailing? htrailing
  have hsource : before ++ inside ++ (comment ++ (blanks ++ after)) = source := by
    rw [← happend]
    simp only [List.append_assoc]
  refine ⟨⟨before ++ inside, comment, blanks, after, hsource, hmark, hblanks⟩, ?_, ?_⟩
  · rw [Quotation.found, Text.bytes_append, hstart]
  · rw [← hstop, Quotation.stop, Text.bytes_append, Text.bytes_append, Text.bytes_append]
    dsimp only
    omega

/-! ### Where gaps end -/

theorem stop_of_gap? {start stop : Int} (h : gap? start stop = some gap) : (gap.2 : Int) = stop := by
  unfold gap? at h
  split at h
  · cases h
    dsimp only
    omega
  · contradiction

/-- The gap before a node ends where the node begins. -/
theorem stop_of_precedingGap? (hn : f.get? k = some n) (h : precedingGap? f k = some gap) :
    (gap.2 : Int) = n.src.offset := by
  obtain ⟨m, hm, hgap⟩ := Option.bind_eq_some_iff.1 h
  obtain rfl : m = n := Option.some.inj (hm.symm.trans hn)
  split at hgap
  · exact stop_of_gap? hgap
  · obtain ⟨p, -, hgap⟩ := Option.bind_eq_some_iff.1 hgap
    obtain ⟨parent, -, hgap⟩ := Option.bind_eq_some_iff.1 hgap
    exact stop_of_gap? hgap

/-- The gap at the end of a container ends before the closing brace. -/
theorem stop_of_danglingGap? (hn : f.get? k = some n) (h : danglingGap? f source k = some gap) :
    (gap.2 : Int) = n.src.stop - 1 ∧
      ∃ rest, Text.dropBytes? gap.2 source = some rest ∧ rest.head? = some '\x7d' := by
  obtain ⟨m, hm, h⟩ := Option.bind_eq_some_iff.1 h
  obtain rfl : m = n := Option.some.inj (hm.symm.trans hn)
  obtain ⟨⟨start, stop⟩, hgap, h⟩ := Option.bind_eq_some_iff.1 h
  obtain ⟨rest, hrest, h⟩ := Option.bind_eq_some_iff.1 h
  obtain ⟨c, hc, h⟩ := Option.bind_eq_some_iff.1 h
  split at h
  · next hbrace =>
    cases h
    subst hbrace
    exact ⟨stop_of_gap? hgap, rest, hrest, hc⟩
  · contradiction

/-- A comment before a node begins before the node. -/
theorem offset_le_of_precedingGap? (hn : f.get? k = some n)
    (h : (precedingGap? f k).bind (find? source) = some found) :
    (found.offset : Int) ≤ n.src.offset := by
  obtain ⟨gap, hgap, hfind⟩ := Option.bind_eq_some_iff.1 h
  obtain ⟨q, rfl, hq⟩ := exists_quotation hfind
  have hle := q.offset_le_stop
  have hstop := stop_of_precedingGap? hn hgap
  omega

end Comments

end SolidityTree
