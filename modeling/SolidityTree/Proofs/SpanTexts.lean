import SolidityTree.Span
import SolidityTree.Proofs.Cuts
import Mathlib.Data.List.Forall2
import Mathlib.Data.List.Induction

/-!
# The texts of spans

A signed word is written as an optional sign and at least one decimal digit, a span as its numbers
with colons between them.  `Integer.Writes` and `Span.Writes` say so without a loop: the number of
the digits is the one that `Nat.ofDigitChars` gives them, however long they are, and the parts at
the colons are those of `List.splitOn`.  What does not write fails, as `Integer.Fails` and
`Span.Fails` say.

The loop over the digits goes on as long as what it has seen counts (`Sign.Counts`): digits whose
number is a word.  A number does not shrink when a digit is appended, so what has stopped counting
does not count again, and a text counts as a whole or breaks at one character (`Sign.exists_break`).
That character decides how the reading fails.

Main statement: `Span.ofText_outcomes`.
-/

namespace SolidityTree

/-! ### Reading one after another -/

namespace Except

variable {ε α β : Type} {f : α → Except ε β} {xs : List α} {ys : List β} {e : ε}

theorem mapM_eq_ok_iff :
    xs.mapM f = .ok ys ↔ List.Forall₂ (fun x y => f x = .ok y) xs ys := by
  induction xs generalizing ys with
  | nil =>
    rw [List.mapM_nil, List.forall₂_nil_left_iff]
    exact ⟨fun h => (Except.ok.inj h).symm, fun h => h ▸ rfl⟩
  | cons x rest ih =>
    rw [List.mapM_cons, List.forall₂_cons_left_iff]
    cases hx : f x with
    | error e => simp [bind, Except.bind]
    | ok y =>
      cases hrest : rest.mapM f with
      | error e => simp [bind, Except.bind, ← ih, hrest]
      | ok zs => simp [bind, Except.bind, pure, Except.pure, ← ih, hrest, eq_comm]

/-- The first that fails decides. -/
theorem mapM_eq_error_iff :
    xs.mapM f = .error e ↔ ∃ before x after, xs = before ++ x :: after ∧
      (∀ y ∈ before, ∃ z, f y = .ok z) ∧ f x = .error e := by
  constructor
  · intro h
    induction xs with
    | nil => contradiction
    | cons x rest ih =>
      rw [List.mapM_cons] at h
      cases hx : f x with
      | error e' =>
        rw [hx] at h
        obtain rfl : e' = e := Except.error.inj h
        exact ⟨[], x, rest, rfl, by simp, hx⟩
      | ok y =>
        cases hrest : rest.mapM f with
        | ok zs =>
          rw [hx, hrest] at h
          contradiction
        | error e' =>
          rw [hx, hrest] at h
          obtain rfl : e' = e := Except.error.inj h
          obtain ⟨before, x', after, rfl, hbefore, hx'⟩ := ih hrest
          exact ⟨x :: before, x', after, rfl, List.forall_mem_cons.2 ⟨⟨y, hx⟩, hbefore⟩, hx'⟩
  · rintro ⟨before, x, after, rfl, hbefore, hx⟩
    induction before with
    | nil =>
      rw [List.nil_append, List.mapM_cons, hx]
      rfl
    | cons y before ih =>
      obtain ⟨⟨z, hz⟩, hbefore⟩ := List.forall_mem_cons.1 hbefore
      rw [List.cons_append, List.mapM_cons, hz, ih hbefore]
      rfl

end Except

/-! ### Digits -/

theorem Word.isSigned_iff {n : Int} :
    Word.isSigned n ↔ Word.minSigned ≤ n ∧ n ≤ Word.maxSigned := by
  rw [Word.isSigned, decide_eq_true_eq]

namespace Integer

theorem ofDigitChars_append_singleton (cs : List Char) (c : Char) :
    Nat.ofDigitChars 10 (cs ++ [c]) 0 = 10 * Nat.ofDigitChars 10 cs 0 + (c.toNat - '0'.toNat) := by
  rw [Nat.ofDigitChars_append, Nat.ofDigitChars_cons, Nat.ofDigitChars_nil]

/-- A digit is appended to a nonnegative number while the result is a word. -/
theorem increase_cons {c : Char} (hc : c.isDigit) (n : Nat) (rest : List Char) :
    increase n (c :: rest) =
      if Word.isSigned ((10 * n + (c.toNat - '0'.toNat) : Nat) : Int) then
        increase (10 * n + (c.toNat - '0'.toNat) : Nat) rest
      else .error .tooLarge := by
  have hstep : (n : Int) * 10 + (c.toNat - '0'.toNat : Nat) =
      (10 * n + (c.toNat - '0'.toNat) : Nat) := by omega
  rw [increase, if_pos hc, hstep]
  refine if_congr ?_ rfl rfl
  rw [Word.isSigned_iff, Word.minSigned]
  omega

/-- A digit is appended to a number at most zero while the result is a word. -/
theorem decrease_cons {c : Char} (hc : c.isDigit) (n : Nat) (rest : List Char) :
    decrease (-n) (c :: rest) =
      if Word.isSigned (-(10 * n + (c.toNat - '0'.toNat) : Nat) : Int) then
        decrease (-(10 * n + (c.toNat - '0'.toNat) : Nat)) rest
      else .error .tooSmall := by
  have hstep : -(n : Int) * 10 - (c.toNat - '0'.toNat : Nat) =
      -(10 * n + (c.toNat - '0'.toNat) : Nat) := by omega
  rw [decrease, if_pos hc, hstep]
  refine if_congr ?_ rfl rfl
  rw [Word.isSigned_iff, Word.maxSigned]
  omega

/-! ### What counts -/

/-- What can stand before the digits of an integer. -/
inductive Sign where
  | bare
  | plus
  | minus

namespace Sign

variable {sign : Sign} {cs seen before after : List Char} {c : Char}

/-- The sign as it is written. -/
def chars : Sign → List Char
  | bare => []
  | plus => ['+']
  | minus => ['-']

/-- The number with the sign. -/
def apply : Sign → Nat → Int
  | bare, n => n
  | plus, n => n
  | minus, n => -n

/-- The integer that digits write behind the sign. -/
def value (sign : Sign) (digits : List Char) : Int := sign.apply (Nat.ofDigitChars 10 digits 0)

/-- The characters are digits, and the integer they write is a signed word. -/
structure Counts (sign : Sign) (cs : List Char) : Prop where
  isDigit : ∀ c ∈ cs, c.isDigit
  fits : Word.isSigned (sign.value cs)

instance : Decidable (sign.Counts cs) :=
  decidable_of_iff (cs.all Char.isDigit && Word.isSigned (sign.value cs)) <| by
    rw [Bool.and_eq_true, List.all_eq_true]
    exact ⟨fun ⟨isDigit, fits⟩ => ⟨isDigit, fits⟩, fun ⟨isDigit, fits⟩ => ⟨isDigit, fits⟩⟩

/-- What is wrong with a number that leaves the range. -/
def excess : Sign → Defect
  | bare => .tooLarge
  | plus => .tooLarge
  | minus => .tooSmall

/-- What is wrong with a character that does not count. -/
def defect (sign : Sign) (c : Char) : Defect := if c.isDigit then sign.excess else .invalidDigit

theorem isSigned_apply_of_le {m n : Nat} (hle : m ≤ n) (h : Word.isSigned (sign.apply n)) :
    Word.isSigned (sign.apply m) := by
  rw [Word.isSigned_iff, Word.minSigned, Word.maxSigned] at h ⊢
  cases sign <;> simp only [apply] at h ⊢ <;> omega

theorem counts_nil : sign.Counts [] where
  isDigit := by simp
  fits := by cases sign <;> decide

theorem Counts.of_append_singleton (h : sign.Counts (cs ++ [c])) : sign.Counts cs where
  isDigit d hd := h.isDigit d (List.mem_append_left [c] hd)
  fits := by
    refine isSigned_apply_of_le ?_ h.fits
    rw [ofDigitChars_append_singleton]
    omega

theorem Counts.append_singleton_iff (h : sign.Counts cs) :
    sign.Counts (cs ++ [c]) ↔ c.isDigit ∧ Word.isSigned (sign.value (cs ++ [c])) := by
  constructor
  · intro hc
    exact ⟨hc.isDigit c List.mem_concat_self, hc.fits⟩
  · rintro ⟨hc, hfits⟩
    refine ⟨fun d hd => ?_, hfits⟩
    rcases List.mem_append.1 hd with hd | hd
    · exact h.isDigit d hd
    · rwa [List.mem_singleton.1 hd]

/-- A text that does not count breaks at a character. -/
theorem exists_break (h : ¬ sign.Counts cs) : ∃ before c after, cs = before ++ c :: after ∧
    sign.Counts before ∧ ¬ sign.Counts (before ++ [c]) := by
  induction cs using List.reverseRecOn with
  | nil => exact absurd counts_nil h
  | append_singleton cs d ih =>
    by_cases hcs : sign.Counts cs
    · exact ⟨cs, d, [], rfl, hcs, h⟩
    · obtain ⟨before, c, after, rfl, hbefore, hc⟩ := ih hcs
      exact ⟨before, c, after ++ [d], by simp, hbefore, hc⟩

/-! ### The loop over the digits -/

/-- Reads on where some digits have been read. -/
def resume (sign : Sign) (seen rest : List Char) : Except Integer.Defect Int :=
  match sign with
  | bare => increase (value bare seen) rest
  | plus => increase (value plus seen) rest
  | minus => decrease (value minus seen) rest

theorem resume_nil (seen : List Char) : sign.resume seen [] = .ok (sign.value seen) := by
  cases sign <;> rfl

/-- One step of the loop. -/
theorem resume_cons (hseen : sign.Counts seen) (c : Char) (rest : List Char) :
    sign.resume seen (c :: rest) =
      if sign.Counts (seen ++ [c]) then sign.resume (seen ++ [c]) rest
      else .error (sign.defect c) := by
  rw [if_congr hseen.append_singleton_iff rfl rfl, defect]
  by_cases hc : c.isDigit
  · rw [if_pos hc, if_congr (and_iff_right hc) rfl rfl]
    cases sign with
    | minus =>
      rw [resume, resume, value, value, ofDigitChars_append_singleton]
      exact decrease_cons hc _ rest
    | bare | plus =>
      rw [resume, resume, value, value, ofDigitChars_append_singleton]
      exact increase_cons hc _ rest
  · rw [if_neg hc, if_neg fun h => hc h.1]
    cases sign with
    | minus => rw [resume, decrease, if_neg hc]
    | bare | plus => rw [resume, increase, if_neg hc]

theorem resume_append (hbefore : sign.Counts before) (after : List Char) :
    sign.resume [] (before ++ after) = sign.resume before after := by
  -- from the end, as each step needs that all before it counts
  induction before using List.reverseRecOn generalizing after with
  | nil => rfl
  | append_singleton before c ih =>
    have hcounts := hbefore.of_append_singleton
    rw [List.append_assoc, ih hcounts, List.singleton_append, resume_cons hcounts, if_pos hbefore]

/-- A text that counts is read. -/
theorem resume_of_counts (h : sign.Counts cs) : sign.resume [] cs = .ok (sign.value cs) := by
  rw [← List.append_nil cs, resume_append h, resume_nil, List.append_nil]

/-- The character at which a text breaks decides. -/
theorem resume_of_break (hbefore : sign.Counts before) (hc : ¬ sign.Counts (before ++ [c])) :
    sign.resume [] (before ++ c :: after) = .error (sign.defect c) := by
  rw [resume_append hbefore, resume_cons hbefore, if_neg hc]

/-! ### The sign before the digits -/

/-- All of the sign stands before the text: a text without one does not itself begin with a sign
that has something behind it. -/
def Leads (sign : Sign) (cs : List Char) : Prop :=
  sign = bare → ∀ other : Sign, ∀ rest ≠ [], cs = other.chars ++ rest → other = bare

theorem leads_cons (hc : c.isDigit) (rest : List Char) : sign.Leads (c :: rest) := by
  intro _ other after _ hcs
  cases other with
  | bare => rfl
  | plus =>
    obtain rfl : c = '+' := (List.cons.inj hcs).1
    contradiction
  | minus =>
    obtain rfl : c = '-' := (List.cons.inj hcs).1
    contradiction

theorem exists_leads (hne : cs ≠ []) :
    ∃ sign : Sign, ∃ rest, cs = sign.chars ++ rest ∧ rest ≠ [] ∧ sign.Leads rest := by
  by_cases h : ∃ sign : Sign, sign ≠ bare ∧ ∃ rest ≠ [], cs = sign.chars ++ rest
  · obtain ⟨sign, hsign, rest, hrest, hcs⟩ := h
    exact ⟨sign, rest, hcs, hrest, fun hbare => absurd hbare hsign⟩
  · refine ⟨bare, cs, rfl, hne, fun _ other rest hrest hcs => ?_⟩
    by_contra hother
    exact h ⟨other, hother, rest, hrest, hcs⟩

/-- Once the sign has been found, the digits are read. -/
theorem ofChars_append (hne : cs ≠ []) (hlead : sign.Leads cs) :
    ofChars (sign.chars ++ cs) = sign.resume [] cs := by
  obtain ⟨c, rest, rfl⟩ := List.exists_cons_of_ne_nil hne
  cases sign with
  | plus => rfl
  | minus => rfl
  | bare =>
    show ofChars (c :: rest) = increase 0 (c :: rest)
    unfold ofChars
    split
    · contradiction
    -- a sign that stands alone fails as the loop does at it
    · next h => rw [h]; rfl
    · next h => rw [h]; rfl
    · next digits hdigits h => exact absurd (hlead rfl plus digits hdigits h) (by simp)
    · next digits hdigits h => exact absurd (hlead rfl minus digits hdigits h) (by simp)
    · rfl

end Sign

/-! ### Integers -/

variable {cs : List Char} {n : Int} {defect : Defect}

/-- A text writes a signed word: an optional sign, and at least one digit. -/
inductive Writes : List Char → Int → Prop
  | mk (sign : Sign) {digits : List Char} (hne : digits ≠ []) (h : sign.Counts digits) :
    Writes (sign.chars ++ digits) (sign.value digits)

/-- How a text fails to write a word: there is nothing, or the first character that does not count
decides. -/
inductive Fails : List Char → Defect → Prop
  | empty : Fails [] .empty
  | breaks (sign : Sign) {before : List Char} {c : Char} {after : List Char}
    (hlead : sign.Leads (before ++ c :: after)) (hbefore : sign.Counts before)
    (hc : ¬ sign.Counts (before ++ [c])) :
    Fails (sign.chars ++ (before ++ c :: after)) (sign.defect c)

theorem writes_or_fails (cs : List Char) : (∃ n, Writes cs n) ∨ ∃ defect, Fails cs defect := by
  by_cases hne : cs = []
  · exact .inr ⟨.empty, hne ▸ .empty⟩
  obtain ⟨sign, digits, rfl, hdigits, hlead⟩ := Sign.exists_leads hne
  by_cases hcounts : sign.Counts digits
  · exact .inl ⟨_, .mk sign hdigits hcounts⟩
  · obtain ⟨before, c, after, rfl, hbefore, hc⟩ := Sign.exists_break hcounts
    exact .inr ⟨_, .breaks sign hlead hbefore hc⟩

theorem Writes.ofChars_eq_ok (h : Writes cs n) : ofChars cs = .ok n := by
  obtain ⟨sign, hne, hcounts⟩ := h
  obtain ⟨c, rest, rfl⟩ := List.exists_cons_of_ne_nil hne
  have hc := hcounts.isDigit c List.mem_cons_self
  rw [Sign.ofChars_append hne (Sign.leads_cons hc rest), Sign.resume_of_counts hcounts]

theorem Fails.ofChars_eq_error (h : Fails cs defect) : ofChars cs = .error defect := by
  cases h with
  | empty => rfl
  | breaks sign hlead hbefore hc =>
    rw [Sign.ofChars_append (by simp) hlead, Sign.resume_of_break hbefore hc]

/-- Exactly the texts that write words are read. -/
theorem ofChars_eq_ok_iff : ofChars cs = .ok n ↔ Writes cs n := by
  refine ⟨fun h => ?_, Writes.ofChars_eq_ok⟩
  rcases writes_or_fails cs with ⟨m, hm⟩ | ⟨defect, hdefect⟩
  · rw [hm.ofChars_eq_ok] at h
    obtain rfl : m = n := Except.ok.inj h
    exact hm
  · rw [hdefect.ofChars_eq_error] at h
    contradiction

theorem ofChars_eq_error_iff : ofChars cs = .error defect ↔ Fails cs defect := by
  refine ⟨fun h => ?_, Fails.ofChars_eq_error⟩
  rcases writes_or_fails cs with ⟨m, hm⟩ | ⟨defect', hdefect⟩
  · rw [hm.ofChars_eq_ok] at h
    contradiction
  · rw [hdefect.ofChars_eq_error] at h
    obtain rfl : defect' = defect := Except.error.inj h
    exact hdefect

theorem writes_toDigits (sign : Sign) {m : Nat} (h : Word.isSigned (sign.apply m)) :
    Writes (sign.chars ++ Nat.toDigits 10 m) (sign.apply m) := by
  have hvalue : sign.value (Nat.toDigits 10 m) = sign.apply m := by
    rw [Sign.value, Nat.ofDigitChars_ten_toDigits]
  rw [← hvalue] at h ⊢
  refine .mk sign Nat.toDigits_ne_nil ⟨fun c hc => ?_, h⟩
  exact Nat.isDigit_of_mem_toDigits (by decide) (by decide) hc

/-- A word is written in decimal digits. -/
theorem writes_toString (h : Word.isSigned n) : Writes (toString n).toList n := by
  cases n with
  | ofNat m =>
    show Writes (Nat.repr m).toList (Int.ofNat m)
    rw [Nat.toList_repr]
    exact writes_toDigits .bare h
  | negSucc m =>
    show Writes ("-" ++ Nat.repr (m + 1)).toList (Int.negSucc m)
    rw [String.toList_append, Nat.toList_repr]
    exact writes_toDigits .minus h

theorem Writes.colon_not_mem (h : Writes cs n) : ':' ∉ cs := by
  obtain ⟨sign, hne, hcounts⟩ := h
  rw [List.mem_append, not_or]
  constructor
  · cases sign <;> decide
  · intro hmem
    have hcolon := hcounts.isDigit ':' hmem
    contradiction

end Integer

/-! ### Spans -/

namespace Span

variable {written : String} {numbers : List Int} {s : Span}

/-- The three numbers of the span are signed 64-bit words. -/
def Fits (s : Span) : Prop :=
  Word.isSigned s.offset ∧ Word.isSigned s.length ∧ Word.isSigned s.source

instance (s : Span) : Decidable s.Fits := inferInstanceAs (Decidable (_ ∧ _ ∧ _))

/-- A text writes a span: its parts at the colons write the numbers of the span, and a span without
a source needs no third part. -/
inductive Writes (written : String) (s : Span) : Prop
  | full (h : List.Forall₂ Integer.Writes (written.toList.splitOn ':')
      [s.offset, s.length, s.source])
  | short (h : List.Forall₂ Integer.Writes (written.toList.splitOn ':') [s.offset, s.length])
    (hsource : s.source = -1)

/-- How a text fails to write a span: by the first part that writes no word, or else by the number
of its parts. -/
inductive Fails (written : String) : Defect → Prop
  | part {before : List (List Char)} {part : List Char} {after : List (List Char)}
    {defect : Integer.Defect} (hparts : written.toList.splitOn ':' = before ++ part :: after)
    (hbefore : ∀ p ∈ before, ∃ n, Integer.Writes p n) (h : Integer.Fails part defect) :
    Fails written (.part defect)
  | form {numbers : List Int}
    (h : List.Forall₂ Integer.Writes (written.toList.splitOn ':') numbers)
    (htwo : numbers.length ≠ 2) (hthree : numbers.length ≠ 3) : Fails written .form

theorem mapM_ofChars_eq_ok_iff :
    (Text.split ':' written.toList).mapM Integer.ofChars = .ok numbers ↔
      List.Forall₂ Integer.Writes (written.toList.splitOn ':') numbers := by
  rw [Text.split_eq_splitOn, Except.mapM_eq_ok_iff]
  simp only [Integer.ofChars_eq_ok_iff]

theorem mapM_ofChars_eq_error_iff {defect : Integer.Defect} :
    (Text.split ':' written.toList).mapM Integer.ofChars = .error defect ↔
      ∃ before part after, written.toList.splitOn ':' = before ++ part :: after ∧
        (∀ p ∈ before, ∃ n, Integer.Writes p n) ∧ Integer.Fails part defect := by
  rw [Text.split_eq_splitOn, Except.mapM_eq_error_iff]
  simp only [Integer.ofChars_eq_ok_iff, Integer.ofChars_eq_error_iff]

theorem ofText_eq_ok_iff : ofText written = .ok s ↔ Writes written s := by
  constructor
  · intro h
    unfold ofText at h
    split at h
    · contradiction
    · next offset length source hread =>
      obtain rfl : ⟨offset, length, source⟩ = s := Except.ok.inj h
      exact .full (mapM_ofChars_eq_ok_iff.1 hread)
    · next offset length hread =>
      obtain rfl : ⟨offset, length, -1⟩ = s := Except.ok.inj h
      exact .short (mapM_ofChars_eq_ok_iff.1 hread) rfl
    · contradiction
  · rintro (h | ⟨h, hsource⟩)
    · rw [ofText, mapM_ofChars_eq_ok_iff.2 h]
    · rw [ofText, mapM_ofChars_eq_ok_iff.2 h]
      dsimp only
      rw [← hsource]

theorem ofText_eq_error_iff {defect : Defect} :
    ofText written = .error defect ↔ Fails written defect := by
  constructor
  · intro h
    unfold ofText at h
    split at h
    · next defect hread =>
      obtain rfl := Except.error.inj h
      obtain ⟨before, part, after, hparts, hbefore, hpart⟩ := mapM_ofChars_eq_error_iff.1 hread
      exact .part hparts hbefore hpart
    · contradiction
    · contradiction
    · next numbers hthree htwo hread =>
      obtain rfl := Except.error.inj h
      refine .form (mapM_ofChars_eq_ok_iff.1 hread) (fun hlength => ?_) fun hlength => ?_
      · obtain ⟨offset, length, hnumbers⟩ := List.length_eq_two.1 hlength
        exact htwo offset length hnumbers
      · obtain ⟨offset, length, source, hnumbers⟩ := List.length_eq_three.1 hlength
        exact hthree offset length source hnumbers
  · rintro (⟨hparts, hbefore, h⟩ | ⟨h, htwo, hthree⟩)
    · rw [ofText, mapM_ofChars_eq_error_iff.2 ⟨_, _, _, hparts, hbefore, h⟩]
    · rw [ofText, mapM_ofChars_eq_ok_iff.2 h]
      split
      · contradiction
      · next hnumbers => exact absurd (congrArg List.length (Except.ok.inj hnumbers)) hthree
      · next hnumbers => exact absurd (congrArg List.length (Except.ok.inj hnumbers)) htwo
      · rfl

/-- The text of a span is one of the texts that write it. -/
theorem writes_text (h : s.Fits) : Writes s.text s := by
  obtain ⟨hoffset, hlength, hsource⟩ := h
  have hoffset := Integer.writes_toString hoffset
  have hlength := Integer.writes_toString hlength
  have hsource := Integer.writes_toString hsource
  have htext : s.text.toList = [':'].intercalate
      [(toString s.offset).toList, (toString s.length).toList, (toString s.source).toList] := by
    simp [text, List.intercalate]
  have hcolon : ∀ part ∈ [(toString s.offset).toList, (toString s.length).toList,
      (toString s.source).toList], ':' ∉ part := by
    rw [List.forall_mem_cons, List.forall_mem_cons, List.forall_mem_singleton]
    exact ⟨hoffset.colon_not_mem, hlength.colon_not_mem, hsource.colon_not_mem⟩
  apply Writes.full
  rw [htext, List.splitOn_intercalate ':' hcolon (by simp)]
  exact .cons hoffset (.cons hlength (.cons hsource .nil))

theorem ofText_text (h : s.Fits) : ofText s.text = .ok s := ofText_eq_ok_iff.2 (writes_text h)

/-- **What reading makes of a text.**  A span of words is read back from its text.  Exactly the
texts that write a span are read, as the span they write: at the colons they fall into two or three
parts, each of an optional sign and decimal digits whose number is a word.  All other texts fail, by
the first part that does not write a word, there by its first character that is no digit or takes
the number out of the range, and if there is none by the number of parts. -/
theorem ofText_outcomes :
    (∀ s : Span, s.Fits → ofText s.text = .ok s) ∧
      (∀ written s, ofText written = .ok s ↔ Writes written s) ∧
      ∀ written defect, ofText written = .error defect ↔ Fails written defect :=
  ⟨fun _ => ofText_text, fun _ _ => ofText_eq_ok_iff, fun _ _ => ofText_eq_error_iff⟩

/-- The bounds of the range are printed and read, digits may lead with zeros, and the first number
beyond a bound fails whatever follows it. -/
theorem ofText_outcomes_bounds :
    Fits ⟨Word.minSigned, Word.maxSigned, 0⟩ ∧
      ofText (text ⟨Word.minSigned, Word.maxSigned, 0⟩) =
        .ok ⟨Word.minSigned, Word.maxSigned, 0⟩ ∧
      ofText "+007:-9223372036854775808" = .ok ⟨7, Word.minSigned, -1⟩ ∧
      ofText "9223372036854775808x" = .error (.part .tooLarge) := by
  obtain ⟨hprinted, hread, hfailed⟩ := ofText_outcomes
  refine ⟨by decide, hprinted _ (by decide), (hread _ _).2 ?_, (hfailed _ _).2 ?_⟩
  · have hoffset := @Integer.Writes.mk .plus "007".toList (by decide) (by decide)
    have hlength := @Integer.Writes.mk .minus "9223372036854775808".toList (by decide) (by decide)
    exact .short (.cons hoffset (.cons hlength .nil)) rfl
  · have hparts : "9223372036854775808x".toList.splitOn ':' =
        [] ++ "9223372036854775808x".toList :: [] := by decide
    have hpart := @Integer.Fails.breaks .bare "922337203685477580".toList '8' ['x']
      (Integer.Sign.leads_cons (by decide) _) (by decide) (by decide)
    exact .part hparts (by simp) hpart

end Span

end SolidityTree
