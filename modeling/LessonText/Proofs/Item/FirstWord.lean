import LessonText.Proofs.Text.PlainText

/-! # The first word

The first word of an item is read off the page itself: white space and tags are passed, and the next white space or bracket ends
it. The plain text of the whole page begins with what it shows behind the tags that are passed, so the word stands at its start.
-/

namespace LessonText

open Unicode

namespace Text

variable {w : Text}

theorem prefix_trimEnd (solid : ∀ c ∈ w, isSpace c = false) (t : Text) : w <+: (w ++ t).trimEnd := by
  obtain ⟨z, split, spaces⟩ := Draft.exists_trimEnd (w ++ t)
  rcases List.append_eq_append_iff.1 split with ⟨u, ends, -⟩ | ⟨u, ends, rfl⟩
  · exact ⟨u, ends.symm⟩
  · cases u with
    | nil => exact ⟨[], by rwa [List.append_nil] at ends ⊢⟩
    | cons c u =>
        have word : c ∈ w := ends ▸ List.mem_append_right _ List.mem_cons_self
        have space : isSpace c = true := spaces c (by simp)
        rw [solid c word] at space
        cases space

end Text

namespace Tag

variable {c : Char} {t w i : Text} {n : ℕ}

/-! ## Deleting tags from the left -/

theorem strip_cons (unfound : find none (c :: t) = none) : strip (c :: t) = c :: strip t := by
  rw [strip, Text.cut, Text.cutFrom_plain unfound, Text.cutFrom_before find_advances find_before _ none]
  rfl

theorem strip_found (found : find none t = some (i, n)) : strip t = strip (t.drop n) := by
  obtain ⟨w, r, rfl, rfl, full, -⟩ := find_advances.split found
  rw [strip, Text.cut, Text.cutFrom_found full found, List.drop_left, Text.cutFrom_before find_advances find_before _ none]
  rfl

theorem strip_append (plain : '<' ∉ w) (t : Text) : strip (w ++ t) = w ++ strip t := by
  induction w with
  | nil => rfl
  | cons c w ih =>
      obtain ⟨other, later⟩ := not_or.1 (List.mem_cons.not.1 plain)
      rw [List.cons_append, strip_cons (find_plain (Ne.symm other)), ih later]
      rfl

/-- White space at the start may be dropped before the rest is collapsed. -/
theorem trimStart_collapseFrom (t : Text) (m : Bool) : (collapseFrom m t).trimStart = collapse (Text.trimStart t) := by
  induction t generalizing m with
  | nil => rfl
  | cons c t ih =>
      by_cases space : isSpace c = true
      · have dropped : Text.trimStart (c :: t) = Text.trimStart t := List.dropWhile_cons_of_pos space
        rw [collapseFrom, if_pos space, dropped, ← ih true]
        cases m <;> rfl
      · have kept (t : Text) : Text.trimStart (c :: t) = c :: t := List.dropWhile_cons_of_neg space
        rw [collapseFrom, if_neg space, kept, kept, collapse, collapseFrom, if_neg space]

end Tag

namespace TextItem

variable {item : TextItem} {b : Option Char} {c : Char} {t r w : Text} {n : ℕ}

/-! ## What is passed at the start -/

theorem strip_dropLeading (n : ℕ) (t : Text) :
    ∃ w, (∀ c ∈ w, isSpace c = true) ∧ Tag.strip (t.drop n) = w ++ Tag.strip (dropLeading n t) := by
  fun_induction dropLeading n t with
  | case1 n => exact ⟨[], nofun, by rw [List.drop_nil]; rfl⟩
  | case2 n c t ih => exact ih
  | case3 c t space ih =>
      obtain ⟨w, spaces, split⟩ := ih
      have other : c ≠ '<' := by
        rintro rfl
        exact absurd space (by decide)
      refine ⟨c :: w, List.forall_mem_cons.2 ⟨space, spaces⟩, ?_⟩
      rw [List.drop_zero, Tag.strip_cons (Tag.find_plain other), ← List.drop_zero (l := t), split]
      rfl
  | case4 c t _ i length found ih =>
      -- The tag reaches over at least its opening bracket.
      obtain ⟨k, rfl⟩ : ∃ k, length = k + 1 := Nat.exists_eq_add_one.2 (Tag.find_advances none _ i length found).1
      obtain ⟨w, spaces, split⟩ := ih
      exact ⟨w, spaces, (Tag.strip_found found).trans split⟩
  | case5 c t _ _ => exact ⟨[], nofun, rfl⟩

theorem dropLeading_begins (split : dropLeading n t = c :: r) : isSpace c = false ∧ Tag.find none (c :: r) = none := by
  fun_induction dropLeading n t with
  | case1 => cases split
  | case2 _ _ _ ih => exact ih split
  | case3 _ _ _ ih => exact ih split
  | case4 _ _ _ _ _ _ ih => exact ih split
  | case5 d t solid unfound =>
      obtain ⟨rfl, rfl⟩ := List.cons.inj split
      exact ⟨Bool.eq_false_iff.2 solid, unfound⟩

/-! ## Pages without gaps -/

theorem infix_of_holdsWord (h : holdsWord w c t = true) : w <:+: t := by
  induction t generalizing c with
  | nil => cases h
  | cons d t ih =>
      rw [holdsWord, Bool.or_eq_true] at h
      rcases h with here | later
      · simp only [Bool.and_eq_true] at here
        exact (List.isPrefixOf_iff_prefix.1 here.1.2).isInfix
      · exact (ih later).trans (List.suffix_cons d t).isInfix

theorem findGap_of_not_infix (plain : ¬ "missing-word".toList <:+: t) : findGap b t = none := by
  cases found : Tag.find b t with
  | none => exact findGap_eq_none found
  | some tag =>
      obtain ⟨i, n⟩ := tag
      obtain ⟨r, rfl, -⟩ := Tag.find_split found
      have inside : i <:+: '<' :: (i ++ '>' :: r) := ⟨['<'], '>' :: r, by simp⟩
      rw [findGap, found]
      exact if_neg fun holds => plain ((infix_of_holdsWord holds).trans inside)

/-- Without gaps the plain text may be read behind the white space and the tags at the start. -/
theorem plainText_eq (plain : ¬ "missing-word".toList <:+: item.html) :
    item.plainText = (Tag.collapse (Tag.strip (dropLeading 0 item.html))).trimEnd := by
  have gaps : Piece.assemble (fun _ => "...") (item.html.cut findGap) = item.html :=
    Piece.assemble_cut_none _ fun b v part => findGap_of_not_infix fun word => plain (word.trans part.isInfix)
  obtain ⟨w, spaces, split⟩ := strip_dropLeading 0 item.html
  have solid : ∀ c ∈ (Tag.strip (dropLeading 0 item.html)).head?, isSpace c = false := by
    intro c first
    cases rest : dropLeading 0 item.html with
    | nil =>
        rw [rest] at first
        cases first
    | cons d t =>
        obtain ⟨space, unfound⟩ := dropLeading_begins rest
        rw [rest, Tag.strip_cons unfound] at first
        cases first
        exact space
  have start : (Tag.strip item.html).trimStart = Tag.strip (dropLeading 0 item.html) := by
    rw [← List.drop_zero (l := item.html), split, Text.trimStart, List.dropWhile_append_of_pos spaces]
    exact Text.trimStart_eq_self solid
  rw [plainText, gaps, Text.trim, Tag.plainText, Tag.collapse, Tag.trimStart_collapseFrom, start]

/-- What is shown at the start without white space, the plain text begins with. -/
theorem prefix_plainText (plain : ¬ "missing-word".toList <:+: item.html)
    (split : Tag.strip (dropLeading 0 item.html) = w ++ t) (solid : ∀ c ∈ w, isSpace c = false) : w <+: item.plainText := by
  rw [plainText_eq plain, split, Tag.collapse_solid solid]
  exact Text.prefix_trimEnd solid _

theorem mem_firstWord (h : c ∈ item.firstWord) : isSpace c = false ∧ c ≠ '<' := by
  simpa using List.mem_takeWhile_imp h

/-- The first word stands at the start of the plain text. There is none only where the plain text is empty or begins with a
    bracket. -/
theorem firstWord_prefix (plain : ¬ "missing-word".toList <:+: item.html) :
    item.firstWord <+: item.plainText ∧ (∀ c ∈ item.firstWord, isSpace c = false ∧ c ≠ '<') ∧
      (item.firstWord = [] → item.plainText = [] ∨ item.plainText.head? = some '<') := by
  refine ⟨?_, fun c => mem_firstWord, fun none => ?_⟩
  · have split := (List.takeWhile_append_dropWhile (p := fun c => !isSpace c && c != '<') (l := dropLeading 0 item.html)).symm
    rw [← firstWord] at split
    have unopened : '<' ∉ item.firstWord := fun mem => (mem_firstWord mem).2 rfl
    exact prefix_plainText plain (split ▸ Tag.strip_append unopened _) fun c mem => (mem_firstWord mem).1
  · cases rest : dropLeading 0 item.html with
    | nil =>
        rw [plainText_eq plain, rest]
        exact .inl rfl
    | cons c t =>
        obtain ⟨solid, unfound⟩ := dropLeading_begins rest
        obtain rfl : c = '<' := by simpa [firstWord, rest, List.takeWhile_cons, solid] using none
        have split : Tag.strip (dropLeading 0 item.html) = ['<'] ++ Tag.strip t := by
          rw [rest, Tag.strip_cons unfound]
          rfl
        obtain ⟨r, begins⟩ := prefix_plainText plain split (by decide)
        rw [← begins]
        exact .inr rfl

/-- A tag stands inside the word, and a bracket behind it begins none. -/
theorem firstWord_prefix_nested :
    let item : TextItem := { html := "<p>\n<b>ab<i>c</i></b></p> < d" }
    ¬ "missing-word".toList <:+: item.html ∧ item.firstWord = "ab" ∧ item.plainText = "abc < d" ∧
      item.firstWord <+: item.plainText ∧ (∀ c ∈ item.firstWord, isSpace c = false ∧ c ≠ '<') ∧
      (item.firstWord = [] → item.plainText = [] ∨ item.plainText.head? = some '<') := by
  intro item
  have plain : ¬ "missing-word".toList <:+: item.html := by decide +kernel
  exact ⟨plain, by decide +kernel, by decide +kernel, firstWord_prefix plain⟩

end TextItem

end LessonText
