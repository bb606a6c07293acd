import LessonText.Lesson.TextItem
import LessonText.Proofs.Warden.Draft

/-! # Plain text

Tags are deleted in one pass from the left, and then white space is collapsed. Neither can leave a tag: what stands between two
tags was there before, and an opening bracket that begins no tag has no closing one anywhere behind it. So the plain texts are
exactly the texts that stay as they are.
-/

namespace LessonText

open Unicode
open scoped List

/-! ## White space at the ends -/

namespace Text

variable {c : Char} {t u : Text}

theorem head?_trimStart (t : Text) : ∀ c ∈ t.trimStart.head?, isSpace c = false := by
  intro c first
  have stops := List.head?_dropWhile_not isSpace t
  rwa [← trimStart, Option.mem_def.1 first] at stops

theorem head?_trim (t : Text) : ∀ c ∈ t.trim.head?, isSpace c = false := by
  intro c first
  obtain ⟨z, split, -⟩ := Draft.exists_trimEnd t.trimStart
  refine head?_trimStart t c ?_
  rw [split, List.head?_append, ← trim, Option.mem_def.1 first]
  rfl

theorem getLast?_trim (t : Text) : ∀ c ∈ t.trim.getLast?, isSpace c = false := by
  intro c last
  rw [trim, trimEnd, List.getLast?_reverse] at last
  exact head?_trimStart _ c last

theorem trim_infix (t : Text) : t.trim <:+: t := by
  obtain ⟨a, z, split, -⟩ := Draft.exists_trim t
  exact ⟨a, z, split.symm⟩

theorem trimStart_eq_self (first : ∀ c ∈ t.head?, isSpace c = false) : t.trimStart = t := by
  cases t with
  | nil => rfl
  | cons c t => exact List.dropWhile_cons_of_neg (by simp [first c rfl])

theorem trim_eq_self (first : ∀ c ∈ t.head?, isSpace c = false) (last : ∀ c ∈ t.getLast?, isSpace c = false) : t.trim = t := by
  rw [← List.head?_reverse] at last
  rw [trim, trimStart_eq_self first, trimEnd, ← trimStart, trimStart_eq_self last, List.reverse_reverse]

/-! ## White space that is collapsed -/

/-- White space is single spaces. -/
structure Spaced (t : Text) : Prop where
  space : ∀ c ∈ t, isSpace c = true → c = ' '
  single : ¬ [' ', ' '] <:+: t

theorem spaced_cons : Spaced (c :: t) ↔ (isSpace c = true → c = ' ' ∧ t.head? ≠ some ' ') ∧ Spaced t := by
  have twice : [' ', ' '] <+: c :: t ↔ c = ' ' ∧ t.head? = some ' ' := by
    rw [List.cons_prefix_cons, eq_comm]
    cases t <;> simp [List.cons_prefix_cons, eq_comm]
  constructor
  · rintro ⟨space, single⟩
    rw [List.infix_cons_iff, not_or, twice] at single
    obtain ⟨here, later⟩ := List.forall_mem_cons.1 space
    exact ⟨fun blank => ⟨here blank, fun next => single.1 ⟨here blank, next⟩⟩, later, single.2⟩
  · rintro ⟨here, space, single⟩
    refine ⟨List.forall_mem_cons.2 ⟨fun blank => (here blank).1, space⟩, ?_⟩
    rw [List.infix_cons_iff, not_or, twice]
    refine ⟨?_, single⟩
    rintro ⟨rfl, next⟩
    exact (here (by decide)).2 next

theorem Spaced.part (h : Spaced t) (part : u <:+: t) : Spaced u :=
  ⟨fun c mem => h.space c (part.subset mem), fun twice => h.single (twice.trans part)⟩

end Text

namespace Tag

open Pattern (notSpace)

variable {b : Option Char} {c : Char} {t u i : Text} {m : Bool} {n : ℕ}

theorem collapseFrom_spaced (t : Text) (m : Bool) :
    Text.Spaced (collapseFrom m t) ∧ (m = true → (collapseFrom m t).head? ≠ some ' ') := by
  induction t generalizing m with
  | nil =>
      refine ⟨⟨nofun, ?_⟩, fun _ => nofun⟩
      exact List.infix_nil.not.2 (List.cons_ne_nil _ _)
  | cons c t ih =>
      obtain ⟨spaced, behind⟩ := ih true
      by_cases space : isSpace c = true
      · cases m with
        | true =>
            rw [collapseFrom, if_pos space, if_pos rfl]
            exact ih true
        | false =>
            rw [collapseFrom, if_pos space, if_neg Bool.false_ne_true]
            exact ⟨Text.spaced_cons.2 ⟨fun _ => ⟨rfl, behind rfl⟩, spaced⟩, nofun⟩
      · rw [collapseFrom, if_neg space]
        refine ⟨Text.spaced_cons.2 ⟨fun blank => absurd blank space, (ih false).1⟩, ?_⟩
        rintro - ⟨⟩
        exact space (by decide)

/-- Where white space is single spaces there is nothing to collapse, unless a run is being passed already. -/
theorem collapseFrom_eq_self (h : Text.Spaced t) (fresh : m = true → t.head? ≠ some ' ') : collapseFrom m t = t := by
  induction t generalizing m with
  | nil => rfl
  | cons c t ih =>
      obtain ⟨here, later⟩ := Text.spaced_cons.1 h
      by_cases space : isSpace c = true
      · obtain ⟨rfl, behind⟩ := here space
        obtain rfl : m = false := Bool.eq_false_iff.2 fun run => fresh run rfl
        rw [collapseFrom, if_pos space, if_neg Bool.false_ne_true, ih later fun _ => behind]
      · have rest : collapseFrom false t = t := ih later fun run => absurd run Bool.false_ne_true
        rw [collapseFrom, if_neg space, rest]

theorem collapseFrom_filter (t : Text) (m : Bool) : (collapseFrom m t).filter notSpace = t.filter notSpace := by
  induction t generalizing m with
  | nil => rfl
  | cons c t ih =>
      by_cases space : isSpace c = true
      · have gone : ¬ notSpace c = true := by simp [notSpace, space]
        rw [collapseFrom, if_pos space, List.filter_cons_of_neg gone, ← ih true]
        cases m <;> rfl
      · have kept : notSpace c = true := by simpa [notSpace] using space
        rw [collapseFrom, if_neg space, List.filter_cons_of_pos kept, List.filter_cons_of_pos kept, ih]

theorem collapse_solid (solid : ∀ c ∈ t, isSpace c = false) (r : Text) : collapse (t ++ r) = t ++ collapse r := by
  induction t with
  | nil => rfl
  | cons c t ih =>
      obtain ⟨here, later⟩ := List.forall_mem_cons.1 solid
      rw [List.cons_append, collapse, collapseFrom, here, if_neg Bool.false_ne_true, ← collapse, ih later]
      rfl

theorem collapseFrom_solid (full : t ≠ []) (solid : ∀ c ∈ t, isSpace c = false) (r : Text) :
    collapseFrom m (t ++ r) = t ++ collapseFrom false r := by
  obtain ⟨c, t, rfl⟩ := List.exists_cons_of_ne_nil full
  obtain ⟨here, behind⟩ := List.forall_mem_cons.1 solid
  rw [List.cons_append, collapseFrom, here, if_neg Bool.false_ne_true]
  exact congrArg (c :: ·) (collapse_solid behind r)

/-! ## Where a tag begins -/

theorem find_eq (closed : '>' ∉ i) : find b ('<' :: (i ++ '>' :: t)) = some (i, i.length + 2) := by
  have open_ : ∀ c ∈ i, (c != '>') = true := fun c hc => bne_iff_ne.2 (by rintro rfl; exact closed hc)
  rw [find, Warden.takeWhile_stop t open_ rfl, List.dropWhile_append_of_pos open_]
  rfl

theorem find_plain (other : c ≠ '<') : find b (c :: t) = none := by
  unfold find
  split
  · rename_i split
    exact absurd (List.cons.inj split).1 other
  · rfl

/-- What is found is a tag with its brackets. -/
theorem find_split (found : find b t = some (i, n)) : ∃ r, t = '<' :: (i ++ '>' :: r) ∧ n = i.length + 2 := by
  unfold find at found
  split at found
  · rename_i rest
    dsimp only at found
    split at found
    · cases found
    · rename_i full
      obtain ⟨rfl, rfl⟩ := Prod.mk.inj (Option.some.inj found)
      obtain ⟨c, r, behind⟩ := List.exists_cons_of_ne_nil (mt List.isEmpty_iff.2 full)
      have stops := List.head?_dropWhile_not (· != '>') rest
      rw [behind] at stops
      obtain rfl : c = '>' := by simpa using stops
      exact ⟨r, by rw [← behind, List.takeWhile_append_dropWhile], rfl⟩
  · cases found

theorem find_advances : find.Advances := by
  rintro b t i n found
  obtain ⟨r, rfl, rfl⟩ := find_split found
  simp only [List.length_cons, List.length_append]
  omega

theorem find_before (b b' : Option Char) (t : Text) : find b t = find b' t := by
  unfold find
  split <;> rfl

/-- An opening bracket begins no tag if it is never closed. -/
theorem find_eq_none_iff : find b (c :: t) = none ↔ (c = '<' → '>' ∉ t) := by
  constructor
  · rintro none rfl mem
    obtain ⟨i, r, rfl, inside⟩ := List.eq_append_cons_of_mem mem
    rw [find_eq inside] at none
    cases none
  · intro unclosed
    refine Option.eq_none_iff_forall_not_mem.2 fun ⟨i, n⟩ found => ?_
    obtain ⟨r, split, -⟩ := find_split found
    obtain ⟨opens, rfl⟩ := List.cons.inj split
    exact unclosed opens (by simp)

/-! ## Texts without tags -/

/-- No opening bracket has a closing one behind it. -/
def Untagged (t : Text) : Prop := ¬ ['<', '>'] <+ t

instance : DecidablePred Untagged := fun _ => inferInstanceAs (Decidable (¬ _))

theorem untagged_cons : Untagged (c :: t) ↔ (c = '<' → '>' ∉ t) ∧ Untagged t := by
  rw [Untagged, List.cons_sublist_cons', List.singleton_sublist, not_or, not_and, eq_comm, and_comm]
  rfl

theorem Untagged.part (h : Untagged t) (part : u <+ t) : Untagged u := fun tag => h (tag.trans part)

theorem Untagged.find_eq_none (h : Untagged t) (b : Option Char) : find b t = none := by
  cases t with
  | nil => rfl
  | cons c t => exact find_eq_none_iff.2 (untagged_cons.1 h).1

theorem Untagged.collapse (h : Untagged t) : Untagged (collapse t) := by
  intro tag
  have inside : ['<', '>'] <+ (Tag.collapse t).filter notSpace := tag.filter notSpace
  rw [Tag.collapse, collapseFrom_filter] at inside
  exact h (inside.trans List.filter_sublist)

end Tag

/-- Where what is found is deleted nothing is added. -/
theorem Scan.deleted_sublist {α : Type} {find : Finder α} {b : Option Char} {t : Text} {ps : List (Piece α)}
    (scan : Scan find b t ps) : Piece.assemble (fun _ => []) ps <+ t := by
  induction scan with
  | nil => exact .slnil
  | plain _ _ ih => exact ih.cons_cons _
  | found _ _ _ ih => exact ih.trans (List.sublist_append_right _ _)

namespace Tag

variable {t u : Text}

/-- The deletion of tags leaves none: what is deleted stands behind no bracket that is left open. -/
theorem strip_untagged (t : Text) : Untagged (strip t) := by
  have scan : Scan find none t (t.cut find) := Text.cutFrom_scan find_advances t none
  rw [strip]
  generalize t.cut find = ps, none = b at scan
  induction scan with
  | nil => decide
  | plain here later ih =>
      refine untagged_cons.2 ⟨fun opens closes => ?_, ih⟩
      exact find_eq_none_iff.1 here opens (later.deleted_sublist.subset closes)
  | found _ _ _ ih => exact ih

example : strip "<<i>a> < <b" = "a> < <b" := rfl

theorem strip_eq_self (h : Untagged t) : strip t = t :=
  Piece.assemble_cut_none _ fun b _ part => (h.part part.sublist).find_eq_none b

/-- A text without tags whose white space is single spaces. -/
structure Plain (t : Text) : Prop extends Text.Spaced t where
  untagged : Untagged t

theorem Plain.part (h : Plain t) (part : u <:+: t) : Plain u := ⟨h.toSpaced.part part, h.untagged.part part.sublist⟩

theorem plain_plainText (t : Text) : Plain (plainText t) := ⟨(collapseFrom_spaced _ _).1, (strip_untagged t).collapse⟩

theorem plainText_eq_self_iff : plainText t = t ↔ Plain t := by
  constructor
  · exact fun same => same ▸ plain_plainText t
  · intro plain
    rw [plainText, strip_eq_self plain.untagged]
    exact collapseFrom_eq_self plain.toSpaced fun run => absurd run Bool.false_ne_true

end Tag

namespace TextItem

variable {b : Option Char} {t : Text}

/-- A plain text with no space at its ends. -/
structure Plain (t : Text) : Prop extends Tag.Plain t where
  first : t.head? ≠ some ' '
  last : t.getLast? ≠ some ' '

theorem findGap_eq_none (unfound : Tag.find b t = none) : findGap b t = none := by
  rw [findGap, unfound]
  rfl

theorem plain_plainText (item : TextItem) : Plain item.plainText := by
  refine ⟨(Tag.plain_plainText _).part (Text.trim_infix _), fun first => ?_, fun last => ?_⟩
  · exact absurd (Text.head?_trim _ ' ' first) (by decide)
  · exact absurd (Text.getLast?_trim _ ' ' last) (by decide)

theorem Plain.plainText_eq (h : Plain t) (words : List Text) : plainText ⟨t, words⟩ = t := by
  have gaps : Piece.assemble (fun _ => "...") (t.cut findGap) = t :=
    Piece.assemble_cut_none _ fun b _ part => findGap_eq_none ((h.untagged.part part.sublist).find_eq_none b)
  have solid : ∀ c ∈ t, c ≠ ' ' → isSpace c = false := fun c mem other => Bool.eq_false_iff.2 (mt (h.space c mem) other)
  rw [plainText, gaps, Tag.plainText_eq_self_iff.2 h.toPlain]
  refine Text.trim_eq_self (fun c first => ?_) (fun c last => ?_)
  · exact solid c (List.mem_of_head? first) fun same => h.first (same ▸ first)
  · exact solid c (List.mem_of_getLast? last) fun same => h.last (same ▸ last)

/-- The plain text of an item has no tag, no white space but single spaces and none at its ends. The texts with these
    properties are the plain texts of themselves, and no others are. Without the gaps and the trimming, a page has all of this
    but the ends. -/
theorem plainText_normal (item : TextItem) (words : List Text) (t : Text) :
    (Plain item.plainText ∧ plainText ⟨item.plainText, words⟩ = item.plainText ∧ (item.plainText = item.html ↔ Plain item.html)) ∧
    (Tag.Plain (Tag.plainText t) ∧ Tag.plainText (Tag.plainText t) = Tag.plainText t ∧ (Tag.plainText t = t ↔ Tag.Plain t)) := by
  have plain := item.plain_plainText
  have page := Tag.plain_plainText t
  refine ⟨⟨plain, plain.plainText_eq words, fun same => same ▸ plain, fun h => h.plainText_eq item.missingWords⟩, page, ?_, ?_⟩
  · exact Tag.plainText_eq_self_iff.2 page
  · exact Tag.plainText_eq_self_iff

end TextItem

end LessonText
