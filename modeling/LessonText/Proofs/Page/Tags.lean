import LessonText.Proofs.Reader.Whole

/-! # The tags of a page

What may stand between the brackets of a tag on a page, and a reader of the tags that rules write and authors may write.
-/

namespace LessonText.Page

open Pattern Unicode Reader

/-- The elements without attributes. -/
def names : List Text :=
  ["p", "h1", "h2", "h3", "h4", "h5", "h6", "blockquote", "pre", "code", "hr", "ul", "ol", "li", "strong", "em", "table", "tr", "td"]

/-- The elements that may end: some begin with attributes. -/
def endedNames : List Text := names ++ (["div", "span", "a"] : List Text)

/-- The elements that an author may write, in whatever letter case. -/
def authored : List Text := ["br", "sub", "sup"]

/-- The classes of spans. -/
def classes : List Text := ["maths", "radic", "sqrt", "high-symbol", "print-only"]

/-- What may stand between the brackets of a tag. No value of an attribute holds a quote. -/
inductive IsTag : Text → Prop where
  | authored {name t} : name ∈ authored → List.Forall₂ (fun c d => sameLetter c d = true) name t → IsTag t
  | authoredEnd {name t} : name ∈ authored → List.Forall₂ (fun c d => sameLetter c d = true) name t → IsTag ('/' :: t)
  | bare {name} : name ∈ names → IsTag name
  | bareEnd {name} : name ∈ endedNames → IsTag ('/' :: name)
  | maths : IsTag "div class=\"maths\""
  | span {style} : style ∈ classes → IsTag ("span class=\"" ++ style ++ "\"")
  | link {address title} : '"' ∉ address → '"' ∉ title →
      IsTag ("a target=\"_blank\" href=\"" ++ address ++ "\" title=\"" ++ title ++ "\"")
  | address {address} : '"' ∉ address → IsTag ("a target=\"_blank\" href=\"" ++ address ++ "\"")
  | mail {address} : '"' ∉ address → IsTag ("a href=\"" ++ address ++ "\"")
  | image {alt address title} : '"' ∉ alt → '"' ∉ address → '"' ∉ title →
      IsTag ("img alt=\"" ++ alt ++ "\" src=\"" ++ address ++ "\" title=\"" ++ title ++ "\"/")

/-- The tags that an author may write. -/
def authorTags : List Spelling :=
  authored.map .fold ++ authored.map fun name => .exactly "/" ++ .fold name

/-- The tags without attributes. -/
def bareTags : List Spelling :=
  authorTags ++ names.map .exactly ++ endedNames.map fun name => .exactly ('/' :: name)

/-- The tags that may stand in the working text, and in an equation. -/
def tags : List Spelling :=
  bareTags ++ .exactly "div class=\"maths\"" :: classes.map fun style => .exactly ("span class=\"" ++ style ++ "\"")

theorem spells_append_iff {p : Spelling} {name t : Text} :
    Spelling.spells (.exactly name ++ p) t = true ↔ ∃ u, t = name ++ u ∧ p.spells u = true := by
  induction name generalizing t with
  | nil => simp [Spelling.exactly]
  | cons c name ih =>
      cases t with
      | nil => simp [Spelling.exactly, Spelling.spells]
      | cons d t =>
          change (c == d && Spelling.spells (.exactly name ++ p) t) = true ↔ _
          rw [Bool.and_eq_true, beq_iff_eq, ih]
          constructor
          · rintro ⟨rfl, u, rfl, h⟩
            exact ⟨u, rfl, h⟩
          · rintro ⟨u, split, h⟩
            obtain ⟨rfl, rfl⟩ := List.cons.inj split
            exact ⟨rfl, u, rfl, h⟩

theorem isTag_of_spells : ∀ p ∈ tags, ∀ i, p.spells i = true → IsTag i := by
  simp only [tags, bareTags, authorTags, List.forall_mem_append, List.forall_mem_cons, List.forall_mem_map]
  refine ⟨⟨⟨⟨fun name mem i h => .authored mem (Spelling.fold_spells.1 h), fun name mem i h => ?_⟩, fun name mem i h => ?_⟩,
    fun name mem i h => ?_⟩, fun i h => ?_, fun style mem i h => ?_⟩
  · obtain ⟨u, rfl, spelled⟩ := spells_append_iff.1 h
    exact .authoredEnd mem (Spelling.fold_spells.1 spelled)
  · obtain rfl := Spelling.exactly_spells.1 h
    exact .bare mem
  · obtain rfl := Spelling.exactly_spells.1 h
    exact .bareEnd mem
  · obtain rfl := Spelling.exactly_spells.1 h
    exact .maths
  · obtain rfl := Spelling.exactly_spells.1 h
    exact .span mem

theorem tags_tagless : Tagless tags := by decide

theorem bareTags_subset : bareTags ⊆ tags := List.subset_append_left _ _

theorem bareTags_tagless : Tagless bareTags := fun p hp => tags_tagless p (bareTags_subset hp)

end LessonText.Page
