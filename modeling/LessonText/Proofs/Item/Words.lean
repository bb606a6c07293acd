import LessonText.Lesson.TextItem
import LessonText.Proofs.Item.Markup
import LessonText.Proofs.Item.Match
import LessonText.Proofs.Reader.Passes

/-! # The words of gaps

A word is tried with one part before it is tried without any. So the sign behind three dots becomes the word of the gap where an
item may end behind it, and behind the first part no sign that ends a word is part of one.
-/

namespace LessonText

open Pattern Unicode Rendering

namespace Item

/-- No sign that ends a word stands in a text, but for the last one of an entity. -/
def Unended (w : Text) : Prop := ∀ u c v, w = u ++ c :: v → c ∈ terminators → c = ';' ∧ ∃ x e, IsEntity (e ++ ";") ∧ u = x ++ e

theorem Worded.unended_iff {w : Text} (h : Worded w) : Unended w ↔ ∀ c ∈ w.head?, c ∉ terminators := by
  constructor
  · intro unended c first sign
    obtain ⟨v, rfl⟩ : ∃ v, w = c :: v := by
      cases w with
      | nil => cases first
      | cons d w => exact ⟨w, by rw [Option.some.inj first]⟩
    obtain ⟨-, x, e, ⟨number, name, -, -, -, split⟩, none⟩ := unended [] c v rfl sign
    obtain ⟨rfl, rfl⟩ := List.append_eq_nil_iff.1 none.symm
    simp at split
  · intro first u c v split sign
    rcases h.terminator split sign with rfl | ends
    · exact absurd sign (first c (by rw [split]; rfl))
    · exact ends

/-- Behind a sign at its start, a word goes on as any other. -/
theorem Worded.unended_tail {w : Text} {c : Char} (h : Worded (c :: w)) (sign : c ∈ terminators) : Unended w := by
  intro u d v split ends
  rcases h.terminator (u := c :: u) (by rw [split]; rfl) ends with none | ⟨last, x, e, entity, split'⟩
  · cases none
  · refine ⟨last, ?_⟩
    cases x with
    | nil =>
        -- an entity does not begin with such a sign
        obtain ⟨number, name, -, -, -, whole⟩ := entity
        rw [← List.nil_append e, ← split'] at whole
        obtain rfl : c = '&' := (List.cons.inj whole).1
        exact absurd sign (by decide)
    | cons b x => exact ⟨x, e, entity, (List.cons.inj split').2⟩

end Item

/-! ## What is recorded -/

/-- A rule keeps what every replacement of a match keeps. -/
theorem Rule.apply_ensures {I : Session → Prop} {r : Rule} (advances : r.pattern.Advances)
    (each : ∀ bound b t m n, r.pattern.matchAt bound 0 b t = some (m, n) → Ensures I (r.replace m) fun _ => True) (t : Text) :
    Ensures I (r.apply t) fun _ => True := by
  have all {bound : ℕ} {b : Option Char} {t : Text} {ps : List (Piece Match)} (scan : Scan (r.pattern.matchAt bound 0) b t ps) :
      Ensures I (Piece.assembleM r.replace ps) fun _ => True := by
    induction scan with
    | nil => exact .pure trivial
    | plain _ _ ih => exact ih.bind fun _ _ => .pure trivial
    | found _ matched _ ih => exact (each _ _ _ _ _ matched).bind fun _ _ => ih.bind fun _ _ => .pure trivial
  exact all (Pattern.pieces_scan advances t)

namespace Item

variable {I : Session → Prop}

/-- The words recorded so far. -/
def Recorded (P : Text → Prop) (s : Session) : Prop := ∀ word ∈ s.gaps, P word

theorem gap_records (t : Text) : Ensures (Recorded Worded) (gap.apply t) fun _ => True := by
  refine Rule.apply_ensures (.of_passes rfl) (fun bound b t m n found => ?_) t
  obtain ⟨s, v, w, z, r, parts⟩ := matchAt_parts rfl found
  intro s recorded
  refine ⟨fun word mem => ?_, trivial⟩
  rcases List.mem_append.1 (show word ∈ s.gaps ++ [m.group 2] from mem) with old | new
  · exact recorded word old
  · rw [List.mem_singleton.1 new, parts.word]
    exact parts.worded

theorem emoji_records {P : Text → Prop} (t : Text) : Ensures (Recorded P) (emoji.apply t) fun _ => True := by
  refine Rule.apply_ensures (.of_passes rfl) (fun bound b t m n _ => ?_) t
  rw [emoji_writes, Emoji.render_eq]
  split <;> exact fun s recorded => ⟨recorded, trivial⟩

theorem value_records {P : Text → Prop} (metadata : Metadata) (t : Text) :
    Ensures (Recorded P) ((value metadata).apply t) fun _ => True := by
  refine Rule.apply_ensures (.of_passes rfl) (fun bound b t m n _ => ?_) t
  rw [value_writes]
  exact .pure trivial

theorem reinstate_records {P : Text → Prop} (t : Text) : Ensures (Recorded P) (Rendering.reinstate t) fun _ => True :=
  fun _ recorded => ⟨recorded, trivial⟩

theorem rules_record (metadata : Metadata) (t : Text) :
    Ensures (Recorded Worded) (Rule.applyAll (rules metadata) t) fun _ => True := by
  unfold Rule.applyAll
  split
  · exact .pure trivial
  · refine Ensures.foldlM (P := fun _ => True) (fun r hr t _ => ?_) trivial
    simp only [rules, List.mem_cons, List.not_mem_nil, or_false] at hr
    rcases hr with rfl | rfl | rfl | rfl
    · rw [escapedBracket, Rule.ofRewrite_apply]
      exact .pure trivial
    · exact gap_records t
    · exact emoji_records t
    · exact value_records metadata t

end Item

theorem TextItem.missingWords_worded (metadata : Metadata) (source : Text) :
    ∀ word ∈ (TextItem.render metadata source).1.missingWords, Item.Worded word := by
  have recorded : Item.Recorded Item.Worded (TextItem.run metadata source).2 := by
    rw [TextItem.run, Markup.run]
    by_cases full : source = []
    · rw [full]
      exact fun word mem => absurd mem List.not_mem_nil
    · obtain ⟨⟨-, none⟩, -⟩ : Session.Keeps (fun _ => True) [] _ ∧ True := Markup.page_gaps source {} ⟨by simp, rfl⟩
      have items := Item.rules_record metadata (Markup.page source {}).1 (Markup.page source {}).2
        fun word mem => absurd (none ▸ mem) List.not_mem_nil
      rw [Markup.render_page full, Rendering.bind_apply, Rendering.bind_apply]
      exact (Item.reinstate_records _ _ items.1).1
  exact recorded

/-- A missing word has no sign that ends words, but for the last one of an entity, exactly if it does not begin with such a sign;
    and behind a sign at its start it has no other. -/
theorem TextItem.missingWords_unended (metadata : Metadata) (source : Text) :
    ∀ word ∈ (TextItem.render metadata source).1.missingWords,
      (Item.Unended word ↔ ∀ c ∈ word.head?, c ∉ Item.terminators) ∧
        ∀ c rest, word = c :: rest → c ∈ Item.terminators → Item.Unended rest := by
  intro word mem
  have worded := TextItem.missingWords_worded metadata source word mem
  refine ⟨worded.unended_iff, ?_⟩
  rintro c rest rfl sign
  exact worded.unended_tail sign

/-- A missing word that ends with an entity. -/
theorem TextItem.missingWords_unended_entity :
    ("caf&eacute;" : Text) ∈ (TextItem.render {} "One ...caf&eacute;.").1.missingWords ∧
      (Item.Unended "caf&eacute;" ↔ ∀ c ∈ ("caf&eacute;" : Text).head?, c ∉ Item.terminators) ∧
        ∀ c rest, ("caf&eacute;" : Text) = c :: rest → c ∈ Item.terminators → Item.Unended rest := by
  have recorded : ("caf&eacute;" : Text) ∈ (TextItem.render {} "One ...caf&eacute;.").1.missingWords := by decide +kernel
  exact ⟨recorded, TextItem.missingWords_unended {} "One ...caf&eacute;." "caf&eacute;" recorded⟩

/-- The question mark behind three dots is the word of the gap. -/
theorem TextItem.missingWords_ended :
    (TextItem.render {} "Is it ...?").1.missingWords = ["?"] ∧ ¬ Item.Unended "?" := by
  refine ⟨by decide +kernel, fun unended => ?_⟩
  obtain ⟨other, -⟩ := unended [] '?' [] rfl (by decide)
  exact absurd other (by decide)

end LessonText
