import LessonText.Proofs.Page.Custody

/-! # Rules leave whole tags

Each rule of a page leads from a clean draft to a clean draft. No value of an attribute holds a quote: titles and texts are
quoted, and no ward is in an address. An equation is the one part of a text that tags may break, so the rules of equations
ask that none of those they find holds an opening bracket.
-/

namespace LessonText

open Draft Pattern Unicode Hazard Rendering Reader

/-- What a rule finds as its first group, in order. -/
def Rule.operands (r : Rule) (t : Text) : List Text :=
  (r.pattern.pieces t).filterMap fun
    | .plain _ => none
    | .found m => some (m.group 1)

theorem Rule.mem_operands {r : Rule} {t : Text} {m : Match} (h : .found m ∈ r.pattern.pieces t) : m.group 1 ∈ r.operands t :=
  List.mem_filterMap.2 ⟨_, h, rfl⟩

namespace Page

variable {hs : List (Hazard (Option Char))} {d : Draft} {t : Text} {gaps : List Text}

theorem marked : (whole tags).Marked := fits.toMarked

theorem custody : (whole tags).FullCustody fun _ => True := free_custody _

/-! ## Blocks -/

section Blocks

open Block

theorem silent_or_code : ∀ r ∈ Block.rules.take 8 ++ paragraphRules, r = code.rule ∨ ∀ m s, (r.replace m s).2 = s := by
  change ∀ r ∈ underlined '=' "h1" :: underlined '-' "h2" :: heading :: quotation.rule :: code.rule :: ruler :: bullets.rule ::
    numbered.rule :: paragraph :: emptyLines :: [], _
  simp only [List.forall_mem_cons]
  exact ⟨.inr fun _ _ => rfl, .inr fun _ _ => rfl, .inr fun _ _ => rfl, .inr fun _ _ => rfl, .inl trivial, .inr fun _ _ => rfl,
    .inr fun _ _ => rfl, .inr fun _ _ => rfl, .inr fun _ _ => rfl, .inr fun _ _ => rfl, by simp⟩

/-- Code of blocks is a part of the text. -/
theorem blockCode_held (clean : Clean (ofBlocks false) d) : Turns (code.rule.apply (text d)) (wards d) Held := by
  refine clean.apply_held (LineRun.block_advances rfl) LineRun.block_sharp fun past old rest m found _ inside => ?_
  have none := code_no_wards (List.subset_append_left _ _) inside.calm found
  obtain ⟨s, line, reads⟩ := inside.reads
  obtain ⟨-, inner, -⟩ := LineRun.block_reads fits found.takes line reads
  rw [code_replace, found.text, none]
  exact Turns.protect_data (tags_tagless.tagged isTag_of_spells (LineRun.code_accepts fits inner))

theorem blocks_clean : ∀ r ∈ Block.rules.take 8 ++ paragraphRules, ∀ d, Clean (ofBlocks false) d →
    Turns (r.apply (text d)) (wards d) (Clean (ofBlocks false)) := by
  intro r hr d clean
  have listed : r ∈ Block.rules ++ paragraphRules :=
    List.append_subset.2 ⟨List.Subset.trans (List.take_subset 8 _) (List.subset_append_left _ _), List.subset_append_right _ _⟩ hr
  have sound := Block.rules_sound false r listed d clean.calm
  refine clean_turns sound (fun gaps => Block.rules_carry fits custody r listed _ clean.reads) ?_
  rcases silent_or_code r hr with rfl | silent
  · exact blockCode_held clean
  · exact sound.data_of_silent (Rule.apply_silent silent _) clean.held

/-- An equation on a line of its own goes into custody with its tags. -/
theorem blockEquation_clean (plain : ∀ x ∈ Block.equation.operands (text d), '<' ∉ x) (clean : Clean (ofBlocks false) d) :
    Turns (Block.equation.apply (text d)) (wards d) (Clean (ofBlocks false)) := by
  have listed : Block.equation ∈ Block.rules ++ paragraphRules := by simp [Block.rules]
  refine clean_turns (Block.rules_sound false _ listed d clean.calm)
    (fun gaps => Block.rules_carry fits custody _ listed _ clean.reads) ?_
  refine clean.apply_held (.of_passes rfl) Block.equation_sharp fun past old rest m found mem inside => ?_
  obtain ⟨none, -⟩ := Block.equation_found (List.subset_append_left _ _) inside.calm found
  have replaced : Block.equation.replace m = do
      return "\n\n<div class=\"maths\">" ++ (← Rendering.protect (Maths.toHtml (m.group 1))) ++ "</div>\n\n" := by
    simp only [Block.equation]
  rw [replaced, none]
  exact Turns.protect_data (toHtml_tagged (plain _ (Rule.mem_operands mem)))

end Blocks

/-! ## Spans -/

open LessonText.Span

theorem not_mem_quoted : '"' ∉ quoted t := by
  intro mem
  obtain ⟨c, -, inside⟩ := List.mem_flatMap.1 mem
  by_cases quote : c = '"'
  · rw [if_pos quote] at inside
    exact absurd inside (by decide)
  · rw [if_neg quote] at inside
    exact quote (List.mem_singleton.1 inside).symm

theorem held_of_guards {data : Text} (guards : Guards data d) (tagged : Tagged IsTag data) : Held d := by
  obtain ⟨w, rfl, rfl⟩ := guards
  simpa [Held] using tagged

theorem equation_clean (plain : ∀ x ∈ Span.equation.operands (text d), '<' ∉ x) (clean : Clean (ofSpans false) d) :
    Turns (Span.equation.apply (text d)) (wards d) (Clean (ofAddresses false)) := by
  refine clean_turns (equations_sound false d clean.calm) (fun gaps => equation_carries fits custody clean.reads) ?_
  refine clean.apply_held (.of_passes rfl) equation_sharp fun past old rest m found mem inside => ?_
  refine (equation_guards inside.calm found).mono fun new guards => held_of_guards guards ?_
  have opening : Tagged IsTag " <span class=\"maths\">" := .char (by decide) (.of_tag (IsTag.span (show ("maths" : Text) ∈ classes by decide)))
  have closing : Tagged IsTag "</span> " := .tag (IsTag.bareEnd (show ("span" : Text) ∈ endedNames by decide)) (.char (by decide) .nil)
  exact (opening.append (toHtml_tagged (plain _ (Rule.mem_operands mem)))).append closing

/-- The address of a reference holds neither a ward nor a quote. -/
theorem reference_plain {lead : Text} {old alt address title : Draft} {m : Match} (calm : Calm (watches (ofAddresses false)) old)
    (parts : Parts lead old m alt address title) :
    wards address = [] ∧ '"' ∉ meaning address ∧ '<' ∉ meaning address := by
  have none := parts.address_wards (calm (.ofShape inAddress) (by simp [watches, ofAddresses]))
  have same : meaning address = m.group 2 := by
    rw [← parts.address_eq]
    conv_lhs => rw [eq_chars none, meaning_chars]
  rw [same]
  exact ⟨none, parts.isAddress.plain _ (by decide), parts.isAddress.plain _ (by decide)⟩

theorem image_clean (clean : Clean (ofAddresses false) d) :
    Turns (image.apply (text d)) (wards d) (Clean (ofAddresses false)) := by
  refine clean_turns (images_sound false d clean.calm) (fun gaps => image_carries fits custody.toCustody clean.reads) ?_
  refine clean.apply_held (.of_passes rfl) image_sharp fun past old rest m found _ inside => ?_
  obtain ⟨alt, address, title, parts⟩ := image_parts found
  obtain ⟨-, unquoted, -⟩ := reference_plain inside.calm parts
  refine (image_guards parts (inside.calm _ List.mem_cons_self)).mono fun new guards => held_of_guards guards ?_
  have tag := Tagged.of_tag (IsTag.image (not_mem_quoted (t := meaning alt)) unquoted (not_mem_quoted (t := meaning title)))
  simpa [pictured] using tag

theorem anchor_closes : Tagged IsTag ("<" ++ '/' :: "a" ++ ">") := .of_tag (.bareEnd (show ("a" : Text) ∈ endedNames by decide))

theorem link_clean (clean : Clean (ofAddresses false) d) :
    Turns (link.apply (text d)) (wards d) (Clean (ofAddresses false)) := by
  refine clean_turns (links_sound false d clean.calm)
    (fun gaps => link_carries fits custody.toCustody marked fits.follows (by decide) (by decide) clean.reads) ?_
  refine clean.apply_held (.of_passes rfl) link_sharp fun past old rest m found _ inside => ?_
  obtain ⟨alt, address, title, parts⟩ := link_parts found
  obtain ⟨none, unquoted, unbracketed⟩ := reference_plain inside.calm parts
  obtain ⟨s, -, reads⟩ := inside.reads
  have inner : Tagged IsTag (meaning alt) := by
    refine tags_tagless.tagged_meaning isTag_of_spells ?_ (inside.held.inside parts.altInside)
    rw [parts.alt_eq]
    exact (reference_referred fits found.takes reads).alt
  refine (linked_turns parts (inside.calm _ List.mem_cons_self) none).mono ?_
  rintro _ ⟨w, w', rfl, anchor, shown⟩
  have first : Tagged IsTag w.data := by
    have tag := Tagged.of_tag (IsTag.link unquoted (not_mem_quoted (t := meaning title)))
    have all := (tag.append inner).append anchor_closes
    rw [anchor]
    simpa [linked] using all
  have second : Tagged IsTag w'.data := shown ▸ .of_not_mem unbracketed
  change Held _
  simp [printed, first, second]

theorem autoLink_clean (clean : Clean (ofAddresses false) d) :
    Turns (autoLink.apply (text d)) (wards d) (Clean (ofPage false)) := by
  refine clean_turns (autoLinks_sound false d clean.calm) (fun gaps => autoLink_carries marked custody.toCustody clean.reads) ?_
  refine clean.apply_held (.of_passes rfl) autoLink_sharp fun past old rest m found _ inside => ?_
  obtain ⟨-, none, address, spares⟩ := autoLink_found (bracketed_subset false List.mem_cons_self) inside.calm found
  refine (autoLink_guards none spares).mono fun new guards => held_of_guards guards ?_
  have tag := Tagged.of_tag (IsTag.address (address.plain '"' (by decide)))
  have all := (tag.append (.of_not_mem (address.plain '<' (by decide)))).append anchor_closes
  simpa using all

theorem mailLink_held (clean : Clean (ofPage false) d) : Turns (mailLink.apply (text d)) (wards d) Held := by
  refine clean.apply_held (.of_passes rfl) mailLink_sharp fun past old rest m found _ inside => ?_
  obtain ⟨-, none, unmarked⟩ := mailLink_found (bracketed_subset false (by simp [bracketed])) inside.calm found
  refine (mailLink_guards none unmarked).mono fun new guards => held_of_guards guards ?_
  have tag := Tagged.of_tag (IsTag.mail (not_mem_encode (by decide) rfl ("mailto:" ++ m.group 1)))
  have all := (tag.append (.of_not_mem (not_mem_encode (by decide) rfl (m.group 1)))).append anchor_closes
  simpa [mailed] using all

theorem code_held (clean : Clean (ofPage false) d) : Turns (code.apply (text d)) (wards d) Held := by
  refine clean.apply_held (.of_passes rfl) code_sharp fun past old rest m found _ inside => ?_
  have quiet : Watch.keys.Quiet old := inside.calm _ List.mem_cons_self
  obtain ⟨s, -, reads⟩ := inside.reads
  obtain ⟨a, z, whole, before, behind⟩ := code_takes found.takes
  rw [whole] at reads
  obtain ⟨-, inner, -⟩ := between_marks (before.lands marked) (behind.lands marked) reads
  obtain ⟨-, a', e, z', split, content⟩ := code_found found
  have part : e <:+: old := split ▸ List.infix_append _ _ _
  refine (code_guards split content (spares_meaning (quiet.of_inside part))).mono fun new guards => held_of_guards guards ?_
  have contents := tags_tagless.tagged_meaning isTag_of_spells (content ▸ inner) (inside.held.inside part)
  exact ((Tagged.of_tag (.bare (show ("code" : Text) ∈ names by decide))).append contents).append
    (.of_tag (.bareEnd (show ("code" : Text) ∈ endedNames by decide)))

theorem emphasis_held {sign : Char} {count : ℕ} {elements : List Text} (sharp : Warden.isKeyChar sign = false) (ne : elements ≠ [])
    (opening : Tagged IsTag (openings elements)) (closing : Tagged IsTag (closings elements)) :
    ∀ r ∈ emphasis sign (count + 1) elements, ∀ d, Clean (ofPage false) d → Turns (r.apply (text d)) (wards d) Held := by
  have between {body : Pattern} (plain : body.groupless = true) (d : Draft) (clean : Clean (ofPage false) d) :
      Turns ((emphasisRule sign (count + 1) elements body).apply (text d)) (wards d) Held := by
    refine clean.apply_held emphasisRule_advances (emphasisRule_sharp sharp) fun past old rest m found _ inside => ?_
    obtain ⟨e, rfl, content⟩ := emphasisRule_found sharp plain found
    have inner : Held e := inside.held.inside (List.infix_append _ _ _)
    have replaced : (emphasisRule sign (count + 1) elements body).replace m = emphasise elements (text e) :=
      congrArg (emphasise elements) content.symm
    have held : wards (chars (sign :: List.replicate count sign) ++ e ++ chars (sign :: List.replicate count sign)) =
        wards e := by simp
    rw [replaced, held]
    refine (emphasise_turns ne).mono ?_
    rintro _ ⟨o, c, rfl, first, last⟩
    simp [first, last, opening, closing, inner]
  simp only [emphasis, List.forall_mem_cons]
  exact ⟨between rfl, between rfl, by simp⟩

end Page

end LessonText
