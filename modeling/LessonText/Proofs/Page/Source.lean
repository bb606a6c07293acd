import LessonText.Proofs.Page.Tags

/-! # The text that the rules read

Escaping leaves the brackets of the tags that authors may write, and no other. So of all that is watched while rules are
applied, only what stands behind an address depends on the text.
-/

namespace LessonText.Page

open Draft Pattern Unicode Hazard Reader Markup

variable {t u v : Text} {c : Char}

theorem authorTags_subset : authorTags ⊆ bareTags := fun _ h => List.mem_append_left _ (List.mem_append_left _ h)

theorem authorTags_tagless : Tagless authorTags := fun p hp => bareTags_tagless p (authorTags_subset hp)

/-! ## Escaping -/

theorem allowedTag_run {b : Option Char} {w r : Text} {gs : List (ℕ × Text)} (takes : allowedTag.Takes b w r gs) :
    (whole authorTags).run none ('<' :: w) = some none := by
  obtain ⟨_, close, _, _, rfl, -, ⟨slash, name, _, _, rfl, -, hslash, hname⟩, hclose⟩ := takes
  obtain ⟨rfl, -⟩ := takes_literal.1 hclose
  obtain ⟨n, listed, spelled⟩ : ∃ n ∈ authored, Spelling.spells (.fold n) name = true := by
    rcases hname with (h | h) | h
    · exact ⟨_, by decide, Spelling.fold_spells.2 (takes_literalFold.1 h).1⟩
    · exact ⟨_, by decide, Spelling.fold_spells.2 (takes_literalFold.1 h).1⟩
    · exact ⟨_, by decide, Spelling.fold_spells.2 (takes_literalFold.1 h).1⟩
  rcases hslash with h | ⟨rfl, -⟩
  · obtain ⟨rfl, -⟩ := takes_literal.1 h
    exact authorTags_tagless.run_tag (p := .exactly "/" ++ .fold n) (List.mem_append_right _ (List.mem_map_of_mem listed))
      (spells_append_iff.2 ⟨name, rfl, spelled⟩)
  · exact authorTags_tagless.run_tag (p := .fold n) (List.mem_append_left _ (List.mem_map_of_mem listed)) spelled

/-- Escaping leaves the tags of authors. -/
theorem escape_accepts (t : Text) : (whole authorTags).Accepts (escape t) := by
  have opened : Opened allowedTag (escapeBrackets.apply (Escape.ampersands t)) := .apply (by decide) _
  have brackets : (whole authorTags).Accepts (escapeBrackets.apply (Escape.ampersands t)) :=
    opened.accepts rfl (fun c other => whole_stays other) fun b w r gs takes _ => allowedTag_run takes
  refine escapedSign_accepts authorTags_tagless.marked (authorTags_tagless.lands (by decide) (by decide)) (fun c sign => ?_) brackets
  have other : ∀ c ∈ escapable, c ≠ '<' := by decide
  refine ⟨whole_stays (other c sign), fun s calm => ?_⟩
  obtain rfl := authorTags_tagless.calm_iff.1 calm
  have plain : '<' ∉ Entity.encode [c] := Span.not_mem_encode (by decide) rfl [c]
  rw [Entity.encode, List.flatMap_singleton] at plain
  exact whole_run plain

/-- Where no block of MathML may begin, escaping is all that happens before the rules. -/
theorem opening_eq (none : ¬ "<math" <:+: cleaned t) : opening t = pure (escape (cleaned t)) := by
  have passes : MathML.block.Passes Option.none (cleaned t) [] := by
    rintro u v split - w r gs front ⟨_, _, _, _, rfl, -, ⟨_, _, _, _, rfl, -, ⟨_, _, _, _, rfl, -, ⟨_, _, _, _, rfl, -,
      begins, -⟩, -⟩, -⟩, -⟩
    obtain ⟨rfl, -⟩ := takes_literal.1 begins
    rw [List.append_nil] at front
    refine none ?_
    rw [split, front]
    simp only [List.append_assoc]
    exact ⟨u, _, List.append_assoc _ _ _⟩
  have kept : MathML.replaceBlocks Rendering.protect (cleaned t) = pure (cleaned t) :=
    Rule.apply_of_passes (r := MathML.blockRule) (.of_passes rfl) passes
  rw [opening, kept, pure_bind]

/-! ## Hazards -/

/-- Escaping brings nothing that looks like the beginning of a key. -/
theorem spares_escape (keys : keyHazard.Spares t) : keyHazard.Spares (escape t) := by
  have calm : Calm (shapes [keyHazard]) (chars t) := by
    intro x hx
    obtain rfl := List.mem_singleton.1 hx
    rw [Watch.Quiet, Watch.chars]
    exact keys
  obtain ⟨d, s, same, held, quiet⟩ := escape_sound (chars t) calm [] {} (by rw [wards_chars]; exact .start)
  rw [text_chars] at same
  obtain ⟨shown, rfl⟩ := Prod.mk.inj same.symm
  have none : wards d = [] := by simpa using held.pending
  have spares := quiet _ List.mem_cons_self
  rw [eq_chars none, Watch.Quiet, Watch.chars, shown] at spares
  exact spares

/-- Behind a bracket a tag of an author begins. -/
theorem begins_behind (h : (whole authorTags).Accepts (u ++ '<' :: t)) : (whole authorTags).Reads (some []) t := by
  obtain ⟨s, -, later⟩ := reads_append.1 h
  obtain ⟨q, step, rest⟩ := reads_cons.1 later
  obtain rfl := authorTags_tagless.home (by decide) (by decide) step
  obtain rfl : q = some [] := (Option.some.inj step).symm
  exact rest

/-- How such a tag begins. -/
theorem begins_with (h : (whole authorTags).Accepts (u ++ '<' :: c :: t)) :
    sameLetter 'b' c = true ∨ sameLetter 's' c = true ∨ c = '/' := by
  obtain ⟨q, step, -⟩ := reads_cons.1 (begins_behind h)
  rcases whole_step step with ⟨-, -, p, listed, spelled⟩ | ⟨-, -, p, listed, begun⟩
  · have full : ∀ p ∈ authorTags, p.spells [] = false := by decide
    rw [full p listed] at spelled
    cases spelled
  · have first : ∀ p ∈ authorTags, ∃ f rest, p = f :: rest ∧ ∀ d, f d = true → sameLetter 'b' d = true ∨ sameLetter 's' d = true ∨ d = '/' := by
      simp only [authorTags, authored, List.forall_mem_append, List.forall_mem_cons, List.map_cons]
      refine ⟨⟨⟨_, _, rfl, fun d => .inl⟩, ⟨_, _, rfl, fun d h => .inr (.inl h)⟩, ⟨_, _, rfl, fun d h => .inr (.inl h)⟩, by simp⟩,
        ⟨_, _, rfl, fun d h => .inr (.inr (beq_iff_eq.1 h).symm)⟩, ⟨_, _, rfl, fun d h => .inr (.inr (beq_iff_eq.1 h).symm)⟩,
        ⟨_, _, rfl, fun d h => .inr (.inr (beq_iff_eq.1 h).symm)⟩, by simp⟩
    obtain ⟨f, rest, rfl, begins⟩ := first p listed
    exact begins c (Bool.and_eq_true_iff.1 begun).1

/-- No at-sign stands in such a tag, and a bracket closes it before one. -/
theorem closes_before (h : (whole authorTags).Accepts (u ++ '<' :: (v ++ '@' :: t))) : '>' ∈ v := by
  by_contra open_
  have inside : ∀ x q, (whole authorTags).run (some x) v = some q → q ≠ none := by
    clear h
    induction v with
    | nil => exact fun x q read same => by cases read.trans (congrArg some same)
    | cons d v ih =>
        intro x q read
        rw [List.mem_cons, not_or] at open_
        rw [run_cons, Option.bind_eq_some_iff] at read
        obtain ⟨p, step, later⟩ := read
        rcases whole_step step with ⟨close, -⟩ | ⟨-, rfl, -⟩
        · exact absurd close.symm open_.1
        · exact ih open_.2 _ q later
  obtain ⟨q, read, later⟩ := reads_append.1 (begins_behind h)
  obtain ⟨_, step, -⟩ := reads_cons.1 later
  exact inside [] q read (whole_outside (by decide) (by decide) step)

theorem spares_iff {h : Hazard (Option Char)} : h.Spares t ↔ ∀ a x z, t = a ++ x ++ z → x ≠ [] → ¬ Matches h (x.map some) := by
  refine safe_iff.trans ⟨?_, fun none w inside full matched => ?_⟩
  · rintro none a x z rfl full matched
    exact none _ ⟨a.map some, z.map some, by simp⟩ (by simpa using full) matched
  · obtain ⟨a, z, split⟩ := inside
    obtain ⟨a', z, rfl, front, rfl⟩ := List.map_eq_append_iff.1 split.symm
    obtain ⟨a, x, rfl, rfl, rfl⟩ := List.map_eq_append_iff.1 front
    exact none a x z rfl (by simpa using full) matched

section

variable {accepts : Option Char → Bool} {r : Hazard (Option Char)} {x : Text}

theorem matches_letter (h : Matches (⟨false, accepts⟩ :: r) (x.map some)) :
    ∃ c y, x = c :: y ∧ accepts (some c) = true ∧ Matches r (y.map some) := by
  obtain ⟨_, _, split, accepted, later⟩ := h.single
  obtain ⟨c, y, rfl, rfl, rfl⟩ := List.map_eq_cons_iff.1 split
  exact ⟨c, y, rfl, accepted, later⟩

theorem matches_char {c : Char} (h : Matches (Part.char c :: r) (x.map some)) : ∃ y, x = c :: y ∧ Matches r (y.map some) := by
  obtain ⟨d, y, rfl, accepted, later⟩ := matches_letter h
  exact ⟨y, congrArg (· :: y) (Option.some.inj (beq_iff_eq.1 accepted)), later⟩

theorem matches_letters (h : Matches (⟨true, accepts⟩ :: r) (x.map some)) :
    ∃ v y, x = v ++ y ∧ (∀ c ∈ v, accepts (some c) = true) ∧ Matches r (y.map some) := by
  obtain ⟨_, _, split, accepted, later⟩ := h.repeated
  obtain ⟨v, y, rfl, rfl, rfl⟩ := List.map_eq_append_iff.1 split
  exact ⟨v, y, rfl, fun c hc => accepted _ (List.mem_map_of_mem hc), later⟩

end

theorem spares_abutted {name : Text} {d : Char} (block : ∀ c, sameLetter d c = true → opensBlock c = true)
    (accepts : (whole authorTags).Accepts t) : (abutted (d :: name)).Spares t := by
  refine spares_iff.2 ?_
  rintro a x z rfl - matched
  obtain ⟨b, x, rfl, -, behind⟩ := matches_letter matched
  obtain ⟨x, rfl, element⟩ := matches_char behind
  obtain ⟨c, y, rfl, same, -⟩ := matches_letter element
  have opens := block c same
  rcases begins_with (u := a ++ [b]) (t := y ++ z) (c := c) (by simpa using accepts) with h | h | rfl
  · rw [opensBlock_of_allowed (.inl h)] at opens
    cases opens
  · rw [opensBlock_of_allowed (.inr h)] at opens
    cases opens
  · cases opens

theorem spares_bracketed (accepts : (whole authorTags).Accepts t) : ∀ h ∈ bracketed, h.Spares t := by
  simp only [bracketed, List.forall_mem_cons]
  refine ⟨spares_iff.2 ?_, spares_iff.2 ?_, by simp⟩
  · rintro a x z rfl - matched
    have spelled : ("<http" : Text).map Part.char = Part.char '<' :: Part.char 'h' :: ("ttp" : Text).map Part.char := rfl
    rw [spelled] at matched
    obtain ⟨x, rfl, behind⟩ := matches_char matched
    obtain ⟨y, rfl, -⟩ := matches_char behind
    have first := begins_with (u := a) (t := y ++ z) (c := 'h') (by simpa using accepts)
    exact absurd first (by decide)
  · rintro a x z rfl - matched
    obtain ⟨x, rfl, behind⟩ := matches_char matched
    obtain ⟨v, x, rfl, mailbox, sign⟩ := matches_letters behind
    obtain ⟨y, rfl, -⟩ := matches_char sign
    have close := closes_before (u := a) (v := v) (t := y ++ z) (by simpa using accepts)
    exact absurd (mailbox _ close) (by decide)

/-- A text without wards stands behind no mark as a ward. -/
theorem spares_behind_gap {mark : Text} {between : Char → Bool} : (behind mark between [Part.gap]).Spares t := by
  refine safe_of_refused (l := mark.map Part.char ++ [⟨true, fun a => a.any between⟩]) (p := Part.gap) (r := [])
    (by simp [behind]) rfl (fun a mem => ?_) (by simp)
  obtain ⟨c, -, rfl⟩ := List.mem_map.1 mem
  rfl

/-- Nothing watched is in an escaped text, unless a sign that may become a ward stands behind an address. -/
theorem calm_escape (keys : keyHazard.Spares t) (addresses : inAddress.Spares (escape t)) :
    Calm (watches (ofBlocks false)) (chars (escape t)) := by
  have accepts := escape_accepts t
  have blocks : ∀ h ∈ inBlock, h.Spares (escape t) := by
    rw [inBlock, List.forall_mem_map]
    exact fun _ _ => spares_behind_gap
  have spares : ∀ h ∈ ofBlocks false, h.Spares (escape t) := by
    simp only [ofBlocks, ofSpans, ofAddresses, ofPage, inEquation, List.forall_mem_append, List.forall_mem_cons]
    refine ⟨blocks, spares_behind_gap, addresses, ⟨⟨spares_abutted (fun c same => ?_) accepts,
      spares_abutted (fun c same => ?_) accepts, by simp⟩, spares_bracketed accepts⟩, by simp⟩
    · exact Bool.or_eq_true_iff.2 (.inl same)
    · exact Bool.or_eq_true_iff.2 (.inr same)
  intro x hx
  rw [Watch.Quiet, Watch.chars]
  rcases List.mem_cons.1 hx with rfl | hx
  · exact spares_escape keys
  · obtain ⟨h, hh, rfl⟩ := List.mem_map.1 hx
    exact spares h hh

end LessonText.Page
