import LessonText.Lesson.TextItem
import LessonText.Proofs.Markup.Drained
import LessonText.Proofs.Item.Markup
import LessonText.Proofs.Item.Match

/-! # Items keep wards

What an item becomes holds no question mark and no mark of another item, a value of the metadata apart.
So the rules for items leave every ward where it is.
-/

namespace LessonText.Item

open Draft Pattern Unicode Hazard

/-! ## Rules whose matches are items -/

variable {mark : Pattern} {h : Hazard (Option Char)} {hs ks : List (Hazard (Option Char))}

/-- A rule for items is sound if what it writes behind the start of a match is allowed. -/
theorem rule_sound (hm : IsMark mark h) (listed : h ++ behindItem ∈ hs) (sub : ks ⊆ hs) {r : Rule}
    (same : r.pattern = pattern mark)
    (each : ∀ past k m old rest u v w z, Calm (shapes hs) (past ++ old ++ rest) →
      Shows mark past k m old u v w z → ∃ g, r.replace m = (m.group 1 ++ ·) <$> g ∧
        Turns g [] fun e => ∀ x ∈ shapes ks, x.Allows (past ++ chars u) (chars (v ++ (w ++ z))) e) :
    Sound (shapes hs) (shapes ks) r.apply := by
  intro d calm
  have advances : (pattern mark).Advances := .of_passes (by simp [pattern, hm.passes])
  have quiet : ∀ q v w e, d = q ++ chars v ++ .ward w :: e → ¬ Matches h (v.map some) := by
    rintro q v w e rfl shown
    have word : Matches (h ++ behindItem) (v.map some ++ [none]) := shown.append (.stop (.one rfl .nil))
    refine not_quiet_of_shape (a := shape q) (z := shape e) word (by simp) (by simp [Token.letter?])
      (calm _ (List.mem_map_of_mem listed))
  have cut : Cut (fun past k m old rest => d = past ++ old ++ rest ∧ ∃ u v w z, Shows mark past k m old u v w z)
      [] [] d ((pattern mark).pieces (text d)) := by
    refine Cut.of_scan ?_ (pieces_scan advances (text d)) [] [] [] d rfl rfl ⟨rfl, rfl, fun hk => absurd rfl hk⟩
    intro past x k e m n spot found
    obtain ⟨u, v, w, z, old, rest, rfl, shows⟩ := exists_tokens hm quiet spot found
    refine ⟨old, rest, rfl, shows.text_eq, ?_, u, v, w, z, shows⟩
    exact spot.whole.trans (List.append_assoc past old rest).symm
  obtain ⟨f, hf, turns⟩ : ∃ f, Piece.assembleM r.replace ((pattern mark).pieces (text d)) = ([] ++ ·) <$> f ∧
      Turns f (wards d) (Edits (fun past old new _ => ∀ x ∈ shapes ks, x.Allows past old new) [] d) := by
    refine Cut.assembleM ?_ cut
    rintro past k m old rest ⟨rfl, u, v, w, z, shows⟩
    obtain ⟨g, hg, turns⟩ := each past k m old rest u v w z calm shows
    refine ⟨(u ++ ·) <$> g, ?_, ?_⟩
    · rw [hg, shows.first, Functor.map_map]
      simp only [List.append_assoc]
    · rw [shows.tokens, wards_chars]
      intro others s held
      obtain ⟨e, s', he, held', allowed⟩ := turns others s held
      refine ⟨chars u ++ e, s', ?_, by simpa using held', fun x hx => ?_⟩
      · rw [text_append, text_chars]
        exact congrArg (fun r : Text × Session => (u ++ r.1, r.2)) he
      · rw [chars_append]
        exact Watch.Allows.refl.append (allowed x hx)
  have applied : r.apply (text d) = f := by
    rw [Rule.apply, same, hf]
    rfl
  rw [applied]
  exact turns.mono fun e edits => edits.calm (List.map_subset _ sub) calm

/-! ## The marks -/

theorem isMark_dots : IsMark "..." (("..." : Text).map Part.char) where
  groupless := rfl
  passes := rfl
  unmarked := rfl
  begins := by
    intro b v r gs takes
    obtain ⟨rfl, -⟩ := takes_literal.1 takes
    exact ⟨'.', "..", rfl, rfl⟩
  shown := by
    intro b v r gs takes
    obtain ⟨rfl, -⟩ := takes_literal.1 takes
    exact matches_mark _

/-- No digit is a letter that a mark begins with. -/
theorem not_isDigit_of_same {c d : Char} (first : c = 'e' ∨ c = 'm') (same : sameLetter c d = true) :
    d.isDigit = false := by
  have all : (charsOf alphanumRanges).all
      (fun d => !d.isDigit || !sameLetter 'e' d && !sameLetter 'm' d) = true := rfl
  by_contra digit
  rw [Bool.not_eq_false] at digit
  have apart := of_isAlphanum all (c := d) (by rw [Char.isAlphanum, digit, Bool.or_true])
  rcases first with rfl | rfl <;> simp [digit, same] at apart

theorem isMark_fold {c : Char} {t : Text} (first : c = 'e' ∨ c = 'm')
    (groupless : (literalFold (c :: t)).groupless = true)
    (unmarked : (literalFold (c :: t)).admits '?' = false) :
    IsMark (literalFold (c :: t)) (fold (c :: t)) where
  groupless := groupless
  passes := rfl
  unmarked := unmarked
  begins := by
    intro b v r gs takes
    cases (takes_literalFold.1 takes).1 with
    | cons same _ => exact ⟨_, _, rfl, not_isDigit_of_same first same⟩
  shown := fun b v r gs takes => Markup.matches_fold (takes_literalFold.1 takes).1

theorem isMark_emoji : IsMark (literalFold "emoji:") (fold "emoji:") :=
  isMark_fold (.inl rfl) rfl rfl

theorem isMark_meta : IsMark (literalFold "meta:") (fold "meta:") :=
  isMark_fold (.inr rfl) rfl rfl

/-! ## The rules -/

/-- A gap leaves the wards alone. -/
theorem gap_sound : Sound (shapes (keyHazard :: Markup.ofItems true)) (shapes (keyHazard :: Markup.ofItems true))
    gap.apply := by
  refine rule_sound isMark_dots (by simp [Markup.ofItems, inItem, itemMarks]) (List.Subset.refl _) rfl ?_
  intro past k m old rest u v w z _ _
  refine ⟨Rendering.recordGap (m.group 2) >>= fun _ => Pure.pure ('<' :: (gapTags m ++ ">")), gap_writes m, ?_⟩
  refine Turns.recordGap_bind (.pure_of (d := chars ('<' :: (gapTags m ++ ">"))) (fun x hx => ?_) (by simp) (by simp))
  exact .of_ends (ends_markup (all_gapTags m) x hx)

/-- An emoji leaves the wards alone. -/
theorem emoji_sound : Sound (shapes (keyHazard :: Markup.ofItems true))
    (shapes (keyHazard :: Markup.ofItems true)) emoji.apply := by
  refine rule_sound isMark_emoji (by simp [Markup.ofItems, inItem, itemMarks]) (List.Subset.refl _) rfl ?_
  intro past k m old rest u v w z _ _
  refine ⟨Emoji.render (m.group 2) >>= fun t => Pure.pure ('<' :: (emojiTag m ++ t ++ "</span" ++ ">")), emoji_writes m, ?_⟩
  refine (Emoji.render_turns (m.group 2)).andThen ?_
  rintro _ ⟨t, rfl, shown⟩
  refine .pure_of (d := chars ('<' :: (emojiTag m ++ t ++ "</span" ++ ">"))) (fun x hx => ?_) (by simp) (by simp)
  exact .of_ends (ends_markup (all_markup_append (all_markup_append (all_emojiTag m) shown) rfl) x hx)

/-- Before a value, no key has begun. -/
theorem begun_before_value {past old rest : Draft} {k u v w z : Text} {m : Match}
    (calm : Calm (shapes (keyHazard :: Markup.ofItems true)) (past ++ old ++ rest))
    (shows : Shows (literalFold "meta:") past k m old u v w z) :
    (Watch.ofShape keyHazard).begun (past ++ chars u) = [] := by
  rcases shows.clear with marked | clear
  · obtain ⟨u, rfl⟩ := List.getLast?_eq_some_iff.1 marked
    obtain ⟨_, _, takes⟩ := shows.mark
    have word : Matches beforeValue (('?' :: v).map some) := .one (by rfl) (isMark_meta.shown _ _ _ _ takes)
    refine absurd (calm _ (List.mem_map_of_mem (a := beforeValue) (by simp [Markup.ofItems]))) ?_
    refine not_quiet_of_shape (a := shape past ++ u.map some) (z := (w ++ z).map some ++ shape rest) word (by simp) ?_
    simp [shows.tokens]
  · rcases List.eq_nil_or_concat (past ++ chars u) with empty | ⟨q, y, split⟩
    · rw [empty, Watch.begun, Watch.nil]
      rfl
    · rw [List.concat_eq_append] at split
      rw [split] at clear ⊢
      have listed := clear y (by simp)
      have refused : [none, some '\n', some ' ', some '>'].all (fun a =>
          keyHazard.all fun p => !p.accepts a) = true := rfl
      have none := List.all_eq_true.1 (List.all_eq_true.1 refused _ listed)
      rw [Watch.begun_append]
      exact step_eq_nil (fun p hp => by simpa using none p hp) _

/-- No value holds the beginning of a key, or ends in a part of it. -/
def isHarmless (metadata : Metadata) : Bool :=
  metadata.entries.all fun entry => Hazard.opens keyHazard (entry.2.map some)

theorem opens_found {metadata : Metadata} (harmless : isHarmless metadata = true) (key : Text) :
    (Watch.ofShape keyHazard).opens (if key.isEmpty then [] else (metadata.get? key).getD []) = true := by
  split
  · rfl
  · cases known : metadata.get? key with
    | none => rfl
    | some value => exact List.all_eq_true.1 harmless _ (mem_of_lookup known)

/-- What stands for a value, or for a key that is not known, leaves the wards alone. -/
theorem value_sound {metadata : Metadata} (harmless : isHarmless metadata = true) :
    Sound (shapes (keyHazard :: Markup.ofItems true)) (shapes [keyHazard]) (value metadata).apply := by
  have sub : [keyHazard] ⊆ keyHazard :: Markup.ofItems true := by simp
  refine rule_sound isMark_meta (by simp [Markup.ofItems, inItem, itemMarks]) sub rfl ?_
  intro past k m old rest u v w z calm shows
  let found := if w.isEmpty then [] else (metadata.get? w).getD []
  by_cases missing : found.isEmpty = true
  · let lead : Text := "span " ++ Attribute.hiddenError ("Cannot find metadata " ++ w)
    have inside : lead.all isMarkup = true := all_markup_append rfl (all_hiddenError _)
    refine ⟨Pure.pure ('<' :: (lead ++ ">") ++ w ++ "</span>"), ?_, ?_⟩
    · simp only [value, shows.word]
      rw [if_pos missing]
      simp [lead]
    · refine .pure_of (d := chars ('<' :: (lead ++ ">")) ++ chars w ++ chars "</span>") (fun x hx => ?_) (by simp)
        (by simp)
      have ends {t : Text} (inside : t.all isMarkup = true) : x.ends ('<' :: (t ++ ">")) = true :=
        ends_markup inside x (List.map_subset _ sub hx)
      refine .enclosed (ends inside) (ends (t := "/span") rfl) fun safe => ?_
      rw [← List.append_assoc, chars_append, chars_append, x.append, x.append] at safe
      exact safe_factor safe
  · refine ⟨Pure.pure found, ?_, ?_⟩
    · simp only [value, shows.word]
      rw [if_neg missing]
      rfl
    · refine .pure_of (d := chars found) (fun x hx => ?_) (by simp) (by simp)
      obtain rfl := List.mem_singleton.1 hx
      exact .of_opens (begun_before_value calm shows) (opens_found harmless w)

theorem escapedBracket_sound : Sound (shapes (keyHazard :: Markup.ofItems true))
    (shapes (keyHazard :: Markup.ofItems true)) escapedBracket.apply := by
  refine .of_unmarked (.of_passes rfl) (Opens.literal rfl) rfl fun _ _ _ _ _ => ?_
  rfl

/-- The rules for items keep every ward. -/
theorem rules_sound {metadata : Metadata} (harmless : isHarmless metadata = true) :
    Sound (shapes (keyHazard :: Markup.ofItems true)) (shapes [keyHazard]) (Rule.applyAll (rules metadata)) :=
  Sound.applyAll <| escapedBracket_sound.foldlM_cons <| gap_sound.foldlM_cons <| emoji_sound.foldlM_cons <|
    (value_sound harmless).foldlM_cons fun _ calm => .pure calm

end LessonText.Item

namespace LessonText

open Draft Markup

/-- A call ends with nothing in custody and with no key missed, if three question marks never stand
    before a digit in the text, nothing in it stands where a ward would go into custody with other text,
    and no value of the metadata begins a key. -/
theorem calls_drained {t : Text} (spares : keyHazard.Spares (cleaned t)) {metadata : Metadata}
    (harmless : Item.isHarmless metadata = true) :
    (isCalm (Extent.document.hazards false) (opening t {}).1 (opening t {}).2 = true →
      (run .document [] [] t).2.Drained) ∧
    (isCalm (Extent.spans.hazards false) (opening t {}).1 (opening t {}).2 = true →
      (run .spans [] [] t).2.Drained) ∧
    (isCalm (Extent.document.hazards true) (opening t {}).1 (opening t {}).2 = true →
      (TextItem.run metadata t).2.Drained) :=
  ⟨rendering_drained .document spares, rendering_drained .spans spares,
    run_drained (Item.rules_sound harmless) spares⟩

/-- A block of MathML, emphasis, a gap and a value. -/
theorem calls_drained_items :
    (run .document [] [] "<math></math> *a* ...b meta:c").2.Drained ∧
    (run .spans [] [] "<math></math> *a* ...b meta:c").2.Drained ∧
    (TextItem.run ⟨[("C", "d")]⟩ "<math></math> *a* ...b meta:c").2.Drained := by
  have calm : [Extent.document.hazards false, Extent.spans.hazards false, Extent.document.hazards true].all
      (isCalm · (opening "<math></math> *a* ...b meta:c" {}).1 (opening "<math></math> *a* ...b meta:c" {}).2) =
        true := by decide +kernel
  simp only [List.all_cons, List.all_nil, Bool.and_eq_true] at calm
  have all := @calls_drained "<math></math> *a* ...b meta:c" (by decide) ⟨[("C", "d")]⟩ (by decide)
  exact ⟨all.1 calm.1, all.2.1 calm.2.1, all.2.2 calm.2.2.1⟩

/-- A block of MathML in a code block goes into custody with the code, and is not given back. -/
theorem document_not_drained : keyHazard.Spares (cleaned "    <math></math>") ∧
    ¬ (run .document [] [] "    <math></math>").2.Drained :=
  ⟨by decide, fun drained => absurd drained.1 (by decide +kernel)⟩

end LessonText
