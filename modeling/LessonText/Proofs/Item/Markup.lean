import LessonText.Lesson.Item
import LessonText.Proofs.Markup.Passes

/-! # What is written for an item

Tags, classes, entities and hidden values have characters that no hazard is made of. So what is written
between the brackets of tags ends every word that is watched.
-/

namespace LessonText

open Draft Pattern Unicode Hazard

namespace Item

/-- The characters of markup that are no letters or digits. -/
def signs : Text := "<>/=\"&#;+- "

/-- A character of tags, classes, hidden values and entities. -/
def isMarkup (c : Char) : Bool := c.isAlphanum || anyOf signs c

theorem mem_of_isMarkup {c : Char} (h : isMarkup c = true) : c ∈ signs ++ charsOf alphanumRanges := by
  rcases Bool.or_eq_true_iff.1 h with alphanum | sign
  · exact List.mem_append_right _ (mem_charsOf (inRanges_of_isAlphanum alphanum))
  · exact List.mem_append_left _ (List.contains_iff_mem.1 sign)

/-- A hazard that no markup completes and that no bracket is part of. The parts are tried from the last
    one on, as a mark begins with letters that markup may have. -/
def outside (h : Hazard (Option Char)) : Bool :=
  h.all (fun p => !p.accepts (some '<') && !p.accepts (some '>')) &&
    h.reverse.any fun p => !p.many && (signs ++ charsOf alphanumRanges).all fun c => !p.accepts (some c)

theorem ends_of_outside {h : Hazard (Option Char)} {t : Text} (out : outside h = true)
    (inside : t.all isMarkup = true) : Hazard.ends h (('<' :: (t ++ ">")).map some) = true := by
  obtain ⟨brackets, lacks⟩ := Bool.and_eq_true_iff.1 out
  have refused {p : Hazard.Part (Option Char)} (hp : p ∈ h) :
      p.accepts (some '<') = false ∧ p.accepts (some '>') = false := by
    simpa using List.all_eq_true.1 brackets p hp
  obtain ⟨p, hp, missing⟩ := List.any_eq_true.1 lacks
  obtain ⟨l, r, split⟩ := List.append_of_mem (List.mem_reverse.1 hp)
  obtain ⟨single, missing⟩ := Bool.and_eq_true_iff.1 missing
  have all : ∀ a ∈ (t ++ ">").map some, p.accepts a = false := by
    intro a ha
    obtain ⟨c, hc, rfl⟩ := List.mem_map.1 ha
    rcases List.mem_append.1 hc with hc | hc
    · simpa using List.all_eq_true.1 missing c (mem_of_isMarkup (List.all_eq_true.1 inside c hc))
    · obtain rfl := List.mem_singleton.1 hc
      exact (refused (List.mem_reverse.1 hp)).2
  refine ends_of_refused (fun p hp => (refused hp).1) ?_
  rw [opens, Bool.and_eq_true]
  refine ⟨safe_of_refused split (by simpa using single) all (by simp), ?_⟩
  rw [List.map_append, reach_append]
  exact List.isEmpty_iff.2 (step_eq_nil (fun p hp => (refused hp).2) _)

theorem ends_markup {t : Text} (inside : t.all isMarkup = true) :
    ∀ x ∈ shapes (keyHazard :: Markup.ofItems true), x.ends ('<' :: (t ++ ">")) = true := by
  have all : (keyHazard :: Markup.ofItems true).all outside = true := rfl
  intro x hx
  obtain ⟨h, hh, rfl⟩ := List.mem_map.1 hx
  exact ends_of_outside (List.all_eq_true.1 all h hh) inside

theorem all_markup_append {t u : Text} (ht : t.all isMarkup = true) (hu : u.all isMarkup = true) :
    (t ++ u).all isMarkup = true := by
  rw [List.all_append, ht, hu]
  rfl

theorem isMarkup_of_isAlphanum {c : Char} (h : c.isAlphanum = true) : isMarkup c = true := by
  rw [isMarkup, h, Bool.true_or]

theorem isMarkup_of_isSextet {c : Char} (h : Base64.isSextet c = true) : isMarkup c = true := by
  rcases Base64.isSextet_cases h with alphanum | rfl | rfl
  · exact isMarkup_of_isAlphanum alphanum
  · rfl
  · rfl

/-- A hidden value is markup. -/
theorem all_encode (t : Text) : (Attribute.encode t).all isMarkup = true := by
  obtain ⟨s, pads, coded, letters, -⟩ := Base64.encode_eq (Attribute.asciiBytes (Percent.encode t))
  rw [Attribute.encode, coded, List.all_append, Bool.and_eq_true, List.all_eq_true, List.all_eq_true]
  refine ⟨fun c hc => isMarkup_of_isSextet (letters c hc).1, fun c hc => ?_⟩
  rw [List.eq_of_mem_replicate hc]
  rfl

theorem all_hiddenError (message : Text) : (Attribute.hiddenError message).all isMarkup = true :=
  all_markup_append (all_markup_append rfl (all_encode message)) rfl

theorem all_classes {cls more : Text} (h : cls.all isMarkup = true) (h' : more.all isMarkup = true) :
    (classes cls more).all isMarkup = true := by
  unfold classes
  split
  · exact h
  · exact all_markup_append (all_markup_append h rfl) h'

theorem all_safeClass (requested : Text) : (safeClass requested).all isMarkup = true := by
  have all : emojiClasses.all (·.all isMarkup) = true := rfl
  unfold safeClass
  dsimp only
  split
  · rename_i listed
    exact List.all_eq_true.1 all _ (List.contains_iff_mem.1 listed)
  · rfl

theorem mem_of_lookup {α : Type} {l : List (Text × α)} {key : Text} {a : α} (h : l.lookup key = some a) :
    (key, a) ∈ l := by
  obtain ⟨before, after, rfl, -⟩ := List.lookup_eq_some_iff.1 h
  exact List.mem_append_right before List.mem_cons_self

theorem all_alignment (requested : Text) :
    ((alignments.lookup requested).getD []).all isMarkup = true := by
  have all : alignments.all (fun entry => entry.2.all isMarkup) = true := rfl
  cases found : alignments.lookup requested with
  | none => rfl
  | some cls => exact List.all_eq_true.1 all _ (mem_of_lookup found)

/-- The tag of a gap and the one that closes it, but for the first bracket and the last. -/
def gapTags (m : Match) : Text :=
  "span class=\"" ++ classes "missing-word" ((alignments.lookup (lowerText (m.group 3))).getD []) ++
    "\" data-missing-word=\"" ++ Attribute.encode (m.group 2) ++ "\"></span"

theorem all_gapTags (m : Match) : (gapTags m).all isMarkup = true := by
  let alignment := (alignments.lookup (lowerText (m.group 3))).getD []
  have lead : ("span class=\"" ++ classes "missing-word" alignment : Text).all isMarkup = true :=
    all_markup_append rfl (all_classes rfl (all_alignment _))
  exact all_markup_append (all_markup_append (all_markup_append lead rfl) (all_encode _)) rfl

theorem gap_writes (m : Match) : gap.replace m =
    (m.group 1 ++ ·) <$> (Rendering.recordGap (m.group 2) >>= fun _ => pure ('<' :: (gapTags m ++ ">"))) := by
  unfold gapTags
  funext s
  refine congrArg (·, _) ?_
  simp only [List.append_assoc]
  rfl

/-- The tag of an emoji, but for its first bracket. -/
def emojiTag (m : Match) : Text := "span class=\"" ++ classes "emoji" (safeClass (m.group 3)) ++ "\">"

theorem all_emojiTag (m : Match) : (emojiTag m).all isMarkup = true := by
  have lead : ("span class=\"" ++ classes "emoji" (safeClass (m.group 3)) : Text).all isMarkup = true :=
    all_markup_append rfl (all_classes rfl (all_safeClass _))
  exact all_markup_append lead rfl

theorem emoji_writes (m : Match) : emoji.replace m =
    (m.group 1 ++ ·) <$> (Emoji.render (m.group 2) >>= fun t => pure ('<' :: (emojiTag m ++ t ++ "</span" ++ ">"))) := by
  unfold emojiTag
  funext s
  refine congrArg (·, _) ?_
  simp only [List.append_assoc]
  rfl

/-- What takes the place of a key: its value, or the key with a hidden message. -/
def shownValue (metadata : Metadata) (key : Text) : Text :=
  let found := if key.isEmpty then [] else (metadata.get? key).getD []
  if found.isEmpty then "<span " ++ Attribute.hiddenError ("Cannot find metadata " ++ key) ++ ">" ++ key ++ "</span>" else found

theorem value_writes (metadata : Metadata) (m : Match) :
    (value metadata).replace m = pure (m.group 1 ++ shownValue metadata (m.group 2)) := by
  simp only [value, shownValue, apply_ite pure, apply_ite (m.group 1 ++ ·), List.append_assoc]

end Item

/-! ## Emojis -/

namespace Emoji

open Item

/-- A character of an entity. -/
def isEntityMark (c : Char) : Bool := c.isAlphanum || anyOf "&#;" c

theorem all_markup_of_entities {t : Text} (h : t.all isEntityMark = true) : t.all isMarkup = true := by
  have signed : ∀ c ∈ ("&#;" : Text), isMarkup c = true := by decide
  refine List.all_eq_true.2 fun c hc => ?_
  rcases Bool.or_eq_true_iff.1 (List.all_eq_true.1 h c hc) with alphanum | sign
  · exact isMarkup_of_isAlphanum alphanum
  · exact signed c (List.contains_iff_mem.1 sign)

theorem all_entities {name t : Text} (h : table.lookup name = some (.entities t)) :
    t.all isEntityMark = true := by
  have all : table.all (fun entry => match entry.2 with
      | .entities t => t.all isEntityMark
      | .alias _ => true) = true := rfl
  exact List.all_eq_true.1 all _ (mem_of_lookup h)

theorem all_named? {name t : Text} (h : named? name = some t) : t.all isEntityMark = true := by
  unfold named? at h
  split at h
  · rename_i found
    exact Option.some.inj h ▸ all_entities found
  · split at h
    · rename_i found
      exact Option.some.inj h ▸ all_entities found
    · cases h
  · cases h

theorem isEntityMark_of_isHexDigit {c : Char} (h : isHexDigit c = true) : isEntityMark c = true := by
  rw [isHexDigit, Bool.or_eq_true, Bool.and_eq_true, decide_eq_true_eq, decide_eq_true_eq] at h
  have alphanum : ((c.isUpper || c.isLower) || c.isDigit) = true := by
    rcases h with digit | ⟨low, high⟩
    · rw [digit, Bool.or_true]
    · have upper : c.isUpper = true := decide_eq_true ⟨low, Nat.le_trans high (by decide)⟩
      rw [upper]
      rfl
  exact Bool.or_eq_true_iff.2 (.inl alphanum)

theorem all_codePoints? {digits t u : Text} (inside : digits.all isEntityMark = true)
    (h : codePoints? digits t = some u) : u.all isEntityMark = true := by
  fun_induction codePoints? digits t generalizing u with
  | case1 | case3 | case6 => cases h
  | case2 =>
      obtain rfl := Option.some.inj h
      rw [List.all_append, List.all_reverse, inside]
      rfl
  | case4 _ _ _ ih =>
      obtain ⟨t, later, rfl⟩ := Option.map_eq_some_iff.1 h
      rw [List.all_append, List.all_append, List.all_reverse, inside, ih rfl later]
      rfl
  | case5 digits c rest _ digit ih =>
      refine ih ?_ h
      rw [List.all_cons, isEntityMark_of_isHexDigit (Bool.and_eq_true_iff.1 digit).1, inside]
      rfl

theorem all_lookup? {definition t : Text} (h : lookup? definition = some t) : t.all isEntityMark = true := by
  unfold lookup? at h
  split at h
  · obtain ⟨u, points, rfl⟩ := Option.map_eq_some_iff.1 h
    rw [List.all_append, all_codePoints? rfl points]
    rfl
  · exact all_named? h

theorem all_unknown (definition : Text) : (unknown definition).all isMarkup = true :=
  all_markup_append (all_markup_append rfl (all_hiddenError _)) rfl

/-- What is shown for an emoji. -/
def shown (definition : Text) : Text :=
  if definition.isEmpty then " " else (lookup? (upperText definition)).getD (unknown definition)

theorem all_shown (definition : Text) : (shown definition).all isMarkup = true := by
  unfold shown
  split
  · rfl
  · cases found : lookup? (upperText definition) with
    | none => exact all_unknown definition
    | some u => exact all_markup_of_entities (all_lookup? found)

/-- Only what is shown for an emoji is written, and at most a notice reported. -/
theorem render_eq (definition : Text) : render definition =
    (if definition.isEmpty then Rendering.report .blankEmoji else pure ()) >>= fun _ => pure (shown definition) := by
  unfold render shown
  split <;> rfl

/-- What is shown for an emoji is markup and leaves the wards alone. -/
theorem render_turns (definition : Text) :
    Turns (render definition) [] fun d => ∃ t, d = chars t ∧ t.all isMarkup = true := by
  have written : Turns (Pure.pure (shown definition)) [] fun d => ∃ t, d = chars t ∧ t.all isMarkup = true :=
    .pure_of (d := chars (shown definition)) ⟨_, rfl, all_shown definition⟩ (by simp) (by simp)
  rw [render_eq]
  split
  · exact Turns.report_bind written (by simp)
  · rwa [pure_bind]

end Emoji

end LessonText
