import LessonText.Lesson.Problem
import LessonText.Proofs.Item.Markup
import LessonText.Proofs.Item.Reading
import LessonText.Proofs.Markup.BlockSteps
import LessonText.Proofs.Markup.Listings

/-! # Sentences with gaps

A sentence of words and gaps is rendered as one paragraph. Its gaps are recorded in order, its plain text shows them as
dots, and where they stand decides how a problem is to be answered.
-/

namespace LessonText

open Pattern Unicode

/-- A word of a sentence, or a gap with the word that belongs into it, if there is one. -/
inductive Slot where
  | word (text : Text) (full : text ≠ []) (plain : text.all Char.isAlphanum = true)
  | gap (answer : Text) (plain : answer.all Char.isAlphanum = true)

namespace Slot

/-- A slot as an author writes it. -/
def source : Slot → Text
  | word t _ _ => t
  | gap t _ => "..." ++ t

/-- A slot as a reader sees it. -/
def shown : Slot → Text
  | word t _ _ => t
  | gap _ _ => "..."

/-- A slot on a page. -/
def html : Slot → Text
  | word t _ _ => t
  | gap t _ => "<span class=\"missing-word\" data-missing-word=\"" ++ Attribute.encode t ++ "\"></span>"

def answer? : Slot → Option Text
  | word _ _ _ => none
  | gap t _ => some t

/-- A sentence: its slots with single spaces between them. -/
def sentence (f : Slot → Text) (slots : List Slot) : Text := Text.join " " (slots.map f)

/-- What belongs into the gaps of a sentence. -/
def answers (slots : List Slot) : List Text := slots.filterMap answer?

/-- How a problem is to be answered that asks for a sentence. -/
def questionType (slots : List Slot) (right : List TextItem) : QuestionType :=
  if answers slots = [[]] ∧ slots.getLast?.bind answer? = some [] then .order
  else if answers slots ≠ [] ∧ [] ∉ answers slots then .fill
  else match right with
    | [] => .slide
    | [_] => .simple
    | _ => .multi

theorem answers_cons (slot : Slot) (slots : List Slot) : answers (slot :: slots) = slot.answer?.toList ++ answers slots := by
  cases slot <;> rfl

variable {b : Option Char} {c : Char} {slots : List Slot} {s : Session} {t r : Text}

/-- The slots behind the first one, each behind a space. -/
def later (f : Slot → Text) (slots : List Slot) : Text := slots.flatMap fun slot => ' ' :: f slot

theorem sentence_cons (f : Slot → Text) (slot : Slot) (slots : List Slot) :
    sentence f (slot :: slots) = f slot ++ later f slots := by
  induction slots generalizing slot with
  | nil => exact (List.append_nil _).symm
  | cons next slots ih =>
      rw [sentence, List.map_cons, List.map_cons, Text.join_cons_cons, ← List.map_cons, ← sentence, ih, later, later,
        List.flatMap_cons]
      rfl

/-! ## The rule for gaps -/

theorem isPlainPart_of_isAlphanum (h : c.isAlphanum = true) : Item.isPlainPart c = true := of_isAlphanum (by decide) h

theorem ends_later (f : Slot → Text) (slots : List Slot) : Item.Ends (later f slots ++ "</p>\n") := by
  cases slots with
  | nil => exact .inr ⟨"\n", rfl⟩
  | cons slot slots => exact .inl ⟨_, _, rfl, rfl⟩

theorem later_bare (f : Slot → Text) (slots : List Slot) : ∀ c ∈ (later f slots ++ "</p>\n").head?, Item.word.mayBegin c = false := by
  cases slots <;> (rintro _ ⟨⟩; rfl)

/-- Behind a space or a tag a gap begins with a dot. -/
theorem gap_misses (other : c ≠ '.') {sep : Char} (before : sep ∈ (" >" : Text)) : Item.gap.pattern.Misses b (sep :: c :: t) := by
  have signs : ∀ d ∈ (" >" : Text), (d == '.') = false ∧ d ≠ '?' := by decide
  refine Item.pattern_misses (Item.begins_literal '.' "..") (signs sep before).1 (signs sep before).2 fun _ d hd => ?_
  obtain rfl := Option.some.inj hd
  exact beq_false_of_ne other

/-- A gap without a class is recorded and becomes its mark. -/
theorem gap_replace (w : Text) (sep : Char) (answer : Text) (plain : answer.all Char.isAlphanum = true) :
    Item.gap.replace ⟨w, (if answer.isEmpty then [] else [(2, answer)]) ++ [(1, [sep])]⟩ s =
      (sep :: (gap answer plain).html, { s with gaps := s.gaps ++ [answer] }) := by
  cases answer with
  | nil => rfl
  | cons c answer => rfl

/-- What the rule for gaps makes of a slot behind a space or a tag. -/
theorem gap_applyFrom_slot {bound : Nat} {sep : Char} (slot : Slot) (before : sep ∈ (" >" : Text))
    (line : b.all (· == '\n') = false) (ends : Item.Ends r) (bare : ∀ c ∈ r.head?, Item.word.mayBegin c = false) (inside : (sep :: slot.source ++ r).length ≤ bound) :
    Item.gap.applyFrom bound b (sep :: slot.source ++ r) s =
      let rest := Item.gap.applyFrom bound ((sep :: slot.source).getLast?.or b) r { s with gaps := s.gaps ++ slot.answer?.toList }
      (sep :: slot.html ++ rest.1, rest.2) := by
  cases slot with
  | word t full plain =>
      obtain ⟨c, t, rfl⟩ := List.exists_cons_of_ne_nil full
      have alphanum : ∀ d ∈ c :: t, d.isAlphanum = true := List.all_eq_true.1 plain
      have passes : Item.gap.pattern.Passes b (sep :: c :: t) r := by
        have first : c ≠ '.' := by
          rintro rfl
          exact absurd (alphanum '.' List.mem_cons_self) (by decide)
        have miss : Item.gap.pattern.Misses b (sep :: (c :: t ++ r)) := gap_misses first before
        refine .cons miss (.of_begin (.of_passes rfl) fun d hd => ?_)
        have none := of_isAlphanum (p := fun c => !Item.gap.pattern.mayBegin c) (by decide) (alphanum d hd)
        exact Bool.not_eq_true' _ ▸ none
      have same : ({ s with gaps := s.gaps ++ [] } : Session) = s := by rw [List.append_nil]
      show Item.gap.applyFrom bound b (sep :: c :: t ++ r) s = _
      rw [Rule.applyFrom_passes passes, Markup.map_run]
      simp only [answer?, Option.toList, same]
      rfl
  | gap t plain =>
      have part : ∀ c ∈ t, Item.isPlainPart c = true := fun c hc => isPlainPart_of_isAlphanum (List.all_eq_true.1 plain c hc)
      have reads : Item.gap.pattern.Reads b ([sep] ++ ("..." ++ t)) r _ := Item.reads before line (fun _ _ => .literal _)
        (fun c hc => (Bool.and_eq_true_iff.1 (part c (List.mem_of_mem_head? hc))).1)
        (fun c hc => part c (List.mem_of_mem_tail hc)) ends fun _ => bare
      have all := congrFun (Rule.applyFrom_reads (r := Item.gap) (List.cons_ne_nil _ _) reads inside) s
      exact all.trans (Markup.bind_run (gap_replace _ sep t plain))

theorem source_last (sep : Char) (slot : Slot) : ((sep :: slot.source).getLast?.or b).all (· == '\n') = false := by
  have plain : ∀ c ∈ slot.source, c.isAlphanum = true ∨ c = '.' := by
    cases slot with
    | word t full plain => exact fun c hc => .inl (List.all_eq_true.1 plain c hc)
    | gap t plain =>
        intro c hc
        rcases List.mem_append.1 hc with dot | hc
        · exact .inr (by simpa using dot)
        · exact .inl (List.all_eq_true.1 plain c hc)
  have full : slot.source ≠ [] := by
    cases slot with
    | word t full plain => exact full
    | gap t plain => exact List.cons_ne_nil _ _
  have last := List.getLast?_eq_some_getLast full
  rw [List.getLast?_cons_of_ne_nil full, last]
  rcases plain _ (List.getLast_mem full) with alphanum | dot
  · have other := of_isAlphanum (p := fun c => !(c == '\n')) (by decide) alphanum
    simpa using other
  · simp [dot]

theorem gap_applyFrom_later {bound : Nat} : ∀ {b : Option Char} {s : Session}, b.all (· == '\n') = false →
    (later source slots ++ "</p>\n").length ≤ bound →
    Item.gap.applyFrom bound b (later source slots ++ "</p>\n") s =
      (later html slots ++ "</p>\n", { s with gaps := s.gaps ++ answers slots }) := by
  have advances : Item.gap.pattern.Advances := .of_passes rfl
  induction slots with
  | nil =>
      intro b s line inside
      have front : Item.gap.pattern.Passes b "</p" ">\n" := .of_begin advances (by decide)
      have back {b : Option Char} : Item.gap.pattern.Passes b ">\n" [] :=
        .cons (gap_misses (by decide) (by decide)) (.of_begin advances (by decide))
      have passes : Item.gap.pattern.Passes b "</p>\n" [] := front.append back
      have same : ({ s with gaps := s.gaps ++ [] } : Session) = s := by rw [List.append_nil]
      have all : Item.gap.applyFrom bound b (("</p>\n" : Text) ++ []) s = _ := congrFun (Rule.applyFrom_passes passes) s
      rw [List.append_nil, Rule.applyFrom_nil advances.misses_nil] at all
      exact all.trans (by rw [answers, List.filterMap_nil, same]; rfl)
  | cons slot slots ih =>
      intro b s line inside
      have split (f : Slot → Text) : later f (slot :: slots) ++ "</p>\n" = (' ' :: f slot) ++ (later f slots ++ "</p>\n") := by
        simp [later]
      rw [split] at inside ⊢
      rw [gap_applyFrom_slot slot (by decide) line (ends_later source slots) (later_bare source slots) inside, split]
      rw [List.length_append] at inside
      simp only [ih (source_last ' ' slot) (show (later source slots ++ "</p>\n").length ≤ bound by omega), answers_cons,
        List.append_assoc]

/-- The gaps of a sentence become marks, and their words are recorded. -/
theorem gap_apply (slot : Slot) (slots : List Slot) :
    Item.gap.apply ("\n<p>" ++ sentence source (slot :: slots) ++ "</p>\n") s =
      ("\n<p>" ++ sentence html (slot :: slots) ++ "</p>\n", { s with gaps := s.gaps ++ answers (slot :: slots) }) := by
  have advances : Item.gap.pattern.Advances := .of_passes rfl
  have split (f : Slot → Text) : "\n<p>" ++ sentence f (slot :: slots) ++ "</p>\n" =
      "\n<p" ++ ('>' :: f slot ++ (later f slots ++ "</p>\n")) := by
    rw [sentence_cons]
    simp
  have front {t : Text} : Item.gap.pattern.Passes none "\n<p" t := .of_begin advances (by decide)
  generalize limit : ("\n<p>" ++ sentence source (slot :: slots) ++ "</p>\n").length = bound
  have inside : ("\n<p" ++ ('>' :: slot.source ++ (later source slots ++ "</p>\n"))).length ≤ bound := by
    rw [← split, limit]
  rw [Rule.apply_eq, limit, split, Rule.applyFrom_passes front, Markup.map_run, split]
  rw [List.length_append] at inside
  have first := gap_applyFrom_slot (s := s) (b := some 'p') slot (by decide) rfl (ends_later source slots) (later_bare source slots)
    (show ('>' :: slot.source ++ (later source slots ++ "</p>\n")).length ≤ bound by omega)
  rw [List.length_append] at inside
  have rest := gap_applyFrom_later (s := { s with gaps := s.gaps ++ slot.answer?.toList }) (source_last (b := some 'p') '>' slot)
    (show (later source slots ++ "</p>\n").length ≤ bound by omega)
  rw [show ("\n<p" : Text).getLast?.or none = some 'p' from rfl, first, rest, answers_cons]
  simp only [List.append_assoc]

/-! ## The passes before -/

/-- The characters of a sentence as its author writes it. -/
theorem mem_source {c : Char} (h : c ∈ sentence source slots) : c ∈ " ." ++ charsOf alphanumRanges := by
  have alphanum {c : Char} (h : c.isAlphanum = true) : c ∈ " ." ++ charsOf alphanumRanges :=
    List.mem_append_right _ (mem_charsOf (inRanges_of_isAlphanum h))
  have each (slot : Slot) (h : c ∈ slot.source) : c ∈ " ." ++ charsOf alphanumRanges := by
    cases slot with
    | word t full plain => exact alphanum (List.all_eq_true.1 plain c h)
    | gap t plain =>
        rcases List.mem_append.1 h with dot | h
        · obtain rfl : c = '.' := by simpa using dot
          exact List.mem_append_left _ (by decide)
        · exact alphanum (List.all_eq_true.1 plain c h)
  cases slots with
  | nil => cases h
  | cons slot slots =>
      rw [sentence_cons, List.mem_append, later, List.mem_flatMap] at h
      rcases h with h | ⟨slot, -, h⟩
      · exact each _ h
      · rcases List.mem_cons.1 h with rfl | h
        · exact List.mem_append_left _ (by decide)
        · exact each _ h

/-- The characters of a sentence on a page. -/
theorem mem_html {c : Char} (h : c ∈ "\n<p>" ++ sentence html slots ++ "</p>\n") : c ∈ '\n' :: (Item.signs ++ charsOf alphanumRanges) := by
  have each (slot : Slot) : slot.html.all Item.isMarkup = true := by
    cases slot with
    | word t full plain =>
        exact List.all_eq_true.2 fun c hc => Item.isMarkup_of_isAlphanum (List.all_eq_true.1 plain c hc)
    | gap t plain => exact Item.all_markup_append (Item.all_markup_append rfl (Item.all_encode t)) rfl
  have markup {c : Char} (h : Item.isMarkup c = true) : c ∈ '\n' :: (Item.signs ++ charsOf alphanumRanges) :=
    List.mem_cons_of_mem _ (Item.mem_of_isMarkup h)
  have inner (h : c ∈ sentence html slots) : c ∈ '\n' :: (Item.signs ++ charsOf alphanumRanges) := by
    cases slots with
    | nil => cases h
    | cons slot slots =>
        rw [sentence_cons, List.mem_append, later, List.mem_flatMap] at h
        rcases h with h | ⟨slot, -, h⟩
        · exact markup (List.all_eq_true.1 (each _) c h)
        · rcases List.mem_cons.1 h with rfl | h
          · exact markup rfl
          · exact markup (List.all_eq_true.1 (each _) c h)
  have tags {t : Text} (all : t.all (fun c => c == '\n' || Item.isMarkup c) = true) (h : c ∈ t) :
      c ∈ '\n' :: (Item.signs ++ charsOf alphanumRanges) := by
    rcases Bool.or_eq_true_iff.1 (List.all_eq_true.1 all c h) with newline | sign
    · exact beq_iff_eq.1 newline ▸ List.mem_cons_self
    · exact markup sign
  rcases List.mem_append.1 h with h | h
  · rcases List.mem_append.1 h with h | h
    · exact tags (by decide) h
    · exact inner h
  · exact tags (by decide) h

theorem not_mem_source {c : Char} (h : c ∉ " ." ++ charsOf alphanumRanges) : c ∉ sentence source slots :=
  fun mem => h (mem_source mem)

theorem source_begins (slot : Slot) (slots : List Slot) : ∃ c rest, sentence source (slot :: slots) = c :: rest ∧
    (c = '.' ∨ c.isAlphanum = true) := by
  rw [sentence_cons]
  cases slot with
  | word t full plain =>
      obtain ⟨c, t, rfl⟩ := List.exists_cons_of_ne_nil full
      exact ⟨c, t ++ later source slots, rfl, .inr (List.all_eq_true.1 plain c List.mem_cons_self)⟩
  | gap t plain => exact ⟨'.', _, rfl, .inl rfl⟩

theorem source_solid (slot : Slot) (slots : List Slot) : SolidLine (sentence source (slot :: slots)) := by
  obtain ⟨c, rest, split, begins⟩ := source_begins slot slots
  refine ⟨⟨c, rest, split, ?_⟩, not_mem_source (by decide)⟩
  rcases begins with rfl | alphanum
  · decide
  · have other := of_isAlphanum (p := fun c => !isSpace c && c != '<') (by decide) alphanum
    simpa using other

/-- A full stop of a sentence stands behind a space or another full stop. -/
theorem source_chain (slots : List Slot) :
    (sentence source slots).IsChain fun a c => c = '.' → a = ' ' ∨ a = '.' := by
  have plain {t : Text} (h : t.all Char.isAlphanum = true) : t.IsChain fun a c => c = '.' → a = ' ' ∨ a = '.' := by
    refine List.isChain_iff_forall_rel_of_append_cons_cons.2 fun {a c l l'} split same => ?_
    have alphanum := List.all_eq_true.1 h c (by simp [split])
    rw [same] at alphanum
    cases alphanum
  have each (slot : Slot) : slot.source.IsChain fun a c => c = '.' → a = ' ' ∨ a = '.' := by
    cases slot with
    | word t full h => exact plain h
    | gap t h =>
        refine List.isChain_append.2 ⟨by simp, plain h, fun a ha c _ _ => .inr ?_⟩
        exact (Option.some.inj ha).symm
  have behind (slots : List Slot) : (later source slots).IsChain fun a c => c = '.' → a = ' ' ∨ a = '.' := by
    induction slots with
    | nil => exact List.isChain_nil
    | cons slot slots ih =>
        have first : (' ' :: slot.source).IsChain fun a c => c = '.' → a = ' ' ∨ a = '.' :=
          List.isChain_cons.2 ⟨fun c _ _ => .inl rfl, each slot⟩
        refine List.isChain_append.2 ⟨first, ih, fun a _ c hc same => ?_⟩
        subst same
        cases slots <;> cases hc
  cases slots with
  | nil => exact List.isChain_nil
  | cons slot slots =>
      rw [sentence_cons]
      refine List.isChain_append.2 ⟨each slot, behind slots, fun a _ c hc same => ?_⟩
      subst same
      cases slots <;> cases hc

/-- No digits of a sentence stand before a full stop. -/
theorem numbered_misses (slots : List Slot) : Block.numbered.block.Misses b (sentence source slots) := by
  rintro w r gs split ⟨_, y, _, _, rfl, -, ⟨_, x, _, _, rfl, -, ⟨lead, _, _, _, rfl, -, -, hstart⟩, -⟩, -⟩
  obtain ⟨_, gaps, _, _, rfl, -, ⟨_, _, _, _, rfl, -, ⟨indent, digits, _, _, rfl, -, -, hdigits⟩, hstop⟩, -⟩ := hstart
  obtain ⟨rfl, -⟩ := takes_literal.1 hstop
  obtain ⟨full, areDigits, -, -⟩ := takes_span1.1 hdigits
  obtain ⟨before, digit, rfl⟩ : ∃ v d, digits = v ++ [d] :=
    ⟨_, _, (List.dropLast_append_getLast full).symm⟩
  have isDigit := areDigits digit (by simp)
  have chain := source_chain slots
  have whole : sentence source slots = lead ++ indent ++ before ++ digit :: '.' :: (gaps ++ (x ++ (y ++ r))) := by
    simp [split]
  rcases List.isChain_iff_forall_rel_of_append_cons_cons.1 chain whole rfl with rfl | rfl <;> cases isDigit

/-- The rules of blocks find nothing at the start of a sentence. -/
theorem blocks_miss (slot : Slot) (slots : List Slot) :
    ∀ r ∈ Block.rules, r.pattern.Misses none (sentence source (slot :: slots)) := by
  have line := source_solid slot slots
  obtain ⟨c, rest, split, begins⟩ := source_begins slot slots
  have first {p : Pattern} (advances : p.Advances)
      (apart : ('.' :: charsOf alphanumRanges).all (fun c => !p.mayBegin c) = true) :
      p.Misses none (sentence source (slot :: slots)) := by
    rw [split]
    refine .of_begin advances ?_
    have mem : c ∈ '.' :: charsOf alphanumRanges := by
      rcases begins with rfl | alphanum
      · exact List.mem_cons_self
      · exact List.mem_cons_of_mem _ (mem_charsOf (inRanges_of_isAlphanum alphanum))
    simpa using List.all_eq_true.1 apart c mem
  simp only [Block.rules, List.forall_mem_cons]
  refine ⟨Block.underlined_misses line.single, Block.underlined_misses line.single, ?_, ?_, ?_, ?_, ?_, numbered_misses _, ?_,
    by simp⟩
  rotate_right
  · rintro w r gs split takes
    obtain ⟨-, c, v, rest, rfl, -⟩ := Block.equation_takes takes
    have colon : ':' ∈ sentence source (slot :: slots) := by simp [split]
    exact not_mem_source (by decide) colon
  all_goals exact first (.of_passes rfl) (by decide)

/-! ## The whole run -/

/-- A sentence becomes one paragraph, and the words of its gaps are recorded. -/
theorem run_sentence (metadata : Metadata) (slot : Slot) (slots : List Slot) :
    (TextItem.run metadata (sentence source (slot :: slots))).1 = "\n<p>" ++ sentence html (slot :: slots) ++ "</p>\n" ∧
      (TextItem.run metadata (sentence source (slot :: slots))).2.gaps = answers (slot :: slots) := by
  have signs : ∀ e ∈ Span.leadSigns ++ Span.firstSigns, e ∉ " ." ++ charsOf alphanumRanges := by decide
  have line := source_solid slot slots
  have spans := Span.rules_unsigned (t := sentence source (slot :: slots)) fun c lead =>
    not_mem_source (signs c (List.mem_append_left _ lead))
  have run : TextItem.run metadata (sentence source (slot :: slots)) = _ :=
    TextItem.run_of_spans line (blocks_miss slot slots)
      (fun e first => not_mem_source (signs e (List.mem_append_right _ first))) (congrFun spans {}) line
      (.of_not_mem (not_mem_source (by decide)))
  have backslash : '\\' ∉ "\n<p>" ++ sentence source (slot :: slots) ++ "</p>\n" := by
    simp only [List.mem_append, not_or]
    exact ⟨⟨by decide, not_mem_source (by decide)⟩, by decide⟩
  have bracket := Item.escapedBracket_apply backslash
  have colon : ∀ d ∈ "\n<p>" ++ sentence html (slot :: slots) ++ "</p>\n", sameLetter ':' d = false := by
    have none : ('\n' :: (Item.signs ++ charsOf alphanumRanges)).all (fun d => !sameLetter ':' d) = true := by decide
    exact fun d hd => by simpa using List.all_eq_true.1 none d (mem_html hd)
  have emoji := Item.fold_apply (r := Item.emoji) rfl (c := ':') (by decide) colon
  have value := Item.fold_apply (r := Item.value metadata) rfl (c := ':') (by decide) colon
  have items : Rule.applyAll (Item.rules metadata) ("\n<p>" ++ sentence source (slot :: slots) ++ "</p>\n") {} =
      ("\n<p>" ++ sentence html (slot :: slots) ++ "</p>\n", { gaps := answers (slot :: slots) }) := by
    have full : ("\n<p>" ++ sentence source (slot :: slots) ++ "</p>\n").isEmpty = false := rfl
    rw [Rule.applyAll, full, if_neg Bool.false_ne_true, Item.rules, List.foldlM_cons, bracket, pure_bind, List.foldlM_cons,
      Markup.bind_run (gap_apply slot slots), List.foldlM_cons, emoji, pure_bind, List.foldlM_cons, value]
    rfl
  rw [run, Markup.bind_run items]
  exact ⟨Warden.reinstate_empty rfl _, rfl⟩

end Slot

end LessonText
