import LessonText.Proofs.Markup.Listings
import LessonText.Proofs.Markup.SpanGrammar

/-! # Blocks on a page

What becomes of a block: tags, plain text and line ends, and for code a key. What later rules need to know of that is
said once, and it is the same for every block.
-/

namespace LessonText.Block

open Draft Pattern Unicode

/-! ## Drafts of a page -/

/-- The names of the tags around blocks, but for the one of a paragraph. -/
def tagNames : List Text :=
  ["h1", "h2", "h3", "h4", "h5", "h6", "blockquote", "pre", "code", "hr", "ul", "ol", "li"]

def isPageChar (c : Char) : Bool := Span.isPlain c || c == '\n'

/-- A draft of tags, plain text, line ends and keys, in which a paragraph begins with a letter. -/
inductive Page : Draft → Prop where
  | nil : Page []
  | char {c d} : isPageChar c = true → Page d → Page (.char c :: d)
  | key {w d} : Page d → Page (.ward w :: d)
  | opening {name d} : name ∈ tagNames → Page d → Page (chars ('<' :: (name ++ ">")) ++ d)
  | closing {name d} : name ∈ ("p" : Text) :: tagNames → Page d → Page (chars ("</" ++ name ++ ">") ++ d)
  | paragraph {c d} : c.isAlpha = true → Page d → Page (chars "<p>" ++ (.char c :: d))

namespace Page

variable {d e : Draft} {t : Text}

theorem append (hd : Page d) (he : Page e) : Page (d ++ e) := by
  induction hd with
  | nil => exact he
  | char plain _ ih => exact .char plain ih
  | key _ ih => exact .key ih
  | opening listed _ ih => rw [List.append_assoc]; exact .opening listed ih
  | closing listed _ ih => rw [List.append_assoc]; exact .closing listed ih
  | paragraph letter _ ih => rw [List.append_assoc]; exact .paragraph letter ih

theorem of_all (h : t.all isPageChar = true) : Page (chars t) := by
  induction t with
  | nil => exact .nil
  | cons c t ih =>
      obtain ⟨here, later⟩ := Bool.and_eq_true_iff.1 h
      exact .char here (ih later)

theorem join {lines : List Text} (each : ∀ l ∈ lines, Page (chars l)) : Page (chars (Text.join "\n" lines)) := by
  induction lines with
  | nil => exact .nil
  | cons l lines ih =>
      obtain ⟨here, later⟩ := List.forall_mem_cons.1 each
      cases lines with
      | nil => exact here
      | cons m lines =>
          rw [Text.join_cons_cons, chars_append, chars_append]
          exact here.append ((of_all (by decide)).append (ih later))

theorem isPageChar_of_isAlpha {c : Char} (h : c.isAlpha = true) : isPageChar c = true := of_isAlpha (by decide) h

/-- A character of a page that is in no key is in a text or in a tag. -/
theorem mem_chars (page : Page d) {c : Char} (h : .char c ∈ d) :
    isPageChar c = true ∨ c ∈ ("</p>" : Text) ++ tagNames.flatten := by
  have sign {c : Char} (h : c ∈ ("</p>" : Text)) : c ∈ ("</p>" : Text) ++ tagNames.flatten := List.mem_append_left _ h
  have signs : ∀ c ∈ ("</>" : Text), c ∈ ("</p>" : Text) := by decide
  have tag {name : Text} (listed : name ∈ ("p" : Text) :: tagNames) {t : Text} (sub : t ⊆ "</>" ++ name)
      (h : .char c ∈ chars t) : c ∈ ("</p>" : Text) ++ tagNames.flatten := by
    obtain ⟨c, hc, ⟨⟩⟩ := List.mem_map.1 h
    rcases List.mem_append.1 (sub hc) with hc | hc
    · exact sign (signs _ hc)
    · rcases List.mem_cons.1 listed with rfl | listed
      · exact sign (by simp at hc ⊢; tauto)
      · exact List.mem_append_right _ (List.mem_flatten.2 ⟨name, listed, hc⟩)
  induction page with
  | nil => cases h
  | char plain _ ih =>
      rcases List.mem_cons.1 h with ⟨⟨⟩⟩ | h
      · exact .inl plain
      · exact ih h
  | key _ ih => exact ih ((List.mem_cons.1 h).resolve_left nofun)
  | opening listed _ ih =>
      rcases List.mem_append.1 h with h | h
      · exact .inr (tag (List.mem_cons_of_mem _ listed) (by intro d; simp; tauto) h)
      · exact ih h
  | closing listed _ ih =>
      rcases List.mem_append.1 h with h | h
      · exact .inr (tag listed (by intro d; simp; tauto) h)
      · exact ih h
  | paragraph letter _ ih =>
      rcases List.mem_append.1 h with h | h
      · exact .inr (tag List.mem_cons_self (by intro d; simp; tauto) h)
      · rcases List.mem_cons.1 h with ⟨⟨⟩⟩ | h
        · exact .inl (isPageChar_of_isAlpha letter)
        · exact ih h

/-- No character of a page that is in no key begins one, or stands in an equation. -/
theorem unmarked (page : Page d) : .char '?' ∉ d ∧ .char ':' ∉ d := by
  have none : ∀ c ∈ ("?:" : Text), isPageChar c = false ∧ c ∉ ("</p>" : Text) ++ tagNames.flatten := by decide
  have other {c : Char} (h : c ∈ ("?:" : Text)) : .char c ∉ d := by
    intro mem
    rcases page.mem_chars mem with plain | listed
    · rw [(none c h).1] at plain
      cases plain
    · exact (none c h).2 listed
  exact ⟨other (by simp), other (by simp)⟩

/-- A pattern passes over a page if it passes over its tags and begins with nothing that is in a text or a key. -/
theorem passes {p : Pattern} (advances : p.Advances)
    (plain : ∀ c, isPageChar c = true → p.mayBegin c = false) (key : ∀ c, Warden.isKeyChar c = true → p.mayBegin c = false)
    (opening : ∀ name ∈ tagNames, ∀ b t, p.Passes b ('<' :: (name ++ ">")) t)
    (closing : ∀ name ∈ ("p" : Text) :: tagNames, ∀ b t, p.Passes b ("</" ++ name ++ ">") t)
    (paragraph : ∀ c, c.isAlpha = true → ∀ b t, p.Passes b "<p>" (c :: t)) (page : Page d) :
    ∀ b t, p.Passes b (text d) t := by
  induction page with
  | nil => exact fun _ _ => .nil
  | char here _ ih => exact fun b t => .cons (.of_begin advances (plain _ here)) (ih _ _)
  | key _ ih =>
      exact fun b t => .append (.of_begin advances fun c hc => key c (isKeyChar_of_mem_key hc)) (ih _ _)
  | opening listed _ ih =>
      intro b t
      rw [text_append, text_chars]
      exact .append (opening _ listed _ _) (ih _ _)
  | closing listed _ ih =>
      intro b t
      rw [text_append, text_chars]
      exact .append (closing _ listed _ _) (ih _ _)
  | @paragraph c d letter _ ih =>
      intro b t
      have here : isPageChar c = true := isPageChar_of_isAlpha letter
      rw [text_append, text_chars]
      exact .append (paragraph c letter _ _) (.cons (.of_begin advances (plain c here)) (ih _ _))

end Page

/-! ## Rendered blocks -/

/-- A character with which a line of a page begins. -/
def startsLine (c : Char) : Bool := c.isAlpha || c == '<'

/-- What stands in the place of a block once its rule has rendered it. -/
structure Rendered (c : Chunk) (d : Draft) : Prop where
  page : Page d
  led : Led startsLine (text d)
  /-- It begins with a tag. -/
  begins : ∃ name rest, name ≠ [] ∧ (∀ c ∈ name, isWord c = true) ∧ text d = '<' :: (name ++ '>' :: rest)
  /-- Where it holds a key it is one line. -/
  line : wards d = [] ∨ '\n' ∉ text d
  meaning : (meaning d).filter (· != '\n') = c.html

namespace Rendered

variable {c : Chunk} {name : Text} {lines : List Text} {a z : Text}

theorem isWord_of_name (known : name ∈ ("p" : Text) :: tagNames) : name ≠ [] ∧ ∀ c ∈ name, isWord c = true := by
  have all : ∀ name ∈ ("p" : Text) :: tagNames, name ≠ [] ∧ name.all isWord = true := by decide
  exact ⟨(all name known).1, fun c hc => List.all_eq_true.1 (all name known).2 c hc⟩

/-- Lines between two tags, with a line end before and behind them or without. -/
theorem of_lines (known : name ∈ ("p" : Text) :: tagNames) (full : lines ≠ [])
    (each : ∀ l ∈ lines, l.head?.any startsLine = true ∧ '\n' ∉ l) (before : a = [] ∨ a = ['\n']) (behind : z = [] ∨ z = ['\n'])
    (page : Page (chars ('<' :: (name ++ ">") ++ (a ++ Text.join "\n" lines)))) (html : c.html = tagged name lines.flatten) :
    Rendered c (chars (tagged name (a ++ (Text.join "\n" lines ++ z)))) := by
  obtain ⟨named, word⟩ := isWord_of_name known
  have single : '\n' ∉ name := fun mem => by
    have := word _ mem
    revert this
    decide
  have opening : '\n' ∉ '<' :: (name ++ ">") := by simp [single]
  have closing : '\n' ∉ "</" ++ name ++ ">" := by simp [single]
  have kept {x : Text} (h : '\n' ∉ x) : x.filter (· != '\n') = x :=
    List.filter_eq_self.2 fun c hc => bne_iff_ne.2 (by rintro rfl; exact h hc)
  have gone {x : Text} (h : x = [] ∨ x = ['\n']) : x.filter (· != '\n') = [] := by
    rcases h with rfl | rfl <;> rfl
  have split : tagged name (a ++ (Text.join "\n" lines ++ z)) =
      '<' :: (name ++ ">") ++ (a ++ Text.join "\n" lines) ++ (z ++ ("</" ++ name ++ ">")) := by simp [tagged]
  rw [split]
  refine ⟨?_, ?_, ⟨name, a ++ Text.join "\n" lines ++ (z ++ ("</" ++ name ++ ">")), named, word, ?_⟩,
    .inl (wards_chars _), ?_⟩
  · have blank : z.all isPageChar = true := by
      rcases behind with rfl | rfl <;> rfl
    have ended := Page.closing known .nil
    rw [List.append_nil] at ended
    have all := page.append ((Page.of_all blank).append ended)
    rwa [← chars_append, ← chars_append] at all
  · have led : Led startsLine (Text.join "\n" lines) :=
      Text.join_led full fun l hl => .of_single (each l hl).1 (each l hl).2
    have opened : Led startsLine ('<' :: (name ++ ">")) := .of_single rfl opening
    rw [text_chars]
    exact (opened.append led before).append (.of_single rfl closing) behind
  · rw [text_chars]
    simp
  · rw [meaning_chars, html, List.filter_append, List.filter_append, List.filter_append, List.filter_append, kept opening,
      kept closing, gone before, gone behind, Text.filter_join fun l hl => (each l hl).2]
    rfl

end Rendered

end LessonText.Block
