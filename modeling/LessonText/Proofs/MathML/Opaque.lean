import Mathlib.Data.List.Infix
import LessonText.Proofs.Markup.SpanGrammar

/-! # Blocks that no other pass sees

A MathML block without anything to remove stands in a line of plain text, and may hold whatever it likes. It is found whole
and goes into custody before any other pass reads the text, so the rules see one line of plain text with a key in it; and
what is put back at the end is not read again.
-/

namespace LessonText

open Pattern Unicode Draft

namespace MathML

variable {t p q : Text}

/-! ## Safe blocks -/

/-- A block from a bare opening tag to the first closing tag, in which nothing is removed or escaped. -/
structure IsSafe (t : Text) : Prop where
  opens : "<math>" <+: t
  closes : "</math>" <:+ t
  -- Any other closing tag would end before the last character.
  first : ¬ "</math>" <:+: t.dropLast
  plain : '\r' ∉ t ∧ '\x00' ∉ t
  sanitised : sanitise t = t

namespace IsSafe

/-- The tags at both ends do not overlap. -/
theorem split (safe : IsSafe t) : ∃ body, t = "<math>" ++ (body ++ "</math>") := by
  obtain ⟨behind, rfl⟩ := safe.opens
  obtain ⟨before, closes⟩ := safe.closes
  rcases List.append_eq_append_iff.1 closes with ⟨shared, whole, closing⟩ | ⟨body, rfl, rfl⟩
  · have apart : ∀ x ∈ ("<math>" : Text).tails, x <+: "</math>" → x = [] := by decide
    obtain rfl := apart shared ((List.mem_tails _ _).2 ⟨before, whole.symm⟩) ⟨behind, closing.symm⟩
    obtain rfl : behind = "</math>" := closing.symm
    exact ⟨[], rfl⟩
  · exact ⟨body, rfl⟩

/-- No closing tag begins before the last one, whatever follows the block. -/
theorem not_closing {u v : Text} (safe : IsSafe t) (split : t = u ++ v) (long : ("</math>" : Text).length < v.length)
    (r : Text) : ¬ "</math>" <+: v ++ r := by
  intro closing
  have full : v ≠ [] := List.ne_nil_of_length_pos (Nat.zero_lt_of_lt long)
  have inside : "</math>" <+: v.dropLast := by
    refine List.prefix_of_prefix_length_le closing ((List.dropLast_prefix v).trans (List.prefix_append v r)) ?_
    rw [List.length_dropLast]
    omega
  refine safe.first ?_
  rw [split, List.dropLast_append_of_ne_nil full]
  exact inside.isInfix.trans (List.suffix_append u _).isInfix

/-- A block is found whole, whatever follows it. -/
theorem block_reads (safe : IsSafe t) (b : Option Char) (r : Text) : block.Reads b t r [] := by
  obtain ⟨body, rfl⟩ := safe.split
  have opening : ("<math" ++ span (· != '>') ++ ">").Reads b "<math>" (body ++ ("</math>" ++ r)) [] := by
    have name : (literal "<math" ++ span (· != '>')).Reads b "<math" (">" ++ (body ++ ("</math>" ++ r))) [] :=
      (Reads.literal "<math").append (v := []) (.span nofun (by rintro _ ⟨⟩; rfl))
    exact name.append (.literal ">")
  have lazily := Lazily.after opening (.fewest (r := "</math>" ++ r) fun _ _ => rfl)
  have whole := lazily.append (.literal "</math>") fun u x early split => ?_
  · rwa [List.append_assoc] at whole
  · obtain ⟨u, rfl, v, rfl, full⟩ := early
    obtain rfl : x = v ++ "</math>" ++ r := by simpa using split.symm
    refine (misses_literal (safe.not_closing (u := "<math>" ++ u) (by simp) ?_ r)).fails
    rw [List.length_append]
    have := List.length_pos_iff.2 full
    omega

end IsSafe

/-- No block is found in a text without brackets. -/
theorem block_passes {b : Option Char} {r : Text} (none : '<' ∉ t) : block.Passes b t r :=
  .of_sign (.of_passes rfl) (by simp [block]) none

/-! ## A line with a key -/

/-- A key between two plain texts. -/
def keyed (p : Text) (w : Ward) (q : Text) : Draft := chars p ++ .ward w :: chars q

theorem text_keyed {w : Ward} : text (keyed p w q) = p ++ (w.key ++ q) := by simp [keyed, Token.text]

theorem meaning_keyed {w : Ward} : meaning (keyed p w q) = p ++ (w.data ++ q) := by simp [keyed, Token.meaning]

theorem mark_mem_keyed (w : Ward) : '?' ∈ text (keyed p w q) := by
  obtain ⟨k, key⟩ := key_cons w
  simp [text_keyed, key]

theorem keyed_ne_nil (w : Ward) : text (keyed p w q) ≠ [] := List.ne_nil_of_mem (mark_mem_keyed w)

/-- A start without a character that stands behind a text lies in the text. -/
theorem prefix_of_not_mem {start behind : Text} {c : Char} (begins : start <+: p ++ c :: behind) (none : c ∉ start) :
    start <+: p := by
  obtain ⟨rest, whole⟩ := begins
  rcases List.append_eq_append_iff.1 whole with ⟨x, rfl, -⟩ | ⟨x, rfl, split⟩
  · exact List.prefix_append start x
  · cases x with
    | nil => rw [List.append_nil]
    | cons d x =>
        obtain ⟨rfl, -⟩ := List.cons.inj split
        simp at none

section Keyed

variable (front : p.all Span.isPlain = true) (behind : q.all Span.isPlain = true) (w : Ward)
include front behind

/-- A sign that is neither plain nor in a key is not in the line. -/
theorem not_mem_keyed {c : Char} (plain : Span.isPlain c = false) (key : Warden.isKeyChar c = false) :
    c ∉ text (keyed p w q) := by
  have outside {x : Text} (all : x.all Span.isPlain = true) : c ∉ x := not_mem_of_all (List.all_eq_true.1 all) plain
  simp [text_keyed, outside front, outside behind, not_mem_key key]

theorem unsigned_keyed {signs : Text} (other : ∀ e ∈ signs, Span.isPlain e = false ∧ Warden.isKeyChar e = false) :
    ∀ e ∈ signs, e ∉ text (keyed p w q) :=
  fun e sign => not_mem_keyed front behind w (other e sign).1 (other e sign).2

theorem escape_keyed : Markup.escape (text (keyed p w q)) = text (keyed p w q) :=
  Span.escape_unsigned (unsigned_keyed front behind w (by decide))

theorem spanRules_keyed : Markup.Extent.spans.rules.foldlM (fun t r => r.apply t) (text (keyed p w q)) =
    pure (text (keyed p w q)) :=
  Span.rules_unsigned (unsigned_keyed front behind w (by decide))

theorem closing_spans_keyed : Markup.closing .spans [] (text (keyed p w q)) = pure (text (keyed p w q)) := by
  have line : '\n' ∉ text (keyed p w q) := not_mem_keyed front behind w rfl rfl
  have unopened : '<' ∉ text (keyed p w q) := not_mem_keyed front behind w rfl rfl
  rw [Markup.closing_eq .spans (keyed_ne_nil w), spanRules_keyed front behind w, map_pure,
    Span.cleanUp_eq line (mark_mem_keyed w) (.of_not_mem unopened)]

/-- A line that begins with a letter is no equation, since what a key begins with is no colon. -/
theorem closing_document_keyed (letter : p.head?.any Char.isAlpha = true) :
    Markup.closing .document [] (text (keyed p w q)) = pure ("\n<p>" ++ text (keyed p w q) ++ "</p>\n") := by
  have line : OneLine (text (keyed p w q)) := by
    refine ⟨?_, not_mem_keyed front behind w rfl rfl⟩
    cases p with
    | nil => cases letter
    | cons c rest => exact ⟨c, text (keyed rest w q), rfl, letter⟩
  have unopened : '<' ∉ text (keyed p w q) := not_mem_keyed front behind w rfl rfl
  have other {start : Text} (colon : ':' ∈ start) (mark : '?' ∉ start) : ¬ start <+: text (keyed p w q) := by
    intro begins
    obtain ⟨k, key⟩ := key_cons w
    rw [text_keyed, key, List.cons_append] at begins
    have inside := List.all_eq_true.1 front ':' ((prefix_of_not_mem begins mark).subset colon)
    cases inside
  have noMath : ¬ "math:" <+: text (keyed p w q) ∧ ¬ "maths:" <+: text (keyed p w q) :=
    ⟨other (by decide) (by decide), other (by decide) (by decide)⟩
  rw [Markup.closing_eq .document (keyed_ne_nil w), Markup.rules_document line noMath, spanRules_keyed front behind w,
    map_pure, map_pure, Markup.cleanUp_solid line.solid (.of_not_mem unopened)]

/-- The block is put back for its key, and nothing else is read. -/
theorem reinstate_keyed {s : Session} (held : s.Holds [w]) :
    (Rendering.reinstate (text (keyed p w q)) s).1 = p ++ (w.data ++ q) := by
  have unmarked {x : Text} (all : x.all Span.isPlain = true) : '?' ∉ x := not_mem_of_all (List.all_eq_true.1 all) rfl
  have shown : some '?' ∉ shape (keyed p w q) := by
    simp [keyed, unmarked front, unmarked behind, Token.letter?]
  have safe : keyHazard.safe [] (shape (keyed p w q)) = true := (Bool.and_eq_true_iff.1 (opens_unmarked shown)).1
  have alone : s.Holds (wards (keyed p w q) ++ []) := by simpa [keyed] using held
  obtain ⟨s', returned, -⟩ := alone.reinstate safe
  rw [returned, meaning_keyed]

end Keyed

/-! ## A safe block in a line -/

/-- The block goes into custody as it is, and its key takes its place. -/
theorem replaceBlocks_safe (safe : IsSafe t) (front : '<' ∉ p) (behind : '<' ∉ q) :
    Turns (replaceBlocks Rendering.protect (p ++ (t ++ q))) [] fun d => ∃ w : Ward, w.data = t ∧ d = keyed p w q := by
  have full : t ≠ [] := by
    obtain ⟨body, rfl⟩ := safe.split
    simp
  have found : blockRule.Makes (p.getLast?.or none) t (q ++ []) [] fun d => ∃ w : Ward, d = [.ward w] ∧ w.data = t := by
    refine .of_reads full (safe.block_reads _ _) ?_
    show Turns (Rendering.protect (sanitise t)) [] _
    rw [safe.sanitised]
    exact .protect full
  have whole := (Rule.Makes.stays (r := blockRule) (block_passes front)).append (found.append (.stays (block_passes behind)))
  refine (whole.apply (.of_passes rfl)).mono ?_
  rintro _ ⟨_, _, rfl, rfl, _, _, rfl, ⟨w, rfl, data⟩, rfl⟩
  exact ⟨w, data, rfl⟩

/-- Before the rules the block goes into custody, and nothing else happens. -/
theorem opening_safe (safe : IsSafe t) (front : p.all Span.isPlain = true) (behind : q.all Span.isPlain = true) :
    Turns (Markup.opening (p ++ (t ++ q))) [] fun d => ∃ w : Ward, w.data = t ∧ d = keyed p w q := by
  have outside {c : Char} {x : Text} (plain : Span.isPlain c = false) (all : x.all Span.isPlain = true) : c ∉ x :=
    not_mem_of_all (List.all_eq_true.1 all) plain
  have kept : Markup.cleaned (p ++ (t ++ q)) = p ++ (t ++ q) := by
    have none {c : Char} (plain : Span.isPlain c = false) (out : c ∉ t) : c ∉ p ++ (t ++ q) := by
      simp [outside plain front, outside plain behind, out]
    exact Span.cleaned_eq (none rfl safe.plain.1) (none rfl safe.plain.2)
  rw [Markup.opening, kept]
  refine (replaceBlocks_safe safe (outside rfl front) (outside rfl behind)).andThen ?_
  rintro _ ⟨w, data, rfl⟩
  rw [escape_keyed front behind w]
  exact .pure ⟨w, data, rfl⟩

/-- A block with nothing to remove in a line of plain text stays as it is, whatever is in it. -/
theorem safe_stays (safe : IsSafe t) (front : p.all Span.isPlain = true) (behind : q.all Span.isPlain = true) :
    Markup.spans (p ++ t ++ q) = p ++ t ++ q ∧
      (p.head?.any Char.isAlpha = true → Markup.document (p ++ t ++ q) = "\n<p>" ++ (p ++ t ++ q) ++ "</p>\n") := by
  obtain ⟨_, s, opened, held, w, rfl, rfl⟩ := opening_safe safe front behind [] {} .start
  have held : s.Holds [w] := by simpa [keyed] using held
  have full : p ++ (w.data ++ q) ≠ [] := by simp [w.held]
  have rendered {extent : Markup.Extent} {u : Text} (closed : Markup.closing extent [] (text (keyed p w q)) = pure u) :
      Markup.run extent [] [] (p ++ (w.data ++ q)) = Rendering.reinstate u s := by
    rw [Markup.run, Markup.render_eq full]
    exact Markup.bind_run ((Markup.bind_run opened).trans (congrFun closed s))
  rw [List.append_assoc]
  refine ⟨?_, fun letter => ?_⟩
  · rw [Markup.spans, rendered (closing_spans_keyed front behind w), reinstate_keyed front behind w held]
  · rw [Markup.document, rendered (closing_document_keyed front behind w letter), Warden.reinstate_paragraph,
      reinstate_keyed front behind w held]

/-- Headings, links, an equation, an item and something like a key in a block of several lines. -/
theorem safe_stays_marked :
    let t : Text := "<math><mi>a_b_</mi>\n\n# *c* ???0YQ::???\n[d](http://e) \x7bmath\x7df\x7bmath\x7d meta:g &amp;\n</math>"
    IsSafe t ∧ Markup.spans ("Area, " ++ t ++ " of 2") = "Area, " ++ t ++ " of 2" ∧
      Markup.document ("Area, " ++ t ++ " of 2") = "\n<p>" ++ ("Area, " ++ t ++ " of 2") ++ "</p>\n" := by
  intro t
  have safe : IsSafe t := ⟨by decide, by decide, by decide +kernel, by decide, by decide +kernel⟩
  obtain ⟨asSpans, asDocument⟩ := safe_stays safe (p := "Area, ") (q := " of 2") (by decide) (by decide)
  exact ⟨safe, asSpans, asDocument (by decide)⟩

end MathML

end LessonText
