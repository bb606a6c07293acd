import LessonText.Proofs.Markup.Blocks
import LessonText.Proofs.Markup.Emphasis
import LessonText.Proofs.MathML.Harmless

/-! # The passes before and after the rules

The MathML blocks of a text go into custody one by one. Escaping lengthens a draft, and cleaning up
removes parts of it, but neither touches a ward.
-/

namespace LessonText

open Draft Pattern Unicode Hazard

/-- Hazards of the shape alone. -/
def shapes (hazards : List (Hazard (Option Char))) : List Watch := hazards.map .ofShape

variable {past old d : Draft} {hs : List (Hazard (Option Char))}

/-! ## MathML blocks -/

namespace MathML

theorem assemble_ne_nil {find : Finder Match} {b : Option Char} {t : Text} {ps : List (Piece Match)}
    (scan : Scan find b t ps) {f : Match → Text} (each : ∀ m, .found m ∈ ps → f m ≠ []) (ne : t ≠ []) :
    Piece.assemble f ps ≠ [] := by
  cases scan with
  | nil => exact absurd rfl ne
  | plain => exact List.cons_ne_nil _ _
  | found =>
      rw [Piece.assemble]
      exact List.append_ne_nil_of_left_ne_nil (each _ List.mem_cons_self) _

theorem sanitise_ne_nil {t : Text} (ne : t ≠ []) : sanitise t ≠ [] := by
  have tidied : sanitiseTags t ≠ [] := by
    have scan := pieces_scan tag_advances t
    refine assemble_ne_nil scan (fun m hm => ?_) ne
    obtain ⟨_, _, _, -, _, close, _, _, whole, -, ⟨bracket, inner, _, _, rfl, -, hbracket, -⟩, -⟩ :=
      scan.mem_found hm
    obtain ⟨rfl, -⟩ := takes_literal.1 hbracket
    obtain ⟨v, kept, -⟩ := sanitiseTag_cons (inner ++ close)
    have begins : sanitiseTag m.text = '<' :: v := by
      rw [whole, ← kept, List.append_assoc]
      rfl
    simp [begins]
  exact assemble_ne_nil (pieces_scan foreignBracket_advances _) (fun _ _ => by simp) tidied

/-- The rule that takes blocks into custody. -/
def blockRule : Rule := ⟨block, fun m => Rendering.protect (sanitise m.text)⟩

theorem replaceBlocks_eq_apply (t : Text) : replaceBlocks Rendering.protect t = blockRule.apply t := rfl

/-- The blocks of a text go into custody, and what stands between them stays. -/
theorem replaceBlocks_turns {t : Text} (spares : keyHazard.Spares t) :
    Turns (replaceBlocks Rendering.protect t) [] (Calm (shapes [keyHazard])) := by
  have opens : block.Opens := (Opens.literal rfl).append.append.append.append
  have closes : block.Closes := Closes.append (.literal rfl rfl)
  have advances : block.Advances := .of_passes rfl
  have turns : Turns (blockRule.apply (text (chars t))) (wards (chars t))
      (Edits (fun past old new _ => ∀ x ∈ shapes [keyHazard], x.Allows past old new) [] (chars t)) := by
    refine Rule.apply_turns advances (.of_ends opens closes) _ fun past old rest m whole found _ => ?_
    have none : wards old = [] := by
      have all := congrArg wards whole
      rw [wards_chars, wards_append, wards_append] at all
      exact (List.append_eq_nil_iff.1 (List.append_eq_nil_iff.1 all.symm).1).2
    have full : m.text ≠ [] := found.text ▸ advances _ _ _ _ found.takes
    rw [none]
    refine (Turns.protect (sanitise_ne_nil full)).mono ?_
    rintro _ ⟨w, rfl, -⟩ x hx
    obtain rfl := List.mem_singleton.1 hx
    exact Hazard.Allows.of_ends Watch.begun_subset (n := [Option.none]) rfl
  rw [text_chars, wards_chars] at turns
  refine turns.mono fun d edits => edits.calm (List.Subset.refl _) fun x hx => ?_
  obtain rfl := List.mem_singleton.1 hx
  rw [Watch.Quiet, Watch.chars]
  exact spares

end MathML

/-! ## Escaping -/

namespace Markup

open Escape

theorem ampersands_append {t u : Text} (plain : '&' ∉ t) :
    ampersands (t ++ u) = t ++ ampersands u := by
  induction t with
  | nil => rfl
  | cons c t ih =>
      rw [List.mem_cons, not_or] at plain
      rw [List.cons_append, ampersands, ih plain.2, if_neg (by simp [Ne.symm plain.1])]
      rfl

/-- Some ampersands of a draft become entities. -/
theorem ampersands_edits (d : Draft) : ∀ past, ∃ e, ampersands (text d) = text e ∧ wards e = wards d ∧
    Edits (fun _ old new _ => old = chars "&" ∧ new = chars "&amp;") past d e := by
  induction d with
  | nil => exact fun past => ⟨[], rfl, rfl, .nil⟩
  | cons y d ih =>
      intro past
      cases y with
      | char c =>
          by_cases escaped : (c = '&' && !beginsEntity (text d)) = true
          · obtain ⟨e, he, same, edits⟩ := ih (past ++ chars "&")
            obtain rfl : c = '&' := by simpa using (Bool.and_eq_true_iff.1 escaped).1
            refine ⟨chars "&amp;" ++ e, ?_, by simp [same], .change ⟨rfl, rfl⟩ edits⟩
            rw [text_append, text_chars, ← he]
            exact if_pos escaped
          · obtain ⟨e, he, same, edits⟩ := ih (past ++ [.char c])
            refine ⟨.char c :: e, ?_, by simp [same], .keep edits⟩
            rw [text_cons, text_cons, ← he]
            exact if_neg escaped
      | ward w =>
          obtain ⟨e, he, same, edits⟩ := ih (past ++ [.ward w])
          refine ⟨.ward w :: e, ?_, by simp [same], .keep edits⟩
          have plain : '&' ∉ w.key := fun mem => absurd (isKeyChar_of_mem_key mem) (by decide)
          rw [text_cons, text_cons, ← he]
          exact ampersands_append plain

theorem ampersands_sound : Sound (shapes [keyHazard]) (shapes [keyHazard]) fun t =>
    Pure.pure (ampersands t) := by
  intro d calm
  obtain ⟨e, he, same, edits⟩ := ampersands_edits d []
  refine .pure_of (d := e) (fun x hx => ?_) he (.of_eq same)
  obtain rfl := List.mem_singleton.1 hx
  refine edits.quiet ?_ [] (List.nil_subset _) (calm _ hx)
  rintro _ _ _ _ ⟨rfl, rfl⟩
  exact .of_ends (ends_key rfl (by decide))

theorem escape_sound : Sound (shapes [keyHazard]) (shapes [keyHazard]) fun t => Pure.pure (escape t) := by
  have brackets : Sound (shapes [keyHazard]) (shapes [keyHazard]) (Rule.ofRewrite escapeBrackets).apply := by
    refine .of_unmarked (.of_passes rfl) (Opens.literal rfl).append rfl fun _ _ _ _ _ => ?_
    exact List.all_eq_true.2 (List.forall_mem_singleton.2 (ends_key rfl (by decide)))
  have signs : Sound (shapes [keyHazard]) (shapes [keyHazard]) (Rule.ofRewrite escapedSign).apply := by
    refine .of_unmarked (.of_passes rfl) (Opens.literal rfl).append (by decide) fun _ _ _ m takes => ?_
    obtain ⟨_, _, _, _, -, groups, -, _, ⟨c, -, rfl, rfl⟩, rfl⟩ := takes
    have first : m.group 1 = [c] := Match.group_eq groups
    have entity : Entity.encode [c] = Entity.encodeChar c := List.append_nil _
    simp only [first, entity]
    exact List.all_eq_true.2 (List.forall_mem_singleton.2 (Span.ends_entity c))
  have all := (ampersands_sound.comp brackets).comp signs
  simp only [Rule.ofRewrite_apply, pure_bind] at all
  exact all

/-! ## Cleaning up -/

/-- What is watched from the cleaning up on. -/
def ofItems (items : Bool) : List (Hazard (Option Char)) :=
  if items then beforeValue :: inItem else []

/-- A draft in which nothing is watched for its meaning shows nothing like a key beside its wards. -/
theorem calm_shapes (calm : Calm (watches hs) d) : Calm (shapes (keyHazard :: hs)) d := by
  intro x hx
  rcases List.mem_cons.1 hx with rfl | hx
  · exact Span.safe_shape (spares_meaning (calm _ List.mem_cons_self))
  · exact calm x (List.mem_cons_of_mem _ hx)

/-- Matches without wards may go where nothing has begun. -/
theorem removal_sound {w w' : List Watch} {p : Pattern} (sub : w' ⊆ w) (advances : p.Advances)
    (opens : p.Opens) (unmarked : p.admits '?' = false)
    (none : ∀ past old rest m, Calm w (past ++ old ++ rest) →
      p.Takes (text past).getLast? (text old) (text rest) m → ∀ x ∈ w', x.begun past = []) :
    Sound w w' (Rule.ofRewrite ⟨p, fun _ => []⟩).apply := by
  refine Sound.of_sharp sub advances (.of_unmarked opens unmarked) ?_
  intro past old rest m calm found
  have noMark : '?' ∉ text old := fun mark => by
    have admitted : p.admits '?' = true := found.takes.admits mark
    rw [admitted] at unmarked
    cases unmarked
  have noWard : wards old = [] := by
    rw [eq_chars_of_text noMark, wards_chars]
  rw [noWard]
  refine .pure_of (d := []) (fun x hx => ?_) rfl .rfl
  rw [Watch.Allows, none _ _ _ _ calm found.takes x hx, Watch.nil]
  intro _ S sub
  rw [List.subset_nil.1 sub]
  exact ⟨rfl, List.nil_subset _⟩

theorem blankLines_sound (ends : (shapes hs).all (·.ends "\n") = true) :
    Sound (shapes hs) (shapes hs) (Rule.ofRewrite blankLines).apply := by
  refine removal_sound (List.Subset.refl _) (.of_passes rfl) Opens.lineStart.append.append rfl ?_
  rintro past old rest m - ⟨_, _, _, _, -, -, ⟨_, _, _, _, -, -, ⟨rfl, start, -⟩, -⟩, -⟩ x hx
  exact Watch.begun_of_lineStart (List.all_eq_true.1 ends x hx) start

theorem matches_fold {t w : Text} (same : List.Forall₂ (fun c d => sameLetter c d = true) t w) :
    Matches (fold t) (w.map some) := by
  induction same with
  | nil => exact .nil
  | cons first _ ih => exact .one first ih

theorem matches_abutted {name w : Text} {c : Char} (apart : c ≠ '\n' ∧ c ≠ '>')
    (same : List.Forall₂ (fun c d => sameLetter c d = true) name w) :
    Matches (abutted name) ((c :: '<' :: (w ++ ">")).map some) := by
  have first : Matches [⟨false, fun a : Option Char => a.any fun c => c != '\n' && c != '>'⟩, Part.char '<']
      ([c, '<'].map some) := .one (by simpa using apart) (.one rfl .nil)
  have all := (first.append (matches_fold same)).append (matches_mark ">")
  simpa [abutted] using all

/-- What may stand before an element that may be empty. -/
def apart : List (Option Char) := [none, some '\n', some '>']

theorem apart_of_calm {q : Draft} {y : Token} {name w : Text}
    (quiet : (Watch.ofShape (abutted name)).Quiet (q ++ [y] ++ d)) (begins : '<' :: (w ++ ">") <+: text d)
    (same : List.Forall₂ (fun c d => sameLetter c d = true) name w) (unmarked : '?' ∉ w) :
    y.letter? ∈ apart := by
  cases y with
  | ward => exact List.mem_cons_self
  | char c =>
      by_contra other
      have differs : c ≠ '\n' ∧ c ≠ '>' := by simpa [Token.letter?, apart] using other
      have noMark : '?' ∉ '<' :: (w ++ ">") := by simpa using unmarked
      obtain ⟨u, behind⟩ := Span.shape_prefix begins noMark
      have seen : shape (q ++ [.char c] ++ d) =
          shape q ++ (c :: '<' :: (w ++ ">")).map some ++ u := by
        rw [shape_append, shape_append, ← behind]
        simp [Token.letter?]
      exact not_quiet_of_shape (matches_abutted differs same) (by simp) seen quiet

/-- Behind what may stand there, nothing has begun. -/
theorem begun_of_apart {h : Hazard (Option Char)} {q : Draft} {y : Token}
    (last : apart.all (fun a => (step h (anywhere h) a).all (complete h)) = true)
    (quiet : (Watch.ofShape h).Quiet (q ++ [y])) (stands : y.letter? ∈ apart) :
    (Watch.ofShape h).begun (q ++ [y]) = [] := by
  rw [Watch.begun_append]
  exact step_eq_nil_of_safe (List.all_eq_true.1 last _ stands) Watch.begun_subset
    (Watch.quiet_append.1 quiet).2

theorem emptyElement_sound {ks : List (Hazard (Option Char))} (sub : ks ⊆ hs)
    (watched : ∀ name ∈ ["p".toList, "div".toList], abutted name ∈ hs)
    (last : ks.all (fun h => apart.all fun a => (step h (anywhere h) a).all (complete h)) = true) :
    Sound (shapes hs) (shapes ks) (Rule.ofRewrite emptyElement).apply := by
  refine removal_sound (List.map_subset _ sub) (.of_passes rfl)
    (Opens.literal rfl).append.append.append.append.append.append rfl ?_
  intro past old rest m calm takes x hx
  obtain ⟨h, hh, rfl⟩ := List.mem_map.1 hx
  obtain ⟨_, bracket', _, _, whole, -, ⟨_, name', _, _, rfl, -, ⟨_, slash, _, _, rfl, -, ⟨_, spaces, _, _,
    rfl, -, ⟨_, close, _, _, rfl, -, ⟨bracket, w, _, _, rfl, -, hbracket, hname⟩, hclose⟩, -⟩, -⟩, -⟩, -⟩ := takes
  obtain ⟨rfl, -⟩ := takes_literal.1 hbracket
  obtain ⟨rfl, -⟩ := takes_literal.1 hclose
  obtain ⟨name, listed, same⟩ : ∃ name ∈ ["p".toList, "div".toList],
      List.Forall₂ (fun c d => sameLetter c d = true) name w := by
    rcases hname with h | h
    · exact ⟨_, List.mem_cons_self, (takes_literalFold.1 h).1⟩
    · exact ⟨_, List.mem_cons_of_mem _ List.mem_cons_self, (takes_literalFold.1 h).1⟩
  have unmarked : '?' ∉ w := fun mark => absurd (hname.admits mark) (by decide)
  have begins : '<' :: (w ++ ">") <+: text (old ++ rest) := by
    rw [text_append, whole]
    exact ⟨spaces ++ slash ++ name' ++ bracket' ++ text rest, by simp⟩
  rcases List.eq_nil_or_concat past with rfl | ⟨q, y, split⟩
  · rw [Watch.begun, Watch.nil]
    rfl
  · rw [List.concat_eq_append] at split
    subst split
    have quiet {k : Hazard (Option Char)} (hk : k ∈ hs) : (Watch.ofShape k).Quiet (q ++ [y] ++ (old ++ rest)) := by
      rw [← List.append_assoc]
      exact calm _ (List.mem_map_of_mem hk)
    exact begun_of_apart (List.all_eq_true.1 last h hh) (quiet (sub hh)).of_append_right
      (apart_of_calm (quiet (watched name listed)) begins same unmarked)

theorem cleanUp_sound (items : Bool) :
    Sound (shapes (keyHazard :: ofPage items)) (shapes (keyHazard :: ofItems items)) fun t =>
      Pure.pure (cleanUp t) := by
  have lines : (shapes (keyHazard :: ofPage items)).all (·.ends "\n") = true := by
    cases items <;> decide
  have last : (keyHazard :: ofItems items).all
      (fun h => apart.all fun a => (step h (anywhere h) a).all (complete h)) = true := by
    cases items <;> decide
  have sub : keyHazard :: ofItems items ⊆ keyHazard :: ofPage items :=
    List.cons_subset_cons _ (List.subset_append_right _ _)
  have watched : ∀ name ∈ ["p".toList, "div".toList], abutted name ∈ keyHazard :: ofPage items := by
    simp [ofPage]
  have all := (blankLines_sound lines).comp (emptyElement_sound sub watched last)
  simp only [Rule.ofRewrite_apply, pure_bind] at all
  exact all

end Markup

end LessonText
