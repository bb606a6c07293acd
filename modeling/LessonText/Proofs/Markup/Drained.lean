import LessonText.Proofs.Markup.Passes

/-! # A call gives back what it took into custody

Rendering ends with nothing in custody and with no key missed, if three question marks never stand
before a digit and nothing stands where a ward would go into custody with other text. Both are read off
the text that the rules are applied to.
-/

namespace LessonText

open Draft Hazard

/-- Nothing is in custody, and no key was missed. -/
def Session.Drained (s : Session) : Prop :=
  s.warden.wards = [] ∧ ∀ key, .missingWard key ∉ s.notices

theorem Session.Holds.drained {s : Session} (h : s.Holds []) : s.Drained :=
  ⟨List.perm_nil.1 h.pending, h.clean⟩

@[simp] theorem Rule.applyAll_nil (t : Text) : Rule.applyAll [] t = pure t := by
  unfold Rule.applyAll
  split <;> rfl

theorem Rule.applyAll_of_ne_nil {rules : List Rule} {t : Text} (full : t ≠ []) :
    Rule.applyAll rules t = rules.foldlM (fun t r => r.apply t) t := by
  have notEmpty : t.isEmpty = false := by simpa using full
  rw [Rule.applyAll, notEmpty]
  rfl

theorem Sound.applyAll {w w' : List Watch} {rules : List Rule}
    (h : Sound w w' fun t => rules.foldlM (fun t r => r.apply t) t) : Sound w w' (Rule.applyAll rules) := by
  intro d calm
  unfold Rule.applyAll
  split
  · rename_i empty
    cases d with
    | nil => exact .pure fun x _ => by rw [Watch.Quiet, Watch.nil]; rfl
    | cons y d => exact absurd (List.isEmpty_iff.1 empty) (text_cons_ne_nil y d)
  · exact h d calm

namespace Markup

/-- The text that the first pass reads. -/
def cleaned (t : Text) : Text := Escape.dropNull (t.filter (· != '\r'))

/-- The passes before the rules. -/
def opening (t : Text) : Rendering Text := do
  return escape (← MathML.replaceBlocks Rendering.protect (cleaned t))

/-- What a text shows; a gap stands for a key. -/
def shapeOf (t : Text) : List (Option Char) :=
  (t.cut Warden.findKey).map fun
    | .plain c => some c
    | .found _ => none

/-- What is watched while the rules are applied. -/
def Extent.hazards (items : Bool) : Extent → List (Hazard (Option Char))
  | .document => ofBlocks items
  | .spans => ofSpans items

/-- No ward stands where it would go into custody with other text, nor anything that may become one, and
    what is in custody brings nothing that looks like the beginning of a key. -/
def isCalm (hs : List (Hazard (Option Char))) (t : Text) (s : Session) : Bool :=
  hs.all (safe · [] (shapeOf t)) && safe keyHazard [] ((Rendering.reinstate t s).1.map some)

theorem shapeOf_text {d : Draft} (safe : keyHazard.safe [] (shape d) = true) : shapeOf (text d) = shape d := by
  unfold shapeOf Text.cut
  rw [cut_text safe, keys, List.map_map]
  refine List.map_congr_left fun y _ => ?_
  cases y <;> rfl

theorem opening_turns {t : Text} (spares : keyHazard.Spares (cleaned t)) :
    Turns (opening t) [] (Calm (shapes [keyHazard])) :=
  (MathML.replaceBlocks_turns spares).andThen escape_sound

theorem calm_of_isCalm {hs : List (Hazard (Option Char))} {d : Draft} {s : Session}
    (held : s.Holds (wards d)) (shown : Calm (shapes [keyHazard]) d) (calm : isCalm hs (text d) s = true) :
    Calm (watches hs) d := by
  have safe : keyHazard.safe [] (shape d) = true := shown _ List.mem_cons_self
  rw [← List.append_nil (wards d)] at held
  obtain ⟨s', reinstated, -⟩ := held.reinstate safe
  rw [isCalm, Bool.and_eq_true, shapeOf_text safe, reinstated, List.all_eq_true] at calm
  intro x hx
  rcases List.mem_cons.1 hx with rfl | hx
  · exact calm.2
  · obtain ⟨h, hh, rfl⟩ := List.mem_map.1 hx
    exact calm.1 h hh

/-- The rules keep the wards of a draft in which nothing is watched. -/
theorem rules_sound (extent : Extent) (items : Bool) :
    Sound (watches (extent.hazards items)) (shapes (keyHazard :: ofPage items))
      (Rule.applyAll extent.rules) := by
  have kept : Sound (watches (extent.hazards items)) (watches (ofPage items))
      (Rule.applyAll extent.rules) := by
    refine Sound.applyAll ?_
    cases extent with
    | document =>
        have spans := (Span.rules_sound items).mono
          (watches_subset (List.subset_append_right inBlock (ofSpans items))) (List.Subset.refl _)
        exact (Sound.foldlM (Block.rules_sound items)).foldlM_append spans
    | spans => exact Span.rules_sound items
  exact fun d calm => (kept d calm).mono fun e calm => calm_shapes calm

variable {extent : Extent} {items : Bool} {post : List Rule} {t : Text}

/-- The passes behind the opening, down to the rules of the caller. -/
def closing (extent : Extent) (post : List Rule) (t : Text) : Rendering Text := do
  Rule.applyAll post (cleanUp (← Rule.applyAll extent.rules t))

theorem closing_sound
    (sound : Sound (shapes (keyHazard :: ofItems items)) (shapes [keyHazard]) (Rule.applyAll post)) :
    Sound (watches (extent.hazards items)) (shapes [keyHazard]) (closing extent post) := by
  have all := ((rules_sound extent items).comp (cleanUp_sound items)).comp sound
  simp only [bind_assoc, pure_bind] at all
  exact all

theorem render_eq (full : t ≠ []) : render extent [] post t =
    (opening t >>= closing extent post) >>= Rendering.reinstate := by
  have notEmpty : t.isEmpty = false := by simpa using full
  simp only [render, passes, notEmpty, Rule.applyAll_nil, opening, closing, cleaned, bind_assoc, pure_bind,
    Bool.false_eq_true, if_false]

theorem closing_nil (extent : Extent) (t : Text) : closing extent [] t = cleanUp <$> Rule.applyAll extent.rules t := by
  simp only [closing, Rule.applyAll_nil, bind_pure_comp]

/-- A call ends with nothing in custody and with no key missed. -/
theorem run_drained
    (sound : Sound (shapes (keyHazard :: ofItems items)) (shapes [keyHazard]) (Rule.applyAll post))
    (spares : keyHazard.Spares (cleaned t))
    (calm : isCalm (extent.hazards items) (opening t {}).1 (opening t {}).2 = true) :
    (run extent [] post t).2.Drained := by
  by_cases full : t = []
  · subst full
    exact Session.Holds.start.drained
  obtain ⟨d, s, opened, held, shown⟩ := opening_turns spares [] {} .start
  rw [opened] at calm
  rw [List.append_nil] at held
  obtain ⟨e, s', closed, held', quiet⟩ :=
    closing_sound sound d (calm_of_isCalm held shown calm) [] s (by simpa using held)
  obtain ⟨s'', given, ended⟩ := held'.reinstate (quiet _ List.mem_cons_self)
  have ends : run extent [] post t = (meaning e, s'') := by
    have andThen {f : Rendering Text} {g : Text → Rendering Text} {u : Text} {r r' : Session}
        (h : f r = (u, r')) : (f >>= g) r = g u r' :=
      congrArg (fun x : Text × Session => g x.1 x.2) h
    rw [run, render_eq full]
    exact (andThen ((andThen opened).trans closed)).trans given
  rw [ends]
  exact ended.drained

/-- A call without rules of a caller ends with nothing in custody and with no key missed. -/
theorem rendering_drained (extent : Extent) (spares : keyHazard.Spares (cleaned t))
    (calm : isCalm (extent.hazards false) (opening t {}).1 (opening t {}).2 = true) :
    (run extent [] [] t).2.Drained := by
  refine run_drained (Sound.applyAll ?_) spares calm
  exact fun _ quiet => .pure fun x hx => quiet x hx

end Markup

end LessonText
