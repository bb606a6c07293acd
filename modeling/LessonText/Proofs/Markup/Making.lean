import LessonText.Proofs.Markup.Safety
import LessonText.Proofs.Pattern.Applying

/-! # What a rule makes of the parts of a text

A rule goes over a text part by part. What it makes of a part in front of known text is a step that turns the wards
of the part into a draft; the steps of neighbouring parts are joined to what it makes of the whole.
-/

namespace LessonText

open Draft

/-- The results of two steps, one after the other. -/
def Draft.Joined (first second : Draft → Prop) (d : Draft) : Prop := ∃ a c, d = a ++ c ∧ first a ∧ second c

/-- Two steps whose texts are put together; each leaves the wards of the other alone. -/
theorem Turns.join {f g : Rendering Text} {ws ws' : List Ward} {result result' : Draft → Prop}
    (hf : Turns f ws result) (hg : Turns g ws' result') :
    Turns (do return (← f) ++ (← g)) (ws ++ ws') (Joined result result') := by
  intro others s hs
  rw [List.append_assoc] at hs
  obtain ⟨a, s', ha, held, first⟩ := hf _ s hs
  have moved : (wards a ++ (ws' ++ others)).Perm (ws' ++ (wards a ++ others)) := List.perm_append_comm_assoc _ _ _
  obtain ⟨c, s'', hc, held', second⟩ := hg _ s' (held.perm moved)
  refine ⟨a ++ c, s'', ?_, ?_, a, c, rfl, first, second⟩
  · calc (do return (← f) ++ (← g) : Rendering Text) s
        = (fun r : Text × Session => (r.1 ++ (g r.2).1, (g r.2).2)) (f s) := rfl
      _ = (text a ++ (g s').1, (g s').2) := by rw [ha]
      _ = (text (a ++ c), s'') := by rw [hc, text_append]
  · rw [wards_append, List.append_assoc]
    exact held'.perm (List.perm_append_comm_assoc _ _ _)

/-- Rules one after another, and then others. -/
theorem Turns.foldlM_append {rules others : List Rule} {t : Text} {ws : List Ward} {result result' : Draft → Prop}
    (first : Turns (rules.foldlM (fun t r => r.apply t) t) ws result)
    (second : ∀ d, result d → Turns (others.foldlM (fun t r => r.apply t) (text d)) (wards d) result') :
    Turns ((rules ++ others).foldlM (fun t r => r.apply t) t) ws result' := by
  rw [List.foldlM_append]
  exact first.andThen second

namespace Rule

/-- What a rule makes of `x`, with the character `b` before it and the text `t` behind it. -/
def Makes (r : Rule) (b : Option Char) (x t : Text) (ws : List Ward) (result : Draft → Prop) : Prop :=
  ∃ f : Rendering Text, Turns f ws result ∧ ∀ bound, (x ++ t).length ≤ bound →
    r.applyFrom bound b (x ++ t) = do return (← f) ++ (← r.applyFrom bound (x.getLast?.or b) t)

namespace Makes

variable {r : Rule} {b : Option Char} {x y t : Text} {d : Draft} {ws ws' : List Ward} {result result' : Draft → Prop}

theorem mono (h : r.Makes b x t ws result) (imp : ∀ d, result d → result' d) : r.Makes b x t ws result' := by
  obtain ⟨f, turns, makes⟩ := h
  exact ⟨f, turns.mono imp, makes⟩

/-- A part in which the rule finds nothing stays. -/
theorem of_skips (skips : r.pattern.Skips b (text d) t) (h : result d) : r.Makes b (text d) t (wards d) result :=
  ⟨pure (text d), .pure h, fun _ inside => applyFrom_skips skips inside⟩

theorem of_passes (passes : r.pattern.Passes b (text d) t) (h : result d) : r.Makes b (text d) t (wards d) result :=
  of_skips passes.skips h

/-- A part that the rule finds as a whole is replaced. -/
theorem of_reads {gs : List (Nat × Text)} (full : x ≠ []) (reads : r.pattern.Reads b x t gs)
    (turns : Turns (r.replace ⟨x, gs⟩) ws result) : r.Makes b x t ws result :=
  ⟨r.replace ⟨x, gs⟩, turns, fun _ inside => applyFrom_reads full reads inside⟩

theorem stays (passes : r.pattern.Passes b x t) : r.Makes b x t [] (· = chars x) := by
  have all : r.Makes b (text (chars x)) t (wards (chars x)) (· = chars x) := .of_passes (by rwa [text_chars]) rfl
  rwa [text_chars, wards_chars] at all

theorem becomes {gs : List (Nat × Text)} {u : Text} (full : x ≠ []) (reads : r.pattern.Reads b x t gs)
    (replaced : r.replace ⟨x, gs⟩ = pure u) : r.Makes b x t [] (· = chars u) := by
  refine .of_reads full reads ?_
  rw [replaced]
  exact .pure_of rfl (text_chars u).symm (by rw [wards_chars])

theorem append (first : r.Makes b x (y ++ t) ws result) (second : r.Makes (x.getLast?.or b) y t ws' result') :
    r.Makes b (x ++ y) t (ws ++ ws') (Joined result result') := by
  obtain ⟨f, turns, makes⟩ := first
  obtain ⟨g, turns', makes'⟩ := second
  refine ⟨_, turns.join turns', fun bound inside => ?_⟩
  have within : (y ++ t).length ≤ bound := by
    rw [List.append_assoc, List.length_append] at inside
    omega
  rw [List.append_assoc, makes bound (by rwa [List.append_assoc] at inside), makes' bound within,
    List.getLast?_append, Option.or_assoc]
  simp only [bind_assoc, pure_bind, List.append_assoc]

/-- What a rule makes of a whole text. -/
theorem apply (h : r.Makes none x [] ws result) (advances : r.pattern.Advances) : Turns (r.apply x) ws result := by
  obtain ⟨f, turns, makes⟩ := h
  have all := makes x.length (by simp)
  rw [List.append_nil, applyFrom_nil advances.misses_nil] at all
  have whole : r.apply x = f := by
    rw [apply_eq, all]
    simp
  rwa [whole]

end Makes

end Rule

/-- What a rewrite makes of a text without wards. -/
theorem Rewrite.apply_of_turns {r : Rewrite} {t u : Text} (h : Turns ((Rule.ofRewrite r).apply t) [] fun d => d = chars u) :
    r.apply t = u := by
  obtain ⟨d, s, applied, -, rfl⟩ := h [] {} .start
  rw [Rule.ofRewrite_apply, text_chars] at applied
  exact congrArg Prod.fst applied

namespace Rewrite

/-- A rewrite writes `u` for `x`, with the character `b` before it and the text `t` behind it. -/
def Writes (r : Rewrite) (b : Option Char) (x t u : Text) : Prop := (Rule.ofRewrite r).Makes b x t [] (· = chars u)

namespace Writes

variable {r : Rewrite} {b : Option Char} {x y t u v : Text}

theorem stays (passes : r.pattern.Passes b x t) : r.Writes b x t x := Rule.Makes.stays passes

theorem nil : r.Writes b [] t [] := stays .nil

theorem becomes {gs : List (Nat × Text)} (full : x ≠ []) (reads : r.pattern.Reads b x t gs) :
    r.Writes b x t (r.replace ⟨x, gs⟩) := Rule.Makes.becomes full reads rfl

theorem append (first : r.Writes b x (y ++ t) u) (second : r.Writes (x.getLast?.or b) y t v) :
    r.Writes b (x ++ y) t (u ++ v) := by
  refine (Rule.Makes.append first second).mono ?_
  rintro _ ⟨_, _, rfl, rfl, rfl⟩
  exact (chars_append u v).symm

theorem apply (h : r.Writes none x [] u) (advances : r.pattern.Advances) : r.apply x = u :=
  apply_of_turns (Rule.Makes.apply h advances)

end Writes

end Rewrite

end LessonText
