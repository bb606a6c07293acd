import LessonText.Proofs.Markup.Edits

/-! # Where matches begin and end

A pattern that opens and closes at sharp places never cuts a key. The first part of a pattern says
where its matches begin, the last part where they end.
-/

namespace LessonText.Pattern

open Unicode

/-- Every match begins at a place that lies in no key. -/
def Opens (p : Pattern) : Prop := ∀ b w r gs, p.Takes b w r gs → Draft.Sharp b (w ++ r)

/-- Every match ends at a place that lies in no key. -/
def Closes (p : Pattern) : Prop := ∀ b w r gs, p.Takes b w r gs → Draft.Sharp (w.getLast?.or b) r

theorem Opens.begins {p : Pattern} (h : p.Opens) : p.Begins := by
  intro whole past x k d m n spot found
  obtain ⟨r, split, -, -, takes⟩ := matchAt_takes found
  exact spot.nil_of_sharp (split ▸ h _ _ _ _ takes)

theorem Closes.ends {p : Pattern} (h : p.Closes) : p.Ends := by
  intro d b w r gs behind takes ne
  have sharp := h _ _ _ _ takes
  rw [List.getLast?_eq_some_getLast ne] at sharp
  refine Draft.split_of_sharp behind ?_
  rw [List.getLast?_eq_some_getLast ne]
  exact sharp

theorem Sharp.of_ends {p : Pattern} (opens : p.Opens) (closes : p.Closes) : p.Sharp :=
  ⟨opens.begins, closes.ends⟩

/-- A match without question marks ends between two tokens. -/
theorem Sharp.of_unmarked {p : Pattern} (opens : p.Opens) (unmarked : p.admits '?' = false) :
    p.Sharp := by
  refine ⟨opens.begins, fun d b w r gs behind takes _ => ?_⟩
  have noMark : '?' ∉ w := fun mark => by
    rw [takes.admits mark] at unmarked
    cases unmarked
  obtain ⟨rest, rfl, rfl⟩ := Draft.split_left behind noMark
  exact ⟨Draft.chars w, rest, rfl, Draft.text_chars w, rfl⟩

variable {p q : Pattern} {cls : Char → Bool} {i : Nat}

namespace Opens

theorem append (h : p.Opens) : (p ++ q).Opens := by
  rintro b w r gs ⟨w₁, w₂, gs₁, gs₂, rfl, -, h₁, -⟩
  rw [List.append_assoc]
  exact h _ _ _ _ h₁

theorem or (hp : p.Opens) (hq : q.Opens) : (p ||| q).Opens := by
  rintro b w r gs (h | h)
  · exact hp _ _ _ _ h
  · exact hq _ _ _ _ h

theorem group (h : p.Opens) : (group i p).Opens := by
  rintro b w r gs ⟨gs', t, -⟩
  exact h _ _ _ _ t

theorem one (h : ∀ c, cls c = true → Warden.isKeyChar c = false) : (one cls).Opens := by
  rintro b w r gs ⟨c, hc, rfl, -⟩
  exact .inr (by simpa using h c hc)

theorem char {c : Char} (h : Warden.isKeyChar c = false) : (Pattern.one (· == c)).Opens :=
  one fun d hd => by rwa [beq_iff_eq.1 hd]

theorem literal {c : Char} {t : Text} (h : Warden.isKeyChar c = false) : (literal (c :: t)).Opens :=
  (char h).append

theorem textStart : textStart.Opens := by
  rintro b w r gs ⟨-, start, -⟩
  rw [Option.isNone_iff_eq_none.1 start]
  exact .inl (by simp)

theorem lineStart : lineStart.Opens := by
  rintro b w r gs ⟨-, start, -⟩
  refine .inl fun c hc => ?_
  cases hc
  rw [beq_iff_eq.1 (show (c == '\n') = true from start)]
  rfl

end Opens

namespace Closes

theorem append (h : q.Closes) : (p ++ q).Closes := by
  rintro b w r gs ⟨w₁, w₂, gs₁, gs₂, rfl, -, -, h₂⟩
  rw [List.getLast?_append, Option.or_assoc]
  exact h _ _ _ _ h₂

theorem append_ahead {wanted : Bool} (h : p.Closes) : (p ++ ahead wanted q).Closes := by
  rintro b w r gs ⟨w₁, w₂, gs₁, gs₂, rfl, -, h₁, rfl, -⟩
  rw [List.append_nil]
  exact h _ _ _ _ h₁

theorem append_place {holds : Option Char → Text → Bool} (h : p.Closes) :
    (p ++ place holds).Closes := by
  rintro b w r gs ⟨w₁, w₂, gs₁, gs₂, rfl, -, h₁, rfl, -⟩
  rw [List.append_nil]
  exact h _ _ _ _ h₁

theorem append_optional (hp : p.Closes) (hq : q.Closes) : (p ++ optional q).Closes := by
  rintro b w r gs ⟨w₁, w₂, gs₁, gs₂, rfl, -, h₁, h₂ | ⟨rfl, -⟩⟩
  · rw [List.getLast?_append, Option.or_assoc]
    exact hq _ _ _ _ h₂
  · rw [List.append_nil]
    exact hp _ _ _ _ h₁

theorem group (h : p.Closes) : (group i p).Closes := by
  rintro b w r gs ⟨gs', t, -⟩
  exact h _ _ _ _ t

theorem many1 (h : p.Closes) : (many1 p).Closes := by
  have later {b w r gs} (t : Repeats p.Takes b w r gs) : w = [] ∨ Draft.Sharp (w.getLast?.or b) r := by
    induction t with
    | stop => exact .inl rfl
    | more first _ ih =>
        right
        rw [List.getLast?_append, Option.or_assoc]
        rcases ih with rfl | sharp
        · simpa using h _ _ _ _ first
        · exact sharp
  rintro b w r gs ⟨w₁, w₂, gs₁, gs₂, rfl, -, h₁, h₂⟩
  rw [List.getLast?_append, Option.or_assoc]
  rcases later h₂ with rfl | sharp
  · simpa using h _ _ _ _ h₁
  · exact sharp

theorem or (hp : p.Closes) (hq : q.Closes) : (p ||| q).Closes := by
  rintro b w r gs (h | h)
  · exact hp _ _ _ _ h
  · exact hq _ _ _ _ h

theorem one (h : ∀ c, cls c = true → Warden.isKeyChar c = false) : (one cls).Closes := by
  rintro b w r gs ⟨c, hc, rfl, -⟩
  exact .inl (by simpa using h c hc)

theorem char {c : Char} (h : Warden.isKeyChar c = false) : (Pattern.one (· == c)).Closes :=
  one fun d hd => by rwa [beq_iff_eq.1 hd]

theorem span1 (h : ∀ c, cls c = true → Warden.isKeyChar c = false) : (span1 cls).Closes := by
  intro b w r gs t
  obtain ⟨ne, all, -⟩ := takes_span1.1 t
  rw [List.getLast?_eq_some_getLast ne]
  exact .inl (by simpa using h _ (all _ (List.getLast_mem ne)))

/-- What stops a span is in no key. -/
theorem span1_of_stop (h : ∀ c, cls c = false → Warden.isKeyChar c = false) : (Pattern.span1 cls).Closes := by
  intro b w r gs t
  obtain ⟨-, -, stop, -⟩ := takes_span1.1 t
  exact .inr fun c hc => h c (stop c hc)

theorem literal {t : Text} {c : Char} (h : t.getLast? = some c) (hc : Warden.isKeyChar c = false) :
    (literal t).Closes := by
  intro b w r gs h'
  rw [(takes_literal.1 h').1, h]
  exact .inl (by simpa using hc)

theorem textEnd : textEnd.Closes := by
  rintro b w r gs ⟨-, stop, -⟩
  rw [List.isEmpty_iff.1 stop]
  exact .inr (by simp)

theorem lineEnd : lineEnd.Closes := by
  rintro b w r gs ⟨-, stop, -⟩
  refine .inr fun c hc => ?_
  have newline : r.head?.all (· == '\n') = true := stop
  rw [hc] at newline
  rw [beq_iff_eq.1 (show (c == '\n') = true from newline)]
  rfl

end Closes

end LessonText.Pattern
