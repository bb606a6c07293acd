import Mathlib.Data.Fintype.Basic
import LessonText.Proofs.Markup.Safety

/-! # Readers

A reader goes over a text from the left and refuses some texts. What a rule makes of a text is read to its end if
what takes the place of each match leads the reader to where it can read on.
-/

namespace LessonText

/-- A reader of texts: where it starts, and where a character leads it unless it refuses the character. -/
structure Reader (σ : Type) where
  home : σ
  step : σ → Char → Option σ

namespace Reader

variable {σ τ : Type} (A : Reader σ)

def run (s : σ) (t : Text) : Option σ := t.foldlM A.step s

/-- A place where a text may end: a newline would not be refused. -/
def Calm (s : σ) : Prop := (A.step s '\n').isSome = true

/-- The text is read to its end, and may end there. -/
def Reads (s : σ) (t : Text) : Prop := ∃ q, A.run s t = some q ∧ A.Calm q

/-- The reader takes the whole text. -/
def Accepts (t : Text) : Prop := A.Reads A.home t

/-- A character that only stands where a text might end. -/
def Enters (c : Char) : Prop := ∀ s q, A.step s c = some q → A.Calm s

/-- A character that stands where a text might end, and leads back to the start. -/
def Lands (c : Char) : Prop := A.step A.home c = some A.home ∧ ∀ s q, A.step s c = some q → A.Calm s ∧ q = A.home

/-- A character that leads back to the start from wherever it may stand. -/
def Returns (c : Char) : Prop := ∀ s q, A.step s c = some q → q = A.home

/-- A character that only stands behind a place where a text might end if one might end behind it as well. -/
def Settles (c : Char) : Prop := ∀ s q, A.step s c = some q → A.Calm q → A.Calm s

/-- Where a text might end, this text leads back to the start. -/
def Resets (t : Text) : Prop := ∀ s, A.Calm s → A.run s t = some A.home

instance (s : σ) : Decidable (A.Calm s) := inferInstanceAs (Decidable (_ = true))

section

variable [Fintype σ] [DecidableEq σ]

instance (c : Char) : Decidable (A.Enters c) :=
  decidable_of_iff (∀ s, A.Calm s ∨ A.step s c = none) <| by
    refine forall_congr' fun s => ⟨fun h q step => h.resolve_right (by simp [step]), fun h => ?_⟩
    cases step : A.step s c with
    | none => exact .inr rfl
    | some q => exact .inl (h q step)

instance (c : Char) : Decidable (A.Lands c) :=
  decidable_of_iff (A.step A.home c = some A.home ∧ ∀ s, A.Calm s ∧ A.step s c = some A.home ∨ A.step s c = none) <| by
    refine and_congr_right fun _ => forall_congr' fun s => ⟨fun h q step => ?_, fun h => ?_⟩
    · obtain ⟨calm, same⟩ := h.resolve_right (by simp [step])
      exact ⟨calm, Option.some.inj (step.symm.trans same)⟩
    · cases step : A.step s c with
      | none => exact .inr rfl
      | some q =>
          obtain ⟨calm, rfl⟩ := h q step
          exact .inl ⟨calm, rfl⟩

instance (t : Text) : Decidable (A.Resets t) := inferInstanceAs (Decidable (∀ s, A.Calm s → A.run s t = some A.home))

end

variable {A} {s q : σ} {c : Char} {t u w z : Text}

@[simp] theorem run_nil : A.run s [] = some s := rfl

theorem run_cons : A.run s (c :: t) = (A.step s c).bind fun q => A.run q t := rfl

theorem run_append : A.run s (t ++ u) = (A.run s t).bind fun q => A.run q u := by
  rw [run, List.foldlM_append]
  rfl

theorem run_append_of (h : A.run s t = some q) : A.run s (t ++ u) = A.run q u := by
  rw [run_append, h]
  rfl

theorem reads_append : A.Reads s (t ++ u) ↔ ∃ q, A.run s t = some q ∧ A.Reads q u := by
  simp only [Reads, run_append, Option.bind_eq_some_iff]
  exact ⟨fun ⟨q, ⟨r, first, later⟩, calm⟩ => ⟨r, first, q, later, calm⟩,
    fun ⟨r, first, q, later, calm⟩ => ⟨q, ⟨r, first, later⟩, calm⟩⟩

theorem reads_cons : A.Reads s (c :: t) ↔ ∃ q, A.step s c = some q ∧ A.Reads q t := by
  simp only [Reads, run_cons, Option.bind_eq_some_iff]
  exact ⟨fun ⟨q, ⟨r, first, later⟩, calm⟩ => ⟨r, first, q, later, calm⟩,
    fun ⟨r, first, q, later, calm⟩ => ⟨q, ⟨r, first, later⟩, calm⟩⟩

@[simp] theorem reads_nil : A.Reads s [] ↔ A.Calm s :=
  ⟨fun ⟨_, same, calm⟩ => Option.some.inj same ▸ calm, fun calm => ⟨s, rfl, calm⟩⟩

theorem Lands.enters (h : A.Lands c) : A.Enters c := fun s q step => (h.2 s q step).1

theorem Lands.returns (h : A.Lands c) : A.Returns c := fun s q step => (h.2 s q step).2

theorem Lands.settles (h : A.Lands c) : A.Settles c := fun s q step _ => h.enters s q step

/-- A text whose last character leads back to the start. -/
theorem run_returns (returns : ∀ c ∈ t.getLast?, A.Returns c) (full : t ≠ []) (h : A.run s t = some q) : q = A.home := by
  obtain ⟨v, c, rfl⟩ : ∃ v c, t = v ++ [c] := ⟨t.dropLast, t.getLast full, (List.dropLast_append_getLast full).symm⟩
  rw [run_append, Option.bind_eq_some_iff] at h
  obtain ⟨r, -, last⟩ := h
  rw [run_cons, Option.bind_eq_some_iff] at last
  obtain ⟨p, step, same⟩ := last
  obtain rfl : p = q := Option.some.inj same
  exact returns c (by simp) r p step

/-- Behind such a character the rest is read from the start. -/
theorem Reads.behind (h : A.Reads s (t ++ c :: u)) (returns : A.Returns c) : A.Reads A.home u := by
  obtain ⟨q, -, later⟩ := reads_append.1 h
  obtain ⟨r, step, rest⟩ := reads_cons.1 later
  exact returns q r step ▸ rest

/-- Characters that stay at the start. -/
theorem run_home (stays : ∀ c ∈ t, A.step A.home c = some A.home) : A.run A.home t = some A.home := by
  induction t with
  | nil => rfl
  | cons c t ih =>
      obtain ⟨here, later⟩ := List.forall_mem_cons.1 stays
      rw [run_cons, here]
      exact ih later

/-- Before a text of such characters, or the end, a text might end. -/
theorem Reads.calm (h : A.Reads s t) (enters : ∀ c ∈ t.head?, A.Enters c) : A.Calm s := by
  cases t with
  | nil => exact reads_nil.1 h
  | cons c t =>
      obtain ⟨q, step, -⟩ := reads_cons.1 h
      exact enters c rfl s q step

/-- Between texts that lead back to the start, a text is read as in another place where the reader was at the start. -/
theorem run_wrap (opening : A.Resets u) (closing : A.Resets w) (calm : A.Calm s) (h : A.run A.home t = some q)
    (end_ : A.Calm q) : A.run s (u ++ t ++ w) = some A.home := by
  rw [List.append_assoc, run_append_of (opening s calm), run_append_of h]
  exact closing q end_

end Reader

/-! ## Steps that keep a condition on the session -/

theorem Rendering.bind_apply {α β : Type} (f : Rendering α) (g : α → Rendering β) (s : Session) :
    (f >>= g) s = g (f s).1 (f s).2 := rfl

/-- A step that keeps a condition on the session, and whose result has a property. -/
def Rendering.Ensures {α : Type} (I : Session → Prop) (f : Rendering α) (P : α → Prop) : Prop :=
  ∀ s, I s → I (f s).2 ∧ P (f s).1

namespace Rendering.Ensures

variable {α β : Type} {I : Session → Prop} {f : Rendering α} {P Q : α → Prop} {R : β → Prop}

theorem pure {a : α} (h : P a) : Ensures I (Pure.pure a) P := fun _ held => ⟨held, h⟩

theorem bind {g : α → Rendering β} (first : Ensures I f P) (later : ∀ a, P a → Ensures I (g a) R) : Ensures I (f >>= g) R :=
  fun s held => later _ (first s held).2 _ (first s held).1

theorem map {g : α → β} (h : Ensures I f fun a => R (g a)) : Ensures I (g <$> f) R := h

/-- Rules one after another. -/
theorem foldlM {rules : List Rule} {P : Text → Prop} (each : ∀ r ∈ rules, ∀ t, P t → Ensures I (r.apply t) P) {t : Text} (h : P t) :
    Ensures I (rules.foldlM (fun t r => r.apply t) t) P := by
  induction rules generalizing t with
  | nil => exact .pure h
  | cons r rules ih =>
      obtain ⟨here, later⟩ := List.forall_mem_cons.1 each
      exact (here t h).bind fun u hu => ih later hu

theorem mono (h : Ensures I f P) (less : ∀ a, P a → Q a) : Ensures I f Q :=
  fun s held => ⟨(h s held).1, less _ (h s held).2⟩

end Rendering.Ensures

/-! ## Rules -/

section

variable {σ τ : Type} (A : Reader σ) (B : Reader τ) (f : σ → τ)

/-- Behind the new text the second reader stands where the first one can read the rest, at the start of a line in any
    case as it should. -/
def Carries (s : σ) (old rest new : Text) : Prop :=
  ∃ q, B.run (f s) new = some (f q) ∧ A.Reads q rest ∧ (old.getLast? = some '\n' → q = A.home)

/-- The second reader follows the first one where nothing changes. -/
structure Follows : Prop where
  home : f A.home = B.home
  step : ∀ s c q, A.step s c = some q → B.step (f s) c = some (f q)
  newline : ∀ s q, A.step s '\n' = some q → q = A.home

variable {A B f}

theorem Follows.calm (h : Follows A B f) {s : σ} (calm : A.Calm s) : B.Calm (f s) := by
  obtain ⟨q, step⟩ := Option.isSome_iff_exists.1 calm
  exact Option.isSome_iff_exists.2 ⟨f q, h.step s _ q step⟩

theorem Follows.run (h : Follows A B f) {s q : σ} {t : Text} (read : A.run s t = some q) : B.run (f s) t = some (f q) := by
  induction t generalizing s with
  | nil => exact Option.some.inj read ▸ rfl
  | cons c t ih =>
      rw [Reader.run_cons, Option.bind_eq_some_iff] at read
      obtain ⟨p, step, later⟩ := read
      rw [Reader.run_cons, h.step s c p step]
      exact ih later

theorem Follows.accepts (h : Follows A B f) {t : Text} (accepts : A.Accepts t) : B.Accepts t := by
  obtain ⟨q, read, calm⟩ := accepts
  exact ⟨f q, h.home ▸ h.run read, h.calm calm⟩

open Rendering

variable {I : Session → Prop} {r : Rule}

/-- A rule carries a text from one reader to the other if every replacement does. What is known of the place of a match
    is `J`. -/
theorem Rule.apply_carries_of (follows : Follows A B f) (advances : r.pattern.Advances) (J : ℕ → Option Char → Text → Prop)
    (plain : ∀ bound b c t, r.pattern.matchAt bound 0 b (c :: t) = none → J bound b (c :: t) → J bound (some c) t)
    (found : ∀ bound b old rest gs, r.pattern.Takes b old rest gs → J bound b (old ++ rest) → J bound (old.getLast?.or b) rest)
    (each : ∀ bound b old rest m s, r.pattern.matchAt bound 0 b (old ++ rest) = some (m, old.length) → m.text = old →
      r.pattern.Takes b old rest m.groups → J bound b (old ++ rest) → (b.all (· == '\n') = true → s = A.home) →
      A.Reads s (old ++ rest) → Ensures I (r.replace m) (Carries A B f s old rest))
    {t : Text} (start : J t.length none t) (accepts : A.Accepts t) : Ensures I (r.apply t) B.Accepts := by
  have all {bound : ℕ} {b : Option Char} {t : Text} {ps : List (Piece Match)}
      (scan : Scan (r.pattern.matchAt bound 0) b t ps) : ∀ s, J bound b t → (b.all (· == '\n') = true → s = A.home) →
      A.Reads s t → Ensures I (Piece.assembleM r.replace ps) (B.Reads (f s)) := by
    induction scan with
    | nil => exact fun s _ _ reads => .pure (Reader.reads_nil.2 (follows.calm (Reader.reads_nil.1 reads)))
    | @plain b c t ps none _ ih =>
        intro s known line reads
        obtain ⟨q, step, later⟩ := Reader.reads_cons.1 reads
        refine (ih q (plain _ _ _ _ none known) (fun newline => ?_) later).bind fun v read =>
          .pure (Reader.reads_cons.2 ⟨f q, follows.step s c q step, read⟩)
        obtain rfl : c = '\n' := by simpa using newline
        exact follows.newline s q step
    | @found b w t m ps full matched _ ih =>
        intro s known line reads
        obtain ⟨same, takes⟩ := Pattern.matchAt_found matched
        have takes : r.pattern.Takes b w t m.groups := same ▸ takes
        refine (each _ _ _ _ m s matched same takes known line reads).bind fun v ⟨q, read, later, last⟩ => ?_
        refine (ih q (found _ _ _ _ _ takes known) (fun newline => ?_) later).bind fun v' read' =>
          .pure (Reader.reads_append.2 ⟨f q, read, read'⟩)
        rw [List.getLast?_eq_some_getLast full] at newline
        exact last (by rw [List.getLast?_eq_some_getLast full, beq_iff_eq.1 (show (w.getLast full == '\n') = true from newline)])
  have whole := all (Pattern.pieces_scan advances t) A.home start (fun _ => rfl) accepts
  rw [follows.home] at whole
  exact whole

/-- A rule carries a text from one reader to the other if every replacement does. -/
theorem Rule.apply_carries (follows : Follows A B f) (advances : r.pattern.Advances)
    (each : ∀ b old rest m s, m.text = old → r.pattern.Takes b old rest m.groups → (b.all (· == '\n') = true → s = A.home) →
      A.Reads s (old ++ rest) → Ensures I (r.replace m) (Carries A B f s old rest))
    {t : Text} (accepts : A.Accepts t) : Ensures I (r.apply t) B.Accepts :=
  apply_carries_of follows advances (fun _ _ _ => True) (fun _ _ _ _ _ _ => trivial) (fun _ _ _ _ _ _ _ => trivial)
    (fun _ b old rest m s _ same takes _ => each b old rest m s same takes) trivial accepts

/-- A rewrite carries a text from one reader to the other if every replacement does. -/
theorem Rewrite.apply_carries {r : Rewrite} (follows : Follows A B f) (advances : r.pattern.Advances)
    (each : ∀ b old rest m s, m.text = old → r.pattern.Takes b old rest m.groups → (b.all (· == '\n') = true → s = A.home) →
      A.Reads s (old ++ rest) → Carries A B f s old rest (r.replace m))
    {t : Text} (accepts : A.Accepts t) : B.Accepts (r.apply t) := by
  have rule := Rule.apply_carries (I := fun _ => True) (r := Rule.ofRewrite r) follows advances
    (fun b old rest m s same takes line reads => .pure (each b old rest m s same takes line reads)) accepts
  rw [Rule.ofRewrite_apply] at rule
  exact (rule {} trivial).2

end

end LessonText
