import LessonText.Proofs.Item.Markup
import LessonText.Proofs.Item.Reading
import LessonText.Proofs.Reader.Basic

/-! # Texts that show gaps

A text shows gaps for some words if their markup stands in it where a reader is at the start, and the reader takes what is between
them. Nothing that the later rules look for is found inside the markup, so it stays as it is.
-/

namespace LessonText

open Pattern Unicode Rendering

namespace Item

/-- The classes that a gap may have. -/
def gapClasses : List Text :=
  ["missing-word", "missing-word align-row", "missing-word align-column", "missing-word align-left", "missing-word align-right",
    "missing-word align-centre"]

/-- The markup of a gap, but for its last bracket. -/
def gapMarkup (cls code : Text) : Text := "<span class=\"" ++ cls ++ "\" data-missing-word=\"" ++ code ++ "\"></span"

/-- The markup of a gap for a word. -/
def IsGap (g word : Text) : Prop := ∃ cls ∈ gapClasses, g = gapMarkup cls (Attribute.encode word)

theorem isGap_gapTags (m : Match) : IsGap ('<' :: gapTags m) (m.group 2) := by
  refine ⟨classes "missing-word" ((alignments.lookup (lowerText (m.group 3))).getD []), ?_, rfl⟩
  have all : alignments.all (fun entry => gapClasses.contains (classes "missing-word" entry.2)) = true := by decide
  cases found : alignments.lookup (lowerText (m.group 3)) with
  | none => exact List.mem_cons_self
  | some cls => exact List.contains_iff_mem.1 (List.all_eq_true.1 all _ (mem_of_lookup found))

/-- What may stand in the markup of a gap behind a space, or behind a bracket. -/
def inMarkup : Reader (Fin 3) where
  home := 0
  step s c :=
    if s = 1 ∧ ¬ c ∈ ("cad<" : Text) ∨ s = 2 ∧ c ≠ '/' then none
    else some (if c = ' ' ∨ c = '>' then 1 else if c = '<' then 2 else 0)

theorem plain_of_mem_encode {t : Text} {c : Char} (h : c ∈ Attribute.encode t) : c ≠ ' ' ∧ c ≠ '>' ∧ c ≠ '<' := by
  obtain ⟨s, pads, coded, letters, -⟩ := Base64.encode_eq (Attribute.asciiBytes (Percent.encode t))
  rw [Attribute.encode, coded, List.mem_append] at h
  have sextet : ∀ c, Base64.isSextet c = true → c ≠ ' ' ∧ c ≠ '>' ∧ c ≠ '<' := by
    rintro c inside
    refine ⟨?_, ?_, ?_⟩ <;> rintro rfl <;> exact absurd inside (by decide)
  rcases h with inside | pad
  · exact sextet c (letters c inside).1
  · rw [List.eq_of_mem_replicate pad]
    decide

namespace IsGap

variable {g word u v : Text} {c : Char}

theorem all_markup (h : IsGap g word) : g.all isMarkup = true := by
  obtain ⟨cls, listed, rfl⟩ := h
  have classes : gapClasses.all (·.all isMarkup) = true := by decide
  have opening := all_markup_append (t := "<span class=\"") rfl (List.all_eq_true.1 classes cls listed)
  exact all_markup_append (all_markup_append (all_markup_append opening rfl) (all_encode word)) rfl

/-- Behind its first bracket, the markup of a gap is read to its end. -/
theorem exists_read (h : IsGap g word) : ∃ t, g = '<' :: t ∧ inMarkup.run 0 t = some 0 := by
  obtain ⟨cls, listed, rfl⟩ := h
  have opening : ∀ cls ∈ gapClasses, inMarkup.run 0 ("span class=\"" ++ cls ++ "\" data-missing-word=\"") = some 0 := by
    decide
  have closing : inMarkup.run 0 "\"></span" = some 0 := by decide
  have inside : inMarkup.run 0 (Attribute.encode word) = some 0 := by
    refine Reader.run_home (A := inMarkup) fun c hc => ?_
    obtain ⟨space, closing, opening⟩ := plain_of_mem_encode hc
    have sign : ¬ (c = ' ' ∨ c = '>') := fun same => same.elim space closing
    simp only [inMarkup, if_neg sign, if_neg opening]
    rfl
  have read : inMarkup.run 0 ("span class=\"" ++ cls ++ "\" data-missing-word=\"" ++ Attribute.encode word ++ "\"></span") =
      some 0 := (Reader.run_append_of ((Reader.run_append_of (opening cls listed)).trans inside)).trans closing
  exact ⟨_, rfl, read⟩

/-- What stands behind a space or a bracket of the markup. -/
theorem behind (h : IsGap g word) (split : g = '<' :: (u ++ c :: v)) :
    (c = ' ' ∨ c = '>' → ∃ d ∈ ("cad<" : Text), v.head? = some d) ∧ (c = '<' → v.head? = some '/') := by
  obtain ⟨t, same, read⟩ := h.exists_read
  obtain rfl : t = u ++ c :: v := (List.cons.inj (same.symm.trans split)).2
  rw [Reader.run_append, Option.bind_eq_some_iff] at read
  obtain ⟨s, -, read⟩ := read
  rw [Reader.run_cons, Option.bind_eq_some_iff] at read
  obtain ⟨q, step, read⟩ := read
  have goes : ∀ s q, (∀ c ∈ (" >" : Text), inMarkup.step s c = some q → q = 1) ∧ (inMarkup.step s '<' = some q → q = 2) := by
    decide
  constructor
  · intro sign
    obtain rfl := (goes s q).1 c (by simpa using sign) step
    cases v with
    | nil => cases read
    | cons d v =>
        refine ⟨d, ?_, rfl⟩
        by_contra other
        have refused : inMarkup.step 1 d = none := if_pos (.inl ⟨rfl, other⟩)
        rw [Reader.run_cons, refused] at read
        cases read
  · rintro rfl
    obtain rfl := (goes s q).2 step
    cases v with
    | nil => cases read
    | cons d v =>
        by_contra other
        have slash : d ≠ '/' := fun same => other (congrArg some same)
        have refused : inMarkup.step 2 d = none := if_pos (.inr ⟨rfl, slash⟩)
        rw [Reader.run_cons, refused] at read
        cases read

end IsGap

end Item

/-- A text with gaps for these words in it. -/
inductive Reader.Shows {σ : Type} (A : Reader σ) : σ → Text → List Text → Prop where
  | nil {s} : A.Calm s → Shows A s [] []
  | char {s q c t words} : A.step s c = some q → Shows A q t words → Shows A s (c :: t) words
  | gap {s g t u word words} : s = A.home → Item.IsGap g word → u = g ++ t → t.head? = some '>' → Shows A A.home t words →
      Shows A s u (word :: words)

namespace Reader.Shows

variable {σ τ : Type} {A : Reader σ} {B : Reader τ} {f : σ → τ} {s q : σ} {t u : Text} {words : List Text}

theorem of_reads (h : A.Reads s t) : A.Shows s t [] := by
  induction t generalizing s with
  | nil => exact .nil (reads_nil.1 h)
  | cons c t ih =>
      obtain ⟨q, step, later⟩ := reads_cons.1 h
      exact .char step (ih later)

/-- A text that shows no gap is read to its end. -/
theorem reads (h : A.Shows s t words) (none : words = []) : A.Reads s t := by
  induction h with
  | nil calm => exact reads_nil.2 calm
  | char step _ ih => exact reads_cons.2 ⟨_, step, ih none⟩
  | gap => cases none

theorem append (read : A.run s u = some q) (h : A.Shows q t words) : A.Shows s (u ++ t) words := by
  induction u generalizing s with
  | nil => exact Option.some.inj read ▸ h
  | cons c u ih =>
      obtain ⟨p, step, later⟩ := Option.bind_eq_some_iff.1 (run_cons ▸ read)
      exact .char step (ih later)

/-- Without a bracket, a text shows no gap. -/
theorem split (plain : '<' ∉ u) (h : A.Shows s (u ++ t) words) : ∃ q, A.run s u = some q ∧ A.Shows q t words := by
  induction u generalizing s with
  | nil => exact ⟨s, rfl, h⟩
  | cons c u ih =>
      rw [List.mem_cons, not_or] at plain
      cases h with
      | char step later =>
          obtain ⟨q, read, rest⟩ := ih plain.2 later
          exact ⟨q, by rw [run_cons, step]; exact read, rest⟩
      | gap _ isGap same =>
          obtain ⟨g, rfl, -⟩ := isGap.exists_read
          exact absurd (List.cons.inj same).1.symm plain.1

theorem follows (follows : Follows A B f) (h : A.Shows s t words) : B.Shows (f s) t words := by
  induction h with
  | nil calm => exact .nil (follows.calm calm)
  | char step _ ih => exact .char (follows.step _ _ _ step) ih
  | gap start isGap same bracket _ ih => exact .gap (start ▸ follows.home) isGap same bracket (follows.home ▸ ih)

/-- What is shown anywhere is shown at the start. -/
theorem at_home (returns : ∀ s q c, A.step s c = some q → ∃ q', A.step A.home c = some q' ∧ (q' = q ∨ q' = A.home))
    (calm : A.Calm A.home) (h : A.Shows s t words) : A.Shows A.home t words := by
  induction h with
  | nil => exact .nil calm
  | char step later ih =>
      obtain ⟨q', step', rfl | rfl⟩ := returns _ _ _ step
      · exact .char step' later
      · exact .char step' ih
  | gap start isGap same bracket later => exact .gap rfl isGap same bracket later

end Reader.Shows

/-- A text that shows these gaps in the place of another one, and begins with a bracket if that one does. -/
structure Reader.Preserves {σ : Type} (A : Reader σ) (s : σ) (words : List Text) (t u : Text) : Prop where
  shows : A.Shows s u words
  bracket : t.head? = some '>' → u.head? = some '>'

namespace Reader.Preserves

variable {σ : Type} {A : Reader σ} {s q : σ} {c : Char} {g t u word : Text} {words : List Text}

theorem nil (calm : A.Calm s) : A.Preserves s [] [] [] := ⟨.nil calm, nofun⟩

theorem char (step : A.step s c = some q) (later : A.Preserves q words t u) : A.Preserves s words (c :: t) (c :: u) :=
  ⟨.char step later.shows, id⟩

theorem gap (isGap : Item.IsGap g word) (bracket : t.head? = some '>') (later : A.Preserves A.home words t u) :
    A.Preserves A.home (word :: words) (g ++ t) (g ++ u) := by
  refine ⟨.gap rfl isGap rfl (later.bracket bracket) later.shows, fun same => ?_⟩
  obtain ⟨x, rfl, -⟩ := isGap.exists_read
  exact same

end Reader.Preserves

/-! ## Scans -/

variable {α : Type} {find : Finder α} {b : Option Char} {w t : Text} {ps : List (Piece α)}

/-- A finder that finds nothing from inside the markup of a gap on. -/
def Finder.Blind (find : Finder α) : Prop := ∀ b g word u c v t, Item.IsGap g word → g = u ++ c :: v → t.head? = some '>' →
  find (u.getLast?.or b) (c :: (v ++ t)) = none

/-- A scan passes a text inside which nothing is found. -/
theorem Scan.behind (none : ∀ u c v, w = u ++ c :: v → find (u.getLast?.or b) (c :: (v ++ t)) = none)
    (scan : Scan find b (w ++ t) ps) : ∃ ps', ps = w.map .plain ++ ps' ∧ Scan find (w.getLast?.or b) t ps' := by
  induction w generalizing b ps with
  | nil => exact ⟨ps, rfl, scan⟩
  | cons c w ih =>
      have here : find b (c :: w ++ t) = Option.none := none [] c w rfl
      generalize split : c :: w ++ t = x at scan here
      cases scan with
      | nil => cases split
      | plain _ later =>
          obtain ⟨rfl, rfl⟩ := List.cons.inj split
          obtain ⟨ps', rfl, rest⟩ := ih (fun u d v same => Text.getLast?_cons_or c u b ▸ none (c :: u) d v (congrArg (c :: ·) same)) later
          exact ⟨ps', rfl, Text.getLast?_cons_or c w b ▸ rest⟩
      | found _ found =>
          rw [here] at found
          cases found

/-- A scan of a text with gaps meets its characters and its gaps one by one, or finds something without a bracket. -/
theorem Reader.Shows.along {σ : Type} {A : Reader σ} {motive : Option Char → σ → Text → List Text → List (Piece α) → Prop}
    (blind : find.Blind) (plain : ∀ b w t a, find b (w ++ t) = some (a, w.length) → '<' ∉ w)
    (nil : ∀ b s, A.Calm s → motive b s [] [] [])
    (char : ∀ b s q c t words ps, A.step s c = some q → motive (some c) q t words ps → motive b s (c :: t) words (.plain c :: ps))
    (gap : ∀ b g t word words ps, Item.IsGap g word → t.head? = some '>' → motive (g.getLast?.or b) A.home t words ps →
      motive b A.home (g ++ t) (word :: words) (g.map .plain ++ ps))
    (found : ∀ b s q w t a words ps, w ≠ [] → find b (w ++ t) = some (a, w.length) → A.run s w = some q → A.Shows q t words →
      (∀ s, A.Shows s t words → motive (w.getLast?.or b) s t words ps) → motive b s (w ++ t) words (.found a :: ps))
    {s : σ} {words : List Text} (scan : Scan find b t ps) (shows : A.Shows s t words) : motive b s t words ps := by
  induction length : t.length using Nat.strong_induction_on generalizing b s t words ps with
  | _ n ih =>
      subst length
      have pass {g t' word} (isGap : Item.IsGap g word) (split : t = g ++ t') (bracket : t'.head? = some '>') :
          ∃ ps', ps = g.map .plain ++ ps' ∧ Scan find (g.getLast?.or b) t' ps' :=
        Scan.behind (fun u c v same => blind b g word u c v t' isGap same bracket) (split ▸ scan)
      have shorter {g t' : Text} (full : g ≠ []) : t'.length < (g ++ t').length := by
        have := List.length_pos_iff.2 full
        rw [List.length_append]
        omega
      cases shows with
      | nil calm =>
          generalize split : ([] : Text) = x at scan
          cases scan with
          | nil => exact nil b s calm
          | plain => cases split
          | found full => exact absurd (List.append_eq_nil_iff.1 split.symm).1 full
      | @gap _ g t' _ word words start isGap split bracket later =>
          obtain ⟨ps', rfl, rest⟩ := pass isGap split bracket
          subst start split
          obtain ⟨_, full, -⟩ := isGap.exists_read
          exact gap b g t' word words ps' isGap bracket (ih _ (shorter (by simp [full])) rest later rfl)
      | @char _ q c t' _ step later =>
          generalize split : c :: t' = x at scan
          cases scan with
          | nil => cases split
          | plain _ rest =>
              obtain ⟨rfl, rfl⟩ := List.cons.inj split
              exact char b s q c t' words _ step (ih _ (by simp) rest later rfl)
          | @found _ w t'' a ps full matched rest =>
              have whole : A.Shows s (w ++ t'') words := split ▸ Reader.Shows.char step later
              obtain ⟨p, read, shows⟩ := whole.split (plain _ _ _ _ matched)
              refine found b s p w t'' a words ps full matched read shows fun s' shows' => ih _ ?_ rest shows' rfl
              rw [split]
              exact shorter full

end LessonText
