import LessonText.Proofs.Reader.Passes

/-! # Texts in which no gap begins

The markup of a gap begins with a word that no author can write, and that no rule before the ones for items writes or puts
together. A source cannot begin it, a page breaks it off in time, and what is in custody does not complete it.
-/

namespace LessonText

open Pattern Unicode Rendering

/-- A reader that refuses a word with a bracket at its start, of `n` and two characters. Behind the beginning of the word
    only its next character may stand, and those characters that are firm there. -/
def Reader.refusing (n : ℕ) (word : Text) (firm : ℕ → Char → Bool) : Reader (Fin (n + 2)) where
  home := 0
  step s c :=
    if word[s.val]? = some c then if h : s.val + 1 < n + 2 then some ⟨s.val + 1, h⟩ else none
    else if s = 0 ∨ firm s c = true then some (if c = '<' then 1 else 0)
    else none

namespace Leading

/-- What the markup of every gap begins with. -/
def word : Text := "<span class=\"missing-word"

/-- What an author may write behind a bracket, and what block rules do. -/
def firmInSource (k : ℕ) (c : Char) : Bool :=
  k == 1 && (c == '/' || c.isLower || sameLetter 'b' c || sameLetter 's' c) || k == 2 && sameLetter 'u' c

/-- What goes on with the tags of links, emojis and hidden messages instead. -/
def firmOnPage (k : ℕ) (c : Char) : Bool :=
  firmInSource k c || k == 6 && c == 'd' || k == 13 && (c == 'p' || c == 'e')

/-- Neither a key nor a line may begin inside the word. -/
def firmInCustody (_ : ℕ) (c : Char) : Bool := c != '?' && c != '\n'

def source : Reader (Fin 3) := .refusing 1 "<sp" firmInSource

def page : Reader (Fin 25) := .refusing 23 word firmOnPage

def custody : Reader (Fin 25) := .refusing 23 word firmInCustody

section

variable {m n : ℕ} {u w t : Text} {firm firm' : ℕ → Char → Bool}

/-- Where a reader that refuses more does not refuse a text, the other one stands in the same place. -/
theorem refusing_follows (le : n + 2 ≤ m + 2) (full : u.length = n + 2) (begins : u <+: w)
    (less : ∀ k c, firm k c = true → firm' k c = true) (newline : ∀ k, firm k '\n' = false) (single : '\n' ∉ u) :
    Follows (.refusing n u firm) (.refusing m w firm') (Fin.castLE le) where
  home := rfl
  step s c q h := by
    obtain ⟨v, rfl⟩ := begins
    have same : (u ++ v)[s.val]? = u[s.val]? := List.getElem?_append_left (by omega)
    simp only [Reader.refusing] at h ⊢
    rw [Fin.val_castLE, same]
    split at h
    · rename_i next
      rw [if_pos next]
      split at h
      · rw [dif_pos (by omega)]
        exact congrArg some (Option.some.inj h ▸ rfl)
      · cases h
    · rename_i other
      rw [if_neg other]
      split at h
      · rename_i stays
        have stays' : Fin.castLE le s = 0 ∨ firm' s c = true := stays.imp (fun start => by rw [start]; rfl) (less s c)
        rw [if_pos stays', ← Option.some.inj h]
        split <;> rfl
      · cases h
  newline s q h := by
    have other : u[s.val]? ≠ some '\n' := fun listed => single (List.mem_of_getElem? listed)
    simp only [Reader.refusing, if_neg other, newline] at h
    split at h
    · exact (Option.some.inj h).symm
    · cases h

/-- No other character than a bracket leads away from the start. -/
theorem stays {c : Char} (first : w.head? = some '<') (other : c ≠ '<') : (Reader.refusing n w firm).step 0 c = some 0 := by
  have next : w[(0 : Fin (n + 2)).val]? ≠ some c := by
    rw [Fin.val_zero, ← List.head?_eq_getElem?, first]
    exact fun same => other (Option.some.inj same).symm
  simp only [Reader.refusing, if_neg next, if_neg other, true_or, if_true]

/-- Without a bracket, nothing of the word is read. -/
theorem unbracketed (first : w.head? = some '<') (none : '<' ∉ t) : (Reader.refusing n w firm).run 0 t = some 0 :=
  Reader.run_home (A := .refusing n w firm) fun _ hc => stays first fun same => none (same ▸ hc)

end

variable {t : Text}

theorem source_run (none : '<' ∉ t) : source.run 0 t = some 0 := unbracketed rfl none

theorem page_run (none : '<' ∉ t) : page.run 0 t = some 0 := unbracketed rfl none

theorem custody_run (none : '<' ∉ t) : custody.run 0 t = some 0 := unbracketed rfl none

theorem firmOnPage_apart {c : Char} (h : c ∈ ("?\n" : Text)) (k : ℕ) : firmOnPage k c = false := by
  have apart : ∀ c ∈ ("?\n" : Text), (c == '/' || c.isLower || sameLetter 'b' c || sameLetter 's' c) = false ∧
      sameLetter 'u' c = false ∧ (c == 'd') = false ∧ (c == 'p' || c == 'e') = false := by decide
  obtain ⟨one, two, six, thirteen⟩ := apart c h
  simp only [firmOnPage, firmInSource, one, two, six, thirteen, Bool.and_false, Bool.or_self]

theorem firmOnPage_of_source {k : ℕ} {c : Char} (h : firmInSource k c = true) : firmOnPage k c = true := by
  rw [firmOnPage, h, Bool.true_or, Bool.true_or]

theorem firmInCustody_of_page {k : ℕ} {c : Char} (h : firmOnPage k c = true) : firmInCustody k c = true := by
  have other {d : Char} (hd : d ∈ ("?\n" : Text)) : c ≠ d := by
    rintro rfl
    rw [firmOnPage_apart hd] at h
    cases h
  rw [firmInCustody, bne_iff_ne.2 (other (by decide)), bne_iff_ne.2 (other (by decide))]
  rfl

theorem newline_firm (k : ℕ) : firmOnPage k '\n' = false := firmOnPage_apart (by decide) k

theorem source_page : Follows source page (Fin.castLE (by decide)) :=
  refusing_follows (by decide) rfl (by decide) (fun _ _ => firmOnPage_of_source)
    (fun k => Bool.eq_false_iff.2 fun firm => by simpa [newline_firm] using firmOnPage_of_source firm) (by decide)

theorem page_custody : Follows page custody id :=
  refusing_follows le_rfl rfl (List.prefix_refl _) (fun _ _ => firmInCustody_of_page) newline_firm (by decide)

theorem unbracketed_key {n : ℕ} {data : Text} (full : data ≠ []) : '<' ∉ Warden.keyFor n data := fun bracket =>
  absurd (Warden.isKeyChar_of_mem full _ bracket) (by decide)

theorem calm_source : ∀ s, source.Calm s → s = 0 := by decide

theorem calm_page : ∀ s, page.Calm s → s = 0 := by decide

theorem calm_custody : ∀ s, custody.Calm s → s = 0 := by decide

theorem marked_source : source.Marked where
  ended := by decide
  marks := by decide
  opening := by decide
  closing := (show source.Lands '>' by decide).returns
  keys n d full s calm := calm_source s calm ▸ source_run (unbracketed_key full)

theorem marked_page : page.Marked where
  ended := by decide
  marks := by decide
  opening := by decide
  closing := (show page.Lands '>' by decide).returns
  keys n d full s calm := calm_page s calm ▸ page_run (unbracketed_key full)

theorem fits : source.Fits := by
  refine .of_lands marked_source (fun c space => ?_) (by decide) (by decide) (by decide)
  have all : (charsOf spaceRanges).all (fun c => decide (source.Lands c)) = true := by decide +kernel
  exact of_decide_eq_true (of_isSpace all space)

/-! ## The source of a page -/

/-- A firm character breaks the word off. -/
theorem source_firm {s : Fin 3} {c : Char} {v : Text} (none : '<' ∉ c :: v) (next : ("<sp" : Text)[s.val]? ≠ some c)
    (firm : firmInSource s c = true) : source.run s (c :: v) = some 0 := by
  rw [List.mem_cons, not_or] at none
  have step : source.step s c = some 0 := by
    simp only [source, Reader.refusing, if_neg next, firm, or_true, if_true, if_neg (Ne.symm none.1)]
  rw [Reader.run_cons, step]
  exact source_run none.2

theorem ne_of_sameLetter {c d e : Char} (same : sameLetter c d = true) (apart : sameLetter c e = false) : some e ≠ some d := by
  rintro ⟨⟩
  rw [apart] at same
  cases same

/-- The names of raised and lowered text break the word off. -/
theorem shifted_run {c d : Char} {v : Text} (hc : sameLetter 's' c = true) (hd : sameLetter 'u' d = true)
    (none : '<' ∉ c :: d :: v) : source.run 1 (c :: d :: v) = some 0 := by
  by_cases small : c = 's'
  · subst small
    have step : source.step 1 's' = some 2 := by decide
    rw [Reader.run_cons, step]
    have later : '<' ∉ d :: v := fun mem => none (List.mem_cons_of_mem _ mem)
    exact source_firm (s := 2) later (ne_of_sameLetter hd (by decide)) (by simp [firmInSource, hd])
  · exact source_firm none (fun same => small (Option.some.inj same).symm) (by simp [firmInSource, hc])

/-- An allowed tag is read to its end. -/
theorem tag_run {b : Option Char} {w r : Text} {gs : List (ℕ × Text)} (takes : Markup.allowedTag.Takes b w r gs)
    (none : '<' ∉ w) : source.run 0 ('<' :: w) = some 0 := by
  have opening : source.step 0 '<' = some 1 := by decide
  rw [Reader.run_cons, opening]
  change source.run 1 w = some 0
  obtain ⟨_, z, _, _, rfl, -, ⟨x, y, _, _, rfl, -, slash, hname⟩, hclose⟩ := takes
  obtain ⟨rfl, -⟩ := takes_literal.1 hclose
  rcases slash with slash | ⟨rfl, -⟩
  · obtain ⟨rfl, -⟩ := takes_literal.1 slash
    exact source_firm none (by decide) (by decide)
  · rcases hname with (hname | hname) | hname
    · have letters : List.Forall₂ (fun c d => sameLetter c d = true) ['b', 'r'] y := (takes_literalFold.1 hname).1
      obtain _ | ⟨hb, -⟩ := letters
      exact source_firm none (ne_of_sameLetter hb (by decide)) (by simp [firmInSource, hb])
    · have letters : List.Forall₂ (fun c d => sameLetter c d = true) ['s', 'u', 'b'] y := (takes_literalFold.1 hname).1
      obtain _ | ⟨hs, _ | ⟨hu, -⟩⟩ := letters
      exact shifted_run hs hu none
    · have letters : List.Forall₂ (fun c d => sameLetter c d = true) ['s', 'u', 'p'] y := (takes_literalFold.1 hname).1
      obtain _ | ⟨hs, _ | ⟨hu, -⟩⟩ := letters
      exact shifted_run hs hu none

/-- What the passes before the rules leave of a source. -/
theorem opening_ensures {free : Text → Prop} {gaps : List Text} (clean : ∀ t, free (MathML.sanitise t)) (t : Text) :
    Ensures (Session.Keeps free gaps) (Markup.opening t) source.Accepts := by
  refine (Markup.replaceBlocks_carries Reader.anything_fits.toMarked clean (Reader.anything_accepts _)).bind fun u _ => .pure ?_
  have opened : Opened Markup.allowedTag (Markup.escapeBrackets.apply (Escape.ampersands u)) := .apply (by decide) _
  exact Markup.escapedSign_accepts marked_source (by decide) (by decide)
    (opened.accepts (by decide) (fun c other => stays rfl other) fun b w r gs takes none => tag_run takes none)

end Leading

end LessonText
