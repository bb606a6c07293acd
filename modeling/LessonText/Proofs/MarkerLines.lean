import LessonText.Proofs.LineEnds

/-! # Marker lines

A marker line is written as at most three spaces, brackets that open, copies of one sign in either letter case, brackets that
close, and the rest of the line. The brackets need not match. A line is read as a marker line exactly if it can be written so,
and otherwise as a line without a marker.
-/

namespace LessonText

open Unicode

namespace Part

theorem ofLetter?_sign (p : Part) : ofLetter? [p.sign] = some p := by cases p <;> rfl

theorem sign_injective {p q : Part} (same : p.sign = q.sign) : p = q := by
  refine Option.some.inj ?_
  rw [← ofLetter?_sign p, ← ofLetter?_sign q, same]

/-- The sign of the part that a sign begins: two parts have a second one. -/
def mainSign : Char → Char
  | '&' => '+'
  | '_' => '#'
  | c => c

end Part

/-- A text without the gap at its start. -/
def Line.dropGap (t : Text) : Text := t.dropWhile fun c => c == ' ' || c == '\t'

/-- A marker line in the parts in which it is written. -/
structure MarkerLine where
  indent : ℕ
  opening : ℕ
  sign : Char
  copies : Text
  closing : ℕ
  rest : Text
  indented : indent ≤ 3
  opens : 0 < opening
  listed : sign ∈ ("i?=x+#&_" : Text)
  full : copies ≠ []
  copied : ∀ c ∈ copies, c = sign ∨ c = sign.toUpper
  closes : 0 < closing

namespace MarkerLine

def text (m : MarkerLine) : Text :=
  List.replicate m.indent ' ' ++ (List.replicate m.opening '(' ++ (m.copies ++ (List.replicate m.closing ')' ++ m.rest)))

/-- What stands behind the longest run of brackets that close, without the gap at its start. -/
def content (m : MarkerLine) : Text := Line.dropGap (m.rest.dropWhile (· == ')'))

end MarkerLine

namespace Line

/-! ## Runs of one character -/

section Runs

variable {c : Char} {n : ℕ} {r : Text}

/-- A text is a run of the character and something that does not begin with it. -/
theorem exists_run (c : Char) (t : Text) : ∃ n r, t = List.replicate n c ++ r ∧ r.head? ≠ some c := by
  induction t with
  | nil => exact ⟨0, [], rfl, nofun⟩
  | cons d t ih =>
      by_cases same : d = c
      · obtain ⟨n, r, rfl, other⟩ := ih
        exact ⟨n + 1, r, same ▸ rfl, other⟩
      · exact ⟨0, d :: t, rfl, by simpa using same⟩

theorem mem_run {d : Char} (h : d ∈ List.replicate n c) : (d == c) = true := beq_iff_eq.2 (List.eq_of_mem_replicate h)

theorem dropWhile_run (other : r.head? ≠ some c) : (List.replicate n c ++ r).dropWhile (· == c) = r := by
  rw [List.dropWhile_append_of_pos fun _ => mem_run]
  cases r with
  | nil => rfl
  | cons d r => exact List.dropWhile_cons_of_neg (by simpa using other)

theorem takeWhile_run (other : r.head? ≠ some c) : (List.replicate n c ++ r).takeWhile (· == c) = List.replicate n c := by
  rw [List.takeWhile_append_of_pos fun _ => mem_run]
  cases r with
  | nil => exact List.append_nil _
  | cons d r => rw [List.takeWhile_cons_of_neg (by simpa using other), List.append_nil]

theorem dropIndent?_run (other : r.head? ≠ some ' ') :
    dropIndent? (List.replicate n ' ' ++ r) = if n ≤ 3 then some r else none := by
  rw [dropIndent?, takeWhile_run other, dropWhile_run other, List.length_replicate]

theorem dropBrackets?_run (other : r.head? ≠ some c) :
    dropBrackets? c (List.replicate n c ++ r) = if 0 < n then some r else none := by
  rw [dropBrackets?, dropWhile_run other]
  cases n with
  | zero => simpa using other
  | succ n => simp [List.replicate_succ]

end Runs

/-! ## Letters of a marker -/

/-- The letters and signs of a marker in either letter case. -/
def asciiForms : Text := "iI?=xX+#&_"

theorem mem_asciiForms {c : Char} (form : c ∈ letterForms) (dotted : c ≠ 'İ') (dotless : c ≠ 'ı') : c ∈ asciiForms := by
  have all : ∀ c ∈ letterForms, c = 'İ' ∨ c = 'ı' ∨ c ∈ asciiForms := by decide
  exact ((all c form).resolve_left dotted).resolve_left dotless

/-- A sign is a letter of a marker in either letter case, and names its part in both. -/
theorem form_of_sign {sign : Char} (listed : sign ∈ ("i?=x+#&_" : Text)) : ∀ c, c = sign ∨ c = sign.toUpper →
    isLetter c = true ∧ c ≠ '(' ∧ lower c = sign ∧
      (Part.ofLetter? (lowerText [c])).map Part.sign = some (Part.mainSign sign) := by
  have all : ∀ sign ∈ ("i?=x+#&_" : Text), ∀ c ∈ [sign, sign.toUpper], isLetter c = true ∧ c ≠ '(' ∧ lower c = sign ∧
      (Part.ofLetter? (lowerText [c])).map Part.sign = some (Part.mainSign sign) := by decide
  exact fun c form => all sign listed c (by simpa using form)

/-- A letter of a marker is a sign in either letter case, and so is every letter that differs from it in case alone. -/
theorem sign_of_form {letter : Char} (form : letter ∈ asciiForms) : letter.toLower ∈ ("i?=x+#&_" : Text) ∧
    ∀ c ∈ asciiForms, lower c = lower letter → c = letter.toLower ∨ c = letter.toLower.toUpper := by
  have all : ∀ letter ∈ asciiForms, letter.toLower ∈ ("i?=x+#&_" : Text) ∧
      ∀ c ∈ asciiForms, lower c = lower letter → c = letter.toLower ∨ c = letter.toLower.toUpper := by decide
  exact all letter form

/-! ## The marker of a line in parts -/

theorem bind_ite {α β : Type} {P : Prop} [Decidable P] (a : α) (f : α → Option β) :
    (if P then some a else none).bind f = if P then f a else none := by
  split <;> rfl

/-- A line of which each part ends where the next one begins. -/
theorem marker?_parts {indent opening closing : ℕ} {letter : Char} {more rest : Text}
    (start : (List.replicate opening '(' ++ letter :: (more ++ (List.replicate closing ')' ++ rest))).head? ≠ some ' ')
    (inside : letter ≠ '(') (same : ∀ c ∈ more, lower c = lower letter)
    (stop : ∀ c ∈ (List.replicate closing ')' ++ rest).head?, lower c ≠ lower letter) (behind : rest.head? ≠ some ')')
    (single : '\n' ∉ rest) :
    marker? (List.replicate indent ' ' ++ (List.replicate opening '(' ++ letter :: (more ++ (List.replicate closing ')' ++ rest)))) =
      if indent ≤ 3 ∧ 0 < opening ∧ isLetter letter = true ∧ 0 < closing then some (letter, dropGap rest) else none := by
  have opens : (letter :: (more ++ (List.replicate closing ')' ++ rest))).head? ≠ some '(' := by simpa using inside
  have copies : (more ++ (List.replicate closing ')' ++ rest)).dropWhile (fun c => lower c == lower letter) =
      List.replicate closing ')' ++ rest := by
    rw [List.dropWhile_append_of_pos fun c mem => beq_iff_eq.2 (same c mem)]
    cases after : List.replicate closing ')' ++ rest with
    | nil => rfl
    | cons c t => exact List.dropWhile_cons_of_neg (by simpa using stop c (by simp [after]))
  have content : lineRest? (dropGap rest) = some (dropGap rest) :=
    lineRest?_eq fun mem => single ((List.dropWhile_suffix _).subset mem)
  rw [dropGap] at content
  simp only [marker?, Option.bind_eq_bind, dropIndent?_run start, bind_ite, dropBrackets?_run opens, copies, dropBrackets?_run behind,
    content, Option.bind_some, Option.pure_def, ite_and, dropGap]

/-! ## What is written is read -/

theorem marker?_text (m : MarkerLine) (single : '\n' ∉ m.text) :
    ∃ letter, (letter = m.sign ∨ letter = m.sign.toUpper) ∧ marker? m.text = some (letter, m.content) := by
  obtain ⟨letter, more, copies⟩ := List.exists_cons_of_ne_nil m.full
  obtain ⟨form, forms⟩ : (letter = m.sign ∨ letter = m.sign.toUpper) ∧ ∀ c ∈ more, c = m.sign ∨ c = m.sign.toUpper := by
    simpa [copies] using m.copied
  obtain ⟨accepted, inside, folded, -⟩ := form_of_sign m.listed letter form
  obtain ⟨n, rest, split, behind⟩ := exists_run ')' m.rest
  have text : m.text = List.replicate m.indent ' ' ++ (List.replicate m.opening '(' ++
      letter :: (more ++ (List.replicate (m.closing + n) ')' ++ rest))) := by
    rw [MarkerLine.text, copies, split, ← List.append_assoc (List.replicate m.closing ')'), List.replicate_append_replicate,
      List.cons_append]
  have content : m.content = dropGap rest := by rw [MarkerLine.content, split, dropWhile_run behind]
  obtain ⟨o, opens⟩ := Nat.exists_eq_add_of_lt m.opens
  obtain ⟨k, closes⟩ := Nat.exists_eq_add_of_lt (Nat.add_pos_left m.closes n)
  refine ⟨letter, form, ?_⟩
  rw [text, marker?_parts ?_ inside ?_ ?_ behind ?_,
    if_pos ⟨m.indented, m.opens, accepted, Nat.add_pos_left m.closes n⟩, content]
  · simp [opens, List.replicate_succ]
  · intro c mem
    rw [(form_of_sign m.listed c (forms c mem)).2.2.1, folded]
  · have bracket : lower ')' ≠ lower letter := by
      rw [folded]
      rintro same
      exact absurd (same ▸ m.listed) (by decide)
    simpa [closes, List.replicate_succ] using bracket
  · exact fun mem => single (by simp [MarkerLine.text, split, mem])

/-- The line is a marker line of the part that its sign names. -/
theorem read_text (m : MarkerLine) (single : '\n' ∉ m.text) :
    ∃ part, part.sign = Part.mainSign m.sign ∧ read m.text = .ok (.marker part m.content) := by
  obtain ⟨letter, form, marked⟩ := marker?_text m single
  obtain ⟨part, named, sign⟩ := Option.map_eq_some_iff.1 (form_of_sign m.listed letter form).2.2.2
  refine ⟨part, sign, ?_⟩
  simp only [read, marked, named]

/-! ## What is read is written so -/

/-- A text is copies of a letter and something that does not begin with one. -/
theorem exists_copies (letter : Char) (t : Text) : ∃ more after, t = more ++ after ∧ (∀ c ∈ more, lower c = lower letter) ∧
    ∀ c ∈ after.head?, lower c ≠ lower letter := by
  let p (c : Char) : Bool := lower c == lower letter
  refine ⟨t.takeWhile p, t.dropWhile p, List.takeWhile_append_dropWhile.symm, fun c mem => ?_, fun c mem => ?_⟩
  · exact beq_iff_eq.1 (List.mem_takeWhile_imp (p := p) mem)
  · have stop := List.head?_dropWhile_not p t
    rw [Option.mem_def.1 mem] at stop
    exact beq_eq_false_iff_ne.1 stop

/-- A line with a marker is written as a marker line. -/
theorem exists_text {line : Text} (single : '\n' ∉ line) (dotted : 'İ' ∉ line) (dotless : 'ı' ∉ line) (marked : marker? line ≠ none) :
    ∃ m : MarkerLine, m.text = line := by
  obtain ⟨indent, unindented, rfl, start⟩ := exists_run ' ' line
  obtain ⟨opening, inside, rfl, first⟩ := exists_run '(' unindented
  cases inside with
  | nil =>
      refine absurd ?_ marked
      simp only [marker?, Option.bind_eq_bind, dropIndent?_run start, bind_ite, dropBrackets?_run first, ite_self]
  | cons letter t =>
      obtain ⟨more, after, rfl, same, stop⟩ := exists_copies letter t
      obtain ⟨closing, rest, rfl, behind⟩ := exists_run ')' after
      have ended : '\n' ∉ rest := fun mem => single (by simp [mem])
      rw [marker?_parts start (by simpa using first) same stop behind ended] at marked
      obtain ⟨indented, opened, accepted, closed⟩ := (ite_ne_right_iff.1 marked).1
      have form {c : Char} (mem : c ∈ letter :: more) (letters : c ∈ letterForms) : c ∈ asciiForms := by
        refine mem_asciiForms letters ?_ ?_
        · rintro rfl
          exact dotted (List.mem_append_right _ (List.mem_append_right _ (List.mem_append_left _ mem)))
        · rintro rfl
          exact dotless (List.mem_append_right _ (List.mem_append_right _ (List.mem_append_left _ mem)))
      obtain ⟨listed, cases⟩ := sign_of_form (form List.mem_cons_self ((isLetter_iff letter).1 accepted))
      have copied : ∀ c ∈ letter :: more, c = letter.toLower ∨ c = letter.toLower.toUpper := by
        intro c mem
        have alike : lower c = lower letter := by
          rcases List.mem_cons.1 mem with rfl | mem
          · rfl
          · exact same c mem
        refine cases c (form mem (mem_letterForms_of_lower ?_)) alike
        rw [alike]
        exact lower_mem_lowerForms accepted
      exact ⟨⟨indent, opening, letter.toLower, letter :: more, closing, rest, indented, opened, listed, List.cons_ne_nil _ _, copied,
        closed⟩, by simp [MarkerLine.text]⟩

/-- A line has a marker exactly if it is written as a marker line: it then begins the part that its sign names, with what
    stands behind the marker. Every other line stays whole. -/
theorem read_eq_marker_iff {line : Text} (single : '\n' ∉ line) (dotted : 'İ' ∉ line) (dotless : 'ı' ∉ line) :
    (∀ part content, read line = .ok (.marker part content) ↔
      ∃ m : MarkerLine, m.text = line ∧ part.sign = Part.mainSign m.sign ∧ content = m.content) ∧
    (read line = .ok (.plain line) ↔ ¬ ∃ m : MarkerLine, m.text = line) := by
  have unmarked (none : ¬ ∃ m : MarkerLine, m.text = line) : read line = .ok (.plain line) := by
    have marker : marker? line = Option.none := by
      by_contra marked
      exact none (exists_text single dotted dotless marked)
    rw [read, marker]
  constructor
  · intro part content
    constructor
    · intro marked
      by_cases written : ∃ m : MarkerLine, m.text = line
      · obtain ⟨m, rfl⟩ := written
        obtain ⟨part', sign, same⟩ := read_text m single
        obtain ⟨rfl, rfl⟩ := Line.marker.inj (Except.ok.inj (marked.symm.trans same))
        exact ⟨m, rfl, sign, rfl⟩
      · cases marked.symm.trans (unmarked written)
    · rintro ⟨m, rfl, sign, rfl⟩
      obtain ⟨part', sign', same⟩ := read_text m single
      rw [same, Part.sign_injective (sign.trans sign'.symm)]
  · refine ⟨?_, unmarked⟩
    rintro plain ⟨m, rfl⟩
    obtain ⟨part, -, marked⟩ := read_text m single
    cases marked.symm.trans plain

/-- A line whose brackets do not match, with a sign in both letter cases and a bracket behind the gap. -/
theorem read_eq_marker_iff_unmatched :
    let line : Text := "  ((xXx))) \t) (no"
    ('\n' ∉ line ∧ 'İ' ∉ line ∧ 'ı' ∉ line) ∧ read line = .ok (.marker .wrong ") (no") := by
  intro line
  have clean : '\n' ∉ line ∧ 'İ' ∉ line ∧ 'ı' ∉ line := by decide
  refine ⟨clean, ((read_eq_marker_iff clean.1 clean.2.1 clean.2.2).1 _ _).2 ?_⟩
  exact ⟨⟨2, 2, 'x', "xXx", 2, ") \t) (no", by decide, by decide, by decide, by decide, by decide, by decide⟩, rfl, rfl, rfl⟩

end Line

end LessonText
