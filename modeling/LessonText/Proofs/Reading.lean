import LessonText.Lesson.Compile

/-! # Which lessons can be read

When letter case is ignored, the letter i has four forms, and two of them, the dotted capital and the
dotless small letter, are accepted as the letter of a marker without naming a part. Every other accepted
letter names one. So a lesson is compiled unless a marker line is written with one of these two.
-/

namespace LessonText

theorem mapM_eq_ok {α β ε : Type} {f : α → Except ε β} {g : α → β} {l : List α}
    (h : ∀ a ∈ l, f a = .ok (g a)) : l.mapM f = .ok (l.map g) := by
  induction l with
  | nil => rfl
  | cons a l ih =>
      rw [List.mapM_cons, h a (by simp), ih fun b hb => h b (List.mem_cons_of_mem _ hb)]
      rfl

/-- Either every element is mapped or the error of one is the answer. -/
theorem mapM_ok_or_error {α β ε : Type} (f : α → Except ε β) (l : List α) :
    (∃ bs, l.mapM f = .ok bs ∧ ∀ a ∈ l, ∃ b, f a = .ok b) ∨
      ∃ cause, l.mapM f = .error cause ∧ ∃ a ∈ l, f a = .error cause := by
  induction l with
  | nil => exact .inl ⟨[], rfl, by simp⟩
  | cons a l ih =>
      rw [List.mapM_cons]
      cases here : f a with
      | error cause => exact .inr ⟨cause, rfl, a, by simp, here⟩
      | ok b =>
          rcases ih with ⟨bs, later, all⟩ | ⟨cause, later, c, hc, first⟩
          · rw [later]
            exact .inl ⟨b :: bs, rfl, List.forall_mem_cons.2 ⟨⟨b, here⟩, all⟩⟩
          · rw [later]
            exact .inr ⟨cause, rfl, c, List.mem_cons_of_mem _ hc, first⟩

namespace Unicode

/-- A code point that moves does so in a run. -/
theorem mapCase_cases (runs : List CaseRun) (n : Nat) : mapCase runs n = n ∨
    ∃ r ∈ runs, r.first ≤ n ∧ n ≤ r.last ∧ mapCase runs n = r.image + (n - r.first) := by
  induction runs with
  | nil => exact .inl rfl
  | cons r runs ih =>
      unfold mapCase
      split
      · exact .inl rfl
      · rename_i above
        split
        · rename_i within
          simp only [Bool.and_eq_true, decide_eq_true_eq] at within
          exact .inr ⟨r, by simp, by omega, within.1, rfl⟩
        · refine ih.imp_right ?_
          rintro ⟨r', hr, bounds⟩
          exact ⟨r', List.mem_cons_of_mem _ hr, bounds⟩

/-- A number that stands for a character other than the first is its code point. -/
theorem toNat_ofNat {n : Nat} (h : (Char.ofNat n).toNat ≠ 0) : (Char.ofNat n).toNat = n := by
  unfold Char.ofNat at h ⊢
  by_cases valid : n.isValidChar
  · rw [dif_pos valid]
    rfl
  · rw [dif_neg valid] at h
    exact absurd rfl h

end Unicode

namespace Line

open Unicode

/-- What the letter of a marker may be. -/
def letterForms : Text := "iIİı?=xX+#&_"

/-- The code points of letters in lower case that count as the letter of a marker. -/
def lowerForms : List Nat := [0x69, 0x131, 0x3F, 0x3D, 0x78, 0x2B, 0x23, 0x26, 0x5F]

theorem lower_mem_lowerForms {c : Char} (h : isLetter c = true) : (lower c).toNat ∈ lowerForms := by
  have forms : letters.all (fun letter => lowerForms.contains (lower letter).toNat &&
      ((caseVariants.lookup (lower letter).toNat).getD []).all lowerForms.contains) = true := by
    decide
  obtain ⟨letter, hl, same⟩ := List.any_eq_true.1 h
  obtain ⟨plain, variants⟩ := Bool.and_eq_true_iff.1 (List.all_eq_true.1 forms letter hl)
  rw [sameLetter, Bool.or_eq_true, beq_iff_eq] at same
  rcases same with same | variant
  · exact same ▸ List.contains_iff_mem.1 plain
  · exact List.contains_iff_mem.1 (List.all_eq_true.1 variants _ (List.contains_iff_mem.1 variant))

theorem mem_letterForms_of_lower {c : Char} (h : (lower c).toNat ∈ lowerForms) :
    c ∈ letterForms := by
  by_cases ascii : c.toNat < 0x80
  · have all : (List.range 0x80).all (fun n => !lowerForms.contains (lower (Char.ofNat n)).toNat ||
        letterForms.contains (Char.ofNat n)) = true := by decide
    have here := List.all_eq_true.1 all c.toNat (List.mem_range.2 ascii)
    rw [Char.ofNat_toNat] at here
    simpa [h] using here
  · -- beyond ASCII only one run of capitals leads to such a letter
    have runs : lowerRuns.all (fun r => lowerForms.all fun n =>
        r.last < 0x80 || n < r.image || r.image + (r.last - r.first) < n ||
          r.first + (n - r.image) == 0x130) = true := by decide
    have moved : lower c = Char.ofNat (mapCase lowerRuns c.toNat) := by rw [lower, if_neg ascii]
    have image : mapCase lowerRuns c.toNat ∈ lowerForms := by
      rw [moved] at h
      have valid : (Char.ofNat (mapCase lowerRuns c.toNat)).toNat ≠ 0 := by
        intro zero
        rw [zero] at h
        exact absurd h (by decide)
      rwa [toNat_ofNat valid] at h
    have point : c.toNat = 0x130 ∨ c.toNat = 0x131 := by
      rcases mapCase_cases lowerRuns c.toNat with still | ⟨r, hr, low, high, e⟩
      · rw [still] at image
        simp only [lowerForms, List.mem_cons, List.not_mem_nil, or_false] at image
        omega
      · have here := List.all_eq_true.1 (List.all_eq_true.1 runs r hr) _ image
        simp only [Bool.or_eq_true, decide_eq_true_eq, beq_iff_eq] at here
        omega
    rw [← Char.ofNat_toNat c]
    rcases point with e | e <;> rw [e] <;> decide

theorem isLetter_iff (c : Char) : isLetter c = true ↔ c ∈ letterForms := by
  refine ⟨fun h => mem_letterForms_of_lower (lower_mem_lowerForms h), fun h => ?_⟩
  have all : letterForms.all isLetter = true := by decide
  exact List.all_eq_true.1 all c h

theorem isLetter_of_marker? {line content : Text} {letter : Char}
    (h : marker? line = some (letter, content)) : isLetter letter = true := by
  unfold marker? at h
  simp only [Option.bind_eq_bind, Option.bind_eq_some_iff] at h
  obtain ⟨_, -, inside, -, h⟩ := h
  split at h
  · cases h
  · split at h
    · rename_i accepted
      simp only [Option.pure_def, Option.bind_eq_some_iff] at h
      obtain ⟨_, -, _, -, e⟩ := h
      cases e
      exact accepted
    · cases h

/-- Of the accepted letters only two forms of the letter i name no part. -/
theorem ofLetter?_eq_none_iff {letter : Char} (h : isLetter letter = true) :
    Part.ofLetter? (lowerText [letter]) = none ↔ letter = 'İ' ∨ letter = 'ı' := by
  have all : letterForms.all (fun letter => (Part.ofLetter? (lowerText [letter])).isNone ==
      (letter == 'İ' || letter == 'ı')) = true := by decide
  have here := List.all_eq_true.1 all letter ((isLetter_iff letter).1 h)
  rw [← Option.isNone_iff_eq_none, beq_iff_eq.1 here, Bool.or_eq_true, beq_iff_eq, beq_iff_eq]

/-- A line cannot be read exactly when its marker is one of these two letters. -/
theorem read_error_iff (line : Text) (cause : MarkerError) : read line = .error cause ↔
    ∃ letter content, marker? line = some (letter, content) ∧ (letter = 'İ' ∨ letter = 'ı') ∧
      cause = .unknown (lowerText [letter]) := by
  unfold read
  cases marked : marker? line with
  | none => simp
  | some found =>
      obtain ⟨letter, content⟩ := found
      have named := ofLetter?_eq_none_iff (isLetter_of_marker? marked)
      cases part : Part.ofLetter? (lowerText [letter]) with
      | none => simp [← named, part, eq_comm]
      | some part' => simp [← named, part]

end Line

namespace Lesson

open Unicode

theorem compile_text (t : Text) : compile (.text t) =
    match (Text.newlineLines t).mapM Line.read with
    | .ok lines => .ok (ofSource (LessonSource.ofLines lines))
    | .error cause => .error (.marker cause) := by
  rw [compile, Document.source, LessonSource.ofText]
  cases (Text.newlineLines t).mapM Line.read <;> rfl

/-- A lesson is compiled exactly when no marker is the dotted capital or the dotless small letter i, and
    nothing but such a marker is ever wrong with a text. -/
theorem compile_ok_iff (t : Text) :
    ((∃ answer, compile (.text t) = .ok answer) ↔ ∀ line ∈ Text.newlineLines t, ∀ letter content,
      Line.marker? line = some (letter, content) → letter ≠ 'İ' ∧ letter ≠ 'ı') ∧
    ∀ cause, compile (.text t) = .error cause → ∃ letter, (letter = 'İ' ∨ letter = 'ı') ∧
      cause = .marker (.unknown (lowerText [letter])) := by
  rw [compile_text]
  rcases mapM_ok_or_error Line.read (Text.newlineLines t) with
    ⟨lines, read, all⟩ | ⟨cause, read, line, hl, wrong⟩
  · have clean : ∀ line ∈ Text.newlineLines t, ∀ letter content,
        Line.marker? line = some (letter, content) → letter ≠ 'İ' ∧ letter ≠ 'ı' := by
      intro line hl letter content marked
      obtain ⟨line', here⟩ := all line hl
      refine not_or.1 fun bad => ?_
      have wrong := (Line.read_error_iff line _).2 ⟨letter, content, marked, bad, rfl⟩
      rw [wrong] at here
      cases here
    rw [read]
    exact ⟨⟨fun _ => clean, fun _ => ⟨_, rfl⟩⟩, by simp⟩
  · obtain ⟨letter, content, marked, bad, rfl⟩ := (Line.read_error_iff line cause).1 wrong
    rw [read]
    constructor
    · constructor
      · rintro ⟨_, h⟩
        cases h
      · intro clean
        exact absurd bad (not_or.2 (clean line hl letter content marked))
    · intro cause h
      cases h
      exact ⟨letter, bad, rfl⟩

/-- A marker with the dotless small letter i names no part. -/
theorem compile_dotless : ¬ ∃ answer, compile (.text "(ı)") = .ok answer := by
  intro ⟨answer, h⟩
  have fails : compile (.text "(ı)") = .error (.marker (.unknown "ı")) := rfl
  rw [fails] at h
  cases h

end Lesson

end LessonText
