import LessonText.Proofs.Item.Tags
import LessonText.Proofs.Text.Hidden

/-! # What an emoji is shown as

A name whose upper case is one code point after another is shown as their entities, digit for digit. Any other name stands in
the table, or else it is shown as a question mark that hides the name.
-/

namespace LessonText.Emoji

open Item Unicode

/-- A code point by its digits. -/
structure CodePoint where
  digits : Text
  full : digits ≠ []
  few : digits.length ≤ 6
  hexadecimal : ∀ c ∈ digits, isHexDigit c = true

namespace CodePoint

/-- How the code point is asked for, in upper case. -/
def source (p : CodePoint) : Text := "U+" ++ p.digits

def entity (p : CodePoint) : Text := "&#x" ++ p.digits ++ ";"

/-- The code point whose digits are held, the last first. -/
def ofHeld (digits : Text) (full : digits ≠ []) (few : digits.length ≤ 6) (hexadecimal : ∀ c ∈ digits, isHexDigit c = true) :
    CodePoint :=
  ⟨digits.reverse, by simpa using full, by simpa using few, by simpa using hexadecimal⟩

end CodePoint

/-- What a name of the table stands for: its own entities, or those of the name that it is an alias of. -/
inductive Names (name : Text) : Text → Prop where
  | entities {t : Text} : (name, .entities t) ∈ table → Names name t
  | other {other t : Text} : (name, .alias other) ∈ table → (other, .entities t) ∈ table → Names name t

theorem Names.listed {name t : Text} (h : Names name t) : ∃ entry, (name, entry) ∈ table := by
  cases h with
  | entities listed => exact ⟨_, listed⟩
  | other listed _ => exact ⟨_, listed⟩

/-! ## Code points -/

section CodePoints

variable {digits more t u : Text}

theorem codePoints?_digit {c : Char} (digit : isHexDigit c = true) (few : digits.length < 6) (t : Text) :
    codePoints? digits (c :: t) = codePoints? (c :: digits) t := by
  have inside : (isHexDigit c && decide (digits.length < 6)) = true := by rw [digit, decide_eq_true few]; rfl
  rw [codePoints?, if_pos inside]
  rintro rest rfl -
  exact absurd digit (by decide)

theorem codePoints?_digits (hexadecimal : ∀ c ∈ more, isHexDigit c = true) (few : digits.length + more.length ≤ 6)
    (t : Text) : codePoints? digits (more ++ t) = codePoints? (more.reverse ++ digits) t := by
  induction more generalizing digits with
  | nil => rfl
  | cons c more ih =>
      obtain ⟨digit, hexadecimal⟩ := List.forall_mem_cons.1 hexadecimal
      rw [List.length_cons] at few
      rw [List.cons_append, codePoints?_digit digit (by omega), ih hexadecimal (by rw [List.length_cons]; omega),
        List.reverse_cons, List.append_assoc, List.singleton_append]

variable (p q : CodePoint)

/-- The digits of a code point are held until it ends. -/
theorem codePoints?_begun (t : Text) : codePoints? [] (p.digits ++ t) = codePoints? p.digits.reverse t := by
  have few : ([] : Text).length + p.digits.length ≤ 6 := by simpa using p.few
  rw [codePoints?_digits p.hexadecimal few, List.append_nil]

theorem isEmpty_held : ¬ p.digits.reverse.isEmpty = true := by simpa using p.full

theorem codePoints?_ended : codePoints? p.digits.reverse [] = some (p.digits ++ ";") := by
  rw [codePoints?, if_neg (isEmpty_held p), List.reverse_reverse]

/-- A code point that begins ends the one in progress. -/
theorem codePoints?_source (t : Text) :
    codePoints? p.digits.reverse (q.source ++ t) = (codePoints? q.digits.reverse t).map (p.digits ++ ";&#x" ++ ·) := by
  rw [← codePoints?_begun q]
  refine (if_neg (isEmpty_held p)).trans ?_
  rw [List.reverse_reverse]
  rfl

/-- Code points are written as entities behind the one in progress. -/
theorem codePoints?_points (points : List CodePoint) :
    codePoints? p.digits.reverse (points.flatMap CodePoint.source) = some (p.digits ++ ";" ++ points.flatMap CodePoint.entity) := by
  induction points generalizing p with
  | nil => rw [List.flatMap_nil, List.flatMap_nil, List.append_nil, codePoints?_ended]
  | cons q points ih =>
      have separator : (";&#x" : Text) = ";" ++ "&#x" := rfl
      rw [List.flatMap_cons, codePoints?_source, ih, Option.map_some, List.flatMap_cons, CodePoint.entity, separator]
      simp only [List.append_assoc]

/-- A text that is read is, behind the digits held, the end of the code point that they begin and further code points. -/
theorem exists_points (few : digits.length ≤ 6) (hexadecimal : ∀ c ∈ digits, isHexDigit c = true)
    (h : codePoints? digits t = some u) :
    ∃ (p : CodePoint) (points : List CodePoint), digits.reverse ++ t = p.digits ++ points.flatMap CodePoint.source := by
  fun_induction codePoints? digits t generalizing u with
  | case1 | case3 | case6 => cases h
  | case2 digits full => exact ⟨.ofHeld digits (by simpa using full) few hexadecimal, [], rfl⟩
  | case4 digits rest full ih =>
      obtain ⟨u, later, -⟩ := Option.map_eq_some_iff.1 h
      obtain ⟨p, points, same⟩ := ih (by decide) (by simp) later
      refine ⟨.ofHeld digits (by simpa using full) few hexadecimal, p :: points, ?_⟩
      rw [List.flatMap_cons, CodePoint.source, List.append_assoc, ← same]
      rfl
  | case5 digits c rest _ digit ih =>
      obtain ⟨digit, room⟩ := Bool.and_eq_true_iff.1 digit
      obtain ⟨p, points, same⟩ := ih (of_decide_eq_true room) (List.forall_mem_cons.2 ⟨digit, hexadecimal⟩) h
      exact ⟨p, points, by simpa using same⟩

/-! ## Look-up -/

theorem lookup?_points {points : List CodePoint} (full : points ≠ []) :
    lookup? (points.flatMap CodePoint.source) = some (points.flatMap CodePoint.entity) := by
  obtain ⟨p, points, rfl⟩ := List.exists_cons_of_ne_nil full
  have whole : lookup? ((p :: points).flatMap CodePoint.source) =
    (codePoints? [] (p.digits ++ points.flatMap CodePoint.source)).map (("&#x" : Text) ++ ·) := rfl
  rw [whole, codePoints?_begun, codePoints?_points, Option.map_some, List.flatMap_cons, CodePoint.entity]
  simp only [List.append_assoc]

theorem names_of_named? {name : Text} (h : named? name = some t) : Names name t := by
  unfold named? at h
  split at h
  · rename_i found
    obtain rfl := Option.some.inj h
    exact .entities (mem_of_lookup found)
  · rename_i other found
    split at h
    · rename_i meant
      obtain rfl := Option.some.inj h
      exact .other (mem_of_lookup found) (mem_of_lookup meant)
    · cases h
  · cases h

/-- What is found was asked for by code points or by a name of the table. -/
theorem of_lookup? {definition : Text} (h : lookup? definition = some t) :
    (∃ points : List CodePoint, points ≠ [] ∧ definition = points.flatMap CodePoint.source) ∨ Names definition t := by
  unfold lookup? at h
  split at h
  · obtain ⟨u, read, -⟩ := Option.map_eq_some_iff.1 h
    obtain ⟨p, points, same⟩ := exists_points (by decide) (by simp) read
    refine .inl ⟨p :: points, List.cons_ne_nil _ _, ?_⟩
    rw [List.flatMap_cons, CodePoint.source, List.append_assoc, ← same]
    rfl
  · exact .inr (names_of_named? h)

/-- Every name of the table is found. -/
theorem not_mem_of_lookup? {definition : Text} (h : lookup? definition = none) : ∀ entry ∈ table, entry.1 ≠ definition := by
  have all : table.all (fun entry => (lookup? entry.1).isSome) = true := by decide
  rintro entry listed rfl
  have found := List.all_eq_true.1 all entry listed
  rw [h] at found
  cases found

end CodePoints

/-! ## What is shown -/

theorem render_of_ne_nil {name : Text} (asked : name ≠ []) :
    render name = pure ((lookup? (upperText name)).getD (unknown name)) := by
  have nonempty : ¬ name.isEmpty = true := by simpa using asked
  rw [render_eq, shown, if_neg nonempty, if_neg nonempty]
  rfl

/-- The name stands in the hidden value alone. -/
theorem unknown_eq (name : Text) :
    unknown name = "<span data-error=\"" ++ Attribute.encode ("Cannot find emoji " ++ name) ++ "\">&#x2754;</span>" := by
  have lead : ("<span data-error=\"" : Text) = "<span " ++ "data-error=\"" := rfl
  have tail : ("\">&#x2754;</span>" : Text) = "\"" ++ ">&#x2754;</span>" := rfl
  unfold unknown Attribute.hiddenError
  simp only [List.append_assoc, lead, tail]

/-- A name whose upper case is code points is shown as their entities. Any other is shown as the entities that a name of the
    table stands for, never as an alias, or as a question mark; the name as it is written is then hidden in a value that can
    be read back, and stands nowhere else. -/
theorem render_shows {name : Text} (asked : name ≠ []) :
    (∀ points : List CodePoint, points ≠ [] → upperText name = points.flatMap CodePoint.source →
      render name = pure (points.flatMap CodePoint.entity)) ∧
    ((¬ ∃ points : List CodePoint, points ≠ [] ∧ upperText name = points.flatMap CodePoint.source) →
      (∃ t, Names (upperText name) t ∧ '@' ∉ t ∧ render name = pure t) ∨
      (∀ entry ∈ table, entry.1 ≠ upperText name) ∧
        ∃ code : Text, render name = pure ("<span data-error=\"" ++ code ++ "\">&#x2754;</span>") ∧ IsHidden code ∧
          Attribute.decode code = .ok ("Cannot find emoji " ++ name)) := by
  rw [render_of_ne_nil asked]
  constructor
  · intro points full same
    rw [same, lookup?_points full, Option.getD_some]
  · intro other
    cases found : lookup? (upperText name) with
    | some t =>
        have unaliased : '@' ∉ t := fun mem => absurd (List.all_eq_true.1 (all_lookup? found) '@' mem) (by decide)
        exact .inl ⟨t, (of_lookup? found).resolve_left other, unaliased, rfl⟩
    | none =>
        let message : Text := "Cannot find emoji " ++ name
        have shown : unknown name = "<span data-error=\"" ++ Attribute.encode message ++ "\">&#x2754;</span>" := unknown_eq name
        exact .inr ⟨not_mem_of_lookup? found, _, congrArg pure shown, isHidden_encode _, Attribute.decode_encode _⟩

/-- A ligature is two digits in upper case; a code point of seven digits is none. -/
theorem render_shows_sequence :
    (("u+ﬀ1U+0" : Text) ≠ [] ∧ render "u+ﬀ1U+0" = pure "&#xFF1;&#x0;") ∧
    (("u+1234567" : Text) ≠ [] ∧
      ∃ code : Text, render "u+1234567" = pure ("<span data-error=\"" ++ code ++ "\">&#x2754;</span>") ∧
        Attribute.decode code = .ok "Cannot find emoji u+1234567") := by
  have long : ("u+1234567" : Text) ≠ [] := by decide
  have missed : lookup? (upperText "u+1234567") = none := by decide
  refine ⟨⟨by decide, ?_⟩, long, ?_⟩
  · let first : CodePoint := ⟨"FF1", by decide, by decide, by decide⟩
    let second : CodePoint := ⟨"0", by decide, by decide, by decide⟩
    exact (render_shows (by decide)).1 [first, second] (by simp) rfl
  · have other : ¬ ∃ points : List CodePoint, points ≠ [] ∧ upperText "u+1234567" = points.flatMap CodePoint.source := by
      rintro ⟨points, full, same⟩
      cases missed.symm.trans (same ▸ lookup?_points full)
    rcases (render_shows long).2 other with ⟨t, named, -⟩ | ⟨-, code, shown, -, read⟩
    · obtain ⟨entry, listed⟩ := named.listed
      exact absurd rfl (not_mem_of_lookup? missed _ listed)
    · exact ⟨code, shown, read⟩

end LessonText.Emoji
