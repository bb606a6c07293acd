import Mathlib.Data.Nat.Digits.Defs
import LessonText.Proofs.Pattern.Scan
import LessonText.Proofs.Text.Tags
import LessonText.Proofs.Warden.Key
import LessonText.Text.Entity

/-! # Reading numeric entities

An entity is read as the character that was written, and a character that is no ampersand as itself. So a text of which some
characters are written as entities is read again, whichever they are. No entity straddles the place where another one begins, so it is
read again between any two texts.
-/

namespace LessonText.Entity

variable {p : Char → Bool} {b : Option Char} {c : Char} {t u : Text}

/-- A text with some of its characters written as entities. -/
def encodeWhere (p : Char → Bool) (t : Text) : Text := t.flatMap fun c => if p c then encodeChar c else [c]

theorem encodeWhere_cons_pos (h : p c = true) (t : Text) : encodeWhere p (c :: t) = encodeChar c ++ encodeWhere p t := by
  rw [encodeWhere, List.flatMap_cons, if_pos h]
  rfl

theorem encodeWhere_cons_neg (h : p c = false) (t : Text) : encodeWhere p (c :: t) = c :: encodeWhere p t := by
  rw [encodeWhere, List.flatMap_cons, if_neg (Bool.not_eq_true _ ▸ h)]
  rfl

theorem isDigit_of_mem_decimal {n : ℕ} (h : c ∈ Text.decimal n) : c.isDigit = true :=
  Nat.isDigit_of_mem_toDigits (by decide) (by decide) h

theorem mem_encodeWhere (h : c ∈ encodeWhere p t) : c ∈ t ∨ c ∈ ("&#;" : Text) ∨ c.isDigit = true := by
  obtain ⟨d, hd, inside⟩ := List.mem_flatMap.1 h
  split at inside
  · simp only [encodeChar, List.mem_append, or_assoc] at inside
    rcases inside with inside | inside | inside
    · have signs : ∀ c ∈ ("&#" : Text), c ∈ ("&#;" : Text) := by decide
      exact .inr (.inl (signs c inside))
    · exact .inr (.inr (isDigit_of_mem_decimal inside))
    · rw [List.mem_singleton.1 inside]
      exact .inr (.inl (by decide))
  · exact .inl (List.mem_singleton.1 inside ▸ hd)

theorem numberOf_decimal (n : ℕ) : numberOf (Text.decimal n) = n := by simp [numberOf, Text.decimal]

/-- No character has a number of more digits than an entity may have. -/
theorem decimal_length (c : Char) : (Text.decimal c.toNat).length ≤ 7 := by
  have bound : c.toNat < 0x110000 := by
    rcases c.valid with low | ⟨-, high⟩
    · exact Nat.lt_trans low (by decide)
    · exact high
  exact Nat.toDigits_length 10 c.toNat 7 (by decide) (Nat.lt_trans bound (by decide))

/-- The entity of a character is found at its start, whatever follows. -/
theorem find_encodeChar (c : Char) (b : Option Char) (t : Text) :
    find b (encodeChar c ++ t) = some (c.toNat, (encodeChar c).length) := by
  have digits : ∀ d ∈ Text.decimal c.toNat, d.isDigit = true := fun _ => isDigit_of_mem_decimal
  have split : encodeChar c ++ t = '&' :: '#' :: (Text.decimal c.toNat ++ ';' :: t) := by simp [encodeChar]
  have full : 1 ≤ (Text.decimal c.toNat).length := List.length_pos_iff.2 (Warden.decimal_ne_nil _)
  have number : (Text.decimal c.toNat ++ ';' :: t).takeWhile Char.isDigit = Text.decimal c.toNat :=
    Warden.takeWhile_stop t digits rfl
  have behind : (Text.decimal c.toNat ++ ';' :: t).dropWhile Char.isDigit = ';' :: t := Warden.dropWhile_stop t digits rfl
  rw [split, find]
  simp [number, behind, full, decimal_length, numberOf_decimal, encodeChar]

theorem find_eq_none (other : c ≠ '&') (b : Option Char) (t : Text) : find b (c :: t) = none := by
  unfold find
  split
  · rename_i same
    exact absurd (List.cons.inj same).1 other
  · rfl

theorem decodeNumber_toNat (c : Char) : decodeNumber c.toNat = .ok [c] := by
  have bound : c.toNat ≤ 0x10FFFF := by
    rcases c.valid with low | ⟨-, high⟩
    · exact Nat.le_trans (Nat.le_of_lt low) (by decide)
    · exact Nat.le_of_lt_succ high
  rw [decodeNumber, if_pos bound, Char.ofNat_toNat]

/-- What is read of the rest of a text, behind the character `b`. -/
def decodeFrom (b : Option Char) (t : Text) : Except Error Text := Piece.assembleM decodeNumber (t.cutFrom find find 0 b)

theorem decodeFrom_encodeChar (c : Char) (b : Option Char) (t : Text) :
    decodeFrom b (encodeChar c ++ t) = (c :: ·) <$> decodeFrom ((encodeChar c).getLast?.or b) t := by
  have full : encodeChar c ≠ [] := List.cons_ne_nil _ _
  rw [decodeFrom, Text.cutFrom_found full (find_encodeChar c b t), Piece.assembleM, decodeNumber_toNat]
  rfl

theorem decodeFrom_cons (other : c ≠ '&') (b : Option Char) (t : Text) :
    decodeFrom b (c :: t) = (c :: ·) <$> decodeFrom (some c) t := by
  rw [decodeFrom, Text.cutFrom_plain (find_eq_none other b t), Piece.assembleM]
  rfl

/-- A text of which at least the ampersands are written as entities is read again. -/
theorem decode_encodeWhere (ampersands : p '&' = true ∨ '&' ∉ t) : decode (encodeWhere p t) = .ok t := by
  have all : ∀ b, decodeFrom b (encodeWhere p t) = .ok t := by
    induction t with
    | nil => exact fun b => rfl
    | cons c t ih =>
        intro b
        have later := ih (ampersands.imp_right fun none => fun mem => none (List.mem_cons_of_mem c mem))
        cases h : p c with
        | true =>
            rw [encodeWhere_cons_pos h, decodeFrom_encodeChar, later]
            rfl
        | false =>
            have other : c ≠ '&' := by
              rintro rfl
              rcases ampersands with sign | none
              · rw [sign] at h
                cases h
              · exact none List.mem_cons_self
            rw [encodeWhere_cons_neg h, decodeFrom_cons other, later]
            rfl
  exact all none

/-! ## Entities between two texts -/

theorem find_advances : find.Advances := by
  intro b t number n found
  unfold find at found
  split at found
  · rename_i rest
    dsimp only at found
    split at found
    · rename_i ends
      obtain ⟨-, rfl⟩ := Prod.mk.inj (Option.some.inj found)
      simp only [Bool.and_eq_true, beq_iff_eq] at ends
      have behind : rest.dropWhile Char.isDigit ≠ [] := by
        intro none
        rw [none] at ends
        cases ends.2
      have whole := congrArg List.length (List.takeWhile_append_dropWhile (p := Char.isDigit) (l := rest))
      have more := List.length_pos_iff.2 behind
      rw [List.length_append] at whole
      simp only [List.length_cons]
      omega
    · cases found
  · cases found

/-- The ampersand that begins an entity neither ends an entity before it nor becomes a part of it. -/
theorem find_append {w : Text} (full : w ≠ []) (t : Text) (b b' : Option Char) : find b (w ++ '&' :: t) = find b' w := by
  obtain ⟨c, w, rfl⟩ := List.exists_cons_of_ne_nil full
  by_cases sign : c = '&'
  · subst sign
    match w with
    | [] => rfl
    | d :: w =>
        by_cases second : d = '#'
        · subst second
          have digits : (w ++ '&' :: t).takeWhile Char.isDigit = w.takeWhile Char.isDigit := Text.takeWhile_stops rfl w t
          have behind : (((w ++ '&' :: t).dropWhile Char.isDigit).head? == some ';') =
              ((w.dropWhile Char.isDigit).head? == some ';') := by
            rw [Text.dropWhile_stops rfl]
            cases w.dropWhile Char.isDigit <;> rfl
          simp only [List.cons_append, find, digits, behind]
        · have other (b : Option Char) (t : Text) : find b ('&' :: d :: t) = none := by
            unfold find
            split
            · rename_i same
              exact absurd (List.cons.inj (List.cons.inj same).2).1 second
            · rfl
          exact (other b _).trans (other b' _).symm
  · rw [List.cons_append, find_eq_none sign, find_eq_none sign]

theorem find_before (b b' : Option Char) (t : Text) : find b t = find b' t := by
  unfold find
  split <;> rfl

/-- What a text is read as does not depend on the character before it. -/
theorem decodeFrom_before (b : Option Char) (t : Text) : decodeFrom b t = decode t :=
  congrArg (Piece.assembleM decodeNumber) (Text.cutFrom_before find_advances find_before b none t)

/-- A text before an entity is read as it is alone. -/
theorem decode_append (u t : Text) : decode (u ++ '&' :: t) = do return (← decode u) ++ (← decode ('&' :: t)) := by
  rw [← decodeFrom_before (u.getLast?.or none) ('&' :: t), decode, Text.cut,
    Text.cutFrom_append find_advances (fun w full _ => find_append full t) none none, Piece.assembleM_append]
  rfl

theorem decode_encode_append (s t : Text) : decode (encode s ++ t) = (s ++ ·) <$> decode t := by
  induction s with
  | nil => exact (id_map _).symm
  | cons c s ih =>
      rw [encode, List.flatMap_cons, List.append_assoc, ← decodeFrom_before none, decodeFrom_encodeChar, decodeFrom_before,
        ← encode, ih]
      simp

/-- Between two texts, what is written as entities is read as it was, and the texts are read as they are alone. -/
theorem decode_between {s : Text} (full : s ≠ []) (u v : Text) : decode (u ++ encode s ++ v) = do
    return (← decode u) ++ (s ++ (← decode v)) := by
  obtain ⟨c, s, rfl⟩ := List.exists_cons_of_ne_nil full
  have sign : encode (c :: s) ++ v = '&' :: ('#' :: (Text.decimal c.toNat ++ ";") ++ (encode s ++ v)) := by
    simp [encode, encodeChar]
  rw [List.append_assoc, sign, decode_append, ← sign, decode_encode_append]
  simp

/-- Entities are read back in every context: between two texts that can be read, and in front of a text that cannot, whose
    error stays. -/
theorem decode_encode_between {s : Text} (full : s ≠ []) :
    (∀ u v a z, decode u = .ok a → decode v = .ok z → decode (u ++ encode s ++ v) = .ok (a ++ s ++ z)) ∧
    ∀ v cause, decode v = .error cause → decode (encode s ++ v) = .error cause := by
  constructor
  · intro u v a z before behind
    rw [decode_between full, before, behind]
    exact congrArg Except.ok (List.append_assoc a s z).symm
  · intro v cause wrong
    rw [decode_encode_append, wrong]
    rfl

/-- The text before a character beyond the basic plane begins an entity, and the text behind it ends one. Behind it there may
    also be the entity of no character. -/
theorem decode_encode_between_parts :
    let s : Text := "😀"
    s ≠ [] ∧ decode ("&#65;&#12" ++ encode s ++ "34;") = .ok ("A&#12" ++ s ++ "34;") ∧
      decode (encode s ++ "&#1114112;") = .error (.outOfRange 1114112) := by
  intro s
  have full : s ≠ [] := List.cons_ne_nil _ _
  exact ⟨full, (decode_encode_between full).1 "&#65;&#12" "34;" "A&#12" "34;" rfl rfl,
    (decode_encode_between full).2 "&#1114112;" (.outOfRange 1114112) rfl⟩

end LessonText.Entity
