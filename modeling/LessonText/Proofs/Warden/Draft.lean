import Mathlib.Data.List.TakeWhile
import LessonText.Markup.Rendering
import LessonText.Proofs.Hazard
import LessonText.Proofs.Pattern.Scan
import LessonText.Proofs.Warden.Key

/-! # Drafts

The working text of a rendering call is a draft: characters, and wards of which the text shows the
keys. `Holds ws s` says that a session has exactly the wards `ws` in custody and has missed none. A step
of rendering is described by what it does to the draft; the wards elsewhere in the text stay.
-/

namespace LessonText

open Unicode

/-- Data in custody, and the number of its key. -/
structure Ward where
  number : Nat
  data : Text
  held : data ≠ []

def Ward.key (w : Ward) : Text := Warden.keyFor w.number w.data

inductive Token where
  | char (c : Char)
  | ward (w : Ward)

/-- The text that a token shows. -/
def Token.text : Token → Text
  | char c => [c]
  | ward w => w.key

/-- The text that a token stands for. -/
def Token.meaning : Token → Text
  | char c => [c]
  | ward w => w.data

def Token.letter? : Token → Option Char
  | char c => some c
  | ward _ => none

def Token.ward? : Token → Option Ward
  | char _ => none
  | ward w => some w

abbrev Draft := List Token

namespace Draft

def text (d : Draft) : Text := d.flatMap Token.text

def meaning (d : Draft) : Text := d.flatMap Token.meaning

/-- The characters, and a gap for each ward. -/
def shape (d : Draft) : List (Option Char) := d.map Token.letter?

def wards (d : Draft) : List Ward := d.filterMap Token.ward?

def chars (t : Text) : Draft := t.map .char

variable (d e : Draft) (t u : Text)

@[simp] theorem text_nil : text [] = [] := rfl
@[simp] theorem meaning_nil : meaning [] = [] := rfl
@[simp] theorem shape_nil : shape [] = [] := rfl
@[simp] theorem wards_nil : wards [] = [] := rfl

@[simp] theorem text_append : text (d ++ e) = text d ++ text e := List.flatMap_append
@[simp] theorem meaning_append : meaning (d ++ e) = meaning d ++ meaning e := List.flatMap_append
@[simp] theorem shape_append : shape (d ++ e) = shape d ++ shape e := List.map_append
@[simp] theorem wards_append : wards (d ++ e) = wards d ++ wards e := List.filterMap_append

@[simp] theorem text_cons (x : Token) : text (x :: d) = x.text ++ text d := rfl
@[simp] theorem meaning_cons (x : Token) : meaning (x :: d) = x.meaning ++ meaning d := rfl
@[simp] theorem shape_cons (x : Token) : shape (x :: d) = x.letter? :: shape d := rfl

@[simp] theorem wards_char (c : Char) : wards (.char c :: d) = wards d := rfl
@[simp] theorem wards_ward (w : Ward) : wards (.ward w :: d) = w :: wards d := rfl

@[simp] theorem text_chars : text (chars t) = t := by
  induction t with
  | nil => rfl
  | cons c t ih => exact congrArg (c :: ·) ih

@[simp] theorem meaning_chars : meaning (chars t) = t := by
  induction t with
  | nil => rfl
  | cons c t ih => exact congrArg (c :: ·) ih

@[simp] theorem shape_chars : shape (chars t) = t.map some := by
  simp [shape, chars, Token.letter?]

@[simp] theorem wards_chars : wards (chars t) = [] := by
  induction t with
  | nil => rfl
  | cons c t ih => exact ih

theorem chars_append : chars (t ++ u) = chars t ++ chars u := List.map_append

variable {d e t u}

/-- A draft without wards is its text. -/
theorem eq_chars (h : wards d = []) : d = chars (text d) := by
  induction d with
  | nil => rfl
  | cons x d ih =>
      cases x with
      | char c => exact congrArg (Token.char c :: ·) (ih h)
      | ward w => cases h

/-! ## Cutting a draft -/

/-- A place that lies in no key: the character before it or the one after it is in no key. -/
def Sharp (before : Option Char) (after : Text) : Prop :=
  (∀ c ∈ before, Warden.isKeyChar c = false) ∨ ∀ c ∈ after.head?, Warden.isKeyChar c = false

theorem not_sharp_in_key {w : Ward} {t u r : Text} (h : w.key = t ++ u) (ht : t ≠ []) (hu : u ≠ []) :
    ¬ Sharp t.getLast? (u ++ r) := by
  have inKey := Warden.isKeyChar_of_mem w.held (n := w.number)
  rw [show Warden.keyFor w.number w.data = t ++ u from h] at inKey
  obtain ⟨c, u, rfl⟩ := List.exists_cons_of_ne_nil hu
  rintro (before | after)
  · have last := List.getLast?_eq_some_getLast ht
    have key := inKey _ (List.mem_append_left _ (List.getLast_mem ht))
    rw [before _ last] at key
    cases key
  · have key := inKey c (by simp)
    rw [after c rfl] at key
    cases key

theorem split_of_sharp (h : text d = t ++ u) (sharp : Sharp t.getLast? u) :
    ∃ d₁ d₂, d = d₁ ++ d₂ ∧ text d₁ = t ∧ text d₂ = u := by
  induction d generalizing t with
  | nil =>
      obtain ⟨rfl, rfl⟩ := List.append_eq_nil_iff.1 h.symm
      exact ⟨[], [], rfl, rfl, rfl⟩
  | cons x d ih =>
      by_cases ht : t = []
      · subst ht
        exact ⟨[], x :: d, rfl, rfl, h⟩
      have here (e : x.text = t) (behind : text d = u) :
          ∃ d₁ d₂, x :: d = d₁ ++ d₂ ∧ text d₁ = t ∧ text d₂ = u :=
        ⟨[x], d, rfl, (List.append_nil _).trans e, behind⟩
      rcases List.append_eq_append_iff.1 h with ⟨t', rfl, behind⟩ | ⟨u', e, rfl⟩
      · by_cases ht' : t' = []
        · subst ht'
          exact here (List.append_nil _).symm behind
        rw [List.getLast?_append_of_ne_nil _ ht'] at sharp
        obtain ⟨d₁, d₂, rfl, rfl, h₂⟩ := ih behind sharp
        exact ⟨x :: d₁, d₂, rfl, rfl, h₂⟩
      · by_cases hu' : u' = []
        · subst hu'
          exact here (e.trans (List.append_nil _)) rfl
        cases x with
        | char c =>
            have length := congrArg List.length e
            have := List.length_pos_iff.2 ht
            have := List.length_pos_iff.2 hu'
            rw [List.length_append] at length
            simp [Token.text] at length
            omega
        | ward w => exact absurd sharp (not_sharp_in_key e ht hu')

theorem key_cons (w : Ward) : ∃ t, w.key = '?' :: t := Warden.keyFor_cons w.number w.data

theorem key_getLast? (w : Ward) : w.key.getLast? = some '?' := by
  unfold Ward.key Warden.keyFor
  rw [List.getLast?_append_of_ne_nil _ (by simp [Warden.delimiter])]
  rfl

theorem isKeyChar_of_mem_key {w : Ward} {c : Char} (h : c ∈ w.key) : Warden.isKeyChar c = true :=
  Warden.isKeyChar_of_mem w.held c h

/-- A text without a question mark in front of a draft is no part of a key. -/
theorem split_left (h : text d = t ++ u) (ht : '?' ∉ t) : ∃ e, d = chars t ++ e ∧ text e = u := by
  induction t generalizing d with
  | nil => exact ⟨d, rfl, h⟩
  | cons c t ih =>
      rw [List.mem_cons, not_or] at ht
      cases d with
      | nil => cases h
      | cons x d =>
          cases x with
          | char b =>
              obtain ⟨rfl, behind⟩ := List.cons.inj h
              obtain ⟨e, rfl, he⟩ := ih behind ht.2
              exact ⟨e, rfl, he⟩
          | ward w =>
              obtain ⟨k, key⟩ := key_cons w
              rw [text_cons, Token.text, key] at h
              exact absurd (List.cons.inj h).1 ht.1

theorem eq_chars_of_text (h : '?' ∉ text d) : d = chars (text d) := by
  obtain ⟨e, split, empty⟩ := split_left (List.append_nil _).symm h
  cases e with
  | nil => rw [List.append_nil] at split; exact split
  | cons x e =>
      cases x with
      | char c => cases empty
      | ward w =>
          obtain ⟨k, key⟩ := key_cons w
          rw [text_cons, Token.text, key] at empty
          cases empty

/-- A text without a question mark at the end of a draft is no part of a key. -/
theorem split_right (h : text d = u ++ t) (ht : '?' ∉ t) : ∃ e, d = e ++ chars t ∧ text e = u := by
  induction d generalizing u with
  | nil =>
      obtain ⟨rfl, rfl⟩ := List.append_eq_nil_iff.1 h.symm
      exact ⟨[], rfl, rfl⟩
  | cons x d ih =>
      rcases List.append_eq_append_iff.1 h with ⟨u', rfl, behind⟩ | ⟨t', split, rfl⟩
      · obtain ⟨e, rfl, he⟩ := ih behind
        exact ⟨x :: e, rfl, by rw [text_cons, he]⟩
      · rw [List.mem_append, not_or] at ht
        by_cases empty : t' = []
        · subst empty
          rw [List.append_nil] at split
          exact ⟨[x], congrArg (x :: ·) (eq_chars_of_text ht.2), by simp [← split]⟩
        cases x with
        | char c =>
            obtain ⟨rfl, rfl⟩ : u = [] ∧ t' = [c] := by
              rw [Token.text, List.singleton_eq_append_iff] at split
              simpa [empty] using split
            exact ⟨[], congrArg (Token.char c :: ·) (eq_chars_of_text ht.2), rfl⟩
        | ward w =>
            -- The key of the ward ends in the text.
            have last := key_getLast? w
            rw [show w.key = u ++ t' from split, List.getLast?_append_of_ne_nil _ empty] at last
            exact absurd (List.mem_of_getLast? last) ht.1

/-- A character that is in no key stands in a draft by itself. -/
theorem split_at {c : Char} (h : text d = t ++ c :: u) (hc : Warden.isKeyChar c = false) :
    ∃ e f, d = e ++ .char c :: f ∧ text e = t ∧ text f = u := by
  obtain ⟨e, f, rfl, he, hf⟩ := split_of_sharp h (.inr (by simpa using hc))
  have noMark : '?' ∉ [c] := by
    rw [List.mem_singleton]
    rintro rfl
    cases hc
  obtain ⟨f', rfl, hf'⟩ := split_left (t := [c]) hf noMark
  exact ⟨e, f', rfl, he, hf'⟩

theorem exists_ward (h : wards d ≠ []) : ∃ t w e, d = chars t ++ .ward w :: e := by
  induction d with
  | nil => exact absurd rfl h
  | cons x d ih =>
      cases x with
      | char c =>
          obtain ⟨t, w, e, rfl⟩ := ih h
          exact ⟨c :: t, w, e, rfl⟩
      | ward w => exact ⟨[], w, d, rfl⟩

/-! ## White space around a draft -/

theorem exists_trimEnd (t : Text) : ∃ z, t = t.trimEnd ++ z ∧ ∀ c ∈ z, isSpace c = true := by
  refine ⟨(t.reverse.takeWhile isSpace).reverse, ?_, ?_⟩
  · rw [Text.trimEnd, ← List.reverse_append, List.takeWhile_append_dropWhile, List.reverse_reverse]
  · exact fun c hc => List.mem_takeWhile_imp (List.mem_reverse.1 hc)

theorem no_mark_of_spaces (h : ∀ c ∈ t, isSpace c = true) : '?' ∉ t :=
  fun mem => absurd (h _ mem) (by decide)

theorem exists_trim (t : Text) : ∃ a z, t = a ++ t.trim ++ z ∧ (∀ c ∈ a, isSpace c = true) ∧
    ∀ c ∈ z, isSpace c = true := by
  obtain ⟨z, hz, spaces⟩ := exists_trimEnd (t.dropWhile isSpace)
  refine ⟨t.takeWhile isSpace, z, ?_, fun c hc => List.mem_takeWhile_imp hc, spaces⟩
  rw [List.append_assoc, Text.trim, Text.trimStart, ← hz, List.takeWhile_append_dropWhile]

/-! ## Finding the keys again -/

/-- Three question marks and a digit: the beginning of a key. -/
def keyHazard : Hazard (Option Char) :=
  [⟨false, (· == some '?')⟩, ⟨false, (· == some '?')⟩, ⟨false, (· == some '?')⟩,
    ⟨false, (·.any isDigit)⟩]

/-- From nothing begun, a shape without question marks begins nothing. -/
theorem opens_unmarked {shape : List (Option Char)} (unmarked : some '?' ∉ shape) : Hazard.opens keyHazard shape = true := by
  induction shape with
  | nil => rfl
  | cons x shape ih =>
      rw [List.mem_cons, not_or] at unmarked
      have other : (x == some '?') = false := beq_false_of_ne (Ne.symm unmarked.1)
      have none : keyHazard.step [] x = [] := by
        simp [Hazard.step, keyHazard, Hazard.after, other]
      have later := ih unmarked.2
      rw [Hazard.opens, Bool.and_eq_true] at later ⊢
      rw [Hazard.safe, Hazard.reach, List.foldl_cons, none]
      exact later

theorem opens_key {t : Text} (unmarked : '?' ∉ t) : Hazard.opens keyHazard (t.map some) = true :=
  opens_unmarked (by simpa using unmarked)

/-- A text without question marks that does not begin with a digit ends every word. -/
theorem ends_key {c : Char} {t : Text} (digit : isDigit c = false) (unmarked : '?' ∉ c :: t) :
    Hazard.ends keyHazard ((c :: t).map some) = true := by
  rw [List.mem_cons, not_or] at unmarked
  have other : (some c == some '?') = false := by simpa using Ne.symm unmarked.1
  have refused : ∀ p ∈ keyHazard, p.accepts (some c) = false := by
    simp [keyHazard, other, digit]
  exact Hazard.ends_of_refused refused (opens_key unmarked.2)

theorem findKey_begins {b : Option Char} {t : Text} {r : Text × Nat}
    (h : Warden.findKey b t = some r) :
    ∃ c u, t = '?' :: '?' :: '?' :: c :: u ∧ isDigit c = true := by
  unfold Warden.findKey at h
  split at h
  · rename_i rest
    dsimp only at h
    cases rest with
    | nil => simp at h
    | cons c u =>
        refine ⟨c, u, rfl, ?_⟩
        rw [← Bool.not_eq_false]
        intro stop
        simp [stop] at h
  · cases h

theorem keyFor_eq (w : Ward) : ∃ c u, w.key = '?' :: '?' :: '?' :: c :: u ∧ c.isDigit = true := by
  obtain ⟨c, u, number⟩ := List.exists_cons_of_ne_nil (Warden.decimal_ne_nil w.number)
  have digit : c.isDigit = true :=
    Nat.isDigit_of_mem_toDigits (by decide) (by decide) (number ▸ List.mem_cons_self)
  exact ⟨c, _, by rw [Ward.key, Warden.keyFor, number]; rfl, digit⟩

theorem text_cons_eq {c : Char} {r : Text} (h : text d = c :: r) :
    (∃ d', d = .char c :: d' ∧ text d' = r) ∨ c = '?' ∧ ∃ u, r = '?' :: '?' :: u := by
  cases d with
  | nil => cases h
  | cons x d =>
      cases x with
      | char b =>
          obtain ⟨rfl, behind⟩ := List.cons.inj h
          exact .inl ⟨d, rfl, behind⟩
      | ward w =>
          obtain ⟨b, u, key, -⟩ := keyFor_eq w
          rw [text_cons, Token.text, key] at h
          obtain ⟨rfl, behind⟩ := List.cons.inj h
          exact .inr ⟨rfl, _, behind.symm⟩

theorem three_marks {c : Char} {u : Text} (h : text d = '?' :: '?' :: c :: u)
    (digit : isDigit c = true) : ∃ d', d = .char '?' :: .char '?' :: .char c :: d' := by
  have noMark : c ≠ '?' := by
    rintro rfl
    exact absurd digit (by decide)
  -- A key that begins here has a question mark where the digit is.
  rcases text_cons_eq h with ⟨d, rfl, h₁⟩ | ⟨-, v, e⟩
  · rcases text_cons_eq h₁ with ⟨d, rfl, h₂⟩ | ⟨-, v, e⟩
    · rcases text_cons_eq h₂ with ⟨d, rfl, -⟩ | ⟨e, -⟩
      · exact ⟨d, rfl⟩
      · exact absurd e noMark
    · exact absurd (List.cons.inj e).1 noMark
  · exact absurd (List.cons.inj (List.cons.inj e).2).1 noMark

/-- The keys of a draft and the characters between them. -/
def keys (d : Draft) : List (Piece Text) :=
  d.map fun
    | .char c => .plain c
    | .ward w => .found w.key

/-- Three question marks are never followed by a digit. -/
def Free (d : Draft) : Prop := ∀ c, [.char '?', .char '?', .char '?', .char c] <:+: d → isDigit c = false

theorem Free.tail {x : Token} {d : Draft} (h : Free (x :: d)) : Free d :=
  fun c inside => h c (inside.trans (List.suffix_cons x d).isInfix)

/-- Where three question marks are never followed by a digit, exactly the keys are found. -/
theorem cut_of_free {d : Draft} (free : Free d) (b : Option Char) :
    Text.cutFrom Warden.findKey Warden.findKey 0 b (text d) = keys d := by
  induction d generalizing b with
  | nil => rfl
  | cons x d ih =>
      cases x with
      | char c =>
          have none : Warden.findKey b (c :: text d) = none := by
            rw [← Option.not_isSome_iff_eq_none, Option.isSome_iff_exists]
            rintro ⟨r, h⟩
            obtain ⟨c', u, e, digit⟩ := findKey_begins h
            obtain ⟨rfl, behind⟩ := List.cons.inj e
            obtain ⟨d', rfl⟩ := three_marks behind digit
            have other := free c' ⟨[], d', rfl⟩
            rw [digit] at other
            cases other
          exact Text.cutFrom_plain none ▸ congrArg (Piece.plain c :: ·) (ih free.tail (some c))
      | ward w =>
          have found := Warden.findKey_keyFor w.held w.number b (text d)
          have here : w.key ≠ [] := by simp [Ward.key, Warden.keyFor, Warden.delimiter]
          exact (Text.cutFrom_found here found).trans (congrArg (Piece.found w.key :: ·) (ih free.tail _))

theorem free_of_safe {d : Draft} {S : List Nat} (safe : keyHazard.safe S (shape d) = true) : Free d := by
  rintro c ⟨a, e, rfl⟩
  rw [← Bool.not_eq_true]
  intro digit
  have word : keyHazard.Matches [some '?', some '?', some '?', some c] :=
    .one rfl (.one rfl (.one rfl (.one digit .nil)))
  rw [shape_append, shape_append] at safe
  exact Hazard.not_matches_of_safe safe (by simp) word

/-- The keys of a draft in which no hazard of its shape is seen are found. -/
theorem cut_text {d : Draft} {S : List Nat} (safe : keyHazard.safe S (shape d) = true)
    (b : Option Char) : Text.cutFrom Warden.findKey Warden.findKey 0 b (text d) = keys d :=
  cut_of_free (free_of_safe safe) b

end Draft

end LessonText
