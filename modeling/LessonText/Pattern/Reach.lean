import LessonText.Pattern.Rewrite

/-! # What a match reaches

A match passes a stretch of the text ahead and leaves the rest as it is. So the pieces of a text put
together again are the text: finding matches neither loses nor invents a character.
-/

namespace LessonText

/-- The place `t` lies ahead of `s`: the text in between has been passed. -/
def Progress.Reaches (s t : Progress) : Prop :=
  ∃ w, s.ahead = w ++ t.ahead ∧ t.passed = s.passed + w.length ∧ t.before = w.getLast?.or s.before

namespace Progress.Reaches

theorem refl (s : Progress) : s.Reaches s := ⟨[], by simp⟩

theorem trans {s t u : Progress} (h : s.Reaches t) (k : t.Reaches u) : s.Reaches u := by
  obtain ⟨v, hv, pv, bv⟩ := h
  obtain ⟨w, hw, pw, bw⟩ := k
  refine ⟨v ++ w, by simp [hv, hw], by simp [pv, pw, Nat.add_assoc], ?_⟩
  rw [bw, bv, List.getLast?_append, Option.or_assoc]

theorem step {s : Progress} {c : Char} {rest : Text} (h : s.ahead = c :: rest) :
    s.Reaches (s.step c rest) :=
  ⟨[c], by simp [Progress.step, h], by simp [Progress.step], by simp [Progress.step]⟩

theorem close {s t : Progress} (h : s.Reaches t) (opened : Progress) (index : Nat) :
    s.Reaches (t.close opened index) := h

end Progress.Reaches

namespace Pattern

open Progress

theorem prefer_eq_some {eager : Bool} {more stop : Unit → Option Progress} {r : Progress}
    (h : prefer eager more stop = some r) : more () = some r ∨ stop () = some r := by
  unfold prefer at h
  split at h <;> split at h <;> simp_all

theorem spanFrom_reaches (accepts : Char → Bool) (groups : List (Nat × Text × Nat)) (rest : Text) :
    ∀ last passed, Reaches ⟨some last, rest, passed, groups⟩
      (spanFrom accepts groups last rest passed) := by
  induction rest with
  | nil => exact fun last passed => .refl _
  | cons c rest ih =>
      intro last passed
      unfold spanFrom
      split
      · exact .trans (.step rfl) (ih c (passed + 1))
      · exact .refl _

theorem runFrom_reaches {eager : Bool} {accepts : Char → Bool}
    {next : Progress → Option Progress} {groups : List (Nat × Text × Nat)} {r : Progress}
    (ahead : Text) : ∀ before passed,
      runFrom eager accepts next groups before ahead passed = some r →
      ∃ t, Reaches ⟨before, ahead, passed, groups⟩ t ∧ next t = some r := by
  induction ahead with
  | nil => exact fun before passed h => ⟨_, .refl _, h⟩
  | cons c rest ih =>
      intro before passed h
      unfold runFrom at h
      split at h
      · rcases prefer_eq_some h with h | h
        · obtain ⟨t, ht, hr⟩ := ih (some c) (passed + 1) h
          exact ⟨t, .trans (.step rfl) ht, hr⟩
        · exact ⟨_, .refl _, h⟩
      · exact ⟨_, .refl _, h⟩

theorem repeatFrom_reaches {eager : Bool}
    {body : (Progress → Option Progress) → Progress → Option Progress}
    {next : Progress → Option Progress} {r : Progress}
    (hbody : ∀ next s, body next s = some r → ∃ t, s.Reaches t ∧ next t = some r) (bound : Nat) :
    ∀ s, repeatFrom eager body next bound s = some r → ∃ t, s.Reaches t ∧ next t = some r := by
  induction bound with
  | zero => exact fun s h => ⟨s, .refl s, h⟩
  | succ bound ih =>
      intro s h
      unfold repeatFrom at h
      rcases prefer_eq_some h with h | h
      · obtain ⟨t, ht, hn⟩ := hbody _ s h
        obtain ⟨u, hu, hr⟩ := ih t hn
        exact ⟨u, ht.trans hu, hr⟩
      · exact ⟨s, .refl s, h⟩

/-- An attempt that succeeds has passed some of the text ahead, and what follows the pattern has
    succeeded from there. -/
theorem attempt_reaches (bound : Nat) (p : Pattern) : ∀ (next : Progress → Option Progress) s r,
    p.attempt bound next s = some r → ∃ t, s.Reaches t ∧ next t = some r := by
  induction p with
  | empty => exact fun next s r h => ⟨s, .refl s, h⟩
  | one accepts =>
      intro next s r h
      unfold attempt at h
      split at h
      · cases h
      · rename_i c rest hs
        split at h
        · exact ⟨_, .step hs, h⟩
        · cases h
  | span accepts =>
      intro next s r h
      unfold attempt at h
      split at h
      · exact ⟨s, .refl s, h⟩
      · rename_i c rest hs
        split at h
        · exact ⟨_, .trans (.step hs) (spanFrom_reaches accepts s.groups rest c _), h⟩
        · exact ⟨s, .refl s, h⟩
  | run eager accepts =>
      exact fun next s r h => runFrom_reaches s.ahead s.before s.passed h
  | seq first second hf hs =>
      intro next s r h
      obtain ⟨t, ht, hn⟩ := hf _ s r h
      obtain ⟨u, hu, hr⟩ := hs _ t r hn
      exact ⟨u, ht.trans hu, hr⟩
  | alt first second hf hs =>
      intro next s r h
      rcases prefer_eq_some h with h | h
      · exact hf _ s r h
      · exact hs _ s r h
  | many eager body hb =>
      exact fun next s r h => repeatFrom_reaches (fun next s h => hb next s r h) bound s h
  | group index body hb =>
      intro next s r h
      obtain ⟨t, ht, hr⟩ := hb _ s r h
      exact ⟨_, ht.close s index, hr⟩
  | place holds =>
      intro next s r h
      unfold attempt at h
      split at h
      · exact ⟨s, .refl s, h⟩
      · cases h
  | ahead wanted body =>
      intro next s r h
      unfold attempt at h
      split at h
      · exact ⟨s, .refl s, h⟩
      · cases h

/-- A match is the start of the text ahead, of the length that is given with it. -/
theorem matchAt_text {bound least : Nat} {p : Pattern} {before : Option Char} {ahead : Text}
    {m : Match} {n : Nat} (h : p.matchAt bound least before ahead = some (m, n)) :
    m.text = ahead.take n ∧ n ≤ ahead.length ∧ least ≤ n := by
  unfold matchAt at h
  obtain ⟨s, hs, hm⟩ := Option.map_eq_some_iff.1 h
  cases hm
  obtain ⟨t, ⟨w, hw, hp, -⟩, ht⟩ := attempt_reaches bound p _ _ s hs
  simp only at hw hp ht
  split at ht
  · cases ht
    refine ⟨rfl, ?_, by assumption⟩
    simp [hw, hp]
  · cases ht

end Pattern

namespace Text

variable {α : Type}

/-- A finder is faithful to `read` if what it recognises, read back, is the start of the text. -/
def Faithful (read : α → Text) (find : Finder α) : Prop :=
  ∀ before t a n, find before t = some (a, n) → read a = t.take n ∧ n ≤ t.length

/-- Pieces read back are the text. -/
theorem assemble_cutFrom {read : α → Text} {find longer : Finder α} (hf : Faithful read find)
    (hl : Faithful read longer) (t : Text) : ∀ skip before,
    Piece.assemble read (cutFrom find longer skip before t) = t.drop skip := by
  induction t with
  | nil =>
      intro skip before
      cases skip with
      | succ skip => simp [cutFrom, Piece.assemble]
      | zero =>
          unfold cutFrom
          split
          · rename_i a n h
            simp [Piece.assemble, (hf _ _ _ _ h).1]
          · simp [Piece.assemble]
  | cons c rest ih =>
      intro skip before
      cases skip with
      | succ skip => simp [cutFrom, ih]
      | zero =>
          unfold cutFrom
          split
          · simp [Piece.assemble, ih]
          · rename_i a n h
            simp [Piece.assemble, ih, (hf _ _ _ _ h).1]
          · rename_i a h
            split
            · rename_i b n k
              simp [Piece.assemble, ih, (hf _ _ _ _ h).1, (hl _ _ _ _ k).1]
            · simp [Piece.assemble, ih, (hf _ _ _ _ h).1]

theorem assemble_cut {read : α → Text} {find : Finder α} (hf : Faithful read find) (t : Text) :
    Piece.assemble read (cut find t) = t := by
  simp [cut, assemble_cutFrom hf hf]

end Text

/-- The matches of a pattern and what lies between them are the text. -/
theorem Pattern.assemble_pieces (p : Pattern) (t : Text) :
    Piece.assemble Match.text (p.pieces t) = t := by
  have faithful (least : Nat) : Text.Faithful Match.text (p.matchAt t.length least) :=
    fun _ _ _ _ h => ⟨(matchAt_text h).1, (matchAt_text h).2.1⟩
  simp [Pattern.pieces, Text.assemble_cutFrom (faithful 0) (faithful 1)]

/-- A rewrite that puts every match back leaves the text as it is. -/
theorem Rewrite.apply_text (p : Pattern) (t : Text) : Rewrite.apply ⟨p, Match.text⟩ t = t :=
  p.assemble_pieces t

end LessonText
