import LessonText.Markup.Rule
import LessonText.Proofs.Pattern.Forward

/-! # Applying a rule piece by piece

A rule goes over a text from the left. Where its pattern matches nothing the text stays; where it matches,
the match is replaced and the rule goes on behind it. So what a rule makes of a text can be read off from
parts of the text, one after another.
-/

namespace LessonText

namespace Pattern

/-- No text of the pattern begins inside `w`, where `t` stands behind it. -/
def Passes (p : Pattern) (b : Option Char) (w t : Text) : Prop :=
  ∀ u v, w = u ++ v → v ≠ [] → p.Misses (u.getLast?.or b) (v ++ t)

variable {p q : Pattern} {b : Option Char} {bound least : Nat} {c : Char} {t u v w r : Text}

theorem Misses.matchAt (h : p.Misses b t) : p.matchAt bound least b t = none := by
  rw [← Option.not_isSome_iff_eq_none, Option.isSome_iff_exists]
  rintro ⟨⟨m, n⟩, found⟩
  obtain ⟨rest, split, -, -, takes⟩ := matchAt_takes found
  exact h _ _ _ split takes

theorem Advances.misses_nil (h : p.Advances) : p.Misses b [] := by
  intro w r gs split takes
  exact h _ _ _ _ takes (List.append_eq_nil_iff.1 split.symm).1

namespace Passes

theorem nil : p.Passes b [] t := by
  intro u v split full
  exact absurd (List.append_eq_nil_iff.1 split.symm).2 full

theorem append (hu : p.Passes b u (v ++ t)) (hv : p.Passes (u.getLast?.or b) v t) :
    p.Passes b (u ++ v) t := by
  intro x y split full
  rcases List.append_eq_append_iff.1 split with ⟨z, rfl, rfl⟩ | ⟨z, rfl, rfl⟩
  · rw [List.getLast?_append, Option.or_assoc]
    exact hv z y rfl full
  · cases z with
    | nil =>
        have here := hv [] v rfl (by simpa using full)
        simpa using here
    | cons c z =>
        rw [List.append_assoc]
        exact hu x (c :: z) rfl (List.cons_ne_nil _ _)

theorem cons (hc : p.Misses b (c :: (u ++ t))) (hu : p.Passes (some c) u t) : p.Passes b (c :: u) t := by
  have one : p.Passes b [c] (u ++ t) := by
    intro x y split full
    cases x with
    | nil =>
        rw [show y = [c] from split.symm]
        exact hc
    | cons d x =>
        obtain ⟨-, empty⟩ := List.cons.inj split
        exact absurd (List.append_eq_nil_iff.1 empty.symm).2 full
  exact one.append hu

theorem misses (h : p.Passes b (c :: u) t) : p.Misses b (c :: (u ++ t)) :=
  h [] (c :: u) rfl (List.cons_ne_nil _ _)

theorem tail (h : p.Passes b (c :: u) t) : p.Passes (some c) u t := by
  intro x y split full
  have later := h (c :: x) y (congrArg (c :: ·) split) full
  rwa [Text.getLast?_cons_or] at later

/-- A pattern passes over a text if its beginning does. -/
theorem before (h : p.Passes b w t) : (p ++ q).Passes b w t := by
  rintro u v split full _ r _ ahead ⟨w₁, w₂, _, _, rfl, -, takes, -⟩
  exact h u v split full w₁ (w₂ ++ r) _ (ahead.trans (List.append_assoc _ _ _)) takes

/-- A pattern passes over a text of which no character can begin a match. -/
theorem of_forall (h : ∀ c ∈ w, ∀ b u, p.Misses b (c :: u)) : p.Passes b w t := by
  intro u v split full
  obtain ⟨c, v, rfl⟩ := List.exists_cons_of_ne_nil full
  exact h c (by simp [split]) _ _

end Passes

/-- A character stands in every match. -/
def Needs (p : Pattern) (c : Char) : Prop := ∀ b w z gs, p.Takes b w z gs → c ∈ w

namespace Needs

theorem literal (mem : c ∈ v) : (literal v).Needs c := fun _ _ _ _ takes => by
  rwa [(takes_literal.1 takes).1]

theorem before (h : p.Needs c) : (p ++ q).Needs c := by
  rintro b _ z _ ⟨w, v, _, _, rfl, -, takes, -⟩
  exact List.mem_append_left v (h _ _ _ _ takes)

theorem behind (h : q.Needs c) : (p ++ q).Needs c := by
  rintro b _ z _ ⟨w, v, _, _, rfl, -, -, takes⟩
  exact List.mem_append_right w (h _ _ _ _ takes)

theorem or (hp : p.Needs c) (hq : q.Needs c) : (p ||| q).Needs c :=
  fun b w z gs takes => (takes_or.1 takes).elim (hp b w z gs) (hq b w z gs)

end Needs

/-! ## How a match may begin -/

/-- Whether a match may begin with a character. -/
def mayBegin (c : Char) : Pattern → Bool
  | .one accepts | .span accepts | .run _ accepts => accepts c
  | .seq p q => p.mayBegin c || !p.passes && q.mayBegin c
  | .alt p q => p.mayBegin c || q.mayBegin c
  | .many _ p | .group _ p => p.mayBegin c
  | .empty | .place _ | .ahead _ _ => false

@[simp] theorem mayBegin_append : (p ++ q).mayBegin c = (p.mayBegin c || !p.passes && q.mayBegin c) := rfl

@[simp] theorem mayBegin_or : (p ||| q).mayBegin c = (p.mayBegin c || q.mayBegin c) := rfl

@[simp] theorem mayBegin_one {accepts : Char → Bool} : (one accepts).mayBegin c = accepts c := rfl

@[simp] theorem mayBegin_literal {d : Char} : (literal (d :: t)).mayBegin c = (c == d) := by
  show (c == d || !true && _) = _
  simp

@[simp] theorem passes_one {accepts : Char → Bool} : (one accepts).passes = true := rfl

@[simp] theorem passes_or : (p ||| q).passes = (p.passes && q.passes) := rfl

@[simp] theorem passes_literal {d : Char} : (literal (d :: t)).passes = true := rfl

theorem Takes.mayBegin {p : Pattern} : ∀ {b w r gs}, p.Takes b (c :: w) r gs → p.mayBegin c = true := by
  induction p with
  | one accepts =>
      rintro b w r gs ⟨d, hd, split, -⟩
      rwa [Pattern.mayBegin, (List.cons.inj split).1]
  | span accepts => exact fun h => h.1 c List.mem_cons_self
  | run eager accepts => exact fun h => h.1 c List.mem_cons_self
  | seq p q hp hq =>
      rintro b w r gs ⟨w₁, w₂, gs₁, gs₂, split, -, h₁, h₂⟩
      rw [Pattern.mayBegin, Bool.or_eq_true, Bool.and_eq_true, Bool.not_eq_true']
      cases w₁ with
      | nil =>
          refine .inr ⟨?_, ?_⟩
          · rw [← Bool.not_eq_true]
            exact fun advances => Advances.of_passes advances _ _ _ _ h₁ rfl
          · rw [List.nil_append] at split
            exact hq (split ▸ h₂)
      | cons d w₁ =>
          obtain ⟨rfl, -⟩ := List.cons.inj split
          exact .inl (hp h₁)
  | alt p q hp hq =>
      rintro b w r gs (h | h)
      · exact Bool.or_eq_true_iff.2 (.inl (hp h))
      · exact Bool.or_eq_true_iff.2 (.inr (hq h))
  | many eager p hp =>
      intro b w r gs h
      have each : ∀ b v r gs, Repeats p.Takes b v r gs → ∀ w, v = c :: w → p.mayBegin c = true := by
        intro b v r gs h
        induction h with
        | stop => exact fun w split => nomatch split
        | @more b v v' r gs gs' first later ih =>
            intro w split
            cases v with
            | nil => exact ih w split
            | cons d v =>
                obtain ⟨rfl, -⟩ := List.cons.inj split
                exact hp first
      exact each b _ r gs h w rfl
  | group i p hp =>
      rintro b w r gs ⟨gs', h, -⟩
      exact hp h
  | empty => exact fun h => nomatch h.1
  | place holds => exact fun h => nomatch h.1
  | ahead wanted p => exact fun h => nomatch h.1

theorem Misses.of_begin (advances : p.Advances) (h : p.mayBegin c = false) : p.Misses b (c :: t) := by
  intro w r gs split takes
  obtain ⟨d, w, rfl⟩ := List.exists_cons_of_ne_nil (advances _ _ _ _ takes)
  obtain ⟨rfl, -⟩ := List.cons.inj split
  rw [takes.mayBegin] at h
  cases h

theorem Passes.of_begin (advances : p.Advances) (h : ∀ c ∈ w, p.mayBegin c = false) : p.Passes b w t :=
  .of_forall fun c hc _ _ => .of_begin advances (h c hc)

/-- A pattern passes over a text without the signs that it may begin with. -/
theorem Passes.of_signs {signs : Text} (advances : p.Advances) (starts : ∀ c, p.mayBegin c = true → c ∈ signs)
    (none : ∀ c ∈ w, c ∉ signs) : p.Passes b w t := by
  refine .of_begin advances fun c hc => ?_
  rw [← Bool.not_eq_true]
  exact fun begins => none c hc (starts c begins)

theorem Passes.of_sign {sign : Char} (advances : p.Advances) (start : ∀ c, p.mayBegin c = true → c = sign)
    (none : sign ∉ w) : p.Passes b w t := by
  have starts : ∀ c, p.mayBegin c = true → c ∈ [sign] := fun c begins => List.mem_singleton.2 (start c begins)
  exact .of_signs advances starts fun _ hc listed => none (List.mem_singleton.1 listed ▸ hc)

theorem lineEnd_fails (other : c ≠ '\n') : lineEnd.Fails b (c :: t) := by
  refine Misses.fails ?_
  rintro w r gs split ⟨rfl, stop, -⟩
  rw [← show c :: t = r from split] at stop
  exact other (beq_iff_eq.1 stop)

theorem cutFrom_passes {find : Finder Match} (h : p.Passes b w t) :
    Text.cutFrom (p.matchAt bound 0) find 0 b (w ++ t) =
      w.map .plain ++ Text.cutFrom (p.matchAt bound 0) find 0 (w.getLast?.or b) t :=
  Text.cutFrom_none fun u v split full => (h u v split full).matchAt

/-- No attempt at the pattern succeeds inside `w`, where `t` stands behind it. -/
def Skips (p : Pattern) (b : Option Char) (w t : Text) : Prop :=
  ∀ u v, w = u ++ v → v ≠ [] → p.Fails (u.getLast?.or b) (v ++ t)

theorem Passes.skips (h : p.Passes b w t) : p.Skips b w t := fun u v split full => (h u v split full).fails

theorem Fails.matchAt (h : p.Fails b t) (inside : t.length ≤ bound) : p.matchAt bound least b t = none := by
  rw [Pattern.matchAt, h bound _ _ rfl rfl inside]
  rfl

theorem pieces_of_passes (advances : p.Advances) (h : p.Passes none t []) : p.pieces t = t.map .plain := by
  have all : Text.cutFrom (p.matchAt t.length 0) (p.matchAt t.length 1) 0 none (t ++ []) = _ := cutFrom_passes h
  rw [List.append_nil, Text.cutFrom, advances.misses_nil.matchAt, List.append_nil] at all
  exact all

end Pattern

namespace Piece

variable {α : Type} {w : Text} {ps : List (Piece α)}

theorem assembleM_plain (replace : α → Rendering Text) :
    assembleM replace (w.map .plain ++ ps) = (w ++ ·) <$> assembleM replace ps := by
  induction w with
  | nil => rfl
  | cons c w ih =>
      rw [List.map_cons, List.cons_append, assembleM, ih]
      rfl

end Piece

/-- A rewrite leaves a text in which its pattern matches nothing. -/
theorem Rewrite.apply_of_passes {r : Rewrite} {t : Text} (advances : r.pattern.Advances)
    (h : r.pattern.Passes none t []) : r.apply t = t := by
  have plain : Piece.assemble r.replace (t.map .plain ++ []) = _ := Piece.assemble_plain r.replace t
  rw [List.append_nil, Piece.assemble, List.append_nil] at plain
  rw [Rewrite.apply, Pattern.pieces_of_passes advances h, plain]

/-- A rewrite leaves a text that lacks a character of every match. -/
theorem Rewrite.apply_of_lacks {r : Rewrite} {t : Text} {c : Char} (needs : r.pattern.Needs c) (lacks : c ∉ t) :
    r.apply t = t := by
  refine Rewrite.apply_of_passes (fun b w z gs takes => List.ne_nil_of_mem (needs b w z gs takes)) ?_
  rintro u v rfl - w z gs ahead takes
  rw [List.append_nil] at ahead
  exact lacks (by simp [ahead, needs _ _ _ _ takes])

theorem Rewrite.applyAll_cons (r : Rewrite) (rs : List Rewrite) (t : Text) :
    Rewrite.applyAll (r :: rs) t = Rewrite.applyAll rs (r.apply t) := rfl

/-- Rewrites of which none changes a text leave it. -/
theorem Rewrite.applyAll_of_forall {t : Text} {rs : List Rewrite} (each : ∀ r ∈ rs, r.apply t = t) :
    Rewrite.applyAll rs t = t := by
  induction rs with
  | nil => rfl
  | cons r rs ih =>
      obtain ⟨here, later⟩ := List.forall_mem_cons.1 each
      exact (congrArg (Rewrite.applyAll rs) here).trans (ih later)

/-! ## Applying a rule -/

namespace Rule

variable {r : Rule} {bound : Nat} {b : Option Char} {t w : Text} {m : Match}

/-- What a rule makes of the rest of a text, behind the character `b`. -/
def applyFrom (r : Rule) (bound : Nat) (b : Option Char) (t : Text) : Rendering Text :=
  Piece.assembleM r.replace (t.cutFrom (r.pattern.matchAt bound 0) (r.pattern.matchAt bound 1) 0 b)

theorem apply_eq (r : Rule) (t : Text) : r.apply t = r.applyFrom t.length none t := rfl

theorem applyFrom_nil (h : r.pattern.Misses b []) : r.applyFrom bound b [] = pure [] := by
  rw [applyFrom, Text.cutFrom, h.matchAt]
  rfl

theorem applyFrom_passes (h : r.pattern.Passes b w t) :
    r.applyFrom bound b (w ++ t) = (w ++ ·) <$> r.applyFrom bound (w.getLast?.or b) t := by
  rw [applyFrom, Pattern.cutFrom_passes h, Piece.assembleM_plain]
  rfl

theorem applyFrom_skips (h : r.pattern.Skips b w t) (inside : (w ++ t).length ≤ bound) :
    r.applyFrom bound b (w ++ t) = (w ++ ·) <$> r.applyFrom bound (w.getLast?.or b) t := by
  have none : ∀ u v, w = u ++ v → v ≠ [] → r.pattern.matchAt bound 0 (u.getLast?.or b) (v ++ t) = none := by
    rintro u v rfl full
    refine (h u v rfl full).matchAt ?_
    rw [List.append_assoc, List.length_append] at inside
    omega
  rw [applyFrom, Text.cutFrom_none none, Piece.assembleM_plain]
  rfl

theorem applyFrom_found (full : w ≠ []) (h : r.pattern.matchAt bound 0 b (w ++ t) = some (m, w.length)) :
    r.applyFrom bound b (w ++ t) = do
      let replacement ← r.replace m
      return replacement ++ (← r.applyFrom bound (w.getLast?.or b) t) := by
  rw [applyFrom, Text.cutFrom_found full h, Piece.assembleM]
  rfl

theorem applyFrom_reads {gs : List (Nat × Text)} (full : w ≠ []) (h : r.pattern.Reads b w t gs)
    (inside : (w ++ t).length ≤ bound) : r.applyFrom bound b (w ++ t) = do
      let replacement ← r.replace ⟨w, gs⟩
      return replacement ++ (← r.applyFrom bound (w.getLast?.or b) t) :=
  applyFrom_found full (h.matchAt inside)

/-- A rule leaves a text in which its pattern matches nothing. -/
theorem apply_of_passes (advances : r.pattern.Advances) (h : r.pattern.Passes none t []) :
    r.apply t = pure t := by
  have all : r.applyFrom t.length none (t ++ []) = pure t := by
    rw [applyFrom_passes h, applyFrom_nil advances.misses_nil, map_pure, List.append_nil]
  rwa [List.append_nil] at all

/-- Rules of which none changes a text leave it. -/
theorem foldlM_pure {rules : List Rule} {t : Text} (each : ∀ r ∈ rules, r.apply t = pure t) :
    rules.foldlM (fun t r => r.apply t) t = pure t := by
  induction rules with
  | nil => rfl
  | cons r rules ih =>
      obtain ⟨here, later⟩ := List.forall_mem_cons.1 each
      rw [List.foldlM_cons, here, pure_bind, ih later]

end Rule

end LessonText
