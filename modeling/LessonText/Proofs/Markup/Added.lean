import LessonText.Proofs.Markup.EquationEntities
import LessonText.Proofs.Markup.Equations

/-! # Characters that an equation gets

What stands in a rewritten text stood there before, or the rewrite adds it. The names of Greek letters, the entities and
the letters and digits of an equation add letters, their mathematical forms, spaces and the marks of entities; the tags
add the marks of tags. So a sign that the equation lacks is not there when the tags are put in, and no digit of ASCII is
left at the end.
-/

namespace LessonText

namespace Pattern

variable {p : Pattern} {b : Option Char} {w r : Text} {gs : List (Nat × Text)}

/-- What a group holds is a part of the match. -/
theorem Takes.mem_groups : ∀ {b w r gs}, p.Takes b w r gs → ∀ g ∈ gs, ∀ c ∈ g.2, c ∈ w := by
  induction p with
  | empty => exact fun h => by simp [h.2]
  | one accepts =>
      rintro b w r gs ⟨c, -, -, rfl⟩
      simp
  | span accepts => exact fun h => by simp [h.2.2]
  | run eager accepts => exact fun h => by simp [h.2]
  | seq p q hp hq =>
      rintro b w r gs ⟨w₁, w₂, gs₁, gs₂, rfl, rfl, h₁, h₂⟩ g hg c hc
      rcases List.mem_append.1 hg with hg | hg
      · exact List.mem_append_right w₁ (hq h₂ g hg c hc)
      · exact List.mem_append_left w₂ (hp h₁ g hg c hc)
  | alt p q hp hq =>
      rintro b w r gs (h | h)
      · exact hp h
      · exact hq h
  | many eager p hp =>
      intro b w r gs h
      have each : Repeats p.Takes b w r gs := h
      induction each with
      | stop => simp
      | more first later ih =>
          intro g hg c hc
          rcases List.mem_append.1 hg with hg | hg
          · exact List.mem_append_right _ (ih later g hg c hc)
          · exact List.mem_append_left _ (hp first g hg c hc)
  | group i p hp =>
      rintro b w r gs ⟨gs', h, rfl⟩ g hg c hc
      rcases List.mem_cons.1 hg with rfl | hg
      · exact hc
      · exact hp h g hg c hc
  | place holds => exact fun h => by simp [h.2.2]
  | ahead wanted p => exact fun h => by simp [h.2]

theorem Takes.mem_group (h : p.Takes b w r gs) {i : Nat} {c : Char} (hc : c ∈ Match.group ⟨w, gs⟩ i) : c ∈ w := by
  rw [Match.group_eq rfl] at hc
  cases found : gs.lookup i with
  | none =>
      rw [found] at hc
      cases hc
  | some t =>
      rw [found] at hc
      obtain ⟨before, behind, rfl, -⟩ := List.lookup_eq_some_iff.1 found
      exact h.mem_groups (i, t) (by simp) c hc

end Pattern

namespace Rewrite

variable {r : Rewrite} {P Q : Char → Prop} {t : Text}

/-- Every character that a rewrite writes stands in the match or is of a kind. -/
def Adds (r : Rewrite) (P : Char → Prop) : Prop :=
  ∀ b w z gs, r.pattern.Takes b w z gs → ∀ c ∈ r.replace ⟨w, gs⟩, c ∈ w ∨ P c

theorem Adds.forall_apply (adds : r.Adds P) (advances : r.pattern.Advances) (kind : ∀ c, P c → Q c) (ht : ∀ c ∈ t, Q c) :
    ∀ c ∈ r.apply t, Q c := by
  have all {bound : ℕ} {b : Option Char} {t : Text} {ps : List (Piece Match)}
      (scan : Scan (r.pattern.matchAt bound 0) b t ps) (ht : ∀ c ∈ t, Q c) : ∀ c ∈ Piece.assemble r.replace ps, Q c := by
    induction scan with
    | nil => nofun
    | plain _ _ ih =>
        obtain ⟨here, later⟩ := List.forall_mem_cons.1 ht
        exact List.forall_mem_cons.2 ⟨here, ih later⟩
    | @found b w t m ps full matched _ ih =>
        obtain ⟨rfl, takes⟩ := Pattern.matchAt_found matched
        obtain ⟨here, later⟩ := List.forall_mem_append.1 ht
        exact List.forall_mem_append.2 ⟨fun c hc => (adds _ _ _ _ takes c hc).elim (here c) (kind c), ih later⟩
  exact all (Pattern.pieces_scan advances t) ht

theorem applyAll_forall {rs : List Rewrite} (each : ∀ r ∈ rs, r.pattern.Advances ∧ r.Adds P) (kind : ∀ c, P c → Q c)
    (ht : ∀ c ∈ t, Q c) : ∀ c ∈ applyAll rs t, Q c := by
  induction rs generalizing t with
  | nil => exact ht
  | cons r rs ih =>
      obtain ⟨⟨advances, adds⟩, later⟩ := List.forall_mem_cons.1 each
      exact ih later (adds.forall_apply advances kind ht)

theorem Adds.const {p : Pattern} {n : Text} (h : ∀ c ∈ n, P c) : Adds ⟨p, fun _ => n⟩ P :=
  fun _ _ _ _ _ c hc => .inr (h c hc)

end Rewrite

namespace Maths

open Pattern Unicode Rewrite

variable {c d : Char} {t : Text}

/-- A character that an equation gets before its tags. -/
def IsNote (c : Char) : Prop := c.isAlpha = true ∨ c ∈ (" &;" : Text) ∨ IsSymbol c

theorem isNote_of_all (h : t.all (fun c => c.isAlpha || (" &;" : Text).contains c) = true) : ∀ c ∈ t, IsNote c := by
  intro c hc
  have here := List.all_eq_true.1 h c hc
  rw [Bool.or_eq_true, List.contains_iff_mem] at here
  exact here.elim .inl fun mark => .inr (.inl mark)

theorem not_isNote (ascii : c.toNat < 128) (other : c.isAlpha = false ∧ c ∉ (" &;" : Text)) : ¬ IsNote c := by
  rintro (letter | mark | symbol)
  · exact Bool.false_ne_true (other.1.symm.trans letter)
  · exact other.2 mark
  · exact symbol.ne ascii rfl

theorem adds_names : ∀ r ∈ Greek.rewrites, r.pattern.Advances ∧ r.Adds IsNote := by
  have all : Greek.names.all (fun name => (Greek.nameRewrite name).pattern.passes &&
      ("&" ++ name ++ ";" : Text).all (fun c => c.isAlpha || (" &;" : Text).contains c)) = true := by decide
  intro r hr
  obtain ⟨name, mem, rfl⟩ := List.mem_map.1 hr
  obtain ⟨passes, notes⟩ := Bool.and_eq_true_iff.1 (List.all_eq_true.1 all name mem)
  exact ⟨.of_passes passes, .const (isNote_of_all notes)⟩

/-- A rewrite that keeps its first group and adds an entity. -/
theorem adds_entity {p : Pattern} {n : Text} (h : ∀ c ∈ n, IsNote c) : Adds ⟨p, fun m => m.group 1 ++ n⟩ IsNote :=
  fun _ _ _ _ takes c hc => (List.mem_append.1 hc).imp takes.mem_group (h c)

theorem adds_entities : ∀ r ∈ entityRewrites, r.pattern.Advances ∧ r.Adds IsNote := by
  have const {p : Pattern} {n : Text} (passes : p.passes = true)
      (h : n.all (fun c => c.isAlpha || (" &;" : Text).contains c) = true) : p.Advances ∧ Adds ⟨p, fun _ => n⟩ IsNote :=
    ⟨.of_passes passes, .const (isNote_of_all h)⟩
  have group {p : Pattern} {n : Text} (passes : p.passes = true)
      (h : n.all (fun c => c.isAlpha || (" &;" : Text).contains c) = true) :
      p.Advances ∧ Adds ⟨p, fun m => m.group 1 ++ n⟩ IsNote := ⟨.of_passes passes, adds_entity (isNote_of_all h)⟩
  simp only [entityRewrites, List.forall_mem_cons]
  exact ⟨const rfl (by decide), const rfl (by decide), const rfl (by decide), const rfl (by decide), const rfl (by decide),
    const rfl (by decide), group rfl (by decide), group rfl (by decide), group rfl (by decide), const rfl (by decide),
    group rfl (by decide), by simp⟩

theorem adds_symbol {p : Pattern} : Adds ⟨p, fun m => m.text.map symbol⟩ IsNote := by
  intro b w z gs _ c hc
  obtain ⟨d, hd, rfl⟩ := List.mem_map.1 hc
  cases alphanum : d.isAlphanum with
  | true => exact .inr (.inr (.inr ⟨d, alphanum, rfl⟩))
  | false =>
      rw [symbol_eq_self alphanum]
      exact .inl hd

theorem adds_symbols : ∀ r ∈ symbolRewrites, r.pattern.Advances ∧ r.Adds IsNote := by
  simp only [symbolRewrites, List.forall_mem_cons]
  exact ⟨⟨.of_passes rfl, adds_symbol⟩, ⟨.of_passes rfl, adds_symbol⟩, by simp⟩

/-- A character of the tags of an equation. -/
def IsMarkup (c : Char) : Prop := c.isAlpha = true ∨ c ∈ ("<>/ =-\"&;" : Text)

instance : DecidablePred IsMarkup := fun _ => inferInstanceAs (Decidable (_ ∨ _))

theorem adds_tags : ∀ r ∈ tagRewrites, r.pattern.Advances ∧ r.Adds IsMarkup := by
  have text {w x : Text} (h : ∀ c ∈ x, IsMarkup c) : ∀ c ∈ x, c ∈ w ∨ IsMarkup c := fun c hc => .inr (h c hc)
  have join {w x y : Text} (hx : ∀ c ∈ x, c ∈ w ∨ IsMarkup c) (hy : ∀ c ∈ y, c ∈ w ∨ IsMarkup c) :
      ∀ c ∈ x ++ y, c ∈ w ∨ IsMarkup c := List.forall_mem_append.2 ⟨hx, hy⟩
  have group {p : Pattern} {b : Option Char} {w z : Text} {gs : List (Nat × Text)} (takes : p.Takes b w z gs) (i : Nat) :
      ∀ c ∈ Match.group ⟨w, gs⟩ i, c ∈ w ∨ IsMarkup c := fun c hc => .inl (takes.mem_group hc)
  simp only [tagRewrites, List.forall_mem_cons]
  refine ⟨⟨.of_passes rfl, fun b w z gs takes => ?_⟩, ⟨.of_passes rfl, fun b w z gs takes => ?_⟩,
    ⟨.of_passes rfl, fun b w z gs takes => ?_⟩, ⟨.of_passes rfl, .const (by decide)⟩,
    ⟨.of_passes rfl, fun b w z gs takes => ?_⟩, ⟨.of_passes rfl, fun b w z gs takes => ?_⟩, by simp⟩
  · exact join (join (join (join (text (by decide)) (group takes 1)) (text (by decide))) (group takes 2)) (text (by decide))
  · exact join (join (text (by decide)) (group takes 1)) (text (by decide))
  · exact join (join (text (by decide)) (group takes 1)) (text (by decide))
  · exact join (join (text (by decide)) fun c => .inl) (text (by decide))
  · exact join (join (text (by decide)) (group takes 1)) (text (by decide))

/-! ## The text before the tags -/

/-- An equation with entities and symbols, but without tags. -/
def untagged (equation : Text) : Text :=
  Rewrite.applyAll symbolRewrites (Rewrite.applyAll entityRewrites (Greek.replaceNames equation.trim))

theorem toHtml_eq (equation : Text) : toHtml equation = Rewrite.applyAll tagRewrites (untagged equation) := rfl

theorem mem_of_trim (h : c ∈ t.trim) : c ∈ t := by
  obtain ⟨a, z, split, -, -⟩ := Draft.exists_trim t
  rw [split]
  simp [h]

/-- A sign that is no note is not there before the tags if the equation lacks it. -/
theorem untagged_lacks {equation : Text} (sign : ¬ IsNote d) (lacks : d ∉ equation) : d ∉ untagged equation := by
  have kind (c : Char) (note : IsNote c) : c ≠ d := fun same => sign (same ▸ note)
  have trimmed : ∀ c ∈ equation.trim, c ≠ d := fun c hc same => lacks (same ▸ mem_of_trim hc)
  have all := applyAll_forall adds_symbols kind (applyAll_forall adds_entities kind (applyAll_forall adds_names kind trimmed))
  exact fun mem => all d mem rfl

/-! ## Digits -/

theorem not_isDigit_of_isAlpha (h : c.isAlpha = true) : c.isDigit = false := by
  by_contra digit
  rw [not_isAlpha_of_isDigit (by simpa using digit)] at h
  cases h

theorem IsNote.not_isDigit (h : IsNote c) : c.isDigit = false := by
  have marks : ∀ c ∈ (" &;" : Text), c.isDigit = false := by decide
  rcases h with letter | mark | symbol
  · exact not_isDigit_of_isAlpha letter
  · exact marks c mark
  · exact (Bool.or_eq_false_iff.1 symbol.plain.2.1).2

theorem IsMarkup.not_isDigit (h : IsMarkup c) : c.isDigit = false := by
  have marks : ∀ c ∈ ("<>/ =-\"&;" : Text), c.isDigit = false := by decide
  exact h.elim not_isDigit_of_isAlpha (marks c)

theorem digits_gone (t : Text) :
    ∀ c ∈ Rewrite.apply ⟨span1 Char.isDigit, fun m => m.text.map symbol⟩ t, c.isDigit = false := by
  have advances : (span1 Char.isDigit).Advances := .of_passes rfl
  have all {bound : ℕ} {b : Option Char} {t : Text} {ps : List (Piece Match)}
      (scan : Scan ((span1 Char.isDigit).matchAt bound 0) b t ps) (inside : t.length ≤ bound) :
      ∀ c ∈ Piece.assemble (fun m => m.text.map symbol) ps, c.isDigit = false := by
    induction scan with
    | nil => nofun
    | @plain b c t ps none _ ih =>
        refine List.forall_mem_cons.2 ⟨?_, ih (Nat.le_of_succ_le inside)⟩
        by_contra digit
        obtain ⟨w, r, rfl, digits, stop⟩ := exists_span Char.isDigit t
        have reads : (span1 Char.isDigit).Reads b (c :: w) r [] :=
          .span1 (List.cons_ne_nil _ _) (List.forall_mem_cons.2 ⟨by simpa using digit, digits⟩) stop
        have found := reads.matchAt inside
        rw [List.cons_append, none] at found
        cases found
    | @found b w t m ps full matched _ ih =>
        obtain ⟨rfl, takes⟩ := matchAt_found matched
        rw [List.length_append] at inside
        refine List.forall_mem_append.2 ⟨List.forall_mem_map.2 fun c hc => ?_, ih (by omega)⟩
        have digit := (takes_span1.1 takes).2.1 c hc
        have symbol : IsSymbol (symbol c) := ⟨c, by simp [Char.isAlphanum, digit], rfl⟩
        exact (IsNote.not_isDigit (.inr (.inr symbol)))
  exact all (pieces_scan advances t) (Nat.le_refl _)

theorem untagged_digits (equation : Text) : ∀ c ∈ untagged equation, c.isDigit = false := by
  rw [untagged, show symbolRewrites = _ :: symbolRewrites.tail from rfl, applyAll_cons]
  have later := fun r hr => adds_symbols r (List.mem_of_mem_tail hr)
  exact applyAll_forall later (fun _ => IsNote.not_isDigit) (digits_gone _)

/-- No digit of ASCII is left of an equation. -/
theorem toHtml_digits (equation : Text) : ∀ c ∈ toHtml equation, c.isDigit = false := by
  rw [toHtml_eq]
  exact applyAll_forall adds_tags (fun _ => IsMarkup.not_isDigit) (untagged_digits equation)

end Maths

end LessonText
