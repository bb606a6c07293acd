import LessonText.Proofs.Markup.Added
import LessonText.Proofs.Markup.EquationTags
import LessonText.Proofs.Text.Tags

/-! # Equations with tags that nest

One rewrite after another puts tags around its operands, each in what the ones before it have left. Fractions find no tags
yet. An operand of a power, of an index or of a root may hold tags already: if they nest in it, the tags around it do, and
otherwise nothing that comes later can make up for it.
-/

namespace LessonText

open Pattern Unicode

namespace Rewrite

/-- What a rewrite finds as its first group, in order. -/
def operands (r : Rewrite) (t : Text) : List Text :=
  (r.pattern.pieces t).filterMap fun
    | .plain _ => none
    | .found m => some (m.group 1)

/-- A rewrite that puts tags before and behind its first group, and changes no name of a tag. -/
structure Encloses (r : Rewrite) (before behind : List Tag) : Prop where
  advances : r.pattern.Advances
  begins : ∀ c, ¬ Tag.Stops c → r.pattern.mayBegin c = false
  reads : ∀ b w z gs, r.pattern.Takes b w z gs → ∀ t, Tag.all (w ++ t) = Tag.all (Match.group ⟨w, gs⟩ 1) ++ Tag.all t
  starts : ∀ b w z gs, r.pattern.Takes b w z gs → ∃ c u, r.replace ⟨w, gs⟩ = c :: u ∧ Tag.Stops c
  writes : ∀ b w z gs, r.pattern.Takes b w z gs → ∀ t,
    Tag.all (r.replace ⟨w, gs⟩ ++ t) = before ++ (Tag.all (Match.group ⟨w, gs⟩ 1) ++ (behind ++ Tag.all t))

namespace Encloses

variable {r : Rewrite} {before behind : List Tag} {bound : ℕ} {b : Option Char} {t : Text} {ps : List (Piece Match)}

theorem begins_with (h : r.Encloses before behind) {w z : Text} {gs : List (Nat × Text)}
    (takes : r.pattern.Takes b w z gs) : ∃ c u, w = c :: u ∧ Tag.Stops c := by
  obtain ⟨c, u, rfl⟩ := List.exists_cons_of_ne_nil (h.advances _ _ _ _ takes)
  refine ⟨c, u, rfl, ?_⟩
  by_contra letter
  have begun := takes.mayBegin
  rw [h.begins c letter] at begun
  cases begun

/-- What is found and what is written in its place both stop a name. -/
theorem found_stops (h : r.Encloses before behind) {m : Match} {n : ℕ} (matched : r.pattern.matchAt bound 0 b t = some (m, n)) :
    (∃ c u, t = c :: u ∧ Tag.Stops c) ∧ ∃ c u, r.replace m = c :: u ∧ Tag.Stops c := by
  obtain ⟨rest, rfl, -, -, takes⟩ := matchAt_takes matched
  obtain ⟨c, u, begins, stop⟩ := h.begins_with takes
  exact ⟨⟨c, u ++ rest, by rw [begins]; rfl, stop⟩, h.starts _ _ _ _ takes⟩

theorem lead (h : r.Encloses before behind) (scan : Scan (r.pattern.matchAt bound 0) b t ps) :
    (Piece.assemble r.replace ps).takeWhile Char.isAlpha = t.takeWhile Char.isAlpha := by
  induction scan with
  | nil => rfl
  | plain _ _ ih => rw [Piece.assemble, List.takeWhile_cons, List.takeWhile_cons, ih]
  | found _ matched _ _ =>
      obtain ⟨⟨c, u, found, stop⟩, d, v, written, stop'⟩ := h.found_stops matched
      rw [Piece.assemble, found, written, List.cons_append]
      exact (Text.takeWhile_stops stop'.1 [] _).trans (Text.takeWhile_stops stop.1 [] _).symm

/-- The name behind a bracket is left. -/
theorem read_eq (h : r.Encloses before behind) (scan : Scan (r.pattern.matchAt bound 0) b t ps) :
    Tag.read (Piece.assemble r.replace ps) = Tag.read t := by
  cases scan with
  | nil => rfl
  | @plain _ c _ _ _ scan =>
      by_cases slash : c = '/'
      · subst slash
        exact congrArg Tag.closing (h.lead scan)
      · rw [Piece.assemble, Tag.read_of_ne slash, Tag.read_of_ne slash, List.takeWhile_cons, List.takeWhile_cons, h.lead scan]
  | found _ matched _ =>
      obtain ⟨⟨c, u, found, stop⟩, d, v, written, stop'⟩ := h.found_stops matched
      rw [Piece.assemble, found, written, List.cons_append]
      exact (Tag.read_stops stop' [] _).trans (Tag.read_stops stop [] _).symm

theorem wraps (h : r.Encloses before behind) (t : Text) :
    Tag.Wraps before behind (Tag.all t) (Tag.all (r.apply t)) ((r.operands t).map Tag.all) := by
  have all {bound : ℕ} {b : Option Char} {t : Text} {ps : List (Piece Match)}
      (scan : Scan (r.pattern.matchAt bound 0) b t ps) :
      Tag.Wraps before behind (Tag.all t) (Tag.all (Piece.assemble r.replace ps)) ((ps.filterMap fun
        | .plain _ => none
        | .found m => some (m.group 1)).map Tag.all) := by
    induction scan with
    | nil => exact .nil
    | @plain b c t ps _ scan ih =>
        rw [Piece.assemble, Tag.all, Tag.all, h.read_eq scan]
        split
        · exact ih.tag
        · exact ih
    | @found b w t m ps full matched _ ih =>
        obtain ⟨rfl, takes⟩ := matchAt_found matched
        rw [Piece.assemble, h.reads _ _ _ _ takes, show r.replace m = r.replace ⟨m.text, m.groups⟩ from rfl,
          h.writes _ _ _ _ takes]
        exact ih.wrap
  exact all (pieces_scan h.advances t)

theorem mem_operands (h : r.Encloses before behind) {u : Text} (mem : u ∈ r.operands t) :
    ∃ (m : Match) (b : Option Char) (v z : Text), t = v ++ m.text ++ z ∧ r.pattern.Takes b m.text z m.groups ∧
      m.group 1 = u := by
  obtain ⟨piece, inside, group⟩ := List.mem_filterMap.1 mem
  cases piece with
  | plain c => cases group
  | found m =>
      obtain ⟨b, v, z, split, takes⟩ := (pieces_scan h.advances t).mem_found inside
      exact ⟨m, b, v, z, split, takes, Option.some.inj group⟩

/-- The names of tags are those of the text and of the tags that are put in. -/
theorem names (h : r.Encloses before behind) {P : Text → Prop} (added : ∀ x ∈ before ++ behind, P x.name)
    (ht : ∀ x ∈ Tag.all t, P x.name) : ∀ x ∈ Tag.all (r.apply t), P x.name := by
  intro x hx
  rcases (h.wraps t).mem x hx with hx | hx | hx
  · exact ht x hx
  · exact added x (List.mem_append_left _ hx)
  · exact added x (List.mem_append_right _ hx)

theorem fresh (h : r.Encloses before behind) {n : Text} (ht : ∀ x ∈ Tag.all t, x.name ≠ n) :
    ∀ u ∈ r.operands t, Tag.Paired n (Tag.all u) := fun _ mem =>
  .of_forall fun x hx => ht x ((h.wraps t).mem_parts _ (List.mem_map_of_mem mem) x hx)

/-- Where the tags of the text nest they do so afterwards exactly if those of every operand do. -/
theorem nested_iff {n : Text} (h : r.Encloses before [.closing n])
    (opens : ∀ ns ts, Tag.walk ns (before ++ ts) = Tag.walk (n :: ns) ts)
    (fresh : ∀ u ∈ r.operands t, Tag.Paired n (Tag.all u)) :
    Tag.Nested (r.apply t) ↔ Tag.Nested t ∧ ∀ u ∈ r.operands t, Tag.Nested u := by
  have all : Tag.walk [] (Tag.all (r.apply t)) = some [] ↔ _ := (h.wraps t).walk_iff opens (List.forall_mem_map.2 fresh)
  rwa [List.forall_mem_map] at all

end Encloses

end Rewrite

namespace Maths

open Rewrite

variable {s : Char} {t : Text}

/-! ## Operands -/

theorem stops_of_isSpace {c : Char} (h : isSpace c = true) : Tag.Stops c := by
  have all : (charsOf spaceRanges).all (fun c => !c.isAlpha && c != '/') = true := by decide
  simpa [Tag.Stops] using of_isSpace all h

/-- An operand holds no bracket of a tag, or ends with a bracket of its own. -/
theorem all_operand {cls : Char → Bool} {b : Option Char} {w z : Text} {gs : List (Nat × Text)} (noTag : cls '<' = false)
    (h : (operand cls).Takes b w z gs) (t : Text) : Tag.all (w ++ t) = Tag.all w ++ Tag.all t := by
  rcases takes_or.1 h with ⟨inner, close, _, _, rfl, -, -, bracket⟩ | run
  · obtain ⟨rfl, -⟩ := takes_literal.1 bracket
    have stop : Tag.Stops ')' := by decide
    change Tag.all (inner ++ [')'] ++ t) = Tag.all (inner ++ [')']) ++ Tag.all t
    rw [List.append_assoc, List.singleton_append, Tag.all_stops stop, Tag.all_stops stop, List.append_assoc]
    rfl
  · have plain : '<' ∉ w := fun mem => Bool.false_ne_true (noTag.symm.trans ((takes_span1.1 run).2.1 '<' mem))
    rw [Tag.all_plain plain, Tag.all_eq_nil plain, List.nil_append]

theorem shift_takes {w z : Text} {b : Option Char} {gs : List (Nat × Text)} (noTag : (spaced (literal [s])).admits '<' = false)
    (h : (shifted (literal [s])).Takes b w z gs) : ∃ v b' gs', w = v ++ Match.group ⟨w, gs⟩ 1 ∧ '<' ∉ v ∧
      (operand fun c => !isSpace c && c != ')' && c != '<').Takes b' (Match.group ⟨w, gs⟩ 1) z gs' := by
  obtain ⟨v, u, _, _, rfl, rfl, sign, _, part, rfl⟩ := h
  refine ⟨v, _, _, rfl, fun mem => ?_, part⟩
  exact Bool.false_ne_true (noTag.symm.trans (sign.admits mem))

/-- A power or an index has tags before and behind its operand. -/
theorem shift_encloses {opening closing : Text} {before behind : List Tag} (stop : Tag.Stops s)
    (noTag : (spaced (literal [s])).admits '<' = false) (start : ∃ u, opening = '<' :: u)
    (opens : ∀ t, Tag.all (opening ++ t) = before ++ Tag.all t) (closes : ∀ t, Tag.all (closing ++ t) = behind ++ Tag.all t) :
    (shiftRewrite s opening closing).Encloses before behind where
  advances := shift_advances
  begins := by
    intro c letter
    have solid : isSpace c = false ∧ c ≠ s := by
      refine ⟨?_, fun same => letter (same ▸ stop)⟩
      rw [← Bool.not_eq_true]
      exact fun space => letter (stops_of_isSpace space)
    have sign : (spaced (literal [s])).passes = true := rfl
    simp [shiftRewrite, shifted, spaced_mayBegin solid.1 solid.2, sign]
  reads := by
    intro b w z gs takes t
    obtain ⟨v, _, _, split, plain, part⟩ := shift_takes noTag takes
    generalize Match.group ⟨w, gs⟩ 1 = u at split part
    rw [split, List.append_assoc, Tag.all_plain plain, all_operand rfl part]
  starts := by
    intro b w z gs _
    obtain ⟨u, rfl⟩ := start
    exact ⟨'<', _, rfl, by decide⟩
  writes := by
    intro b w z gs takes t
    obtain ⟨_, _, _, -, -, part⟩ := shift_takes noTag takes
    change Tag.all (opening ++ Match.group ⟨w, gs⟩ 1 ++ closing ++ t) = _
    rw [List.append_assoc, List.append_assoc, opens, all_operand rfl part, closes]

def powerRewrite : Rewrite := shiftRewrite '^' "<sup>" "</sup>"

def indexRewrite : Rewrite := shiftRewrite '_' "<sub>" "</sub>"

/-- The sign of an integral is shown higher. -/
def integralRewrite : Rewrite := ⟨"&int;", fun m => "<span class=\"high-symbol\">" ++ m.text ++ "</span>"⟩

/-- A root is drawn over its contents. -/
def rootRewrite : Rewrite := ⟨"&radic;[" ++ group 1 (span (· != ']')) ++ "]", fun m =>
  "<span class=\"radic\">&radic;</span><span class=\"sqrt\">" ++ m.group 1 ++ "</span>"⟩

theorem powers_enclose : powerRewrite.Encloses [.opening "sup"] [.closing "sup"] :=
  shift_encloses (by decide) (by decide) ⟨_, rfl⟩ (fun _ => rfl) fun _ => rfl

theorem indices_enclose : indexRewrite.Encloses [.opening "sub"] [.closing "sub"] :=
  shift_encloses (by decide) (by decide) ⟨_, rfl⟩ (fun _ => rfl) fun _ => rfl

theorem spaces_enclose : spaceRewrite.Encloses [] [] where
  advances := .of_passes rfl
  begins := by
    intro c letter
    have other : c ≠ ' ' := by
      rintro rfl
      exact letter (by decide)
    simp [spaceRewrite, span1, mayBegin, other]
  reads := by
    intro b w z gs takes t
    obtain ⟨-, spaces, -, rfl⟩ := takes_span1.1 takes
    refine Tag.all_plain fun mem => ?_
    exact absurd (spaces '<' mem) (by decide)
  starts := fun _ _ _ _ _ => ⟨'&', _, rfl, by decide⟩
  writes := by
    intro b w z gs takes t
    obtain ⟨-, -, -, rfl⟩ := takes_span1.1 takes
    rfl

theorem integrals_enclose : integralRewrite.Encloses [.opening "span"] [.closing "span"] where
  advances := .of_passes rfl
  begins := by
    intro c letter
    have other : c ≠ '&' := by
      rintro rfl
      exact letter (by decide)
    exact mayBegin_literal.trans (beq_eq_false_iff_ne.2 other)
  reads := by
    intro b w z gs takes t
    obtain ⟨rfl, rfl⟩ := takes_literal.1 takes
    rfl
  starts := fun _ _ _ _ _ => ⟨'<', _, rfl, by decide⟩
  writes := by
    intro b w z gs takes t
    obtain ⟨rfl, rfl⟩ := takes_literal.1 takes
    rfl

theorem root_takes {w z : Text} {b : Option Char} {gs : List (Nat × Text)} (h : rootRewrite.pattern.Takes b w z gs) :
    w = "&radic;[" ++ Match.group ⟨w, gs⟩ 1 ++ "]" ∧ ']' ∉ Match.group ⟨w, gs⟩ 1 := by
  obtain ⟨_, _, _, _, rfl, rfl, ⟨_, u, _, _, rfl, rfl, opening, _, ⟨inside, -, rfl⟩, rfl⟩, closing⟩ := h
  obtain ⟨rfl, rfl⟩ := takes_literal.1 opening
  obtain ⟨rfl, rfl⟩ := takes_literal.1 closing
  exact ⟨rfl, fun bracket => absurd (inside ']' bracket) (by decide)⟩

theorem roots_enclose :
    rootRewrite.Encloses [.opening "span", .closing "span", .opening "span"] [.closing "span"] where
  advances := .of_passes rfl
  begins := by
    intro c letter
    have other : c ≠ '&' := by
      rintro rfl
      exact letter (by decide)
    simp [rootRewrite, other]
  reads := by
    intro b w z gs takes t
    obtain ⟨split, -⟩ := root_takes takes
    generalize Match.group ⟨w, gs⟩ 1 = u at split
    have stop : Tag.Stops ']' := by decide
    rw [split, List.append_assoc, List.append_assoc, Tag.all_plain (by decide)]
    exact Tag.all_stops stop u t
  starts := fun _ _ _ _ _ => ⟨'<', _, rfl, by decide⟩
  writes := by
    intro b w z gs takes t
    have stop : Tag.Stops '<' := by decide
    change Tag.all ("<span class=\"radic\">&radic;</span><span class=\"sqrt\">" ++ Match.group ⟨w, gs⟩ 1 ++ "</span>" ++ t) = _
    rw [List.append_assoc, List.append_assoc]
    exact congrArg ([Tag.opening "span", .closing "span", .opening "span"] ++ ·) (Tag.all_stops stop _ _)

/-! ## One rewrite after another -/

/-- The tags of a table with two rows. -/
def cells : List Tag :=
  [.opening "table", .opening "tr", .opening "td", .closing "td", .closing "tr", .opening "tr", .opening "td", .closing "td",
    .closing "tr", .closing "table"]

theorem fraction_tags {b : Option Char} {w z : Text} {gs : List (Nat × Text)} (none : '<' ∉ w)
    (takes : fractionRewrite.pattern.Takes b w z gs) (t : Text) :
    Tag.all (fractionRewrite.replace ⟨w, gs⟩ ++ t) = cells ++ Tag.all t := by
  have plain (i : ℕ) : '<' ∉ Match.group ⟨w, gs⟩ i := fun mem => none (takes.mem_group mem)
  have first (t : Text) : Tag.all ("<table><tr><td>" ++ t) = cells.take 3 ++ Tag.all t := rfl
  have second (t : Text) : Tag.all ("</td></tr><tr><td>" ++ t) = (cells.drop 3).take 4 ++ Tag.all t := rfl
  have last (t : Text) : Tag.all ("</td></tr></table>" ++ t) = cells.drop 7 ++ Tag.all t := rfl
  simp only [fractionRewrite, List.append_assoc]
  rw [first, Tag.all_plain (plain 1), second, Tag.all_plain (plain 2), last]
  rfl

theorem fractions_nested (none : '<' ∉ t) : Tag.Nested (fractionRewrite.apply t) ∧
    ∀ x ∈ Tag.all (fractionRewrite.apply t), x.name ∈ (["table", "tr", "td"] : List Text) := by
  have advances : fractionRewrite.pattern.Advances := .of_passes rfl
  have all {bound : ℕ} {b : Option Char} {t : Text} {ps : List (Piece Match)}
      (scan : Scan (fractionRewrite.pattern.matchAt bound 0) b t ps) (none : '<' ∉ t) :
      Tag.Nested (Piece.assemble fractionRewrite.replace ps) ∧
        ∀ x ∈ Tag.all (Piece.assemble fractionRewrite.replace ps), x.name ∈ (["table", "tr", "td"] : List Text) := by
    induction scan with
    | nil => exact ⟨rfl, nofun⟩
    | plain _ _ ih =>
        rw [List.mem_cons, not_or] at none
        rw [Piece.assemble, Tag.Nested, Tag.all, if_neg (Ne.symm none.1)]
        exact ih none.2
    | @found b w t m ps full matched _ ih =>
        obtain ⟨rfl, takes⟩ := matchAt_found matched
        rw [List.mem_append, not_or] at none
        obtain ⟨nested, names⟩ := ih none.2
        rw [Piece.assemble, Tag.Nested, show fractionRewrite.replace m = fractionRewrite.replace ⟨m.text, m.groups⟩ from rfl,
          fraction_tags none.1 takes]
        have table : Tag.walk [] cells = some [] := by decide
        exact ⟨(Tag.walk_nested table _ _).trans nested, List.forall_mem_append.2 ⟨by decide, names⟩⟩
  exact all (pieces_scan advances t) none

/-- What stands in two texts that are the same, in one of them behind a part without the character that follows. -/
theorem split_behind {c : Char} {w u v z : Text} (none : c ∉ w) (split : w ++ u = v ++ c :: z) :
    ∃ x, v = w ++ x ∧ u = x ++ c :: z := by
  rcases List.append_eq_append_iff.1 split with ⟨x, rfl, rfl⟩ | ⟨x, rfl, behind⟩
  · exact ⟨x, rfl, rfl⟩
  · cases x with
    | nil => exact ⟨[], by simp, behind.symm⟩
    | cons d x =>
        obtain ⟨rfl, -⟩ := List.cons.inj behind
        exact absurd (by simp) none

theorem integral_replace {m : Match} {b : Option Char} {z : Text} (takes : integralRewrite.pattern.Takes b m.text z m.groups) :
    m.text = "&int;" ∧ integralRewrite.replace m = "<span class=\"high-symbol\">&int;</span>" := by
  obtain ⟨text, -⟩ := takes_literal.1 takes
  refine ⟨text, ?_⟩
  change "<span class=\"high-symbol\">" ++ m.text ++ "</span>" = _
  rw [text]
  rfl

section Integrals

variable {bound : ℕ} {b : Option Char} {ps : List (Piece Match)} {u v z : Text}

/-- Up to a square bracket the tags around the sign of an integral stand in pairs. -/
theorem integrals_paired_ahead (scan : Scan (integralRewrite.pattern.matchAt bound 0) b t ps)
    (names : ∀ x ∈ Tag.all t, x.name ≠ "span".toList) (split : Piece.assemble integralRewrite.replace ps = v ++ ']' :: z)
    (inside : ']' ∉ v) : Tag.Paired "span" (Tag.all v) := by
  have stop : Tag.Stops ']' := by decide
  induction scan generalizing v with
  | nil => simp [Piece.assemble] at split
  | @plain b c t ps _ scan ih =>
      cases v with
      | nil => exact .nil
      | cons d v =>
          obtain ⟨rfl, -⟩ := List.cons.inj split
          have rest : Piece.assemble integralRewrite.replace ps = v ++ ']' :: z := (List.cons.inj split).2
          rw [List.mem_cons, not_or] at inside
          have paired := ih (fun x hx => names x (Tag.mem_all_cons hx)) rest inside.2
          rw [Tag.all] at names ⊢
          split
          · rename_i bracket
            rw [if_pos bracket, ← integrals_enclose.read_eq scan, rest, Tag.read_stops stop] at names
            exact .other (names _ List.mem_cons_self) paired
          · exact paired
  | @found b w t m ps full matched _ ih =>
      obtain ⟨rfl, takes⟩ := matchAt_found matched
      obtain ⟨text, written⟩ := integral_replace takes
      rw [text, Tag.all_plain (by decide)] at names
      rw [Piece.assemble, written] at split
      obtain ⟨x, rfl, rest⟩ := split_behind (by decide) split
      have paired : Tag.Paired "span" (Tag.all x) := ih names rest fun mem => inside (List.mem_append_right _ mem)
      exact .pair paired

/-- Between square brackets the tags around the sign of an integral stand in pairs. -/
theorem integrals_paired (names : ∀ x ∈ Tag.all t, x.name ≠ "span".toList)
    (split : integralRewrite.apply t = u ++ '[' :: (v ++ ']' :: z)) (inside : ']' ∉ v) : Tag.Paired "span" (Tag.all v) := by
  have all {bound : ℕ} {b : Option Char} {t : Text} {ps : List (Piece Match)}
      (scan : Scan (integralRewrite.pattern.matchAt bound 0) b t ps) (names : ∀ x ∈ Tag.all t, x.name ≠ "span".toList)
      {u : Text} (split : Piece.assemble integralRewrite.replace ps = u ++ '[' :: (v ++ ']' :: z)) : Tag.Paired "span" (Tag.all v) := by
    induction scan generalizing u with
    | nil => simp [Piece.assemble] at split
    | plain _ scan ih =>
        have later := fun x hx => names x (Tag.mem_all_cons hx)
        cases u with
        | nil => exact integrals_paired_ahead scan later (List.cons.inj split).2 inside
        | cons d u => exact ih later (List.cons.inj split).2
    | found _ matched _ ih =>
        obtain ⟨rfl, takes⟩ := matchAt_found matched
        obtain ⟨text, written⟩ := integral_replace takes
        rw [text, Tag.all_plain (by decide)] at names
        rw [Piece.assemble, written] at split
        obtain ⟨x, rfl, rest⟩ := split_behind (by decide) split
        exact ih names rest
  exact all (pieces_scan integrals_enclose.advances t) names split

end Integrals

/-! ## Whole equations -/

/-- An equation with its fractions. -/
def stacked (equation : Text) : Text := fractionRewrite.apply (untagged equation)

/-- An equation with fractions and powers. -/
def raised (equation : Text) : Text := powerRewrite.apply (stacked equation)

/-- An equation with all tags but those of roots. -/
def rootless (equation : Text) : Text := integralRewrite.apply (spaceRewrite.apply (indexRewrite.apply (raised equation)))

/-- What is found as a power, as an index or in a root. -/
def operands (equation : Text) : List Text :=
  powerRewrite.operands (stacked equation) ++ indexRewrite.operands (raised equation) ++ rootRewrite.operands (rootless equation)

theorem tagRewrites_eq :
    tagRewrites = [fractionRewrite, powerRewrite, indexRewrite, spaceRewrite, integralRewrite, rootRewrite] := rfl

theorem toHtml_rootless (equation : Text) : toHtml equation = rootRewrite.apply (rootless equation) := by
  rw [toHtml_eq, tagRewrites_eq, rootless, raised, stacked, applyAll]
  simp only [List.foldl_cons, List.foldl_nil]

/-- An operand without round brackets holds no tag. -/
theorem shift_operands {opening closing : Text} {before behind : List Tag}
    (encloses : (shiftRewrite s opening closing).Encloses before behind)
    (noTag : (spaced (literal [s])).admits '<' = false) (none : '(' ∉ t) :
    ∀ u ∈ (shiftRewrite s opening closing).operands t, '<' ∉ u := by
  intro u mem
  obtain ⟨m, b, x, z, split, takes, rfl⟩ := encloses.mem_operands mem
  obtain ⟨v, _, _, whole, -, part⟩ := shift_takes noTag takes
  have whole : m.text = v ++ m.group 1 := whole
  rw [split, whole] at none
  have first : ∀ c ∈ (m.group 1 ++ z).head?, c ≠ '(' := by
    rintro c hc rfl
    exact none (by rcases List.mem_append.1 (List.mem_of_mem_head? hc) with mem | mem <;> simp [mem])
  intro bracket
  have solid := (operand_takes part first).2.1 '<' bracket
  simp at solid

theorem integral_operands : ∀ u ∈ integralRewrite.operands t, Tag.Nested u := by
  intro u mem
  obtain ⟨m, _, _, _, -, takes, rfl⟩ := integrals_enclose.mem_operands mem
  obtain ⟨-, groups⟩ := takes_literal.1 takes
  rw [show m.group 1 = [] from Match.group_eq groups]
  rfl

theorem root_operands {u : Text} (mem : u ∈ rootRewrite.operands t) :
    ∃ v z, t = v ++ '[' :: (u ++ ']' :: z) ∧ ']' ∉ u := by
  obtain ⟨m, _, v, z, split, takes, rfl⟩ := roots_enclose.mem_operands mem
  obtain ⟨whole, inside⟩ := root_takes takes
  have whole : m.text = "&radic;[" ++ m.group 1 ++ "]" := whole
  refine ⟨v ++ "&radic;", z, ?_, inside⟩
  rw [split, whole]
  simp

/-- No operand holds a tag if the equation has no brackets. -/
theorem operands_plain {equation : Text} (round : '(' ∉ equation) (square : '[' ∉ equation) :
    ∀ u ∈ operands equation, '<' ∉ u := by
  have adds := adds_tags
  simp only [tagRewrites_eq, List.forall_mem_cons] at adds
  obtain ⟨fractions, powers, indices, spaces, integrals, -⟩ := adds
  have untouched {r : Rewrite} {d : Char} {t : Text} (adds : r.pattern.Advances ∧ r.Adds IsMarkup) (sign : ¬ IsMarkup d)
      (lacks : d ∉ t) : d ∉ r.apply t := by
    have kind (c : Char) (markup : IsMarkup c) : c ≠ d := fun same => sign (same ▸ markup)
    exact fun mem => adds.2.forall_apply adds.1 kind (fun c hc same => lacks (same ▸ hc)) d mem rfl
  have notRound : ¬ IsMarkup '(' := by decide
  have notSquare : ¬ IsMarkup '[' := by decide
  have inStacked : '(' ∉ stacked equation :=
    untouched fractions notRound (untagged_lacks (not_isNote (by decide) (by decide)) round)
  have inRaised : '(' ∉ raised equation := untouched powers notRound inStacked
  have inRootless : '[' ∉ rootless equation :=
    untouched integrals notSquare (untouched spaces notSquare (untouched indices notSquare (untouched powers notSquare
      (untouched fractions notSquare (untagged_lacks (not_isNote (by decide) (by decide)) square)))))
  refine List.forall_mem_append.2 ⟨List.forall_mem_append.2 ⟨?_, ?_⟩, fun u mem => ?_⟩
  · exact shift_operands powers_enclose (by decide) inStacked
  · exact shift_operands indices_enclose (by decide) inRaised
  · obtain ⟨v, z, split, -⟩ := root_operands mem
    rw [split] at inRootless
    exact absurd (by simp) inRootless

/-- The tags of an equation nest exactly if those of every operand do; so they do if the equation has no brackets. -/
theorem toHtml_nested_iff (equation : Text) (noTags : '<' ∉ equation) :
    (Tag.Nested (toHtml equation) ↔ ∀ u ∈ operands equation, Tag.Nested u) ∧
      ('(' ∉ equation → '[' ∉ equation → Tag.Nested (toHtml equation)) := by
  have known {ts : List Tag} {n : Text} {ns : List Text} (apart : n ∉ ns) (h : ∀ x ∈ ts, x.name ∈ ns) :
      ∀ x ∈ ts, x.name ≠ n := fun x hx same => apart (same ▸ h x hx)
  have more {ts : List Tag} {n : Text} {ns : List Text} (h : ∀ x ∈ ts, x.name ∈ ns) : ∀ x ∈ ts, x.name ∈ n :: ns :=
    fun x hx => List.mem_cons_of_mem n (h x hx)
  obtain ⟨fractions, inStacked⟩ : Tag.Nested (stacked equation) ∧
      ∀ x ∈ Tag.all (stacked equation), x.name ∈ (["table", "tr", "td"] : List Text) :=
    fractions_nested (untagged_lacks (not_isNote (by decide) (by decide)) noTags)
  have inRaised : ∀ x ∈ Tag.all (raised equation), x.name ∈ (["sup", "table", "tr", "td"] : List Text) :=
    powers_enclose.names (by decide) (more inStacked)
  have inLowered : ∀ x ∈ Tag.all (indexRewrite.apply (raised equation)),
      x.name ∈ (["sub", "sup", "table", "tr", "td"] : List Text) := indices_enclose.names (by decide) (more inRaised)
  have inSpaced := spaces_enclose.names (by decide) inLowered
  have powers : Tag.Nested (raised equation) ↔ _ :=
    powers_enclose.nested_iff (fun _ _ => rfl) (powers_enclose.fresh (known (by decide) inStacked))
  have indices := indices_enclose.nested_iff (fun _ _ => rfl) (indices_enclose.fresh (known (by decide) inRaised))
  have spaces : ∀ t, Tag.Nested (spaceRewrite.apply t) ↔ Tag.Nested t := fun t => by
    rw [Tag.Nested, (spaces_enclose.wraps t).eq_of_nil, Tag.Nested]
  have integrals := integrals_enclose.nested_iff (fun _ _ => rfl) (integrals_enclose.fresh (known (by decide) inSpaced))
  have roots := roots_enclose.nested_iff (n := "span".toList) (t := rootless equation) (by simp [Tag.walk]) fun u mem => by
    obtain ⟨v, z, split, inside⟩ := root_operands mem
    exact integrals_paired (known (by decide) inSpaced) split inside
  have exactly : Tag.Nested (toHtml equation) ↔ ∀ u ∈ operands equation, Tag.Nested u := by
    have highlighted : ∀ t, ∀ u ∈ integralRewrite.operands t, Tag.Nested u := fun _ => integral_operands
    rw [toHtml_rootless, roots, operands, List.forall_mem_append, List.forall_mem_append, rootless, integrals, spaces, indices,
      powers]
    exact and_congr_left' ⟨fun h => ⟨h.1.1.2, h.1.2⟩, fun h => ⟨⟨⟨fractions, h.1⟩, h.2⟩, highlighted _⟩⟩
  refine ⟨exactly, fun round square => exactly.2 fun u mem => ?_⟩
  rw [Tag.Nested, Tag.all_eq_nil (operands_plain round square u mem)]
  rfl

/-- A fraction with a root and a power above and an index below. -/
theorem toHtml_nested_iff_root : '<' ∉ ("sqrt[int]^(2n)/y_1" : Text) ∧ Tag.Nested (toHtml "sqrt[int]^(2n)/y_1") :=
  ⟨by decide, (toHtml_nested_iff "sqrt[int]^(2n)/y_1" (by decide)).1.2 (by decide +kernel)⟩

/-- A root of a fraction is drawn across the cells of its table. -/
theorem toHtml_not_nested : ¬ ∀ equation : Text, '<' ∉ equation → Tag.Nested (toHtml equation) := by
  intro h
  have crossed : ¬ Tag.Nested (toHtml "sqrt[a/b]") := by decide +kernel
  exact crossed (h _ (by decide))

end Maths

end LessonText
