import LessonText.Proofs.Markup.Nesting
import LessonText.Proofs.Page.Tags

/-! # The tags of an equation

An equation without opening brackets gets whole tags and nothing but whole tags, whatever its operands are: operands may
begin and end between tags only.
-/

namespace LessonText.Page

open Pattern Unicode Reader Maths

variable {tags : List Spelling} {t : Text}

/-- A rewrite that finds its matches between tags, and writes whole tags. -/
theorem rewrite_accepts (plain : Tagless tags) {r : Rewrite} (advances : r.pattern.Advances)
    (each : ∀ b w z m s, m.text = w → r.pattern.Takes b w z m.groups → (whole tags).Reads s (w ++ z) →
      s = none ∧ (whole tags).run none w = some none ∧ (whole tags).run none (r.replace m) = some none)
    (accepts : (whole tags).Accepts t) : (whole tags).Accepts (r.apply t) := by
  refine Rewrite.apply_carries plain.marked.follows advances (fun b old rest m s same takes _ reads => ?_) accepts
  obtain ⟨rfl, read, written⟩ := each b old rest m s same takes reads
  obtain ⟨q, first, later⟩ := reads_append.1 reads
  obtain rfl := Option.some.inj (read.symm.trans first)
  exact ⟨none, written, later, fun _ => rfl⟩

/-- A text between two others that all lead back to the start. -/
theorem run_between {u v w : Text} (opening : (whole tags).run none u = some none) (inner : (whole tags).run none v = some none)
    (closing : (whole tags).run none w = some none) : (whole tags).run none (u ++ v ++ w) = some none := by
  rw [List.append_assoc, run_append_of opening, run_append_of inner]
  exact closing

theorem fraction_accepts (plain : '<' ∉ t) : (whole bareTags).Accepts (fractionRewrite.apply t) := by
  have follows : Follows (whole []) (whole bareTags) id := Tagless.follows (by decide) (List.nil_subset _)
  refine Rewrite.apply_carries follows (.of_passes rfl) (fun b old rest m s same takes _ reads => ?_) (whole_plain plain)
  obtain ⟨rfl, none⟩ := reads_untagged reads
  rw [List.mem_append, not_or] at none
  subst same
  have group (i : ℕ) : (whole bareTags).run Option.none (m.group i) = some Option.none :=
    whole_run fun mem => none.1 (takes.mem_group mem)
  exact ⟨Option.none, run_between (run_between (by decide) (group 1) (by decide)) (group 2) (by decide), whole_plain none.2,
    fun _ => rfl⟩

/-- No tag without attributes holds white space or the sign of a power. -/
theorem bareTags_lack {c : Char} (h : isSpace c = true ∨ c = '^') : ∀ p ∈ bareTags, ∀ f ∈ p, f c = false := by
  have all : (charsOf spaceRanges).all (fun c => bareTags.all fun p => p.all fun f => !f c) = true := by decide +kernel
  rcases h with space | rfl
  · simpa using of_isSpace all space
  · decide

/-- An operand ends between tags. -/
theorem operand_run (plain : Tagless tags) {cls : Char → Bool} (noTag : cls '<' = false) {b : Option Char} {w z : Text}
    {gs : List (ℕ × Text)} (takes : (operand cls).Takes b w z gs) {q : Option Text} (h : (whole tags).run none w = some q) :
    q = none := by
  rcases takes_or.1 takes with ⟨inner, close, _, _, rfl, -, -, bracket⟩ | run
  · obtain ⟨rfl, -⟩ := takes_literal.1 bracket
    refine run_returns (A := whole tags) (fun c hc => ?_) (by simp) h
    obtain rfl : ')' = c := by simpa using hc
    exact (plain.lands (by decide) (by decide)).returns
  · have unbracketed : '<' ∉ w := fun mem => Bool.false_ne_true (noTag.symm.trans ((takes_span1.1 run).2.1 '<' mem))
    exact Option.some.inj (h.symm.trans (whole_run unbracketed))

/-- A power or an index is put between tags. -/
theorem shift_accepts {sign : Char} (known : sign = '^' ∨ sign = '_') {opening closing : Text}
    (before : (whole bareTags).run none opening = some none) (behind : (whole bareTags).run none closing = some none)
    (accepts : (whole bareTags).Accepts t) : (whole bareTags).Accepts ((shiftRewrite sign opening closing).apply t) := by
  refine rewrite_accepts bareTags_tagless shift_advances (fun b w z m s same takes reads => ?_) accepts
  obtain ⟨v, u, _, _, rfl, groups, signs, _, part, rfl⟩ := takes
  obtain ⟨x, y, z', _, _, _, rfl, spaces, exactly⟩ := spaced_takes signs
  obtain ⟨rfl, -⟩ := takes_literal.1 exactly
  have lead : '<' ∉ x ++ ([sign] ++ z') := fun mem => by
    have admitted := signs.admits mem
    rcases known with rfl | rfl <;> cases admitted
  have start : s = none := by
    cases x with
    | nil =>
        obtain ⟨q, step, -⟩ := reads_cons.1 (show (whole bareTags).Reads s (sign :: (z' ++ u ++ z)) by simpa using reads)
        rcases known with rfl | rfl
        · exact whole_outside (bareTags_lack (.inr rfl)) (by decide) step
        · exact bareTags_tagless.home (by decide) (by decide) step
    | cons c x =>
        obtain ⟨q, step, -⟩ := reads_cons.1 (show (whole bareTags).Reads s (c :: (x ++ sign :: (z' ++ u ++ z))) by simpa using reads)
        have space : isSpace c = true := spaces c List.mem_cons_self
        exact whole_outside (bareTags_lack (.inl space)) (by rintro rfl; cases space) step
  subst start
  rw [List.append_assoc, reads_append] at reads
  obtain ⟨r, first, later⟩ := reads
  obtain rfl := Option.some.inj ((whole_run lead).symm.trans first)
  obtain ⟨q, inner, -⟩ := reads_append.1 later
  obtain rfl := operand_run bareTags_tagless rfl part inner
  have group : m.group 1 = u := Match.group_eq groups
  refine ⟨rfl, (run_append_of first).trans inner, ?_⟩
  simp only [shiftRewrite, group]
  exact run_between before inner behind

theorem spaces_accept (accepts : (whole bareTags).Accepts t) : (whole bareTags).Accepts (spaceRewrite.apply t) := by
  refine rewrite_accepts bareTags_tagless (.of_passes rfl) (fun b w z m s same takes reads => ?_) accepts
  obtain ⟨full, spaces, -⟩ := takes_span1.1 takes
  obtain ⟨c, w, rfl⟩ := List.exists_cons_of_ne_nil full
  obtain rfl : c = ' ' := beq_iff_eq.1 (spaces c List.mem_cons_self)
  obtain ⟨q, step, -⟩ := reads_cons.1 reads
  refine ⟨whole_outside (bareTags_lack (.inl rfl)) (by decide) step, whole_run fun mem => ?_,
    whole_run (show '<' ∉ ("&nbsp;" : Text) by decide)⟩
  exact absurd (spaces '<' mem) (by decide)

theorem integrals_accept (accepts : (whole Page.tags).Accepts t) : (whole Page.tags).Accepts (integralRewrite.apply t) := by
  refine rewrite_accepts tags_tagless (.of_passes rfl) (fun b w z m s same takes reads => ?_) accepts
  subst same
  obtain ⟨text, written⟩ := integral_replace takes
  rw [text] at reads ⊢
  obtain ⟨q, step, -⟩ := reads_cons.1 reads
  refine ⟨tags_tagless.home (by decide) (by decide) step, whole_run (by decide), ?_⟩
  rw [written]
  decide

theorem roots_accept (accepts : (whole Page.tags).Accepts t) : (whole Page.tags).Accepts (rootRewrite.apply t) := by
  refine rewrite_accepts tags_tagless (.of_passes rfl) (fun b w z m s same takes reads => ?_) accepts
  subst same
  obtain ⟨whole', -⟩ := root_takes takes
  have split : m.text = "&radic;[" ++ m.group 1 ++ "]" := whole'
  rw [split] at reads ⊢
  obtain rfl : s = none := by
    obtain ⟨q, step, -⟩ := reads_cons.1 reads
    exact tags_tagless.home (by decide) (by decide) step
  have mark : (whole Page.tags).run none "&radic;[" = some none := whole_run (by decide)
  rw [List.append_assoc, List.append_assoc, reads_append] at reads
  obtain ⟨r, first, later⟩ := reads
  obtain rfl := Option.some.inj (mark.symm.trans first)
  obtain ⟨q, inner, later⟩ := reads_append.1 later
  obtain ⟨_, step, -⟩ := reads_cons.1 later
  obtain rfl := tags_tagless.home (by decide) (by decide) step
  exact ⟨rfl, run_between mark inner (whole_run (by decide)), run_between (by decide) inner (by decide)⟩

/-- An equation without opening brackets is written with whole tags. -/
theorem toHtml_tagged {equation : Text} (plain : '<' ∉ equation) : Tagged IsTag (toHtml equation) := by
  have none : '<' ∉ untagged equation := untagged_lacks (not_isNote (by decide) (by decide)) plain
  have powers : (whole bareTags).Accepts (raised equation) :=
    shift_accepts (.inl rfl) (by decide) (by decide) (fraction_accepts none)
  have spaced : (whole bareTags).Accepts (spaceRewrite.apply (indexRewrite.apply (raised equation))) :=
    spaces_accept (shift_accepts (.inr rfl) (by decide) (by decide) powers)
  have all : (whole Page.tags).Accepts (toHtml equation) := by
    rw [toHtml_rootless]
    exact roots_accept (integrals_accept ((bareTags_tagless.follows bareTags_subset).accepts spaced))
  exact tags_tagless.tagged isTag_of_spells all

end LessonText.Page
