import LessonText.Proofs.Markup.Places
import LessonText.Proofs.Markup.Equations
import LessonText.Proofs.Markup.Runs
import LessonText.Proofs.Pattern.Direct
import LessonText.Proofs.Unicode.Listed

/-! # Block rules keep wards

Each block rule is sound: it takes no ward into custody with other text, it leaves every other ward in
the draft, and a draft in which nothing was watched stays so.
-/

namespace LessonText.Block

open Draft Pattern Unicode Watch Hazard

variable {hs : List (Hazard (Option Char))}

theorem heading_sound (ends : ∀ level, (watches hs).all (fun x =>
      x.ends ("\n\n<" ++ headingTag level ++ ">") && x.ends ("</" ++ headingTag level ++ ">\n")) = true) :
    Sound (watches hs) (watches hs) heading.apply := by
  refine Sound.of_sharp (List.Subset.refl _) (.of_passes rfl)
    (.of_ends (Opens.lineStart.append.append.append.append.append.append) Closes.lineEnd.append) ?_
  intro past old rest m _ found
  obtain ⟨_, _, _, _, whole, groups, ⟨_, gaps, _, _, rfl, rfl, parts, hgaps, -, rfl⟩, rfl, -, rfl⟩ := found.takes
  obtain ⟨_, trailing, _, _, rfl, rfl, ⟨_, title, _, _, rfl, rfl, lead, _, htitle, rfl⟩, htrailing, -, rfl⟩ := parts
  obtain ⟨_, spaces, _, _, rfl, rfl, ⟨_, signs, _, _, rfl, rfl, ⟨rfl, -, rfl⟩, _, hsigns, rfl⟩, hspaces, rfl⟩ := lead
  obtain ⟨-, isSign, rfl⟩ := takes_some1.1 hsigns
  obtain ⟨-, -, rfl⟩ := takes_few1.1 htitle
  obtain ⟨before, behind, htrim, hbefore, hbehind⟩ := exists_trim title
  have split : text old = (signs ++ spaces ++ before) ++ title.trim ++ (behind ++ trailing ++ gaps) := by
    rw [whole]
    nth_rewrite 1 [htrim]
    simp
  have noMark : '?' ∉ signs ++ spaces ++ before := by
    simp only [List.mem_append, not_or]
    exact ⟨⟨not_mem_of_all isSign rfl, not_mem_of_all hspaces rfl⟩, no_mark_of_spaces hbefore⟩
  have noMark' : '?' ∉ behind ++ trailing ++ gaps := by
    simp only [List.mem_append, not_or]
    exact ⟨⟨no_mark_of_spaces hbehind, not_mem_of_all htrailing rfl⟩, not_mem_of_all hgaps rfl⟩
  have first : m.group 1 = signs := Match.group_eq groups
  have second : m.group 2 = title := Match.group_eq groups
  have replaced : heading.replace m = Pure.pure ("\n\n<" ++ headingTag signs.length ++ ">" ++
      title.trim ++ ("</" ++ headingTag signs.length ++ ">\n")) := by
    simp only [heading, Rule.ofRewrite, first, second, List.append_assoc]
  rw [replaced]
  exact .wrap split noMark noMark' (ends signs.length)

/-! ## Code -/

theorem exists_line (t : Text) :
    ∃ u line, t = u ++ line ∧ u.getLast?.all (· == '\n') = true ∧ '\n' ∉ line := by
  induction t with
  | nil => exact ⟨[], [], rfl, rfl, by simp⟩
  | cons c t ih =>
      obtain ⟨u, line, rfl, last, here⟩ := ih
      by_cases empty : u = []
      · subst empty
        by_cases newline : c = '\n'
        · subst newline
          exact ⟨['\n'], line, rfl, rfl, here⟩
        · exact ⟨[], c :: line, rfl, rfl, by simpa [Ne.symm newline] using here⟩
      · refine ⟨c :: u, line, rfl, ?_, here⟩
        rw [← List.singleton_append, List.getLast?_append_of_ne_nil _ empty]
        exact last

/-- Every line of code begins with spaces or a tab, so no ward is in it. -/
theorem code_no_wards (inside : inBlock ⊆ hs) {bound : Nat} {past old rest : Draft} {m : Match}
    (calm : Calm (watches hs) old) (found : Found code.block bound past old rest m) :
    wards old = [] := by
  by_contra some
  obtain ⟨t, w, e, rfl⟩ := exists_ward some
  obtain ⟨u, line, rfl, last, here⟩ := exists_line t
  obtain ⟨k, key⟩ := key_cons w
  have split : m.text = u ++ line ++ '?' :: (k ++ text e) := by
    rw [found.text]
    simp [Token.text, key]
  obtain ⟨_, s, _, _, starts, line', rfl⟩ := LineRun.line_begins found.match_at rfl rfl split last here
  have inline : ∀ c ∈ line', inLine c = true := by
    intro c hc
    have ne : c ≠ '\n' := by
      rintro rfl
      exact here (by simp [hc])
    simpa [inLine] using ne
  have quiet : ∀ mark : String, mark ∈ ["    ", "\t", "math:", "maths:"] → s ≠ mark.toList := by
    rintro mark hm rfl
    have watched : Watch.ofShape (behind mark.toList inLine [Part.gap]) ∈ watches hs :=
      List.mem_cons_of_mem _ (List.mem_map_of_mem (inside (List.mem_map.2 ⟨mark, hm, rfl⟩)))
    have loud : ¬ (Watch.ofShape (behind mark.toList inLine [Part.gap])).Quiet
        (Draft.chars (u ++ mark.toList ++ line') ++ .ward w :: e) :=
      not_quiet_behind inline matches_gap
    refine loud ?_
    rw [List.append_assoc]
    exact calm _ watched
  rcases starts with spaces | tab
  · exact quiet _ (by simp) (takes_literal.1 spaces).1
  · exact quiet _ (by simp) (takes_literal.1 tab).1

theorem exists_trimmed (t : Text) : ∃ a z, t = a ++ LineRun.trimmed t ++ z ∧ (∀ c ∈ a, isSpace c = true) ∧
    ∀ c ∈ z, isSpace c = true := by
  obtain ⟨z, hz, spaces⟩ := exists_trimEnd (t.dropWhile fun c => c == '\r' || c == '\n')
  refine ⟨t.takeWhile fun c => c == '\r' || c == '\n', z, ?_, fun c hc => ?_, spaces⟩
  · rw [List.append_assoc, LineRun.trimmed, ← hz, List.takeWhile_append_dropWhile]
  · have ends := List.mem_takeWhile_imp hc
    rw [Bool.or_eq_true, beq_iff_eq, beq_iff_eq] at ends
    rcases ends with rfl | rfl <;> rfl

theorem code_replace (m : Match) : code.rule.replace m = do
    return "\n\n<pre><code>" ++ (← Rendering.protect (LineRun.trimmed (code.contents m.text))) ++ "</code></pre>\n\n" := by
  simp only [LineRun.rule, LineRun.render, code, if_true]
  simp

theorem code_sound (inside : inBlock ⊆ hs) (gap : hs.all (safe · [] [none]) = true)
    (ends : (watches hs).all (fun x => x.ends "\n\n<pre><code>" && x.ends "</code></pre>\n\n") = true) :
    Sound (watches hs) (watches hs) code.rule.apply := by
  refine Sound.of_sharp (List.Subset.refl _) (LineRun.block_advances rfl) LineRun.block_sharp ?_
  intro past old rest m calm found
  have quietOld : Calm (watches hs) old :=
    fun x hx => (calm x hx).of_append_right.of_append_left
  obtain ⟨e, contents, perm, edits⟩ := @LineRun.contents_edits code rfl rfl old
  rw [code_no_wards inside quietOld found] at perm ⊢
  have data : keyHazard.Spares (LineRun.trimmed (text e)) := by
    have quiet : Watch.keys.Quiet e := LineRun.quiet_contents (ends_key rfl (by decide)) rfl rfl
      edits (quietOld _ List.mem_cons_self)
    obtain ⟨a, z, trimmed, -⟩ := exists_trimmed (text e)
    exact .of_factor (trimmed ▸ spares_text quiet (List.perm_nil.1 perm))
  rw [code_replace, found.text, contents]
  exact .protect_between gap data ends

/-! ## The other runs, rulers and empty lines -/

theorem ruler_sound (ends : (watches hs).all (·.ends "\n\n<hr>\n\n") = true) :
    Sound (watches hs) (watches hs) ruler.apply :=
  .of_unmarked (.of_passes rfl) Opens.lineStart.append.append.append.append.append.append rfl
    fun _ _ _ _ _ => ends

theorem emptyLines_sound (ends : (watches hs).all (·.ends "\n\n") = true) :
    Sound (watches hs) (watches hs) emptyLines.apply :=
  .of_unmarked (.of_passes rfl) (Opens.literal rfl).append rfl fun _ _ _ _ _ => ends

/-! ## Headings and paragraphs -/

theorem paragraph_closes : paragraph.pattern.Closes := by
  have stop (c : Char) (h : inLine c = false) : Warden.isKeyChar c = false := by
    obtain rfl : c = '\n' := by simpa [inLine] using h
    rfl
  exact Closes.append (.group (.many1 (.append_optional (.span1_of_stop stop)
    (.append_place (.literal rfl rfl)))))

theorem paragraph_sound
    (ends : (watches hs).all (fun x => x.ends "\n\n<p>" && x.ends "</p>\n\n") = true) :
    Sound (watches hs) (watches hs) paragraph.apply := by
  have opens : paragraph.pattern.Opens :=
    Opens.append (Opens.append (.or .textStart (.append (.literal rfl))))
  refine Sound.of_sharp (List.Subset.refl _) (.of_passes rfl) (.of_ends opens paragraph_closes) ?_
  intro past old rest m _ found
  obtain ⟨_, contents, _, _, whole, groups, ⟨start, _, _, _, rfl, rfl, hstart, rfl, rfl⟩, _,
    hcontents, rfl⟩ := found.takes
  have noMark : '?' ∉ start := fun mark => absurd (hstart.admits mark) (by decide)
  have first : m.group 1 = contents := Match.group_eq groups
  have replaced : paragraph.replace m = Pure.pure ("\n\n<p>" ++ contents ++ "</p>\n\n") := by
    simp only [paragraph, Rule.ofRewrite, first]
  rw [replaced]
  exact .wrap (z := []) (by simpa using whole) noMark (by simp) ends

/-- A match that begins inside a key would also begin where the key does. -/
theorem underlined_begins (sign : Char) (tag : Text) : (underlined sign tag).pattern.Begins := by
  intro whole past x k d m n spot found
  by_contra inside
  obtain ⟨before, w, y, rfl, key, -, none⟩ := spot.inside inside
  obtain ⟨r, split, -, -, takes⟩ := matchAt_takes found
  obtain ⟨_, last, _, _, text_eq, -, ⟨_, signs, _, _, rfl, -, ⟨title, newline, _, _, rfl, -,
    ⟨_, htitle, -⟩, hnewline⟩, hsigns⟩, hlast⟩ := takes
  obtain ⟨hne, hin, hstop, -⟩ := takes_span1.1 htitle
  have inKey : ∀ c ∈ y ++ title, inLine c = true := by
    intro c hc
    rcases List.mem_append.1 hc with hc | hc
    · have ofKey := isKeyChar_of_mem_key (w := w) (by rw [key]; exact List.mem_append_left k hc)
      have ne : c ≠ '\n' := by
        rintro rfl
        cases ofKey
      simpa [inLine] using ne
    · exact hin c hc
  have longer : (underlined sign tag).pattern.Takes (text before).getLast? (y ++ m.text) r
      ([] ++ ([] ++ ([] ++ [(1, y ++ title)]))) := by
    refine ⟨y ++ title ++ newline ++ signs, last, _, _, by simp [text_eq], rfl,
      ⟨y ++ title ++ newline, signs, _, _, rfl, rfl, ⟨y ++ title, newline, _, _, rfl, rfl,
        ⟨[], takes_span1.2 ⟨by simp [hne], inKey, by simpa using hstop, rfl⟩, rfl⟩, ?_⟩, ?_⟩, ?_⟩
    · exact takes_literal.2 ⟨(takes_literal.1 hnewline).1, rfl⟩
    · obtain ⟨h₁, h₂, h₃, -⟩ := takes_span1.1 hsigns
      exact takes_span1.2 ⟨h₁, h₂, h₃, rfl⟩
    · exact takes_literal.2 ⟨(takes_literal.1 hlast).1, rfl⟩
  have direct : (underlined sign tag).pattern.Direct := by simp [underlined, Rule.ofRewrite]
  have ahead : w.key ++ text d = y ++ m.text ++ r := by rw [key, List.append_assoc, split, List.append_assoc]
  have fits : (y ++ m.text ++ r).length ≤ (text whole).length := by
    rw [spot.whole, ← ahead]
    simp [Token.text]
  have matched := matchAt_isSome direct fits longer
  rw [← ahead, none] at matched
  cases matched

theorem underlined_sound {sign : Char} {tag : Text} (unmarked : sign ≠ '?')
    (ends : (watches hs).all (fun x =>
      x.ends ("\n\n<" ++ tag ++ ">") && x.ends ("</" ++ tag ++ ">\n\n")) = true) :
    Sound (watches hs) (watches hs) (underlined sign tag).apply := by
  have closes : (underlined sign tag).pattern.Closes := Closes.append (.literal rfl rfl)
  refine Sound.of_sharp (List.Subset.refl _) (.of_passes rfl) ⟨underlined_begins sign tag, closes.ends⟩ ?_
  intro past old rest m _ found
  obtain ⟨_, last, _, _, whole, groups, ⟨_, signs, _, _, rfl, rfl, ⟨title, newline, _, _, rfl, rfl,
    ⟨_, htitle, rfl⟩, hnewline⟩, hsigns⟩, hlast⟩ := found.takes
  obtain ⟨-, -, -, rfl⟩ := takes_span1.1 htitle
  obtain ⟨-, isSign, -, rfl⟩ := takes_span1.1 hsigns
  obtain ⟨rfl, rfl⟩ := takes_literal.1 hnewline
  obtain ⟨rfl, rfl⟩ := takes_literal.1 hlast
  have noMark : '?' ∉ ("\n" : Text) ++ signs ++ ("\n" : Text) := by
    have notSign : '?' ∉ signs := not_mem_of_all isSign (by simpa using unmarked.symm)
    simpa using notSign
  have first : m.group 1 = title := Match.group_eq groups
  have replaced : (underlined sign tag).replace m =
      Pure.pure ("\n\n<" ++ tag ++ ">" ++ title ++ ("</" ++ tag ++ ">\n\n")) := by
    simp only [underlined, Rule.ofRewrite, first, List.append_assoc]
  rw [replaced]
  exact .wrap (a := []) (by simpa using whole) (by simp) noMark ends

/-! ## Equations -/

theorem equation_sharp : equation.pattern.Sharp :=
  .of_ends (Opens.lineStart.append.append.append.append.append.append.append.append) Closes.lineEnd.append

/-- There is no ward in an equation on a line of its own. -/
theorem equation_found (inside : inBlock ⊆ hs) {bound : Nat} {past old rest : Draft} {m : Match} (calm : Calm (watches hs) old)
    (found : Found equation.pattern bound past old rest m) :
    wards old = [] ∧ keyHazard.Spares (Maths.toHtml (m.group 1)) := by
  obtain ⟨_, _, _, _, whole, groups, ⟨_, trailing, _, _, rfl, rfl, parts, htrailing⟩, rfl, -, rfl⟩ := found.takes
  obtain ⟨_, content, _, _, rfl, rfl, ⟨_, gaps', _, _, rfl, rfl, ⟨_, colon, _, _, rfl, rfl, marked, hcolon⟩, hgaps'⟩,
    _, hcontent, rfl⟩ := parts
  obtain ⟨_, plural, _, _, rfl, rfl, ⟨_, math, _, _, rfl, rfl, ⟨_, gaps, _, _, rfl, rfl, ⟨rfl, -, rfl⟩, hgaps⟩, hmath⟩,
    hplural⟩ := marked
  obtain ⟨isGap, -, rfl⟩ := hgaps
  obtain ⟨rfl, rfl⟩ := takes_literal.1 hmath
  obtain rfl := hplural.groups_eq_nil rfl
  obtain ⟨rfl, rfl⟩ := takes_literal.1 hcolon
  obtain ⟨isGap', rfl⟩ := hgaps'
  obtain ⟨-, isContent, rfl⟩ := takes_few1.1 hcontent
  obtain ⟨isTrailing, -, rfl⟩ := htrailing
  have first : m.group 1 = content := Match.group_eq groups
  let mark : Text := "math" ++ plural ++ ":"
  have split : text old = gaps ++ mark ++ (gaps' ++ content ++ trailing) := by
    simpa [mark] using whole
  have listed : mark = "math:".toList ∨ mark = "maths:".toList := by
    rcases hplural with h | ⟨rfl, -⟩
    · rw [show mark = "math" ++ plural ++ ":" from rfl, (takes_literal.1 h).1]
      exact .inr rfl
    · exact .inl rfl
  have noGapMark : '?' ∉ gaps := not_mem_of_all isGap rfl
  have ofGap (c : Char) (h : Pattern.isGap c = true) : inLine c = true := by
    have ne : c ≠ '\n' := by
      rintro rfl
      cases h
    simpa [inLine] using ne
  have inline : ∀ c ∈ gaps' ++ content ++ trailing, inLine c = true := by
    intro c hc
    rcases List.mem_append.1 hc with hc | hc
    · rcases List.mem_append.1 hc with hc | hc
      · exact ofGap c (isGap' c hc)
      · exact isContent c hc
    · exact ofGap c (isTrailing c hc)
  have watched : Watch.ofShape (behind mark inLine [Part.gap]) ∈ watches hs := by
    refine List.mem_cons_of_mem _ (List.mem_map_of_mem (inside ?_))
    rcases listed with e | e <;> rw [e] <;> simp [inBlock]
  have noMark : '?' ∉ gaps ++ mark := by
    rcases listed with e | e <;> rw [e] <;> simp [noGapMark]
  have none := wards_behind (calm _ watched) matches_gap split noMark inline
  refine ⟨none, ?_⟩
  rw [first]
  refine Maths.spares_toHtml (.of_factor (a := gaps ++ mark ++ gaps') (z := trailing) ?_)
  have quiet := spares_text (calm _ List.mem_cons_self) none
  rw [split] at quiet
  simpa using quiet

theorem equation_sound (inside : inBlock ⊆ hs) (gap : hs.all (safe · [] [none]) = true)
    (ends : (watches hs).all (fun x =>
      x.ends "\n\n<div class=\"maths\">" && x.ends "</div>\n\n") = true) :
    Sound (watches hs) (watches hs) equation.apply := by
  refine Sound.of_sharp (List.Subset.refl _) (.of_passes rfl) equation_sharp ?_
  intro past old rest m calm found
  obtain ⟨none, data⟩ := equation_found inside (fun x hx => (calm x hx).of_append_right.of_append_left) found
  have replaced : equation.replace m = do
      return "\n\n<div class=\"maths\">" ++ (← Rendering.protect (Maths.toHtml (m.group 1))) ++
        "</div>\n\n" := by
    simp only [equation]
  rw [replaced, none]
  exact .protect_between gap data ends

/-- Every block rule keeps the wards of a draft in which nothing is watched, and leaves such a draft. -/
theorem rules_sound (items : Bool) : ∀ r ∈ rules ++ paragraphRules,
    Sound (watches (ofBlocks items)) (watches (ofBlocks items)) r.apply := by
  have all {p : Watch → Bool} (h : (watches (ofBlocks true)).all p = true) :
      (watches (ofBlocks items)).all p = true :=
    List.all_eq_true.2 fun x hx => List.all_eq_true.1 h x (watches_subset (ofBlocks_subset items) hx)
  have headings : ∀ n ≤ 6, (watches (ofBlocks true)).all (fun x =>
      x.ends ("\n\n<" ++ ("h" ++ Text.decimal n) ++ ">") &&
        x.ends ("</" ++ ("h" ++ Text.decimal n) ++ ">\n")) = true := by decide
  have heading (level : Nat) := all (headings _ (Nat.min_le_right level 6))
  have gap : (ofBlocks items).all (safe · [] [none]) = true := by cases items <;> decide
  have inside : inBlock ⊆ ofBlocks items := List.subset_append_left _ _
  have newline := all (p := (·.ends "\n")) (by decide)
  have line := all (p := fun x => x.opens "<li>" && x.keeps "</li>") (by decide)
  simp only [rules, paragraphRules, List.cons_append, List.nil_append, List.forall_mem_cons]
  exact ⟨underlined_sound (by decide) (all (by decide)),
    underlined_sound (by decide) (all (by decide)),
    heading_sound heading,
    LineRun.rule_sound rfl rfl rfl rfl newline (all (by decide)) (all (by decide)),
    code_sound inside gap (all (by decide)),
    ruler_sound (all (by decide)),
    LineRun.rule_sound rfl rfl rfl rfl newline line (all (by decide)),
    LineRun.rule_sound rfl rfl rfl rfl newline line (all (by decide)),
    equation_sound inside gap (all (by decide)),
    paragraph_sound (all (by decide)),
    emptyLines_sound (all (by decide)), by simp⟩

end LessonText.Block
