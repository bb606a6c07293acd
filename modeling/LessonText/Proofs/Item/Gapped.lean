import LessonText.Proofs.Metadata
import LessonText.Proofs.Reader.Fragments
import LessonText.Proofs.Text.Hidden

/-! # The gaps of an item

The words that are recorded and the markup of gaps belong together: the rule for gaps writes the one for the other into a page in
which no gap begins, the rules behind it and what comes out of custody leave that markup as it is, and begin no other.
-/

namespace LessonText

open Pattern Unicode Rendering

namespace Leading

variable {s q : Fin 25} {t : Text}

/-- A page begins no gap, and nor does what it has in custody. -/
theorem page_accepts (gaps : List Text) (t : Text) :
    Ensures (Session.Keeps custody.Accepts gaps) (Markup.page t) page.Accepts := by
  have bracket : ∀ s q, page.step s '<' = some q → s = 0 := by decide
  exact Markup.page_ensures fits source_custody marked_page custody_custody source_page (by decide) (by decide)
    (fun c space => stays rfl fun same => by rw [same] at space; cases space) marked_page.follows
    (fun s q _ _ first _ _ => bracket s q first) (opening_ensures sanitise_accepts t)

theorem page_reads_home (h : page.Reads s t) : page.Reads 0 t := Reader.refusing_reads_home rfl (by decide) (by decide) h

theorem page_shows_home {words : List Text} (h : page.Shows s t words) : page.Shows 0 t words := by
  refine h.at_home (fun s q c step => ?_) (by decide)
  obtain ⟨q', read, place⟩ := page_home (s := s) (q := q) (t := [c]) (by rw [Reader.run_cons, step]; rfl)
  rw [Reader.run_cons, Option.bind_eq_some_iff] at read
  obtain ⟨p, step', same⟩ := read
  exact ⟨p, step', Option.some.inj same ▸ place⟩

/-- Behind the name of a tag only its first attribute may stand. -/
theorem page_tagged {c : Char} (cls : c ≠ 'c') (data : c ≠ 'd') : page.step 6 c = none := by
  have next : word[(6 : Fin 25).val]? ≠ some c := fun same => cls (Option.some.inj same).symm
  have firm : firmOnPage (6 : Fin 25).val c = false := by simp [firmOnPage, firmInSource, data]
  simp only [page, Reader.refusing, if_neg next, firm, Bool.false_eq_true, or_false]
  exact if_neg (by decide)

end Leading

/-! ## Values -/

/-- No value begins a tag. -/
def Metadata.Unbracketed (metadata : Metadata) : Prop := ∀ entry ∈ metadata.entries, '<' ∉ entry.2

theorem Metadata.unbracketed (header : Text) : (ofHeader header).Unbracketed :=
  fun entry listed => (values_safe header entry listed).noBracket

open Leading

namespace Item

variable {mark : Pattern} {f : Char → Bool} {I : Session → Prop}

/-- A mark that cannot stand behind a space or a bracket in the markup of a gap, nor in the middle of what it begins with. -/
structure Apart (mark : Pattern) (f : Char → Bool) : Prop where
  plain : mark.groupless = true
  passes : mark.passes = true
  unbracketed : mark.admits '<' = false
  begins : Begins mark f
  other : ∀ c ∈ (" >cad<" : Text), f c = false

namespace Apart

variable (h : Apart mark f)
include h

theorem blind (bound : ℕ) : Finder.Blind ((pattern mark).matchAt bound 0) := by
  intro b g word u c v t isGap split bracket
  have markup {d : Char} (mem : d ∈ g) : d ≠ '?' ∧ d ≠ '\n' := by
    have all := List.all_eq_true.1 isGap.all_markup d mem
    constructor <;> rintro rfl <;> cases all
  obtain ⟨unmarked, inLine⟩ := markup (d := c) (by simp [split])
  refine Misses.matchAt ?_
  obtain ⟨x, begun, -⟩ := isGap.exists_read
  cases u with
  | nil =>
      obtain rfl : c = '<' := (List.cons.inj (split.symm.trans begun)).1
      exact pattern_misses h.begins (h.other _ (by decide)) (by decide) fun sign => absurd sign (by decide)
  | cons a u =>
      obtain rfl : a = '<' := (List.cons.inj (split.symm.trans begun)).1
      by_cases sign : c ∈ (" >" : Text)
      · obtain ⟨d, listed, first⟩ := (isGap.behind split).1 (by simpa using sign)
        obtain ⟨v, rfl⟩ := List.head?_eq_some_iff.1 first
        have known : d ∈ (" >cad<" : Text) := List.mem_append_right (" >" : Text) listed
        refine pattern_misses h.begins (h.other c (List.mem_append_left ("cad<" : Text) sign)) unmarked fun _ e same => ?_
        obtain rfl : d = e := Option.some.inj same
        exact h.other d known
      · have line : (('<' :: u).getLast?.or b).all (· == '\n') = false := by
          rw [List.getLast?_eq_some_getLast (List.cons_ne_nil _ _)]
          exact beq_eq_false_iff_ne.2 (markup (by rw [split]; exact List.mem_append_left _ (List.getLast_mem _))).2
        have passes : (pattern mark).Passes (('<' :: u).getLast?.or b) [c] (v ++ t) := pattern_passes line fun d hd => by
          obtain rfl := List.mem_singleton.1 hd
          simpa [inLine, unmarked] using sign
        exact passes.misses

/-- What stands before a mark leads to where no gap has begun, and is not lost. -/
theorem before {b : Option Char} {t u v w z r : Text} {m : Match} {s q : Fin 25} (parts : Parts mark b t m u v w z r)
    (line : b.all (· == '\n') = true → s = 0) (read : page.run s m.text = some q) :
    page.run s (m.group 1) = some 0 ∧ (m.text.head? = some '>' → (m.group 1).head? = some '>') := by
  obtain ⟨_, _, marked⟩ := parts.mark
  obtain ⟨d, v, rfl, first⟩ := h.begins _ _ _ _ marked
  have apart : ∀ c ∈ (" >cad<" : Text), d ≠ c := by
    rintro c listed rfl
    rw [h.other d listed] at first
    cases first
  rw [parts.text_eq] at read ⊢
  rw [parts.first]
  rcases parts.before with (⟨rfl, start, -⟩ | ⟨a, sign, rfl, -⟩) | marks
  · exact ⟨congrArg some (line start), fun same => absurd (Option.some.inj same) (apart '>' (by decide))⟩
  · refine ⟨?_, fun same => same⟩
    obtain ⟨p, step, later⟩ := Option.bind_eq_some_iff.1 (Reader.run_cons (A := page) ▸ read)
    have ends : ∀ a ∈ (" >" : Text), ∀ s p, page.step s a = some p → p = 0 ∨ p = 6 := by decide
    rcases ends a (List.contains_iff_mem.1 sign) s p step with rfl | rfl
    · rw [Reader.run_cons, step]
      rfl
    · have later : page.run 6 (d :: (v ++ (w ++ z))) = some q := later
      rw [Reader.run_cons, page_tagged (apart 'c' (by decide)) (apart 'd' (by decide))] at later
      cases later
  · obtain ⟨rfl, -⟩ := takes_literal.1 marks
    obtain ⟨p, marks, -⟩ := Option.bind_eq_some_iff.1 (Reader.run_append (A := page) ▸ read)
    have ends : ∀ s p, page.run s "???" = some p → p = 0 := by decide
    exact ⟨ends s p marks ▸ marks, fun same => absurd (Option.some.inj same) (by decide)⟩

theorem advances : (pattern mark).Advances := .of_passes (by
  change ((start.passes || mark.passes) || _ || _ || _) = true
  rw [h.passes, Bool.or_true]
  rfl)

/-- No bracket begins in what is found. -/
theorem found {bound : ℕ} {b : Option Char} {w t : Text} {m : Match}
    (found : (pattern mark).matchAt bound 0 b (w ++ t) = some (m, w.length)) : m.text = w ∧ '<' ∉ w := by
  have admits : (pattern mark).admits '<' = false := by
    change ((_ || mark.admits '<') || _ || _ || _) = false
    rw [h.unbracketed]
    rfl
  obtain ⟨rfl, takes⟩ := matchAt_found found
  refine ⟨rfl, fun bracket => ?_⟩
  have admitted := takes.admits bracket
  rw [admits] at admitted
  cases admitted

/-- A rule for items that writes what leads back to the start keeps the gaps of a page. -/
theorem shows {r : Rule} (same : r.pattern = pattern mark) (each : ∀ m, '<' ∉ m.group 2 → Ensures I (r.replace m) fun new =>
    ∃ u, new = m.group 1 ++ u ∧ page.run 0 u = some 0) {t : Text} {words : List Text} (shown : page.Shows 0 t words) :
    Ensures I (r.apply t) fun u => page.Shows 0 u words := by
  rw [Rule.apply, same]
  refine (Reader.Shows.along (A := page) (motive := fun b s t words ps => (b.all (· == '\n') = true → s = 0) →
    Ensures I (Piece.assembleM r.replace ps) (page.Preserves s words t)) (h.blind _)
    (fun _ _ _ _ matched => (h.found matched).2) ?_ ?_ ?_ ?_ (pieces_scan h.advances t) shown fun _ => rfl).mono
    fun _ kept => kept.shows
  · exact fun b s calm _ => .pure (.nil calm)
  · intro b s q c t words ps step ih _
    refine (ih fun newline => ?_).bind fun u later => .pure (.char step later)
    obtain rfl : c = '\n' := by simpa using newline
    exact marked_page.follows.newline s q step
  · intro b g t word words ps isGap bracket ih _
    rw [Piece.assembleM_plain]
    exact .map ((ih fun _ => rfl).mono fun u later => .gap isGap bracket later)
  · intro b s q w t m words ps full matched read later ih line
    obtain ⟨text, unbracketed⟩ := h.found matched
    obtain ⟨u, v, x, z, r', parts⟩ := matchAt_parts h.plain matched
    obtain ⟨before, bracket⟩ := h.before parts line (text ▸ read)
    have inside : '<' ∉ m.group 2 := fun bracket => by
      rw [parts.word] at bracket
      refine unbracketed (text ▸ parts.text_eq ▸ ?_)
      simp [bracket]
    refine (each m inside).bind fun new ⟨u, written, home⟩ => ?_
    refine (ih 0 (page_shows_home later) fun _ => rfl).bind fun rest kept => .pure ⟨?_, fun head => ?_⟩
    · rw [written]
      exact .append ((Reader.run_append_of before).trans home) kept.shows
    · obtain ⟨c, w, rfl⟩ := List.exists_cons_of_ne_nil full
      obtain ⟨y, first⟩ := List.head?_eq_some_iff.1 (bracket (text ▸ head))
      rw [written, first]
      rfl

end Apart

theorem apart_fold {c : Char} {t : Text} (plain : (literalFold (c :: t)).groupless = true)
    (unbracketed : (literalFold (c :: t)).admits '<' = false) (other : ∀ d ∈ (" >cad<" : Text), sameLetter c d = false) :
    Apart (literalFold (c :: t)) (sameLetter c) where
  plain := plain
  passes := rfl
  unbracketed := unbracketed
  begins := begins_fold c t
  other := other

theorem apart_emoji : Apart (literalFold "emoji:") (sameLetter 'e') := apart_fold rfl rfl (by decide)

theorem apart_meta : Apart (literalFold "meta:") (sameLetter 'm') := apart_fold rfl rfl (by decide)

theorem apart_dots : Apart "..." (· == '.') where
  plain := rfl
  passes := rfl
  unbracketed := rfl
  begins := begins_literal '.' ".."
  other := by decide

/-! ## What is written -/

theorem error_run (message : Text) : page.run 0 ("<span " ++ Attribute.hiddenError message) = some 0 := by
  have opening : page.run 0 "<span data-error=\"" = some 0 := by decide
  have inside : page.run 0 (Attribute.encode message) = some 0 := page_run fun bracket => (plain_of_mem_encode bracket).2.2 rfl
  have whole : page.run 0 ("<span data-error=\"" ++ Attribute.encode message ++ "\"") = some 0 :=
    (Reader.run_append_of ((Reader.run_append_of opening).trans inside)).trans (page_run (by decide))
  exact whole

theorem emoji_shown_run (definition : Text) : page.run 0 (Emoji.shown definition) = some 0 := by
  have mark : page.run 0 ">&#x2754;</span>" = some 0 := by decide
  have unknown : page.run 0 (Emoji.unknown definition) = some 0 :=
    (Reader.run_append_of (error_run ("Cannot find emoji " ++ definition))).trans mark
  unfold Emoji.shown
  split
  · exact page_run (by decide)
  · cases found : Emoji.lookup? (upperText definition) with
    | none => exact unknown
    | some u =>
        refine page_run fun bracket => ?_
        have entity := List.all_eq_true.1 (Emoji.all_lookup? found) '<' bracket
        exact absurd entity (by decide)

theorem emojiTag_run (m : Match) : page.run 0 ('<' :: emojiTag m) = some 0 := by
  have all : ∀ cls ∈ [] :: emojiClasses, page.run 0 ('<' :: ("span class=\"" ++ classes "emoji" cls ++ "\">")) = some 0 := by
    decide
  refine all (safeClass (m.group 3)) ?_
  unfold safeClass
  dsimp only
  split
  · rename_i listed
    exact List.mem_cons_of_mem _ (List.contains_iff_mem.1 listed)
  · exact List.mem_cons_self

variable {gaps words : List Text} {t : Text}

theorem emoji_shows (shown : page.Shows 0 t words) :
    Ensures (Session.Keeps custody.Accepts gaps) (emoji.apply t) fun u => page.Shows 0 u words := by
  refine apart_emoji.shows rfl (fun m _ => ?_) shown
  have closing : page.run 0 "</span>" = some 0 := by decide
  have tags := (Reader.run_append_of (emojiTag_run m)).trans (emoji_shown_run (m.group 2))
  have written := (Reader.run_append_of tags).trans closing
  have whole : '<' :: (emojiTag m ++ Emoji.shown (m.group 2) ++ "</span" ++ ">") =
      '<' :: emojiTag m ++ Emoji.shown (m.group 2) ++ "</span>" := by simp
  rw [emoji_writes, Emoji.render_eq]
  split <;> exact fun s held => ⟨held, _, congrArg (m.group 1 ++ ·) whole, written⟩

theorem value_shows {metadata : Metadata} (plain : metadata.Unbracketed) (shown : page.Shows 0 t words) :
    Ensures (Session.Keeps custody.Accepts gaps) ((value metadata).apply t) fun u => page.Shows 0 u words := by
  refine apart_meta.shows rfl (fun m inside => ?_) shown
  rw [value_writes]
  have error (key : Text) (plain : '<' ∉ key) :
      page.run 0 ("<span " ++ Attribute.hiddenError ("Cannot find metadata " ++ key) ++ ">" ++ key ++ "</span>") = some 0 := by
    have opening := (Reader.run_append_of (error_run ("Cannot find metadata " ++ key))).trans (page_run (t := ">") (by decide))
    refine (Reader.run_append_of ((Reader.run_append_of opening).trans (page_run plain))).trans ?_
    decide
  refine .pure ⟨_, rfl, ?_⟩
  unfold shownValue
  extract_lets text
  have unbracketed : '<' ∉ text := by
    change '<' ∉ if _ then _ else _
    split
    · exact List.not_mem_nil
    · cases found : metadata.get? (m.group 2) with
      | none => exact List.not_mem_nil
      | some text => exact plain _ (mem_of_lookup found)
  split
  · exact error _ inside
  · exact page_run unbracketed

/-- The rule for gaps records the words of the gaps that it writes. -/
theorem gap_shows (accepts : page.Accepts t) (s : Session) : ∃ words, page.Shows 0 (gap.apply t s).1 words ∧
    (gap.apply t s).2 = { s with gaps := s.gaps ++ words } := by
  have all {bound : ℕ} {b : Option Char} {t : Text} {ps : List (Piece Match)}
      (scan : Scan (gap.pattern.matchAt bound 0) b t ps) : ∀ p s, (b.all (· == '\n') = true → p = 0) → page.Reads p t →
      ∃ words, page.Shows p (Piece.assembleM gap.replace ps s).1 words ∧
        (Piece.assembleM gap.replace ps s).2 = { s with gaps := s.gaps ++ words } := by
    induction scan with
    | nil =>
        intro p s _ reads
        exact ⟨[], .of_reads reads, by rw [List.append_nil]; rfl⟩
    | @plain b c t ps none _ ih =>
        intro p s _ reads
        obtain ⟨q, step, later⟩ := Reader.reads_cons.1 reads
        have line (newline : (some c).all (· == '\n') = true) : q = 0 := by
          obtain rfl : c = '\n' := by simpa using newline
          exact marked_page.follows.newline p q step
        obtain ⟨words, shown, recorded⟩ := ih q s line later
        exact ⟨words, .char step shown, recorded⟩
    | @found b w t m ps full matched _ ih =>
        intro p s line reads
        obtain ⟨rest, split, length, -, -⟩ := Pattern.matchAt_takes matched
        obtain ⟨same, rfl⟩ := List.append_inj split length
        obtain ⟨u, v, x, z, r', parts⟩ := matchAt_parts rfl matched
        obtain ⟨q, read, later⟩ := Reader.reads_append.1 reads
        obtain ⟨before, -⟩ := apart_dots.before parts line (same ▸ read)
        let s' : Session := { s with gaps := s.gaps ++ [m.group 2] }
        obtain ⟨words, shown, recorded⟩ := ih 0 s' (fun _ => rfl) (page_reads_home later)
        let later := Piece.assembleM gap.replace ps s'
        have run : Piece.assembleM gap.replace (.found m :: ps) s =
            (m.group 1 ++ ('<' :: gapTags m ++ '>' :: later.1), later.2) := by
          have text (u : Text) : m.group 1 ++ ('<' :: (gapTags m ++ ">")) ++ u =
              m.group 1 ++ ('<' :: gapTags m ++ '>' :: u) := by simp
          rw [← text, Piece.assembleM, gap_writes]
          rfl
        have bracket : page.step 0 '>' = some 0 := by decide
        have gap : page.Shows 0 ('<' :: gapTags m ++ '>' :: later.1) (m.group 2 :: words) :=
          .gap rfl (isGap_gapTags m) rfl rfl (.char bracket shown)
        rw [run]
        refine ⟨m.group 2 :: words, .append before gap, recorded.trans ?_⟩
        change ({ s with gaps := s.gaps ++ [m.group 2] ++ words } : Session) = _
        rw [List.append_assoc]
        rfl
  exact all (pieces_scan (.of_passes rfl) t) 0 s (fun _ => rfl) accepts

theorem escapedBracket_accepts (accepts : page.Accepts t) : page.Accepts (Rewrite.apply ⟨"\\>", fun _ => "&gt;"⟩ t) := by
  have stands : ∀ s q, page.run s "\\>" = some q → s = 0 ∧ q = 0 := by decide
  refine Rewrite.apply_carries marked_page.follows (.of_passes rfl) (fun b old rest m s _ takes _ reads => ?_) accepts
  obtain ⟨rfl, -⟩ := takes_literal.1 takes
  obtain ⟨q, read, later⟩ := Reader.reads_append.1 reads
  obtain ⟨rfl, rfl⟩ := stands s q read
  exact ⟨0, page_run (t := "&gt;") (by decide), later, fun _ => rfl⟩

/-- The rules for items show a gap for every word that they record. -/
theorem rules_show {metadata : Metadata} (plain : metadata.Unbracketed) {s : Session} (held : Session.Keeps custody.Accepts [] s)
    (accepts : page.Accepts t) : ∃ words, Session.Keeps custody.Accepts words (Rule.applyAll (rules metadata) t s).2 ∧
      page.Shows 0 (Rule.applyAll (rules metadata) t s).1 words := by
  unfold Rule.applyAll
  split
  · exact ⟨[], held, .of_reads accepts⟩
  · rw [rules, List.foldlM_cons, escapedBracket, Rule.ofRewrite_apply, pure_bind, List.foldlM_cons]
    obtain ⟨words, shown, recorded⟩ := gap_shows (escapedBracket_accepts accepts) s
    have kept : Session.Keeps custody.Accepts words (gap.apply (Rewrite.apply ⟨"\\>", fun _ => "&gt;"⟩ t) s).2 := by
      rw [recorded]
      exact ⟨held.1, by rw [held.2]; rfl⟩
    have later : Ensures (Session.Keeps custody.Accepts words)
        ([emoji, value metadata].foldlM (fun t r => r.apply t) (gap.apply (Rewrite.apply ⟨"\\>", fun _ => "&gt;"⟩ t) s).1)
        fun u => page.Shows 0 u words :=
      (emoji_shows shown).bind fun u hu => (value_shows plain hu).bind fun v hv => .pure hv
    exact ⟨words, later _ kept⟩

end Item

/-! ## What a reader of the page finds -/

/-- A text that begins with the whole markup of a gap, in which this word is hidden. -/
def Item.BeginsGap (t word : Text) : Prop :=
  ∃ cls ∈ gapClasses, ∃ code, (gapMarkup cls code ++ ">" : Text) <+: t ∧ Attribute.decode code = .ok word

theorem Item.IsGap.begins {g word : Text} (h : IsGap g word) : Leading.word <+: g := by
  obtain ⟨cls, listed, rfl⟩ := h
  have begins : gapClasses.all (fun cls => Leading.word.isPrefixOf ("<span class=\"" ++ cls)) = true := by decide
  have first := List.isPrefixOf_iff_prefix.1 (List.all_eq_true.1 begins cls listed)
  exact (((first.trans (List.prefix_append _ _)).trans (List.prefix_append _ _)).trans (List.prefix_append _ _))

/-- Where closing tags alone begin, the word of a gap does not. -/
theorem Leading.tails_inside {x t : Text} (closing : ∀ u v, x = u ++ '<' :: v → v.head? = some '/') :
    (x ++ t).tails.filter Leading.word.isPrefixOf = t.tails.filter Leading.word.isPrefixOf := by
  induction x with
  | nil => rfl
  | cons c x ih =>
      have other : Leading.word.isPrefixOf (c :: (x ++ t)) = false := by
        rw [← Bool.not_eq_true, List.isPrefixOf_iff_prefix]
        rintro ⟨rest, split⟩
        obtain ⟨rfl, behind⟩ : '<' = c ∧ Leading.word.tail ++ rest = x ++ t := List.cons.inj split
        obtain ⟨x, rfl⟩ := List.head?_eq_some_iff.1 (closing [] x rfl)
        have first : 's' = '/' := (List.cons.inj behind).1
        exact absurd first (by decide)
      rw [List.cons_append, List.tails_cons, List.filter_cons_of_neg (by simp [other])]
      exact ih fun u v split => closing (c :: u) v (congrArg (c :: ·) split)

theorem Reader.Shows.tails {s : Fin 25} {t : Text} {words : List Text} (h : custody.Shows s t words) :
    List.Forall₂ Item.BeginsGap (t.tails.filter Leading.word.isPrefixOf) words := by
  have begins : ∀ s q, custody.step s '<' = some q → q = 1 := by decide
  have refused : custody.run 1 Leading.word.tail = none := by decide
  induction h with
  | nil => exact .nil
  | @char s q c t words step later ih =>
      -- the reader has not refused the text, so the word does not begin here
      have other : Leading.word.isPrefixOf (c :: t) = false := by
        rw [← Bool.not_eq_true, List.isPrefixOf_iff_prefix]
        rintro ⟨rest, split⟩
        obtain ⟨rfl, rfl⟩ : '<' = c ∧ Leading.word.tail ++ rest = t := List.cons.inj split
        obtain rfl := begins s q step
        obtain ⟨p, read, -⟩ := later.split (by decide)
        rw [refused] at read
        cases read
      rw [List.tails_cons, List.filter_cons_of_neg (by simp [other])]
      exact ih
  | @gap s g t u word words start isGap same bracket later ih =>
      subst same
      obtain ⟨x, rfl, -⟩ := isGap.exists_read
      have inside := Leading.tails_inside (x := x) (t := t) fun u v split => (isGap.behind (congrArg ('<' :: ·) split)).2 rfl
      have first : Leading.word.isPrefixOf ('<' :: (x ++ t)) = true :=
        List.isPrefixOf_iff_prefix.2 (isGap.begins.trans (List.prefix_append _ t))
      obtain ⟨cls, listed, markup⟩ := isGap
      obtain ⟨t, rfl⟩ := List.head?_eq_some_iff.1 bracket
      rw [List.cons_append, List.tails_cons, List.filter_cons_of_pos first, inside]
      refine .cons ⟨cls, listed, Attribute.encode word, ⟨t, ?_⟩, Attribute.decode_encode word⟩ ih
      rw [← markup]
      simp

/-- The gaps that begin on a page are those of the missing words, in their order, and each hides its word. -/
theorem TextItem.missingWords_shown (header source : Text) :
    let item := (render (Metadata.ofHeader header) source).1
    List.Forall₂ Item.BeginsGap (item.html.tails.filter Leading.word.isPrefixOf) item.missingWords := by
  have back (t : Text) (s : Session) (held : ∀ p ∈ s.warden.wards, custody.Accepts p.2) (shown : custody.Shows 0 t s.gaps) :
      custody.Shows 0 (Rendering.reinstate t s).1 (Rendering.reinstate t s).2.gaps := reinstate_shows shown held
  have shown : custody.Shows 0 (run (Metadata.ofHeader header) source).1 (run (Metadata.ofHeader header) source).2.gaps := by
    rw [run, Markup.run]
    by_cases full : source = []
    · rw [full]
      exact .nil (by decide)
    · obtain ⟨held, accepts⟩ := page_accepts [] source {} ⟨by simp, rfl⟩
      obtain ⟨words, ⟨held, recorded⟩, shown⟩ := Item.rules_show (Metadata.unbracketed header) held accepts
      rw [Markup.render_page full, Rendering.bind_apply, Rendering.bind_apply]
      have kept := shown.follows page_custody
      rw [← recorded] at kept
      exact back _ _ held kept
  exact shown.tails

end LessonText
