import LessonText.Proofs.Item.Gaps
import LessonText.Proofs.Markup.BlockReadings
import LessonText.Proofs.Pattern.Bound
import LessonText.Proofs.Text.PlainText

/-! # What becomes of a sentence with gaps

The words of the gaps of a sentence, its plain text and how a problem is answered that asks for it can be read off the
sentence as its author wrote it.
-/

namespace LessonText

open Pattern Unicode

/-! ## Where a pattern occurs -/

theorem Scan.find_eq_none {α : Type} {find : Finder α} {b : Option Char} {t : Text} {ps : List (Piece α)}
    (h : Scan find b t ps) (none : ∀ a, .found a ∉ ps) : ∀ u v, t = u ++ v → v ≠ [] → find (u.getLast?.or b) v = Option.none := by
  induction h with
  | nil => exact fun u v split full => absurd (List.append_eq_nil_iff.1 split.symm).2 full
  | found _ _ _ => exact absurd List.mem_cons_self (none _)
  | @plain b c t ps here _ ih =>
      intro u v split full
      cases u with
      | nil =>
          obtain rfl : c :: t = v := split
          exact here
      | cons d u =>
          obtain ⟨rfl, later⟩ := List.cons.inj split
          rw [Text.getLast?_cons_or]
          exact ih (fun a mem => none a (List.mem_cons_of_mem _ mem)) u v later full

/-- Where a direct pattern matches it occurs. -/
theorem Pattern.occursIn_of_matchAt {p : Pattern} (direct : p.Direct) (advances : p.Advances) {bound : Nat} {u t : Text}
    (inside : t.length ≤ bound) (found : (p.matchAt bound 0 u.getLast? t).isSome = true) : p.occursIn (u ++ t) = true := by
  rw [occursIn_iff]
  by_contra none
  have full : t ≠ [] := by
    rintro rfl
    rw [advances.misses_nil.matchAt] at found
    cases found
  have missed := (pieces_scan advances _).find_eq_none (fun m found => none ⟨m, found⟩) u t rfl full
  rw [Option.or_none, matchAt_bound direct (by simp) inside] at missed
  rw [missed] at found
  cases found

/-! ## Replacing what a finder finds -/

namespace Finder

variable {find : Finder Text} {replace : Text → Text} {c : Char} {t u v w : Text}

/-- With what it finds replaced, one text becomes another one, whatever stands around it. -/
def Becomes (find : Finder Text) (replace : Text → Text) (w v : Text) : Prop := ∀ b t, ∃ b',
  Piece.assemble replace (Text.cutFrom find find 0 b (w ++ t)) = v ++ Piece.assemble replace (Text.cutFrom find find 0 b' t)

namespace Becomes

theorem nil : find.Becomes replace [] [] := fun b _ => ⟨b, rfl⟩

theorem append (first : find.Becomes replace w v) (second : find.Becomes replace t u) : find.Becomes replace (w ++ t) (v ++ u) := by
  intro b r
  obtain ⟨b', here⟩ := first b (t ++ r)
  obtain ⟨b'', later⟩ := second b' r
  refine ⟨b'', ?_⟩
  rw [List.append_assoc, here, later, List.append_assoc]

theorem flatMap {α : Type} {f g : α → Text} {l : List α} (each : ∀ a ∈ l, find.Becomes replace (f a) (g a)) :
    find.Becomes replace (l.flatMap f) (l.flatMap g) := by
  induction l with
  | nil => exact nil
  | cons a l ih =>
      obtain ⟨here, later⟩ := List.forall_mem_cons.1 each
      exact here.append (ih later)

theorem found (full : w ≠ []) (h : ∀ b t, find b (w ++ t) = some (u, w.length)) : find.Becomes replace w (replace u) := by
  intro b t
  refine ⟨w.getLast?.or b, ?_⟩
  rw [Text.cutFrom_found full (h b t)]
  rfl

theorem cons (none : ∀ b t, find b (c :: (w ++ t)) = none) (later : find.Becomes replace w v) :
    find.Becomes replace (c :: w) (c :: v) := by
  intro b t
  obtain ⟨b', all⟩ := later (some c) t
  refine ⟨b', ?_⟩
  rw [List.cons_append, Text.cutFrom_plain (none b t), Piece.assemble, all]
  rfl

theorem of_forall (none : ∀ c ∈ w, ∀ b t, find b (c :: t) = none) : find.Becomes replace w w := by
  induction w with
  | nil => exact nil
  | cons c w ih =>
      obtain ⟨here, later⟩ := List.forall_mem_cons.1 none
      exact cons (fun b t => here b (w ++ t)) (ih later)

theorem assemble (h : find.Becomes replace w v) (none : ∀ b, find b [] = none) :
    Piece.assemble replace (w.cut find) = v := by
  obtain ⟨b, all⟩ := h Option.none []
  rw [List.append_nil, Text.cutFrom, none b] at all
  exact all.trans (List.append_nil v)

end Becomes

end Finder

namespace Slot

variable {slot : Slot} {slots : List Slot} {b : Option Char} {c : Char} {t : Text}

/-! ## The plain text of a sentence -/

/-- A slot with dots in place of the mark of a gap. -/
def dotted : Slot → Text
  | word t _ _ => t
  | gap _ _ => "...</span>"

theorem find_of_alphanum (h : c.isAlphanum = true) : Tag.find b (c :: t) = none := by
  refine Tag.find_plain ?_
  rintro rfl
  cases h

theorem findGap_plain (other : c ≠ '<') : TextItem.findGap b (c :: t) = none :=
  TextItem.findGap_eq_none (Tag.find_plain other)

theorem findGap_tag {i : Text} (closed : '>' ∉ i) : TextItem.findGap b ('<' :: (i ++ '>' :: t)) =
    if TextItem.holdsWord "missing-word" '<' i then some (i, i.length + 2) else none := by
  rw [TextItem.findGap, Tag.find_eq closed]
  rfl

theorem closed_encode (t : Text) : '>' ∉ Attribute.encode t := by
  obtain ⟨s, pads, coded, letters, -⟩ := Base64.encode_eq (Attribute.asciiBytes (Percent.encode t))
  rw [Attribute.encode, coded, List.mem_append, not_or]
  refine ⟨fun mem => ?_, fun mem => ?_⟩
  · exact Bool.false_ne_true (letters '>' mem).1
  · exact absurd (List.eq_of_mem_replicate mem) (by decide)

/-- The mark of a gap without its brackets. -/
def mark (t : Text) : Text := "span class=\"missing-word\" data-missing-word=\"" ++ (Attribute.encode t ++ "\"")

theorem html_gap (t : Text) (plain : t.all Char.isAlphanum = true) :
    (gap t plain).html = '<' :: (mark t ++ ">") ++ '<' :: "/span>" := by
  unfold html mark
  simp only [List.append_assoc, List.cons_append]
  rfl

theorem closed_mark (t : Text) : '>' ∉ mark t := by
  intro mem
  rcases List.mem_append.1 mem with lead | mem
  · exact absurd lead (by decide)
  · rcases List.mem_append.1 mem with word | quote
    · exact closed_encode t word
    · exact absurd quote (by decide)

theorem holdsWord_append {w v : Text} {a : Char} (full : w ≠ []) (before : isWord a = false)
    (behind : v.head?.any isWord = false) (u : Text) (c : Char) : TextItem.holdsWord w c (u ++ a :: (w ++ v)) = true := by
  induction u generalizing c with
  | nil =>
      obtain ⟨d, rest, rfl⟩ := List.exists_cons_of_ne_nil full
      have here : (d :: rest).isPrefixOf (d :: (rest ++ v)) = true := List.isPrefixOf_iff_prefix.2 (List.prefix_append (d :: rest) v)
      have stops : ((d :: (rest ++ v)).drop (d :: rest).length).head?.any isWord = false := by
        rw [← List.cons_append, List.drop_left, behind]
      rw [List.nil_append, TextItem.holdsWord, List.cons_append, TextItem.holdsWord, before, here, stops]
      simp
  | cons d u ih => rw [List.cons_append, TextItem.holdsWord, ih, Bool.or_true]

/-- The gaps of a slot are shown as dots. -/
theorem dotted_becomes (slot : Slot) : TextItem.findGap.Becomes (fun _ => "...") slot.html slot.dotted := by
  cases slot with
  | word t full plain =>
      refine .of_forall fun c hc b t => findGap_plain ?_
      rintro rfl
      exact Bool.false_ne_true (List.all_eq_true.1 plain _ hc)
  | gap t plain =>
      have marked : TextItem.holdsWord "missing-word" '<' (mark t) = true := by
        exact holdsWord_append (w := "missing-word") (a := '"') (v := "\" data-missing-word=\"" ++ (Attribute.encode t ++ "\""))
          (List.cons_ne_nil _ _) (by decide) rfl "span class=" '<'
      have opens : TextItem.findGap.Becomes (fun _ => "...") ('<' :: (mark t ++ ">")) "..." := by
        have full : '<' :: (mark t ++ ">") ≠ [] := List.cons_ne_nil _ _
        refine .found (u := mark t) full fun b r => ?_
        have found := findGap_tag (b := b) (t := r) (closed_mark t)
        rw [marked, if_pos rfl] at found
        simpa using found
      have closes : TextItem.findGap.Becomes (fun _ => "...") ('<' :: "/span>") ('<' :: "/span>") := by
        refine .cons (fun b t => (findGap_tag (i := "/span") (by decide)).trans (if_neg (by decide)))
          (.of_forall fun c hc b t => findGap_plain ?_)
        rintro rfl
        exact absurd hc (by decide)
      rw [html_gap]
      exact opens.append closes

/-- Without tags a slot is what a reader sees. -/
theorem shown_becomes (slot : Slot) : Tag.find.Becomes (fun _ => []) slot.dotted slot.shown := by
  cases slot with
  | word t full plain => exact .of_forall fun c hc b t => find_of_alphanum (List.all_eq_true.1 plain c hc)
  | gap t plain =>
      have dots : Tag.find.Becomes (fun _ => []) "..." "..." := by
        refine .of_forall fun c hc b t => Tag.find_plain ?_
        rintro rfl
        exact absurd hc (by decide)
      have closes : Tag.find.Becomes (fun _ => []) "</span>" [] :=
        .found (u := "/span") (List.cons_ne_nil _ _) fun b t => Tag.find_eq (i := "/span") (by decide)
      exact dots.append closes

/-- A page with one sentence. -/
def page (f : Slot → Text) (slots : List Slot) : Text := "\n<p>" ++ sentence f slots ++ "</p>\n"

theorem sentence_becomes {find : Finder Text} {replace : Text → Text} {f g : Slot → Text}
    (plain : ∀ b t, find b (' ' :: t) = none) (each : ∀ slot, find.Becomes replace (f slot) (g slot)) (slots : List Slot) :
    find.Becomes replace (sentence f slots) (sentence g slots) := by
  cases slots with
  | nil => exact .nil
  | cons slot slots =>
      rw [sentence_cons, sentence_cons]
      exact (each slot).append (.flatMap fun slot _ => .cons (fun b t => plain b _) (each slot))

theorem findGap_page (slots : List Slot) :
    Piece.assemble (fun _ => "...") ((page html slots).cut TextItem.findGap) = page dotted slots := by
  have keeps {w : Text} (other : '<' ∉ w) : TextItem.findGap.Becomes (fun _ => "...") w w := by
    refine .of_forall fun c hc b t => findGap_plain ?_
    rintro rfl
    exact other hc
  have tag {i : Text} (closed : '>' ∉ i) (other : '<' ∉ i ++ ">")
      (plain : TextItem.holdsWord "missing-word" '<' i = false) :
      TextItem.findGap.Becomes (fun _ => "...") ('<' :: (i ++ ">")) ('<' :: (i ++ ">")) := by
    refine .cons (fun b t => ?_) (keeps other)
    have found := findGap_tag (b := b) (t := t) closed
    rw [plain, if_neg Bool.false_ne_true] at found
    simpa using found
  have opens := (keeps (w := "\n") (by decide)).append (tag (i := "p") (by decide) (by decide) (by decide))
  have closes := (tag (i := "/p") (by decide) (by decide) (by decide)).append (keeps (w := "\n") (by decide))
  have inner := sentence_becomes (fun b t => findGap_plain (by decide)) dotted_becomes slots
  exact ((opens.append inner).append closes).assemble fun b => rfl

theorem strip_page (slots : List Slot) : Tag.strip (page dotted slots) = "\n" ++ sentence shown slots ++ "\n" := by
  have keeps : Tag.find.Becomes (fun _ => []) "\n" "\n" := by
    refine .of_forall fun c hc b t => Tag.find_plain ?_
    rintro rfl
    exact absurd hc (by decide)
  have opens : Tag.find.Becomes (fun _ => []) "<p>" [] :=
    .found (u := "p") (List.cons_ne_nil _ _) fun b t => Tag.find_eq (i := "p") (by decide)
  have closes : Tag.find.Becomes (fun _ => []) "</p>" [] :=
    .found (u := "/p") (List.cons_ne_nil _ _) fun b t => Tag.find_eq (i := "/p") (by decide)
  have inner := sentence_becomes (fun b t => Tag.find_plain (by decide)) shown_becomes slots
  have all := ((keeps.append opens).append inner).append (closes.append keeps)
  exact all.assemble fun b => rfl

theorem shown_solid (slot : Slot) : slot.shown ≠ [] ∧ ∀ c ∈ slot.shown, isSpace c = false := by
  cases slot with
  | word t full plain =>
      refine ⟨full, fun c hc => ?_⟩
      have solid := of_isAlphanum (p := fun c => !isSpace c) (by decide) (List.all_eq_true.1 plain c hc)
      exact Bool.not_eq_true' _ ▸ solid
  | gap t plain =>
      have dots : ∀ c ∈ ("..." : Text), isSpace c = false := by decide
      exact ⟨List.cons_ne_nil _ _, dots⟩

theorem collapse_later (slots : List Slot) : Tag.collapseFrom false (later shown slots ++ "\n") = later shown slots ++ " " := by
  induction slots with
  | nil => rfl
  | cons slot slots ih =>
      obtain ⟨full, solid⟩ := slot.shown_solid
      have split (z : Text) : later shown (slot :: slots) ++ z = ' ' :: (slot.shown ++ (later shown slots ++ z)) := by
        simp [later]
      rw [split, split, ← ih, ← Tag.collapseFrom_solid (m := true) full solid]
      rfl

theorem last_later {t : Text} (last : t.getLast?.any notSpace = true) : (t ++ later shown slots).getLast?.any notSpace = true := by
  induction slots generalizing t with
  | nil => rwa [later, List.flatMap_nil, List.append_nil]
  | cons slot slots ih =>
      obtain ⟨full, solid⟩ := slot.shown_solid
      rw [later, List.flatMap_cons, ← List.append_assoc]
      refine ih ?_
      rw [List.getLast?_append_of_ne_nil _ (List.cons_ne_nil _ _), List.getLast?_cons_of_ne_nil full,
        List.getLast?_eq_some_getLast full, Option.any_some, notSpace, solid _ (List.getLast_mem full)]
      rfl

/-- A reader sees the slots of a sentence with single spaces between them. -/
theorem plainText_page (slot : Slot) (slots : List Slot) (words : List Text) :
    TextItem.plainText ⟨page html (slot :: slots), words⟩ = sentence shown (slot :: slots) := by
  obtain ⟨full, solid⟩ := slot.shown_solid
  have collapsed : Tag.collapse ("\n" ++ sentence shown (slot :: slots) ++ "\n") =
      ' ' :: (sentence shown (slot :: slots) ++ " ") := by
    rw [sentence_cons, List.append_assoc, List.append_assoc, List.append_assoc, ← collapse_later,
      ← Tag.collapseFrom_solid (m := true) full solid]
    rfl
  have last : (sentence shown (slot :: slots)).getLast?.any notSpace = true := by
    rw [sentence_cons]
    refine last_later ?_
    rw [List.getLast?_eq_some_getLast full, Option.any_some, notSpace, solid _ (List.getLast_mem full)]
    rfl
  have start : Text.trimStart (' ' :: (sentence shown (slot :: slots) ++ " ")) = sentence shown (slot :: slots) ++ " " := by
    rw [sentence_cons]
    obtain ⟨c, t, split⟩ := List.exists_cons_of_ne_nil full
    have first : isSpace c = false := solid c (by simp [split])
    rw [split]
    show List.dropWhile isSpace (c :: _) = _
    rw [List.dropWhile_cons_of_neg (by simp [first])]
    rfl
  rw [TextItem.plainText, findGap_page, Tag.plainText, strip_page, collapsed, Text.trim, start]
  exact Text.trimEnd_append last (by decide)

/-! ## Where a gap ends the page -/

/-- A bracket stands behind another bracket or white space. -/
def Behind (a c : Char) : Prop := c = '<' → a = '>' ∨ isSpace a = true

/-- Tags and white space, with nothing but these before an opening bracket. -/
def Closing (t : Text) : Prop := t.IsChain Behind ∧ ∀ c ∈ t.getLast?, c = '>' ∨ isSpace c = true

namespace Closing

theorem append {t u : Text} (ht : Closing t) (hu : Closing u) : Closing (t ++ u) := by
  refine ⟨List.isChain_append.2 ⟨ht.1, hu.1, fun a ha c _ _ => ht.2 a ha⟩, fun c hc => ?_⟩
  rw [List.getLast?_append] at hc
  rcases Option.or_eq_some_iff.1 hc with last | ⟨-, last⟩
  · exact hu.2 c last
  · exact ht.2 c last

/-- A bracket, and characters that are no brackets up to a last one. -/
theorem cons {c d : Char} {t : Text} (inside : '<' ∉ t) (last : d = '>' ∨ isSpace d = true) : Closing (c :: (t ++ [d])) := by
  have other : d ≠ '<' := by
    rintro rfl
    exact absurd last (by decide)
  refine ⟨?_, fun e he => ?_⟩
  · refine List.isChain_iff_forall_rel_of_append_cons_cons.2 fun {a e l l'} split same => ?_
    subst same
    have mem : '<' ∈ t ++ [d] := by
      cases l with
      | nil => exact (List.cons.inj split).2 ▸ List.mem_cons_self
      | cons f l => exact (List.cons.inj split).2 ▸ by simp
    rcases List.mem_append.1 mem with mem | mem
    · exact absurd mem inside
    · exact absurd (List.mem_singleton.1 mem).symm other
  · rw [← List.cons_append, List.getLast?_append, List.getLast?_singleton] at he
    cases he
    exact last

theorem of_spaces {t : Text} (h : ∀ c ∈ t, isSpace c = true) : Closing t := by
  refine ⟨List.isChain_iff_forall_rel_of_append_cons_cons.2 fun {a e l l'} split same => ?_, fun c hc => ?_⟩
  · exact .inr (h a (by simp [split]))
  · exact .inr (h c (List.mem_of_getLast? hc))

end Closing

/-- Closing tags with white space around them. -/
def closers : Pattern := many true (span isSpace ++ "</" ++ span1 isWord ++ ">" ++ span isSpace)

theorem closers_closing {w r : Text} {gs : List (Nat × Text)} (h : closers.Takes b w r gs) : Closing w := by
  have each : Repeats (span isSpace ++ "</" ++ span1 isWord ++ ">" ++ span isSpace).Takes b w r gs := h
  induction each with
  | stop => exact .of_spaces (by simp)
  | more first _ ih =>
      refine .append ?_ (ih ‹_›)
      obtain ⟨_, after, _, _, rfl, -, ⟨_, bracket, _, _, rfl, -, ⟨_, word, _, _, rfl, -, ⟨before, slash, _, _, rfl, -, hbefore,
        hslash⟩, hword⟩, hbracket⟩, hafter⟩ := first
      obtain ⟨rfl, -⟩ := takes_literal.1 hslash
      obtain ⟨rfl, -⟩ := takes_literal.1 hbracket
      have inside : '<' ∉ '/' :: word := by
        rw [List.mem_cons, not_or]
        refine ⟨by decide, fun mem => ?_⟩
        exact absurd ((takes_span1.1 hword).2.1 '<' mem) (by decide)
      have tag := Closing.cons (c := '<') inside (.inl rfl)
      have all := ((Closing.of_spaces hbefore.1).append tag).append (.of_spaces hafter.1)
      simpa using all

theorem gapAtEnd_takes {w r : Text} {gs : List (Nat × Text)} (h : Problem.gapAtEnd.Takes b w r gs) :
    r = [] ∧ ∃ u x, w = u ++ ("></span>" ++ x) ∧ Closing ("></span>" ++ x) := by
  obtain ⟨_, _, _, _, rfl, -, ⟨_, spaces, _, _, rfl, -, ⟨_, tags, _, _, rfl, -, ⟨u, mark, _, _, rfl, -, -, hmark⟩, htags⟩,
    hspaces⟩, rfl, ended, -⟩ := h
  obtain ⟨rfl, -⟩ := takes_literal.1 hmark
  have closing : Closing "></span>" := Closing.append (t := ">") (u := "</span>")
    ⟨List.isChain_singleton _, by rintro _ ⟨⟩; exact .inl rfl⟩ (.cons (t := "/span") (by decide) (.inl rfl))
  refine ⟨List.isEmpty_iff.1 ended, u, tags ++ spaces, by simp, ?_⟩
  exact closing.append ((closers_closing htags).append (.of_spaces hspaces.1))

theorem gapAtEnd_advances : Problem.gapAtEnd.Advances := .of_passes rfl

theorem gapAtEnd_direct : Problem.gapAtEnd.Direct := by
  have advances : (span isSpace ++ "</" ++ span1 isWord ++ ">" ++ span isSpace).Advances := .of_passes rfl
  have repeated : closers.Direct := ⟨by simp, advances⟩
  exact ⟨⟨⟨by simp, repeated⟩, trivial⟩, trivial⟩

theorem sentence_concat (f : Slot → Text) (slots : List Slot) (slot : Slot) :
    ∃ t, sentence f (slots ++ [slot]) = t ++ f slot ∧ (t = [] ∨ t.getLast? = some ' ') := by
  cases slots with
  | nil => exact ⟨[], rfl, .inl rfl⟩
  | cons first slots =>
      refine ⟨f first ++ later f slots ++ " ", ?_, .inr (by simp)⟩
      rw [List.cons_append, sentence_cons, later, List.flatMap_append, List.flatMap_singleton]
      simp [later]

/-- A bare gap that is the last slot ends the page. -/
theorem gapAtEnd_bare (slots : List Slot) : Problem.gapAtEnd.occursIn (page html (slots ++ [gap [] rfl])) = true := by
  obtain ⟨t, split, last⟩ := sentence_concat html slots (gap [] rfl)
  have before : ("\n<p>" ++ t).getLast? = some '>' ∨ ("\n<p>" ++ t).getLast? = some ' ' := by
    rcases last with rfl | last
    · exact .inl rfl
    · rw [List.getLast?_append, last]
      exact .inr rfl
  have found : (Problem.gapAtEnd.matchAt 60 0 ("\n<p>" ++ t).getLast? ((gap [] rfl).html ++ "</p>\n")).isSome = true := by
    rcases before with before | before <;> (rw [before]; decide)
  have occurs := occursIn_of_matchAt gapAtEnd_direct gapAtEnd_advances (by decide) found
  rw [page, split]
  simpa using occurs

/-- No word that is the last slot ends the page as a gap does. -/
theorem gapAtEnd_word (slots : List Slot) {t : Text} (full : t ≠ []) (plain : t.all Char.isAlphanum = true) :
    Problem.gapAtEnd.occursIn (page html (slots ++ [word t full plain])) = false := by
  rw [← Bool.not_eq_true, occursIn_iff]
  rintro ⟨m, found⟩
  obtain ⟨b, u, r, whole, takes⟩ := (pieces_scan gapAtEnd_advances _).mem_found found
  obtain ⟨rfl, v, x, inside, chain, -⟩ := gapAtEnd_takes takes
  obtain ⟨s, split, -⟩ := sentence_concat html slots (word t full plain)
  obtain ⟨w, a, rfl⟩ : ∃ w a, t = w ++ [a] := ⟨t.dropLast, t.getLast full, (List.dropLast_append_getLast full).symm⟩
  have short : a :: "</p>\n" <:+ "></span>" ++ x := by
    have last : a :: "</p>\n" <:+ page html (slots ++ [word (w ++ [a]) full plain]) := by
      rw [page, split, show (word (w ++ [a]) full plain).html = w ++ [a] from rfl]
      exact ⟨"\n<p>" ++ (s ++ w), by simp⟩
    refine List.suffix_of_suffix_length_le last ?_ (by simp)
    rw [whole, inside]
    exact ⟨u ++ v, by simp⟩
  have alphanum : a.isAlphanum = true := List.all_eq_true.1 plain a (by simp)
  have behind := List.isChain_cons_cons.1 (chain.suffix short)
  rcases behind.1 rfl with rfl | space
  · cases alphanum
  · have solid := of_isAlphanum (p := fun c => !isSpace c) (by decide) alphanum
    rw [space] at solid
    cases solid

/-! ## How a problem is answered that asks for a sentence -/

theorem answers_concat (slots : List Slot) (slot : Slot) : answers (slots ++ [slot]) = answers slots ++ slot.answer?.toList := by
  rw [answers, List.filterMap_append]
  cases slot <;> rfl

/-- A gap at the end of the page is the last slot. -/
theorem gapAtEnd_iff {slots : List Slot} (single : answers slots = [[]]) :
    Problem.gapAtEnd.occursIn (page html slots) = true ↔ slots.getLast?.bind answer? = some [] := by
  rcases List.eq_nil_or_concat' slots with rfl | ⟨first, last, rfl⟩
  · cases single
  · rw [List.getLast?_concat, Option.bind_some]
    cases last with
    | word t full plain => simp [gapAtEnd_word first full plain, answer?]
    | gap t plain =>
        have alone : answers first ++ [t] = [] ++ [[]] := (answers_concat first (gap t plain)).symm.trans single
        obtain ⟨-, rfl⟩ := List.append_singleton_inj.1 alone
        simp [gapAtEnd_bare first, answer?]

theorem isOrder_page (slots : List Slot) (p : Problem) :
    ({ p with question := ⟨page html slots, answers slots⟩ } : Problem).isOrder = true ↔
      answers slots = [[]] ∧ slots.getLast?.bind answer? = some [] := by
  constructor
  · intro order
    unfold Problem.isOrder at order
    dsimp only at order
    split at order
    · rename_i w single
      obtain ⟨empty, ends⟩ := Bool.and_eq_true_iff.1 order
      obtain rfl := List.isEmpty_iff.1 empty
      exact ⟨single, (gapAtEnd_iff single).1 ends⟩
    · cases order
  · rintro ⟨single, last⟩
    unfold Problem.isOrder
    dsimp only
    rw [single]
    exact (gapAtEnd_iff single).2 last

theorem isFill_page (slots : List Slot) (p : Problem) :
    ({ p with question := ⟨page html slots, answers slots⟩ } : Problem).isFill = true ↔
      answers slots ≠ [] ∧ [] ∉ answers slots := by
  simp only [Problem.isFill, Bool.and_eq_true, Bool.not_eq_true', List.isEmpty_eq_false_iff, List.all_eq_true, ne_eq]
  exact and_congr_right fun _ => ⟨fun each mem => each [] mem rfl, fun none t mem empty => none (empty ▸ mem)⟩

/-- The words that belong into the gaps of a sentence, the text that a reader sees, and how a problem is answered that asks
    for it. -/
theorem sentence_rendered (metadata : Metadata) (slot : Slot) (slots : List Slot) (problem : Problem) :
    let item := (TextItem.render metadata (sentence source (slot :: slots))).1
    item.missingWords = answers (slot :: slots) ∧ item.plainText = sentence shown (slot :: slots) ∧
      ({ problem with question := item } : Problem).questionType = questionType (slot :: slots) problem.right := by
  obtain ⟨html_eq, gaps_eq⟩ := run_sentence metadata slot slots
  have item : (TextItem.render metadata (sentence source (slot :: slots))).1 =
      ⟨page html (slot :: slots), answers (slot :: slots)⟩ := by
    rw [← gaps_eq, page, ← html_eq]
    rfl
  rw [item]
  refine ⟨rfl, plainText_page slot slots _, ?_⟩
  have full : (page html (slot :: slots)).isEmpty = false := rfl
  simp only [Problem.questionType, full, isOrder_page, isFill_page, Bool.false_eq_true, if_false]
  rfl

end Slot

end LessonText
