import LessonText.Proofs.Page.Rules
import LessonText.Proofs.Page.Source

/-! # A page holds whole tags, and no others

A draft goes with every text that the passes make. It begins as the escaped text, the rules of blocks and of spans keep it
clean one after another, and behind the cleaning up its wards are put back.
-/

namespace LessonText

open Draft Pattern Unicode Hazard Rendering Reader

/-! ## Texts with drafts -/

/-- What rules make of a text and of a session, one after another. -/
def Rule.after (rules : List Rule) (made : Text × Session) : Text × Session := rules.foldl (fun made r => r.apply made.1 made.2) made

theorem Rule.after_cons (r : Rule) (rules : List Rule) (made : Text × Session) :
    Rule.after (r :: rules) made = Rule.after rules (r.apply made.1 made.2) := rfl

theorem Rule.after_append (rules rules' : List Rule) (made : Text × Session) :
    Rule.after (rules ++ rules') made = Rule.after rules' (Rule.after rules made) := List.foldl_append

theorem Rule.foldlM_eq_after (rules : List Rule) (t : Text) (s : Session) :
    rules.foldlM (fun t r => r.apply t) t s = Rule.after rules (t, s) := by
  induction rules generalizing t s with
  | nil => rfl
  | cons r rules ih =>
      rw [List.foldlM_cons, Rendering.bind_apply]
      exact ih _ _

/-- A draft of the kind shows the text, and the session holds what it has in custody. -/
def Drafted (P : Draft → Prop) (made : Text × Session) : Prop :=
  ∃ d, text d = made.1 ∧ made.2.Holds (wards d) ∧ P d

namespace Drafted

variable {P Q : Draft → Prop} {made : Text × Session} {t : Text}

theorem start (h : P (chars t)) : Drafted P (t, {}) := ⟨chars t, text_chars t, by rw [wards_chars]; exact .start, h⟩

theorem mono (h : Drafted P made) (imp : ∀ d, P d → Q d) : Drafted Q made := by
  obtain ⟨d, shown, held, known⟩ := h
  exact ⟨d, shown, held, imp d known⟩

theorem step {f : Text → Rendering Text} (h : Drafted P made)
    (turns : ∀ d, text d = made.1 → P d → Turns (f (text d)) (wards d) Q) : Drafted Q (f made.1 made.2) := by
  obtain ⟨t, s⟩ := made
  obtain ⟨d, rfl, held, known⟩ := h
  obtain ⟨e, s', made, held', known'⟩ := turns d rfl known [] s (by rwa [List.append_nil])
  exact ⟨e, congrArg Prod.fst made.symm, by simpa [made] using held', known'⟩

theorem after {rules : List Rule} (h : Drafted P made)
    (each : ∀ r ∈ rules, ∀ d, P d → Turns (r.apply (text d)) (wards d) P) : Drafted P (Rule.after rules made) := by
  induction rules generalizing made with
  | nil => exact h
  | cons r rules ih =>
      obtain ⟨here, later⟩ := List.forall_mem_cons.1 each
      exact ih (h.step fun d _ known => here d known) later

end Drafted

namespace Page

open Markup

variable {hs hs' : List (Hazard (Option Char))} {d : Draft} {t : Text} {made : Text × Session} {extent : Extent}

theorem Clean.mono (sub : hs' ⊆ hs) (h : Clean hs d) : Clean hs' d :=
  ⟨fun x hx => h.calm x (watches_subset sub hx), h.reads, h.held⟩

/-! ## The rules one after another -/

theorem openings_tagged {elements : List Text} (listed : elements ⊆ names) : Tagged IsTag (Span.openings elements) :=
  .flatMap fun _ mem => .of_tag (.bare (listed mem))

theorem closings_tagged {elements : List Text} (listed : elements ⊆ names) : Tagged IsTag (Span.closings elements) :=
  .flatMap fun _ mem => .of_tag (i := '/' :: _) (.bareEnd (List.mem_append_left _ (listed (List.mem_reverse.1 mem))))

theorem marks_held : ∀ r ∈ Span.rules.drop 4, ∀ d, Clean (ofPage false) d → Turns (r.apply (text d)) (wards d) Held := by
  have emphasis {sign : Char} {count : ℕ} {elements : List Text} (sharp : Warden.isKeyChar sign = false) (ne : elements ≠ [])
      (listed : elements ⊆ names) : ∀ r ∈ Span.emphasis sign (count + 1) elements, ∀ d, Clean (ofPage false) d →
      Turns (r.apply (text d)) (wards d) Held :=
    emphasis_held sharp ne (openings_tagged listed) (closings_tagged listed)
  change ∀ r ∈ Span.mailLink :: Span.code :: (Span.emphasis '*' 3 ["strong", "em"] ++ Span.emphasis '_' 3 ["strong", "em"] ++
    Span.emphasis '*' 2 ["strong"] ++ Span.emphasis '_' 2 ["strong"] ++ Span.emphasis '*' 1 ["em"] ++ Span.emphasis '_' 1 ["em"]), _
  simp only [List.forall_mem_cons, List.forall_mem_append]
  exact ⟨fun d => mailLink_held, fun d => code_held, ⟨⟨⟨⟨emphasis rfl (by simp) (by decide), emphasis rfl (by simp) (by decide)⟩,
    emphasis rfl (by simp) (by decide)⟩, emphasis rfl (by simp) (by decide)⟩, emphasis rfl (by simp) (by decide)⟩,
    emphasis rfl (by simp) (by decide)⟩

theorem marks_clean : ∀ r ∈ Span.rules.drop 4, ∀ d, Clean (ofPage false) d →
    Turns (r.apply (text d)) (wards d) (Clean (ofPage false)) := by
  intro r hr d clean
  have behind : r ∈ Span.rules.drop 3 := List.mem_of_mem_tail (List.tail_drop ▸ hr)
  exact clean_turns (Span.marks_sound false r hr d clean.calm)
    (fun gaps => Span.marks_carry marked custody.toCustody r behind _ clean.reads) (marks_held r hr d clean)

/-- The rules of blocks, of which the ninth is that of equations, and those of paragraphs. -/
theorem blocks_drafted (plain : ∀ x ∈ Block.equation.operands (Rule.after (Block.rules.take 8) made).1, '<' ∉ x)
    (h : Drafted (Clean (ofBlocks false)) made) :
    Drafted (Clean (ofBlocks false)) (Rule.after (Block.rules ++ Block.paragraphRules) made) := by
  have before := h.after fun r hr => blocks_clean r (List.mem_append_left _ hr)
  have equations := before.step (f := Block.equation.apply) fun d shown clean => blockEquation_clean (shown ▸ plain) clean
  have split : Block.rules ++ Block.paragraphRules = Block.rules.take 8 ++ Block.equation :: Block.paragraphRules := rfl
  rw [split, Rule.after_append, Rule.after_cons]
  exact equations.after fun r hr => blocks_clean r (List.mem_append_right _ hr)

/-- The rules of spans, of which the first is that of equations. -/
theorem spans_drafted (plain : ∀ x ∈ Span.equation.operands made.1, '<' ∉ x) (h : Drafted (Clean (ofSpans false)) made) :
    Drafted (Clean (ofPage false)) (Rule.after Span.rules made) := by
  have equations := h.step (f := Span.equation.apply) fun d shown clean => equation_clean (shown ▸ plain) clean
  have images := equations.step (f := Span.image.apply) fun d _ => image_clean
  have links := images.step (f := Span.link.apply) fun d _ => link_clean
  have addresses := links.step (f := Span.autoLink.apply) fun d _ => autoLink_clean
  have split : Span.rules = Span.equation :: Span.image :: Span.link :: Span.autoLink :: Span.rules.drop 4 := rfl
  rw [split]
  simp only [Rule.after_cons]
  exact addresses.after marks_clean

/-! ## Cleaning up -/

theorem cleanUp_accepts (reads : (whole tags).Accepts t) : (whole tags).Accepts (cleanUp t) := by
  have spaces (c : Char) (space : isSpace c = true) : (whole tags).step none c = some none := by
    refine whole_stays ?_
    rintro rfl
    exact absurd space (by decide)
  refine emptyElement_accepts fits.follows marked.closing (fun s q r c step _ _ => ?_) (blankLines_accepts marked spaces reads)
  exact tags_tagless.home (by decide) (by decide) step

/-- Behind the cleaning up, what is in custody is put back. -/
theorem cleanUp_tagged (h : Drafted (Clean (ofPage false)) made) : Tagged IsTag (Rendering.reinstate (cleanUp made.1) made.2).1 := by
  obtain ⟨t, s⟩ := made
  obtain ⟨d, rfl, held, clean⟩ := h
  have sound := cleanUp_sound false d (calm_shapes clean.calm)
  have known := sound.and_data (sound.data_of_silent (fun _ => rfl) clean.held)
  obtain ⟨e, s', same, held', calm, data⟩ := known [] s (by rwa [List.append_nil])
  obtain ⟨shown, rfl⟩ := Prod.mk.inj same
  obtain ⟨s'', back, -⟩ := held'.reinstate (calm _ List.mem_cons_self)
  rw [shown, back]
  exact tags_tagless.tagged_meaning isTag_of_spells (shown ▸ cleanUp_accepts clean.reads) data

end Page

/-! ## The output -/

namespace Markup

open Page

/-- The rules of equations, with the rules before each. -/
def Extent.equationRules : Extent → List (List Rule × Rule)
  | .document => [(Block.rules.take 8, Block.equation), (Block.rules ++ Block.paragraphRules, Span.equation)]
  | .spans => [([], Span.equation)]

/-- The equations that the rules find while a text without MathML is rendered, as they find them. -/
def Extent.equations (extent : Extent) (t : Text) : List Text :=
  extent.equationRules.flatMap fun (before, r) => r.operands (Rule.after before (escape (cleaned t), {})).1

variable {extent : Extent} {t : Text}

/-- The rules of a page keep the escaped text clean. -/
theorem rules_drafted (keys : keyHazard.Spares (cleaned t)) (addresses : inAddress.Spares (escape (cleaned t)))
    (plain : ∀ x ∈ extent.equations t, '<' ∉ x) :
    Drafted (Clean (ofPage false)) (Rule.applyAll extent.rules (escape (cleaned t)) {}) := by
  have start : Drafted (Clean (ofBlocks false)) (escape (cleaned t), {}) := by
    refine .start ⟨calm_escape keys addresses, ?_, held_chars⟩
    rw [text_chars]
    exact (authorTags_tagless.follows (List.Subset.trans authorTags_subset bareTags_subset)).accepts (escape_accepts _)
  by_cases empty : escape (cleaned t) = []
  · have nothing : Rule.applyAll extent.rules (escape (cleaned t)) {} = (escape (cleaned t), {}) := by
      rw [empty]
      rfl
    have less : ofPage false ⊆ ofBlocks false :=
      List.subset_append_of_subset_right inBlock (List.subset_append_right [inEquation, inAddress] _)
    exact nothing ▸ start.mono fun d => .mono less
  rw [Rule.applyAll_of_ne_nil empty, Rule.foldlM_eq_after]
  simp only [Extent.equations, List.forall_mem_flatMap] at plain
  cases extent with
  | document =>
      simp only [Extent.equationRules, List.forall_mem_cons] at plain
      obtain ⟨inBlocks, inSpans, -⟩ := plain
      rw [Extent.rules, Rule.after_append]
      have blocks := blocks_drafted inBlocks start
      exact spans_drafted inSpans (blocks.mono fun d => .mono (List.subset_append_right inBlock _))
  | spans =>
      simp only [Extent.equationRules, List.forall_mem_cons] at plain
      exact spans_drafted plain.1 (start.mono fun d => .mono (List.subset_append_right inBlock _))

/-- A rendered text consists of characters and of the tags of a page, whole and with nothing else in them. -/
theorem run_tagged (extent : Extent) (t : Text) (keys : keyHazard.Spares (cleaned t)) (maths : ¬ "<math" <:+: cleaned t)
    (addresses : inAddress.Spares (escape (cleaned t))) (plain : ∀ x ∈ extent.equations t, '<' ∉ x) :
    Tagged IsTag (run extent [] [] t).1 := by
  by_cases full : t = []
  · subst full
    exact .nil
  have drafted := rules_drafted keys addresses plain
  have whole : run extent [] [] t = Rendering.reinstate (cleanUp (Rule.applyAll extent.rules (escape (cleaned t)) {}).1)
      (Rule.applyAll extent.rules (escape (cleaned t)) {}).2 := by
    rw [run, render_eq full, opening_eq maths, pure_bind, closing_nil]
    rfl
  rw [whole]
  exact cleanUp_tagged drafted

/-- A foreign tag, an image, a tag of an author and an equation. -/
theorem run_tagged_document : Tagged IsTag (run .document [] [] "*a* <i>\n\n![b](http://c \"d\")<br>\x7bmath\x7dx<y\x7bmath\x7d").1 :=
  run_tagged .document _ (by decide +kernel) (by decide +kernel) (by decide +kernel) (by decide +kernel)

/-- What stands behind the next quote. -/
def pastQuote (t : Text) : Text := (t.dropWhile (· != '"')).tail

theorem pastQuote_append {v r : Text} (plain : '"' ∉ v) : pastQuote (v ++ '"' :: r) = r := by
  have unquoted : ∀ c ∈ v, (c != '"') = true := fun c hc => bne_iff_ne.2 fun quote => plain (quote ▸ hc)
  rw [pastQuote, List.dropWhile_append_of_pos unquoted]
  rfl

/-- Behind the address of an image stands its title. -/
theorem image_titled {i : Text} (h : IsTag i) (first : i.head? = some 'i') : ∃ v, ∀ u : Text,
    pastQuote (pastQuote (pastQuote (pastQuote (i ++ u)))) = " title=\"" ++ (v ++ u) := by
  have others : ∀ name ∈ names, name.head? ≠ some 'i' := by decide
  have authors : ∀ name ∈ authored, ∃ c rest, name = c :: rest ∧ sameLetter c 'i' = false := by
    simp only [authored, List.forall_mem_cons]
    exact ⟨⟨_, _, rfl, by decide⟩, ⟨_, _, rfl, by decide⟩, ⟨_, _, rfl, by decide⟩, by simp⟩
  cases h with
  | @authored name t mem same =>
      obtain ⟨c, rest, rfl, other⟩ := authors name mem
      cases same with
      | cons letter _ =>
          obtain rfl := Option.some.inj first
          rw [other] at letter
          cases letter
  | bare mem => exact absurd first (others _ mem)
  | @image alt address title inAlt inAddress _ =>
      refine ⟨title ++ "\"/", fun u => ?_⟩
      have split : "img alt=\"" ++ alt ++ "\" src=\"" ++ address ++ "\" title=\"" ++ title ++ "\"/" ++ u =
          "img alt=" ++ '"' :: (alt ++ '"' :: (" src=" ++ '"' :: (address ++ '"' :: (" title=\"" ++ (title ++ "\"/" ++ u))))) := by
        simp
      rw [split, pastQuote_append (by decide), pastQuote_append inAlt, pastQuote_append (by decide), pastQuote_append inAddress]
  | authoredEnd | bareEnd | maths | span | link | address | mail => cases first

/-- The quotes of an equation in the address of an image end the value of its attribute. -/
theorem spans_not_tagged : ¬ ("<math" : Text) <:+: "![x](http://\x7bmath\x7dx\x7bmath\x7d)" ∧
    ¬ Tagged IsTag (run .spans [] [] "![x](http://\x7bmath\x7dx\x7bmath\x7d)").1 := by
  refine ⟨by decide, fun tagged => ?_⟩
  obtain ⟨shown, output, titled⟩ : ∃ shown, (run .spans [] [] "![x](http://\x7bmath\x7dx\x7bmath\x7d)").1 = '<' :: shown ∧
      shown.head? = some 'i' ∧ (pastQuote (pastQuote (pastQuote (pastQuote shown)))).head? = some 'm' :=
    ⟨"img alt=\"x\" src=\"http:// <span class=\"maths\">𝑥</span> \" title=\"\"/>", by decide +kernel, rfl, by decide⟩
  rw [output] at tagged
  obtain ⟨i, u, isTag, rfl, -⟩ := tagged.bracket
  have first : i.head? = some 'i' := by
    cases i with
    | nil => cases titled.1
    | cons => exact titled.1
  obtain ⟨v, same⟩ := image_titled isTag first
  rw [same] at titled
  exact absurd titled.2 (by simp)

end Markup

end LessonText
