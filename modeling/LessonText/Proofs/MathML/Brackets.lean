import LessonText.Proofs.MathML.Harmless
import LessonText.Proofs.Pattern.Applying

/-! # Brackets that a sanitised block keeps

A bracket is escaped unless an m, a slash or the beginning of one of two names follows it. So a bracket that is kept need not
begin a tag of MathML: it does so exactly when the complete name of an element follows it already where the unsafe
attributes have been removed.
-/

namespace LessonText.MathML

open Pattern Unicode

/-- The names of the outermost element, of the elements for annotations and of all that begin with an m. -/
def elements : List Text :=
  ["math", "semantics", "annotation", "annotation-xml", "maction", "maligngroup", "malignmark", "matrix", "matrixrow", "max",
    "mean", "median", "menclose", "merror", "mfenced", "mfrac", "mglyph", "mi", "min", "minus", "mlabeledtr", "mlongdiv",
    "mmultiscripts", "mn", "mo", "mode", "moment", "momentabout", "mover", "mpadded", "mphantom", "mprescripts", "mroot",
    "mrow", "ms", "mscarries", "mscarry", "msgroup", "msline", "mspace", "msqrt", "msrow", "mstack", "mstyle", "msub",
    "msubsup", "msup", "mtable", "mtd", "mtext", "mtr", "munder", "munderover"]

/-- A character that is neither white space nor a slash nor a closing bracket. -/
def inName (c : Char) : Bool := !isSpace c && c != '/' && c != '>'

/-- The name at the start of a text. -/
def leadingName (t : Text) : Text := t.takeWhile inName

/-- A text without a slash at its start. -/
def behindSlash : Text → Text
  | '/' :: t => t
  | t => t

/-- A text that begins, perhaps behind a slash, with the complete name of an element. -/
def namesElement (t : Text) : Bool := elements.contains (leadingName (behindSlash t))

/-- What is said of the text behind every opening bracket. -/
def EachBracket (P : Text → Prop) (t : Text) : Prop := ∀ u v, t = u ++ '<' :: v → P v

/-- A text before which a bracket is kept. -/
def isKept (t : Text) : Bool := "semantics".toList.isPrefixOf t || "annotation".toList.isPrefixOf t || t.head?.any (anyOf "m/")

/-- A text with every bracket escaped that is not kept. -/
def escapeForeign : Text → Text
  | [] => []
  | c :: t => (if c = '<' ∧ isKept t = false then ("&lt;" : Text) else [c]) ++ escapeForeign t

variable {P : Text → Prop} {b : Option Char} {c : Char} {t w : Text}

theorem eachBracket_nil : EachBracket P [] := by
  intro u v split
  cases u <;> cases split

theorem eachBracket_cons : EachBracket P (c :: t) ↔ (c = '<' → P t) ∧ EachBracket P t := by
  constructor
  · exact fun h => ⟨fun bracket => h [] t (by rw [bracket]; rfl), fun u v split => h (c :: u) v (congrArg (c :: ·) split)⟩
  · rintro ⟨here, later⟩ u v split
    cases u with
    | nil =>
        obtain ⟨rfl, rfl⟩ := List.cons.inj split
        exact here rfl
    | cons d u => exact later u v (List.cons.inj split).2

instance EachBracket.decidable [DecidablePred P] : DecidablePred (EachBracket P)
  | [] => isTrue eachBracket_nil
  | _ :: t =>
      have := EachBracket.decidable t
      decidable_of_iff' _ eachBracket_cons

/-! ## Which brackets are escaped -/

/-- What keeps a bracket if it stands behind it. -/
def keeping : Pattern := "semantics" ||| "annotation" ||| one (anyOf "m/")

theorem keeping_takes (kept : isKept t = true) : ∃ w r gs, t = w ++ r ∧ keeping.Takes b w r gs := by
  simp only [isKept, Bool.or_eq_true, List.isPrefixOf_iff_prefix] at kept
  rcases kept with (⟨r, rfl⟩ | ⟨r, rfl⟩) | first
  · exact ⟨_, r, [], rfl, .inl (.inl (takes_literal.2 ⟨rfl, rfl⟩))⟩
  · exact ⟨_, r, [], rfl, .inl (.inr (takes_literal.2 ⟨rfl, rfl⟩))⟩
  · cases t with
    | nil => cases first
    | cons c t => exact ⟨[c], t, [], rfl, .inr ⟨c, first, rfl, rfl⟩⟩

theorem keeping_misses (kept : isKept t = false) : keeping.Misses b t := by
  simp only [isKept, Bool.or_eq_false_iff] at kept
  obtain ⟨⟨noSemantics, noAnnotation⟩, noLetter⟩ := kept
  rintro w r gs rfl ((takes | takes) | ⟨c, first, rfl, -⟩)
  · obtain ⟨rfl, -⟩ := takes_literal.1 takes
    rw [List.isPrefixOf_iff_prefix.2 ⟨r, rfl⟩] at noSemantics
    cases noSemantics
  · obtain ⟨rfl, -⟩ := takes_literal.1 takes
    rw [List.isPrefixOf_iff_prefix.2 ⟨r, rfl⟩] at noAnnotation
    cases noAnnotation
  · exact absurd first (by simpa using noLetter)

theorem notAhead_keeping_fails (kept : isKept t = true) : (notAhead keeping).Fails b t := by
  obtain ⟨w, r, gs, rfl, takes⟩ := keeping_takes (b := b) kept
  intro bound next s before split inside
  have found : (keeping.attempt bound some s).isSome :=
    attempt_isSome keeping (by simp [keeping]) some s w r gs split (by rwa [split]) (before ▸ takes) fun _ => rfl
  obtain ⟨u, found⟩ := Option.isSome_iff_exists.1 found
  rw [notAhead, attempt, found]
  rfl

theorem foreignBracket_fails (kept : isKept t = true) : foreignBracket.Fails b ('<' :: t) := by
  refine Fails.behind fun w r gs split takes => ?_
  obtain ⟨rfl, -⟩ := takes_literal.1 takes
  obtain rfl : t = r := (List.cons.inj split).2
  exact notAhead_keeping_fails kept

theorem foreignBracket_reads (kept : isKept t = false) : foreignBracket.Reads b ['<'] t [] :=
  (Reads.literal ['<']).append (Reads.notAhead (keeping_misses kept).fails)

theorem foreignBracket_apply (t : Text) : Rewrite.apply ⟨foreignBracket, fun _ => "&lt;"⟩ t = escapeForeign t := by
  have all {bound : ℕ} {b : Option Char} {t : Text} {ps : List (Piece Match)}
      (scan : Scan (foreignBracket.matchAt bound 0) b t ps) (inside : t.length ≤ bound) :
      Piece.assemble (fun _ => ("&lt;" : Text)) ps = escapeForeign t := by
    induction scan with
    | nil => rfl
    | @plain b c t ps none _ ih =>
        have stays : ¬ (c = '<' ∧ isKept t = false) := by
          rintro ⟨rfl, kept⟩
          have found := (foreignBracket_reads (b := b) kept).matchAt inside
          rw [List.singleton_append, none] at found
          cases found
        rw [escapeForeign, if_neg stays, ← ih (Nat.le_of_succ_le inside)]
        rfl
    | @found b w t m ps full matched _ ih =>
        obtain ⟨rfl, takes⟩ := matchAt_found matched
        have bracket := foreignBracket_takes takes
        rw [bracket] at matched inside ⊢
        have kept : isKept t = false := by
          rw [← Bool.not_eq_true]
          intro kept
          rw [List.singleton_append, (foreignBracket_fails kept).matchAt inside] at matched
          cases matched
        rw [List.singleton_append, escapeForeign, if_pos ⟨rfl, kept⟩, ← ih (Nat.le_of_succ_le inside)]
        rfl
  exact all (pieces_scan foreignBracket_advances t) (Nat.le_refl _)

theorem sanitise_eq (t : Text) : sanitise t = escapeForeign (sanitiseTags t) := foreignBracket_apply _

/-! ## What stands behind a bracket -/

theorem escapeForeign_bracket (t : Text) : ∃ d u, escapeForeign ('<' :: t) = d :: u ∧ d ∈ ("<&" : Text) := by
  rw [escapeForeign]
  split
  · exact ⟨'&', _, rfl, by decide⟩
  · exact ⟨'<', _, rfl, by decide⟩

theorem escapeForeign_cons (other : c ≠ '<') : escapeForeign (c :: t) = c :: escapeForeign t := by
  rw [escapeForeign, if_neg fun h => other h.1]
  rfl

/-- Words without brackets begin a text with escaped brackets where they begin the text itself. -/
theorem isPrefixOf_escapeForeign (plain : ∀ d ∈ w, d ∉ ("<&" : Text)) (t : Text) :
    w.isPrefixOf (escapeForeign t) = w.isPrefixOf t := by
  induction w generalizing t with
  | nil => rfl
  | cons d w ih =>
      obtain ⟨here, later⟩ := List.forall_mem_cons.1 plain
      cases t with
      | nil => rfl
      | cons c t =>
          by_cases bracket : c = '<'
          · subst bracket
            obtain ⟨e, u, escaped, mark⟩ := escapeForeign_bracket t
            have other {e : Char} (mark : e ∈ ("<&" : Text)) : (d == e) = false :=
              beq_eq_false_iff_ne.2 fun same => here (same ▸ mark)
            rw [escaped, List.isPrefixOf_cons_cons, List.isPrefixOf_cons_cons, other mark, other (by decide)]
            rfl
          · rw [escapeForeign_cons bracket, List.isPrefixOf_cons_cons, List.isPrefixOf_cons_cons, ih later]

theorem isKept_escapeForeign (t : Text) : isKept (escapeForeign t) = isKept t := by
  have first : (escapeForeign t).head?.any (anyOf "m/") = t.head?.any (anyOf "m/") := by
    cases t with
    | nil => rfl
    | cons c t =>
        by_cases bracket : c = '<'
        · subst bracket
          obtain ⟨e, u, escaped, mark⟩ := escapeForeign_bracket t
          have other : ∀ e ∈ ("<&" : Text), anyOf "m/" e = false := by decide
          rw [escaped]
          exact (other e mark).trans (other '<' (by decide)).symm
        · rw [escapeForeign_cons bracket]
          rfl
  rw [isKept, isPrefixOf_escapeForeign (by decide), isPrefixOf_escapeForeign (by decide), first]
  rfl

theorem leadingName_escapeForeign {name : Text} (plain : ∀ d ∈ name, d ∉ ("<&" : Text)) (t : Text) :
    leadingName (escapeForeign t) = name ↔ leadingName t = name := by
  induction t generalizing name with
  | nil => rfl
  | cons c t ih =>
      by_cases bracket : c = '<'
      · subst bracket
        obtain ⟨e, u, escaped, mark⟩ := escapeForeign_bracket t
        have other {e : Char} (mark : e ∈ ("<&" : Text)) (u : Text) : leadingName (e :: u) ≠ name := by
          have named : ∀ e ∈ ("<&" : Text), inName e = true := by decide
          rw [leadingName, List.takeWhile_cons_of_pos (named e mark)]
          rintro rfl
          exact plain e List.mem_cons_self mark
        rw [escaped]
        exact iff_of_false (other mark u) (other (by decide) t)
      · rw [escapeForeign_cons bracket, leadingName, leadingName, List.takeWhile_cons, List.takeWhile_cons]
        split
        · cases name with
          | nil => exact iff_of_false (List.cons_ne_nil _ _) (List.cons_ne_nil _ _)
          | cons d name =>
              rw [List.cons.injEq, List.cons.injEq]
              exact and_congr_right fun _ => ih (List.forall_mem_cons.1 plain).2
        · rfl

theorem behindSlash_escapeForeign (t : Text) : behindSlash (escapeForeign t) = escapeForeign (behindSlash t) := by
  cases t with
  | nil => rfl
  | cons c t =>
      by_cases bracket : c = '<'
      · subst bracket
        obtain ⟨e, u, escaped, mark⟩ := escapeForeign_bracket t
        have other : e ≠ '/' := by
          rintro rfl
          exact absurd mark (by decide)
        rw [show behindSlash ('<' :: t) = '<' :: t by simp [behindSlash], escaped, behindSlash]
        simpa using other
      · rw [escapeForeign_cons bracket]
        by_cases slash : c = '/'
        · subst slash
          rfl
        · rw [behindSlash, behindSlash, escapeForeign_cons bracket]
          · simpa using slash
          · simpa using slash

theorem namesElement_escapeForeign (t : Text) : namesElement (escapeForeign t) = namesElement t := by
  have plain : ∀ name ∈ elements, ∀ d ∈ name, d ∉ ("<&" : Text) := by decide +kernel
  rw [Bool.eq_iff_iff, namesElement, namesElement, behindSlash_escapeForeign, List.contains_iff_mem,
    List.contains_iff_mem]
  constructor
  · intro mem
    rwa [← (leadingName_escapeForeign (plain _ mem) _).1 rfl] at mem
  · intro mem
    rwa [← (leadingName_escapeForeign (plain _ mem) _).2 rfl] at mem

/-! ## The brackets that are left -/

theorem eachBracket_entity : EachBracket P (("&lt;" : Text) ++ t) ↔ EachBracket P t := by
  show EachBracket P ('&' :: 'l' :: 't' :: ';' :: t) ↔ _
  simp [eachBracket_cons]

/-- A property that does not see escaped brackets holds behind every bracket that is left where it holds behind every
    bracket that is kept. -/
theorem eachBracket_escapeForeign (same : ∀ t, P (escapeForeign t) ↔ P t) (t : Text) :
    EachBracket P (escapeForeign t) ↔ EachBracket (fun v => isKept v = true → P v) t := by
  induction t with
  | nil => exact iff_of_true eachBracket_nil eachBracket_nil
  | cons c t ih =>
      rw [eachBracket_cons, ← ih]
      by_cases bracket : c = '<'
      · cases kept : isKept t with
        | false =>
            rw [escapeForeign, if_pos ⟨bracket, kept⟩, eachBracket_entity]
            simp
        | true =>
            rw [escapeForeign, if_neg (by simp [kept]), List.singleton_append, eachBracket_cons, same]
            simp
      · rw [escapeForeign_cons bracket, eachBracket_cons]
        simp [bracket]

/-- Of a block without its unsafe attributes exactly the brackets are escaped that nothing keeps, and each bracket that is
    left is followed by the name of an element exactly when each that is kept was. -/
theorem blocks_named_iff (t : Text) : blocks t = (rawBlocks t).map sanitise ∧ ∀ raw ∈ rawBlocks t,
    sanitise raw = escapeForeign (sanitiseTags raw) ∧ EachBracket (isKept · = true) (sanitise raw) ∧
      (EachBracket (namesElement · = true) (sanitise raw) ↔
        EachBracket (fun v => isKept v = true → namesElement v = true) (sanitiseTags raw)) := by
  refine ⟨blocks_eq t, fun raw _ => ?_⟩
  rw [sanitise_eq]
  refine ⟨rfl, ?_, ?_⟩
  · rw [eachBracket_escapeForeign fun t => by rw [isKept_escapeForeign]]
    exact fun _ _ _ => id
  · exact eachBracket_escapeForeign (fun t => by rw [namesElement_escapeForeign]) _

/-- A block with an element, an unsafe attribute and a bracket that is escaped. -/
theorem blocks_named_iff_element :
    EachBracket (namesElement · = true) (sanitise "<math><mi style='x'>a</mi> <b></math>") :=
  ((blocks_named_iff "a <math><mi style='x'>a</mi> <b></math>").2 _ (by decide +kernel)).2.2.2 (by decide +kernel)

/-- A name that begins with an m need not be the name of an element. -/
theorem blocks_not_named : ¬ ∀ t : Text, ∀ b ∈ blocks t, EachBracket (namesElement · = true) b := by
  intro h
  have foreign := h "<math><marquee>x</marquee></math>" "<math><marquee>x</marquee></math>" (by decide +kernel)
  exact absurd foreign (by decide)

end LessonText.MathML
