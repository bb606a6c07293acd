import Mathlib.Data.List.Chain
import LessonText.Proofs.Markup.EquationGrammar
import LessonText.Proofs.Warden.Draft

/-! # Entities in an equation

The first rewrites put entities for the signs of an equation. They leave everything else: names are no bases, and what
one rewrite writes holds nothing that a later one looks for.
-/

namespace LessonText

namespace Maths

open Pattern Unicode

variable {r : Rewrite} {b : Option Char} {s c : Char} {t x : Text} {e : Equation}

theorem IsSymbol.plain (h : IsSymbol c) : isSpace c = false ∧ c.isAlphanum = false ∧ 128 ≤ c.toNat := by
  have all : (charsOf alphanumRanges).all (fun d =>
      !isSpace (symbol d) && !(symbol d).isAlphanum && 128 ≤ (symbol d).toNat) = true := by decide
  obtain ⟨d, alphanum, rfl⟩ := h
  simpa [and_assoc] using of_isAlphanum all alphanum

theorem IsSymbol.ne {d : Char} (h : IsSymbol c) (ascii : d.toNat < 128) : c ≠ d := by
  rintro rfl
  exact absurd h.plain.2.2 (by omega)

theorem Base.isSymbol (y : Base) : ∀ c ∈ y.text.map symbol, IsSymbol c :=
  List.forall_mem_map.2 fun c hc => ⟨c, y.isAlphanum c hc, rfl⟩

/-! ## Signs with space around them -/

theorem spaced_mayBegin (solid : isSpace c = false) (other : c ≠ s) : (spaced (literal [s])).mayBegin c = false := by
  simp [spaced, mayBegin, passes, solid, other]

theorem spaced_takes {p : Pattern} {w z : Text} {gs : List (Nat × Text)} (h : (spaced p).Takes b w z gs) :
    ∃ u v y b' z' gs', w = u ++ (v ++ y) ∧ (∀ c ∈ u, isSpace c = true) ∧ p.Takes b' v z' gs' := by
  obtain ⟨_, y, _, _, rfl, -, ⟨u, v, _, _, rfl, -, spaces, takes⟩, -⟩ := h
  exact ⟨u, v, y, _, _, _, List.append_assoc _ _ _, spaces.1, takes⟩

/-- Where no space stands before a sign, it is not found in a text without it. -/
theorem spaced_passes (none : s ∉ x) (next : ∀ c ∈ t.head?, isSpace c = false ∧ c ≠ s) :
    (spaced (literal [s])).Passes b x t := by
  rintro u v rfl full w z gs ahead takes
  obtain ⟨a, _, y, _, _, _, rfl, spaces, sign⟩ := spaced_takes takes
  obtain ⟨rfl, -⟩ := takes_literal.1 sign
  rw [List.append_assoc, List.append_assoc] at ahead
  have outside : s ∉ v := fun mem => none (List.mem_append_right u mem)
  rcases List.append_eq_append_iff.1 ahead with ⟨x, rfl, behind⟩ | ⟨x, rfl, behind⟩
  · cases x with
    | nil => exact (next s (by rw [behind]; rfl)).2 rfl
    | cons d x =>
        have space := spaces d (by simp)
        rw [(next d (by rw [behind]; rfl)).1] at space
        cases space
  · cases x with
    | nil => exact (next s (by rw [show t = _ from behind.symm]; rfl)).2 rfl
    | cons d x =>
        obtain ⟨rfl, -⟩ := List.cons.inj behind
        exact outside (by simp)

theorem spaced_reads {p : Pattern} {u v w : Text} (before : ∀ c ∈ u, isSpace c = true)
    (stops : ∀ c ∈ (v ++ (w ++ t)).head?, isSpace c = false) (reads : p.Reads (u.getLast?.or b) v (w ++ t) [])
    (after : ∀ c ∈ w, isSpace c = true) (next : ∀ c ∈ t.head?, isSpace c = false) :
    (spaced p).Reads b (u ++ (v ++ w)) t [] := by
  have all := ((Reads.span before stops).append reads).append (.span after next)
  rwa [List.append_assoc] at all

theorem not_isSpace_of_isAlphanum (h : c.isAlphanum = true) : isSpace c = false := by
  have all : (charsOf alphanumRanges).all (fun c => !isSpace c) = true := by decide
  simpa using of_isAlphanum all h

/-- What begins with a base. -/
theorem Base.head (y : Base) {p : Char → Prop} (each : ∀ c, c.isAlphanum = true → p c) : ∀ c ∈ (y.text ++ t).head?, p c := by
  rw [List.head?_append_of_ne_nil _ y.isBase.1]
  exact fun c hc => each c (y.isAlphanum c (List.mem_of_mem_head? hc))

/-- A sign with space around it becomes a text. -/
def signRewrite (s : Char) (n : Text) : Rewrite := ⟨spaced (literal [s]), fun _ => " " ++ (n ++ " ")⟩

theorem signRewrite_eq {n : Text} (v w : Text) (hs : [s] = v) (hn : " " ++ (n ++ " ") = w) :
    signRewrite s n = ⟨spaced (literal v), fun _ => w⟩ := by
  subst hs hn
  rfl

/-- A sign becomes its entity, and the other signs stay. -/
theorem sign_apply {n : Text} (apart : isSpace s = false ∧ s.isAlphanum = false ∧ s ∉ ("_^/" : Text)) (sign sign' : Op → Text)
    (each : ∀ o, sign o = [s] ∧ sign' o = n ∨ s ∉ sign o ∧ sign' o = sign o) (e : Equation) :
    (signRewrite s n).apply ((Style.flat id sign).write e) = (Style.flat id sign').write e := by
  have advances : (spaced (literal [s])).Advances := .of_passes rfl
  have solid {c : Char} (alphanum : c.isAlphanum = true) : isSpace c = false ∧ c ≠ s := by
    refine ⟨not_isSpace_of_isAlphanum alphanum, ?_⟩
    rintro rfl
    exact Bool.false_ne_true (apart.2.1.symm.trans alphanum)
  have between {c : Char} (mark : c ∈ ("_^/" : Text)) : isSpace c = false ∧ c ≠ s := by
    have all : ∀ c ∈ ("_^/" : Text), isSpace c = false := by decide
    exact ⟨all c mark, fun same => apart.2.2 (same ▸ mark)⟩
  have bases (y : Base) (b t) : (signRewrite s n).Writes b y.text t y.text :=
    .stays (.of_begin advances fun c hc => spaced_mayBegin (solid (y.isAlphanum c hc)).1 (solid (y.isAlphanum c hc)).2)
  have marks (c) (hc : c ∈ ("_^/" : Text)) (b t) : (signRewrite s n).Writes b [c] t [c] :=
    .stays (.of_begin advances (List.forall_mem_singleton.2 (spaced_mayBegin (between hc).1 (between hc).2)))
  refine (Style.flat_writes (fun y b t _ _ => bases y b t) (fun c hc y b t _ => marks c hc b _)
    (fun o y b t _ => ?_) e).apply advances
  have next : ∀ c ∈ (y.text ++ t).head?, isSpace c = false ∧ c ≠ s := y.head fun c => solid
  rcases each o with ⟨here, written⟩ | ⟨other, same⟩
  · rw [here, written]
    have stops : ∀ c ∈ ([s] ++ (" " ++ (y.text ++ t))).head?, isSpace c = false := by
      rintro _ ⟨⟩
      exact apart.1
    exact .becomes (List.cons_ne_nil _ _)
      (spaced_reads (by decide) stops (.literal [s]) (by decide) fun c hc => (next c hc).1)
  · have notSpace : s ≠ ' ' := by
      rintro rfl
      exact absurd apart.1 (by decide)
    rw [same]
    exact .stays (spaced_passes (by simp [other, notSpace]) next)

/-! ## Names -/

theorem not_isAlpha_of_isDigit (h : c.isDigit = true) : c.isAlpha = false := by
  have all : (charsOf letterRanges).all (fun c => !c.isDigit) = true := by decide
  by_contra letter
  have other := of_isAlpha all (by simpa using letter)
  simp [h] at other

theorem not_isAlpha_of_mark (c : Char) (h : c ∈ ("_^/ " : Text) ∨ c.isDigit = true) : c.isAlpha = false := by
  have all : ∀ c ∈ ("_^/ " : Text), c.isAlpha = false := by decide
  exact h.elim (all c) not_isAlpha_of_isDigit

/-- A word at the start of a base is the whole of it if no letter follows. -/
theorem Base.eq_of_word (y : Base) {p : Char → Bool} (other : ∀ c, c ∈ ("_^/ " : Text) ∨ c.isDigit = true → p c = false)
    (ends : Style.Ends t) {v z : Text} (split : y.text ++ t = v ++ z) (full : v ≠ []) (word : ∀ c ∈ v, p c = true)
    (stop : ∀ c ∈ z.head?, c.isAlpha = false) :
    y.text = v ∧ (∀ c ∈ v, c.isAlpha = true) ∧ v ∉ Greek.names ∧ v.map Char.toLower ∉ functions ∧ v ≠ "ne" := by
  have inside : ∃ x, y.text = v ++ x ∧ z = x ++ t := by
    rcases List.append_eq_append_iff.1 split with ⟨x, rfl, behind⟩ | found
    · cases x with
      | nil => exact ⟨[], by simp, behind.symm⟩
      | cons c x =>
          have marked := word c (by simp)
          rw [other c (.inl (ends c (by rw [behind]; rfl)))] at marked
          cases marked
    · exact found
  obtain ⟨x, whole, rfl⟩ := inside
  obtain ⟨c, v, rfl⟩ := List.exists_cons_of_ne_nil full
  rcases y.isBase.2 with digits | ⟨letters, other⟩
  · have first := word c List.mem_cons_self
    rw [other c (.inr (digits c (by simp [whole])))] at first
    cases first
  · cases x with
    | nil =>
        rw [List.append_nil] at whole
        rw [whole] at letters other
        exact ⟨whole, letters, other⟩
    | cons d x =>
        have letter := letters d (by simp [whole])
        rw [stop d rfl] at letter
        cases letter

/-- The sign of an inequality between spaces. -/
def unequal : Rewrite := ⟨span1 isSpace ++ "ne" ++ followedBy (· == ' '), fun _ => " &ne; "⟩

theorem unequal_misses (solid : ∀ c ∈ t.head?, isSpace c = false) (other : ¬ "ne " <+: t) :
    unequal.pattern.Misses b (' ' :: t) := by
  rintro w z gs ahead ⟨_, _, _, _, rfl, -, ⟨u, v, _, _, rfl, -, spaces, name⟩, rfl, space, -⟩
  obtain ⟨rfl, -⟩ := takes_literal.1 name
  obtain ⟨full, all, -⟩ := takes_span1.1 spaces
  obtain ⟨c, u, rfl⟩ := List.exists_cons_of_ne_nil full
  rw [List.append_nil, List.append_assoc] at ahead
  obtain ⟨rfl, behind⟩ := List.cons.inj ahead
  obtain ⟨z, rfl⟩ : ∃ z', z = ' ' :: z' := by
    cases z with
    | nil => cases space
    | cons d z => exact ⟨z, congrArg (· :: z) (beq_iff_eq.1 space)⟩
  cases u with
  | nil => exact other ⟨z, by simpa using behind.symm⟩
  | cons d u =>
      have none := solid d (by rw [behind]; rfl)
      rw [all d (by simp)] at none
      cases none

theorem unequal_apply (e : Equation) :
    unequal.apply ((Style.flat id Op.entity).write e) = (Style.flat id Op.entity).write e := by
  have advances : unequal.pattern.Advances := .of_passes rfl
  have solid {w t : Text} (h : ∀ c ∈ w, isSpace c = false) {b : Option Char} : unequal.Writes b w t w :=
    .stays (.of_begin advances fun c hc => by simp [unequal, span1, h c hc])
  refine (Style.flat_writes (fun y b t _ _ => solid fun c hc => not_isSpace_of_isAlphanum (y.isAlphanum c hc))
    (fun c hc y b t _ => solid ?_) (fun o y b t ends => ?_) e).apply advances
  · have all : ∀ c ∈ ("_^/" : Text), ∀ d ∈ [c], isSpace d = false := by decide
    exact all c hc
  · have space {b : Option Char} {t : Text} (solid : ∀ c ∈ t.head?, isSpace c = false) (other : ¬ "ne " <+: t) :
        unequal.Writes b " " t " " := .stays (.cons (unequal_misses solid other) .nil)
    have inside : ∀ c ∈ o.entity, isSpace c = false := by cases o <;> decide
    have first : ∀ c ∈ ("+&" : Text), c ≠ 'n' := by decide
    have before : unequal.Writes b " " (o.entity ++ " " ++ (y.text ++ t)) " " := by
      obtain ⟨c, v, begins, listed⟩ := o.entity_cons
      rw [begins] at inside ⊢
      refine space ?_ ?_
      · rintro _ ⟨⟩
        exact inside c List.mem_cons_self
      · rintro ⟨z, same⟩
        exact first c listed (List.cons.inj same).1.symm
    refine before.append ((solid inside).append (space (y.head fun c => not_isSpace_of_isAlphanum) ?_))
    rintro ⟨z, same⟩
    have word : ∀ c ∈ ("ne" : Text), c.isAlpha = true := by decide
    obtain ⟨-, -, -, -, other⟩ := y.eq_of_word (p := Char.isAlpha) not_isAlpha_of_mark ends (v := "ne") (z := ' ' :: z)
      same.symm (by decide) word (by rintro _ ⟨⟩; rfl)
    exact other rfl

/-- The pattern matches words: it begins with a letter, behind no other letter and no ampersand. -/
def OfWords (p : Pattern) : Prop := ∀ b w z gs, p.Takes b w z gs →
  (∀ c ∈ b, (c.isAlpha || c == '&') = false) ∧ ∃ c v, w = c :: v ∧ c.isAlpha = true

theorem OfWords.advances {p : Pattern} (h : OfWords p) : p.Advances := by
  intro b w z gs takes
  obtain ⟨-, c, v, rfl, -⟩ := h _ _ _ _ takes
  exact List.cons_ne_nil _ _

theorem OfWords.misses {p : Pattern} (h : OfWords p) (other : ∀ c ∈ t.head?, c.isAlpha = false) : p.Misses b t := by
  rintro w z gs rfl takes
  obtain ⟨-, c, v, rfl, letter⟩ := h _ _ _ _ takes
  rw [other c rfl] at letter
  cases letter

theorem OfWords.passes {p : Pattern} (h : OfWords p) (first : p.Misses b (x ++ t))
    (chain : x.IsChain fun c d => d.isAlpha = true → (c.isAlpha || c == '&') = true) : p.Passes b x t := by
  rintro u v rfl full
  rcases List.eq_nil_or_concat' u with rfl | ⟨u, c, rfl⟩
  · exact first
  · rintro w z gs ahead takes
    obtain ⟨behind, d, w, rfl, letter⟩ := h _ _ _ _ takes
    obtain ⟨e, v, rfl⟩ := List.exists_cons_of_ne_nil full
    obtain ⟨rfl, -⟩ := List.cons.inj ahead
    have inside := List.isChain_iff_forall_rel_of_append_cons_cons.1 chain (List.append_assoc u [c] _) letter
    rw [behind c (by simp)] at inside
    cases inside

theorem OfWords.passes_of_forall {p : Pattern} (h : OfWords p) (none : ∀ c ∈ x, c.isAlpha = false) : p.Passes b x t := by
  rintro u v rfl full
  refine h.misses fun c hc => none c ?_
  rw [List.head?_append_of_ne_nil _ full] at hc
  exact List.mem_append_right u (List.mem_of_mem_head? hc)

theorem Base.chain (y : Base) : y.text.IsChain fun c d => d.isAlpha = true → (c.isAlpha || c == '&') = true := by
  refine List.isChain_iff_forall_rel_of_append_cons_cons.2 fun {c d u v} split letter => ?_
  rcases y.isBase.2 with digits | ⟨letters, -⟩
  · rw [not_isAlpha_of_isDigit (digits d (by simp [split]))] at letter
    cases letter
  · simp [letters c (by simp [split])]

theorem names_letters : ∀ name ∈ Greek.names, name ≠ [] ∧ ∀ c ∈ name, c.isAlpha = true := by decide

theorem name_takes {name w z : Text} {gs : List (Nat × Text)} (h : (Greek.nameRewrite name).pattern.Takes b w z gs) :
    (∀ c ∈ b, (c.isAlpha || c == '&') = false) ∧ w = name ∧ ∀ c ∈ z.head?, c.isAlpha = false := by
  obtain ⟨_, _, _, _, rfl, -, ⟨_, _, _, _, rfl, -, ⟨rfl, before, -⟩, word⟩, ⟨rfl, behind, -⟩⟩ := h
  obtain ⟨rfl, -⟩ := takes_literal.1 word
  refine ⟨?_, List.append_nil _, ?_⟩
  · rintro c rfl
    simpa using before
  · have stop : (!z.head?.any Char.isAlpha) = true := behind
    rintro c hc
    rw [Option.mem_def.1 hc] at stop
    simpa using stop

theorem name_ofWords {name : Text} (mem : name ∈ Greek.names) : OfWords (Greek.nameRewrite name).pattern := by
  intro b w z gs takes
  obtain ⟨before, rfl, -⟩ := name_takes takes
  obtain ⟨full, letters⟩ := names_letters w mem
  obtain ⟨c, v, rfl⟩ := List.exists_cons_of_ne_nil full
  exact ⟨before, c, v, rfl, letters c List.mem_cons_self⟩

/-- No base is the name of a Greek letter. -/
theorem names_apply (e : Equation) : Greek.replaceNames (Style.source.write e) = Style.source.write e := by
  refine Rewrite.applyAll_of_forall (List.forall_mem_map.2 fun name mem => ?_)
  have words := name_ofWords mem
  refine (Style.flat_writes (fun y b t _ ends => .stays (words.passes ?_ y.chain))
    (fun c hc y b t _ => .stays (words.passes (words.misses ?_) (.singleton c)))
    (fun o y b t _ => .stays (words.passes (words.misses ?_) ?_)) e).apply words.advances
  · rintro w z gs split takes
    obtain ⟨-, rfl, stop⟩ := name_takes takes
    obtain ⟨full, letters⟩ := names_letters w mem
    exact (y.eq_of_word not_isAlpha_of_mark ends split full letters stop).2.2.1 mem
  · rintro _ ⟨⟩
    exact not_isAlpha_of_mark c (.inl (Style.ends_of_mark c hc))
  · rintro _ ⟨⟩
    rfl
  · cases o <;> decide

/-! ## Functions -/

/-- A name in whatever case, and no letter behind it. -/
def Named (name t : Text) : Prop :=
  ∃ v z, t = v ++ z ∧ List.Forall₂ (fun c d => sameLetter c d = true) name v ∧ ∀ c ∈ z.head?, letterFold c = false

/-- A letter of a function, in whatever case. -/
def isNameLetter (c : Char) : Bool := ("sqrtumin" : Text).any (sameLetter · c)

theorem function_takes {name w z : Text} {gs : List (Nat × Text)} (h : (functionName name).Takes b w z gs) :
    b = none ∧ Named name (w ++ z) ∨ ∃ c v, w = c :: v ∧ letterFold c = false ∧ c ≠ '&' ∧ Named name (v ++ z) := by
  obtain ⟨_, _, _, _, rfl, -, ⟨_, v, _, _, rfl, -, ⟨_, before, -⟩, word⟩, ⟨rfl, behind, -⟩⟩ := h
  obtain ⟨same, -⟩ := takes_literalFold.1 word
  have stop : (!z.head?.any letterFold) = true := behind
  have named : Named name (v ++ z) := by
    refine ⟨v, z, rfl, same, fun c hc => ?_⟩
    rw [Option.mem_def.1 hc] at stop
    simpa using stop
  rw [List.append_nil]
  rcases takes_or.1 before with ⟨rfl, start, -⟩ | one
  · exact .inl ⟨Option.isNone_iff_eq_none.1 start, named⟩
  · obtain ⟨c, accepted, rfl, -⟩ := takes_one.1 one
    rw [Bool.and_eq_true, Bool.not_eq_true', bne_iff_ne] at accepted
    exact .inr ⟨c, v, rfl, accepted.1, accepted.2, named⟩

variable {name : Text}

theorem function_letters : ∀ name ∈ functions, name ≠ [] ∧ ∀ d ∈ name, d ∈ ("sqrtumin" : Text) := by decide

theorem Named.head (mem : name ∈ functions) (h : Named name t) : ∃ c ∈ t.head?, isNameLetter c = true := by
  obtain ⟨full, known⟩ := function_letters name mem
  obtain ⟨_, z, rfl, same, -⟩ := h
  cases same with
  | nil => exact absurd rfl full
  | @cons _ d _ v here _ => exact ⟨d, rfl, List.any_eq_true.2 ⟨_, known _ List.mem_cons_self, here⟩⟩

theorem not_isNameLetter (c : Char) (h : c ∈ ("_^/ " : Text) ∨ c.isDigit = true) : isNameLetter c = false := by
  have marks : ∀ c ∈ ("_^/ " : Text), isNameLetter c = false := by decide +kernel
  have digits : (charsOf alphanumRanges).all (fun c => !c.isDigit || !isNameLetter c) = true := by decide +kernel
  rcases h with mark | digit
  · exact marks c mark
  · have here := of_isAlphanum digits (c := c) (by simp [Char.isAlphanum, digit])
    simpa [digit] using here

/-- ASCII letters that are a name in whatever case. -/
theorem lower_eq {v : Text} (same : List.Forall₂ (fun c d => sameLetter c d = true) name v)
    (known : ∀ d ∈ name, d ∈ ("sqrtumin" : Text)) (letters : ∀ c ∈ v, c.isAlpha = true) : v.map Char.toLower = name := by
  have low : ∀ d ∈ ("sqrtumin" : Text), (charsOf letterRanges).all (fun c => !sameLetter d c || c.toLower == d) = true := by
    decide +kernel
  induction same with
  | nil => rfl
  | @cons d c name v here _ ih =>
      obtain ⟨listed, known⟩ := List.forall_mem_cons.1 known
      obtain ⟨letter, letters⟩ := List.forall_mem_cons.1 letters
      have lower := of_isAlpha (low d listed) letter
      rw [here, Bool.not_true, Bool.false_or, beq_iff_eq] at lower
      rw [List.map_cons, lower, ih known letters]

theorem isAlpha_of_letterFold (h : letterFold c = false) : c.isAlpha = false := by
  have fold : (charsOf letterRanges).all letterFold = true := by decide +kernel
  by_contra letter
  have folded := of_isAlpha fold (by simpa using letter)
  rw [h] at folded
  cases folded

/-- No base is the name of a function. -/
theorem Base.not_named (y : Base) (mem : name ∈ functions) (ends : Style.Ends t) : ¬ Named name (y.text ++ t) := by
  rintro ⟨v, z, split, same, stop⟩
  obtain ⟨full, known⟩ := function_letters name mem
  have word : ∀ c ∈ v, isNameLetter c = true := by
    intro c hc
    obtain ⟨i, inside, rfl⟩ := List.getElem_of_mem hc
    have within : i < name.length := by rwa [same.length_eq]
    exact List.any_eq_true.2 ⟨_, known _ (List.getElem_mem within), same.get within inside⟩
  have filled : v ≠ [] := by
    rintro rfl
    exact full (List.forall₂_nil_right_iff.1 same)
  obtain ⟨-, letters, -, other, -⟩ := y.eq_of_word not_isNameLetter ends split filled word
    fun c hc => isAlpha_of_letterFold (stop c hc)
  rw [lower_eq same known letters] at other
  exact other mem

/-- A name is found at the start of a text, or behind a character that is no letter and no ampersand. -/
theorem function_passes (mem : name ∈ functions) (first : ¬ Named name (x ++ t))
    (chain : x.IsChain fun c d => letterFold c = true ∨ c = '&' ∨ isNameLetter d = false)
    (last : ∀ c ∈ x.getLast?, letterFold c = true ∨ c = '&' ∨ ¬ Named name t) : (functionName name).Passes b x t := by
  rintro u v rfl full w z gs ahead takes
  rcases function_takes takes with ⟨start, named⟩ | ⟨c, w, rfl, notLetter, notAmpersand, named⟩
  · cases u with
    | nil =>
        rw [← ahead] at named
        exact first named
    | cons c u => simp [List.getLast?_cons] at start
  · obtain ⟨d, v, rfl⟩ := List.exists_cons_of_ne_nil full
    obtain ⟨rfl, behind⟩ : d = c ∧ v ++ t = w ++ z := List.cons.inj ahead
    rw [← behind] at named
    cases v with
    | nil =>
        rcases last d (by simp) with letter | ampersand | none
        · exact Bool.false_ne_true (notLetter.symm.trans letter)
        · exact notAmpersand ampersand
        · exact none named
    | cons e v =>
        obtain ⟨g, here, marked⟩ := named.head mem
        obtain rfl : e = g := Option.some.inj here
        rcases List.isChain_iff_forall_rel_of_append_cons_cons.1 chain rfl with letter | ampersand | other
        · exact Bool.false_ne_true (notLetter.symm.trans letter)
        · exact notAmpersand ampersand
        · exact Bool.false_ne_true (other.symm.trans marked)

theorem function_apply (mem : name ∈ functions) (f : Match → Text) (e : Equation) :
    Rewrite.apply ⟨functionName name, f⟩ ((Style.flat id Op.entity).write e) = (Style.flat id Op.entity).write e := by
  have passes : ∀ name ∈ functions, (functionName name).passes = true := by decide
  have advances : (functionName name).Advances := .of_passes (passes name mem)
  have none {t : Text} (other : ∀ c ∈ t.head?, isNameLetter c = false) : ¬ Named name t := fun named => by
    obtain ⟨c, hc, marked⟩ := named.head mem
    rw [other c hc] at marked
    cases marked
  have mark {c : Char} (h : c ∈ ("_^/ " : Text)) : isNameLetter c = false := not_isNameLetter c (.inl h)
  have inBase (y : Base) : y.text.IsChain fun c d => letterFold c = true ∨ c = '&' ∨ isNameLetter d = false := by
    refine List.isChain_iff_forall_rel_of_append_cons_cons.2 fun {c d u v} split => ?_
    rcases y.isBase.2 with digits | ⟨letters, -⟩
    · exact .inr (.inr (not_isNameLetter d (.inr (digits d (by simp [split])))))
    · by_contra other
      have letter := letters c (by simp [split])
      rw [isAlpha_of_letterFold (by simpa using (not_or.1 other).1)] at letter
      cases letter
  have inSign (o : Op) : (" " ++ (o.entity ++ " ")).IsChain
      fun c d => letterFold c = true ∨ c = '&' ∨ isNameLetter d = false := by
    cases o <;> decide +kernel
  refine (Style.flat_writes (fun y b t _ ends => .stays ?_) (fun c hc y b t ends => .stays ?_)
    (fun o y b t ends => .stays ?_) e).apply advances
  · exact function_passes mem (y.not_named mem ends) (inBase y) fun _ _ => .inr (.inr (none fun c hc => mark (ends c hc)))
  · refine function_passes mem (none ?_) (.singleton c) fun _ _ => .inr (.inr (y.not_named mem ends))
    rintro _ ⟨⟩
    exact mark (Style.ends_of_mark c hc)
  · refine function_passes mem (none ?_) (inSign o) fun _ _ => .inr (.inr (y.not_named mem ends))
    rintro _ ⟨⟩
    exact mark (by decide)

/-! ## All entities -/

/-- An equation ends with a base. -/
theorem exists_last (e : Equation) : ∃ (u : Text) (y : Base), Style.source.write e = u ++ y.text := by
  have atom (a : Atom) : ∃ (u : Text) (y : Base), Style.source.atom a = u ++ y.text := by
    obtain ⟨y, index, power⟩ := a
    cases power with
    | some z =>
        exact ⟨y.text ++ (Style.source.index index ++ "^"), z, by simp [Style.atom, Style.power, Style.source, Style.flat]⟩
    | none =>
        cases index with
        | some z => exact ⟨y.text ++ "_", z, by simp [Style.atom, Style.index, Style.power, Style.source, Style.flat]⟩
        | none => exact ⟨[], y, by simp [Style.atom, Style.index, Style.power, Style.source, Style.flat]⟩
  have term (x : Term) : ∃ (u : Text) (y : Base), Style.source.term x = u ++ y.text := by
    cases x with
    | atom a => exact atom a
    | fraction above below =>
        obtain ⟨u, y, split⟩ := atom below
        have whole : Style.source.term (.fraction above below) =
            Style.source.atom above ++ ("/" ++ Style.source.atom below) := rfl
        exact ⟨Style.source.atom above ++ ("/" ++ u), y, by simp only [whole, split, List.append_assoc]⟩
  obtain ⟨first, rest⟩ := e
  rcases List.eq_nil_or_concat' rest with rfl | ⟨rest, ⟨o, x⟩, rfl⟩
  · simpa [Style.write, Style.tail] using term first
  · obtain ⟨u, y, split⟩ := term x
    exact ⟨Style.source.term first ++ (Style.source.tail rest ++ (Style.source.sign o ++ u)), y,
      by simp [Style.write, Style.tail, split]⟩

theorem trim_source (e : Equation) : (Style.source.write e).trim = Style.source.write e := by
  obtain ⟨a, z, split, before, behind⟩ := Draft.exists_trim (Style.source.write e)
  have front : a = [] := by
    obtain ⟨y, u, begins, -⟩ := Style.exists_term id (fun o => [o.char]) e.first (.follows (Style.follows_tail e.rest))
    cases a with
    | nil => rfl
    | cons c a =>
        have solid := y.head (t := u) (fun c => not_isSpace_of_isAlphanum) c (by
          rw [show y.text ++ u = Style.source.write e from begins.symm, split]
          rfl)
        rw [before c List.mem_cons_self] at solid
        cases solid
  have back : z = [] := by
    obtain ⟨u, y, ends⟩ := exists_last e
    rcases List.eq_nil_or_concat' z with rfl | ⟨z, c, rfl⟩
    · rfl
    · obtain ⟨v, d, last⟩ := (List.eq_nil_or_concat' y.text).resolve_left y.isBase.1
      rw [split, last, ← List.append_assoc, ← List.append_assoc] at ends
      obtain ⟨-, same⟩ := List.append_inj' ends rfl
      obtain rfl : c = d := (List.cons.inj same).1
      have solid := not_isSpace_of_isAlphanum (y.isAlphanum c (by simp [last]))
      rw [behind c (by simp)] at solid
      cases solid
  rw [front, back, List.append_nil] at split
  exact split.symm

theorem entity_chars (e : Equation) :
    ∀ c ∈ (Style.flat id Op.entity).write e, c ∈ ("_^/ +&;" : Text) ∨ c.isAlphanum = true := by
  have base (y : Base) : ∀ c ∈ y.text, c ∈ ("_^/ +&;" : Text) ∨ c.isAlphanum = true := fun c hc => .inr (y.isAlphanum c hc)
  have mark {s : Char} (listed : s ∈ ("_^/ +&;" : Text)) (t : Text)
      (inside : ∀ c ∈ t, c ∈ ("_^/ +&;" : Text) ∨ c.isAlphanum = true) :
      ∀ c ∈ s :: t, c ∈ ("_^/ +&;" : Text) ∨ c.isAlphanum = true := List.forall_mem_cons.2 ⟨.inl listed, inside⟩
  have bar (t u : Text) (ht : ∀ c ∈ t, c ∈ ("_^/ +&;" : Text) ∨ c.isAlphanum = true)
      (hu : ∀ c ∈ u, c ∈ ("_^/ +&;" : Text) ∨ c.isAlphanum = true) :
      ∀ c ∈ t ++ '/' :: u, c ∈ ("_^/ +&;" : Text) ∨ c.isAlphanum = true :=
    List.forall_mem_append.2 ⟨ht, mark (by decide) u hu⟩
  refine Style.forall_write (Style.forall_term base (mark (s := '_') (by decide)) (mark (s := '^') (by decide)) bar) ?_ e
  intro o
  cases o <;> decide

theorem entities_apply (e : Equation) :
    Rewrite.applyAll entityRewrites (Style.source.write e) = (Style.flat id Op.entity).write e := by
  have minus := sign_apply (s := '-') (n := "&minus;") (by decide) (fun o => [o.char])
    (fun o => if o = .minus then o.entity else [o.char]) (fun o => by cases o <;> decide) e
  have times := sign_apply (s := '*') (n := "&times;") (by decide)
    (fun o => if o = .minus then o.entity else [o.char]) Op.entity (fun o => by cases o <;> decide) e
  have lacks {c : Char} (other : c ∉ ("_^/ +&;" : Text) ∧ c.isAlphanum = false) : c ∉ (Style.flat id Op.entity).write e :=
    fun mem => (entity_chars e c mem).elim other.1 fun alphanum => Bool.false_ne_true (other.2.symm.trans alphanum)
  have leaves {p : Pattern} {c : Char} {f : Match → Text} (needs : p.Needs c)
      (other : c ∉ ("_^/ +&;" : Text) ∧ c.isAlphanum = false) :
      Rewrite.apply ⟨p, f⟩ ((Style.flat id Op.entity).write e) = (Style.flat id Op.entity).write e :=
    Rewrite.apply_of_lacks needs (lacks other)
  rw [signRewrite_eq "-" " &minus; " (by decide) (by decide)] at minus
  rw [signRewrite_eq "*" " &times; " (by decide) (by decide)] at times
  have source : Style.source = Style.flat id fun o => [o.char] := rfl
  -- what is left to find behind the signs is a name that is no base, or a sign that the equation lacks
  unfold entityRewrites
  rw [source, Rewrite.applyAll_cons, minus, Rewrite.applyAll_cons, times]
  refine Rewrite.applyAll_of_forall ?_
  simp only [List.forall_mem_cons]
  exact ⟨unequal_apply e, leaves (c := '=') (.before (.behind (.or (.literal (by decide)) (.literal (by decide))))) (by decide),
    leaves (c := '=') (.before (.behind (.behind (.literal (by decide))))) (by decide),
    leaves (c := '=') (.before (.behind (.behind (.literal (by decide))))) (by decide),
    function_apply (by decide) _ e, function_apply (by decide) _ e, function_apply (by decide) _ e,
    leaves (c := ':') (.behind (.literal (by decide))) (by decide),
    leaves (c := '.') (.before (.behind (.literal (by decide)))) (by decide), by simp⟩

end Maths

end LessonText
