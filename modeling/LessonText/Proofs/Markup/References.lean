import LessonText.Proofs.Markup.Added
import LessonText.Proofs.Markup.EquationTags
import LessonText.Proofs.Markup.Lines

/-! # Entities that an equation keeps

A reference to a character may stand in an equation. If letters name it no rewrite takes a part of it: a rewrite of words
begins behind no letter and no ampersand, and the others pass no letter first. A reference with a digit does not stay, since
every digit becomes a symbol.
-/

namespace LessonText

open Pattern Unicode

/-- Texts that stand in a text one behind another. -/
inductive InOrder : List Text → Text → Prop where
  | nil {t} : InOrder [] t
  | here {x xs t} : InOrder xs t → InOrder (x :: xs) (x ++ t)
  | skip {xs c t} : InOrder xs t → InOrder xs (c :: t)

/-- A reference to a character that letters name. -/
def IsEntity (x : Text) : Prop := ∃ name : Text, x = '&' :: (name ++ [';']) ∧ ∀ c ∈ name, c.isAlpha = true

namespace InOrder

variable {xs : List Text} {x t u w z : Text}

theorem append_left (u : Text) (h : InOrder xs t) : InOrder xs (u ++ t) := by
  induction u with
  | nil => exact h
  | cons c u ih => exact ih.skip

theorem append_right (h : InOrder xs t) (u : Text) : InOrder xs (t ++ u) := by
  induction h with
  | nil => exact .nil
  | here _ ih =>
      rw [List.append_assoc]
      exact ih.here
  | skip _ ih => exact ih.skip

theorem mem (h : InOrder xs t) (hx : x ∈ xs) : ∀ c ∈ x, c ∈ t := by
  induction h with
  | nil => cases hx
  | here _ ih =>
      intro c hc
      rcases List.mem_cons.1 hx with rfl | hx
      · exact List.mem_append_left _ hc
      · exact List.mem_append_right _ (ih hx c hc)
  | skip _ ih => exact fun c hc => List.mem_cons_of_mem _ (ih hx c hc)

variable (entities : ∀ x ∈ xs, IsEntity x)

include entities

/-- Entities do not begin in a text without ampersands. -/
theorem of_append (none : '&' ∉ w) (h : InOrder xs (w ++ t)) : InOrder xs t := by
  induction w with
  | nil => exact h
  | cons c w ih =>
      rw [List.mem_cons, not_or] at none
      generalize split : c :: w ++ t = v at h
      cases h with
      | nil => exact .nil
      | here _ =>
          obtain ⟨name, rfl, -⟩ := entities _ List.mem_cons_self
          exact absurd (List.cons.inj split).1.symm none.1
      | skip h =>
          obtain ⟨-, rfl⟩ := List.cons.inj split
          exact ih none.2 h

/-- Entities do not end in a text without semicolons. -/
theorem of_append_right (none : ';' ∉ z) (h : InOrder xs (t ++ z)) : InOrder xs t := by
  generalize split : t ++ z = v at h
  induction h generalizing t z with
  | nil => exact .nil
  | @here x xs u h ih =>
      obtain ⟨here, later⟩ := List.forall_mem_cons.1 entities
      rcases List.append_eq_append_iff.1 split with ⟨y, rfl, rfl⟩ | ⟨y, rfl, rfl⟩
      · obtain ⟨name, same, -⟩ := here
        rcases List.eq_nil_or_concat' y with rfl | ⟨y, c, rfl⟩
        · have rest : InOrder xs [] := ih later none rfl
          simpa using rest.here (x := t)
        · rw [← List.append_assoc, ← List.cons_append] at same
          obtain ⟨-, last⟩ := List.append_inj' same rfl
          obtain rfl : c = ';' := (List.cons.inj last).1
          exact absurd (by simp) none
      · exact (ih later none rfl).here
  | @skip xs c u h ih =>
      cases t with
      | nil =>
          have split : z = c :: u := split
          exact ih entities (fun mem => none (split ▸ List.mem_cons_of_mem c mem)) rfl
      | cons d t =>
          obtain ⟨rfl, rfl⟩ := List.cons.inj split
          exact (ih entities none rfl).skip

/-- An entity at the start of a text is the first of those in order, or none of them begins in it. -/
theorem of_entity (hw : IsEntity w) (h : InOrder xs (w ++ t)) : InOrder xs t ∨ ∃ ys, xs = w :: ys ∧ InOrder ys t := by
  obtain ⟨name, rfl, letters⟩ := hw
  generalize split : '&' :: (name ++ [';']) ++ t = v at h
  cases h with
  | nil => exact .inl .nil
  | @here x ys u h =>
      obtain ⟨name', rfl, letters'⟩ := entities _ List.mem_cons_self
      have behind : name ++ ';' :: t = name' ++ ';' :: u := by simpa using split
      have stop (t : Text) : ∀ c ∈ (';' :: t).head?, c.isAlpha = false := by
        rintro _ ⟨⟩
        rfl
      obtain ⟨rfl, rest⟩ := Maths.span_eq behind letters (stop t) letters' (stop u)
      obtain ⟨-, rfl⟩ := List.cons.inj rest
      exact .inr ⟨ys, rfl, h⟩
  | @skip _ c u h =>
      obtain rfl : name ++ [';'] ++ t = u := (List.cons.inj split).2
      refine .inl (h.of_append entities fun mem => ?_)
      rcases List.mem_append.1 mem with mem | mem
      · exact absurd (letters '&' mem) (by decide)
      · exact absurd mem (by decide)

end InOrder

namespace Rewrite

/-- A match is apart from entities: it has no ampersand, begins with no letter behind a letter or an ampersand, and keeps a
    semicolon with which it begins. -/
def Apart (b : Option Char) (w u : Text) : Prop :=
  '&' ∉ w ∧ (∀ c ∈ w.head?, c.isAlpha = true → ∀ d ∈ b, (d.isAlpha || d == '&') = false) ∧
    (w.head? = some ';' → u.head? = some ';')

/-- No match takes a part of an entity away. -/
def Keeps (r : Rewrite) : Prop := ∀ b w z gs, r.pattern.Takes b w z gs →
  Apart b w (r.replace ⟨w, gs⟩) ∨ IsEntity w ∧ w <:+: r.replace ⟨w, gs⟩

variable {r : Rewrite} {xs : List Text} {t : Text}

/-- Such a rewrite keeps the entities of a text in order. -/
theorem Keeps.inOrder (keeps : r.Keeps) (advances : r.pattern.Advances) (entities : ∀ x ∈ xs, IsEntity x)
    (h : InOrder xs t) : InOrder xs (r.apply t) := by
  -- a scan stands at the start of a text with all of them, or in the rest of one that has begun
  have all {bound : ℕ} {b : Option Char} {t : Text} {ps : List (Piece Match)}
      (scan : Scan (r.pattern.matchAt bound 0) b t ps) : ∀ xs : List Text, (∀ x ∈ xs, IsEntity x) →
      (InOrder xs t → InOrder xs (Piece.assemble r.replace ps)) ∧
      (∀ v u, t = v ++ ';' :: u → (∀ c ∈ v, c.isAlpha = true) → (∃ c ∈ b, (c.isAlpha || c == '&') = true) →
        InOrder xs u → ∃ y, Piece.assemble r.replace ps = v ++ ';' :: y ∧ InOrder xs y) := by
    induction scan with
    | nil =>
        refine fun xs _ => ⟨id, fun v u split => ?_⟩
        simp at split
    | @plain b c t ps none _ ih =>
        refine fun xs entities => ⟨fun h => ?_, fun v u split letters _ h => ?_⟩
        · generalize split : c :: t = v at h
          cases h with
          | nil => exact .nil
          | @here x ys u h =>
              obtain ⟨⟨name, rfl, letters⟩, later⟩ := List.forall_mem_cons.1 entities
              obtain ⟨rfl, rest⟩ := List.cons.inj split
              obtain ⟨y, written, later⟩ := (ih ys later).2 name u (by simpa using rest) letters ⟨'&', rfl, rfl⟩ h
              have whole : '&' :: Piece.assemble r.replace ps = '&' :: (name ++ [';']) ++ y := by simp [written]
              rw [Piece.assemble, whole]
              exact later.here
          | skip h =>
              obtain ⟨rfl, rfl⟩ := List.cons.inj split
              exact ((ih xs entities).1 h).skip
        · cases v with
          | nil =>
              obtain ⟨rfl, rfl⟩ := List.cons.inj split
              exact ⟨_, rfl, (ih xs entities).1 h⟩
          | cons d v =>
              obtain ⟨rfl, rest⟩ := List.cons.inj split
              obtain ⟨here, later⟩ := List.forall_mem_cons.1 letters
              obtain ⟨y, written, inOrder⟩ := (ih xs entities).2 v u rest later ⟨c, rfl, by simp [here]⟩ h
              exact ⟨y, by rw [Piece.assemble, written]; rfl, inOrder⟩
    | @found b w t m ps full matched _ ih =>
        obtain ⟨rfl, takes⟩ := matchAt_found matched
        refine fun xs entities => ⟨fun h => ?_, fun v u split letters touched h => ?_⟩
        · rcases keeps _ _ _ _ takes with ⟨none, -, -⟩ | ⟨entity, a, z, written⟩
          · exact ((ih xs entities).1 (h.of_append entities none)).append_left _
          · rcases h.of_entity entities entity with behind | ⟨ys, rfl, behind⟩
            · exact ((ih xs entities).1 behind).append_left _
            · have later := ((ih ys (List.forall_mem_cons.1 entities).2).1 behind).append_left z
              rw [Piece.assemble, ← written, List.append_assoc, List.append_assoc]
              exact later.here.append_left a
        · rcases keeps _ _ _ _ takes with ⟨none, before, mark⟩ | ⟨⟨name, entity, -⟩, -⟩
          · have mark : m.text.head? = some ';' → (r.replace m).head? = some ';' := mark
            obtain ⟨c, w, text⟩ := List.exists_cons_of_ne_nil full
            rw [text] at split none before mark
            cases v with
            | nil =>
                obtain ⟨rfl, rfl⟩ := List.cons.inj split
                obtain ⟨n, written⟩ := List.head?_eq_some_iff.1 (mark rfl)
                have behind := h.of_append entities fun mem => none (List.mem_cons_of_mem _ mem)
                exact ⟨n ++ Piece.assemble r.replace ps, by rw [Piece.assemble, written]; rfl,
                  ((ih xs entities).1 behind).append_left n⟩
            | cons d v =>
                obtain ⟨rfl, -⟩ := List.cons.inj split
                obtain ⟨e, inside, letter⟩ := touched
                rw [before c rfl (letters c List.mem_cons_self) e inside] at letter
                cases letter
          · rw [entity] at split
            cases v with
            | nil => exact absurd (List.cons.inj split).1 (by decide)
            | cons d v =>
                obtain ⟨rfl, -⟩ := List.cons.inj split
                exact absurd (letters '&' List.mem_cons_self) (by decide)
  exact ((all (pieces_scan advances t)) xs entities).1 h

/-- A pattern of signs and spaces keeps entities. -/
theorem Keeps.of_begin (none : r.pattern.admits '&' = false) (advances : r.pattern.Advances)
    (first : ∀ c, c.isAlpha = true ∨ c = ';' → r.pattern.mayBegin c = false) : r.Keeps := by
  intro b w z gs takes
  obtain ⟨c, w, rfl⟩ := List.exists_cons_of_ne_nil (advances _ _ _ _ takes)
  have begins (other : c.isAlpha = true ∨ c = ';') : False := by
    have stays := first c other
    rw [takes.mayBegin] at stays
    cases stays
  refine .inl ⟨fun mem => ?_, ?_, ?_⟩
  · rw [takes.admits mem] at none
    cases none
  · rintro _ ⟨⟩ letter
    exact (begins (.inl letter)).elim
  · rintro ⟨⟩
    exact (begins (.inr rfl)).elim

theorem Keeps.of_words (none : r.pattern.admits '&' = false) (words : Maths.OfWords r.pattern) : r.Keeps := by
  intro b w z gs takes
  obtain ⟨before, c, v, rfl, letter⟩ := words _ _ _ _ takes
  refine .inl ⟨fun mem => ?_, fun _ _ _ => before, ?_⟩
  · rw [takes.admits mem] at none
    cases none
  · rintro ⟨⟩
    exact absurd letter (by decide)

end Rewrite

namespace Maths

open Rewrite

variable {xs : List Text} {t : Text}

/-! ## The rewrites of an equation -/

theorem keeps_names : ∀ r ∈ Greek.rewrites, r.Keeps := by
  have all : Greek.names.all (fun name => !(Greek.nameRewrite name).pattern.admits '&') = true := by decide
  intro r hr
  obtain ⟨name, mem, rfl⟩ := List.mem_map.1 hr
  exact .of_words (by simpa using List.all_eq_true.1 all name mem) (name_ofWords mem)

theorem not_isSpace_of_other {c : Char} (other : c.isAlpha = true ∨ c = ';') : isSpace c = false := by
  rcases other with letter | rfl
  · exact not_isSpace_of_isAlphanum (by simp [Char.isAlphanum, letter])
  · decide

theorem keeps_spaced {s : Char} {n : Text} (none : (spaced (literal [s])).admits '&' = false)
    (sign : s.isAlpha = false ∧ s ≠ ';') : Rewrite.Keeps ⟨spaced (literal [s]), fun _ => n⟩ := by
  refine .of_begin none (.of_passes rfl) fun c other => spaced_mayBegin (not_isSpace_of_other other) ?_
  rintro rfl
  exact other.elim (fun letter => Bool.false_ne_true (sign.1.symm.trans letter)) sign.2

theorem keeps_function {name n : Text} (none : (literalFold name).admits '&' = false ∧ (literalFold name).admits ';' = false) :
    Rewrite.Keeps ⟨functionName name, fun m => m.group 1 ++ n⟩ := by
  rintro b _ z _ ⟨_, _, _, _, rfl, rfl, ⟨before, letters, _, _, rfl, rfl, ⟨_, start, rfl⟩, word⟩, rfl, -, rfl⟩
  obtain ⟨-, rfl⟩ := takes_literalFold.1 word
  have noAmpersand : '&' ∉ letters := fun mem => Bool.false_ne_true (none.1.symm.trans (word.admits mem))
  have noMark : ';' ∉ letters := fun mem => Bool.false_ne_true (none.2.symm.trans (word.admits mem))
  rw [List.append_nil]
  rcases takes_or.1 start with ⟨rfl, isStart, -⟩ | one
  · obtain rfl := Option.isNone_iff_eq_none.1 isStart
    exact .inl ⟨noAmpersand, fun _ _ _ => nofun, fun mark => absurd (List.mem_of_mem_head? mark) noMark⟩
  · obtain ⟨c, accepted, rfl, -⟩ := takes_one.1 one
    rw [Bool.and_eq_true, Bool.not_eq_true', bne_iff_ne] at accepted
    refine .inl ⟨by simpa [noAmpersand] using accepted.2.symm, ?_, ?_⟩
    · rintro _ ⟨⟩ letter
      rw [isAlpha_of_letterFold accepted.1] at letter
      cases letter
    · rintro ⟨⟩
      rfl

theorem keeps_letters : letterRewrite.Keeps := .of_words (by decide) letterRewrite_ofWords

theorem keeps_integral {x z : Text} : Rewrite.Keeps ⟨literal "&int;".toList, fun m => x ++ m.text ++ z⟩ := by
  intro b w z gs takes
  obtain ⟨rfl, -⟩ := takes_literal.1 takes
  exact .inr ⟨⟨"int", rfl, by decide⟩, x, _, rfl⟩

/-- Rewrites keep entities if each keeps them or looks for a mark that the text lacks. -/
theorem applyAll_inOrder {rs : List Rewrite} {P : Char → Prop} {marks : Text}
    (adds : ∀ r ∈ rs, r.pattern.Advances ∧ r.Adds P) (kind : ∀ c, P c → c ∉ marks)
    (keeps : ∀ r ∈ rs, r.Keeps ∨ ∃ d ∈ marks, r.pattern.Needs d) (entities : ∀ x ∈ xs, IsEntity x)
    (lacks : ∀ c ∈ t, c ∉ marks) (h : InOrder xs t) : InOrder xs (applyAll rs t) := by
  induction rs generalizing t with
  | nil => exact h
  | cons r rs ih =>
      obtain ⟨⟨advances, first⟩, adds⟩ := List.forall_mem_cons.1 adds
      obtain ⟨here, keeps⟩ := List.forall_mem_cons.1 keeps
      have kept : InOrder xs (r.apply t) := by
        rcases here with here | ⟨d, mark, needs⟩
        · exact here.inOrder advances entities h
        · rwa [apply_of_lacks needs fun mem => lacks d mem mark]
      exact ih adds keeps (first.forall_apply advances kind lacks) kept

theorem keeps_entities : ∀ r ∈ entityRewrites, r.Keeps ∨ ∃ d ∈ ("=:./^_[" : Text), r.pattern.Needs d := by
  have unequal : Rewrite.Keeps ⟨span1 isSpace ++ "ne" ++ followedBy (· == ' '), fun _ => " &ne; "⟩ :=
    .of_begin (by decide) (.of_passes rfl) fun c other => by simpa [span1, passes] using not_isSpace_of_other other
  simp only [entityRewrites, List.forall_mem_cons]
  exact ⟨.inl (keeps_spaced (by decide) (by decide)), .inl (keeps_spaced (by decide) (by decide)), .inl unequal,
    .inr ⟨'=', by decide, .before (.behind (.or (.literal (by decide)) (.literal (by decide))))⟩,
    .inr ⟨'=', by decide, .before (.behind (.behind (.literal (by decide))))⟩,
    .inr ⟨'=', by decide, .before (.behind (.behind (.literal (by decide))))⟩,
    .inl (keeps_function (by decide)), .inl (keeps_function (by decide)), .inl (keeps_function (by decide)),
    .inr ⟨':', by decide, .behind (.literal (by decide))⟩, .inr ⟨'.', by decide, .before (.behind (.literal (by decide)))⟩,
    by simp⟩

theorem keeps_symbols : ∀ r ∈ symbolRewrites, r.Keeps := by
  have digits : Rewrite.Keeps ⟨span1 Char.isDigit, fun m => m.text.map symbol⟩ :=
    .of_begin (by decide) (.of_passes rfl) fun c other => by
      rcases other with letter | rfl
      · simp [span1, mayBegin, not_isDigit_of_isAlpha letter]
      · decide
  simp only [symbolRewrites, List.forall_mem_cons]
  exact ⟨digits, keeps_letters, by simp⟩

/-- Behind fractions, powers and indices. -/
theorem keeps_tags : ∀ r ∈ tagRewrites.drop 3, r.Keeps ∨ ∃ d ∈ ("[" : Text), r.pattern.Needs d := by
  have spaces : Rewrite.Keeps ⟨span1 (· == ' '), fun _ => "&nbsp;"⟩ :=
    .of_begin (by decide) (.of_passes rfl) fun c other => by
      have solid : c ≠ ' ' := by
        rintro rfl
        exact absurd (not_isSpace_of_other other) (by decide)
      simp [span1, mayBegin, solid]
  simp only [tagRewrites, List.drop_succ_cons, List.drop_zero, List.forall_mem_cons]
  exact ⟨.inl spaces, .inl keeps_integral, .inr ⟨'[', by decide, .before (.before (.literal (by decide)))⟩, by simp⟩

/-- An equation without certain marks keeps its entities in order. -/
theorem toHtml_inOrder (entities : ∀ x ∈ xs, IsEntity x) (lacks : ∀ c ∈ t, c ∉ ("=:./^_[" : Text)) (h : InOrder xs t) :
    InOrder xs (toHtml t) := by
  have kind (c : Char) (note : IsNote c) : c ∉ ("=:./^_[" : Text) := by
    have other : ∀ c ∈ ("=:./^_[" : Text), c.toNat < 128 ∧ c.isAlpha = false ∧ c ∉ (" &;" : Text) := by decide
    exact fun mark => not_isNote (other c mark).1 (other c mark).2 note
  have trimmed : InOrder xs t.trim := by
    obtain ⟨a, z, split, before, behind⟩ := Draft.exists_trim t
    rw [split, List.append_assoc] at h
    have notSpace : ∀ c ∈ ("&;" : Text), isSpace c = false := by decide
    refine (h.of_append entities fun mem => ?_).of_append_right entities fun mem => ?_
    · exact Bool.false_ne_true ((notSpace '&' (by decide)).symm.trans (before _ mem))
    · exact Bool.false_ne_true ((notSpace ';' (by decide)).symm.trans (behind _ mem))
  have inTrimmed : ∀ c ∈ t.trim, c ∉ ("=:./^_[" : Text) := fun c hc => lacks c (mem_of_trim hc)
  have named := applyAll_inOrder adds_names kind (fun r hr => .inl (keeps_names r hr)) entities inTrimmed trimmed
  have inNamed := applyAll_forall adds_names kind inTrimmed
  have signed := applyAll_inOrder adds_entities kind keeps_entities entities inNamed named
  have inSigned := applyAll_forall adds_entities kind inNamed
  have shown : InOrder xs (untagged t) :=
    applyAll_inOrder adds_symbols kind (fun r hr => .inl (keeps_symbols r hr)) entities inSigned signed
  have inShown : ∀ c ∈ untagged t, c ∉ ("=:./^_[" : Text) := applyAll_forall adds_symbols kind inSigned
  have lacking {d : Char} (mark : d ∈ ("=:./^_[" : Text)) : d ∉ untagged t := fun mem => inShown d mem mark
  have flat : applyAll (tagRewrites.take 3) (untagged t) = untagged t := by
    refine applyAll_of_forall ?_
    simp only [tagRewrites, List.take_succ_cons, List.take_zero, List.forall_mem_cons]
    exact ⟨apply_of_lacks (.before (.behind (.before (.behind (.literal (by decide)))))) (lacking (d := '/') (by decide)),
      apply_of_lacks (.before (.before (.behind (.literal (by decide))))) (lacking (d := '^') (by decide)),
      apply_of_lacks (.before (.before (.behind (.literal (by decide))))) (lacking (d := '_') (by decide)), by simp⟩
  rw [toHtml_eq, ← List.take_append_drop 3 tagRewrites, applyAll, List.foldl_append]
  change InOrder xs (applyAll (tagRewrites.drop 3) (applyAll (tagRewrites.take 3) (untagged t)))
  rw [flat]
  refine applyAll_inOrder (fun r hr => adds_tags r (List.mem_of_mem_drop hr)) ?_ keeps_tags entities ?_ shown
  · intro c markup bracket
    obtain rfl := List.mem_singleton.1 bracket
    exact absurd markup (by decide)
  · intro c hc bracket
    obtain rfl := List.mem_singleton.1 bracket
    exact lacking (by decide) hc

/-! ## Lists of words, numbers and references -/

/-- A run of characters of a class. -/
structure Run (f : Char → Bool) where
  text : Text
  full : text ≠ []
  all : ∀ c ∈ text, f c = true

/-- A word, a number, or a reference to a character by name or by number. -/
inductive Item where
  | word (letters : Run Char.isAlpha)
  | number (digits : Run Char.isDigit)
  | named (first : Char) (rest : Text) (letter : first.isAlpha = true) (all : ∀ c ∈ rest, c.isAlphanum = true)
  | numeric (digits : Run Char.isDigit)

namespace Item

def reference : Item → Option Text
  | named first rest _ _ => some ('&' :: (first :: rest ++ [';']))
  | numeric digits => some ('&' :: '#' :: (digits.text ++ [';']))
  | word _ | number _ => none

def text : Item → Text
  | word letters => letters.text
  | number digits => digits.text
  | named first rest _ _ => '&' :: (first :: rest ++ [';'])
  | numeric digits => '&' :: '#' :: (digits.text ++ [';'])

/-- Items with single spaces between them. -/
def write (items : List Item) : Text := Text.join " " (items.map text)

def references (items : List Item) : List Text := items.filterMap reference

variable {items : List Item} {x : Text}

theorem reference_eq {item : Item} (h : item.reference = some x) : item.text = x := by
  cases item <;> cases h <;> rfl

theorem text_chars (item : Item) : ∀ c ∈ item.text, c.isAlphanum = true ∨ c ∈ ("&#;" : Text) := by
  have mark {s : Char} (listed : s ∈ ("&#;" : Text)) {t : Text} (inside : ∀ c ∈ t, c.isAlphanum = true ∨ c ∈ ("&#;" : Text)) :
      ∀ c ∈ s :: t, c.isAlphanum = true ∨ c ∈ ("&#;" : Text) := List.forall_mem_cons.2 ⟨.inr listed, inside⟩
  have ended {t : Text} (inside : ∀ c ∈ t, c.isAlphanum = true) : ∀ c ∈ t ++ [';'], c.isAlphanum = true ∨ c ∈ ("&#;" : Text) :=
    List.forall_mem_append.2 ⟨fun c hc => .inl (inside c hc), by decide⟩
  have digit {c : Char} (h : c.isDigit = true) : c.isAlphanum = true := by simp [Char.isAlphanum, h]
  have letter {c : Char} (h : c.isAlpha = true) : c.isAlphanum = true := by simp [Char.isAlphanum, h]
  cases item with
  | word letters => exact fun c hc => .inl (letter (letters.all c hc))
  | number digits => exact fun c hc => .inl (digit (digits.all c hc))
  | named first rest start all => exact mark (by decide) (ended (List.forall_mem_cons.2 ⟨letter start, all⟩))
  | numeric digits => exact mark (by decide) (mark (by decide) (ended fun c hc => digit (digits.all c hc)))

theorem references_inOrder (items : List Item) : InOrder (references items) (write items) := by
  induction items with
  | nil => exact .nil
  | cons item items ih =>
      have later : ∃ u, write (item :: items) = item.text ++ u ∧ InOrder (references items) u := by
        cases items with
        | nil => exact ⟨[], (List.append_nil _).symm, .nil⟩
        | cons next items => exact ⟨_, Text.join_cons_cons _ _ _ _, ih.append_left " "⟩
      obtain ⟨u, written, later⟩ := later
      rw [written, references, List.filterMap_cons]
      cases isReference : item.reference with
      | none => exact later.append_left _
      | some x =>
          rw [reference_eq isReference]
          exact later.here

/-- A reference without digits is named by letters. -/
theorem isEntity_of_reference {item : Item} (h : item.reference = some x) (none : ∀ c ∈ x, c.isDigit = false) : IsEntity x := by
  cases item with
  | word | number => cases h
  | named first rest letter all =>
      cases h
      refine ⟨first :: rest, rfl, List.forall_mem_cons.2 ⟨letter, fun c hc => ?_⟩⟩
      have alphanum := all c hc
      rw [Char.isAlphanum, none c (by simp [hc]), Bool.or_false] at alphanum
      exact alphanum
  | numeric digits =>
      cases h
      obtain ⟨d, rest, split⟩ := List.exists_cons_of_ne_nil digits.full
      have digit := digits.all d (by simp [split])
      rw [none d (by simp [split])] at digit
      cases digit

/-- The references of a list of items stay, unchanged and in order, exactly if they have no digits. -/
theorem references_kept_iff (items : List Item) :
    InOrder (references items) (toHtml (write items)) ↔ ∀ x ∈ references items, ∀ c ∈ x, c.isDigit = false := by
  constructor
  · exact fun h x hx c hc => toHtml_digits _ c (h.mem hx c hc)
  · intro noDigits
    refine toHtml_inOrder (fun x hx => ?_) (fun c hc mark => ?_) (references_inOrder items)
    · obtain ⟨item, -, isReference⟩ := List.mem_filterMap.1 hx
      exact isEntity_of_reference isReference (noDigits x hx)
    · have other : ∀ c ∈ ("=:./^_[" : Text), c.isAlphanum = false ∧ c ∉ ("&#;" : Text) ∧ c ∉ (" " : Text) := by decide
      obtain ⟨notAlphanum, notMark, notSpace⟩ := other c mark
      rcases Text.mem_join hc with space | ⟨t, mem, inside⟩
      · exact notSpace space
      · obtain ⟨item, -, rfl⟩ := List.mem_map.1 mem
        exact (item.text_chars c inside).elim (fun h => Bool.false_ne_true (notAlphanum.symm.trans h)) notMark

/-- The digits of a reference by number become symbols. -/
theorem references_not_kept : ¬ ∀ items : List Item, InOrder (references items) (toHtml (write items)) := by
  intro h
  have digit := (h [.numeric ⟨"42", by decide, by decide⟩]).mem List.mem_cons_self '4' (by decide)
  have lost : '4' ∉ toHtml "&#42;" := by decide +kernel
  exact lost digit

end Item

end Maths

end LessonText
