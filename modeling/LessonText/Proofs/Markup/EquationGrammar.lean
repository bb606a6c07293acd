import LessonText.Markup.Maths
import LessonText.Proofs.Markup.Making
import LessonText.Proofs.Unicode.Listed

/-! # A grammar of equations

Terms joined by signs, each an atom or a fraction of two. An equation is written in one of several styles: as an author
writes it, as the page shows it, and as the rewrites leave it on the way from one to the other. A rewrite takes an
equation from one style to the next if it does so with each of its parts, wherever it stands.
-/

namespace LessonText.Maths

open Pattern Unicode

/-- The functions that are written by their names. -/
def functions : List Text := ["sqrt", "sum", "int"]

/-- A number, or letters that are no name of a Greek letter, of a function or of a sign. -/
def IsBase (t : Text) : Prop :=
  t ≠ [] ∧ ((∀ c ∈ t, c.isDigit = true) ∨
    (∀ c ∈ t, c.isAlpha = true) ∧ t ∉ Greek.names ∧ t.map Char.toLower ∉ functions ∧ t ≠ "ne")

instance : DecidablePred IsBase := fun _ => inferInstanceAs (Decidable (_ ∧ _))

structure Base where
  text : Text
  isBase : IsBase text

/-- A base, perhaps with an index and with a power. -/
structure Atom where
  base : Base
  lowered : Option Base
  raised : Option Base

inductive Term where
  | atom (a : Atom)
  | fraction (above below : Atom)

inductive Op where
  | plus
  | minus
  | times
  deriving DecidableEq

/-- Terms with signs between them. -/
structure Equation where
  first : Term
  rest : List (Op × Term)

/-- A letter or a digit in its mathematical form. -/
def IsSymbol (c : Char) : Prop := ∃ d, d.isAlphanum = true ∧ c = symbol d

theorem Base.isAlphanum (y : Base) : ∀ c ∈ y.text, c.isAlphanum = true := by
  obtain ⟨t, -, digits | ⟨letters, -⟩⟩ := y
  · exact fun c hc => by simp [Char.isAlphanum, digits c hc]
  · exact fun c hc => by simp [Char.isAlphanum, letters c hc]

namespace Op

def char : Op → Char
  | plus => '+'
  | minus => '-'
  | times => '*'

/-- A sign on a page. -/
def entity : Op → Text
  | plus => "+"
  | minus => "&minus;"
  | times => "&times;"

theorem entity_cons (o : Op) : ∃ c t, o.entity = c :: t ∧ c ∈ ("+&" : Text) := by
  cases o
  all_goals exact ⟨_, _, rfl, by decide⟩

end Op

/-- How the parts of an equation are written. -/
structure Style where
  base : Text → Text
  lowered : Text → Text
  raised : Text → Text
  fraction : Text → Text → Text
  sign : Op → Text

namespace Style

variable (S : Style)

def index (y : Option Base) : Text := y.elim [] fun y => S.lowered (S.base y.text)

def power (y : Option Base) : Text := y.elim [] fun y => S.raised (S.base y.text)

def atom (a : Atom) : Text := S.base a.base.text ++ (S.index a.lowered ++ S.power a.raised)

def term : Term → Text
  | .atom a => S.atom a
  | .fraction above below => S.fraction (S.atom above) (S.atom below)

def tail (rest : List (Op × Term)) : Text := rest.flatMap fun (o, x) => S.sign o ++ S.term x

def write (e : Equation) : Text := S.term e.first ++ S.tail e.rest

/-- A style in which everything stands on one line. -/
def flat (base : Text → Text) (sign : Op → Text) : Style where
  base := base
  lowered t := "_" ++ t
  raised t := "^" ++ t
  fraction above below := above ++ ("/" ++ below)
  sign o := " " ++ (sign o ++ " ")

/-- A style with fractions as tables. -/
def stacked (lowered raised : Text → Text) (space : Text) : Style where
  base := List.map symbol
  lowered := lowered
  raised := raised
  fraction above below := "<table><tr><td>" ++ (above ++ ("</td></tr><tr><td>" ++ (below ++ "</td></tr></table>")))
  sign o := space ++ (o.entity ++ space)

/-- An equation as an author writes it. -/
def source : Style := flat id fun o => [o.char]

/-- An equation as a page shows it. -/
def page : Style := stacked (fun t => "<sub>" ++ (t ++ "</sub>")) (fun t => "<sup>" ++ (t ++ "</sup>")) "&nbsp;"

end Style

namespace Style

variable {S S' : Style} {r : Rewrite}

/-! ## The characters of an equation -/

section Characters

variable {P : Char → Prop} (base : ∀ y : Base, ∀ c ∈ S.base y.text, P c)
  (lowered : ∀ t, (∀ c ∈ t, P c) → ∀ c ∈ S.lowered t, P c) (raised : ∀ t, (∀ c ∈ t, P c) → ∀ c ∈ S.raised t, P c)

include base lowered raised

theorem forall_atom (a : Atom) : ∀ c ∈ S.atom a, P c := by
  have index : ∀ c ∈ S.index a.lowered, P c := by
    cases a.lowered with
    | none => exact fun _ => nofun
    | some y => exact lowered _ (base y)
  have power : ∀ c ∈ S.power a.raised, P c := by
    cases a.raised with
    | none => exact fun _ => nofun
    | some y => exact raised _ (base y)
  exact List.forall_mem_append.2 ⟨base a.base, List.forall_mem_append.2 ⟨index, power⟩⟩

theorem forall_term (fraction : ∀ t u, (∀ c ∈ t, P c) → (∀ c ∈ u, P c) → ∀ c ∈ S.fraction t u, P c) (x : Term) :
    ∀ c ∈ S.term x, P c := by
  cases x with
  | atom a => exact forall_atom base lowered raised a
  | fraction above below =>
      exact fraction _ _ (forall_atom base lowered raised above) (forall_atom base lowered raised below)

end Characters

theorem forall_write {P : Char → Prop} (term : ∀ x, ∀ c ∈ S.term x, P c) (sign : ∀ o, ∀ c ∈ S.sign o, P c) (e : Equation) :
    ∀ c ∈ S.write e, P c := by
  refine List.forall_mem_append.2 ⟨term e.first, fun c hc => ?_⟩
  obtain ⟨⟨o, x⟩, -, inside⟩ := List.mem_flatMap.1 hc
  exact (List.mem_append.1 inside).elim (sign o c) (term x c)

/-! ## Rewriting part by part -/

/-- What may stand before a term. -/
def Opens (S : Style) (b : Option Char) : Prop := b = none ∨ ∃ o b', b = (S.sign o).getLast?.or b'

/-- What may stand behind a term: nothing, or a sign and another term. -/
def Follows (S : Style) (t : Text) : Prop := t = [] ∨ ∃ o x u, t = S.sign o ++ (S.term x ++ u)

theorem follows_tail (rest : List (Op × Term)) : S.Follows (S.tail rest) := by
  cases rest with
  | nil => exact .inl rfl
  | cons p rest => exact .inr ⟨p.1, p.2, S.tail rest, List.append_assoc _ _ _⟩

/-- A rewrite takes an equation to another style if it does so with terms and with signs. -/
theorem writes (term : ∀ x b t, S.Opens b → S.Follows t → r.Writes b (S.term x) t (S'.term x))
    (sign : ∀ o x b t, S.Follows t → r.Writes b (S.sign o) (S.term x ++ t) (S'.sign o)) (e : Equation) :
    r.Writes none (S.write e) [] (S'.write e) := by
  have one {x : Term} {b : Option Char} {rest : List (Op × Term)} (opens : S.Opens b) :
      r.Writes b (S.term x) (S.tail rest ++ []) (S'.term x) := term x b _ opens (by simpa using follows_tail rest)
  have tail (rest : List (Op × Term)) : ∀ b, r.Writes b (S.tail rest) [] (S'.tail rest) := by
    induction rest with
    | nil => exact fun _ => .nil
    | cons p rest ih =>
        obtain ⟨o, x⟩ := p
        intro b
        have here : r.Writes b (S.sign o) (S.term x ++ S.tail rest ++ []) (S'.sign o) := by
          rw [List.append_nil]
          exact sign o x b _ (follows_tail rest)
        have all := here.append ((one (.inr ⟨o, b, rfl⟩)).append (ih _))
        rwa [← List.append_assoc, ← List.append_assoc] at all
  exact (one (.inl rfl)).append (tail e.rest _)

/-- Nothing, or a sign that stands behind a base. -/
def Ends (t : Text) : Prop := ∀ c ∈ t.head?, c ∈ ("_^/ " : Text)

variable {base base' : Text → Text} {sign sign' : Op → Text}

theorem ends_of_mark : ∀ c ∈ ("_^/" : Text), c ∈ ("_^/ " : Text) := by decide

theorem Ends.of_mem {c : Char} {t : Text} (h : c ∈ ("_^/ " : Text)) : Ends (c :: t) := by
  rintro _ ⟨⟩
  exact h

theorem Ends.part {c : Char} {t : Text} (ends : Ends t) (h : c ∈ ("_^/ " : Text)) (base : Text → Text) (y : Option Base) :
    Ends ((y.elim [] fun y => c :: base y.text) ++ t) := by
  cases y with
  | none => exact ends
  | some y => exact .of_mem h

theorem Ends.follows {t : Text} (h : (flat base sign).Follows t) : Ends t := by
  rcases h with rfl | ⟨o, x, u, rfl⟩
  · nofun
  · exact .of_mem (by decide)

/-- A term on one line is a base, and what stands behind it. -/
theorem exists_term (base : Text → Text) (sign : Op → Text) (x : Term) {t : Text} (ends : Ends t) :
    ∃ (y : Base) (u : Text), (flat base sign).term x ++ t = base y.text ++ u ∧ Ends u := by
  have atom (a : Atom) {t : Text} (ends : Ends t) : ∃ u, (flat base sign).atom a ++ t = base a.base.text ++ u ∧ Ends u := by
    refine ⟨_, List.append_assoc _ _ _, ?_⟩
    rw [List.append_assoc]
    exact (ends.part (by decide) base a.raised).part (by decide) base a.lowered
  cases x with
  | atom a => exact ⟨a.base, atom a ends⟩
  | fraction above below =>
      obtain ⟨u, split, ends⟩ := atom above (t := "/" ++ (flat base sign).atom below ++ t) (.of_mem (by decide))
      exact ⟨above.base, u, by rw [← split]; exact List.append_assoc _ _ _, ends⟩

section Flat

variable
  (bases : ∀ (y : Base) b t, (∀ c ∈ b, c ∈ ("_^/ " : Text)) → Ends t → r.Writes b (base y.text) t (base' y.text))
  (marks : ∀ c ∈ ("_^/" : Text), ∀ (y : Base) b t, Ends t → r.Writes b [c] (base y.text ++ t) [c])

include bases marks

theorem part_writes {c : Char} (mem : c ∈ ("_^/" : Text)) (y : Option Base) {b : Option Char} {t : Text} (ends : Ends t) :
    r.Writes b (y.elim [] fun y => c :: base y.text) t (y.elim [] fun y => c :: base' y.text) := by
  cases y with
  | none => exact .nil
  | some y =>
      refine (marks c mem y b t ends).append (bases y _ t ?_ ends)
      rintro _ ⟨⟩
      exact ends_of_mark c mem

theorem atom_writes (a : Atom) {b : Option Char} {t : Text} (opens : ∀ c ∈ b, c ∈ ("_^/ " : Text)) (ends : Ends t) :
    r.Writes b ((flat base sign).atom a) t ((flat base' sign').atom a) := by
  have power {b : Option Char} := part_writes bases marks (c := '^') (by decide) a.raised (b := b) ends
  have behind := ends.part (c := '^') (by decide) base a.raised
  have index {b : Option Char} := part_writes bases marks (c := '_') (by decide) a.lowered (b := b) behind
  have all := behind.part (c := '_') (by decide) base a.lowered
  rw [← List.append_assoc] at all
  exact (bases a.base b _ opens all).append (index.append power)

theorem term_writes (x : Term) {b : Option Char} {t : Text} (opens : ∀ c ∈ b, c ∈ ("_^/ " : Text)) (ends : Ends t) :
    r.Writes b ((flat base sign).term x) t ((flat base' sign').term x) := by
  cases x with
  | atom a => exact atom_writes bases marks a opens ends
  | fraction above below =>
      have first : r.Writes b ((flat base sign).atom above) (['/'] ++ (flat base sign).atom below ++ t)
          ((flat base' sign').atom above) := atom_writes bases marks above opens (.of_mem (by decide))
      have second : r.Writes (some '/') ((flat base sign).atom below) t ((flat base' sign').atom below) :=
        atom_writes bases marks below (by rintro _ ⟨⟩; decide) ends
      obtain ⟨y, u, split, behind⟩ := exists_term base sign (.atom below) ends
      have between {b : Option Char} : r.Writes b ['/'] ((flat base sign).atom below ++ t) ['/'] := by
        change r.Writes b ['/'] ((flat base sign).term (.atom below) ++ t) ['/']
        rw [split]
        exact marks '/' (by decide) y b u behind
      exact first.append (between.append second)

/-- A rewrite takes an equation on one line to another one if it does so with bases and with what stands before them. -/
theorem flat_writes
    (signs : ∀ o (y : Base) b t, Ends t → r.Writes b (" " ++ (sign o ++ " ")) (base y.text ++ t) (" " ++ (sign' o ++ " ")))
    (e : Equation) : r.Writes none ((flat base sign).write e) [] ((flat base' sign').write e) := by
  refine Style.writes (fun x b t opens follows => ?_) (fun o x b t follows => ?_) e
  · refine term_writes bases marks x ?_ (.follows follows)
    rcases opens with rfl | ⟨o, b, rfl⟩
    · nofun
    · rintro c last
      have known : (" " ++ (sign o ++ " ")).getLast? = some ' ' :=
        (congrArg List.getLast? (List.append_assoc _ _ [' ']).symm).trans List.getLast?_concat
      rw [show ((flat base sign).sign o).getLast? = some ' ' from known] at last
      cases last
      decide
  · obtain ⟨y, u, split, ends⟩ := exists_term base sign x (Ends.follows follows)
    rw [split]
    exact signs o y b u ends

end Flat

/-- Nothing, or what may stand behind an index or a power in a table or on a line. -/
def Closes (t : Text) : Prop := ∀ c ∈ t.head?, c ∈ (" <" : Text)

section Stacked

variable {lowered raised lowered' raised' : Text → Text}

theorem exists_stacked (lowered raised : Text → Text) (x : Term) (t : Text) :
    ∃ c u, (stacked lowered raised " ").term x ++ t = c :: u ∧ (c = '<' ∨ IsSymbol c) := by
  cases x with
  | atom a =>
      obtain ⟨c, u, split⟩ := List.exists_cons_of_ne_nil a.base.isBase.1
      have inside : c ∈ a.base.text := by simp [split]
      have begins : (stacked lowered raised " ").atom a = symbol c :: (u.map symbol ++ _) :=
        congrArg (fun w => List.map symbol w ++ _) split
      exact ⟨symbol c, _, congrArg (· ++ t) begins, .inr ⟨c, a.base.isAlphanum c inside, rfl⟩⟩
  | fraction above below => exact ⟨'<', _, rfl, .inl rfl⟩

/-- A rewrite takes an equation with tables to another style if it does so with indices and powers, and leaves the rest. -/
theorem stacked_writes
    (plain : ∀ (w : Text) b t, (∀ c ∈ w, c ∈ ("<>/abdelrt" : Text) ∨ IsSymbol c) → r.Writes b w t w)
    (indices : ∀ (y : Base) (z : Option Base) b t, Closes t →
      r.Writes b (lowered (y.text.map symbol)) ((stacked lowered raised " ").power z ++ t) (lowered' (y.text.map symbol)))
    (powers : ∀ (y : Base) b t, Closes t → r.Writes b (raised (y.text.map symbol)) t (raised' (y.text.map symbol)))
    (signs : ∀ (o : Op) c b t, c = '<' ∨ IsSymbol c →
      r.Writes b (" " ++ (o.entity ++ " ")) (c :: t) (" " ++ (o.entity ++ " ")))
    (e : Equation) : r.Writes none ((stacked lowered raised " ").write e) [] ((stacked lowered' raised' " ").write e) := by
  have atom (a : Atom) {b : Option Char} {t : Text} (closes : Closes t) :
      r.Writes b ((stacked lowered raised " ").atom a) t ((stacked lowered' raised' " ").atom a) := by
    have bases {b : Option Char} {t : Text} : r.Writes b (a.base.text.map symbol) t (a.base.text.map symbol) := by
      refine plain _ b t fun c hc => ?_
      obtain ⟨d, hd, rfl⟩ := List.mem_map.1 hc
      exact .inr ⟨d, a.base.isAlphanum d hd, rfl⟩
    have index {b : Option Char} : r.Writes b ((stacked lowered raised " ").index a.lowered)
        ((stacked lowered raised " ").power a.raised ++ t) ((stacked lowered' raised' " ").index a.lowered) := by
      cases a.lowered with
      | none => exact .nil
      | some y => exact indices y a.raised b t closes
    have power {b : Option Char} : r.Writes b ((stacked lowered raised " ").power a.raised) t
        ((stacked lowered' raised' " ").power a.raised) := by
      cases a.raised with
      | none => exact .nil
      | some y => exact powers y b t closes
    exact bases.append (index.append power)
  refine Style.writes (fun x b t _ follows => ?_) (fun o x b t _ => ?_) e
  · have closes : Closes t := by
      rcases follows with rfl | ⟨o, x, u, rfl⟩
      · nofun
      · rintro _ ⟨⟩
        decide
    cases x with
    | atom a => exact atom a closes
    | fraction above below =>
        have tag {w : Text} (known : ∀ c ∈ w, c ∈ ("<>/abdelrt" : Text)) {b : Option Char} {t : Text} : r.Writes b w t w :=
          plain w b t fun c hc => .inl (known c hc)
        have open_ {t : Text} : Closes ('<' :: t) := by
          rintro _ ⟨⟩
          decide
        exact (tag (by decide)).append ((atom above open_).append ((tag (by decide)).append
          ((atom below open_).append (tag (by decide)))))
  · obtain ⟨c, u, split, begins⟩ := exists_stacked lowered raised x t
    rw [split]
    exact signs o c b u begins

end Stacked

end Style

end LessonText.Maths
