import LessonText.Text.Basic

/-! # Patterns

A pattern describes a stretch of text. Matching tries the alternatives of a pattern in a fixed
order and takes the first that lets the rest of the pattern match too: of `alt` the first branch
first, of an eager repetition the longest first, of a lazy one the shortest first.

What follows a pattern is given to it as a function, so that each constructor states its order of
attempts and nothing else.
-/

namespace LessonText

/-- How far a match has come: the last character passed, the text ahead, the number of characters
    passed since the start, and the groups closed so far, the latest first. -/
structure Progress where
  before : Option Char
  ahead : Text
  passed : Nat := 0
  groups : List (Nat × Text × Nat) := []

namespace Progress

/-- Pass one character. -/
def step (s : Progress) (c : Char) (rest : Text) : Progress :=
  { s with before := some c, ahead := rest, passed := s.passed + 1 }

/-- Close a group that was opened at `opened`: it holds the text from there to here. -/
def close (s opened : Progress) (index : Nat) : Progress :=
  { s with groups := (index, opened.ahead, s.passed - opened.passed) :: s.groups }

end Progress

/-- Descriptions of stretches of text. -/
inductive Pattern where
  /-- No characters. -/
  | empty
  /-- One character of a class. -/
  | one (accepts : Char → Bool)
  /-- All the characters of a class that follow, never fewer. -/
  | span (accepts : Char → Bool)
  /-- Any number of characters of a class. -/
  | run (eager : Bool) (accepts : Char → Bool)
  /-- One pattern after another. -/
  | seq (first second : Pattern)
  /-- The first pattern, or else the second. -/
  | alt (first second : Pattern)
  /-- Any number of repetitions. A repetition passes at least one character. -/
  | many (eager : Bool) (body : Pattern)
  /-- A pattern whose text is remembered under an index. -/
  | group (index : Nat) (body : Pattern)
  /-- A condition on the character before and the text ahead. -/
  | place (holds : Option Char → Text → Bool)
  /-- Whether a pattern matches ahead, without passing it. -/
  | ahead (wanted : Bool) (body : Pattern)

namespace Pattern

instance : Append Pattern := ⟨seq⟩

instance : OrOp Pattern := ⟨alt⟩

/-- The first of two attempts that succeeds, in the order that eagerness asks for. -/
@[inline] def prefer (eager : Bool) (more stop : Unit → Option Progress) : Option Progress :=
  if eager then
    match more () with
    | some s => some s
    | none => stop ()
  else
    match stop () with
    | some s => some s
    | none => more ()

/-- Pass all the characters of a class that follow `last`. -/
def spanFrom (accepts : Char → Bool) (groups : List (Nat × Text × Nat)) :
    Char → Text → Nat → Progress
  | last, [], passed => ⟨some last, [], passed, groups⟩
  | last, c :: rest, passed =>
    if accepts c then spanFrom accepts groups c rest (passed + 1)
    else ⟨some last, c :: rest, passed, groups⟩

/-- Attempts for a run of characters of a class. -/
def runFrom (eager : Bool) (accepts : Char → Bool) (next : Progress → Option Progress)
    (groups : List (Nat × Text × Nat)) : Option Char → Text → Nat → Option Progress
  | before, [], passed => next ⟨before, [], passed, groups⟩
  | before, c :: rest, passed =>
    if accepts c then
      prefer eager (fun _ => runFrom eager accepts next groups (some c) rest (passed + 1))
        (fun _ => next ⟨before, c :: rest, passed, groups⟩)
    else next ⟨before, c :: rest, passed, groups⟩

/-- Attempts for at most `bound` repetitions. -/
def repeatFrom (eager : Bool) (body : (Progress → Option Progress) → Progress → Option Progress)
    (next : Progress → Option Progress) : Nat → Progress → Option Progress
  | 0, s => next s
  | bound + 1, s =>
    prefer eager (fun _ => body (repeatFrom eager body next bound) s) (fun _ => next s)

/-- The first way to match the pattern and then what follows it. `bound` is at least the length of
    the text ahead, so that it never cuts a repetition short. -/
def attempt (bound : Nat) : Pattern → (Progress → Option Progress) → Progress → Option Progress
  | .empty, next, s => next s
  | .one accepts, next, s =>
    match s.ahead with
    | [] => none
    | c :: rest => if accepts c then next (s.step c rest) else none
  | .span accepts, next, s =>
    match s.ahead with
    | [] => next s
    | c :: rest =>
      if accepts c then next (spanFrom accepts s.groups c rest (s.passed + 1)) else next s
  | .run eager accepts, next, s =>
    runFrom eager accepts next s.groups s.before s.ahead s.passed
  | .seq first second, next, s => first.attempt bound (second.attempt bound next) s
  | .alt first second, next, s =>
    prefer true (fun _ => first.attempt bound next s) (fun _ => second.attempt bound next s)
  | .many eager body, next, s => repeatFrom eager (body.attempt bound) next bound s
  | .group index body, next, s => body.attempt bound (fun t => next (t.close s index)) s
  | .place holds, next, s => if holds s.before s.ahead then next s else none
  | .ahead wanted body, next, s =>
    if (body.attempt bound some s).isSome == wanted then next s else none

/-! ## Derived patterns -/

/-- All the characters of a class that follow, at least one. -/
def span1 (accepts : Char → Bool) : Pattern := one accepts ++ span accepts

/-- One or more characters of a class, as many as possible. -/
def some1 (accepts : Char → Bool) : Pattern := one accepts ++ run true accepts

/-- One or more characters of a class, as few as possible. -/
def few1 (accepts : Char → Bool) : Pattern := one accepts ++ run false accepts

/-- Any number of characters of a class, as many as possible. -/
def most (accepts : Char → Bool) : Pattern := run true accepts

/-- Any number of characters of a class, as few as possible. -/
def fewest (accepts : Char → Bool) : Pattern := run false accepts

/-- A pattern or nothing. -/
def optional (p : Pattern) : Pattern := p ||| empty

/-- One or more repetitions, as many as possible. -/
def many1 (p : Pattern) : Pattern := p ++ many true p

/-- Exactly the given text. -/
def literal : Text → Pattern
  | [] => empty
  | c :: rest => one (· == c) ++ literal rest

instance : Coe String Pattern := ⟨fun s => literal s.toList⟩

end Pattern

/-- A stretch of text that matches a pattern, and the texts of its groups. -/
structure Match where
  text : Text
  groups : List (Nat × Text)

namespace Match

/-- The text of a group, if it took part. -/
def group? (m : Match) (index : Nat) : Option Text := m.groups.lookup index

/-- The text of a group; nothing if it took no part. -/
def group (m : Match) (index : Nat) : Text := (m.group? index).getD []

end Match

namespace Pattern

/-- The match at a place that passes at least `least` characters, and its length. -/
def matchAt (bound least : Nat) (p : Pattern) (before : Option Char) (ahead : Text) :
    Option (Match × Nat) :=
  let finish (s : Progress) : Option Progress := if least ≤ s.passed then some s else none
  (p.attempt bound finish ⟨before, ahead, 0, []⟩).map fun s =>
    (⟨ahead.take s.passed, s.groups.map fun (i, start, length) => (i, start.take length)⟩, s.passed)

end Pattern

end LessonText
