import LessonText.Text.Basic

/-! # Cutting a text into pieces

A scan goes over a text from the left and cuts out what a finder recognises. The pieces keep their
order, so that putting something in the place of every fragment is one map over the pieces.
-/

namespace LessonText

/-- A character that stays as it is, or something found in the text. -/
inductive Piece (α : Type) where
  | plain (c : Char)
  | found (a : α)

/-- A finder looks at the character before a place and at the text after it, and gives what it
    recognises there together with its length. -/
abbrev Finder (α : Type) := Option Char → Text → Option (α × Nat)

namespace Text

variable {α : Type}

/-- The pieces of a text whose first `skip` characters are already part of a fragment. A fragment
    of length zero stands before the next character, which `longer` may yet begin a fragment with. -/
def cutFrom (find longer : Finder α) : Nat → Option Char → Text → List (Piece α)
  | 0, before, [] =>
    match find before [] with
    | some (a, _) => [.found a]
    | none => []
  | _ + 1, _, [] => []
  | skip + 1, _, c :: rest => cutFrom find longer skip (some c) rest
  | 0, before, c :: rest =>
    match find before (c :: rest) with
    | none => .plain c :: cutFrom find longer 0 (some c) rest
    | some (a, skip + 1) => .found a :: cutFrom find longer skip (some c) rest
    | some (a, 0) =>
      match longer before (c :: rest) with
      | some (b, skip + 1) => .found a :: .found b :: cutFrom find longer skip (some c) rest
      | _ => .found a :: .plain c :: cutFrom find longer 0 (some c) rest

/-- The pieces of a text. The finder recognises no fragment of length zero. -/
def cut (find : Finder α) (t : Text) : List (Piece α) := cutFrom find find 0 none t

end Text

namespace Piece

variable {α : Type} {m : Type → Type} [Monad m]

/-- The text of pieces once every fragment is replaced. -/
def assemble (replace : α → Text) : List (Piece α) → Text
  | [] => []
  | .plain c :: rest => c :: assemble replace rest
  | .found a :: rest => replace a ++ assemble replace rest

/-- The text of pieces once every fragment is replaced, from left to right. -/
def assembleM (replace : α → m Text) : List (Piece α) → m Text
  | [] => pure []
  | .plain c :: rest => do return c :: (← assembleM replace rest)
  | .found a :: rest => do
    let replacement ← replace a
    return replacement ++ (← assembleM replace rest)

end Piece

end LessonText
