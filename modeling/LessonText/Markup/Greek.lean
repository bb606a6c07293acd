import LessonText.Pattern.Class
import LessonText.Pattern.Rewrite

/-! # Greek letters

The names of Greek letters in an equation become entities. A name counts where it stands alone: no
letter touches it, and no ampersand comes before it.
-/

namespace LessonText.Greek

open Pattern

/-- The names in alphabetical order of the letters, in lower case. -/
def letters : List Text :=
  ["alpha", "beta", "gamma", "delta", "epsilon", "zeta", "eta", "theta", "iota", "kappa", "lambda",
    "mu", "nu", "xi", "omicron", "pi", "rho", "sigma", "tau", "upsilon", "phi", "chi", "psi",
    "omega"]

/-- A word with its first letter in upper case. -/
def capitalised : Text → Text
  | [] => []
  | c :: rest => c.toUpper :: rest

/-- Every spelling of every name: capitalised, then in lower case. -/
def names : List Text := letters.flatMap fun name => [capitalised name, name]

/-- One name, where it stands alone, becomes an entity. -/
def nameRewrite (name : Text) : Rewrite :=
  ⟨notPrecededBy (fun c => c.isAlpha || c == '&') ++ literal name ++ notFollowedBy Char.isAlpha,
    fun _ => "&" ++ name ++ ";"⟩

def rewrites : List Rewrite := names.map nameRewrite

/-- Every name that stands alone becomes an entity. -/
def replaceNames (t : Text) : Text := Rewrite.applyAll rewrites t

end LessonText.Greek
