import LessonText.Markup.Warden
import LessonText.Notice

/-! # Rendering steps

A step of rendering may use the warden of the call in progress, record a gap of the text and report
notices. Gaps and notices are kept in the order in which they arise.
-/

namespace LessonText

/-- What a rendering call keeps besides the text. -/
structure Session where
  warden : Warden := {}
  gaps : List Text := []
  notices : List Notice := []

abbrev Rendering := StateM Session

namespace Rendering

/-- Report a notice. -/
def report (notice : Notice) : Rendering Unit :=
  modify fun s => { s with notices := s.notices ++ [notice] }

/-- Record the word that belongs into a gap. -/
def recordGap (word : Text) : Rendering Unit := modify fun s => { s with gaps := s.gaps ++ [word] }

/-- Take data into custody, and give its key. -/
def protect (data : Text) : Rendering Text := fun s =>
  let (key, warden) := s.warden.protect data
  (key, { s with warden })

/-- Put back every key of a text. -/
def reinstate (t : Text) : Rendering Text := fun s =>
  let r := s.warden.reinstate t
  (r.text, { s with warden := r.warden, notices := s.notices ++ r.missing.map .missingWard })

/-- A rendering of its own inside a call: it has its own warden and gaps, and its notices join those
    of the call. -/
def nested (inner : Rendering Text) : Rendering Text := fun s =>
  let (t, s') := inner {}
  (t, { s with notices := s.notices ++ s'.notices })

end Rendering

end LessonText
