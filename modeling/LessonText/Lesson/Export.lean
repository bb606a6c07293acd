import LessonText.Lesson.Compile
import LessonText.Text.Json

/-! # Exports

A compiled lesson as a JSON value: the metadata, and each problem with the text of its parts.
-/

namespace LessonText

def TextItem.export (item : TextItem) : Json :=
  .object
    [("html", .text item.html), ("plain_text", .text item.plainText),
      ("first_word", .text item.firstWord), ("missing_words", .list (item.missingWords.map .text))]

def Problem.export (p : Problem) : Json :=
  .object
    [("question_type", .text p.questionType.name), ("intro", p.intro.export),
      ("question", p.question.export), ("explanation", p.explanation.export),
      ("right_answers", .list (p.right.map TextItem.export)),
      ("wrong_answers", .list (p.wrong.map TextItem.export))]

def Lesson.export (lesson : Lesson) : Json :=
  .object
    [("metadata", .object (lesson.metadata.entries.map fun (key, value) => (key, .text value))),
      ("problems", .list (lesson.problems.map Problem.export))]

end LessonText
