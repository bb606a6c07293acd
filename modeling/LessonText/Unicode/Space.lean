import LessonText.Unicode.Range

/-! # White space

The characters that separate words, and the smaller set that ends a line.
-/

namespace LessonText.Unicode

def spaceRanges : List Range :=
  [(0x9, 0xD), (0x1C, 0x20), (0x85, 0x85), (0xA0, 0xA0), (0x1680, 0x1680), (0x2000, 0x200A),
   (0x2028, 0x2029), (0x202F, 0x202F), (0x205F, 0x205F), (0x3000, 0x3000)]

/-- White space: the Unicode separators, the ASCII layout characters and the four information
    separators U+001C to U+001F. -/
def isSpace (c : Char) : Bool := inRanges spaceRanges c.toNat

/-- White space without the information separators. -/
def isPlainSpace (c : Char) : Bool := isSpace c && !inRanges [(0x1C, 0x1F)] c.toNat

/-- A character that ends a line of a header. -/
def isLineBreak (c : Char) : Bool :=
  inRanges [(0x0A, 0x0D), (0x1C, 0x1E), (0x85, 0x85), (0x2028, 0x2029)] c.toNat

end LessonText.Unicode
