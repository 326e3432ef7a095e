import OsdLatency.Text.CodePoints

/-!
# Blank characters

The characters with the Unicode property `White_Space`. They separate the tokens of a trace line and
the columns of a log line. Controls such as U+001C and the zero width space are not among them.
-/

namespace OsdLatency.Text

/-- The code points with the property `White_Space`. -/
def blankPoints : CodePoints :=
  [(0x09, 0x0D), (0x20, 0x20), (0x85, 0x85), (0xA0, 0xA0), (0x1680, 0x1680), (0x2000, 0x200A),
   (0x2028, 0x2029), (0x202F, 0x202F), (0x205F, 0x205F), (0x3000, 0x3000)]

/-- Whether a character is white space. -/
def isBlank (c : Char) : Bool := blankPoints.holds c.toNat

theorem blankPoints_ascending : blankPoints.Ascending := by decide

theorem isBlank_carriageReturn : isBlank '\r' = true := by decide

end OsdLatency.Text
