/-!
# Padding

Texts are brought to a width by spaces. The width counts characters, and a text that is wide enough
stays as it is.
-/

namespace OsdLatency.Text

/-- Spaces in front, so that the text ends at the width. -/
def alignRight (width : Nat) (text : String) : String :=
  String.ofList (List.leftpad width ' ' text.toList)

/-- Spaces behind, so that the text starts at the left end of the width. -/
def alignLeft (width : Nat) (text : String) : String :=
  String.ofList (List.rightpad width ' ' text.toList)

@[simp] theorem toList_alignRight (width : Nat) (text : String) :
    (alignRight width text).toList = List.leftpad width ' ' text.toList := by
  simp [alignRight]

@[simp] theorem toList_alignLeft (width : Nat) (text : String) :
    (alignLeft width text).toList = List.rightpad width ' ' text.toList := by
  simp [alignLeft]

end OsdLatency.Text
