import OsdLatency.Text.Blank
import OsdLatency.Text.Digit
import OsdLatency.Text.Word

/-!
# Scanners

A scanner looks at the front of a text. It refuses the text, or takes some of it and gives what it
found together with what is left. Runs of a class of characters are always taken whole.

## Main definitions

* `Scanner` — the type of scanners
* `Scanner.literal`, `Scanner.run`, `Scanner.oneOf` — a fixed text, a run of characters, one of
  several names
* `Scanner.upTo` — the shortest text before a closing character
* `Scanner.findFirst`, `Scanner.findAll` — a scanner applied anywhere in a text
-/

namespace OsdLatency.Text

/-- A reader of the front of a text. -/
abbrev Scanner := StateT (List Char) Option

namespace Scanner

/-- Take a fixed text. -/
def literal (text : String) : Scanner Unit := fun input =>
  if text.toList.isPrefixOf input then some ((), input.drop text.toList.length) else none

/-- Take a whole run of characters of a class, at least one. -/
def run (isMember : Char → Bool) : Scanner (List Char) := fun input =>
  let taken := input.takeWhile isMember
  if taken.isEmpty then none else some (taken, input.dropWhile isMember)

/-- Take white space, at least one character. -/
def blanks : Scanner Unit := do
  let _ ← run isBlank

/-- Take white space if there is any. -/
def optionalBlanks : Scanner Unit := fun input => some ((), input.dropWhile isBlank)

/-- Take a run of decimal digits. -/
def digits : Scanner (List Char) := run isDigit

/-- Take a run of word characters. -/
def word : Scanner (List Char) := run isWord

/-- Take a run of characters that are not white space. -/
def nonBlanks : Scanner (List Char) := run (!isBlank ·)

/-- Take the name of one of several things. -/
def oneOf (name : α → String) (choices : List α) : Scanner α := fun input =>
  choices.findSome? fun choice => (literal (name choice) input).map fun (_, rest) => (choice, rest)

/-- Take the shortest text without a line feed that is followed by `close` and then by something
that `next` accepts. -/
def upTo (close : Char) (next : Scanner β) : Scanner (List Char × β)
  | [] => none
  | c :: rest =>
    let here := if c = close then next rest else none
    match here with
    | some (found, left) => some (([], found), left)
    | none =>
      if c = '\n' then none
      else (upTo close next rest).map fun ((text, found), left) => ((c :: text, found), left)

/-- What a scanner finds at the first place of a text where it accepts. -/
def findFirst (scanner : Scanner α) : List Char → Option α
  | [] => (scanner []).map Prod.fst
  | c :: rest =>
    match scanner (c :: rest) with
    | some (found, _) => some found
    | none => findFirst scanner rest

/-- All that a scanner finds from the left, looking on behind what it took. The first `skip`
characters are passed over. -/
def findAllAfter (scanner : Scanner α) (skip : Nat) : List Char → List α
  | [] => []
  | c :: rest =>
    match skip with
    | skip + 1 => findAllAfter scanner skip rest
    | 0 =>
      match scanner (c :: rest) with
      | some (found, left) => found :: findAllAfter scanner (rest.length - left.length) rest
      | none => findAllAfter scanner 0 rest

/-- All that a scanner finds from the left, looking on behind what it took. -/
def findAll (scanner : Scanner α) (text : List Char) : List α := findAllAfter scanner 0 text

theorem findAllAfter_eq_findAll_drop (scanner : Scanner α) (skip : Nat) (text : List Char) :
    findAllAfter scanner skip text = findAll scanner (text.drop skip) := by
  induction text generalizing skip with
  | nil => simp [findAll, findAllAfter]
  | cons c rest ih =>
    cases skip with
    | zero => rfl
    | succ skip => simpa [findAllAfter] using ih skip

@[simp] theorem findAll_nil (scanner : Scanner α) : findAll scanner [] = [] := rfl

/-- Where the scanner refuses, the search moves on by one character. -/
theorem findAll_cons_of_none {scanner : Scanner α} {c : Char} {rest : List Char}
    (h : scanner (c :: rest) = none) : findAll scanner (c :: rest) = findAll scanner rest := by
  simp [findAll, findAllAfter, h]

/-- Where the scanner accepts and takes something, the search goes on with what it left. -/
theorem findAll_cons_of_some {scanner : Scanner α} {c : Char} {rest taken left : List Char}
    {found : α} (h : scanner (c :: rest) = some (found, left)) (hrest : rest = taken ++ left) :
    findAll scanner (c :: rest) = found :: findAll scanner left := by
  subst hrest
  change findAllAfter scanner 0 _ = _
  simp only [findAllAfter, h]
  rw [findAllAfter_eq_findAll_drop]
  simp

end Scanner

/-- Whether a text stands somewhere in a line. -/
def occursIn (text : String) (line : List Char) : Bool :=
  (Scanner.findFirst (Scanner.literal text) line).isSome

end OsdLatency.Text
