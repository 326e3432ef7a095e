/-!
# Faults of the file system

What the operating system may answer instead of a file, with its number and wording.
-/

namespace OsdLatency.Files

/-- A refusal of the operating system. -/
inductive Fault
  | noSuchFile
  | fileExists
  | notADirectory
  | isADirectory
  | noSpace
  | nameTooLong
  /-- A path with a null character, which is refused before the operating system is asked. -/
  | nullCharacter
  /-- Any other refusal, by its number, if it has one, and its text. -/
  | other (code : Option Nat) (text : String)
deriving DecidableEq, Repr

namespace Fault

/-- The number of the refusal, if it has one. -/
def code? : Fault → Option Nat
  | noSuchFile => some 2
  | fileExists => some 17
  | notADirectory => some 20
  | isADirectory => some 21
  | noSpace => some 28
  | nameTooLong => some 36
  | nullCharacter => none
  | other code _ => code

/-- The text of the refusal. -/
def text : Fault → String
  | noSuchFile => "No such file or directory"
  | fileExists => "File exists"
  | notADirectory => "Not a directory"
  | isADirectory => "Is a directory"
  | noSpace => "No space left on device"
  | nameTooLong => "File name too long"
  | nullCharacter => "file name contained an unexpected NUL byte"
  | other _ text => text

/-- The refusals that have a number and a name of their own. -/
def numbered : List Fault :=
  [noSuchFile, fileExists, notADirectory, isADirectory, noSpace, nameTooLong]

/-- The refusal with a number. -/
def ofCode (code : Nat) (text : String) : Fault :=
  (numbered.find? (·.code? == some code)).getD (other (some code) text)

/-- The refusal as it is shown behind a message. -/
def message (fault : Fault) : String :=
  match fault.code? with
  | some code => s!"{fault.text} (os error {code})"
  | none => fault.text

end Fault

end OsdLatency.Files
