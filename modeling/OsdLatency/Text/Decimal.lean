/-!
# Reading decimal numbers

Numbers are written with ASCII digits. Leading zeros do not matter, and a number that does not fit
its word is refused like one that is not a number at all.

## Main definitions

* `natural?` — the value of a non-empty run of digits
* `uint32?`, `uint64?` — the same within a word
* `dropPlus`, `int64?` — numbers that may have a sign in front
-/

namespace OsdLatency.Text

/-- The value of an ASCII digit. -/
def digitValue? (c : Char) : Option Nat :=
  if '0' ≤ c ∧ c ≤ '9' then some (c.toNat - '0'.toNat) else none

/-- The value of the digits that follow a number read so far. -/
def readDigits (value : Nat) : List Char → Option Nat
  | [] => some value
  | c :: rest => (digitValue? c).bind fun digit => readDigits (10 * value + digit) rest

/-- The value of a non-empty run of digits. -/
def natural? (text : List Char) : Option Nat :=
  if text.isEmpty then none else readDigits 0 text

/-- A number below `2 ^ 32`. -/
def uint32? (text : List Char) : Option UInt32 :=
  (natural? text).bind fun n => if n < UInt32.size then some (UInt32.ofNat n) else none

/-- A number below `2 ^ 64`. -/
def uint64? (text : List Char) : Option UInt64 :=
  (natural? text).bind fun n => if n < UInt64.size then some (UInt64.ofNat n) else none

/-- A number without the plus sign that may stand in front of it. -/
def dropPlus : List Char → List Char
  | '+' :: rest => rest
  | text => text

/-- A number from `-2 ^ 63` up to but not including `2 ^ 63`, with or without a sign. -/
def int64? : List Char → Option Int64
  | '-' :: rest =>
    (natural? rest).bind fun n =>
      if n ≤ 0x8000000000000000 then some (Int64.ofInt (-n)) else none
  | text =>
    (natural? (dropPlus text)).bind fun n =>
      if n < 0x8000000000000000 then some (Int64.ofNat n) else none

@[simp] theorem natural?_nil : natural? [] = none := rfl

end OsdLatency.Text
