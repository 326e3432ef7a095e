/-!
# Reading UTF-8

Bytes are read from the left. A byte sequence that is well formed gives its character. Where none
starts, the longest beginning of one that the bytes hold (at least one byte) is a fault, and reading
goes on behind it. A file is shown with U+FFFD for each fault.

## Main definitions

* `Utf8.State` — how far a sequence has been read, and which bytes may follow
* `Utf8.Reader` — the state and what has been read, with `push` for one more byte
* `Utf8.symbols` — the characters and faults of a byte string
* `Utf8.isValid`, `Utf8.decode` — whether there is no fault; the text with each fault replaced

## Main results

* `Utf8.symbolsFrom_cons` — the symbols of a byte string, byte by byte
-/

namespace OsdLatency.Text.Utf8

/-- The place within a sequence. -/
inductive State
  /-- Between two sequences. -/
  | start
  /-- The next byte must lie from `low` to `high`, and `more` continuation bytes follow it. The
  bytes read so far contribute `point`. -/
  | inside (more : Nat) (low high : UInt8) (point : Nat)
deriving DecidableEq, Repr

/-- A character, or `none` for a fault. -/
abbrev Symbol := Option Char

/-- Read the first byte of a sequence. The ranges of the second byte leave out overlong forms,
surrogates, and what lies above U+10FFFF. -/
def first (b : UInt8) : State × List Symbol :=
  if b < 0x80 then (.start, [some (Char.ofNat b.toNat)])
  else if b < 0xC2 then (.start, [none])
  else if b < 0xE0 then (.inside 0 0x80 0xBF (b.toNat - 0xC0), [])
  -- A second byte below A0 would be an overlong form.
  else if b = 0xE0 then (.inside 1 0xA0 0xBF 0, [])
  -- A second byte above 9F would be a surrogate.
  else if b = 0xED then (.inside 1 0x80 0x9F 0xD, [])
  else if b < 0xF0 then (.inside 1 0x80 0xBF (b.toNat - 0xE0), [])
  -- A second byte below 90 would be an overlong form.
  else if b = 0xF0 then (.inside 2 0x90 0xBF 0, [])
  else if b < 0xF4 then (.inside 2 0x80 0xBF (b.toNat - 0xF0), [])
  -- A second byte above 8F would lie above U+10FFFF.
  else if b = 0xF4 then (.inside 2 0x80 0x8F 4, [])
  else (.start, [none])

/-- Read one byte. A byte that cannot continue a sequence makes a fault of it and is read as a first
byte. -/
def step : State → UInt8 → State × List Symbol
  | .start, b => first b
  | .inside more low high point, b =>
    if low ≤ b ∧ b ≤ high then
      let point := point * 64 + (b.toNat - 0x80)
      match more with
      | 0 => (.start, [some (Char.ofNat point)])
      | more + 1 => (.inside more 0x80 0xBF point, [])
    else ((first b).1, none :: (first b).2)

/-- What is left at the end of the bytes: a sequence that is not complete is a fault. -/
def rest : State → List Symbol
  | .start => []
  | .inside .. => [none]

/-- A state together with what has been read, the last symbol first. -/
structure Reader where
  state : State
  read : List Symbol

namespace Reader

/-- Read one more byte. -/
def push (r : Reader) (b : UInt8) : Reader where
  state := (step r.state b).1
  read := (step r.state b).2.reverse ++ r.read

/-- Everything read, in order. -/
def close (r : Reader) : List Symbol := (rest r.state ++ r.read).reverse

end Reader

/-- The symbols of a byte string that is read from a state on. -/
def symbolsFrom (state : State) (bytes : List UInt8) : List Symbol :=
  (bytes.foldl Reader.push ⟨state, []⟩).close

/-- The characters of a byte string in order, with `none` for each fault. -/
def symbols (bytes : List UInt8) : List Symbol := symbolsFrom .start bytes

/-- Whether a byte string is well formed throughout. -/
def isValid (bytes : List UInt8) : Bool := (symbols bytes).all Option.isSome

/-- The replacement character U+FFFD. -/
def replacement : Char := '\uFFFD'

/-- The text of a byte string, with the replacement character for each fault. -/
def decode (bytes : List UInt8) : List Char := (symbols bytes).map (·.getD replacement)

theorem close_foldl_push (bytes : List UInt8) (state : State) (read : List Symbol) :
    (bytes.foldl Reader.push ⟨state, read⟩).close = read.reverse ++ symbolsFrom state bytes := by
  unfold symbolsFrom
  induction bytes generalizing state read with
  | nil => cases state <;> simp [Reader.close, rest]
  | cons b bytes ih =>
    simp only [List.foldl_cons, Reader.push, List.append_nil]
    rw [ih, ih _ (step state b).2.reverse]
    simp

@[simp] theorem symbolsFrom_nil (state : State) : symbolsFrom state [] = rest state := by
  cases state <;> rfl

/-- One byte gives the symbols of its step, and reading goes on from the state behind it. -/
theorem symbolsFrom_cons (state : State) (b : UInt8) (bytes : List UInt8) :
    symbolsFrom state (b :: bytes) = (step state b).2 ++ symbolsFrom (step state b).1 bytes := by
  have := close_foldl_push bytes (step state b).1 (step state b).2.reverse
  simpa [symbolsFrom, Reader.push] using this

@[simp] theorem decode_nil : decode [] = [] := rfl

end OsdLatency.Text.Utf8
