/-!
# Command lines

A command line is read from left to right. An argument is an option, the value of the option
before it, or an operand. Options are called by a long name (`--name`, `--name=value`) or by a
letter (`-n`), and letters can be joined: all but the last one must then be switches, and the last
one can be followed by its value. Behind `--` all arguments are operands. No option can be given
twice.

## Main definitions

* `OptionRule`, `Operand`, `Grammar` — what a program takes
* `Grammar.read` — the settings of a command line, or why there are none
-/

namespace OsdLatency.CommandLine

/-- Why a command line gives no settings. -/
inductive Stop
  /-- Help is asked for. -/
  | help
  /-- The version is asked for. -/
  | version
  /-- The program does not take the command line. -/
  | misuse
deriving DecidableEq, Repr

/-- What an option does. -/
inductive Action (σ : Type)
  | help
  | version
  /-- Change the settings. -/
  | switch (set : σ → σ)
  /-- Take a value, which may be refused. `negatives` tells whether a value that starts with a minus
  sign can stand in an argument of its own. -/
  | value (negatives : Bool) (set : String → σ → Option σ)

/-- An option with its names. -/
structure OptionRule (σ : Type) where
  letter : Option Char
  name : String
  action : Action σ

/-- An argument that is told by its place. -/
structure Operand (σ : Type) where
  required : Bool
  set : String → σ → Option σ

/-- What a program takes. -/
structure Grammar (σ : Type) where
  options : List (OptionRule σ)
  /-- The operands in their order, the required ones first. -/
  operands : List (Operand σ)
  /-- The settings of an empty command line. -/
  initial : σ
  /-- Whether settings go together. -/
  agrees : σ → Bool

/-- What the next argument can be. -/
inductive Expecting (σ : Type)
  | anything
  /-- Only the value of the option before it. -/
  | value (negatives : Bool) (set : String → σ → Option σ)
  /-- Only an operand. -/
  | operand

/-- A command line that has been read so far. -/
structure Progress (σ : Type) where
  settings : σ
  /-- The names of the options that have been given. -/
  given : List String
  /-- The operands that have not been given. -/
  operands : List (Operand σ)
  expecting : Expecting σ

/-- Whether an argument can be nothing but an option: it starts with a minus sign that is not all of
it. -/
def looksLikeOption (argument : String) : Bool :=
  match argument.toList with
  | '-' :: _ :: _ => true
  | _ => false

namespace Progress

variable {σ : Type}

/-- Mark an option as given. -/
def give (p : Progress σ) (rule : OptionRule σ) : Except Stop (Progress σ) :=
  if p.given.contains rule.name then .error .misuse
  else .ok { p with given := rule.name :: p.given }

/-- Take a value or an operand. -/
def take (p : Progress σ) (set : String → σ → Option σ) (text : String) :
    Except Stop (Progress σ) :=
  match set text p.settings with
  | some settings => .ok { p with settings }
  | none => .error .misuse

/-- Take the next operand. -/
def takeOperand (p : Progress σ) (text : String) : Except Stop (Progress σ) :=
  match p.operands with
  | [] => .error .misuse
  | operand :: operands => { p with operands }.take operand.set text

/-- Read an option that is called by its name, with the value that is joined to it. -/
def readNamed (rules : List (OptionRule σ)) (p : Progress σ) (name : String)
    (joined : Option String) : Except Stop (Progress σ) :=
  match rules.find? (·.name == name) with
  | none => .error .misuse
  | some rule =>
    match rule.action, joined with
    | .help, none => .error .help
    | .version, none => .error .version
    | .switch set, none => do
      let p ← p.give rule
      return { p with settings := set p.settings }
    | .value negatives set, none => do
      let p ← p.give rule
      return { p with expecting := .value negatives set }
    | .value _ set, some text => do (← p.give rule).take set text
    | _, some _ => .error .misuse

/-- Read joined letters. -/
def readLetters (rules : List (OptionRule σ)) (p : Progress σ) :
    List Char → Except Stop (Progress σ)
  | [] => .ok p
  | letter :: rest =>
    match rules.find? (·.letter == some letter) with
    | none => .error .misuse
    | some rule =>
      match rule.action with
      | .help => .error .help
      | .version => .error .version
      | .switch set => do
        let p ← p.give rule
        readLetters rules { p with settings := set p.settings } rest
      | .value negatives set => do
        let p ← p.give rule
        -- The rest of the argument is the value. An equals sign before it does not belong to it.
        match rest with
        | [] => return { p with expecting := .value negatives set }
        | '=' :: text => p.take set (String.ofList text)
        | text => p.take set (String.ofList text)

/-- The name of an option, and the value that is joined to it by an equals sign. -/
def splitName (text : List Char) : String × Option String :=
  (String.ofList (text.takeWhile (· != '=')),
    match text.dropWhile (· != '=') with
    | [] => none
    | _ :: value => some (String.ofList value))

/-- Read one argument. -/
def step (rules : List (OptionRule σ)) (p : Progress σ) (argument : String) :
    Except Stop (Progress σ) :=
  match p.expecting with
  | .operand => p.takeOperand argument
  | .value negatives set =>
    if looksLikeOption argument && !negatives then .error .misuse
    else { p with expecting := .anything }.take set argument
  | .anything =>
    match argument.toList with
    | ['-', '-'] => .ok { p with expecting := .operand }
    | '-' :: '-' :: rest => p.readNamed rules (splitName rest).1 (splitName rest).2
    -- A lone minus sign is an operand.
    | '-' :: letter :: rest => p.readLetters rules (letter :: rest)
    | _ => p.takeOperand argument

/-- The settings of a command line that has been read to its end. Every option must have its value,
and every required operand must be given. -/
def finish (p : Progress σ) (agrees : σ → Bool) : Except Stop σ :=
  match p.expecting with
  | .value _ _ => .error .misuse
  | _ =>
    if p.operands.any (·.required) || !agrees p.settings then .error .misuse else .ok p.settings

end Progress

/-- The settings of a command line. The first argument that stops the reading decides. -/
def Grammar.read (grammar : Grammar σ) (arguments : List String) : Except Stop σ := do
  let start : Progress σ :=
    { settings := grammar.initial, given := [], operands := grammar.operands
      expecting := .anything }
  let progress ← arguments.foldlM (Progress.step grammar.options) start
  progress.finish grammar.agrees

end OsdLatency.CommandLine
