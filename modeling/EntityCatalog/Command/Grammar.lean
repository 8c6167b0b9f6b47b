import EntityCatalog.Text.Cut

/-!
# Words of a command line

The words after a command are options and operands. An option is written in full after two
hyphens or as one letter after one, and its value is joined to it or is the next word. A lone
double hyphen makes operands of all words after it.

Words are read from left to right, and the first thing that settles the outcome wins: a word that
breaks a rule, or a request for help or for the version.
-/

namespace EntityCatalog.Command

/-- What an option asks for: a value, which may be given again or not, or a text about the tool. -/
inductive Role where
  | value (again : Bool)
  | help
  | version
deriving DecidableEq, Repr

/-- An option with its names. -/
structure Flag (τ : Type) where
  tag : τ
  long : String
  short : Option Char
  role : Role

/-- What one word of a command line is. -/
inductive Word (τ : Type) where
  | operand (text : String)
  | divider
  | joined (flag : Flag τ) (value : String)
  | plain (flag : Flag τ)
  | unknown

/-- The words that a command takes. -/
structure Grammar (τ : Type) where
  flags : List (Flag τ)
  accepts : τ → String → Bool
  operands : List (String → Bool)
  /-- Whether the first operand is the name of a command, which has words of its own. -/
  commands : Bool

/-- The options and operands that were given. -/
structure Given (τ : Type) where
  options : List (τ × String) := []
  operands : List String := []

/-- What the words of a command come to. -/
inductive Gathered (τ : Type) where
  | help
  | version
  | given (given : Given τ) (rest : List String)

variable {τ : Type}

/-- The word of an option that was found with or without a value joined to it. -/
def Word.ofFlag? (found : Option (Flag τ)) (value : Option String) : Word τ :=
  match found, value with
  | some flag, none => .plain flag
  | some flag, some value => .joined flag value
  | none, _ => .unknown

/-- Read an option written in full. -/
def Word.ofLong (flags : List (Flag τ)) (chars : List Char) : Word τ :=
  let (name, value) := match Text.cutAt? '=' chars with
    | some (name, value) => (String.ofList name, some (String.ofList value))
    | none => (String.ofList chars, none)
  match flags.find? fun flag => flag.long == name, value with
  | some flag, some value =>
    match flag.role with
    | .value _ => .joined flag value
    | _ => .unknown
  | found, value => .ofFlag? found value

/-- Read an option written as a letter. What follows the letter is its value. -/
def Word.ofShort (flags : List (Flag τ)) (letter : Char) (rest : List Char) : Word τ :=
  let value := match rest with
    | [] => none
    | '=' :: value => some (String.ofList value)
    | value => some (String.ofList value)
  match flags.find? fun flag => flag.short == some letter, value with
  | some flag, some value =>
    match flag.role with
    | .value _ => .joined flag value
    | _ => .plain flag
  | found, value => .ofFlag? found value

/-- Read a word. A lone hyphen is an operand. -/
def Word.read (flags : List (Flag τ)) (text : String) : Word τ :=
  match text.toList with
  | ['-', '-'] => .divider
  | '-' :: '-' :: chars => .ofLong flags chars
  | '-' :: letter :: rest => .ofShort flags letter rest
  | _ => .operand text

/-- Whether a word cannot be the value of the option before it. -/
def startsOption (text : String) : Bool :=
  match text.toList with
  | '-' :: _ :: _ => true
  | _ => false

namespace Grammar

/-- Add an operand, if there is room for it and it is well formed. -/
def addOperand (grammar : Grammar τ) (given : Given τ) (text : String) : Option (Given τ) :=
  match grammar.operands[given.operands.length]? with
  | some accepts =>
    if accepts text then some { given with operands := given.operands ++ [text] } else none
  | none => none

/-- Add operands one after another. -/
def addOperands (grammar : Grammar τ) : List String → Given τ → Option (Given τ)
  | [], given => some given
  | text :: rest, given => (grammar.addOperand given text).bind (addOperands grammar rest)

variable [DecidableEq τ]

/-- Add an option, if it may be given here and its value is well formed. -/
def addOption (grammar : Grammar τ) (given : Given τ) (flag : Flag τ) (value : String) :
    Option (Given τ) :=
  let again := match flag.role with
    | .value again => again
    | _ => false
  if !again && given.options.any (fun found => found.1 = flag.tag) then none
  else if grammar.accepts flag.tag value then
    some { given with options := given.options ++ [(flag.tag, value)] }
  else none

/-- Gather the options and operands among words. -/
def gather (grammar : Grammar τ) : List String → Given τ → Option (Gathered τ)
  | [], given => some (.given given [])
  | text :: rest, given =>
    match Word.read grammar.flags text with
    | .unknown => none
    | .divider =>
      if grammar.commands then none
      else (grammar.addOperands rest given).map fun given => .given given []
    | .operand text =>
      if grammar.commands then some (.given given (text :: rest))
      else
        match grammar.addOperand given text with
        | some given => grammar.gather rest given
        | none => none
    | .joined flag value =>
      match grammar.addOption given flag value with
      | some given => grammar.gather rest given
      | none => none
    | .plain flag =>
      match flag.role, rest with
      | .help, _ => some .help
      | .version, _ => some .version
      | .value _, [] => none
      | .value _, value :: rest =>
        if startsOption value then none
        else
          match grammar.addOption given flag value with
          | some given => grammar.gather rest given
          | none => none

end Grammar

namespace Given

variable [DecidableEq τ]

/-- The value of an option. -/
def option? (given : Given τ) (tag : τ) : Option String :=
  (given.options.find? fun found => found.1 = tag).map Prod.snd

/-- Every value of an option, in order. -/
def optionAll (given : Given τ) (tag : τ) : List String :=
  given.options.filterMap fun found => if found.1 = tag then some found.2 else none

end Given

end EntityCatalog.Command
