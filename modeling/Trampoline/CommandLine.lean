/-
Trampoline/CommandLine.lean

The command line that prints the demonstration trampoline.  `parse` reads the
arguments, and `run` turns them into an `Action`, which is all that the outside
world has to carry out.

An argument that starts with a hyphen names an option; a single hyphen does not.
A long option takes its value after an equals sign or from the next argument, a
short one also right behind its letter.  The next argument serves as a value
unless it names an option itself.  Each option may be given once, and nothing
but options is accepted; two hyphens alone end the options.
-/
import Trampoline.Demo

namespace Trampoline.CommandLine

/-! ### Options -/

/-- An option that takes a value. -/
inductive ValueOption
  | architecture
  | bytesPerLine
  | output
  deriving DecidableEq, Repr

/-- An option that takes none. -/
inductive Flag
  | raw
  | disassemble
  | help
  deriving DecidableEq, Repr

/-- An option of either kind. -/
inductive Key
  | value (option : ValueOption)
  | flag (flag : Flag)
  deriving DecidableEq, Repr

/-- The option with a long name. -/
def Key.ofLong? : String → Option Key
  | "arch" => some (.value .architecture)
  | "bytes-per-line" => some (.value .bytesPerLine)
  | "output" => some (.value .output)
  | "raw" => some (.flag .raw)
  | "disas" => some (.flag .disassemble)
  | "help" => some (.flag .help)
  | _ => none

/-- The option with a short name. -/
def Key.ofShort? : Char → Option Key
  | 'o' => some (.value .output)
  | 'h' => some (.flag .help)
  | _ => none

/-- Why a command line is not accepted. -/
inductive UsageError
  | unexpected (argument : String)
  | missingValue (argument : String)
  | invalidValue (value : String)
  | repeated (option : String)
  | needlessValue (argument : String)
  deriving DecidableEq, Repr

/-- The text reported for a usage error. -/
def UsageError.message : UsageError → String
  | unexpected argument => s!"error: unexpected argument '{argument}'"
  | missingValue argument => s!"error: a value is required for '{argument}'"
  | invalidValue value => s!"error: invalid value '{value}'"
  | repeated option => s!"error: '{option}' cannot be used multiple times"
  | needlessValue argument => s!"error: no value is expected for '{argument}'"

/-- What the options given so far ask for. -/
structure Settings where
  target : Option Target := none
  perLine : Option Nat := none
  output : Option String := none
  raw : Bool := false
  disassemble : Bool := false
  deriving DecidableEq, Repr

/-- The target with a given name. -/
def targetOf? : String → Option Target
  | "host" => some .host
  | "x86-64-sysv" => some .systemV
  | "x86-64-win64" => some .microsoft
  | "x86" => some .ia32
  | _ => none

/-- The number with the given decimal digits. -/
def ofDigits (digits : List Char) : Nat :=
  digits.foldl (fun n c => 10 * n + (c.toNat - '0'.toNat)) 0

/-- Reads an unsigned 64-bit number: decimal digits, perhaps behind a plus sign. -/
def count? (s : String) : Option Nat :=
  let digits := match s.toList with
    | '+' :: rest => rest
    | all => all
  if digits ≠ [] ∧ digits.all Char.isDigit ∧ ofDigits digits < Code.addressSpace then
    some (ofDigits digits)
  else none

namespace Settings

/-- Gives an option its value. -/
def set (s : Settings) (value : String) : ValueOption → Except UsageError Settings
  | .architecture =>
      if s.target.isSome then .error (.repeated "--arch")
      else match targetOf? value with
        | some target => .ok { s with target := some target }
        | none => .error (.invalidValue value)
  | .bytesPerLine =>
      if s.perLine.isSome then .error (.repeated "--bytes-per-line")
      else match count? value with
        | some count => .ok { s with perLine := some count }
        | none => .error (.invalidValue value)
  | .output =>
      if s.output.isSome then .error (.repeated "--output")
      else .ok { s with output := some value }

/-- Raises a flag; asking for help changes no setting. -/
def raise (s : Settings) : Flag → Except UsageError Settings
  | .raw => if s.raw then .error (.repeated "--raw") else .ok { s with raw := true }
  | .disassemble =>
      if s.disassemble then .error (.repeated "--disas") else .ok { s with disassemble := true }
  | .help => .ok s

end Settings

/-! ### Reading the arguments -/

/-- One argument by its shape. -/
inductive Token
  /-- Two hyphens alone. -/
  | terminator
  /-- Two hyphens, a name, and a value behind an equals sign. -/
  | long (name : String) (value : Option String)
  /-- A hyphen, a letter, and a value right behind it. -/
  | short (letter : Char) (value : Option String)
  /-- Anything else. -/
  | plain
  deriving DecidableEq, Repr

/-- The shape of an argument. -/
def Token.ofArgument (argument : String) : Token :=
  match argument.toList with
  | ['-', '-'] => .terminator
  | '-' :: '-' :: rest =>
      let name := rest.takeWhile (· != '=')
      let value := match rest.dropWhile (· != '=') with
        | [] => none
        | _ :: value => some (String.ofList value)
      .long (String.ofList name) value
  | '-' :: letter :: rest =>
      let value := match rest with
        | [] => none
        | '=' :: value => some (String.ofList value)
        | value => some (String.ofList value)
      .short letter value
  | _ => .plain

/-- What the command line asks for. -/
inductive Request
  | help
  | dump (settings : Settings)
  deriving DecidableEq, Repr

/-- Reads arguments after those that gave `s`. -/
def parseFrom (s : Settings) : List String → Except UsageError Request
  | [] => .ok (.dump s)
  | argument :: rest =>
      -- A value comes with the option, or it is the next argument.
      let withValue (option : ValueOption) : Option String → Except UsageError Request
        | some value => do parseFrom (← s.set value option) rest
        | none =>
            match rest with
            | [] => .error (.missingValue argument)
            | value :: rest =>
                match Token.ofArgument value with
                | .plain => do parseFrom (← s.set value option) rest
                | _ => .error (.missingValue argument)
      match Token.ofArgument argument with
      | .plain => .error (.unexpected argument)
      | .terminator =>
          match rest with
          | [] => .ok (.dump s)
          | next :: _ => .error (.unexpected next)
      | .long name value =>
          match Key.ofLong? name, value with
          | none, _ => .error (.unexpected argument)
          | some (.value option), value => withValue option value
          | some (.flag _), some _ => .error (.needlessValue argument)
          | some (.flag .help), none => .ok .help
          | some (.flag flag), none => do parseFrom (← s.raise flag) rest
      | .short letter value =>
          match Key.ofShort? letter with
          | none => .error (.unexpected argument)
          | some (.value option) => withValue option value
          | some (.flag .help) => .ok .help
          | some (.flag flag) => do parseFrom (← s.raise flag) rest

/-- Reads a command line. -/
def parse (args : List String) : Except UsageError Request := parseFrom {} args

/-! ### Acting on them -/

/-- What goes to a file or to the standard output. -/
inductive Content
  | bytes (code : Code)
  | text (s : String)
  deriving DecidableEq, Repr

/-- What is left to do for the outside world. -/
inductive Action
  /-- Writes to a file, or to the standard output. -/
  | write (path : Option String) (content : Content)
  /-- Disassembles the code with another program. -/
  | disassemble (code : Code)
  /-- Prints how the command line is used. -/
  | help
  /-- Reports that the demonstration could not be built. -/
  | fail (message : String)
  /-- Reports a command line that is not accepted. -/
  | reject (error : UsageError)
  deriving DecidableEq, Repr

/-- The bytes on a line of the listing, unless the command line says otherwise. -/
def defaultPerLine : Nat := 16

/-- What a finished demonstration and the settings lead to. -/
def actionOf (s : Settings) (b : Builder) : Action :=
  if s.disassemble then .disassemble b.assembly
  else if s.raw then .write s.output (.bytes b.assembly)
  else .write s.output (.text (b.listing (s.perLine.getD defaultPerLine) ++ "\n"))

/-- What a command line leads to. -/
def run (callees : Demo.Callees) (args : List String) : Action :=
  match parse args with
  | .error error => .reject error
  | .ok .help => .help
  | .ok (.dump s) =>
      match Demo.build (s.target.getD .host) callees with
      | .ok b => actionOf s b
      | .error fault => .fail s!"build error: {fault.message}\n"

/-! ### Texts -/

/-- Why the operating system did not create a file. -/
inductive CreateError
  | notFound
  | isDirectory
  | other (text : String)
  deriving DecidableEq, Repr

/-- The text of the operating system. -/
def CreateError.text : CreateError → String
  | notFound => "No such file or directory (os error 2)"
  | isDirectory => "Is a directory (os error 21)"
  | other text => text

/-- The report on a file that could not be created. -/
def createFailure (path : String) (error : CreateError) : String :=
  s!"cannot create {path}: {error.text}\n"

/-- How the command line is used. -/
def usage : String :=
  "Dump the machine code of a demo trampoline\n\nOptions:\n" ++
  "      --arch <ARCH>         target: host, x86-64-sysv, x86-64-win64 or x86\n" ++
  "      --bytes-per-line <N>  bytes per line of the hex dump (0: one line)\n" ++
  "  -o, --output <FILE>       output to file (default: stdout)\n" ++
  "      --raw                 output raw machine code bytes\n" ++
  "      --disas               disassemble via objdump\n" ++
  "  -h, --help                print this text\n"

end Trampoline.CommandLine
