import VendorBundle.Command.Basic
import VendorBundle.Text.Number

/-!
# Reading command lines

Arguments are read from left to right, first those in front of the name of the command, then those
of the command. A switch stands alone; a setting takes a value, attached to it or as the next
argument. A value that stands on its own is read when the next option comes, so an argument that is
unknown is reported before it.
-/

namespace VendorBundle

/-- Why a command line asks for no command. -/
inductive UsageError where
  /-- The help text was asked for. -/
  | help
  | version
  /-- There are no arguments at all. -/
  | noArguments
  | missingCommand
  | unknownCommand
  | unknownArgument
  /-- A value is missing, empty or none of the choices. -/
  | badValue
  /-- A value is not a number, or too large. -/
  | badNumber
  /-- An option is repeated, or excludes another one. -/
  | conflict
  /-- A switch has a value. -/
  | valueOfSwitch
  deriving DecidableEq, Repr

namespace Arguments

/-! ## Options -/

inductive CommandName where
  | analyze
  | append
  | build
  | watch
  | check
  deriving DecidableEq, Repr

def CommandName.ofText? : String → Option CommandName
  | "analyze" => some .analyze
  | "append" => some .append
  | "build" => some .build
  | "watch" => some .watch
  | "check" => some .check
  | _ => none

inductive Switch where
  | verbose
  | quiet
  | noColor
  | files
  | print
  | analyzeOnly
  | help
  | version
  deriving DecidableEq, Repr

inductive Setting where
  | config
  | cwd
  | concurrency
  | tokenMode
  | out
  | debounce
  deriving DecidableEq, Repr

/-- An option: a switch or a setting. -/
inductive Flag where
  | switch (s : Switch)
  | setting (s : Setting)
  deriving DecidableEq, Repr

def Flag.longName : Flag → String
  | switch .verbose => "verbose"
  | switch .quiet => "quiet"
  | switch .noColor => "no-color"
  | switch .files => "fs"
  | switch .print => "print"
  | switch .analyzeOnly => "analyze-only"
  | switch .help => "help"
  | switch .version => "version"
  | setting .config => "config"
  | setting .cwd => "cwd"
  | setting .concurrency => "concurrency"
  | setting .tokenMode => "token-mode"
  | setting .out => "out"
  | setting .debounce => "debounce"

def Flag.shortName? : Flag → Option Char
  | switch .verbose => some 'v'
  | switch .quiet => some 'q'
  | switch .help => some 'h'
  | switch .version => some 'V'
  | setting .config => some 'c'
  | setting .out => some 'o'
  | _ => none

/-- The options in front of the command. -/
def leadingFlags : List Flag :=
  [.switch .verbose, .switch .quiet, .switch .noColor, .switch .help, .switch .version]

/-- The options of every command. -/
def sharedFlags : List Flag :=
  [.setting .config, .setting .cwd, .setting .concurrency, .setting .tokenMode,
    .switch .verbose, .switch .quiet, .switch .noColor, .switch .help]

def CommandName.flags : CommandName → List Flag
  | analyze | build => .setting .out :: sharedFlags
  | append => sharedFlags
  | watch => .setting .out :: .setting .debounce :: .switch .analyzeOnly :: sharedFlags
  | check => .switch .files :: .switch .print :: sharedFlags

/-! ## Values -/

/-- What was read so far. -/
structure Given where
  switches : List Switch := []
  settings : List Setting := []
  options : ConfigOptions := {}
  out : Option Path := none
  debounce : Option UInt64 := none
  /-- A setting whose value is still to come, or came and is still to be read. -/
  pending : Option (Setting × Option String) := none

abbrev Reading := Except UsageError

def pathOf (text : String) : Reading Path :=
  if text.isEmpty then .error .badValue else .ok ⟨text⟩

def numberOf (text : String) : Reading UInt64 :=
  match Text.word? text.toList with
  | some n => .ok n.toUInt64
  | none => .error .badNumber

def tokenModeOf : String → Reading TokenMode
  | "stat" => .ok .stat
  | "content" => .ok .content
  | _ => .error .badValue

namespace Given

/-- Reads the value of a setting, which is given only once. -/
def assign (g : Given) (s : Setting) (text : String) : Reading Given := do
  if g.settings.contains s then throw .conflict
  let g := { g with settings := s :: g.settings }
  let options := g.options
  match s with
  | .config => pure { g with options := { options with config := ← pathOf text } }
  | .cwd => pure { g with options := { options with cwd := ← pathOf text } }
  | .concurrency => pure { g with options := { options with concurrency := ← numberOf text } }
  | .tokenMode => pure { g with options := { options with tokenMode := ← tokenModeOf text } }
  | .out => pure { g with out := ← pathOf text }
  | .debounce => pure { g with debounce := ← numberOf text }

/-- Reads the value that is still to be read. -/
def settle (g : Given) : Reading Given :=
  match g.pending with
  | none => .ok g
  | some (_, none) => .error .badValue
  | some (s, some text) => { g with pending := none }.assign s text

def press (g : Given) (s : Switch) : Reading Given := do
  let g ← g.settle
  match s with
  | .help => throw .help
  | .version => throw .version
  | s =>
      if g.switches.contains s then throw .conflict
      pure { g with switches := s :: g.switches }

/-- A setting whose value comes next. -/
def await (g : Given) (s : Setting) : Reading Given := do
  let g ← g.settle
  pure { g with pending := some (s, none) }

/-- A setting with its value. -/
def attach (g : Given) (s : Setting) (text : List Char) : Reading Given := do
  let g ← g.settle
  g.assign s (String.ofList text)

/-! ## Arguments -/

/-- An argument with two dashes, after them. -/
def long (flags : List Flag) (g : Given) (text : List Char) : Reading Given :=
  let (name, value) := match Text.cut? '=' text with
    | some (name, value) => (name, some value)
    | none => (text, none)
  match flags.find? (·.longName.toList == name), value with
  | none, _ => .error .unknownArgument
  | some (.switch s), none => g.press s
  | some (.switch _), some _ => .error .valueOfSwitch
  | some (.setting s), none => g.await s
  | some (.setting s), some value => g.attach s value

/-- The options behind one dash. -/
def short (flags : List Flag) (g : Given) : List Char → Reading Given
  | [] => .ok g
  | c :: rest =>
      match flags.find? (·.shortName? == some c) with
      | none => .error .unknownArgument
      | some (.switch s) => do short flags (← g.press s) rest
      | some (.setting s) =>
          match rest with
          | [] => g.await s
          | '=' :: value | value => g.attach s value

/-- Not both of the switches that exclude each other. -/
def checkSwitches (g : Given) : Reading Unit :=
  if g.switches.contains .verbose && g.switches.contains .quiet then .error .conflict
  else .ok ()

end Given

/-- What an argument is by its dashes. -/
inductive Shape where
  /-- Two dashes and nothing else, after which no option is read. -/
  | terminator
  | long (text : List Char)
  | short (text : List Char)
  | plain

def Shape.ofText (argument : String) : Shape :=
  match argument.toList with
  | ['-', '-'] => terminator
  | '-' :: '-' :: text => long text
  | '-' :: c :: text => short (c :: text)
  | _ => plain

/-- The arguments of a command. -/
def ofCommand (flags : List Flag) (g : Given) : List String → Reading Given
  | [] => do
      let g ← g.settle
      g.checkSwitches
      pure g
  | argument :: rest =>
      match Shape.ofText argument, rest with
      | .terminator, [] => ofCommand flags g []
      | .terminator, _ :: _ => .error .unknownArgument
      | .long text, rest => do ofCommand flags (← g.long flags text) rest
      | .short text, rest => do ofCommand flags (← g.short flags text) rest
      | .plain, rest =>
          match g.pending with
          | some (s, none) => ofCommand flags { g with pending := some (s, some argument) } rest
          | _ => .error .unknownArgument

/-- The command with the values that it takes. -/
def CommandName.command (name : CommandName) (g : Given) : Command :=
  match name with
  | analyze => .analyze g.options g.out
  | append => .append g.options
  | build => .build g.options g.out
  | watch => .watch g.options g.out g.debounce (g.switches.contains .analyzeOnly)
  | check => .check g.options (g.switches.contains .files) (g.switches.contains .print)

/-- Help is given for a command, or for all. -/
def helpFor : List String → UsageError
  | [] | ["help"] => .help
  | [name] => if (CommandName.ofText? name).isSome then .help else .unknownCommand
  | _ => .unknownCommand

/-- The command line of a command after the switches in front of it. -/
def finish (leading : Given) (name : CommandName) (arguments : List String) :
    Reading CommandLine := do
  let g ← ofCommand name.flags {} arguments
  leading.checkSwitches
  let has (s : Switch) : Bool := leading.switches.contains s || g.switches.contains s
  pure {
    verbose := has .verbose
    quiet := has .quiet
    noColor := has .noColor
    command := name.command g }

/-- What is missing after switches without a command. -/
def unfinished (leading : Given) : UsageError :=
  if leading.switches.isEmpty then .noArguments else .missingCommand

/-- The name of a command, or of the help on commands. -/
def isCommand (argument : String) : Bool :=
  argument == "help" || (CommandName.ofText? argument).isSome

/-- All arguments, of which `leading` were read. -/
def fromStart (leading : Given) : List String → Reading CommandLine
  | [] => .error (unfinished leading)
  | argument :: rest =>
      match CommandName.ofText? argument with
      | some name => finish leading name rest
      | none =>
          if argument == "help" then .error (helpFor rest)
          else match Shape.ofText argument with
            | .terminator =>
                match rest with
                | [] => .error (unfinished leading)
                | next :: _ => .error (if isCommand next then .unknownArgument else .unknownCommand)
            | .long text => do fromStart (← leading.long leadingFlags text) rest
            | .short text => do fromStart (← leading.short leadingFlags text) rest
            | .plain => .error .unknownCommand

end Arguments

/-- The command line that the arguments make. -/
def CommandLine.ofArguments (arguments : List String) : Except UsageError CommandLine :=
  Arguments.fromStart {} arguments

end VendorBundle
