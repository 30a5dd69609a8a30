import CodeBlocks.Word

/-! # Arguments — what a command line asks for

    Arguments are read from left to right, first those of the program,
    then, from the command's name on, those of the command.  The switches
    and settings that concern every command may stand in both places; a
    setting given with the command wins.

    The first argument that cannot be read ends the reading, and so does a
    wish for help or the version.  In each of the two places a switch or
    setting may be given once, and quiet and verbose exclude each other.
    After `--` every argument is a file. -/

namespace CodeBlocks.CommandLine

/-- An argument that is there or not. -/
inductive Switch where
  | verbose
  | quiet
  | fromStart
deriving DecidableEq

/-- An argument with a value. -/
inductive Setting where
  | config
  | language
  | offset
  | minimum
deriving DecidableEq

/-- Why no command is run. -/
inductive Stop where
  | usage
  | help
  | version
deriving DecidableEq

/-- What a command is told to do. -/
inductive Command where
  | blocks
  | symbols
  | blockAt (offset : Nat)
  | trim (fromStart : Bool) (minimum : Option Nat)
  | imports
deriving DecidableEq

/-- A command line that can be run. -/
structure Invocation where
  command : Command
  file : String
  config : Option String
  language : Option String
  verbose : Bool
  quiet : Bool
deriving DecidableEq

/-- The name of a switch, after two dashes. -/
def Switch.name : Switch → String
  | verbose => "verbose"
  | quiet => "quiet"
  | fromStart => "prefix"

/-- The name of a setting, after two dashes. -/
def Setting.name : Setting → String
  | config => "config"
  | language => "language"
  | offset => "offset"
  | minimum => "min-block-count"

/-- A 64-bit natural in decimal, a plus sign allowed in front. -/
def count? (s : String) : Option Nat :=
  let digits := match s.toList with
    | '+' :: rest => rest
    | cs => cs
  let n := digits.foldl (fun n c => 10 * n + (c.toNat - '0'.toNat)) 0
  if !digits.isEmpty && digits.all Char.isDigit && n ≤ Word.greatest then some n else none

/-- Whether a setting takes a value: paths are not empty, counts are numbers. -/
def Setting.takes (value : String) : Setting → Bool
  | config => value != ""
  | language => true
  | offset | minimum => (count? value).isSome

/-- What is known in one of the two places. -/
structure Scope where
  switches : List Switch
  settings : List Setting
  /-- Whether the version can be asked for. -/
  hasVersion : Bool
  /-- Whether files are expected; if not, a word is a command. -/
  takesFile : Bool

/-- In front of the command. -/
def programScope : Scope := ⟨[.verbose, .quiet], [.config, .language], true, false⟩

/-- After a command, with arguments of its own. -/
def commandScope (switches : List Switch) (settings : List Setting) : Scope :=
  ⟨[.verbose, .quiet] ++ switches, [.config, .language] ++ settings, false, true⟩

/-- What was given in one of the two places. -/
structure Given where
  switches : List Switch
  settings : List (Setting × String)
  files : List String

namespace Given

def nothing : Given := ⟨[], [], []⟩

/-- Adds a switch that is not there yet. -/
def addSwitch (g : Given) (switch : Switch) : Except Stop Given :=
  if g.switches.contains switch then .error .usage
  else .ok { g with switches := switch :: g.switches }

/-- Adds a setting that is not there yet. -/
def addSetting (g : Given) (setting : Setting) (value : String) : Except Stop Given :=
  if (g.settings.lookup setting).isSome || !setting.takes value then .error .usage
  else .ok { g with settings := (setting, value) :: g.settings }

/-- Adds a file; there can be one, and its path is not empty. -/
def addFile (g : Given) (file : String) : Except Stop Given :=
  if !g.files.isEmpty || file = "" then .error .usage else .ok { g with files := [file] }

end Given

/-- An argument by its form. -/
inductive Token where
  /-- Two dashes. -/
  | escape
  /-- Two dashes, a name, and a value after an equals sign if there is one. -/
  | long (name : String) (value : Option String)
  /-- A dash and letters. -/
  | short (letters : List Char)
  | word (text : String)

/-- The name and the value of a long argument. -/
def splitValue (cs : List Char) : String × Option String :=
  match cs.dropWhile (· != '=') with
  | [] => (String.ofList cs, none)
  | _ :: value => (String.ofList (cs.takeWhile (· != '=')), some (String.ofList value))

/-- The form of an argument. -/
def tokenOf (text : String) : Token :=
  match text.toList with
  | ['-', '-'] => .escape
  | '-' :: '-' :: rest => .long (splitValue rest).1 (splitValue rest).2
  | '-' :: c :: rest => .short (c :: rest)
  | _ => .word text

/-- Reads the letters after a dash. -/
def readLetters (scope : Scope) : Given → List Char → Except Stop Given
  | g, [] => .ok g
  | g, c :: cs =>
      if c = 'v' then do readLetters scope (← g.addSwitch .verbose) cs
      else if c = 'h' then .error .help
      else if c = 'V' ∧ scope.hasVersion then .error .version
      else .error .usage

/-- What a long argument means. -/
inductive Meaning where
  | stop (reason : Stop)
  | switch (switch : Switch)
  | setting (setting : Setting)

/-- The meaning of a long argument's name. -/
def meaningOf (scope : Scope) (name : String) : Meaning :=
  match scope.switches.find? (fun s => s.name == name),
      scope.settings.find? (fun s => s.name == name) with
  | some switch, _ => .switch switch
  | none, some setting => .setting setting
  | none, none =>
      if name = "help" then .stop .help
      else if name = "version" ∧ scope.hasVersion then .stop .version
      else .stop .usage

/-- Reads the arguments of one place: what was given, and what follows from the
    first word on where no file is expected. -/
def readArguments (scope : Scope) : Given → List String → Except Stop (Given × List String)
  | g, [] => .ok (g, [])
  | g, text :: rest =>
      match tokenOf text with
      | .escape =>
          if scope.takesFile then do return (← rest.foldlM Given.addFile g, [])
          else if rest.isEmpty then .ok (g, [])
          else .error .usage
      | .short letters => do readArguments scope (← readLetters scope g letters) rest
      | .word file =>
          if scope.takesFile then do readArguments scope (← g.addFile file) rest
          else .ok (g, text :: rest)
      | .long name (some value) =>
          match meaningOf scope name with
          | .setting setting => do readArguments scope (← g.addSetting setting value) rest
          | _ => .error .usage
      | .long name none =>
          match meaningOf scope name with
          | .stop reason => .error reason
          | .switch switch => do readArguments scope (← g.addSwitch switch) rest
          | .setting setting =>
              match rest with
              | [] => .error .usage
              | value :: rest =>
                  match tokenOf value with
                  | .word _ => do readArguments scope (← g.addSetting setting value) rest
                  | _ => .error .usage

/-- Refuses what excludes each other. -/
def Given.check (g : Given) : Except Stop Unit :=
  if g.switches.contains .quiet && g.switches.contains .verbose then .error .usage else .ok ()

/-- The command names. -/
def commandNames : List String := ["blocks", "symbols", "at", "trim", "imports"]

/-- The place after a command. -/
def scopeOf (name : String) : Scope :=
  match name with
  | "at" => commandScope [] [.offset]
  | "trim" => commandScope [.fromStart] [.minimum]
  | _ => commandScope [] []

/-- The count given for a setting. -/
def Given.countOf? (g : Given) (setting : Setting) : Option Nat :=
  (g.settings.lookup setting).bind count?

/-- The command of a name; an offset is required where one is used. -/
def commandOf? (name : String) (g : Given) : Option Command :=
  match name with
  | "blocks" => some .blocks
  | "symbols" => some .symbols
  | "at" => (g.countOf? .offset).map .blockAt
  | "trim" => some (.trim (g.switches.contains .fromStart) (g.countOf? .minimum))
  | "imports" => some .imports
  | _ => none

/-- Puts together what was given in the two places. -/
def invocation (name : String) (program command : Given) : Except Stop Invocation := do
  program.check
  command.check
  match commandOf? name command, command.files with
  | some what, [file] =>
      let setting := fun s => (command.settings.lookup s).orElse fun _ => program.settings.lookup s
      let switch := fun s => command.switches.contains s || program.switches.contains s
      return ⟨what, file, setting .config, setting .language, switch .verbose, switch .quiet⟩
  | _, _ => throw .usage

/-- Whether help is asked for as a command: for the program or for one command. -/
def isHelpCommand : List String → Bool
  | [] => true
  | [name] => commandNames.contains name || name == "help"
  | _ => false

/-- Reads a command line. -/
def parse (args : List String) : Except Stop Invocation := do
  let (program, rest) ← readArguments programScope Given.nothing args
  match rest with
  | [] => throw .usage
  | name :: rest =>
      if commandNames.contains name then
        let (command, _) ← readArguments (scopeOf name) Given.nothing rest
        invocation name program command
      else if name = "help" ∧ isHelpCommand rest then throw .help
      else throw .usage

end CodeBlocks.CommandLine
