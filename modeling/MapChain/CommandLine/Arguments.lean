import MapChain.CacheKey

/-!
# Arguments of the command line

The command line takes one file and options with long names. An option that takes a value has it
after an equals sign or as the next argument, which must not look like an option; the other options
take none. No option is given twice. After two dashes everything is a file.

Arguments are read from left to right, and the first thing that is wrong is what is reported. Asking
for help or for the version ends the reading.
-/

namespace MapChain.CommandLine

/-! ## What is asked for -/

/-- What is printed of a transform. -/
inductive OutputForm where
  | code
  | map
  | json
  deriving DecidableEq, Repr

/-- The output of a name. -/
def OutputForm.ofName? : String → Option OutputForm
  | "code" => some .code
  | "map" => some .map
  | "json" => some .json
  | _ => none

/-- How log lines are written. -/
inductive LogForm where
  | text
  | json
  deriving DecidableEq, Repr

/-- The log of a name. -/
def LogForm.ofName? : String → Option LogForm
  | "text" => some .text
  | "json" => some .json
  | _ => none

/-- Arguments that are complete. -/
structure Arguments where
  /-- The file to transform; it may be missing only where the cache key is asked for. -/
  file : Option String
  /-- The location of the configuration. -/
  config : Option String
  projectRoot : String
  dev : Bool
  /-- More options for the downstream transformer, as JSON. -/
  options : Option String
  output : OutputForm
  printCacheKey : Bool
  log : LogForm
  deriving DecidableEq, Repr

/-- What the command line asks for. -/
inductive Command where
  | run (arguments : Arguments)
  | help
  | version
  deriving DecidableEq, Repr

/-- Why arguments are refused. -/
inductive ArgumentError where
  | unknown (argument : String)
  | repeated (name : String)
  | missingValue (name : String)
  /-- A value is given to an option that takes none. -/
  | unwantedValue (name : String)
  /-- The value is none of those that the option takes. -/
  | invalidValue (name value : String)
  | secondFile (argument : String)
  | missingFile
  deriving DecidableEq, Repr

/-- The error in words. -/
def ArgumentError.message : ArgumentError → String
  | .unknown argument => "unexpected argument '" ++ argument ++ "' found"
  | .repeated name => "the argument '--" ++ name ++ "' cannot be used multiple times"
  | .missingValue name => "a value is required for '--" ++ name ++ "' but none was supplied"
  | .unwantedValue name => "an unexpected value was found for '--" ++ name ++ "'"
  | .invalidValue name value => "invalid value '" ++ value ++ "' for '--" ++ name ++ "'"
  | .secondFile argument => "unexpected argument '" ++ argument ++ "' found"
  | .missingFile => "the following required arguments were not provided: <FILE>"

/-! ## One argument -/

/-- An option that takes no value. -/
inductive Switch where
  | dev
  | printCacheKey
  | help
  | version
  deriving DecidableEq, Repr

/-- An option that takes a value. -/
inductive Setting where
  | config
  | projectRoot
  | options
  | output
  | log
  deriving DecidableEq, Repr

/-- The name of a switch. -/
def Switch.name : Switch → String
  | .dev => "dev"
  | .printCacheKey => "print-cache-key"
  | .help => "help"
  | .version => "version"

/-- The name of a setting. -/
def Setting.name : Setting → String
  | .config => "tsconfig"
  | .projectRoot => "project-root"
  | .options => "options"
  | .output => "output"
  | .log => "log-format"

/-- The switch of a long name. -/
def Switch.ofName? (name : String) : Option Switch :=
  [Switch.dev, .printCacheKey, .help, .version].find? (·.name == name)

/-- The setting of a name. -/
def Setting.ofName? (name : String) : Option Setting :=
  [Setting.config, .projectRoot, .options, .output, .log].find? (·.name == name)

/-- What an argument is by itself. -/
inductive ArgumentKind where
  | switch (s : Switch)
  /-- A setting with the value that is attached to it. -/
  | setting (s : Setting) (attached : Option String)
  | file
  deriving DecidableEq, Repr

/-- The kind of an argument after two dashes with a name and perhaps a value. -/
def longKind (argument : String) (body : List Char) : Except ArgumentError ArgumentKind :=
  let name := String.ofList (body.takeWhile (· != '='))
  let attached := match body.dropWhile (· != '=') with
    | _ :: value => some (String.ofList value)
    | [] => none
  match Switch.ofName? name, Setting.ofName? name with
  | some s, _ => if attached.isSome then .error (.unwantedValue name) else .ok (.switch s)
  | none, some s => .ok (.setting s attached)
  | none, none => .error (.unknown argument)

/-- The kind of an argument. A dash alone is a file. -/
def kindOf (argument : String) : Except ArgumentError ArgumentKind :=
  match argument.toList with
  | '-' :: '-' :: body => longKind argument body
  | '-' :: 'h' :: _ => .ok (.switch .help)
  | '-' :: 'V' :: _ => .ok (.switch .version)
  | '-' :: _ :: _ => .error (.unknown argument)
  | _ => .ok .file

/-- Whether an argument may be the value of the setting before it. -/
def isValue (argument : String) : Bool :=
  match argument.toList with
  | '-' :: _ :: _ => false
  | _ => true

/-! ## Collecting -/

/-- What is known of the arguments so far. -/
structure Draft where
  file : Option String
  config : Option String
  projectRoot : Option String
  dev : Bool
  options : Option String
  output : Option OutputForm
  printCacheKey : Bool
  log : Option LogForm

namespace Draft

/-- Nothing is known. -/
def empty : Draft := ⟨none, none, none, false, none, none, false, none⟩

/-- Takes in a file. -/
def addFile (d : Draft) (argument : String) : Except ArgumentError Draft :=
  match d.file with
  | none => .ok { d with file := some argument }
  | some _ => .error (.secondFile argument)

/-- Turns a flag on, which must be off. -/
def turnOn (name : String) : Bool → Except ArgumentError Bool
  | false => .ok true
  | true => .error (.repeated name)

/-- Fills in a value where none is. -/
def fill {α : Type} (name : String) (current : Option α) (value : α) :
    Except ArgumentError (Option α) :=
  match current with
  | none => .ok (some value)
  | some _ => .error (.repeated name)

/-- The value that a name stands for. -/
def valueOf {α : Type} (name : String) (ofName? : String → Option α) (value : String) :
    Except ArgumentError α :=
  match ofName? value with
  | some a => .ok a
  | none => .error (.invalidValue name value)

/-- Takes in the value of a setting. -/
def set (d : Draft) (s : Setting) (value : String) : Except ArgumentError Draft :=
  match s with
  | .config => do return { d with config := ← fill s.name d.config value }
  | .projectRoot => do return { d with projectRoot := ← fill s.name d.projectRoot value }
  | .options => do return { d with options := ← fill s.name d.options value }
  | .output => do
    return { d with output := ← fill s.name d.output (← valueOf s.name OutputForm.ofName? value) }
  | .log => do return { d with log := ← fill s.name d.log (← valueOf s.name LogForm.ofName? value) }

/-- The arguments that are known at the end. -/
def finish (d : Draft) : Except ArgumentError Command :=
  if d.file.isNone && !d.printCacheKey then .error .missingFile
  else
    .ok <| .run
      { file := d.file
        config := d.config
        projectRoot := d.projectRoot.getD "."
        dev := d.dev
        options := d.options
        output := d.output.getD .json
        printCacheKey := d.printCacheKey
        log := d.log.getD .text }

/-- Takes in arguments that are all files. -/
def addFiles (d : Draft) : List String → Except ArgumentError Draft
  | [] => .ok d
  | argument :: rest =>
    match d.addFile argument with
    | .ok d => d.addFiles rest
    | .error e => .error e

/-- Reads arguments from left to right. -/
def readFrom (d : Draft) : List String → Except ArgumentError Command
  | [] => d.finish
  | argument :: rest =>
    -- Nothing after two dashes is an option
    if argument = "--" then (d.addFiles rest).bind finish
    else
      match kindOf argument with
      | .error e => .error e
      | .ok .file =>
        match d.addFile argument with
        | .ok d => readFrom d rest
        | .error e => .error e
      -- Help and the version end the reading, so what follows is not looked at
      | .ok (.switch .help) => .ok .help
      | .ok (.switch .version) => .ok .version
      | .ok (.switch .dev) =>
        match turnOn Switch.dev.name d.dev with
        | .ok dev => readFrom { d with dev } rest
        | .error e => .error e
      | .ok (.switch .printCacheKey) =>
        match turnOn Switch.printCacheKey.name d.printCacheKey with
        | .ok printCacheKey => readFrom { d with printCacheKey } rest
        | .error e => .error e
      | .ok (.setting s (some value)) =>
        match d.set s value with
        | .ok d => readFrom d rest
        | .error e => .error e
      | .ok (.setting s none) =>
        -- The value is the next argument
        match rest with
        | [] => .error (.missingValue s.name)
        | value :: rest =>
          if isValue value then
            match d.set s value with
            | .ok d => readFrom d rest
            | .error e => .error e
          else .error (.missingValue s.name)

end Draft

/-- Reads the arguments of the command line. -/
def read (arguments : List String) : Except ArgumentError Command :=
  Draft.empty.readFrom arguments

/-! ## Texts about the program -/

/-- What is printed for the version. -/
def versionText : String := CacheKey.programName ++ " " ++ CacheKey.programVersion ++ "\n"

/-- What is printed for help. -/
def helpText : String :=
  "TypeScript transformer for Metro with composed source maps\n\n" ++
    "Usage: " ++ CacheKey.programName ++ " [OPTIONS] [FILE]\n\n" ++
    "Options:\n" ++
    "      --tsconfig <TSCONFIG>          Path to tsconfig.json\n" ++
    "      --project-root <PROJECT_ROOT>  Project root\n" ++
    "      --dev                          Transform in development mode\n" ++
    "      --options <OPTIONS>            Extra transformer options (JSON object)\n" ++
    "      --output <OUTPUT>              What to print: code, map or json\n" ++
    "      --print-cache-key              Print the transformer cache key and exit\n" ++
    "      --log-format <LOG_FORMAT>      Log format on stderr: text or json\n" ++
    "  -h, --help                         Print help\n" ++
    "  -V, --version                      Print version\n"

end MapChain.CommandLine
