/-!
# Arguments of the command line

`parse` says what the arguments ask for. Options come as `--name value`, `--name=value`, `-n value`,
`-nvalue` or `-n=value`. A value that starts with a dash has to be attached to its option; behind
`--` nothing is an option. An option is given at most once.
-/

namespace ChunkedUpload.CommandLine

/-- What the program can be told to do. -/
inductive Command
  /-- Uploads a file, or the standard input if none is named. -/
  | upload (bucket : Option String) (key : String) (file : Option String)
  | metrics
  deriving DecidableEq, Repr

/-- What the arguments ask for. -/
inductive Request
  | run (config : Option String) (command : Command)
  | version
  | help
  /-- Nothing that the program understands. -/
  | misuse
  deriving DecidableEq, Repr

/-- The shape of an argument in front of `--`. -/
inductive Shape
  /-- The end of the options. -/
  | escape
  /-- A long option, with the value attached to it. -/
  | long (name : String) (value : Option String)
  /-- Short options in one argument. -/
  | short (letters : List Char)
  | plain (text : String)
  deriving DecidableEq, Repr

/-- The shape of an argument. -/
def Shape.of (argument : String) : Shape :=
  match argument.toList with
  | ['-', '-'] => .escape
  | '-' :: '-' :: cs =>
    let name := cs.takeWhile (· ≠ '=')
    let value := match cs.dropWhile (· ≠ '=') with
      | [] => none
      | _ :: value => some (String.ofList value)
    .long (String.ofList name) value
  | ['-'] => .plain argument
  | '-' :: cs => .short cs
  | _ => .plain argument

/-- The value of an option, taken from its own argument or from the next one, and the arguments that
are left. -/
def takeValue (attached : Option String) (arguments : List String) :
    Option (String × List String) :=
  match attached, arguments with
  | some value, rest => some (value, rest)
  | none, argument :: rest =>
    match Shape.of argument with
    | .plain text => some (text, rest)
    | _ => none
  | none, [] => none

/-- What stands attached to a short option. -/
def attached? : List Char → Option String
  | [] => none
  | '=' :: cs => some (String.ofList cs)
  | cs => some (String.ofList cs)

/-- Sets an option that is not set yet. A path must not be empty. -/
def setOnce (isPath : Bool) (old : Option String) (value : String) : Option (Option String) :=
  if old.isSome ∨ (isPath ∧ value = "") then none else some (some value)

/-- The options of an upload as far as they were read. -/
structure UploadOptions where
  bucket : Option String := none
  key : Option String := none
  file : Option String := none

/-- Takes a file. -/
def UploadOptions.withFile (o : UploadOptions) (file : String) : Option UploadOptions :=
  (setOnce true o.file file).map fun file => { o with file }

/-- The request that complete options make. -/
def UploadOptions.request (config : Option String) (o : UploadOptions) : Request :=
  match o.key with
  | some key => .run config (.upload o.bucket key o.file)
  | none => .misuse

/-- Takes arguments behind `--`. -/
def parseFiles (config : Option String) : List String → UploadOptions → Request
  | [], o => o.request config
  | argument :: rest, o =>
    match o.withFile argument with
    | some o => parseFiles config rest o
    | none => .misuse

theorem length_takeValue {attached : Option String} {arguments rest : List String}
    {value : String} (h : takeValue attached arguments = some (value, rest)) :
    rest.length ≤ arguments.length := by
  unfold takeValue at h
  split at h
  · simp_all
  · split at h <;> simp_all
  · simp at h

/-- Takes the arguments of an upload. -/
def parseUpload (config : Option String) (arguments : List String) (o : UploadOptions) : Request :=
  match arguments with
  | [] => o.request config
  | argument :: rest =>
    match Shape.of argument with
    | .escape => parseFiles config rest o
    | .plain text =>
      match o.withFile text with
      | some o => parseUpload config rest o
      | none => .misuse
    | .short ('h' :: _) => .help
    | .short _ => .misuse
    | .long "help" none => .help
    | .long name attached =>
      if name = "bucket" ∨ name = "key" then
        match _h : takeValue attached rest with
        | none => .misuse
        | some (value, rest') =>
          if name = "bucket" then
            match setOnce false o.bucket value with
            | some bucket => parseUpload config rest' { o with bucket }
            | none => .misuse
          else
            match setOnce false o.key value with
            | some key => parseUpload config rest' { o with key }
            | none => .misuse
      else .misuse
termination_by arguments.length
decreasing_by
  · simp
  all_goals
    have := length_takeValue _h
    simp only [List.length_cons]
    omega

/-- Takes the arguments of `metrics`, which has none but a request for help. -/
def parseMetrics (config : Option String) : List String → Request
  | [] => .run config .metrics
  | argument :: rest =>
    match Shape.of argument, rest with
    | .escape, [] => .run config .metrics
    | .short ('h' :: _), _ => .help
    | .long "help" none, _ => .help
    | _, _ => .misuse

/-- Takes the names behind `help`, at most one command. -/
def parseHelp : List String → Request
  | [] | ["upload"] | ["metrics"] | ["help"] => .help
  | _ => .misuse

/-- Takes a command and its arguments. -/
def parseCommand (config : Option String) (name : String) (arguments : List String) : Request :=
  if name = "upload" then parseUpload config arguments {}
  else if name = "metrics" then parseMetrics config arguments
  else if name = "help" then parseHelp arguments
  else .misuse

/-- Takes the arguments in front of the command. -/
def parseFrom (config : Option String) (arguments : List String) : Request :=
  match arguments with
  | [] => .misuse
  | argument :: rest =>
    match Shape.of argument with
    | .escape => .misuse
    | .plain name => parseCommand config name rest
    | .short ('h' :: _) => .help
    | .short ('V' :: _) => .version
    | .short ('c' :: letters) => withConfig (attached? letters) rest
    | .short _ => .misuse
    | .long "help" none => .help
    | .long "version" none => .version
    | .long "config" attached => withConfig attached rest
    | .long .. => .misuse
termination_by 2 * arguments.length
where
  /-- Takes the value of the option for the configuration file and goes on. -/
  withConfig (attached : Option String) (rest : List String) : Request :=
    match _h : takeValue attached rest with
    | none => .misuse
    | some (value, rest') =>
      match setOnce true config value with
      | some config => parseFrom config rest'
      | none => .misuse
  termination_by 2 * rest.length + 1
  decreasing_by
    have := length_takeValue _h
    omega

/-- What the arguments ask for. -/
def parse (arguments : List String) : Request := parseFrom none arguments

end ChunkedUpload.CommandLine
