import CallAtlas.Path

/-!
# Command line arguments

`PATH...` with the options `-o FILE`, `-f FORMAT`, `-c FILE`, `--exclude-disconnected` and `-v`,
which also have long forms. A value stands behind its option, or in the next argument. Short
options without a value may share a dash. Each option comes at most once. Behind `--` all
arguments are paths. Asking for help or the version ends the reading at once.
-/

namespace CallAtlas.Cli

/-- The forms a report can take. -/
inductive Format where
  | json
  | dot
  | summary
deriving DecidableEq, Repr

/-- The format with a name. -/
def Format.ofName? : String → Option Format
  | "json" => some json
  | "dot" => some dot
  | "summary" => some summary
  | _ => none

/-- What the command line asks for. The paths are in order. -/
structure Options where
  inputs : List Path := []
  output : Option Path := none
  format : Option Format := none
  config : Option Path := none
  excludeDisconnected : Bool := false
  verbose : Bool := false
deriving DecidableEq, Repr

/-- What comes of reading the arguments. -/
inductive Request where
  | run (options : Options)
  | version
  | help
  | misuse
deriving DecidableEq, Repr

/-- The options that take a value. -/
inductive Setting where
  | output
  | format
  | config
deriving DecidableEq, Repr

/-- What an option does. -/
inductive Switch where
  | set (setting : Setting)
  | excludeDisconnected
  | verbose
  | version
  | help
deriving DecidableEq, Repr

/-- The options by their long names. -/
def longNames : List (String × Switch) :=
  [("output", .set .output), ("format", .set .format), ("config", .set .config),
   ("exclude-disconnected", .excludeDisconnected), ("verbose", .verbose),
   ("version", .version), ("help", .help)]

/-- The options by their letters. -/
def letters : List (Char × Switch) :=
  [('o', .set .output), ('f', .set .format), ('c', .set .config), ('v', .verbose),
   ('V', .version), ('h', .help)]

namespace Options

/-- Adds a path, which is not empty. -/
def addInput? (o : Options) (text : String) : Option Options :=
  if text = "" then none else some { o with inputs := o.inputs ++ [⟨text⟩] }

/-- Adds paths. -/
def addInputs? (o : Options) (texts : List String) : Option Options :=
  texts.foldlM addInput? o

/-- Gives a setting its value, unless it has one or the value does not fit. -/
def assign? (o : Options) (setting : Setting) (value : String) : Option Options :=
  match setting with
  | .output => if o.output.isSome || value = "" then none else some { o with output := some ⟨value⟩ }
  | .config => if o.config.isSome || value = "" then none else some { o with config := some ⟨value⟩ }
  | .format =>
    if o.format.isSome then none
    else (Format.ofName? value).map fun format => { o with format := some format }

end Options

/-- Whether an argument is one or more options and no value. A dash alone is a value. -/
def isOption (arg : String) : Bool :=
  arg.toList.head? == some '-' && arg ≠ "-"

/-- What an argument leads to: the end, other options, or a setting that needs a value. -/
inductive Progress where
  | stop (request : Request)
  | next (options : Options)
  | needsValue (options : Options) (setting : Setting)

/-- The step of an option without a value. -/
def press (o : Options) : Switch → Progress
  | .set setting => .needsValue o setting
  | .excludeDisconnected =>
    if o.excludeDisconnected then .stop .misuse else .next { o with excludeDisconnected := true }
  | .verbose => if o.verbose then .stop .misuse else .next { o with verbose := true }
  | .version => .stop .version
  | .help => .stop .help

/-- The step of giving a setting its value. -/
def assign (o : Options) (setting : Setting) (value : String) : Progress :=
  match o.assign? setting value with
  | some o => .next o
  | none => .stop .misuse

/-- The step of a long option, given without its dashes. -/
def longOption (o : Options) (text : List Char) : Progress :=
  let name := String.ofList (text.takeWhile (fun c => c != '='))
  match longNames.lookup name, text.dropWhile (fun c => c != '=') with
  | none, _ => .stop .misuse
  | some switch, [] => press o switch
  | some (.set setting), _ :: value => assign o setting (String.ofList value)
  | some _, _ :: _ => .stop .misuse

/-- The step of short options, given without their dash. An equals sign may stand before a
value. -/
def shortOptions (o : Options) : List Char → Progress
  | [] => .next o
  | c :: rest =>
    match letters.lookup c with
    | none => .stop .misuse
    | some switch =>
      match press o switch, rest with
      | .stop request, _ => .stop request
      | .next o, rest => shortOptions o rest
      | .needsValue o setting, [] => .needsValue o setting
      | .needsValue o setting, '=' :: value => assign o setting (String.ofList value)
      | .needsValue o setting, value => assign o setting (String.ofList value)

/-- The request of options that have been read to the end. -/
def finish (o : Options) : Request :=
  if o.inputs = [] then .misuse else .run o

/-- Reads arguments, with the options so far. -/
def readFrom (o : Options) : List String → Request
  | [] => finish o
  | "--" :: paths =>
    match o.addInputs? paths with
    | some o => finish o
    | none => .misuse
  | arg :: rest =>
    let progress :=
      match arg.toList with
      | '-' :: '-' :: text => longOption o text
      | '-' :: c :: text => shortOptions o (c :: text)
      | _ =>
        match o.addInput? arg with
        | some o => .next o
        | none => .stop .misuse
    match progress, rest with
    | .stop request, _ => request
    | .next o, rest => readFrom o rest
    | .needsValue o setting, value :: rest =>
      if isOption value then .misuse
      else
        match o.assign? setting value with
        | some o => readFrom o rest
        | none => .misuse
    | .needsValue _ _, [] => .misuse

/-- Reads the arguments of the program. -/
def read (args : List String) : Request :=
  readFrom {} args

end CallAtlas.Cli
