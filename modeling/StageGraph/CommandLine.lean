import StageGraph.Compile
import StageGraph.Graph.Listing
import StageGraph.Thumbnail

set_option autoImplicit false

/-! # The command line

    parse  <EXPR> | --file <PATH>  [--format edges|json|order]    lists the graph
    thumb  <EXPR> | --file <PATH>                                 prints the thumbnail
    check  <EXPR> | --file <PATH>                                 prints a summary of the graph

`-v` or `--verbose` may stand before or after the name of the command, at most once in each place,
and changes nothing about what is printed here. An option takes the argument after it, or what
follows `=` in the same argument; it must not be given twice. An argument that begins with `-` is an
option, unless it is `-` alone or comes after `--`.

Arguments are read from the left, and the first fault or request for help decides. Only then is
checked that there is exactly one expression.
-/

namespace StageGraph.CommandLine

/-- What is to be done with an expression. -/
inductive Task where
  | parse
  | thumb
  | check
deriving DecidableEq

/-- Where the expression comes from. -/
inductive Input where
  | inline (expression : String)
  | file (path : String)
deriving DecidableEq

/-- A complete command. -/
structure Command where
  task : Task
  input : Input
  listing : Listing
deriving DecidableEq

/-- What the arguments ask for. -/
inductive Request where
  | run (command : Command)
  | help
  | misuse
deriving DecidableEq

/-- The task with this name. -/
def Task.ofName? (name : String) : Option Task :=
  if name = "parse" then some parse
  else if name = "thumb" then some thumb
  else if name = "check" then some check
  else none

/-- The listing with this name, of those that a command may ask for. -/
def listingOfName? (name : String) : Option Listing :=
  if name = "edges" then some .edges
  else if name = "json" then some .json
  else if name = "order" then some .order
  else none

/-- The arguments of a command that have been read so far. -/
structure Given where
  expression : Option String
  path : Option String
  listing : Option Listing
  verbose : Bool

/-- Nothing has been read. -/
def Given.nothing : Given := ⟨none, none, none, false⟩

/-- The options of a command that take a value. -/
inductive ValueOption where
  | file
  | format
deriving DecidableEq

/-- The option with this name, of those that the task knows. -/
def ValueOption.ofName? (task : Task) (name : String) : Option ValueOption :=
  if name = "--file" then some file
  else if name = "--format" ∧ task = .parse then some format
  else none

/-- The option and the value that one argument holds, if it has the form `option=value`. -/
def ValueOption.withValue? (task : Task) (arg : String) : Option (ValueOption × String) :=
  match Text.cutAt '=' arg.toList with
  | some (name, value) =>
    (ValueOption.ofName? task (String.ofList name)).map fun option => (option, String.ofList value)
  | none => none

/-- Takes note of the value of an option; it has to be a first and valid one. -/
def Given.put? (given : Given) (option : ValueOption) (value : String) : Option Given :=
  match option with
  | .file => if given.path.isSome then none else some { given with path := some value }
  | .format =>
    match given.listing, listingOfName? value with
    | none, some listing => some { given with listing := some listing }
    | _, _ => none

/-- Takes note of an expression, which has to be the only one. -/
def Given.putExpression? (given : Given) (expression : String) : Option Given :=
  if given.expression.isSome then none else some { given with expression := some expression }

/-- The argument reads like an option: it begins with `-` and goes on. -/
def looksLikeOption (arg : String) : Bool :=
  match arg.toList with
  | '-' :: _ :: _ => true
  | _ => false

/-- What a group of one-letter flags asks for; `verbose` tells whether that flag was given. -/
def readFlags (verbose : Bool) : List Char → Option (Option Bool)
  | [] => some (some verbose)
  | c :: rest =>
    if c = 'h' then some none
    else if c = 'v' ∧ verbose = false then readFlags true rest
    else none

/-- What an argument without a value asks for: nothing if it is no known flag, `none` for help, and
else whether the verbose flag has been given by now. -/
def readFlag (verbose : Bool) (arg : String) : Option (Option Bool) :=
  if arg = "--help" then some none
  else if arg = "--verbose" then if verbose then none else some (some true)
  else
    match arg.toList with
    | '-' :: c :: rest => if c = '-' then none else readFlags verbose (c :: rest)
    | _ => none

/-- The command that the arguments after its name have given, if they give one expression. -/
def Given.request (given : Given) (task : Task) : Request :=
  let listing := match task with
    | .check => .summary
    | _ => given.listing.getD .edges
  match given.expression, given.path with
  | some expression, none => .run ⟨task, .inline expression, listing⟩
  | none, some path => .run ⟨task, .file path, listing⟩
  | _, _ => .misuse

/-- Reads arguments that are all expressions. -/
def readRest (task : Task) (given : Given) : List String → Request
  | [] => given.request task
  | arg :: rest =>
    match given.putExpression? arg with
    | some given => readRest task given rest
    | none => .misuse

/-- Reads the arguments after the name of the command. -/
def readArguments (task : Task) (given : Given) : List String → Request
  | [] => given.request task
  | arg :: rest =>
    if arg = "--" then readRest task given rest
    else if looksLikeOption arg then
      match ValueOption.ofName? task arg with
      | some option =>
        match rest with
        | [] => .misuse
        | value :: rest =>
          -- an option cannot be the value of another one, unless the value is joined to it by `=`
          if looksLikeOption value then .misuse
          else
            match given.put? option value with
            | some given => readArguments task given rest
            | none => .misuse
      | none =>
        match ValueOption.withValue? task arg with
        | some (option, value) =>
          match given.put? option value with
          | some given => readArguments task given rest
          | none => .misuse
        | none =>
          match readFlag given.verbose arg with
          | some (some verbose) => readArguments task { given with verbose } rest
          | some none => .help
          | none => .misuse
    else
      match given.putExpression? arg with
      | some given => readArguments task given rest
      | none => .misuse

/-- Reads the arguments after `help`: the name of a command, or none. -/
def readHelp : List String → Request
  | [] => .help
  | [name] => if name = "help" ∨ (Task.ofName? name).isSome then .help else .misuse
  | _ => .misuse

/-- Reads all arguments. -/
def readCommand (verbose : Bool) : List String → Request
  | [] => .misuse
  | arg :: rest =>
    if looksLikeOption arg then
      match readFlag verbose arg with
      | some (some verbose) => readCommand verbose rest
      | some none => .help
      | none => .misuse
    else
      match Task.ofName? arg with
      | some task => readArguments task .nothing rest
      | none => if arg = "help" then readHelp rest else .misuse

/-! ## Running a command -/

/-- Why a file cannot be read. -/
inductive FileProblem where
  | notFound
  | noPermission
  | notDirectory
  | isDirectory
  | nameTooLong
  | notUtf8
  | other (reason : String)
deriving DecidableEq

/-- The problem to which the operating system gives this number. -/
def FileProblem.ofNumber? (number : Nat) : Option FileProblem :=
  match number with
  | 2 => some notFound
  | 13 => some noPermission
  | 20 => some notDirectory
  | 21 => some isDirectory
  | 36 => some nameTooLong
  | _ => none

/-- What the problem is. -/
def FileProblem.message : FileProblem → String
  | notFound => "No such file or directory (os error 2)"
  | noPermission => "Permission denied (os error 13)"
  | notDirectory => "Not a directory (os error 20)"
  | isDirectory => "Is a directory (os error 21)"
  | nameTooLong => "File name too long (os error 36)"
  | notUtf8 => "stream did not contain valid UTF-8"
  | other reason => reason

/-- What a run leaves behind. -/
structure Outcome where
  exitCode : UInt32
  output : Text
  /-- The report of an error, which goes to standard error. -/
  report : Option String

/-- The run ends with this error. -/
def Outcome.error (message : String) : Outcome := ⟨1, [], some ("Error: " ++ message ++ "\n")⟩

/-- The run prints this text. -/
def Outcome.print (output : Text) : Outcome := ⟨0, output, none⟩

/-- What help says. -/
def usage : Text :=
  ("Usage: [-v] parse|thumb|check <EXPR> | --file <PATH>\n\n" ++
    "  parse   lists the graph of an expression, as --format edges, json or order\n" ++
    "  thumb   prints the thumbnail of an expression\n" ++
    "  check   prints a summary of the graph of an expression\n").toList

/-- Performs a task on an expression. A listing by lines ends its last line itself. -/
def perform (task : Task) (listing : Listing) (expression : Text) : Outcome :=
  match task with
  | .thumb => .print (thumbnail expression ++ ['\n'])
  | .parse | .check =>
    match compile expression with
    | .error failure => .error failure.message
    | .ok graph =>
      match listing with
      | .edges | .order => .print (listing.write graph)
      | .json | .summary => .print (listing.write graph ++ ['\n'])

/-- Runs the program with these arguments. -/
def run {m : Type → Type} [Monad m] (readFile : String → m (Except FileProblem String))
    (args : List String) : m Outcome := do
  match readCommand false args with
  | .help => return .print usage
  | .misuse => return ⟨2, [], none⟩
  | .run ⟨task, .inline expression, listing⟩ => return perform task listing expression.toList
  | .run ⟨task, .file path, listing⟩ =>
    match ← readFile path with
    | .ok content => return perform task listing content.toList
    | .error problem =>
      return .error ("failed to read " ++ path ++ "\n\nCaused by:\n    " ++ problem.message)

end StageGraph.CommandLine
