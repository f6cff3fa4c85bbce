import CanonicalLR.Dump
import CanonicalLR.Sample
/-
The command line: which sample grammar to build, what to print of it, and what to parse with it.
-/
namespace CanonicalLR

inductive Section where
  | sets
  | states
  | table
  | dot
  deriving DecidableEq, Repr

structure Options where
  sample : Option Sample := none
  sections : List Section := []
  input : Option String := none
  parallel : Bool := false
  threads : Option Nat := none

inductive Request where
  | version
  | run (options : Options)

def Sample.ofName? : String → Option Sample
  | "arith" => some .arith
  | "lr1" => some .lr1
  | "whitespace-left" => some .whitespaceLeft
  | "whitespace-right" => some .whitespaceRight
  | _ => none

def Section.ofName? : String → Option Section
  | "sets" => some .sets
  | "states" => some .states
  | "table" => some .table
  | "dot" => some .dot
  | _ => none

/-- A decimal number below 2^64, perhaps after a plus sign. -/
def readCount (text : String) : Option Nat :=
  let digits := match text.toList with
    | '+' :: rest => rest
    | all => all
  if digits ≠ [] ∧ digits.all Char.isDigit then
    let n := digits.foldl (fun n c => 10 * n + (c.toNat - '0'.toNat)) 0
    if n < 18446744073709551616 then some n else none
  else none

inductive Setting where
  | grammar
  | dump
  | input
  | threads
  deriving DecidableEq, Repr

def Setting.ofLetter? : Char → Option Setting
  | 'g' => some .grammar
  | 'd' => some .dump
  | 'i' => some .input
  | _ => none

def Setting.ofName? : String → Option Setting
  | "grammar" => some .grammar
  | "dump" => some .dump
  | "input" => some .input
  | "threads" => some .threads
  | _ => none

namespace Options

/-- Gives a setting its value. Only a dump may be asked for more than once. -/
def assign (options : Options) (setting : Setting) (value : String) : Option Options :=
  match setting with
  | .grammar =>
    match options.sample, Sample.ofName? value with
    | none, some sample => some { options with sample }
    | _, _ => none
  | .dump => (Section.ofName? value).map fun part =>
    { options with sections := options.sections ++ [part] }
  | .input => if options.input.isSome then none else some { options with input := some value }
  | .threads =>
    match options.threads, readCount value with
    | none, some threads => some { options with threads }
    | _, _ => none

def complete? (options : Options) : Option Options :=
  if options.threads.isSome && !options.parallel then none else some options

def strategy (options : Options) : Strategy :=
  if options.parallel then .parallel options.threads else .sequential

end Options

inductive Argument where
  | setting (setting : Setting) (attached : Option String)
  | parallel
  | version
  | endOfOptions
  | plain
  | unknown
  deriving DecidableEq, Repr

def longArgument (text : List Char) : Argument :=
  let name := String.ofList (text.takeWhile (· ≠ '='))
  let attached := match text.dropWhile (· ≠ '=') with
    | [] => none
    | _ :: value => some (String.ofList value)
  match Setting.ofName? name with
  | some setting => .setting setting attached
  | none =>
    if attached.isSome then .unknown
    else if name = "parallel" then .parallel
    else if name = "version" then .version
    else .unknown

def shortArgument (letter : Char) (rest : List Char) : Argument :=
  match Setting.ofLetter? letter with
  | some setting =>
    .setting setting (match rest with
      | [] => none
      | '=' :: value => some (String.ofList value)
      | value => some (String.ofList value))
  | none => if letter = 'V' then .version else .unknown

def Argument.ofString (text : String) : Argument :=
  match text.toList with
  | ['-', '-'] => .endOfOptions
  | '-' :: '-' :: rest => longArgument rest
  | '-' :: letter :: rest => shortArgument letter rest
  | _ => .plain

/-- Reads all arguments in order; `none` is a usage error. A value that stands on its own must not
look like an option. -/
def Options.readAll (options : Options) : List String → Option Request
  | [] => options.complete?.map .run
  | argument :: rest =>
    match Argument.ofString argument with
    | .version => some .version
    | .endOfOptions => if rest.isEmpty then options.complete?.map .run else none
    | .plain | .unknown => none
    | .parallel => if options.parallel then none else readAll { options with parallel := true } rest
    | .setting setting (some value) =>
      match options.assign setting value with
      | some options => readAll options rest
      | none => none
    | .setting setting none =>
      match rest with
      | [] => none
      | value :: rest =>
        if Argument.ofString value = .plain then
          match options.assign setting value with
          | some options => readAll options rest
          | none => none
        else none

def readArguments (arguments : List String) : Option Request := Options.readAll {} arguments

def versionText : String := "larch 0.1.0\n"

/-- What went wrong and why, a line for each cause; several causes are numbered. -/
def failureText (context : String) (causes : List String) : String :=
  let lines := match causes with
    | [cause] => ["    " ++ cause ++ "\n"]
    | causes => causes.zipIdx.map fun entry =>
      padLeft 5 (toString entry.2) ++ ": " ++ entry.1 ++ "\n"
  "Error: " ++ context ++ "\n\nCaused by:\n" ++ String.join lines

def BuildError.message {τ : Type} [Spelling τ] : BuildError τ → String
  | grammar error => error.message
  | workerPool _ => "failed to start construction worker pool"
  | conflict report => report.message
  | danglingId => "an id is unknown to the grammar"

def BuildError.chain {τ : Type} [Spelling τ] (error : BuildError τ) : List String :=
  error.message :: match error with
    | workerPool reasons => reasons
    | _ => []

namespace Parser

variable (parser : Parser String String)

def summary : String :=
  "Built " ++ toString parser.automaton.stateCount ++ " states, " ++
    toString parser.automaton.edges.length ++ " transitions, " ++
    toString parser.table.size ++ " table entries"

def bracedWords (words : List String) : String :=
  "\x7b" ++ String.intercalate ", " (words.mergeSort fun x y => !decide (y < x)) ++ "\x7d"

def setsLine (nonterminal : Nat) (name : String) : String :=
  padRight 8 name ++ " nullable: " ++ padRight 5 (toString (parser.isNullable nonterminal)) ++
    " first: " ++ bracedWords ((parser.first? (.nonterminal nonterminal)).getD []) ++
    " follow: " ++ bracedWords ((parser.follow? nonterminal).getD []) ++ "\n"

def setsText : String :=
  String.join (parser.rules.names.toList.zipIdx.map fun entry =>
    parser.setsLine entry.2 entry.1)

def sectionText? : Section → Option String
  | .sets => some parser.setsText
  | .states => parser.statesText?
  | .table => parser.tableText.toOption
  | .dot => parser.dotText?.map (· ++ "\n")

end Parser

structure Response where
  exitCode : Nat
  output : String
  errors : String
  deriving DecidableEq, Repr

def Sample.title : Sample → String
  | arith => "Arith"
  | lr1 => "Lr1"
  | whitespaceLeft => "WhitespaceLeft"
  | whitespaceRight => "WhitespaceRight"

def Options.opening? (options : Options) (parser : Parser String String) (stamp : String) :
    Option String := do
  let sections ← options.sections.mapM parser.sectionText?
  return parser.summary ++ stamp ++ "\n" ++ String.join sections

def buildFailure (sample : Sample) (error : BuildError String) : Response :=
  ⟨1, "", failureText ("failed to build the " ++ sample.title ++ " grammar") error.chain⟩

def parseResponse (opening stamp : String) : Except (ParseError String) String → Response
  | .ok tree => ⟨0, opening ++ "Parsing took" ++ stamp ++ "\n" ++ tree ++ "\n", ""⟩
  | .error error => ⟨1, opening, failureText "input was rejected" [error.message]⟩

def Options.respond (options : Options) (host : Host) : Response :=
  let sample := options.sample.getD .arith
  match sample.parser host options.strategy with
  | .error error => buildFailure sample error
  | .ok parser =>
    match options.opening? parser "" with
    | none => buildFailure sample .danglingId
    | some opening =>
      match options.input with
      | none => ⟨0, opening, ""⟩
      | some input => parseResponse opening "" (parser.parse (wordTokens input))

def spanText (nanoseconds : Nat) : String :=
  let written (unit : Nat) (name : String) : String :=
    let hundredths := (nanoseconds * 100 + unit / 2) / unit
    let fraction := hundredths % 100
    toString (hundredths / 100) ++ "." ++ (if fraction < 10 then "0" else "") ++
      toString fraction ++ name
  if nanoseconds < 1000 then written 1 "ns"
  else if nanoseconds < 1000000 then written 1000 "µs"
  else if nanoseconds < 1000000000 then written 1000000 "ms"
  else written 1000000000 "s"

end CanonicalLR
