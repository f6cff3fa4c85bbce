import CanonicalLR.CommandLine
/-
The program: reads its arguments, measures construction and parsing, and prints the response.
-/
namespace CanonicalLR

def usageText : String :=
  "usage: larch [-g arith|lr1|whitespace-left|whitespace-right] [-d sets|states|table|dot]... " ++
    "[-i INPUT] [--parallel [--threads N]] [-V]\n"

def printResponse (response : Response) : IO UInt32 := do
  IO.print response.output
  IO.eprint response.errors
  return response.exitCode.toUInt32

def timedResponse (options : Options) : IO Response := do
  let sample := options.sample.getD .arith
  let began ← IO.monoNanosNow
  match sample.parser tasks options.strategy with
  | .error error => return buildFailure sample error
  | .ok parser =>
    let built ← IO.monoNanosNow
    match options.opening? parser (" in " ++ spanText (built - began)) with
    | none => return buildFailure sample .danglingId
    | some opening =>
      match options.input with
      | none => return ⟨0, opening, ""⟩
      | some input =>
        let tokens := wordTokens input
        let starts ← IO.monoNanosNow
        match parser.parse tokens with
        | .error error => return parseResponse opening "" (.error error)
        | .ok tree =>
          let ends ← IO.monoNanosNow
          return parseResponse opening (" " ++ spanText (ends - starts)) (.ok tree)

end CanonicalLR

open CanonicalLR in
def main (args : List String) : IO UInt32 := do
  match readArguments args with
  | none => printResponse ⟨2, "", usageText⟩
  | some .version => printResponse ⟨0, versionText, ""⟩
  | some (.run options) => printResponse (← timedResponse options)
