import MatrixCalculator.Calculator

/-!
# The command line

Arguments are options or parts of an expression.  The expression is solved, or
every line of the input that is not blank if there is none, each on its own.
Everything is decided here as a function of the arguments, the environment and
the bytes of the input.
-/

namespace MatrixCalculator.CommandLine

/-- What a run writes to its two outputs, and its exit code. -/
@[ext]
structure Outcome where
  output : Text
  errors : Text
  code : Nat
  deriving DecidableEq, Repr

namespace Outcome

def nothing : Outcome := ⟨[], [], 0⟩

/-- One run behind another; it fails if one of them does. -/
def followedBy (first second : Outcome) : Outcome :=
  ⟨first.output ++ second.output, first.errors ++ second.errors, max first.code second.code⟩

end Outcome

def line (text : Text) : Text := text ++ ['\n']

def errorLine (text : Text) : Text := line ("error: ".toList ++ text)

def usage : Text :=
  [ "Mxc - a calculator that understands matrices",
    "",
    "Usage: mxc [options] [expression...]",
    "",
    "With no expression, every non-empty line of standard input is solved.",
    "",
    "Options:",
    "  --base=<dec|bin|hex>  Read and write numerals in this base",
    "  --locale=<tag>        Locale for decimal point and separators",
    "                        (default: LC_ALL, LC_NUMERIC or LANG)",
    "  --max-depth=<n>       Deepest nesting accepted (default: 64)",
    "  --group               Group the digits of scalar results",
    "  -h, --help            Show this help",
    "",
    "Examples:",
    "  mxc \"[[1,2][3,4]]^T\"",
    "  mxc --base=hex \"FF+1\"",
    "  echo \"sind(90)\" | mxc" ].flatMap fun text => line text.toList

/-- Variables of the environment that name a locale, the most important one
first. -/
def localeVariables : List Text := ["LC_ALL", "LC_NUMERIC", "LANG"].map String.toList

/-- The separators of the first locale that is named in the environment. -/
def environmentSeparators (environment : List (Text × Text)) : Separators :=
  match (localeVariables.filterMap (List.lookup · environment)).find? (· ≠ []) with
  | some tag => .ofLocale tag
  | none => .canonical

/-- A whole number of 64 bits, with an optional plus sign. -/
def readDepth? (text : Text) : Option Nat :=
  let digits :=
    match text with
    | '+' :: digits => digits
    | digits => digits
  if digits ≠ [] ∧ digits.all Char.isDigit ∧ Numeral.ofDigits digits < Numeral.wordCount then
    some (Numeral.ofDigits digits)
  else none

inductive Request where
  | stop (outcome : Outcome)
  | solve (settings : Settings) (expression : List Text)

/-- The settings after an option, or why the run ends with it; `none` if the
argument is part of an expression. -/
def readOption? (settings : Settings) (argument : Text) : Option (Except Outcome Settings) :=
  if argument = "-h".toList ∨ argument = "--help".toList then some (.error ⟨usage, [], 0⟩)
  else if let some name := Text.after? "--base=".toList argument then
    match Base.ofName? name with
    | some base => some (.ok { settings with base })
    | none =>
      some (.error ⟨[], errorLine ("unknown base ".toList ++ Fault.quoted name ++
        " (expected dec, bin or hex)".toList), 1⟩)
  else if let some tag := Text.after? "--locale=".toList argument then
    some (.ok { settings with separators := .ofLocale tag })
  else if let some value := Text.after? "--max-depth=".toList argument then
    match readDepth? value with
    | some maxDepth => some (.ok { settings with maxDepth })
    | none =>
      some (.error ⟨[], errorLine ("--max-depth expects a non-negative integer, got ".toList ++
        Fault.quoted value), 1⟩)
  else if argument = "--group".toList then some (.ok { settings with groupDigits := true })
  else if Text.startsWith "--".toList argument then
    some (.error ⟨usage, errorLine ("unknown option ".toList ++ Fault.quoted argument), 1⟩)
  else none

def readArguments (settings : Settings) : List Text → Request
  | [] => .solve settings []
  | argument :: arguments =>
    match readOption? settings argument with
    | some (.error outcome) => .stop outcome
    | some (.ok settings) => readArguments settings arguments
    | none =>
      match readArguments settings arguments with
      | .solve settings expression => .solve settings (argument :: expression)
      | .stop outcome => .stop outcome

def solveOne (settings : Settings) (text : Text) : Outcome :=
  match settings.solve text with
  | .ok result => ⟨line result, [], 0⟩
  | .error fault => ⟨[], errorLine fault.message, 1⟩

/-- The lines of an input, each with whether a line feed ends it. -/
def splitLines : List UInt8 → List (List UInt8 × Bool)
  | [] => []
  | byte :: bytes =>
    if byte = 10 then ([], true) :: splitLines bytes
    else
      match splitLines bytes with
      | [] => [([byte], false)]
      | (first, ended) :: rest => (byte :: first, ended) :: rest

/-- The text of a line, without the carriage return in front of a line feed; `none`
if the bytes are not text. -/
def decodeLine (bytes : List UInt8) (ended : Bool) : Option Text :=
  let bytes := if ended ∧ bytes.getLast? = some 13 then bytes.dropLast else bytes
  (String.fromUTF8? ⟨bytes.toArray⟩).map String.toList

/-- The run for lines of input.  Nothing is solved behind a line that is not
text. -/
def solveLines (settings : Settings) : List (List UInt8 × Bool) → Outcome
  | [] => .nothing
  | (bytes, ended) :: lines =>
    match decodeLine bytes ended with
    | none =>
      ⟨[], errorLine "failed to read input: stream did not contain valid UTF-8".toList, 1⟩
    | some text =>
      if text.all Text.isBlank then solveLines settings lines
      else (solveOne settings text).followedBy (solveLines settings lines)

def Request.run (input : List UInt8) : Request → Outcome
  | .stop outcome => outcome
  | .solve settings [] => solveLines settings (splitLines input)
  | .solve settings (part :: parts) => solveOne settings ([' '].intercalate (part :: parts))

def Request.readsInput : Request → Bool
  | .solve _ [] => true
  | _ => false

def request (arguments : List Text) (environment : List (Text × Text)) : Request :=
  readArguments { separators := environmentSeparators environment } arguments

def run (arguments : List Text) (environment : List (Text × Text)) (input : List UInt8) :
    Outcome :=
  (request arguments environment).run input

end MatrixCalculator.CommandLine
