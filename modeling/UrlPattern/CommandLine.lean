import UrlPattern.Analysis
import UrlPattern.Compiler
import UrlPattern.PatternSet

/-!
# The command line

What the program prints for its arguments, as a function of them and of the files it may read.
Every command uses the standard compiler. A failure prints its reason to the error output and ends
with code one; what was printed before stays.

How arguments are taken apart, and what is printed when they are no command, is up to an argument
reader, which the program is given.

Specification: `SPEC_FULL.md` §10.10 (lines 283–294).
-/

namespace UrlPattern.CommandLine

/-- What `convert` prints. -/
inductive ConvertOutput where
  /-- The regular expression. -/
  | regex
  /-- A report of compilation. -/
  | report
  /-- The record, as indented JSON. -/
  | record
  deriving DecidableEq

/-- A command with its arguments. -/
inductive Command where
  /-- Compiles a pattern. -/
  | convert (pattern : String) (output : ConvertOutput)
  /-- Matches an input against a pattern. -/
  | matchInput (pattern input : String) (verbose : Bool)
  /-- Generates a text from values given as `key=value`. -/
  | generate (pattern : String) (values : List String)
  /-- Tries an input on the patterns of a file. -/
  | check (path input : String)
  /-- Analyzes a pattern. -/
  | analyze (pattern : String)
  deriving DecidableEq

/-- What a run of the program leaves. -/
structure Outcome where
  code : Nat
  stdout : String
  stderr : String
  deriving DecidableEq

/-- Why a file could not be read, or its content. -/
abbrev Files := String → Except String String

/-- The command that the arguments of the program spell, or what the program leaves if they spell
none. -/
abbrev ArgumentReader := List String → Except Outcome Command

/-- Splits arguments into options and others, which come in order. Behind `--` there are no options.
-/
def splitOptions : List String → List String × List String
  | [] => ([], [])
  | "--" :: args => ([], args)
  | arg :: args =>
    let others := splitOptions args
    match arg.toList with
    | '-' :: _ :: _ => (arg :: others.1, others.2)
    | _ => (others.1, arg :: others.2)

/-- The options that every command takes; they concern logging alone. `SPEC_FULL.md:166–167`. -/
def isLogOption (option : String) : Bool := option = "-v" || option = "--log-debug"

/-- Reads what `convert` is to print. -/
def readConvertOutput? : List String → Option ConvertOutput
  | [] => some .regex
  | [option] =>
    if option = "-d" ∨ option = "--debug" then some .report
    else if option = "-j" ∨ option = "--json" then some .record
    else none
  | _ => none

/-- Reads a command that is written out in full. -/
def Command.ofArguments? (args : List String) : Option Command :=
  let (options, others) := splitOptions args
  let options := options.filter fun option ↦ !isLogOption option
  match others, options with
  | ["convert", pattern], options => (readConvertOutput? options).map (.convert pattern)
  | ["match", pattern, input], [] => some (.matchInput pattern input false)
  | ["match", pattern, input], ["--verbose"] => some (.matchInput pattern input true)
  | "generate" :: pattern :: values, [] => some (.generate pattern values)
  | ["check", path, input], [] => some (.check path input)
  | ["analyze", pattern], [] => some (.analyze pattern)
  | _, _ => none

/-- The reader of commands that are written out in full. Without a command it prints nothing. -/
def ArgumentReader.plain : ArgumentReader := fun args ↦
  match Command.ofArguments? args with
  | some c => .ok c
  | none => .error ⟨2, "", ""⟩

/-- Lines of text, each ended by a line feed. -/
def unlines (lines : List String) : String := String.join (lines.map (· ++ "\n"))

/-- A run that prints some lines and succeeds. -/
def succeed (lines : List String) : Outcome := ⟨0, unlines lines, ""⟩

/-- A run that prints some lines and fails. -/
def refuse (lines : List String) : Outcome := ⟨1, unlines lines, ""⟩

/-- A run that prints some lines and then ends for a reason. -/
def failAfter (lines : List String) (reason : String) : Outcome :=
  ⟨1, unlines lines, "Error: " ++ reason ++ "\n"⟩

/-- Goes on with a pattern, or ends if it is refused. -/
def withPattern (pattern : String) (lines : List String) (run : Pattern → Outcome) : Outcome :=
  match Compiler.standard.compile pattern with
  | .ok p => run p
  | .error e => failAfter lines e.message

/-- Runs `convert`. `SPEC_FULL.md:285–286`. -/
def convert (pattern : String) : ConvertOutput → Outcome
  | .regex =>
    let heading := ["Converting pattern...", "  Input:  " ++ pattern, ""]
    withPattern pattern heading fun p ↦ succeed (heading ++ ["Regex:", "  " ++ p.regexText])
  | .report =>
    match Compiler.standard.report pattern with
    | .ok r => ⟨0, r.render, ""⟩
    | .error e => failAfter [] e.message
  | .record => withPattern pattern [] fun p ↦ succeed [p.toRecord.toJson.renderIndented 0]

/-- The lines of a group's value; more of them if asked for. -/
def groupLines (verbose : Bool) (name : String) (g : GroupValue) : List String :=
  let value := "  " ++ name ++ ": " ++ g.value.render
  if verbose then
    value :: ("    type: " ++ g.typeName)
      :: g.constraints.toList.map fun e ↦ "    " ++ e.1 ++ "=" ++ e.2
  else [value]

/-- The lines of a match: the values by name, then what was refused. -/
def resultLines (verbose : Bool) (r : MatchResult) : List String :=
  (r.groups.toList.flatMap fun e ↦ groupLines verbose e.1 e.2)
    ++ r.errors.map fun e ↦ "  error: " ++ e.message

/-- Runs `match`. `SPEC_FULL.md:287–288`. -/
def matchInput (pattern input : String) (verbose : Bool) : Outcome :=
  withPattern pattern [] fun p ↦
    match p.match? input with
    | none => refuse ["✗ No match"]
    | some r =>
      if r.isFailed then refuse ("✗ Matched with errors" :: resultLines verbose r)
      else succeed ("✓ Match found!" :: resultLines verbose r)

/-- The value that an argument spells: an integer if it reads as one, else the text. -/
def readValue (raw : String) : Value :=
  match Text.readInteger raw.toList with
  | some n => .int n
  | none => .text raw

/-- Reads a name and its value, which stand on the two sides of the first equals sign. -/
def readBinding (entry : String) : Except String (String × Value) :=
  let cs := entry.toList
  match cs.dropWhile (· ≠ '=') with
  | _ :: value => .ok (String.ofList (cs.takeWhile (· ≠ '=')), readValue (String.ofList value))
  | [] => .error ("expected key=value, got '" ++ entry ++ "'")

/-- Runs `generate`. `SPEC_FULL.md:289`. -/
def generate (pattern : String) (values : List String) : Outcome :=
  withPattern pattern [] fun p ↦
    match values.mapM readBinding with
    | .error reason => failAfter [] reason
    | .ok bindings =>
      match p.generate (.ofList bindings) with
      | .ok text => succeed [text]
      | .error e => failAfter [] e.message

/-- The parts of a text between line feeds. -/
def splitLines : List Char → List (List Char)
  | [] => [[]]
  | '\n' :: cs => [] :: splitLines cs
  | c :: cs =>
    match splitLines cs with
    | line :: lines => (c :: line) :: lines
    | [] => [[c]]

/-- The patterns of a file: its lines without the blanks around them. Empty lines and those that
start with a number sign do not count. `SPEC_FULL.md:176–177`. -/
def readPatterns (content : String) : List String :=
  ((splitLines content.toList).map Text.trim).filterMap fun line ↦
    match line with
    | [] => none
    | '#' :: _ => none
    | line => some (String.ofList line)

/-- Runs `check`. `SPEC_FULL.md:290–291`. -/
def check (files : Files) (path input : String) : Outcome :=
  match files path with
  | .error reason => failAfter [] ("cannot read " ++ path ++ ": " ++ reason)
  | .ok content =>
    match (readPatterns content).mapM Compiler.standard.compile with
    | .error e => failAfter [] e.message
    | .ok patterns =>
      let set := PatternSet.ofPatterns .standard patterns
      let heading := ["Checking input...", "  Patterns: " ++ Text.renderNat set.patterns.length,
        "  Input:    " ++ input, ""]
      if set.prefilter.supports input then
        let passed := heading ++ ["✓ Passed pre-filter"]
        match set.find? input with
        | none => refuse (passed ++ ["✗ No pattern matched"])
        | some (place, r) =>
          let source := (set.patterns[place]?.map (·.source)).getD ""
          succeed (passed
            ++ ["Matched [" ++ Text.renderNat (place + 1) ++ "] " ++ source]
            ++ resultLines false r)
      else refuse (heading ++ ["✗ Rejected by pre-filter"])

/-- A range of lengths. -/
def rangeText (a : Analysis) : String :=
  Text.renderNat a.minLen ++ "..=" ++ Text.renderNat a.maxLen

/-- A heading and lines under it, with an empty line before; nothing if there are none. -/
def underHeading (heading : String) (lines : List String) : List String :=
  if lines.isEmpty then [] else "" :: heading :: lines

/-- Runs `analyze`. `SPEC_FULL.md:292–293`. -/
def analyze (pattern : String) : Outcome :=
  withPattern pattern [] fun p ↦
    let a := p.tree.analysis .standard
    let literalLine (e : String × Bool) : String :=
      "  " ++ Text.quoted e.1 ++ (if e.2 then " (optional)" else "")
    let groupLine (g : Group) : String :=
      let a := g.analysis .standard
      "  " ++ g.name ++ " (" ++ g.type.name ++ "): " ++ rangeText a ++ " [" ++ a.chars.render ++ "]"
    succeed (["Analysis", "  Pattern: " ++ pattern, "  Length:  " ++ rangeText a,
        "  Chars:   " ++ a.chars.render]
      ++ underHeading "Literals:" (a.literals.toList.map literalLine)
      ++ underHeading "Groups:" (p.tree.groups.map groupLine))

/-- Runs a command. -/
def Command.run (files : Files) : Command → Outcome
  | .convert pattern output => CommandLine.convert pattern output
  | .matchInput pattern input verbose => CommandLine.matchInput pattern input verbose
  | .generate pattern values => CommandLine.generate pattern values
  | .check path input => CommandLine.check files path input
  | .analyze pattern => CommandLine.analyze pattern

/-- Runs the program. -/
def run (files : Files) (args : List String) (read : ArgumentReader := .plain) : Outcome :=
  match read args with
  | .ok c => c.run files
  | .error outcome => outcome

end UrlPattern.CommandLine
