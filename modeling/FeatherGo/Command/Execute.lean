import FeatherGo.Command.Arguments
import FeatherGo.Command.Digest
import FeatherGo.Document.Decode
import FeatherGo.Document.Encode
import FeatherGo.Ground.Program
import FeatherGo.Inference.Elaborate
import FeatherGo.Json.Parse
import FeatherGo.Json.Print
import FeatherGo.Reduction.Run
import FeatherGo.Typing.Diagnostic

/-!
# Carrying out commands

A command reads a program from a file and writes to the two outputs. What goes to the error output
is a text, a diagnostic as a JSON object on one line, or a report beside the program's text.
-/

namespace FeatherGo.Command

/-- What a command writes to the error output. -/
inductive Notice where
  /-- How commands are used. -/
  | usage
  | text (s : String)
  | diagnostic (j : Json)
  | report (r : Report)

/-- What a command leaves behind. -/
structure Effect where
  exit : Nat
  output : String
  notice : Notice

/-- Why a command failed. -/
inductive Failure where
  /-- A type error in a program. -/
  | type (error : TypeError) (p : Program)
  /-- Instances would grow without end. -/
  | notMonomorphisable (message : String)
  | stuck (reason : StuckReason)
  | other (message : String)
  /-- The machine cannot go on. -/
  | halted (message : String)
  | unfinished

/-- The failure that an error of evaluation is, for a program. -/
def Failure.ofEval (p : Program) : EvalError → Failure
  | .type e => .type e p
  | .stuck reason => .stuck reason
  | .divisorLost => .halted EvalError.divisorLost.message
  | e => .other e.message

/-- The failure that an error of instantiation is, for a program. -/
def Failure.ofMono (p : Program) : MonoError → Failure
  | .type e => .type e p
  | .eval e => .ofEval p e
  | .notMonomorphisable witness =>
    .notMonomorphisable (MonoError.notMonomorphisable witness).message
  | e => .other e.message

/-- An answer or the failure that it stands for. -/
def settle {ε α : Type} (failure : ε → Failure) : Answer ε α → Except Failure α
  | .ok a => .ok a
  | .error e => .error (failure e)
  | .unfinished => .error .unfinished

/-- A file in quotes, as messages name it. -/
def quoted (file : String) : String := "'" ++ file ++ "'"

/-- How deeply the members of a document that are asked for may nest. -/
def nestingLimit : Nat := 127

/-- The program of a document. -/
def programOf? (text : String) : Option Program := do
  let j ← Json.parse? text
  Document.decodeProgram? .file (j.clip nestingLimit)

/-- The program in a file, with the outcome of reading the file. -/
def load (file : String) (content : Except String String) : Except Failure Program :=
  match content with
  | .error fault => .error (.other ("Failed to read " ++ quoted file ++ ": " ++ fault))
  | .ok text =>
    match programOf? text with
    | some p => .ok p
    | none => .error (.other (quoted file ++ " is not a valid program: malformed document"))

/-- A text on a line of its own. -/
def line (s : String) : String := s ++ "\n"

/-- A text at the left of a field. -/
def padRight (width : Nat) (s : String) : String :=
  s ++ String.ofList (List.replicate (width - s.length) ' ')

/-- A text at the right of a field. -/
def padLeft (width : Nat) (s : String) : String :=
  String.ofList (List.replicate (width - s.length) ' ') ++ s

/-- A recorded step as it is listed: its number, its rule and the expression it led to. -/
def traceLine (i : Nat) (rule : Rule) (e : Expr) : String :=
  line (padLeft 4 (toString (i + 1)) ++ " " ++ padRight 10 rule.name ++ " " ++ e.render)

/-- The steps that a run recorded, as they are listed. -/
def traceText (run : Run) : String :=
  String.join (run.trace.zipIdx.map fun ((rule, e), i) => traceLine i rule e)

/-- Outputs of a command: the text, what is noted beside it, and the failure it ended with. -/
structure Result where
  output : String
  note : String
  failure : Option Failure

/-- A command that failed before it wrote anything. -/
def Result.ofExcept : Except Failure Result → Result
  | .ok r => r
  | .error failure => ⟨"", "", some failure⟩

/-- A text as the only output. -/
def Result.printed (s : String) : Result := ⟨line s, "", none⟩

/-- What a run writes. -/
def Result.ofRun (run : Run) : Result :=
  match run.outcome with
  | .value e => ⟨traceText run ++ line e.render, "", none⟩
  | .stepLimit e =>
    ⟨traceText run ++ line e.render,
      line ("note: stopped after " ++ toString run.steps ++ " steps"), none⟩
  | .stuck _ reason => ⟨traceText run, "", some (.stuck reason)⟩

/-- Carry out a task on a program. -/
def Task.perform (fuel : Nat) (p : Program) : Task → Except Failure Result
  | .check lenient infer => do
    let (t, _) ← settle (.type · p)
      (if infer then inferProgram fuel p else checkProgram fuel lenient p)
    return .printed t.render
  | .nomono => do
    settle (.ofMono p) (checkProgramNesting fuel p)
    return .printed "monomorphisable"
  | .monom skipCheck maxPasses json => do
    let ground ← settle (.ofMono p) (groundProgram fuel ⟨!skipCheck, maxPasses⟩ p)
    return .printed
      (if json then (Document.encodeProgram Document.plainFloat ground).pretty else ground.render)
  | .eval steps trace ground => do
    let p ← if ground then settle (.ofMono p) (groundProgram fuel .standard p) else pure p
    let run ← settle (.ofEval p) (runProgram fuel ⟨steps, trace, false⟩ p)
    return .ofRun run

/-- A diagnostic that is no type error. -/
def plainNotice (json : Bool) (file code message : String) : Notice :=
  if json then
    .diagnostic (.obj [("code", .str code), ("file", .str file), ("message", .str message),
      ("severity", .str "error")])
  else
    .text (line ("error: " ++ message))

/-- What a failure writes to the error output, and the exit code. -/
def Failure.notice (json : Bool) (file : String) : Failure → Nat × Notice
  | .type e p =>
    (1, if json then .diagnostic (e.diagnostic file) else .report (e.report p.render))
  | .notMonomorphisable message => (1, plainNotice json file "M0001" message)
  | .stuck reason => (1, plainNotice json file "R0001" ("evaluation stuck: " ++ reason.message))
  | .other message => (1, plainNotice json file "C0001" message)
  | .halted message => (101, .text (line message))
  | .unfinished => (1, .text (line "error: the computation was given up"))

/-- The effect of a result. -/
def Result.effect (json : Bool) (file : String) (r : Result) : Effect :=
  match r.failure with
  | none => ⟨0, r.output, .text r.note⟩
  | some failure =>
    let (exit, notice) := failure.notice json file
    ⟨exit, r.output, notice⟩

/-- The text on the use of commands. -/
def usageText : String :=
  String.join ([
    "usage: fggc [--no-color] [--json-diagnostics] [-v] COMMAND FILE [OPTIONS]",
    "",
    "commands:",
    "  check [--unsafe-casts] [--infer]",
    "  nomono",
    "  monom [--skip-nomono] [--max-passes N] [--json]",
    "  eval [--steps N] [--trace] [--monom]"].map line)

/-- The text on the version. -/
def versionText : String := "fggc 0.1.0\n"

/-- The file that a command line reads. -/
def Request.file? : Request → Option String
  | .run _ file _ => some file
  | _ => none

/-- Carry out what a command line asks for, with the outcome of reading its file. -/
def Request.execute (fuel : Nat) (content : Except String String) : Request → Effect
  | .run task file json =>
    (Result.ofExcept (do task.perform fuel (← load file content))).effect json file
  | .help => ⟨0, usageText, .text ""⟩
  | .version => ⟨0, versionText, .text ""⟩
  | .invalid => ⟨2, "", .usage⟩

/-- The text of a notice on the error output. -/
def Notice.render : Notice → String
  | .usage => usageText
  | .text s => s
  | .diagnostic j => line j.compress
  | .report r =>
    line r.header
      ++ (match r.position with
        | some (row, column) => line ("  at " ++ toString row ++ ":" ++ toString column)
        | none => "")
      ++ (match r.help with
        | some help => line ("  help: " ++ help)
        | none => "")

end FeatherGo.Command
