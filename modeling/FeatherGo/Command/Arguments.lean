/-!
# Command lines

A command line is a subcommand with a file and options. Options that concern every subcommand may
stand before or after its name. A flag may be given once on each side, an option with a value once;
after `--` nothing is an option. Asking for help or the version ends the reading on the spot.
-/

namespace FeatherGo.Command

/-- What is to be done with a program file. -/
inductive Task where
  | check (lenient infer : Bool)
  | nomono
  | monom (skipCheck : Bool) (maxPasses : Option Nat) (json : Bool)
  | eval (steps : Option Nat) (trace ground : Bool)

/-- What a command line asks for. -/
inductive Request where
  | run (task : Task) (file : String) (jsonDiagnostics : Bool)
  | help
  | version
  /-- The command line is not understood. -/
  | invalid

/-- The options that a place on the command line takes. -/
structure Options where
  flags : List String
  /-- Options with a count for their value. -/
  counts : List String
  /-- Whether a file may be given. -/
  takesFile : Bool
  /-- Whether the version may be asked for. -/
  takesVersion : Bool

/-- What has been given at a place. -/
structure Given where
  flags : List String
  counts : List (String × Nat)
  file : Option String

namespace Given

/-- Nothing. -/
def empty : Given := ⟨[], [], none⟩

/-- Whether a flag has been given. -/
def flag (g : Given) (name : String) : Bool := decide (name ∈ g.flags)

/-- The value of an option. -/
def count? (g : Given) (name : String) : Option Nat := g.counts.lookup name

end Given

/-- How far reading got: to an answer, or to something given with the rest of the line. -/
inductive Reading (α : Type) where
  | stop (r : Request)
  | go (a : α)

/-- A count: digits after an optional plus sign, within a 64-bit word. -/
def count? (text : String) : Option Nat :=
  let digits :=
    match text.toList with
    | '+' :: cs => cs
    | cs => cs
  if digits.isEmpty || !digits.all Char.isDigit then none
  else
    let n := digits.foldl (fun n c => 10 * n + (c.toNat - '0'.toNat)) 0
    if n < UInt64.size then some n else none

/-- Give a flag that has not been given. -/
def giveFlag (options : Options) (g : Given) (name : String) : Reading Given :=
  if name ∈ options.flags ∧ name ∉ g.flags then .go { g with flags := name :: g.flags }
  else .stop .invalid

/-- Give an option its value. -/
def giveCount (g : Given) (name value : String) : Reading Given :=
  match count? value, g.count? name with
  | some n, none => .go { g with counts := (name, n) :: g.counts }
  | _, _ => .stop .invalid

/-- Give a file that has not been given. -/
def giveFile (options : Options) (g : Given) (name : String) : Reading Given :=
  if options.takesFile ∧ g.file.isNone ∧ name ≠ "" then .go { g with file := some name }
  else .stop .invalid

/-- Read a run of one-letter options. -/
def readLetters (options : Options) : Given → List Char → Reading Given
  | g, [] => .go g
  | g, c :: cs =>
    if c = 'h' then .stop .help
    else if c = 'V' ∧ options.takesVersion then .stop .version
    else if c = 'v' then
      match giveFlag options g "--verbose" with
      | .go g => readLetters options g cs
      | .stop r => .stop r
    else .stop .invalid

/-- An option with the value attached to it after an equals sign, if there is one. -/
def splitValue (arg : String) : String × Option String :=
  match arg.toList.span (· ≠ '=') with
  | (name, _ :: value) => (String.ofList name, some (String.ofList value))
  | (name, []) => (String.ofList name, none)

/-- The kinds of arguments. -/
inductive Shape where
  | escape
  | option
  | letters (cs : List Char)
  | plain

/-- The kind of an argument. A single dash is no option. -/
def Shape.of (arg : String) : Shape :=
  match arg.toList with
  | ['-', '-'] => .escape
  | '-' :: '-' :: _ => .option
  | '-' :: c :: cs => .letters (c :: cs)
  | _ => .plain

/-- Read an option that is written out; `rest` is what follows on the line. -/
def readOption (options : Options) (g : Given) (arg : String) (rest : List String) :
    Reading (Given × List String) :=
  let keep (r : Reading Given) (rest : List String) : Reading (Given × List String) :=
    match r with
    | .go g => .go (g, rest)
    | .stop r => .stop r
  match splitValue arg, rest with
  | ("--help", none), _ => .stop .help
  | ("--version", none), rest =>
    if options.takesVersion then .stop .version else keep (.stop .invalid) rest
  | (name, some value), rest =>
    if name ∈ options.counts then keep (giveCount g name value) rest else .stop .invalid
  | (name, none), rest =>
    if name ∈ options.counts then
      match rest with
      | value :: rest => keep (giveCount g name value) rest
      | [] => .stop .invalid
    else
      keep (giveFlag options g name) rest

/-- Read arguments none of which is an option. -/
def readPlain (options : Options) : Given → List String → Reading Given
  | g, [] => .go g
  | g, arg :: rest =>
    match giveFile options g arg with
    | .go g => readPlain options g rest
    | .stop r => .stop r

/-- Read the arguments of a subcommand, within a number of steps. -/
def readArguments (options : Options) : Nat → Given → List String → Reading Given
  | _, g, [] => .go g
  | 0, _, _ => .stop .invalid
  | n + 1, g, arg :: rest =>
    match Shape.of arg with
    | .escape => readPlain options g rest
    | .option =>
      match readOption options g arg rest with
      | .go (g, rest) => readArguments options n g rest
      | .stop r => .stop r
    | .letters cs =>
      match readLetters options g cs with
      | .go g => readArguments options n g rest
      | .stop r => .stop r
    | .plain =>
      match giveFile options g arg with
      | .go g => readArguments options n g rest
      | .stop r => .stop r

/-- The flags that concern every subcommand. -/
def commonFlags : List String := ["--no-color", "--json-diagnostics", "--verbose"]

/-- The options before the name of a subcommand. -/
def commonOptions : Options := ⟨commonFlags, [], false, true⟩

/-- The options of a subcommand. -/
def optionsOf? (name : String) : Option Options :=
  let own (flags counts : List String) : Option Options :=
    some ⟨commonFlags ++ flags, counts, true, false⟩
  if name = "check" then own ["--unsafe-casts", "--infer"] []
  else if name = "nomono" then own [] []
  else if name = "monom" then own ["--skip-nomono", "--json"] ["--max-passes"]
  else if name = "eval" then own ["--trace", "--monom"] ["--steps"]
  else none

/-- The task of a subcommand with what has been given. -/
def taskOf (name : String) (g : Given) : Task :=
  if name = "check" then .check (g.flag "--unsafe-casts") (g.flag "--infer")
  else if name = "nomono" then .nomono
  else if name = "monom" then
    .monom (g.flag "--skip-nomono") (g.count? "--max-passes") (g.flag "--json")
  else .eval (g.count? "--steps") (g.flag "--trace") (g.flag "--monom")

/-- The request of a subcommand, after what was given before its name. -/
def readSubcommand (before : Given) (name : String) (args : List String) : Request :=
  match optionsOf? name with
  | none =>
    if name = "help" ∧ (args = [] ∨ args = ["help"] ∨ ∃ arg ∈ args.head?, args.length = 1
        ∧ (optionsOf? arg).isSome) then .help
    else .invalid
  | some options =>
    match readArguments options args.length Given.empty args with
    | .stop r => r
    | .go g =>
      match g.file with
      | none => .invalid
      | some file =>
        .run (taskOf name g) file
          (before.flag "--json-diagnostics" || g.flag "--json-diagnostics")

/-- Read a command line up to the name of a subcommand, and then its arguments. -/
def readFrom (before : Given) : List String → Request
  | [] => .invalid
  | arg :: rest =>
    match Shape.of arg with
    | .escape => .invalid
    | .option =>
      match readOption commonOptions before arg [] with
      | .go (g, _) => readFrom g rest
      | .stop r => r
    | .letters cs =>
      match readLetters commonOptions before cs with
      | .go g => readFrom g rest
      | .stop r => r
    | .plain => readSubcommand before arg rest

/-- What a command line asks for. -/
def Request.ofArguments (args : List String) : Request := readFrom Given.empty args

end FeatherGo.Command
