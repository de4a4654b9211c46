import Morris.Rule.Json
import Morris.Session

/-!
# Command line

The command line chooses the rule, by number or from a JSON file, and the options of the engine.
Arguments are read from left to right, and the first one that is wrong decides: an unknown or
repeated option, a missing or unreadable value, a value for a switch, or an argument that is no
option. A value is attached by an equals sign or follows as an argument of its own, which then may
not begin with a minus sign. `-h` and `--help` ask for help. The two ways to choose a rule exclude
each other, which is checked last.
-/

set_option autoImplicit false

namespace Morris

/-- The choices made on the command line. -/
structure Arguments where
  rule : Option Nat := none
  ruleFile : Option String := none
  algorithm : Option Algorithm := none
  depth : Option Int := none
  moveTime : Option Nat := none
  threads : Option Nat := none
  shuffle : Bool := false
  seed : Option Nat := none
  noDeepening : Bool := false
  deriving DecidableEq, Repr, Inhabited

namespace Arguments

/-- Why a command line is not run. -/
inductive Stop where
  | help
  | usage
  deriving DecidableEq, Repr, Inhabited

/-- Set an option that has not been set before to a value that its reader accepts. -/
def setOnce {α : Type} (old : Option α) (value : Option α) (put : α → Arguments) :
    Option Arguments :=
  match old, value with
  | none, some v => some (put v)
  | _, _ => none

/-- A path is any text but the empty one. -/
def path? (value : String) : Option String := if value.isEmpty then none else some value

/-- Options that take a value. -/
def valued : List (String × (Arguments → String → Option Arguments)) :=
  [("rule", fun a v =>
     setOnce a.rule (Text.natural? UInt64.size v.toList) fun n => { a with rule := some n }),
   ("rule-file", fun a v => setOnce a.ruleFile (path? v) fun p => { a with ruleFile := some p }),
   ("algorithm", fun a v =>
     setOnce a.algorithm (Algorithm.parse v).toOption fun x => { a with algorithm := some x }),
   ("depth", fun a v =>
     setOnce a.depth (Text.integer? 0x80000000 v.toList) fun n => { a with depth := some n }),
   ("move-time", fun a v =>
     setOnce a.moveTime (Text.natural? UInt64.size v.toList) fun n =>
       { a with moveTime := some n }),
   ("threads", fun a v =>
     setOnce a.threads (Text.natural? UInt64.size v.toList) fun n => { a with threads := some n }),
   ("seed", fun a v =>
     setOnce a.seed (Text.natural? UInt64.size v.toList) fun n => { a with seed := some n })]

/-- Options that take no value. -/
def switches : List (String × (Arguments → Option Arguments)) :=
  [("shuffle", fun a => if a.shuffle then none else some { a with shuffle := true }),
   ("no-ids", fun a => if a.noDeepening then none else some { a with noDeepening := true })]

/-- An option of a list by name. -/
def named? {α : Type} (options : List (String × α)) (name : List Char) : Option α :=
  (options.find? fun o => o.1.toList == name).map (·.2)

/-- Whether an argument is read as an option where a value is due. -/
def looksLikeOption (arg : String) : Bool :=
  match arg.toList with
  | '-' :: _ :: _ => true
  | _ => false

/-- Read the arguments from left to right. -/
def readAll : List String → Arguments → Except Stop Arguments
  | [], a => .ok a
  | arg :: rest, a =>
      match arg.toList with
      | ['-', '-'] => if rest.isEmpty then .ok a else .error .usage
      | '-' :: '-' :: body =>
          match Text.cutAt? ['='] body with
          | some (name, value) =>
              match (named? valued name).bind fun put => put a (String.ofList value) with
              | some a => readAll rest a
              | none => .error .usage
          | none =>
              if body = "help".toList then .error .help
              else
                match named? switches body, named? valued body, rest with
                | some put, _, rest =>
                    match put a with
                    | some a => readAll rest a
                    | none => .error .usage
                | none, some put, value :: rest =>
                    if looksLikeOption value then .error .usage
                    else
                      match put a value with
                      | some a => readAll rest a
                      | none => .error .usage
                | none, _, _ => .error .usage
      | '-' :: 'h' :: _ => .error .help
      | _ => .error .usage

/-- Read a command line. -/
def parse (args : List String) : Except Stop Arguments :=
  (readAll args {}).bind fun a =>
    if a.rule.isSome && a.ruleFile.isSome then .error .usage else .ok a

/-- The engine options chosen on the command line. -/
def engineOptions (a : Arguments) : EngineOptions :=
  let o : EngineOptions := {}
  { o with
    algorithm := a.algorithm.getD .mtdf
    maxDepth := a.depth.getD o.maxDepth
    moveTime := a.moveTime.getD o.moveTime
    deepening := !a.noDeepening
    threads := max 1 (a.threads.getD 1)
    shuffle := a.shuffle
    seed := a.seed.getD o.seed }

/-- The rule chosen on the command line, given the texts of files; an error says what failed. -/
def chosenRule (a : Arguments) (fileText : String → Option String) : Except String Rule :=
  match a.ruleFile with
  | none => (Rule.preset (a.rule.getD 0)).mapError fun _ => "Selecting rule preset"
  | some path =>
      match fileText path with
      | none => .error ("Reading rule file " ++ path)
      | some text =>
          match Rule.parse? text with
          | none => .error ("Parsing rule file " ++ path)
          | some rule => if rule.Valid then .ok rule else .error "Validating rule file"

end Arguments

namespace Session

/-- The session that a command line begins. -/
def ofRule (rule : Rule) (options : EngineOptions) : Session where
  game := .ofPosition (.ofVariant (.ofRule rule))
  engine := .ofOptions options

end Session

/-- How a run of the program ended. -/
structure Finished where
  exitCode : Nat
  printed : List String := []
  error : Option String := none

/-- Begin a session from a command line, given the texts of files. -/
def Session.begin (args : List String) (fileText : String → Option String) :
    Except Finished Session :=
  match Arguments.parse args with
  | .error .help => .error { exitCode := 0 }
  | .error .usage => .error { exitCode := 2 }
  | .ok a =>
      match a.chosenRule fileText with
      | .error what => .error { exitCode := 1, error := some ("Error: " ++ what) }
      | .ok rule => .ok (.ofRule rule a.engineOptions)

/-- A whole run: the command line, the texts of files and the lines of input. -/
def Session.runProgram (args : List String) (fileText : String → Option String)
    (lines : List String) : Finished :=
  match Session.begin args fileText with
  | .error finished => finished
  | .ok s => { exitCode := 0, printed := s.run lines }

end Morris
