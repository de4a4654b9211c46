import Morris.Engine
import Morris.Game
import Morris.Position.Diagram

/-!
# Sessions

A session plays a game by text lines. `go` lets the engine move, `setoption` sets an option of the
engine or, if it has none of that name, of the rule, `position` draws the board, `undo` takes a
record back, `new` starts over, `quit` ends the session, and every other line is a record. A line
that fails is answered by its error.
-/

set_option autoImplicit false

namespace Morris

/-- A game with an engine. -/
structure Session where
  game : Game
  engine : Engine

namespace Session

/-- What a line leads to: the lines it prints, the error it ends with, whether it ends the session,
and the session after it. -/
structure Reply where
  printed : List String := []
  error : Option String := none
  quits : Bool := false
  session : Session

/-- The line that says how the game ended, once it has. -/
def verdictLines (g : Game) : List String := g.position.verdict.toList

/-- Play a record. -/
def play (s : Session) (line : String) : Reply :=
  match s.game.command line with
  | none => { error := some ("Rejected record: " ++ line), session := s }
  | some game => { printed := verdictLines game, session := { s with game := game } }

/-- Let the engine move. -/
def go (s : Session) : Reply :=
  match s.engine.search s.game.position s.game.keys with
  | (.error e, engine) =>
      { error := some ("Searching: " ++ e.message), session := { s with engine := engine } }
  | (.ok outcome, engine) =>
      let s := { s with engine := engine }
      match s.game.command outcome.record with
      | none =>
          { printed := [outcome.answerLine]
            error := some ("Engine record was not accepted: " ++ outcome.record)
            session := s }
      | some game =>
          { printed := outcome.answerLine :: verdictLines game, session := { s with game := game } }

/-- Play the records of a list as long as they are accepted. -/
def replay : Game → List String → Game
  | g, [] => g
  | g, r :: rest =>
      match g.command r with
      | none => g
      | some g => replay g rest

/-- Set an option of the engine or, failing that, of the rule; a changed rule starts a new game in
which the records so far are replayed. -/
def setOption (s : Session) (name value : String) : Except Error Session :=
  match s.engine.setOption name value with
  | .ok engine => .ok { s with engine := engine }
  | .error (.unknownOption _) =>
      (s.game.position.rule.setOption name value).bind fun rule =>
        (Game.ofRule rule).map fun game =>
          { game := replay game s.game.records, engine := s.engine.clear }
  | .error e => .error e

/-- The name and the value that a `setoption` line gives. -/
def optionOf? (rest : List Char) : Option (String × String) :=
  (Text.after? "name ".toList (Text.trim rest)).map fun rest =>
    let (name, value) := (Text.cutAt? " value ".toList rest).getD (rest, [])
    (String.ofList (Text.trim name), String.ofList (Text.trim value))

/-- Answer a line without blanks around it. -/
def answer (s : Session) (line : List Char) : Reply :=
  let (word, rest) := (Text.cutAt? [' '] line).getD (line, [])
  match String.ofList word with
  | "" => { session := s }
  | "quit" => { quits := true, session := s }
  | "go" => s.go
  | "setoption" =>
      match optionOf? rest with
      | none =>
          { error := some "Expected: setoption name <name> value <value>", session := s }
      | some (name, value) =>
          match s.setOption name value with
          | .error e =>
              { error := some ("Setting option " ++ name ++ ": " ++ e.message), session := s }
          | .ok s => { session := s }
  | "position" => { printed := s.game.position.diagram, session := s }
  | "undo" =>
      match s.game.undo? with
      | none => { error := some "Nothing to undo", session := s }
      | some game => { session := { s with game := game } }
  | "new" => { session := { game := s.game.reset, engine := s.engine.clear } }
  | _ => s.play (String.ofList line)

/-- Answer one line of input: the lines to print, and the session after it unless it ended. -/
def handle (s : Session) (line : String) : List String × Option Session :=
  let reply := s.answer (Text.trim line.toList)
  (reply.printed ++ (reply.error.map ("error " ++ ·)).toList,
    if reply.quits then none else some reply.session)

/-- Everything that a session prints for a list of lines. -/
def run : Session → List String → List String
  | _, [] => []
  | s, line :: rest =>
      match s.handle line with
      | (printed, none) => printed
      | (printed, some s) => printed ++ run s rest

end Session

end Morris
