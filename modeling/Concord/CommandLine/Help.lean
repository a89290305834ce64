import Concord.CommandLine.Request

/-!
# Help

What is told about the program and its commands. Names are in one column and what they mean in
another, however long the line gets.

* `Help.text` – the help on a topic.
-/

namespace Concord.CommandLine.Help

/-! ### Columns -/

/-- A piece of text, which may be something to type as it stands. -/
structure Piece where
  literal : Bool
  text : String
deriving DecidableEq, Repr

/-- Something to type. -/
def lit (s : String) : Piece := ⟨true, s⟩

/-- Anything else. -/
def say (s : String) : Piece := ⟨false, s⟩

/-- A piece; what is to be typed is in bold where there is colour. -/
def Piece.render (colored : Bool) (p : Piece) : String :=
  if colored && p.literal then "\x1b[1m" ++ p.text ++ "\x1b[0m" else p.text

/-- A heading; it is bold and underlined where there is colour. -/
def heading (colored : Bool) (s : String) : String :=
  if colored then "\x1b[1m\x1b[4m" ++ s ++ ":\x1b[0m" else s ++ ":"

/-- A name and what it means. -/
structure Row where
  name : List Piece
  meaning : String
deriving DecidableEq, Repr

/-- The width of a name. -/
def Row.width (r : Row) : Nat := (r.name.map fun p => p.text.length).foldl (· + ·) 0

/-- A row, with a width for names. -/
def Row.render (colored : Bool) (width : Nat) (r : Row) : String :=
  let gap := String.ofList (List.replicate (width + 2 - r.width) ' ')
  "  " ++ String.join (r.name.map (Piece.render colored)) ++ gap ++ r.meaning

/-- Rows under a heading. -/
structure Part where
  title : String
  rows : List Row
deriving DecidableEq, Repr

/-- Rows under a heading, one a line. -/
def Part.render (colored : Bool) (p : Part) : String :=
  let width := (p.rows.map Row.width).foldl max 0
  heading colored p.title ++ "\n" ++ "\n".intercalate (p.rows.map (Row.render colored width))

/-! ### Topics -/

/-- What is told about a topic: what it is, how to type it, and what can be added. -/
structure Page where
  about : String
  usage : List Piece
  parts : List Part
deriving DecidableEq, Repr

/-- A page as text. -/
def Page.render (colored : Bool) (p : Page) : String :=
  let usage := heading colored "Usage" ++ " " ++ String.join (p.usage.map (Piece.render colored))
  "\n\n".intercalate ([p.about, usage] ++ p.parts.map (Part.render colored)) ++ "\n"

/-- What a command does, in a line. -/
def aboutOf : Topic → String
  | .program =>
    "Keeps localization function calls and gettext catalogs consistent across a codebase"
  | .check => "Check catalogs against code (undefined keys, unused keys, missing translations)"
  | .rename => "Rename a localization key in code and catalogs"
  | .init => "Initialize a new .locsyncrc.json configuration file"
  | .help => "Print this message or the help of the given subcommand(s)"

/-- The option for help. -/
def helpRow : Row := ⟨[lit "-h", say ", ", lit "--help"], "Print help"⟩

/-- The options that choose the project. -/
def projectRows (preset : Option String) : List Row :=
  [⟨[say "    ", lit "--source-root", say " <SOURCE_ROOT>"],
     "Project root directory (defaults to the current directory) [env: LOCSYNC_SOURCE_ROOT="
       ++ preset.getD "" ++ "]"⟩,
   ⟨[lit "-v", say ", ", lit "--verbose"], "Enable verbose output"⟩]

/-- A command in the list of commands. -/
def commandRow (name : String) (topic : Topic) : Row := ⟨[lit name], aboutOf topic⟩

/-- What is told about a topic. -/
def page (preset : Option String) : Topic → Page
  | .program =>
    ⟨aboutOf .program, [lit "locsync", say " [COMMAND]"],
     [⟨"Commands", [commandRow "check" .check, commandRow "rename" .rename,
        commandRow "init" .init, commandRow "help" .help]⟩,
      ⟨"Options", [helpRow, ⟨[lit "-V", say ", ", lit "--version"], "Print version"⟩]⟩]⟩
  | .check =>
    ⟨aboutOf .check, [lit "locsync check", say " [OPTIONS]"],
     [⟨"Options", projectRows preset ++ [helpRow]⟩]⟩
  | .rename =>
    ⟨aboutOf .rename, [lit "locsync rename", say " [OPTIONS] <OLD> <NEW>"],
     [⟨"Arguments", [⟨[say "<OLD>"], "Key to rename"⟩, ⟨[say "<NEW>"], "New key name"⟩]⟩,
      ⟨"Options", projectRows preset
        ++ [⟨[say "    ", lit "--apply"], "Actually write the edits (default is dry-run)"⟩,
          helpRow]⟩]⟩
  | .init => ⟨aboutOf .init, [lit "locsync init"], [⟨"Options", [helpRow]⟩]⟩
  | .help =>
    ⟨aboutOf .help, [lit "locsync help", say " [COMMAND]..."],
     [⟨"Arguments", [⟨[say "[COMMAND]..."], "Print help for the subcommand(s)"⟩]⟩]⟩

/-- The help on a topic. -/
def text (colored : Bool) (preset : Option String) (topic : Topic) : String :=
  (page preset topic).render colored

end Concord.CommandLine.Help
