import FpgaBitstream.Family
import FpgaBitstream.Text.Hex

/-!
# Command line

The arguments of `xbit`: switches for the whole program, a subcommand, its switches and its input
file. A run of words is first taken apart (`scan`) without regard to meaning, then taken in from
left to right (`Given.take`), so that the first request for help or the first fault decides;
`Arguments.parse` puts the two together.
-/

namespace FpgaBitstream

/-- What the program does. -/
inductive Subcommand where
  /-- Lists the packets of a bitstream. -/
  | dump
  /-- Turns a bitstream into a frame file. -/
  | frames
  /-- Turns a frame file into a bitstream. -/
  | pack
  deriving DecidableEq, Repr

namespace Subcommand

/-- All subcommands. -/
def all : List Subcommand := [dump, frames, pack]

/-- The name of a subcommand. -/
def name : Subcommand → String
  | dump => "dump"
  | frames => "frames"
  | pack => "pack"

/-- The subcommand of a name. -/
def ofName? (text : String) : Option Subcommand := all.find? fun c => c.name == text

end Subcommand

/-- A named argument. -/
inductive Switch where
  | help
  | version
  | quiet
  /-- Accepted for scripts that pass it. There are no further messages to turn on. -/
  | verbose
  | config
  | family
  | geometry
  | output
  | raw
  | designName
  | selected
  | clbStart
  | clbEnd
  | ramStart
  | ramEnd
  deriving DecidableEq, Repr

namespace Switch

/-- The long name. -/
def long : Switch → String
  | help => "help"
  | version => "version"
  | quiet => "quiet"
  | verbose => "verbose"
  | config => "config"
  | family => "arch"
  | geometry => "geometry"
  | output => "output"
  | raw => "raw"
  | designName => "design-name"
  | selected => "partial"
  | clbStart => "clb-start"
  | clbEnd => "clb-end"
  | ramStart => "bram-start"
  | ramEnd => "bram-end"

/-- The short name, if there is one. -/
def short? : Switch → Option Char
  | help => some 'h'
  | version => some 'V'
  | quiet => some 'q'
  | verbose => some 'v'
  | family => some 'a'
  | geometry => some 'g'
  | output => some 'o'
  | _ => none

/-- Whether a value belongs to the switch. -/
def takesValue : Switch → Bool
  | help | version | quiet | verbose | raw | selected => false
  | _ => true

/-- Whether a text is a value of the switch: a family, an address in hexadecimal, a path, which is
never empty, or any design name. -/
def accepts : Switch → String → Bool
  | family, text => (Family.parse text).toBool
  | clbStart, text | clbEnd, text | ramStart, text | ramEnd, text =>
    (Hex.parse32? text.toList).isSome
  | designName, _ => true
  | _, text => text != ""

/-- The switches that may stand anywhere. -/
def everywhere : List Switch := [help, quiet, verbose, config]

/-- The switches that may stand behind a subcommand. -/
def behind : Subcommand → List Switch
  | .dump => everywhere ++ [family]
  | .frames => everywhere ++ [family, geometry, output]
  | .pack => everywhere ++
    [family, geometry, output, raw, designName, selected, clbStart, clbEnd, ramStart, ramEnd]

end Switch

/-! ## Words -/

/-- A part of the command line. -/
inductive Argument where
  | switch (s : Switch)
  | value (s : Switch) (text : String)
  | positional (text : String)
  /-- An unknown switch, a switch without its value or with one too many. -/
  | malformed
  deriving DecidableEq, Repr

/-- The arguments in one word, and the switch that waits for its value in the next. -/
structure WordParts where
  arguments : List Argument
  waiting : Option Switch := none

/-- The parts of a word behind two hyphens. A value may follow an equals sign. -/
def longParts (allowed : List Switch) (text : List Char) : WordParts :=
  let (name, value) := text.span (· != '=')
  match allowed.find? (fun s => s.long == String.ofList name), value with
  | none, _ => ⟨[.malformed], none⟩
  | some s, [] => if s.takesValue then ⟨[], some s⟩ else ⟨[.switch s], none⟩
  | some s, _ :: value =>
    if s.takesValue then ⟨[.value s (String.ofList value)], none⟩ else ⟨[.malformed], none⟩

/-- The parts of a word behind one hyphen: switches without values, then at most one with its value,
which may follow an equals sign. -/
def shortParts (allowed : List Switch) : List Char → WordParts
  | [] => ⟨[], none⟩
  | c :: rest =>
    match allowed.find? fun s => s.short? == some c with
    | none => ⟨[.malformed], none⟩
    | some s =>
      if s.takesValue then
        match rest with
        | [] => ⟨[], some s⟩
        | '=' :: value => ⟨[.value s (String.ofList value)], none⟩
        | value => ⟨[.value s (String.ofList value)], none⟩
      else
        let parts := shortParts allowed rest
        { parts with arguments := .switch s :: parts.arguments }

/-- The parts of a word. A hyphen alone is an ordinary word. -/
def wordParts (allowed : List Switch) (word : String) : WordParts :=
  match word.toList with
  | '-' :: '-' :: text => longParts allowed text
  | '-' :: c :: text => shortParts allowed (c :: text)
  | _ => ⟨[.positional word], none⟩

/-- Whether a word is no value of the switch in front of it, because it looks like a switch. -/
def looksLikeSwitch (word : String) : Bool :=
  match word.toList with
  | '-' :: _ :: _ => true
  | _ => false

/-- The arguments in front of the first word that satisfies `stops`, and the words from it on.
Behind two hyphens no word is special. -/
def scan (allowed : List Switch) (stops : String → Bool) :
    List String → List Argument × List String
  | [] => ([], [])
  | word :: rest =>
    if stops word then ([], word :: rest)
    else if word == "--" then (rest.map .positional, [])
    else
      let parts := wordParts allowed word
      match parts.waiting, rest with
      | none, rest =>
        let (arguments, unread) := scan allowed stops rest
        (parts.arguments ++ arguments, unread)
      | some _, [] => (parts.arguments ++ [.malformed], [])
      | some s, value :: rest =>
        if looksLikeSwitch value then (parts.arguments ++ [.malformed], [])
        else
          let (arguments, unread) := scan allowed stops rest
          (parts.arguments ++ .value s value :: arguments, unread)

/-! ## Meaning -/

/-- Why a command line asks for no work. -/
inductive NoWork where
  | help
  | version
  | usage
  deriving DecidableEq, Repr

/-- The arguments taken in so far. -/
structure Given where
  values : List (Switch × String) := []
  file : Option String := none

namespace Given

/-- The value of a switch, if it was given. -/
def text? (g : Given) (s : Switch) : Option String := g.values.lookup s

/-- Whether a switch was given. -/
def has (g : Given) (s : Switch) : Bool := (g.text? s).isSome

/-- The address that is the value of a switch. -/
def address? (g : Given) (s : Switch) : Option Word :=
  (g.text? s).bind fun text => Hex.parse32? text.toList

/-- The family that is the value of the family switch. -/
def family? (g : Given) : Option Family :=
  (g.text? .family).bind fun text => (Family.parse text).toOption

/-- Adds a switch with its value. No switch may be repeated. -/
def add (g : Given) (s : Switch) (text : String) : Except NoWork Given :=
  if g.has s then .error .usage else .ok { g with values := (s, text) :: g.values }

/-- Takes in one argument. There may be one input file where `takesFile` holds. -/
def take (takesFile : Bool) (g : Given) : Argument → Except NoWork Given
  | .malformed => .error .usage
  | .switch .help => .error .help
  | .switch .version => .error .version
  | .switch s => g.add s ""
  | .value s text => if s.accepts text then g.add s text else .error .usage
  | .positional text =>
    if takesFile && g.file.isNone && text != "" then .ok { g with file := some text }
    else .error .usage

end Given

/-- The bounds of a window of addresses, as far as they were given. -/
structure WindowBounds where
  first : Option Word
  last : Option Word
  deriving DecidableEq, Repr

/-- The windows of a partial bitstream. -/
structure SelectionBounds where
  clb : WindowBounds
  ram : WindowBounds
  deriving DecidableEq, Repr

/-- What to do with the input file. -/
inductive Task where
  | dump
  | frames (geometry output : Option String)
  | pack (geometry : Option String) (output : String) (raw : Bool) (designName : Option String)
    (selection : Option SelectionBounds)
  deriving DecidableEq, Repr

/-- A complete command line. -/
structure Arguments where
  quiet : Bool
  /-- The path of the settings file. -/
  config : Option String
  family : Option Family
  /-- The path of the input file. -/
  file : String
  task : Task
  deriving DecidableEq, Repr

/-- The task that the arguments of a subcommand ask for. Only a partial bitstream has windows. -/
def Given.task? (g : Given) : Subcommand → Option Task
  | .dump => some .dump
  | .frames => some (.frames (g.text? .geometry) (g.text? .output))
  | .pack => do
    let output ← g.text? .output
    let hasWindow := [.clbStart, .clbEnd, .ramStart, .ramEnd].any g.has
    if hasWindow && !g.has .selected then none
    let selection : SelectionBounds :=
      ⟨⟨g.address? .clbStart, g.address? .clbEnd⟩, ⟨g.address? .ramStart, g.address? .ramEnd⟩⟩
    return .pack (g.text? .geometry) output (g.has .raw) (g.text? .designName)
      (if g.has .selected then some selection else none)

namespace Arguments

/-- The subcommand that shows help. -/
def helpName : String := "help"

/-- Whether a word names a subcommand. -/
def isSubcommand (word : String) : Bool :=
  word == helpName || (Subcommand.ofName? word).isSome

/-- The outcome of the subcommand that shows help: it takes the name of at most one subcommand. -/
def helpOn : List String → NoWork
  | [] => .help
  | [word] => if isSubcommand word then .help else .usage
  | _ => .usage

/-- The arguments behind a subcommand, joined with those in front of it. -/
def ofSubcommand (front : Given) (c : Subcommand) (words : List String) :
    Except NoWork Arguments := do
  let g ← (scan (Switch.behind c) (fun _ => false) words).1.foldlM (Given.take true) {}
  match g.file, g.task? c with
  | some file, some task =>
    return {
      quiet := front.has .quiet || g.has .quiet
      config := (g.text? .config).or (front.text? .config)
      family := g.family?
      file
      task }
  | _, _ => throw .usage

/-- The arguments that words spell. -/
def parse (words : List String) : Except NoWork Arguments := do
  let (arguments, rest) := scan (.version :: Switch.everywhere) isSubcommand words
  let front ← arguments.foldlM (Given.take false) {}
  match rest with
  | [] => throw .usage
  | word :: rest =>
    match Subcommand.ofName? word with
    | some c => ofSubcommand front c rest
    | none => throw (helpOn rest)

end Arguments

end FpgaBitstream
