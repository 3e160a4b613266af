import ChessEngine.Fen
import ChessEngine.Search.Report

/-!
# The command line

The program takes a position, moves to play from it and search settings, and
prints what the search found.  `CommandLine.parse` reads the arguments and
`CommandLine.run` gives the exit code and the lines of output.
-/

namespace ChessEngine

namespace CommandLine

/-- What the arguments ask for. -/
structure Settings where
  fen : String
  depth : Nat
  hashMebibytes : Nat
  moves : String
  ordering : Bool
deriving DecidableEq

/-- An option that takes a value. -/
inductive ValueOption where
  | fen
  | depth
  | hashMebibytes
  | moves
deriving DecidableEq

/-- The options seen so far. -/
structure Seen where
  fen : Option String
  depth : Option Nat
  hashMebibytes : Option Nat
  moves : Option String
  noOrdering : Bool
deriving DecidableEq

/-- What became of the arguments. -/
inductive Request where
  | search (settings : Settings)
  | version
  | rejected
deriving DecidableEq

namespace Seen

/-- No option seen. -/
def nothing : Seen := ⟨none, none, none, none, false⟩

/-- The settings, with defaults for what was not seen. -/
def settings (s : Seen) : Settings where
  fen := s.fen.getD Fen.initial
  depth := s.depth.getD SearchConfig.standard.depth
  hashMebibytes := s.hashMebibytes.getD 16
  moves := s.moves.getD ""
  ordering := !s.noOrdering

end Seen

/-! ## Values -/

/-- Reads decimal digits, at least one. -/
def digits? (text : List Char) : Option Nat :=
  if text.isEmpty || !text.all Char.isDigit then none
  else some (text.foldl (fun n c => 10 * n + (c.toNat - '0'.toNat)) 0)

/-- Reads digits after at most one plus sign. -/
def unsigned? : List Char → Option Nat
  | '+' :: rest => digits? rest
  | text => digits? text

/-- Reads a depth: a number up to 255 with an optional sign. -/
def depth? (text : List Char) : Option Nat :=
  match text with
  | '-' :: rest => (digits? rest).filter (· = 0)
  | _ => (unsigned? text).filter (· < 256)

/-- Reads a table size: a number of one machine word. -/
def hashMebibytes? (text : List Char) : Option Nat :=
  (unsigned? text).filter (· < 18446744073709551616)

/-- The option that takes a value, by its name without hyphens. -/
def ValueOption.ofName? : List Char → Option ValueOption
  | ['f', 'e', 'n'] => some .fen
  | ['d', 'e', 'p', 't', 'h'] => some .depth
  | ['h', 'a', 's', 'h', '-', 'm', 'b'] => some .hashMebibytes
  | ['m', 'o', 'v', 'e', 's'] => some .moves
  | _ => none

/-- Notes the value of an option, unless the option was seen before or the value cannot be read. -/
def Seen.set? (s : Seen) (option : ValueOption) (value : List Char) : Option Seen :=
  match option with
  | .fen => if s.fen.isSome then none else some { s with fen := some (String.ofList value) }
  | .moves => if s.moves.isSome then none else some { s with moves := some (String.ofList value) }
  | .depth =>
    if s.depth.isSome then none else (depth? value).map fun n => { s with depth := some n }
  | .hashMebibytes =>
    if s.hashMebibytes.isSome then none
    else (hashMebibytes? value).map fun n => { s with hashMebibytes := some n }

/-! ## Arguments -/

/-- Whether an argument can be the value of the option before it: a lone hyphen can, anything else
that starts with one cannot. -/
def isValue : List Char → Bool
  | '-' :: rest => rest.isEmpty
  | _ => true

/-- Splits a name from the value after the first equals sign. -/
def splitValue (text : List Char) : List Char × Option (List Char) :=
  match text.dropWhile (· != '=') with
  | [] => (text, none)
  | _ :: value => (text.takeWhile (· != '='), some value)

/-- Reads the arguments from left to right.  The first that is wrong rejects them all, unless the
version is asked for before it.  Of single letters after one hyphen the first decides, and only
`-V` is known. -/
def scan (s : Seen) : List (List Char) → Request
  | [] => .search s.settings
  | ['-', '-'] :: rest => if rest.isEmpty then .search s.settings else .rejected
  | ('-' :: 'V' :: _) :: _ => .version
  | ('-' :: '-' :: option) :: rest =>
    match splitValue option, rest with
    | (name, some value), rest =>
      match (ValueOption.ofName? name).bind (s.set? · value) with
      | some s => scan s rest
      | none => .rejected
    | (name, none), rest =>
      if name = "version".toList then .version
      else if name = "no-ordering".toList then
        if s.noOrdering then .rejected else scan { s with noOrdering := true } rest
      else match ValueOption.ofName? name, rest with
        | some option, value :: rest =>
          if isValue value then
            match s.set? option value with
            | some s => scan s rest
            | none => .rejected
          else .rejected
        | _, _ => .rejected
  | _ => .rejected

/-- Reads the arguments of the program. -/
def parse (args : List String) : Request := scan .nothing (args.map String.toList)

/-! ## Running -/

/-- The exit code and the lines of output of a run. -/
structure Output where
  exitCode : Nat
  lines : List String
deriving DecidableEq

/-- The line that tells the version. -/
def versionLine : String := "kestrel 0.4.0"

variable [ZobristKeys]

/-- The position to search. -/
def position (s : Settings) : Except Fault (Except InputError Position) := do
  match Position.ofFen s.fen with
  | .error e => return .error e
  | .ok p =>
    let (played, p) ← p.play s.moves
    return played.map fun _ => p

/-- The exit code of a run that a fault stops. -/
def faultCode : Nat := 101

/-- Searches a position as the settings say.  A fault keeps the log written before it. -/
def search (s : Settings) (level : LogLevel) (p : Position) : Output :=
  let config := ⟨s.depth, Table.mebibytes s.hashMebibytes, s.ordering⟩
  let allocation := Report.allocationLine config.tableBytes
  match Engine.create config PawnWeights.standard.score with
  | .error _ => ⟨faultCode, LogLine.shown level [allocation]⟩
  | .ok e =>
    let start := Report.startLine e p
    let course := e.course p
    let log := LogLine.shown level (allocation :: start :: Report.courseLog course)
    match course.answer with
    | .error _ => ⟨faultCode, log⟩
    | .ok (result, _) => ⟨0, log ++ Report.lines result⟩

/-- Runs the program with a log kept at some level. -/
def run (args : List String) (level : LogLevel) : Output :=
  match parse args with
  | .rejected => ⟨2, []⟩
  | .version => ⟨0, [versionLine]⟩
  | .search s =>
    match position s with
    | .error _ => ⟨faultCode, []⟩
    | .ok (.error e) => ⟨1, LogLine.shown level [Report.errorLine e]⟩
    | .ok (.ok p) => search s level p

end CommandLine

end ChessEngine
