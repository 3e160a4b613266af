import ChessEngine.Search.Engine

/-!
# Reporting a search

The report that ends a search and the log lines that accompany it.  A search
that a fault stops has no report, but the log of what it completed stays.
-/

namespace ChessEngine

/-- How serious a log line is, and how much of the log is wanted. -/
inductive LogLevel where
  | off
  | error
  | warn
  | info
  | debug
  | trace
deriving DecidableEq

namespace LogLevel

/-- The number of a level: the more of the log is wanted the higher. -/
def rank : LogLevel → Nat
  | off => 0
  | error => 1
  | warn => 2
  | info => 3
  | debug => 4
  | trace => 5

/-- The name of a level in log lines. -/
def name : LogLevel → String
  | off => "OFF"
  | error => "ERROR"
  | warn => "WARN"
  | info => "INFO"
  | debug => "DEBUG"
  | trace => "TRACE"

/-- Whether a log kept at level `wanted` shows lines of this level. -/
def shownAt (level wanted : LogLevel) : Bool := level.rank ≤ wanted.rank

end LogLevel

/-- A line of the log. -/
structure LogLine where
  level : LogLevel
  /-- The part of the program that speaks. -/
  source : String
  message : String
deriving DecidableEq

namespace LogLine

/-- A log line as it is printed. -/
def text (l : LogLine) : String := s!"{l.level.name} {l.source}: {l.message}"

/-- The texts of the lines that a log kept at some level shows. -/
def shown (wanted : LogLevel) (log : List LogLine) : List String :=
  (log.filter fun l => l.level.shownAt wanted).map text

end LogLine

namespace Report

/-- Fills a text up to a width with blanks on the left. -/
def padLeft (width : Nat) (text : String) : String :=
  String.ofList (List.replicate (width - text.length) ' ') ++ text

/-- The text of an optional move in a log line. -/
def moveOrHyphen : Option Move → String
  | some m => m.text
  | none => "-"

/-! ## The log -/

/-- The part of the program that reports on searches. -/
def searchSource : String := "kestrel::search::iterative_deepening"

/-- The part of the program that reports on tables. -/
def tableSource : String := "kestrel::search::transposition_table"

/-- The line about a table of some bytes that is to be allocated. -/
def allocationLine (bytes : Nat) : LogLine :=
  let entries := Table.slotsIn bytes
  ⟨.debug, tableSource, s!"allocating transposition table bytes={bytes} entries={entries}"⟩

/-- The line about the start of a search. -/
def startLine (e : Engine) (p : Position) : LogLine :=
  let depth := e.iterationCount
  let entries := e.table.size
  let ordering := e.config.ordering
  let hash := p.hash.toNat
  let settings := s!"max_depth={depth} tt_entries={entries} move_ordering={ordering}"
  ⟨.debug, searchSource, s!"starting search {settings} hash={hash}"⟩

/-- The line about a finished iteration. -/
def iterationLine (i : Iteration) : LogLine :=
  let best := moveOrHyphen i.bestMove
  let line := Move.lineText i.line
  let numbers := s!"depth={i.depth} score={i.score} nodes={i.nodes}"
  ⟨.info, searchSource, s!"iteration complete {numbers} best_move={best} pv={line}"⟩

/-- The line about a root that is drawn by rule and got its first legal move. -/
def fallbackLines (r : SearchResult) : List LogLine :=
  match r.iterations.getLast?, r.bestMove with
  | some last, some m =>
    let reason := "root is drawn by rule, falling back to first legal move"
    if last.bestMove.isNone then [⟨.debug, searchSource, s!"{reason} mv={m.text}"⟩] else []
  | _, _ => []

/-- The log lines about the course of a search. -/
def courseLog (c : Engine.Course) : List LogLine :=
  c.iterations.map iterationLine ++
    match c.answer with
    | .ok (result, _) => fallbackLines result
    | .error _ => []

/-- The line about input that cannot be searched. -/
def errorLine (err : InputError) : LogLine :=
  let text := err.message
  ⟨.error, "kestrel", s!"cannot search position err={text}"⟩

/-! ## The report -/

/-- The line of an iteration. -/
def iterationText (i : Iteration) : String :=
  let depth := padLeft 2 (toString i.depth)
  let score := padLeft 6 (toString i.score)
  let nodes := padLeft 10 (toString i.nodes)
  let line := Move.lineText i.line
  s!"depth {depth}  score {score}  nodes {nodes}  pv {line}"

/-- The line of the move found. -/
def bestMoveText : Option Move → String
  | some m => s!"bestmove {m.text}"
  | none => "bestmove (none)"

/-- The lines that report a search. -/
def lines (r : SearchResult) : List String :=
  r.iterations.map iterationText ++ bestMoveText r.bestMove :: r.info.lines

end Report

end ChessEngine
