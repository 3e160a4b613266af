import ChessEngine.Proofs.Play
import ChessEngine.Proofs.Position.Collision

/-!
# Texts that go on after the history is full

A history has room for a fixed number of moves, and trying a move takes a place in it
too.  So a text that is played to the last place fails with the next word, unless this
word is found wrong before any move is tried.  `play_eq_error_iff_of_fen` says that
nothing else makes playing a text fail.

Such texts exist: from a diagram that came back, the same moves can be played again
(`Grounded.played_rounds`), for as long as there is room.
-/

namespace ChessEngine

namespace Position

section

variable [ZobristKeys] {p q : Position} {m : Move} {moves : List Move} {word : String}
  {words : List String}

/-! ## A full history -/

theorem Firm.make_of_full (firm : p.Firm) (member : m ∈ p.pseudoMoves)
    (full : p.history.size = historyCapacity) : p.make m = .error .historyFull := by
  obtain ⟨mover, shape⟩ := firm.shape_of_mem member
  have origin : p.pieceOn m.origin = some mover := (shape.carries firm.sound).origin
  have recorded : p.record m = .error .historyFull := by
    unfold Position.record History.push
    rw [if_neg (by omega)]
    rfl
  unfold Position.make Position.apply
  rw [origin]
  dsimp only
  rw [recorded]
  rfl

/-- With a full history no word can be compared with the legal moves. -/
theorem Firm.resolve_of_full (firm : p.Firm) (full : p.history.size = historyCapacity)
    (wellFormed : MoveText.WellFormed word) (generated : p.pseudoMoves ≠ []) :
    p.resolve word = .error .historyFull := by
  obtain ⟨parts, read⟩ := MoveText.wellFormed_iff.1 wellFormed
  have fails : p.legalMoves = .error .historyFull := by
    unfold Position.legalMoves
    cases listed : p.pseudoMoves with
    | nil => exact absurd listed generated
    | cons m rest =>
      have member : m ∈ p.pseudoMoves := listed ▸ List.mem_cons_self
      unfold Position.retainAccepted Position.accepts
      rw [firm.make_of_full member full]
      rfl
  unfold Position.resolve MoveText.parse
  rw [read]
  dsimp only
  rw [fails]
  rfl

/-- No move is tried for a word of another form, nor where there is none to try. -/
theorem resolve_of_untried (untried : ¬ MoveText.WellFormed word ∨ p.pseudoMoves = []) :
    ∃ e, p.resolve word = .ok (.error e, p) := by
  unfold Position.resolve MoveText.parse
  cases read : MoveText.parse? word with
  | none => exact ⟨_, rfl⟩
  | some parts =>
    rcases untried with illFormed | nothing
    · exact absurd (MoveText.wellFormed_iff.2 ⟨parts, read⟩) illFormed
    · refine ⟨.illegalMove word, ?_⟩
      unfold Position.legalMoves
      rw [nothing]
      rfl

/-! ## Overruns -/

/-- The words start with a line of legal moves that fills the history, and the next word makes it
necessary to try another move. -/
def Overruns (p : Position) (words : List String) : Prop :=
  ∃ moves q word rest, Played p moves q ∧ q.history.size = historyCapacity ∧
    words = moves.map Move.text ++ word :: rest ∧ MoveText.WellFormed word ∧ q.pseudoMoves ≠ []

theorem Grounded.playWords_of_overruns (grounded : p.Grounded) (overruns : p.Overruns words) :
    p.playWords words = .error .historyFull := by
  obtain ⟨moves, q, word, rest, played, full, rfl, wellFormed, generated⟩ := overruns
  have firm := (grounded.of_reaches played.reaches).firm
  have size := grounded.size_of_played played
  obtain ⟨fullmove, after, -⟩ :=
    grounded.firm.playWords_after played (by omega) (word :: rest)
  have fails := (firm.recount fullmove q.ply).resolve_of_full full wellFormed generated
  rw [after]
  show ((q.recount fullmove q.ply).playWords (word :: rest) >>= fun r => _) = _
  rw [playWords_cons, fails]
  rfl

/-- Where nothing overruns, playing the words has an answer. -/
theorem Grounded.playWords_of_not_overruns (grounded : p.Grounded)
    (fits : ¬ p.Overruns words) : ∃ answer q, p.playWords words = .ok (answer, q) := by
  obtain ⟨k, greatest⟩ := p.exists_isGreatest_spells words
  obtain ⟨inside, moves, q, played, same⟩ := greatest.1
  have firm := (grounded.of_reaches played.reaches).firm
  have bound := (grounded.of_reaches played.reaches).size_le
  have size := grounded.size_of_played played
  obtain ⟨fullmove, after, -⟩ := grounded.firm.playWords_after played (by omega) (words.drop k)
  rw [same, List.take_append_drop] at after
  cases rest : words.drop k with
  | nil =>
    rw [rest] at after
    exact ⟨_, _, after⟩
  | cons word rest' =>
    have next : words[k]? = some word := by
      rw [← List.head?_drop, rest]
      rfl
    have stopped : ∃ e fullmove', (q.recount fullmove q.ply).resolve word =
        .ok (.error e, q.recount fullmove' q.ply) := by
      rcases Nat.lt_or_eq_of_le bound with room | full
      · have roomy : (q.recount fullmove q.ply).Roomy 1 := ⟨firm.recount _ _, room⟩
        have unwritten := unwritten_of_isGreatest greatest played same next
        obtain ⟨e, fullmove', resolved, -⟩ := roomy.resolve_misnamed fun m legal =>
          unwritten m ((firm.legal_recount_iff fullmove q.ply).1 legal)
        exact ⟨e, fullmove', resolved⟩
      · have untried : ¬ MoveText.WellFormed word ∨ q.pseudoMoves = [] := by
          by_contra tried
          obtain ⟨wellFormed, generated⟩ := not_or.1 tried
          refine fits ⟨moves, q, word, rest', played, full, ?_, not_not.1 wellFormed, generated⟩
          rw [same, ← rest, List.take_append_drop]
        obtain ⟨e, resolved⟩ :=
          resolve_of_untried (show _ ∨ (q.recount fullmove q.ply).pseudoMoves = [] from untried)
        exact ⟨e, fullmove, resolved⟩
    obtain ⟨e, fullmove', resolved⟩ := stopped
    rw [rest] at after
    exact ⟨_, _, after.trans (andThen_playWords resolved moves rest')⟩

/-! ## Moves played again -/

theorem Grounded.played_of_sameDiagram {r : Position} (left : p.Grounded) (right : q.Grounded)
    (same : p.SameDiagram q) (played : Played q moves r)
    (room : p.history.size + moves.length ≤ historyCapacity) :
    ∃ r', Played p moves r' ∧ r'.SameDiagram r := by
  induction played generalizing p with
  | nil => exact ⟨p, .nil, same⟩
  | cons member made _ ih =>
    rw [List.length_cons] at room
    have member' := left.firm.mem_of_sameDiagram right.firm same member
    obtain ⟨p', made', same'⟩ :=
      left.firm.make_of_sameDiagram right.firm same member made (by omega)
    obtain ⟨applied, next⟩ := left.apply_of_make member' made'
    have size := left.firm.size_of_apply member' applied
    obtain ⟨r', played', alike⟩ :=
      ih next (right.apply_of_make member made).2 same' (by omega)
    exact ⟨r', .cons member' made' played', alike⟩

/-- Moves that lead back to the same diagram can be played over and over. -/
theorem Grounded.played_rounds (grounded : p.Grounded) (played : Played p moves q)
    (same : q.SameDiagram p) (n : Nat)
    (room : p.history.size + n * moves.length ≤ historyCapacity) :
    ∃ r, Played p (List.replicate n moves).flatten r ∧ r.SameDiagram p := by
  induction n with
  | zero => exact ⟨p, .nil, .refl p⟩
  | succ n ih =>
    rw [Nat.succ_mul] at room
    obtain ⟨r, before, back⟩ := ih (by omega)
    have size := grounded.size_of_played before
    rw [List.length_flatten, List.map_replicate, List.sum_replicate_nat] at size
    obtain ⟨r', again, back'⟩ := (grounded.of_reaches before.reaches).played_of_sameDiagram
      grounded back played (by omega)
    refine ⟨r', ?_, back'.trans same⟩
    rw [List.replicate_succ', List.flatten_concat]
    exact before.append again

end

/-- In a position that was read from a text, playing another text fails exactly if it overruns the
history; every other text, however long, is answered, and so is each of no more words than the
history has places. -/
theorem play_eq_error_iff_of_fen [ZobristKeys] {fen : String} {p : Position}
    (read : ofFen fen = .ok p) (text : String) :
    (p.play text = .error .historyFull ↔ p.Overruns (Text.words text)) ∧
      (¬ p.Overruns (Text.words text) → ∃ answer q, p.play text = .ok (answer, q)) ∧
      ((Text.words text).length ≤ historyCapacity → ∃ answer q, p.play text = .ok (answer, q)) := by
  obtain ⟨grounded, unplayed⟩ := grounded_of_fen read
  have answered : ¬ p.Overruns (Text.words text) → ∃ answer q, p.play text = .ok (answer, q) :=
    grounded.playWords_of_not_overruns
  refine ⟨⟨fun fails => ?_, grounded.playWords_of_overruns⟩, answered, fun short => answered ?_⟩
  · by_contra fits
    obtain ⟨answer, q, succeeds⟩ := answered fits
    cases fails.symm.trans succeeds
  · intro ⟨moves, q, word, rest, played, full, cut, _⟩
    have size := grounded.size_of_played played
    have none : p.history.size = 0 := by rw [unplayed]; rfl
    rw [cut, List.length_append, List.length_map, List.length_cons] at short
    omega

end Position

/-! ## Kings that walk on -/

namespace KingsWalk

/-- Two kings, and nothing that ends the game. -/
def fen : String := "4k3/8/8/8/8/8/8/4K3 w - - 0 1"

/-- Both kings step aside and back. -/
def round : List Move := [.plain 4 3, .plain 60 59, .plain 3 4, .plain 59 60]

/-- So many rounds fill the history. -/
def line : List Move := (List.replicate 512 round).flatten

/-- The line and one move more, as a text. -/
def text : String := Move.lineText (line ++ [.plain 4 3])

def start : Position := (Position.ofFen fen).toOption.get (by decide +kernel)

/-- The position after one round. -/
def last : Position := (start.follow? round).get (by decide +kernel)

theorem read : Position.ofFen fen = .ok start := eq_ok_get _

theorem played : Position.Played start round last :=
  Position.played_of_follow? (Option.some_get _).symm

theorem sameDiagram : last.SameDiagram start where
  board := by
    funext s
    revert s
    decide +kernel
  side := by decide +kernel
  rights := by decide +kernel
  enPassant := by decide +kernel

/-- The last move of the text would be as legal as the first. -/
theorem overruns : start.Overruns (Text.words text) := by
  obtain ⟨grounded, unplayed⟩ := Position.grounded_of_fen read
  obtain ⟨q, line_played, same⟩ :=
    grounded.played_rounds played sameDiagram 512 (by rw [unplayed]; decide)
  have firm := (grounded.of_reaches line_played.reaches).firm
  have size := grounded.size_of_played line_played
  refine ⟨line, q, "e1d1", [], line_played, ?_, ?_, MoveText.wellFormed_iff.2 ⟨_, rfl⟩, ?_⟩
  · rw [size, unplayed]
    decide +kernel
  · rw [text, Move.words_lineText, List.map_append]
    decide +kernel
  · have member : Move.plain 4 3 ∈ start.pseudoMoves := by decide +kernel
    exact List.ne_nil_of_mem (firm.mem_of_sameDiagram grounded.firm same member)

end KingsWalk

namespace Position

/-- As many moves as the history has places are played, and one more is not. -/
theorem play_at_capacity :
    (∃ answer q, KingsWalk.start.play (Move.lineText KingsWalk.line) = .ok (answer, q)) ∧
      KingsWalk.start.play KingsWalk.text = .error .historyFull := by
  have short : (Text.words (Move.lineText KingsWalk.line)).length ≤ historyCapacity := by
    rw [Move.words_lineText]
    decide +kernel
  obtain ⟨-, -, answered⟩ :=
    play_eq_error_iff_of_fen KingsWalk.read (Move.lineText KingsWalk.line)
  obtain ⟨overrun_iff, -⟩ := play_eq_error_iff_of_fen KingsWalk.read KingsWalk.text
  exact ⟨answered short, overrun_iff.2 KingsWalk.overruns⟩

/-- A position read from a text, and a text of well-formed words that has no answer there. -/
theorem play_of_kingsWalk :
    ofFen KingsWalk.fen = .ok KingsWalk.start ∧
      ¬ ∃ answer q, KingsWalk.start.play KingsWalk.text = .ok (answer, q) := by
  refine ⟨KingsWalk.read, fun ⟨answer, q, played⟩ => ?_⟩
  have fails := (grounded_of_fen KingsWalk.read).1.playWords_of_overruns KingsWalk.overruns
  cases fails.symm.trans played

end Position

end ChessEngine
