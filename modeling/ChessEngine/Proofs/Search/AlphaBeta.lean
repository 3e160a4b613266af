import ChessEngine.Proofs.Position.Safety
import ChessEngine.Proofs.Position.Trial
import ChessEngine.Proofs.Search.Picking
import ChessEngine.Proofs.Search.Value

/-!
# Alpha-beta finds the value

`Searchable depth p` leaves room for a search of that depth below `p`, and is
what one move of the search hands on: `Searchable.make_cases` says that a
generated move either changes nothing or leads to a position that is searchable
one ply less and can be taken back exactly.

A node hands its bounds on with the sign changed.  The lowest word has no opposite,
so a `Window` leaves it out; then the windows of all nodes below do so too
(`Window.flip`, `Window.accept`), whatever the scorer answers.

`Sees` states what a search of a depth answers.  From it `tryMoves_tried` derives
the course of the loop over the moves of a node, which `Tried` describes move by
move; `Tried.found` reads the value of the node off it, and `sees_alphaBeta`
closes the induction on the depth.  What the engine has learned enters nowhere:
it decides in which order moves are tried, not which.
-/

namespace ChessEngine

namespace Position

variable [ZobristKeys] {p q : Position} {m : Move} {depth : Nat}

/-- A position of a game with room for a number of further moves. -/
structure Searchable (depth : Nat) (p : Position) : Prop where
  grounded : p.Grounded
  room : p.history.size + depth ≤ historyCapacity
  count : p.fullmove.toNat + depth ≤ 65535

theorem Searchable.mono {n : Nat} (searchable : p.Searchable n) (less : depth ≤ n) :
    p.Searchable depth := by
  obtain ⟨grounded, room, count⟩ := searchable
  exact ⟨grounded, by omega, by omega⟩

/-- The number of plies plays no part. -/
theorem Searchable.setPly (searchable : p.Searchable depth) (ply : Nat) :
    (p.setPly ply).Searchable depth :=
  ⟨searchable.grounded.recount p.fullmove ply, searchable.room, searchable.count⟩

theorem Searchable.roomy (searchable : p.Searchable depth) : p.Roomy depth :=
  ⟨searchable.grounded.firm, searchable.room⟩

/-- A generated move changes nothing, or leads on and can be taken back. -/
theorem Searchable.make_cases (searchable : p.Searchable (depth + 1))
    (member : m ∈ p.pseudoMoves) :
    p.make m = .ok (false, p) ∨
      ∃ q, p.make m = .ok (true, q) ∧ q.takeBack = .ok p ∧ q.Searchable depth := by
  obtain ⟨grounded, room, count⟩ := searchable
  have firm := grounded.firm
  have notFull : p.fullmove ≠ 65535 := by
    intro full
    rw [full] at count
    exact absurd count (by simp)
  obtain ⟨accepted, q, made⟩ := firm.make member (by omega)
  rcases firm.make_cases member made with ⟨rfl, applied⟩ | ⟨rfl, rejected⟩
  · have back := firm.takeBack_apply member applied
    rw [rejected_eq_self notFull] at back
    refine .inr ⟨q, made, back, grounded.of_apply member applied, ?_, ?_⟩
    · rw [firm.size_of_apply member applied]
      omega
    · have step := firm.toNat_fullmove_le member applied
      omega
  · rw [rejected, rejected_eq_self notFull] at made
    exact .inl made

end Position

namespace Engine

open Position

/-! ## Windows -/

/-- Two bounds in order, both of them words of 32 bits that have an opposite. -/
structure Window (alpha beta : Int) : Prop where
  low : -2147483648 < alpha
  ordered : alpha < beta
  high : beta ≤ 2147483647

namespace Window

variable {alpha beta : Int}

/-- The window of an iteration. -/
theorem root : Window (-infiniteScore) infiniteScore := by
  constructor <;> decide

/-- The same window from the other side. -/
theorem flip (window : Window alpha beta) : Window (-beta) (-alpha) := by
  obtain ⟨low, ordered, high⟩ := window
  exact ⟨by omega, by omega, by omega⟩

theorem negate_alpha (window : Window alpha beta) : negateBound alpha = .ok (-alpha) :=
  negateBound_eq_neg window.low (Int.le_trans (Int.le_of_lt window.ordered) window.high)

theorem negate_beta (window : Window alpha beta) : negateBound beta = .ok (-beta) :=
  negateBound_eq_neg (Int.lt_trans window.low window.ordered) window.high

end Window

section

variable [ZobristKeys] {p q : Position} {scorer : Scorer} {depth ply : Nat} {alpha beta : Int}

/-- What is asked of a search of some depth: an answer that agrees with the value in the window,
and the position as it was. -/
def Sees (scorer : Scorer) (depth : Nat)
    (search : Engine → Position → Int → Int → Except Fault (Answer Int)) : Prop :=
  ∀ (e : Engine) (p : Position) (alpha beta : Int), e.scorer = scorer → p.Searchable depth →
    Window alpha beta → ∃ v e', search e p alpha beta = .ok (v, e', p) ∧ e'.scorer = scorer ∧
      Agrees alpha beta v (p.minimax scorer depth)

/-! ## The loop over the moves of a node -/

/-- The position after one of the given moves, if it is accepted. -/
def Leads (p : Position) (moves : List RankedMove) (q : Position) : Prop :=
  ∃ m ∈ moves, p.make m.move = .ok (true, q)

/-- What the loop over `moves` finds that starts with `progress`. -/
def Found (scorer : Scorer) (depth : Nat) (p : Position) (beta : Int) (moves : List RankedMove)
    (progress : Progress) : Ending → Prop
  | .cutoff => ∃ q, Leads p moves q ∧ beta ≤ -q.minimax scorer depth
  | .exhausted final =>
    progress.alpha ≤ final.alpha ∧ final.alpha < beta ∧
      (∀ a, progress.alpha ≤ a → a < beta →
        (final.alpha ≤ a ↔ ∀ q, Leads p moves q → -q.minimax scorer depth ≤ a)) ∧
      (final.legal = true ↔ progress.legal = true ∨ ∃ q, Leads p moves q)

section

variable {moves rest : List RankedMove} {m : RankedMove} {progress : Progress} {ending : Ending}

theorem leads_cons : Leads p (m :: rest) q ↔ p.make m.move = .ok (true, q) ∨ Leads p rest q := by
  unfold Leads
  rw [List.exists_mem_cons_iff]

theorem not_leads_nil : ¬ Leads p [] q := by
  rintro ⟨m, member, -⟩
  cases member

theorem Found.nil (below : progress.alpha < beta) :
    Found scorer depth p beta [] progress (.exhausted progress) := by
  refine ⟨Int.le_refl _, below, fun a atLeast _ => ?_, ?_⟩
  · exact iff_of_true atLeast fun q leads => absurd leads not_leads_nil
  · exact (or_iff_left fun ⟨q, leads⟩ => not_leads_nil leads).symm

/-- What is found depends on the positions that the moves lead to alone. -/
theorem Found.congr {moves' : List RankedMove} (leads : ∀ q, Leads p moves' q ↔ Leads p moves q)
    (found : Found scorer depth p beta moves' progress ending) :
    Found scorer depth p beta moves progress ending := by
  have same : Leads p moves' = Leads p moves := funext fun q => propext (leads q)
  cases ending with
  | cutoff =>
    unfold Found at found ⊢
    rwa [same] at found
  | exhausted final =>
    unfold Found at found ⊢
    rwa [same] at found

theorem Found.perm {moves' : List RankedMove} (same : moves'.Perm moves)
    (found : Found scorer depth p beta moves' progress ending) :
    Found scorer depth p beta moves progress ending :=
  found.congr fun _ => exists_congr fun _ => and_congr_left' same.mem_iff

/-- A rejected move adds nothing. -/
theorem Found.reject (rejected : p.make m.move = .ok (false, p))
    (found : Found scorer depth p beta rest progress ending) :
    Found scorer depth p beta (m :: rest) progress ending :=
  found.congr fun q => by
    rw [leads_cons, rejected]
    simp

/-- An accepted move raises the bound to its score. -/
theorem Found.accept {score : Int} {next : Progress} (made : p.make m.move = .ok (true, q))
    (agrees : Agrees progress.alpha beta score (-q.minimax scorer depth))
    (raised : next.alpha = max progress.alpha score) (counted : next.legal = true)
    (found : Found scorer depth p beta rest next ending) :
    Found scorer depth p beta (m :: rest) progress ending := by
  cases ending with
  | cutoff =>
    obtain ⟨r, leads, high⟩ := found
    exact ⟨r, leads_cons.2 (.inr leads), high⟩
  | exhausted final =>
    obtain ⟨rise, below, best, legal⟩ := found
    refine ⟨by omega, below, fun a atLeast atMost => ?_, ?_⟩
    · have here := agrees a atLeast atMost
      -- Below the raised bound the score itself is what exceeds `a`; from there on it does not.
      by_cases reached : next.alpha ≤ a
      · rw [best a reached atMost]
        constructor
        · intro others r leads
          rcases leads_cons.1 leads with made' | leads
          · rw [made] at made'
            cases made'
            exact here.1 (by omega)
          · exact others r leads
        · exact fun all r leads => all r (leads_cons.2 (.inr leads))
      · refine iff_of_false (by omega) fun all => ?_
        have first := here.2 (all q (leads_cons.2 (.inl made)))
        omega
    · exact iff_of_true (legal.2 (.inl counted)) (.inr ⟨q, leads_cons.2 (.inl made)⟩)

/-! ## One move of the loop -/

/-- What is known after an accepted move with the given score. -/
def Progress.accept (progress : Progress) (m : Move) (score : Int) : Progress :=
  if progress.alpha < score then ⟨score, some m, true⟩ else { progress with legal := true }

omit [ZobristKeys] in
theorem Progress.alpha_accept (progress : Progress) (m : Move) (score : Int) :
    (progress.accept m score).alpha = max progress.alpha score := by
  unfold accept
  split
  · show score = _
    omega
  · show progress.alpha = _
    omega

omit [ZobristKeys] in
/-- A move that is not good enough for a cutoff leaves a window. -/
theorem Window.accept {progress : Progress} (window : Window progress.alpha beta) (m : Move)
    {score : Int} (below : score < beta) : Window (progress.accept m score).alpha beta := by
  obtain ⟨low, ordered, high⟩ := window
  have raised := progress.alpha_accept m score
  exact ⟨by omega, by omega, by omega⟩

omit [ZobristKeys] in
theorem Progress.legal_accept (progress : Progress) (m : Move) (score : Int) :
    (progress.accept m score).legal = true := by
  unfold accept
  split <;> rfl

variable {child : Engine → Position → Int → Int → Except Fault (Answer Int)} {e e' : Engine}
  {p' q' : Position} {n count rank : Nat} {value : Int} {move : Move}

theorem tryMoves_reject {rank : Int}
    (picked : (if e.config.ordering then selectBest moves else moves) = ⟨move, rank⟩ :: rest)
    (rejected : p.make move = .ok (false, p')) :
    tryMoves child ply n beta (count + 1) moves progress e p =
      tryMoves child ply n beta count rest progress e.countNode.countInvalid p' := by
  rw [tryMoves, picked]
  simp only [rejected, ok_bind]
  rfl

theorem tryMoves_accept {rank : Int}
    (picked : (if e.config.ordering then selectBest moves else moves) = ⟨move, rank⟩ :: rest)
    (made : p.make move = .ok (true, q)) (back : q'.takeBack = .ok p')
    (window : Window progress.alpha beta)
    (seen : child e.countNode q (-beta) (-progress.alpha) = .ok (value, e', q')) :
    tryMoves child ply n beta (count + 1) moves progress e p =
      if beta ≤ -value then .ok (.cutoff, e'.learn p' move ply n, p')
      else tryMoves child ply n beta count rest (progress.accept move (-value)) e' p' := by
  rw [tryMoves, picked, Progress.accept]
  simp only [made, window.negate_beta, window.negate_alpha, seen, back, ok_bind, if_true]
  by_cases raise : progress.alpha < -value
  · rw [if_pos raise, if_pos raise]
    rfl
  · rw [if_neg raise, if_neg raise]
    rfl

omit [ZobristKeys] in
theorem perm_of_pick (e : Engine) (moves : List RankedMove) :
    (if e.config.ordering then selectBest moves else moves).Perm moves := by
  split
  · exact selectBest_perm moves
  · exact .refl _

omit [ZobristKeys] in
/-- While moves are left, one is picked and the others stay. -/
theorem exists_pick (e : Engine) (size : moves.length = count + 1) :
    ∃ m rank rest, (if e.config.ordering then selectBest moves else moves) = ⟨m, rank⟩ :: rest ∧
      rest.length = count ∧ (⟨m, rank⟩ :: rest : List RankedMove).Perm moves := by
  have perm := perm_of_pick e moves
  cases picked : (if e.config.ordering then selectBest moves else moves) with
  | nil =>
    rw [picked] at perm
    rw [← perm.length_eq] at size
    cases size
  | cons first rest =>
    rw [picked] at perm
    have length : rest.length = count := Nat.succ.inj (perm.length_eq.trans size)
    exact ⟨first.move, first.rank, rest, rfl, length, perm⟩

omit [ZobristKeys] in
/-- What holds of all moves holds of the one that is picked and of the others. -/
theorem forall_of_pick {P : RankedMove → Prop} {first : RankedMove}
    (picked : (if e.config.ordering then selectBest moves else moves) = first :: rest)
    (all : ∀ m ∈ moves, P m) : P first ∧ ∀ m ∈ rest, P m := by
  have perm := perm_of_pick e moves
  rw [picked] at perm
  exact List.forall_mem_cons.1 fun m member => all m (perm.mem_iff.1 member)

omit [ZobristKeys] in
theorem scorer_learn {e : Engine} {n : Nat} {m : Move} :
    (e.learn p m ply n).scorer = e.scorer := by
  unfold learn
  split <;> rfl

/-! ## The whole loop -/

/-- The course of the loop over `moves` that starts with `progress`, whatever the order in which
moves are picked. -/
inductive Tried (scorer : Scorer) (depth : Nat) (p : Position) (beta : Int) :
    List RankedMove → Progress → Ending → Prop
  | nil {progress : Progress} : progress.alpha < beta →
    Tried scorer depth p beta [] progress (.exhausted progress)
  | perm {moves moves' : List RankedMove} {progress : Progress} {ending : Ending} :
    moves'.Perm moves → Tried scorer depth p beta moves' progress ending →
    Tried scorer depth p beta moves progress ending
  | reject {m : RankedMove} {rest : List RankedMove} {progress : Progress} {ending : Ending} :
    p.make m.move = .ok (false, p) → Tried scorer depth p beta rest progress ending →
    Tried scorer depth p beta (m :: rest) progress ending
  | cutoff {m : RankedMove} {rest : List RankedMove} {progress : Progress} {q : Position} :
    p.make m.move = .ok (true, q) → beta ≤ -q.minimax scorer depth →
    Tried scorer depth p beta (m :: rest) progress .cutoff
  | accept {m : RankedMove} {rest : List RankedMove} {progress : Progress} {ending : Ending}
    {q : Position} {score : Int} : p.make m.move = .ok (true, q) →
    Agrees progress.alpha beta score (-q.minimax scorer depth) → score < beta →
    Tried scorer depth p beta rest (progress.accept m.move score) ending →
    Tried scorer depth p beta (m :: rest) progress ending

theorem Tried.found (tried : Tried scorer depth p beta moves progress ending) :
    Found scorer depth p beta moves progress ending := by
  induction tried with
  | nil below => exact .nil below
  | perm same _ ih => exact ih.perm same
  | reject rejected _ ih => exact ih.reject rejected
  | cutoff made high => exact ⟨_, leads_cons.2 (.inl made), high⟩
  | @accept m _ progress _ _ score made agrees _ _ ih =>
    exact ih.accept made agrees (progress.alpha_accept m.move score)
      (progress.legal_accept m.move score)

/-- The loop tries its moves to the end or finds one that is good enough. -/
theorem tryMoves_tried {child : Engine → Position → Int → Int → Except Fault (Answer Int)}
    (sees : Sees scorer depth child) (searchable : p.Searchable (depth + 1)) (ply count : Nat)
    (progress : Progress) {e : Engine} (moves : List RankedMove) (size : moves.length = count)
    (same : e.scorer = scorer) (generated : ∀ m ∈ moves, m.move ∈ p.pseudoMoves)
    (window : Window progress.alpha beta) :
    ∃ ending e', tryMoves child ply (depth + 1) beta count moves progress e p =
        .ok (ending, e', p) ∧ e'.scorer = scorer ∧
      Tried scorer depth p beta moves progress ending := by
  induction count generalizing moves progress e with
  | zero =>
    rw [List.length_eq_zero_iff] at size
    subst size
    exact ⟨_, e, rfl, same, .nil window.ordered⟩
  | succ count ih =>
    obtain ⟨m, rank, rest, picked, length, perm⟩ := exists_pick e size
    obtain ⟨member, others⟩ := forall_of_pick picked generated
    rcases searchable.make_cases member with rejected | ⟨q, made, back, deeper⟩
    · obtain ⟨ending, e', run, same', tried⟩ := ih progress
        (e := e.countNode.countInvalid) rest length same others window
      refine ⟨ending, e', ?_, same', .perm perm (.reject rejected tried)⟩
      rw [tryMoves_reject picked rejected, run]
    · obtain ⟨value, e', seen, same', agrees⟩ := sees e.countNode q (-beta) (-progress.alpha)
        same deeper window.flip
      rw [tryMoves_accept picked made back window seen]
      by_cases cut : beta ≤ -value
      · refine ⟨.cutoff, e'.learn p m ply (depth + 1), if_pos cut, ?_,
          .perm perm (.cutoff made (agrees.neg.le_right window.ordered cut))⟩
        rw [scorer_learn, same']
      · have below : -value < beta := Int.not_le.1 cut
        obtain ⟨ending, e', run, same', tried⟩ := ih (progress.accept m (-value)) rest length
          same' others (window.accept m below)
        refine ⟨ending, e', ?_, same', .perm perm (.accept made agrees.neg below tried)⟩
        rw [if_neg cut, run]

end

/-! ## One node -/

omit [ZobristKeys] in
/-- A node is drawn by rule, too deep, or searched. -/
theorem verdict_cases (e : Engine) (p : Position) :
    p.isDrawn = true ∧ (∃ info, e.verdict? p = some (0, info)) ∨
      p.isDrawn = false ∧ maxPly ≤ p.ply ∧ (∃ info, e.verdict? p = some (e.scorer p, info)) ∨
      p.isDrawn = false ∧ p.ply < maxPly ∧ e.verdict? p = none := by
  unfold verdict?
  by_cases repeated : p.isRepetition = true
  · exact .inl ⟨by simp [isDrawn, repeated], _, if_pos repeated⟩
  · rw [if_neg repeated]
    by_cases stale : fiftyMoveLimit ≤ p.fifty
    · exact .inl ⟨by simp [isDrawn, stale], _, if_pos stale⟩
    · have undecided : p.isDrawn = false := by simp [isDrawn, repeated, stale]
      have plies : maxPly = 64 := rfl
      rw [if_neg stale]
      by_cases last : maxPly - 1 < p.ply
      · exact .inr (.inl ⟨undecided, by omega, _, if_pos last⟩)
      · exact .inr (.inr ⟨undecided, by omega, if_neg last⟩)

omit [ZobristKeys] in
theorem verdict_of_undecided (e : Engine) (undecided : p.isDrawn = false)
    (inside : p.ply < maxPly) : e.verdict? p = none := by
  rcases verdict_cases e p with ⟨drawn, -⟩ | ⟨-, last, -⟩ | ⟨-, -, verdict⟩
  · rw [undecided] at drawn
    cases drawn
  · omega
  · exact verdict

omit [ZobristKeys] in
/-- The candidates are the generated moves, whatever the table and the ordering hold. -/
theorem map_move_candidates (e : Engine) (p : Position) :
    (e.candidates p).1.map (·.move) = p.pseudoMoves := by
  unfold candidates
  split
  · exact MoveOrdering.map_move_rankMoves ..
  · rw [List.map_map]
    exact List.map_id' _

omit [ZobristKeys] in
theorem generated_of_candidates (e : Engine) (p : Position) :
    ∀ m ∈ (e.candidates p).1, m.move ∈ p.pseudoMoves := fun _ member =>
  map_move_candidates e p ▸ List.mem_map_of_mem member

omit [ZobristKeys] in
theorem scorer_candidates (e : Engine) (p : Position) :
    (e.candidates p).2.scorer = e.scorer := by
  unfold candidates
  split <;> rfl

theorem leads_candidates {e : Engine} : Leads p (e.candidates p).1 q ↔ q ∈ p.successors := by
  rw [mem_successors, ← map_move_candidates e p]
  constructor
  · rintro ⟨m, member, made⟩
    exact ⟨m.move, List.mem_map_of_mem member, made⟩
  · rintro ⟨_, member, made⟩
    obtain ⟨m, listed, rfl⟩ := List.mem_map.1 member
    exact ⟨m, listed, made⟩

/-- The answer of a node whose moves were all tried. -/
def Progress.value (progress : Progress) (p : Position) (ply : Nat) : Int :=
  if progress.legal then progress.alpha else noMoveScore p ply

omit [ZobristKeys] in
/-- A best move is noted for the root only at ply 0. -/
theorem conclude_eq (alpha : Int) (p : Position) (ply : Nat) (e : Engine) (progress : Progress) :
    ∃ e', conclude alpha ply progress e p = (progress.value p ply, e', p) ∧
      e'.scorer = e.scorer ∧
      (e'.rootBest = e.rootBest ∨ ply = 0 ∧ e'.rootBest = progress.best) := by
  unfold conclude Progress.value
  cases progress.legal with
  | false => exact ⟨e, rfl, rfl, .inl rfl⟩
  | true =>
    simp only [Bool.not_true, Bool.false_eq_true, if_false, if_true]
    split
    · split
      · next m best =>
        refine ⟨_, rfl, rfl, ?_⟩
        by_cases atRoot : ply = 0
        · exact .inr ⟨atRoot, (if_pos atRoot).trans best.symm⟩
        · exact .inl (if_neg atRoot)
      · exact ⟨e, rfl, rfl, .inl rfl⟩
    · exact ⟨e, rfl, rfl, .inl rfl⟩

/-- What a node answers after its loop. -/
def Ending.value (beta : Int) (p : Position) : Ending → Int
  | .cutoff => beta
  | .exhausted final => final.value p p.ply

/-- What the loop over all moves found is the value of the node. -/
theorem Found.agrees {moves : List RankedMove} {ending : Ending}
    (found : Found scorer depth p beta moves ⟨alpha, none, false⟩ ending)
    (leads : ∀ q, Leads p moves q ↔ q ∈ p.successors) (undecided : p.isDrawn = false)
    (inside : p.ply < maxPly) :
    Agrees alpha beta (ending.value beta p) (p.minimax scorer (depth + 1)) := by
  cases ending with
  | cutoff =>
    obtain ⟨q, leading, high⟩ := found
    have member := (leads q).1 leading
    have best : -q.minimax scorer depth ≤ p.minimax scorer (depth + 1) :=
      (minimax_le_iff undecided inside (List.ne_nil_of_mem member)).1 (Int.le_refl _) q member
    exact .of_le (Int.le_refl _) (Int.le_trans high best)
  | exhausted final =>
    obtain ⟨-, -, best, legal⟩ := found
    show Agrees alpha beta (final.value p p.ply) _
    unfold Progress.value
    cases tried : final.legal with
    | false =>
      have stuck : p.successors = [] := by
        refine List.eq_nil_iff_forall_not_mem.2 fun q member => ?_
        rw [legal.2 (.inr ⟨q, (leads q).2 member⟩)] at tried
        cases tried
      rw [minimax_of_stuck undecided inside stuck]
      exact .refl
    | true =>
      have moves : p.successors ≠ [] := by
        rcases legal.1 tried with ⟨⟨⟩⟩ | ⟨q, leading⟩
        exact List.ne_nil_of_mem ((leads q).1 leading)
      intro a low high
      rw [if_pos rfl, best a low high, minimax_le_iff undecided inside moves]
      exact forall_congr' fun q => imp_congr_left (leads q)

/-- What a node answers with what its loop leaves. -/
def Ending.answer (alpha beta : Int) (e : Engine) (p : Position) : Ending → Answer Int
  | .cutoff => (beta, e, p)
  | .exhausted final => conclude alpha p.ply final e p

omit [ZobristKeys] in
theorem Ending.answer_eq (alpha beta : Int) (e : Engine) (p : Position) (ending : Ending) :
    ∃ e', ending.answer alpha beta e p = (ending.value beta p, e', p) ∧
      e'.scorer = e.scorer := by
  cases ending with
  | cutoff => exact ⟨e, rfl, rfl⟩
  | exhausted final =>
    obtain ⟨e', concluded, same, -⟩ := conclude_eq alpha p p.ply e final
    exact ⟨e', concluded, same⟩

/-- A node that is searched answers with what the loop over its candidates leaves. -/
theorem alphaBeta_of_tryMoves {e e' : Engine} {ending : Ending} (fullmove : Counter)
    (verdict : e.verdict? p = none)
    (run : tryMoves (alphaBeta depth) p.ply (depth + 1) beta (e.candidates p).1.length
      (e.candidates p).1 ⟨alpha, none, false⟩ (e.candidates p).2 p =
        .ok (ending, e', p.recount fullmove p.ply)) :
    alphaBeta (depth + 1) e p alpha beta =
      .ok (ending.answer alpha beta e' (p.recount fullmove p.ply)) := by
  rw [alphaBeta, verdict]
  rcases picked : e.candidates p with ⟨moves, e₁⟩
  rw [picked] at run
  simp only [run, ok_bind]
  cases ending <;> rfl

/-- A node that is searched tries its candidates. -/
theorem alphaBeta_succ {e : Engine} (sees : Sees e.scorer depth (alphaBeta depth))
    (searchable : p.Searchable (depth + 1)) (window : Window alpha beta)
    (verdict : e.verdict? p = none) :
    ∃ ending e', alphaBeta (depth + 1) e p alpha beta = .ok (ending.answer alpha beta e' p) ∧
      e'.scorer = e.scorer ∧
      Tried e.scorer depth p beta (e.candidates p).1 ⟨alpha, none, false⟩ ending := by
  obtain ⟨ending, e', run, same, tried⟩ :=
    tryMoves_tried sees searchable p.ply _ ⟨alpha, none, false⟩ (e.candidates p).1 rfl
      (scorer_candidates e p) (generated_of_candidates e p) window
  exact ⟨ending, e', alphaBeta_of_tryMoves p.fullmove verdict run, same, tried⟩

/-! ## The search -/

theorem sees_alphaBeta (scorer : Scorer) : ∀ depth, Sees scorer depth (alphaBeta depth)
  | 0, e, p, alpha, beta, same, _, _ => by
      subst same
      exact ⟨_, e, rfl, rfl, .refl⟩
  | depth + 1, e, p, alpha, beta, same, searchable, window => by
      subst same
      rcases verdict_cases e p with
        ⟨drawn, info, verdict⟩ | ⟨undecided, last, info, verdict⟩ | ⟨undecided, inside, verdict⟩
      · rw [alphaBeta, verdict]
        exact ⟨0, _, rfl, rfl, minimax_of_drawn drawn ▸ .refl⟩
      · rw [alphaBeta, verdict]
        exact ⟨e.scorer p, _, rfl, rfl, minimax_of_maxPly_le undecided last ▸ .refl⟩
      · obtain ⟨ending, e', searched, same, tried⟩ :=
          alphaBeta_succ (sees_alphaBeta e.scorer depth) searchable window verdict
        obtain ⟨e'', answered, same'⟩ := ending.answer_eq alpha beta e' p
        have agrees := tried.found.agrees (fun _ => leads_candidates) undecided inside
        exact ⟨_, e'', searched.trans (congrArg Except.ok answered), same'.trans same, agrees⟩

end

end Engine

end ChessEngine
