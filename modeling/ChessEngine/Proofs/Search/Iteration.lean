import ChessEngine.Proofs.Search.AlphaBeta

/-!
# What an iteration reports

Score, best move and principal variation come from three places: the answer of
the search, a note made at the root alone, and the table, in which other nodes
overwrite what they like.  They agree because a node stores its best move last:
an answer strictly inside the window is what that move earns
(`best_of_alphaBeta`), and the variation starts by looking it up again
(`followTable_spec`).

`Iteration.Reports` is what one iteration owes to its root; `search_spec` has it
for all of them, whatever the table held before.
-/

namespace ChessEngine

/-- A store is found again, whatever it replaced. -/
theorem Table.find?_insert (t : Table) (key : UInt64) (m : Move) :
    (t.insert key m).find? key = some m := by
  simp [find?, insert, slot]

/-- A move that is accepted and worth `v` to the side that makes it, searched to a depth. -/
def Position.Earns [ZobristKeys] (p : Position) (scorer : Scorer) (depth : Nat) (m : Move)
    (v : Int) : Prop :=
  ∃ q, p.make m = .ok (true, q) ∧ q.minimax scorer depth = -v

/-- What an iteration reports of its root: the value as far as the window of the root shows it, a
line of accepted moves, and if the score is a value, a best move that earns it and starts the
line. -/
structure Iteration.Reports [ZobristKeys] (it : Iteration) (scorer : Scorer) (root : Position) :
    Prop where
  value : Agrees (-infiniteScore) infiniteScore it.score (root.minimax scorer it.depth)
  short : it.line.length ≤ it.depth
  playable : ∃ q, root.Played it.line q
  best : root.isDrawn = false → root.successors ≠ [] →
    -infiniteScore < it.score → it.score < infiniteScore →
    ∃ m rest, it.bestMove = some m ∧ it.line = m :: rest ∧ m ∈ root.pseudoMoves ∧
      root.Earns scorer (it.depth - 1) m it.score

/-- A value inside the window of the root is the score. -/
theorem Iteration.Reports.score_of_inside [ZobristKeys] {it : Iteration} {scorer : Scorer}
    {root : Position} {v : Int} (reports : it.Reports scorer root)
    (value : root.minimax scorer it.depth = v) (low : -infiniteScore < v)
    (high : v < infiniteScore) : it.score = v := by
  have agrees := reports.value
  rw [value] at agrees
  exact (agrees.symm.eq_of_inside low high).symm

namespace Engine

open Position

section

variable [ZobristKeys] {p q root : Position} {scorer : Scorer} {depth : Nat}
  {alpha beta : Int} {e e' : Engine} {m : Move}

/-! ## The best move of a node -/

/-- The bound of a loop is raised by the move it takes to be the best. -/
theorem Tried.best {moves : List RankedMove} {progress final : Progress}
    (tried : Tried scorer depth p beta moves progress (.exhausted final)) :
    (final.alpha = progress.alpha ∧ final.best = progress.best) ∨
      ∃ m ∈ moves, final.best = some m.move ∧ p.Earns scorer depth m.move final.alpha := by
  generalize ended : Ending.exhausted final = ending at tried
  induction tried with
  | nil =>
    cases ended
    exact .inl ⟨rfl, rfl⟩
  | perm same _ ih =>
    exact (ih ended).imp_right fun ⟨m, member, best⟩ => ⟨m, same.mem_iff.1 member, best⟩
  | reject _ _ ih =>
    exact (ih ended).imp_right fun ⟨m, member, best⟩ => ⟨m, List.mem_cons_of_mem _ member, best⟩
  | cutoff => cases ended
  | @accept m rest progress _ q score made agrees below _ ih =>
    rcases ih ended with ⟨bound, best⟩ | ⟨m', member, best⟩
    · rw [Progress.accept] at bound best
      split at bound
      next raised =>
        rw [if_pos raised] at best
        refine .inr ⟨m, List.mem_cons_self, best, q, made, ?_⟩
        have worth := agrees.eq_of_inside raised below
        rw [bound]
        show q.minimax scorer depth = -score
        omega
      next same =>
        rw [if_neg same] at best
        exact .inl ⟨bound, best⟩
    · exact .inr ⟨m', List.mem_cons_of_mem _ member, best⟩

omit [ZobristKeys] in
theorem conclude_of_best {final : Progress} {ply : Nat} (legal : final.legal = true)
    (raised : final.alpha ≠ alpha) (best : final.best = some m) :
    conclude alpha ply final e p = (final.alpha, e.remember p m ply, p) := by
  simp [conclude, legal, raised, best]

/-- An answer strictly inside the window is what a legal move earns, and this move is the one that
the table has for the position and, at ply 0, the one that is noted for the root. -/
theorem best_of_alphaBeta {v : Int} {p' : Position} (searchable : p.Searchable (depth + 1))
    (window : Window alpha beta)
    (searched : alphaBeta (depth + 1) e p alpha beta = .ok (v, e', p'))
    (undecided : p.isDrawn = false) (inside : p.ply < maxPly) (moves : p.successors ≠ [])
    (low : alpha < v) (high : v < beta) :
    ∃ m ∈ p.pseudoMoves, p.Earns e.scorer depth m v ∧ e'.table.find? p.hash = some m ∧
      (p.ply = 0 → e'.rootBest = some m) := by
  have verdict := verdict_of_undecided e undecided inside
  obtain ⟨ending, e₁, searched', -, tried⟩ :=
    alphaBeta_succ (sees_alphaBeta e.scorer depth) searchable window verdict
  rw [searched, Except.ok.injEq] at searched'
  cases ending with
  | cutoff =>
    cases searched'
    exact absurd high (Int.lt_irrefl _)
  | exhausted final =>
    have legal : final.legal = true := by
      obtain ⟨q, member⟩ := List.exists_mem_of_ne_nil _ moves
      obtain ⟨-, -, -, counted⟩ := tried.found
      exact counted.2 (.inr ⟨q, leads_candidates.2 member⟩)
    change _ = conclude alpha p.ply final e₁ p at searched'
    have value : v = final.alpha := by
      obtain ⟨e₂, concluded, -⟩ := conclude_eq alpha p p.ply e₁ final
      rw [concluded, Progress.value, if_pos legal] at searched'
      exact congrArg Prod.fst searched'
    rcases tried.best with ⟨unraised, -⟩ | ⟨m, listed, best, earns⟩
    · exact absurd (value.trans unraised) (Int.ne_of_gt low)
    · have raised : final.alpha ≠ alpha := value ▸ Int.ne_of_gt low
      rw [conclude_of_best legal raised best] at searched'
      cases searched'
      refine ⟨m.move, ?_, earns, Table.find?_insert .., fun atRoot => if_pos atRoot⟩
      exact map_move_candidates e p ▸ List.mem_map_of_mem listed

/-! ## The principal variation -/

/-- The move that the table has for a position, if it is generated and accepted, and where it
leads. -/
def tableStep? (e : Engine) (p : Position) : Option (Move × Position) :=
  (e.table.find? p.hash).bind fun m =>
    if m ∈ p.pseudoMoves then (p.after? m).map fun q => (m, q) else none

theorem tableStep?_eq_some :
    e.tableStep? p = some (m, q) ↔
      e.table.find? p.hash = some m ∧ m ∈ p.pseudoMoves ∧ p.make m = .ok (true, q) := by
  unfold tableStep?
  cases e.table.find? p.hash with
  | none => simp
  | some m' =>
    by_cases member : m' ∈ p.pseudoMoves
    · simp only [Option.bind_some, if_pos member, Option.map_eq_some_iff, after?_eq_some]
      constructor
      · rintro ⟨_, made, ⟨⟩⟩
        exact ⟨rfl, member, made⟩
      · rintro ⟨⟨⟩, -, made⟩
        exact ⟨q, made, rfl⟩
    · simp only [Option.bind_some, if_neg member]
      refine iff_of_false nofun ?_
      rintro ⟨⟨⟩, listed, -⟩
      exact member listed

theorem followMoves_of_step {n : Nat} (step : e.tableStep? p = some (m, q)) (played : List Move) :
    followMoves (n + 1) played e p =
      followMoves n (m :: played) { e with table := (e.table.probe p.hash).2 } q := by
  obtain ⟨found, member, made⟩ := tableStep?_eq_some.1 step
  have probed : e.table.probe p.hash = (e.table.find? p.hash, (e.table.probe p.hash).2) := rfl
  rw [followMoves, probed, found]
  simp only [List.contains_iff_mem.2 member, if_true, made, ok_bind]

/-- Where the table is not followed, a move may have been tried and rejected. -/
theorem followMoves_of_none {n : Nat} (roomy : p.Roomy (n + 1)) (step : e.tableStep? p = none)
    (played : List Move) :
    ∃ fullmove, followMoves (n + 1) played e p =
        .ok (played, { e with table := (e.table.probe p.hash).2 }, p.recount fullmove p.ply) ∧
      (p.fullmove.toNat + (n + 1) ≤ 65535 → fullmove = p.fullmove) := by
  have probed : e.table.probe p.hash = (e.table.find? p.hash, (e.table.probe p.hash).2) := rfl
  rw [followMoves, probed]
  cases found : e.table.find? p.hash with
  | none => exact ⟨p.fullmove, rfl, fun _ => rfl⟩
  | some m =>
    by_cases member : m ∈ p.pseudoMoves
    · simp only [List.contains_iff_mem.2 member, if_true]
      rcases roomy.make_cases member with ⟨-, fullmove, rejected, exact⟩ | ⟨q, -, made, -⟩
      · refine ⟨fullmove, ?_, exact⟩
        simp only [rejected, ok_bind, Bool.false_eq_true, if_false, pure_eq_ok]
      · cases step.symm.trans (tableStep?_eq_some.2 ⟨found, member, made⟩)
    · refine ⟨p.fullmove, if_neg ?_, fun _ => rfl⟩
      rwa [List.contains_iff_mem]

/-- The table is followed along a line of accepted moves. -/
theorem followMoves_spec (limit : Nat) (played : List Move) (e : Engine) (p : Position)
    (roomy : p.Roomy limit) :
    ∃ line table q fullmove, followMoves limit played e p =
        .ok (line.reverse ++ played, { e with table }, q.recount fullmove q.ply) ∧
      Played p line q ∧ line.length ≤ limit ∧
      (p.fullmove.toNat + limit ≤ 65535 → fullmove = q.fullmove) ∧
      ∀ m q', 0 < limit → e.tableStep? p = some (m, q') → ∃ rest, line = m :: rest := by
  induction limit generalizing played e p with
  | zero =>
    refine ⟨[], e.table, p, p.fullmove, ?_, .nil, Nat.le_refl _, fun _ => rfl,
      fun _ _ some => absurd some (by omega)⟩
    rw [followMoves]
    rfl
  | succ limit ih =>
    cases step : e.tableStep? p with
    | none =>
      obtain ⟨fullmove, stopped, exact⟩ := followMoves_of_none roomy step played
      exact ⟨[], _, p, fullmove, stopped, .nil, Nat.zero_le _, exact,
        fun _ _ _ some => by cases some⟩
    | some next =>
      obtain ⟨m, q⟩ := next
      obtain ⟨-, member, made⟩ := tableStep?_eq_some.1 step
      rcases roomy.make_cases member with ⟨rejected, -⟩ | ⟨q', after, -, deeper⟩
      · cases rejected.symm.trans (after?_eq_some.2 made)
      · cases after.symm.trans (after?_eq_some.2 made)
        obtain ⟨line, table, r, fullmove, followed, rest, short, exact, -⟩ :=
          ih (m :: played) { e with table := (e.table.probe p.hash).2 } q deeper
        refine ⟨m :: line, table, r, fullmove, ?_, .cons member made rest,
          Nat.succ_le_succ short, fun count => exact ?_, ?_⟩
        · rw [followMoves_of_step step, List.reverse_cons, List.append_assoc]
          exact followed
        · have applied := roomy.firm.applied_of_make member made
          have next := roomy.firm.toNat_fullmove_le member applied
          omega
        · rintro _ _ - ⟨⟩
          exact ⟨line, rfl⟩

/-- The variation is a line of accepted moves, and the position is left as it was, except perhaps
for a number of the move whose counter is full. -/
theorem followTable_spec (e : Engine) (depth : Nat) (roomy : p.Roomy (min depth maxPly)) :
    ∃ line table q fullmove,
      e.followTable p depth = .ok ({ e with table, line }, p.recount fullmove p.ply) ∧
      Played p line q ∧ line.length ≤ depth ∧
      (p.fullmove.toNat + min depth maxPly ≤ 65535 → fullmove = p.fullmove) ∧
      ∀ m q', 0 < depth → e.tableStep? p = some (m, q') → ∃ rest, line = m :: rest := by
  obtain ⟨line, table, q, fullmove, followed, played, short, exact, first⟩ :=
    followMoves_spec (min depth maxPly) [] e p roomy
  obtain ⟨fullmove', back, exact'⟩ := roomy.firm.takeBackMany_played played fullmove
  rw [List.append_nil] at followed
  refine ⟨line, table, q, fullmove', ?_, played, by omega, fun count => ?_,
    fun m q' deep => first m q' ?_⟩
  · rw [followTable, followed, ok_bind]
    simp only [List.length_reverse, back, ok_bind, List.reverse_reverse]
    rfl
  · exact exact' (exact count) (by omega)
  · have plies : maxPly = 64 := rfl
    omega

/-! ## Deepening -/

theorem iteration_spec (e : Engine) (depth : Nat) (searchable : root.Searchable maxPly)
    (count : root.fullmove.toNat + maxPly < 65535) (atRoot : root.ply = 0)
    (inside : depth < maxPly) :
    ∃ it e', e.iteration root (depth + 1) = .ok (it, e', root) ∧ e'.scorer = e.scorer ∧
      it.depth = depth + 1 ∧ it.Reports e.scorer root := by
  have here : root.Searchable (depth + 1) := searchable.mono inside
  obtain ⟨v, e₁, searched, same, agrees⟩ :=
    sees_alphaBeta e.scorer (depth + 1) e root (-infiniteScore) infiniteScore rfl here .root
  obtain ⟨line, table, q, fullmove, followed, played, short, exact, first⟩ :=
    followTable_spec e₁ (depth + 1) (searchable.roomy.mono (Nat.min_le_right _ maxPly))
  cases exact (by omega)
  refine ⟨⟨depth + 1, v, e₁.rootBest, line, e₁.info.nodes⟩, { e₁ with table, line }, ?_, same, rfl,
    agrees, short, ⟨q, played⟩, ?_⟩
  · rw [iteration, searched, ok_bind]
    simp only [followed, ok_bind]
    rfl
  · intro undecided moves low high
    obtain ⟨m, member, earns, found, noted⟩ :=
      best_of_alphaBeta here .root searched undecided (by omega) moves low high
    obtain ⟨r, made, worth⟩ := earns
    obtain ⟨rest, starts⟩ := first m r (by omega) (tableStep?_eq_some.2 ⟨found, member, made⟩)
    exact ⟨m, rest, noted atRoot, starts, member, r, made, worth⟩

/-- An iteration that finds `Inv` keeps it and reports what `Holds` describes. -/
def Iterates (limit : Nat) (Inv : Engine → Position → Prop) (Holds : Iteration → Prop) : Prop :=
  ∀ (depth : Nat) (e : Engine) (q : Position), depth < limit → Inv e q →
    ∃ it e' q', e.iteration q (depth + 1) = .ok (it, e', q') ∧ it.depth = depth + 1 ∧
      Holds it ∧ Inv e' q'

/-- What one iteration keeps and reports, all of them keep and report, in the order of depths. -/
theorem Iterates.run {limit : Nat} {Inv : Engine → Position → Prop}
    {Holds : Iteration → Prop} (step : Iterates limit Inv Holds) (n depth : Nat) (e : Engine)
    (q : Position) (inside : depth + n ≤ limit) (inv : Inv e q) :
    ∃ its e' q', e.deepen q depth n = (its, .ok (e', q')) ∧
      its.map (·.depth) = List.range' (depth + 1) n ∧ (∀ it ∈ its, Holds it) ∧ Inv e' q' := by
  induction n generalizing depth e q with
  | zero => exact ⟨[], e, q, rfl, rfl, List.forall_mem_nil _, inv⟩
  | succ n ih =>
    obtain ⟨it, e₁, q₁, completed, number, holds, inv⟩ := step depth e q (by omega) inv
    obtain ⟨its, e₂, q₂, deepened, numbers, others, inv⟩ := ih (depth + 1) e₁ q₁ (by omega) inv
    refine ⟨it :: its, e₂, q₂, ?_, ?_, List.forall_mem_cons.2 ⟨holds, others⟩, inv⟩
    · rw [deepen, completed]
      simp only [deepened]
    · rw [List.map_cons, number, numbers, List.range'_succ]

theorem deepen_spec (searchable : root.Searchable maxPly)
    (count : root.fullmove.toNat + maxPly < 65535) (atRoot : root.ply = 0) (n depth : Nat)
    (e : Engine) (inside : depth + n ≤ maxPly) :
    ∃ its e', e.deepen root depth n = (its, .ok (e', root)) ∧
      its.map (·.depth) = List.range' (depth + 1) n ∧ ∀ it ∈ its, it.Reports e.scorer root := by
  have step : Iterates maxPly (fun e₁ q => q = root ∧ e₁.scorer = e.scorer)
      (·.Reports e.scorer root) := by
    rintro depth e₁ _ inside ⟨rfl, scored⟩
    obtain ⟨it, e₂, completed, same, number, reports⟩ :=
      iteration_spec e₁ depth searchable count atRoot inside
    exact ⟨it, e₂, _, completed, number, scored ▸ reports, rfl, same.trans scored⟩
  obtain ⟨its, e', _, deepened, numbers, reports, rfl, -⟩ :=
    step.run n depth e root inside ⟨rfl, rfl⟩
  exact ⟨its, e', deepened, numbers, reports⟩

/-! ## The answer of a search -/

/-- A search answers with the best move noted last, or else with the first legal move. -/
def bestAnswer (p : Position) (iterations : List Iteration) : Option Move :=
  iterations.getLast?.bind fun last => last.bestMove.or (p.legalAmong p.pseudoMoves).head?

theorem chooseMove_restores (roomy : p.Roomy 1) (iterations : List Iteration) :
    Restores 1 (chooseMove p iterations.getLast?) (bestAnswer p iterations) p := by
  unfold chooseMove bestAnswer
  cases iterations.getLast? with
  | none => exact .pure
  | some last =>
    dsimp only [Option.bind_some]
    cases last.bestMove with
    | some m => exact .pure
    | none => exact roomy.firstAccepted fun _ => id

theorem answer_spec (roomy : p.Roomy 1) (e : Engine) (score : Int) (iterations : List Iteration) :
    ∃ r fullmove, e.answer p score iterations = .ok (r, e, p.recount fullmove p.ply) ∧
      (p.fullmove.toNat + 1 ≤ 65535 → fullmove = p.fullmove) ∧
      r.iterations = iterations ∧ r.bestMove = bestAnswer p iterations := by
  obtain ⟨fullmove, chosen, exact⟩ := chooseMove_restores roomy iterations
  simp only [answer, chosen, ok_bind]
  exact ⟨_, fullmove, rfl, exact, rfl, rfl⟩

theorem search_of_answer {r : SearchResult} {its : List Iteration} {q' : Position}
    (deepened : e.reset.deepen (p.setPly 0) 0 e.iterationCount = (its, .ok (e', q)))
    (answered : e'.answer q (e.reset.scorer (p.setPly 0)) its = .ok (r, e', q')) :
    e.search p = .ok (r, e', q'.setPly p.ply) := by
  have counted : e.reset.iterationCount = e.iterationCount := rfl
  simp only [search, course, counted, deepened, ok_bind, answered]
  rfl

theorem search_spec (e : Engine) (searchable : p.Searchable maxPly)
    (count : p.fullmove.toNat + maxPly < 65535) :
    ∃ r e', e.search p = .ok (r, e', p) ∧
      r.iterations.map (·.depth) = List.range' 1 (min e.config.depth maxPly) ∧
      ∀ it ∈ r.iterations, it.Reports e.scorer (p.setPly 0) := by
  obtain ⟨its, e', deepened, numbers, reports⟩ :=
    deepen_spec (searchable.setPly 0) count rfl e.iterationCount 0 e.reset
      (Nat.zero_add _ ▸ Nat.min_le_right e.config.depth maxPly)
  obtain ⟨r, fullmove, answered, exact, same, -⟩ := answer_spec
    ((searchable.setPly 0).roomy.mono (by decide)) e' (e.reset.scorer (p.setPly 0)) its
  cases exact (Nat.le_trans (Nat.add_le_add_left (by decide) _) (Nat.le_of_lt count))
  have searched := search_of_answer deepened answered
  exact ⟨r, e', searched, same ▸ numbers, same ▸ reports⟩

/-- The search and its caller count plies differently, and nothing else. -/
theorem reports_of_root {it : Iteration} (firm : p.Firm)
    (reports : it.Reports scorer (p.setPly 0)) :
    (∃ q, p.Played it.line q) ∧
      (p.successors ≠ [] → p.isDrawn = false →
        -infiniteScore < it.score → it.score < infiniteScore →
        ∃ m rest, it.bestMove = some m ∧ it.line = m :: rest ∧ m ∈ p.pseudoMoves ∧
          (p.setPly 0).Earns scorer (it.depth - 1) m it.score) := by
  obtain ⟨-, -, ⟨q, played⟩, best⟩ := reports
  have rooted : (p.setPly 0).Firm := firm.recount p.fullmove 0
  refine ⟨?_, fun moves undecided => best undecided ?_⟩
  · obtain ⟨fullmove, ply, played⟩ := rooted.played_recount played p.fullmove p.ply
    exact ⟨_, played⟩
  · obtain ⟨r, member⟩ := List.exists_mem_of_ne_nil _ moves
    obtain ⟨m, listed, made⟩ := mem_successors.1 member
    exact List.ne_nil_of_mem
      (mem_successors.2 ⟨m, listed, firm.make_recount listed made p.fullmove 0⟩)

end

/-- A search completes all its iterations and leaves the position as it was.  Each reports a line of
accepted moves that is not longer than its depth; and if a legal move is searched for and the score
is a value, the best move is a legal one that starts the line, and the position after it is worth
exactly the opposite of the score.  Neither the size of the table nor what it loses has a say in
it. -/
theorem iterations_of_search [ZobristKeys] {p : Position} (reachable : p.Reachable) (e : Engine)
    (room : p.history.size + 64 ≤ historyCapacity) (count : p.fullmove.toNat + 64 < 65535) :
    ∃ r e', e.search p = .ok (r, e', p) ∧
      r.iterations.map (·.depth) = List.range' 1 (min e.config.depth 64) ∧
      ∀ it ∈ r.iterations, it.line.length ≤ it.depth ∧ (∃ q, p.Played it.line q) ∧
        (p.successors ≠ [] → p.isDrawn = false →
          -infiniteScore < it.score → it.score < infiniteScore →
          ∃ m rest q, it.bestMove = some m ∧ it.line = m :: rest ∧ m ∈ p.pseudoMoves ∧
            (p.setPly 0).make m = .ok (true, q) ∧
            q.minimax e.scorer (it.depth - 1) = -it.score) := by
  have grounded := reachable.grounded
  obtain ⟨r, e', searched, depths, reports⟩ :=
    search_spec e ⟨grounded, room, Nat.le_of_lt count⟩ count
  refine ⟨r, e', searched, depths, fun it member => ?_⟩
  obtain ⟨playable, best⟩ := reports_of_root grounded.firm (reports it member)
  refine ⟨(reports it member).short, playable, fun moves undecided low high => ?_⟩
  obtain ⟨m, rest, reported, starts, listed, q, made, value⟩ := best moves undecided low high
  exact ⟨m, rest, q, reported, starts, listed, made, value⟩

end Engine

/-! ## A mate to rehearse -/

namespace Rehearsal

/-- White, to move, mates with the rook on the back rank. -/
def corner : Setup where
  pieces := [(41, ⟨.white, .king⟩), (7, ⟨.white, .rook⟩), (56, ⟨.black, .king⟩)]
  side := .white
  rights := .none
  enPassant := none
  fifty := 0
  fullmove := 50

/-- The position before the mate. -/
def beforeMate : Position := corner.toPosition.toOption.get (by decide +kernel)

theorem reachable_beforeMate : beforeMate.Reachable :=
  ⟨corner, beforeMate, eq_ok_get _, .refl⟩

theorem searchable_beforeMate : beforeMate.Searchable maxPly :=
  ⟨reachable_beforeMate.grounded, by decide +kernel, by decide +kernel⟩

end Rehearsal

namespace Engine

/-- The second iteration sees the mate, which is a score inside the window of the root. -/
theorem iterations_of_rehearsal : ∃ r e' it m rest q,
    (Engine.new ⟨2, 24, true⟩ Position.materialScore).search Rehearsal.beforeMate =
      .ok (r, e', Rehearsal.beforeMate) ∧ it ∈ r.iterations ∧ it.depth = 2 ∧ it.score = 28999 ∧
      it.bestMove = some m ∧ it.line = m :: rest ∧ m ∈ Rehearsal.beforeMate.pseudoMoves ∧
      (Rehearsal.beforeMate.setPly 0).make m = .ok (true, q) ∧
      q.minimax Position.materialScore 1 = -28999 := by
  obtain ⟨r, e', searched, depths, iterations⟩ := iterations_of_search
    Rehearsal.reachable_beforeMate (Engine.new ⟨2, 24, true⟩ Position.materialScore)
    (by decide +kernel) (by decide +kernel)
  have second : 2 ∈ r.iterations.map (·.depth) := by
    rw [depths]
    decide
  obtain ⟨it, member, depth⟩ := List.mem_map.1 second
  have score : it.score = 28999 := by
    obtain ⟨r', e'', searched', -, reports⟩ := search_spec
      (Engine.new ⟨2, 24, true⟩ Position.materialScore) Rehearsal.searchable_beforeMate
      (by decide +kernel)
    cases searched.symm.trans searched'
    have value : (Rehearsal.beforeMate.setPly 0).minimax Position.materialScore it.depth =
        28999 := by
      rw [depth]
      decide +kernel
    exact (reports it member).score_of_inside value (by decide) (by decide)
  obtain ⟨m, rest, q, best, starts, listed, made, worth⟩ := (iterations it member).2.2
    (by decide +kernel) (by decide +kernel) (by rw [score]; decide) (by rw [score]; decide)
  rw [depth, score] at worth
  exact ⟨r, e', it, m, rest, q, searched, member, depth, score, best, starts, listed, made, worth⟩

end Engine

end ChessEngine
