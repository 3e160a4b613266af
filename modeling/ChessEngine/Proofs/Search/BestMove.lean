import ChessEngine.Proofs.Search.Iteration

/-!
# The best move of a search

A best move is noted in passing: by the node at ply 0, if a move raises its bound.
A root that is drawn by rule notes nothing, nor does one whose moves all stay
outside the window, and what an earlier iteration has noted stands.  Two facts are
enough for all of these.  Whatever is noted is legal at the root (`Notes`), and a
search that has noted nothing looks for a legal move itself (`bestAnswer_spec`).

`Settles` is what every part of a search owes to the position that it is run on.
Nothing here depends on scores or the table, and of windows it matters only that
their bounds have opposites.
-/

namespace ChessEngine

namespace Engine

open Position

/-- Nothing but the given moves is noted for the root. -/
def Notes (legal : List Move) (e : Engine) : Prop := ∀ m, e.rootBest = some m → m ∈ legal

/-- Nothing but the given moves is taken to be the best by a loop. -/
def Ending.Picks (legal : List Move) : Ending → Prop
  | .cutoff => True
  | .exhausted final => ∀ m, final.best = some m → m ∈ legal

/-- `x` answers what `Holds` describes and leaves `p` as it was.  The number of the move is lost
where its counter is full. -/
def Settles {α : Type} (x : Except Fault (Answer α)) (p : Position) (Holds : α → Engine → Prop) :
    Prop :=
  ∃ a e fullmove, x = .ok (a, e, p.recount fullmove p.ply) ∧ Holds a e

/-- It does not matter what has become of the number of the move before. -/
theorem Settles.of_recount {α : Type} {x : Except Fault (Answer α)} {p : Position}
    {Holds : α → Engine → Prop} {fullmove : Counter}
    (settles : Settles x (p.recount fullmove p.ply) Holds) : Settles x p Holds :=
  settles

section

variable [ZobristKeys] {p root : Position} {depth ply n : Nat} {legal noted : List Move}
  {e : Engine} {m : Move}

/-! ## The loop over the moves of a node -/

omit [ZobristKeys] in
theorem Notes.learn (notes : e.Notes legal) : (e.learn p m ply n).Notes legal := by
  unfold Engine.learn
  split
  · exact notes
  · exact notes

omit [ZobristKeys] in
theorem Ending.Picks.start (alpha : Int) : (exhausted ⟨alpha, none, false⟩).Picks legal := by
  intro m best
  cases best

omit [ZobristKeys] in
theorem Ending.Picks.accept {progress : Progress} (picks : (exhausted progress).Picks legal)
    (member : m ∈ legal) (score : Int) : (exhausted (progress.accept m score)).Picks legal := by
  intro b best
  unfold Progress.accept at best
  split at best
  · cases best
    exact member
  · exact picks b best

/-- The legal moves are the same whatever the number of the move is. -/
theorem legal_recount (firm : p.Firm) (same : p.legalAmong p.pseudoMoves = legal)
    (fullmove : Counter) (ply : Nat) :
    (p.recount fullmove ply).legalAmong (p.recount fullmove ply).pseudoMoves = legal :=
  (firm.legalAmong_recount (fun _ => id) fullmove ply).trans same

/-- The moves that are accepted are the ones a loop can pick; below them nothing is noted. -/
theorem tryMoves_settles {child : Engine → Position → Int → Int → Except Fault (Answer Int)}
    (settles : ∀ e q alpha beta, q.Roomy depth → q.ply ≠ 0 → Window alpha beta → e.Notes noted →
      Settles (child e q alpha beta) q fun _ e' => e'.Notes noted)
    (ply n count : Nat) (beta : Int) (moves : List RankedMove) (progress : Progress)
    (e : Engine) (p : Position) (window : Window progress.alpha beta)
    (roomy : p.Roomy (depth + 1))
    (same : p.legalAmong p.pseudoMoves = legal)
    (generated : ∀ m ∈ moves, m.move ∈ p.pseudoMoves)
    (picks : (Ending.exhausted progress).Picks legal) (notes : e.Notes noted) :
    Settles (tryMoves child ply n beta count moves progress e p) p fun ending e' =>
      ending.Picks legal ∧ e'.Notes noted := by
  induction count generalizing moves progress e p with
  | zero => exact ⟨.exhausted progress, e, p.fullmove, rfl, picks, notes⟩
  | succ count ih =>
    cases picked : (if e.config.ordering then selectBest moves else moves) with
    | nil =>
      rw [tryMoves, picked]
      exact ⟨.exhausted progress, e, p.fullmove, rfl, picks, notes⟩
    | cons first rest =>
      obtain ⟨member, others⟩ := forall_of_pick picked generated
      obtain ⟨m, rank⟩ := first
      rcases roomy.make_cases member with ⟨-, fullmove, rejected, -⟩ | ⟨q, -, made, deeper⟩
      · rw [tryMoves_reject picked rejected]
        have run := ih rest progress e.countNode.countInvalid _ window
          (roomy.recount fullmove p.ply)
          (legal_recount roomy.firm same fullmove p.ply) others picks notes
        exact run.of_recount
      · have below : q.ply ≠ 0 := by
          rw [(roomy.firm.of_mem_successors (mem_successors.2 ⟨m, member, made⟩)).2]
          exact Nat.succ_ne_zero _
        obtain ⟨value, e', fullmove, seen, notes'⟩ :=
          settles e.countNode q (-beta) (-progress.alpha) deeper below window.flip notes
        have back := roomy.firm.takeBack_of_make member made fullmove
        rw [tryMoves_accept picked made back window seen]
        by_cases cut : beta ≤ -value
        · rw [if_pos cut]
          exact ⟨.cutoff, _, _, rfl, trivial, notes'.learn⟩
        · rw [if_neg cut]
          have among : m ∈ legal := same ▸ mem_legalAmong.2 ⟨member, q, made⟩
          have run := ih rest (progress.accept m (-value)) e' _
            (window.accept m (Int.not_le.1 cut))
            (roomy.recount (Basis.fullmoveBefore fullmove p.side) p.ply)
            (legal_recount roomy.firm same _ p.ply) others (picks.accept among (-value)) notes'
          exact run.of_recount

/-! ## One node -/

omit [ZobristKeys] in
/-- What a node notes was picked by its loop, and only the root notes anything. -/
theorem Ending.Picks.answer {ending : Ending} (picks : ending.Picks legal)
    (atRoot : p.ply = 0 → legal = noted) (notes : e.Notes noted) (alpha beta : Int) :
    ∃ e', ending.answer alpha beta e p = (ending.value beta p, e', p) ∧ e'.Notes noted := by
  cases ending with
  | cutoff => exact ⟨e, rfl, notes⟩
  | exhausted final =>
    obtain ⟨e', concluded, -, kept | ⟨root, best⟩⟩ := conclude_eq alpha p p.ply e final
    · exact ⟨e', concluded, fun m found => notes m (kept ▸ found)⟩
    · exact ⟨e', concluded, fun m found => atRoot root ▸ picks m (best ▸ found)⟩

/-- A search notes legal moves of the root, whatever its window is. -/
theorem alphaBeta_settles (depth : Nat) (e : Engine) (p : Position) (alpha beta : Int)
    (window : Window alpha beta) (roomy : p.Roomy depth)
    (atRoot : p.ply = 0 → p.legalAmong p.pseudoMoves = noted) (notes : e.Notes noted) :
    Settles (alphaBeta depth e p alpha beta) p fun _ e' => e'.Notes noted := by
  induction depth generalizing e p alpha beta with
  | zero => exact ⟨e.scorer p, e, p.fullmove, rfl, notes⟩
  | succ depth ih =>
    cases verdict : e.verdict? p with
    | some answer =>
      obtain ⟨value, info⟩ := answer
      rw [alphaBeta, verdict]
      exact ⟨value, _, p.fullmove, rfl, notes⟩
    | none =>
      have notes' : (e.candidates p).2.Notes noted := by
        unfold candidates
        split
        · exact notes
        · exact notes
      obtain ⟨ending, e', fullmove, run, picks, notes''⟩ :=
        tryMoves_settles (fun e q alpha beta deeper below window => ih e q alpha beta window deeper
          fun root => absurd root below) p.ply (depth + 1) _ beta _ ⟨alpha, none, false⟩ _ p window
          roomy rfl (generated_of_candidates e p) (.start alpha) notes'
      obtain ⟨e'', answered, noted⟩ :=
        picks.answer (p := p.recount fullmove p.ply) atRoot notes'' alpha beta
      exact ⟨_, e'', fullmove, (alphaBeta_of_tryMoves fullmove verdict run).trans
        (congrArg Except.ok answered), noted⟩

/-! ## Deepening -/

theorem iteration_settles (e : Engine) (depth : Nat) (roomy : root.Roomy depth)
    (same : root.legalAmong root.pseudoMoves = noted) (notes : e.Notes noted) :
    Settles (e.iteration root depth) root fun it e' =>
      (it.depth = depth ∧ ∀ m, it.bestMove = some m → m ∈ noted) ∧ e'.Notes noted := by
  obtain ⟨v, e₁, fullmove, searched, notes'⟩ :=
    alphaBeta_settles depth e root (-infiniteScore) infiniteScore .root roomy (fun _ => same) notes
  have roomy' := (roomy.recount fullmove root.ply).mono (Nat.min_le_left depth maxPly)
  obtain ⟨line, table, q, fullmove', followed, -⟩ := followTable_spec e₁ depth roomy'
  refine ⟨⟨depth, v, e₁.rootBest, line, e₁.info.nodes⟩, { e₁ with table, line }, fullmove', ?_,
    ⟨rfl, notes'⟩, notes'⟩
  rw [iteration, searched, ok_bind]
  simp only [followed, ok_bind]
  rfl

/-- However many iterations there are, they report legal moves of the root. -/
theorem deepen_settles (depth n : Nat) (e : Engine) (roomy : root.Roomy maxPly)
    (same : root.legalAmong root.pseudoMoves = noted) (notes : e.Notes noted)
    (inside : depth + n ≤ maxPly) :
    ∃ its e' fullmove, e.deepen root depth n =
        (its, .ok (e', root.recount fullmove root.ply)) ∧
      its.map (·.depth) = List.range' (depth + 1) n ∧
      ∀ it ∈ its, ∀ m, it.bestMove = some m → m ∈ noted := by
  have step : Iterates maxPly
      (fun e₁ q => (∃ fullmove, q = root.recount fullmove root.ply) ∧ e₁.Notes noted)
      (fun it => ∀ m, it.bestMove = some m → m ∈ noted) := by
    rintro depth e₁ _ inside ⟨⟨fullmove, rfl⟩, notes⟩
    obtain ⟨it, e₂, fullmove', completed, ⟨number, best⟩, notes'⟩ :=
      iteration_settles e₁ (depth + 1) ((roomy.recount fullmove root.ply).mono inside)
        (legal_recount roomy.firm same fullmove root.ply) notes
    exact ⟨it, e₂, _, completed, number, best, ⟨fullmove', rfl⟩, notes'⟩
  obtain ⟨its, e', _, deepened, numbers, best, ⟨fullmove, rfl⟩, -⟩ :=
    step.run n depth e root inside ⟨⟨root.fullmove, rfl⟩, notes⟩
  exact ⟨its, e', fullmove, deepened, numbers, best⟩

/-! ## The answer of a search -/

omit [ZobristKeys] in
theorem length_of_depths {its : List Iteration} {n : Nat}
    (numbers : its.map (·.depth) = List.range' 1 n) : its.length = n := by
  rw [← List.length_map, numbers, List.length_range']

/-- A best move that was noted is answered with, and without one the first legal move is. -/
theorem bestAnswer_spec {its : List Iteration} (completed : its ≠ [])
    (same : p.legalAmong p.pseudoMoves = legal)
    (best : ∀ it ∈ its, ∀ m, it.bestMove = some m → m ∈ legal) :
    (∀ m, bestAnswer p its = some m → m ∈ legal) ∧ (bestAnswer p its = none → legal = []) := by
  rw [bestAnswer, List.getLast?_eq_getLast_of_ne_nil completed, Option.bind_some, same]
  refine ⟨fun m answered => ?_, fun missing => ?_⟩
  · rcases Option.or_eq_some_iff.1 answered with found | ⟨-, first⟩
    · exact best _ (List.getLast_mem completed) m found
    · exact List.mem_of_head? first
  · exact List.head?_eq_none_iff.1 (Option.or_eq_none_iff.1 missing).2

end

/-- A search answers with a legal move if there is one, and otherwise with none: also where the
root is drawn by rule, and where no score lies in the window of the root.  It completes an
iteration for each depth up to the one it is configured for, in order. -/
theorem bestMove_of_search [ZobristKeys] {p : Position} (reachable : p.Reachable) (e : Engine)
    (deep : 1 ≤ e.config.depth) (room : p.history.size + 64 ≤ historyCapacity) :
    ∃ r e' fullmove, e.search p = .ok (r, e', p.recount fullmove p.ply) ∧
      (∀ m, r.bestMove = some m → m ∈ p.pseudoMoves ∧ ∃ q, p.make m = .ok (true, q)) ∧
      (r.bestMove = none ↔ ¬ ∃ m ∈ p.pseudoMoves, ∃ q, p.make m = .ok (true, q)) ∧
      r.iterations.map (·.depth) = List.range' 1 (min e.config.depth 64) := by
  have roomy : p.Roomy maxPly := ⟨reachable.grounded.firm, room⟩
  obtain ⟨its, e', fullmove, deepened, numbers, best⟩ :=
    deepen_settles 0 e.iterationCount e.reset (roomy.recount p.fullmove 0)
      (legal_recount roomy.firm rfl p.fullmove 0) (fun _ => nofun)
      (Nat.zero_add _ ▸ Nat.min_le_right e.config.depth maxPly)
  have completed : its ≠ [] := by
    have count : its.length = min e.config.depth maxPly := length_of_depths numbers
    have plies : maxPly = 64 := rfl
    rw [ne_eq, ← List.length_eq_zero_iff]
    omega
  obtain ⟨r, fullmove', answered, -, iterations, answer⟩ :=
    answer_spec ((roomy.recount fullmove 0).mono (by decide)) e' (e.reset.scorer (p.setPly 0)) its
  obtain ⟨legal, missing⟩ :=
    bestAnswer_spec completed (legal_recount roomy.firm rfl fullmove 0) best
  rw [← answer] at legal missing
  have searched := search_of_answer deepened answered
  refine ⟨r, e', fullmove', searched, fun m found => mem_legalAmong.1 (legal m found),
    ⟨?_, fun stuck => ?_⟩, iterations ▸ numbers⟩
  · rintro none ⟨m, member, made⟩
    have among := mem_legalAmong.2 ⟨member, made⟩
    rw [missing none] at among
    cases among
  · refine Option.eq_none_iff_forall_ne_some.2 fun m found => stuck ?_
    exact ⟨m, mem_legalAmong.1 (legal m found)⟩

end Engine

namespace DrawnRoot

/-- A hundred half-moves without capture or pawn move, and a counter of moves that is full. -/
def setup : Setup where
  pieces := [(4, ⟨.white, .king⟩), (0, ⟨.white, .rook⟩), (60, ⟨.black, .king⟩)]
  side := .black
  rights := .none
  enPassant := none
  fifty := 100
  fullmove := 65535

def start : Position := setup.toPosition.toOption.get (by decide +kernel)

theorem reachable : start.Reachable := ⟨setup, start, eq_ok_get _, .refl⟩

end DrawnRoot

namespace Engine

/-- The root is not searched, and there is an answer all the same. -/
theorem bestMove_of_drawnRoot : DrawnRoot.start.isDrawn = true ∧ ∃ r e' fullmove m,
    (Engine.new ⟨3, 24, true⟩ Position.materialScore).search DrawnRoot.start =
      .ok (r, e', DrawnRoot.start.recount fullmove 0) ∧
    r.bestMove = some m ∧ m ∈ DrawnRoot.start.pseudoMoves ∧
    r.iterations.map (·.depth) = [1, 2, 3] := by
  refine ⟨by decide +kernel, ?_⟩
  obtain ⟨r, e', fullmove, searched, legal, missing, depths⟩ := bestMove_of_search
    DrawnRoot.reachable (Engine.new ⟨3, 24, true⟩ Position.materialScore) (by decide)
    (by decide +kernel)
  have moves : DrawnRoot.start.successors ≠ [] := by decide +kernel
  obtain ⟨q, member⟩ := List.exists_mem_of_ne_nil _ moves
  obtain ⟨m, listed, made⟩ := Position.mem_successors.1 member
  obtain ⟨best, found⟩ := Option.ne_none_iff_exists'.1 fun none =>
    missing.1 none ⟨m, listed, q, made⟩
  exact ⟨r, e', fullmove, best, searched, found, (legal best found).1, depths⟩

end Engine

end ChessEngine
