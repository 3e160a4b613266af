import ChessEngine.Proofs.Search.Iteration
import ChessEngine.Search.Runs

/-!
# Nothing leaks from one search into the next

A search forgets what was learned before it starts.  What it cannot forget is what
`Kept` lists: the configuration, the scorer and the number of slots of the table.
No part of a search changes any of these, whatever position it is given and whether
or not its moves can be made, so that an engine that has been used resets to a new
one (`Kept.reset_eq_new`).
-/

namespace ChessEngine

namespace Table

variable (t : Table) (key : UInt64) (m : Move)

theorem size_insert : (t.insert key m).size = t.size := Array.size_set (t.slot key).isLt

theorem size_ofSize (size : Nat) : (ofSize size).size = max size 1 := Array.size_replicate

theorem size_ofBytes (bytes : Nat) : (ofBytes bytes).size = slotsIn bytes := by
  rw [ofBytes, size_ofSize, slotsIn]
  omega

end Table

namespace Engine

variable {config : SearchConfig} {scorer : Scorer} {e e' : Engine} {p p' : Position}
  {m : Move} {ply depth : Nat}

/-- The parts of an engine that are not forgotten are those of a new one. -/
structure Kept (config : SearchConfig) (scorer : Scorer) (e : Engine) : Prop where
  size : e.table.size = Table.slotsIn config.tableBytes
  config : e.config = config
  scorer : e.scorer = scorer

/-- Whatever the computation answers, the engine that it leaves has kept its parts. -/
def Keeps {α : Type} (config : SearchConfig) (scorer : Scorer) (x : Except Fault (Answer α)) :
    Prop :=
  ∀ a e p, x = .ok (a, e, p) → e.Kept config scorer

theorem Kept.keeps {α : Type} (kept : e.Kept config scorer) (a : α) (p : Position) :
    Keeps config scorer (.ok (a, e, p)) := by
  rintro _ _ _ ⟨⟩
  exact kept

theorem Kept.new (config : SearchConfig) (scorer : Scorer) :
    (new config scorer).Kept config scorer :=
  ⟨Table.size_ofBytes config.tableBytes, rfl, rfl⟩

/-! ## One node -/

theorem Kept.withInfo (kept : e.Kept config scorer) (info : SearchInfo) :
    { e with info }.Kept config scorer :=
  ⟨kept.size, kept.config, kept.scorer⟩

theorem Kept.learn (kept : e.Kept config scorer) : (e.learn p m ply depth).Kept config scorer := by
  unfold Engine.learn
  split
  · exact ⟨kept.size, kept.config, kept.scorer⟩
  · exact kept

theorem Kept.candidates (kept : e.Kept config scorer) :
    (e.candidates p).2.Kept config scorer := by
  unfold Engine.candidates
  split
  · exact ⟨kept.size, kept.config, kept.scorer⟩
  · exact kept

theorem Kept.remember (kept : e.Kept config scorer) :
    (e.remember p m ply).Kept config scorer :=
  ⟨(e.table.size_insert p.hash m).trans kept.size, kept.config, kept.scorer⟩

section

variable [ZobristKeys]

omit [ZobristKeys] in
theorem Kept.conclude (kept : e.Kept config scorer) (alpha : Int) (ply : Nat)
    (progress : Progress) (p : Position) :
    (conclude alpha ply progress e p).2.1.Kept config scorer := by
  unfold Engine.conclude
  split
  · exact kept
  · split
    · split
      · exact kept.remember
      · exact kept
    · exact kept

theorem tryMoves_keeps {child : Engine → Position → Int → Int → Except Fault (Answer Int)}
    (keeps : ∀ e p alpha beta, e.Kept config scorer → Keeps config scorer (child e p alpha beta))
    (ply depth count : Nat) (beta : Int) (moves : List RankedMove) (progress : Progress)
    (kept : e.Kept config scorer) :
    Keeps config scorer (tryMoves child ply depth beta count moves progress e p) := by
  induction count generalizing moves progress e p with
  | zero => exact kept.keeps _ _
  | succ count ih =>
    rw [tryMoves]
    split
    · exact kept.keeps _ _
    · next m _ rest _ =>
      intro ending left q answered
      obtain ⟨⟨accepted, made⟩, -, answered⟩ := bind_eq_ok answered
      cases accepted with
      | false => exact ih rest progress ((kept.withInfo _).withInfo _) _ _ _ answered
      | true =>
        obtain ⟨low, -, answered⟩ := bind_eq_ok answered
        obtain ⟨high, -, answered⟩ := bind_eq_ok answered
        obtain ⟨⟨value, below, deeper⟩, seen, answered⟩ := bind_eq_ok answered
        obtain ⟨back, -, answered⟩ := bind_eq_ok answered
        have kept' := keeps _ _ _ _ (kept.withInfo _) _ _ _ seen
        split at answered
        · exact kept'.learn.keeps _ _ _ _ _ answered
        · split at answered
          · exact ih _ _ kept' _ _ _ answered
          · exact ih _ _ kept' _ _ _ answered

theorem alphaBeta_keeps (depth : Nat) (alpha beta : Int) (kept : e.Kept config scorer) :
    Keeps config scorer (alphaBeta depth e p alpha beta) := by
  induction depth generalizing e p alpha beta with
  | zero => exact kept.keeps _ _
  | succ depth ih =>
    rw [alphaBeta]
    split
    · exact (kept.withInfo _).keeps _ _
    · intro value left q answered
      obtain ⟨⟨ending, below, r⟩, tried, answered⟩ := bind_eq_ok answered
      have kept' := tryMoves_keeps (fun e p alpha beta kept => ih alpha beta kept) _ _ _ _ _ _
        kept.candidates _ _ _ tried
      cases ending with
      | cutoff => exact kept'.keeps _ _ _ _ _ answered
      | exhausted progress =>
        have concluded := kept'.conclude alpha p.ply progress r
        rw [Except.ok.inj answered] at concluded
        exact concluded

/-! ## The principal variation -/

theorem followMoves_keeps (limit : Nat) (played : List Move) (kept : e.Kept config scorer) :
    Keeps config scorer (followMoves limit played e p) := by
  induction limit generalizing played e p with
  | zero => exact kept.keeps _ _
  | succ limit ih =>
    have probed : { e with table := (e.table.probe p.hash).2 }.Kept config scorer :=
      ⟨kept.size, kept.config, kept.scorer⟩
    rw [followMoves]
    dsimp only
    split
    · exact probed.keeps _ _
    · split
      · intro line left q answered
        obtain ⟨⟨accepted, made⟩, -, answered⟩ := bind_eq_ok answered
        cases accepted with
        | false => exact probed.keeps _ _ _ _ _ answered
        | true => exact ih _ probed _ _ _ answered
      · exact probed.keeps _ _

theorem Kept.of_followTable (kept : e.Kept config scorer)
    (followed : e.followTable p depth = .ok (e', p')) : e'.Kept config scorer := by
  obtain ⟨⟨played, left, q⟩, line, followed⟩ := bind_eq_ok followed
  obtain ⟨back, -, followed⟩ := bind_eq_ok followed
  have kept' := followMoves_keeps _ _ kept _ _ _ line
  cases followed
  exact ⟨kept'.size, kept'.config, kept'.scorer⟩

/-! ## Iterative deepening -/

theorem iteration_keeps (depth : Nat) (kept : e.Kept config scorer) :
    Keeps config scorer (e.iteration p depth) := by
  intro it left q answered
  obtain ⟨⟨score, searched, r⟩, valued, answered⟩ := bind_eq_ok answered
  obtain ⟨⟨followed, r'⟩, line, answered⟩ := bind_eq_ok answered
  have kept' := alphaBeta_keeps depth _ _ kept _ _ _ valued
  cases answered
  exact kept'.of_followTable line

theorem Kept.of_deepen (kept : e.Kept config scorer) {count : Nat}
    (ended : (e.deepen p depth count).2 = .ok (e', p')) : e'.Kept config scorer := by
  induction count generalizing e p depth with
  | zero =>
    cases ended
    exact kept
  | succ count ih =>
    rw [deepen] at ended
    split at ended
    · cases ended
    · next answered => exact ih (iteration_keeps _ kept _ _ _ answered) ended

omit [ZobristKeys] in
/-- Forgetting what was learned makes an engine a new one. -/
theorem Kept.reset_eq_new (kept : e.Kept config scorer) : e.reset = .new config scorer := by
  obtain ⟨size, rfl, rfl⟩ := kept
  have table : e.table.clear = .ofBytes e.config.tableBytes := by
    rw [Table.clear, size, Table.ofBytes]
  rw [reset, table]
  rfl

theorem Kept.of_search (kept : e.Kept config scorer) {r : SearchResult}
    (searched : e.search p = .ok (r, e', p')) : e'.Kept config scorer := by
  obtain ⟨⟨left, q⟩, ended, searched⟩ := bind_eq_ok searched
  obtain ⟨⟨result, left', q'⟩, answered, searched⟩ := bind_eq_ok searched
  obtain ⟨⟨best, q''⟩, -, answered⟩ := bind_eq_ok answered
  cases answered
  cases searched
  rw [kept.reset_eq_new] at ended
  exact (Kept.new config scorer).of_deepen ended

theorem Used.kept (used : Used config scorer e) : e.Kept config scorer := by
  induction used with
  | new => exact .new config scorer
  | search _ searched kept => exact kept.of_search searched
  | alphaBeta _ valued kept => exact alphaBeta_keeps _ _ _ kept _ _ _ valued
  | followTable _ followed kept => exact kept.of_followTable followed

/-- However an engine has been used, a search runs and answers like that of a new engine, and it
leaves the same engine and the same position. -/
theorem search_of_used (used : Used config scorer e) (p : Position) :
    e.course p = (new config scorer).course p ∧ e.search p = (new config scorer).search p := by
  have course : e.course p = (new config scorer).course p := by
    unfold Engine.course
    rw [used.kept.reset_eq_new, (Kept.new config scorer).reset_eq_new]
  exact ⟨course, congrArg Course.answer course⟩

end

/-- Whatever is asked in between, the same search comes to the same again. -/
theorem search_of_rehearsed : ∃ r e v e₁ e₂ p,
    (Engine.new ⟨3, 24, true⟩ Position.materialScore).search Rehearsal.start =
        .ok (r, e, Rehearsal.start) ∧
      alphaBeta 4 e Rehearsal.last (-50) 700 = .ok (v, e₁, Rehearsal.last) ∧
      e₁.followTable Rehearsal.last 4 = .ok (e₂, p) ∧
      e₂.search Rehearsal.start = .ok (r, e, Rehearsal.start) := by
  have start : Rehearsal.start.Searchable maxPly :=
    ⟨Rehearsal.reachable.grounded, by decide +kernel, by decide +kernel⟩
  have last : Rehearsal.last.Searchable 4 :=
    ⟨Rehearsal.reachable_last.grounded, by decide +kernel, by decide +kernel⟩
  obtain ⟨r, e, searched, -⟩ := search_spec (Engine.new ⟨3, 24, true⟩ Position.materialScore)
    start (by decide +kernel)
  have used : Used ⟨3, 24, true⟩ Position.materialScore e := .search .new searched
  obtain ⟨v, e₁, valued, -⟩ :=
    sees_alphaBeta e.scorer 4 e Rehearsal.last (-50) 700 rfl last
      ⟨by decide, by decide, by decide⟩
  obtain ⟨line, table, q, fullmove, followed, -⟩ := followTable_spec e₁ 4 last.roomy
  have again := search_of_used (.followTable (.alphaBeta used valued) followed) Rehearsal.start
  exact ⟨r, e, v, e₁, _, _, searched, valued, followed, again.2.trans searched⟩

end Engine

end ChessEngine
