import ChessEngine.Legal
import ChessEngine.Proofs.Position.Run

/-!
# Trying moves on the position itself

Legal moves, move texts and leaf counts are found by making moves on the position
at hand and taking them back.  `Restores n x a p` says of such a computation `x` on
`p`, which looks at most `n` moves ahead, that it answers `a` and leaves `p` behind.
Only the number of the move may be lost, where its counter is full.

`Roomy.make_cases` and `Restores.of_takeBack` are what every such computation is
made of: a rejected move restores the position by itself, an accepted one once it
is taken back after a computation on the position it led to.  From them the loops
over generated moves follow by induction on the moves.
-/

namespace ChessEngine

namespace Position

section

variable {α β : Type} {a : α} {p : Position} {n : Nat}

/-! ## Computations that restore a position -/

/-- `x` answers `a` and leaves `p` as it was.  The number of the move is only sure to come back if
its counter has room for `n` more moves. -/
def Restores (n : Nat) (x : Except Fault (α × Position)) (a : α) (p : Position) : Prop :=
  ∃ fullmove, x = .ok (a, p.recount fullmove p.ply) ∧
    (p.fullmove.toNat + n ≤ 65535 → fullmove = p.fullmove)

theorem Restores.pure : Restores n (.ok (a, p)) a p := ⟨p.fullmove, rfl, fun _ => rfl⟩

theorem Restores.eq {x : Except Fault (α × Position)} (restores : Restores n x a p)
    (count : p.fullmove.toNat + n ≤ 65535) : x = .ok (a, p) := by
  obtain ⟨fullmove, answered, exact⟩ := restores
  rw [answered, exact count]
  rfl

theorem Restores.mono {x : Except Fault (α × Position)} {k : Nat} (less : k ≤ n)
    (restores : Restores k x a p) : Restores n x a p := by
  obtain ⟨fullmove, answered, exact⟩ := restores
  exact ⟨fullmove, answered, fun count => exact (by omega)⟩

/-- It does not matter that something before has changed the number of the move. -/
theorem Restores.of_recount {x : Except Fault (α × Position)} {fullmove : Counter}
    (exact : p.fullmove.toNat + n ≤ 65535 → fullmove = p.fullmove)
    (restores : Restores n x a (p.recount fullmove p.ply)) : Restores n x a p := by
  obtain ⟨fullmove', answered, exact'⟩ := restores
  refine ⟨fullmove', answered, fun count => ?_⟩
  have same := exact count
  subst same
  exact exact' count

theorem Restores.bind {x : Except Fault (α × Position)} {b : β}
    {f : α × Position → Except Fault (β × Position)} (first : Restores n x a p)
    (next : ∀ fullmove, Restores n (f (a, p.recount fullmove p.ply)) b
      (p.recount fullmove p.ply)) : Restores n (x >>= f) b p := by
  obtain ⟨fullmove, rfl, exact⟩ := first
  exact .of_recount exact (next fullmove)

end

variable [ZobristKeys] {α β : Type} {a : α} {p q : Position} {m : Move} {moves : List Move}
  {n : Nat}

/-! ## One move tried -/

/-- A firm position whose history has room for `n` more moves. -/
structure Roomy (n : Nat) (p : Position) : Prop where
  firm : p.Firm
  room : p.history.size + n ≤ historyCapacity

theorem Roomy.recount (roomy : p.Roomy n) (fullmove : Counter) (ply : Nat) :
    (p.recount fullmove ply).Roomy n :=
  ⟨roomy.firm.recount fullmove ply, roomy.room⟩

theorem Roomy.mono {k : Nat} (less : k ≤ n) (roomy : p.Roomy n) : p.Roomy k := by
  obtain ⟨firm, room⟩ := roomy
  exact ⟨firm, by omega⟩

/-- A generated move is rejected, which restores the position, or it leads on. -/
theorem Roomy.make_cases (roomy : p.Roomy (n + 1)) (member : m ∈ p.pseudoMoves) :
    p.after? m = none ∧ Restores (n + 1) (p.make m) false p ∨
      ∃ q, p.after? m = some q ∧ p.make m = .ok (true, q) ∧ q.Roomy n := by
  obtain ⟨firm, room⟩ := roomy
  obtain ⟨accepted, q, made⟩ := firm.make member (by omega)
  rcases firm.make_cases member made with ⟨rfl, applied⟩ | ⟨rfl, rejected⟩
  · refine .inr ⟨q, after?_eq_some.2 made, made, firm.of_apply member applied, ?_⟩
    rw [firm.size_of_apply member applied]
    omega
  · refine .inl ⟨?_, _, rejected ▸ made, fun count => ?_⟩
    · rw [after?, made]
    · exact Basis.fullmoveBefore_fullmoveAfter p.side (fullmove_ne_of_room count)

/-- What restores the position after a move restores the one before it, once the move is taken
back. -/
theorem Restores.of_takeBack {x : Except Fault (α × Position)} {b : β}
    {f : α × Position → Except Fault (β × Position)}
    {g : α → Position → Except Fault (β × Position)}
    (firm : p.Firm) (member : m ∈ p.pseudoMoves) (made : p.make m = .ok (true, q))
    (inner : Restores n x a q) (takes : ∀ r, f (a, r) = r.takeBack >>= g a)
    (next : ∀ fullmove, Restores (n + 1) (g a (p.recount fullmove p.ply)) b
      (p.recount fullmove p.ply)) : Restores (n + 1) (x >>= f) b p := by
  obtain ⟨fullmove, rfl, exact⟩ := inner
  have back := firm.takeBack_of_make member made fullmove
  have applied := firm.applied_of_make member made
  rw [ok_bind, takes, back, ok_bind]
  refine .of_recount (fun count => ?_) (next _)
  have step := firm.toNat_fullmove_le member applied
  rw [exact (by omega), firm.fullmove_of_apply member applied]
  exact Basis.fullmoveBefore_fullmoveAfter p.side (fullmove_ne_of_room count)

/-! ## Accepted moves

Nothing that is computed from the positions after accepted moves depends on the number of the move
or on the ply, unless the computation itself looks at them. -/

/-- What `value` says of the accepted moves of a list and the positions they lead to. -/
def gains (value : Move → Position → α) (p : Position) (moves : List Move) : List α :=
  moves.filterMap fun m => (p.after? m).map (value m)

theorem mem_gains {value : Move → Position → α} {a : α} :
    a ∈ p.gains value moves ↔ ∃ m ∈ moves, ∃ q, p.after? m = some q ∧ value m q = a := by
  simp only [gains, List.mem_filterMap, Option.map_eq_some_iff]

theorem map_gains (g : α → β) (value : Move → Position → α) (p : Position) (moves : List Move) :
    (p.gains value moves).map g = p.gains (fun m q => g (value m q)) moves := by
  simp only [gains, List.map_filterMap, Option.map_map, Function.comp_def]

theorem Firm.of_after? (firm : p.Firm) (member : m ∈ p.pseudoMoves) (after : p.after? m = some q) :
    q.Firm := by
  have applied := firm.applied_of_make member (after?_eq_some.1 after)
  exact firm.of_apply member applied

theorem Firm.gains_recount {value : Move → Position → α} (firm : p.Firm)
    (generated : ∀ m ∈ moves, m ∈ p.pseudoMoves)
    (same : ∀ m (q : Position) fullmove ply, q.Firm →
      value m (q.recount fullmove ply) = value m q) (fullmove : Counter) (ply : Nat) :
    (p.recount fullmove ply).gains value moves = p.gains value moves := by
  refine List.filterMap_congr fun m listed => ?_
  rw [firm.after?_recount (generated m listed), Option.map_map]
  refine Option.map_congr fun q after => ?_
  exact same m q _ _ (firm.of_after? (generated m listed) after)

/-! ## Legal moves and move texts -/

/-- The moves of a list that are legal, in its order. -/
def legalAmong (p : Position) (moves : List Move) : List Move :=
  moves.filter fun m => (p.after? m).isSome

theorem Firm.isSome_after?_recount (firm : p.Firm) (member : m ∈ p.pseudoMoves)
    (fullmove : Counter) (ply : Nat) :
    ((p.recount fullmove ply).after? m).isSome = (p.after? m).isSome := by
  rw [firm.after?_recount member, Option.isSome_map]

theorem Roomy.accepts (roomy : p.Roomy 1) (member : m ∈ p.pseudoMoves) :
    Restores 1 (p.accepts m) (p.after? m).isSome p := by
  rcases roomy.make_cases member with ⟨after, rejects⟩ | ⟨q, after, made, -⟩
  · rw [Position.accepts, after]
    exact rejects.bind fun _ => .pure
  · have inner : Restores 0 (.ok ((), q)) () q := .pure
    have tried := inner.of_takeBack (b := true)
      (f := fun r => r.2.takeBack >>= fun r => .ok (true, r)) (g := fun _ r => .ok (true, r))
      roomy.firm member made (fun _ => rfl) fun _ => .pure
    rw [Position.accepts, after, made]
    exact tried

theorem Firm.legalAmong_recount (firm : p.Firm) (generated : ∀ m ∈ moves, m ∈ p.pseudoMoves)
    (fullmove : Counter) (ply : Nat) :
    (p.recount fullmove ply).legalAmong moves = p.legalAmong moves :=
  List.filter_congr fun m member =>
    firm.isSome_after?_recount (generated m member) fullmove ply

theorem mem_legalAmong :
    m ∈ p.legalAmong moves ↔ m ∈ moves ∧ ∃ q, p.make m = .ok (true, q) := by
  rw [legalAmong, List.mem_filter, Option.isSome_iff_exists]
  exact and_congr_right fun _ => exists_congr fun q => after?_eq_some

theorem legalAmong_cons (p : Position) (m : Move) (rest : List Move) :
    p.legalAmong (m :: rest) =
      if (p.after? m).isSome then m :: p.legalAmong rest else p.legalAmong rest :=
  List.filter_cons

theorem Roomy.retainAccepted (roomy : p.Roomy 1) (generated : ∀ m ∈ moves, m ∈ p.pseudoMoves) :
    Restores 1 (p.retainAccepted moves) (p.legalAmong moves) p := by
  induction moves generalizing p with
  | nil => exact .pure
  | cons m rest ih =>
    obtain ⟨member, others⟩ := List.forall_mem_cons.1 generated
    refine (roomy.accepts member).bind fun fullmove => ?_
    refine (ih (roomy.recount fullmove p.ply) others).bind fun fullmove' => ?_
    rw [roomy.firm.legalAmong_recount others, legalAmong_cons]
    exact .pure

/-- The search for one legal move stops at the first. -/
theorem Roomy.firstAccepted (roomy : p.Roomy 1) (generated : ∀ m ∈ moves, m ∈ p.pseudoMoves) :
    Restores 1 (p.firstAccepted moves) (p.legalAmong moves).head? p := by
  induction moves generalizing p with
  | nil => exact .pure
  | cons m rest ih =>
    obtain ⟨member, others⟩ := List.forall_mem_cons.1 generated
    refine (roomy.accepts member).bind fun fullmove => ?_
    rw [legalAmong_cons]
    cases (p.after? m).isSome with
    | true => exact .pure
    | false =>
      rw [← roomy.firm.legalAmong_recount others fullmove p.ply]
      exact ih (roomy.recount fullmove p.ply) others

theorem Roomy.legalMoves (roomy : p.Roomy 1) :
    Restores 1 p.legalMoves (p.legalAmong p.pseudoMoves) p :=
  roomy.retainAccepted fun _ => id

/-- What a text is resolved as: the first legal move that it names. -/
def reading (p : Position) (text : String) : Except InputError Move := do
  let parts ← MoveText.parse text
  match (p.legalAmong p.pseudoMoves).find? parts.names with
  | some m => .ok m
  | none => .error (.illegalMove text)

theorem Roomy.resolve_reads (roomy : p.Roomy 1) (text : String) :
    Restores 1 (p.resolve text) (p.reading text) p := by
  unfold Position.resolve reading
  cases MoveText.parse text with
  | error e => exact .pure
  | ok parts =>
    refine roomy.legalMoves.bind fun fullmove => ?_
    rw [ok_bind]
    dsimp only
    cases (p.legalAmong p.pseudoMoves).find? parts.names with
    | some m => exact .pure
    | none => exact .pure

theorem Roomy.resolve (roomy : p.Roomy 1) (text : String) :
    ∃ answer, Restores 1 (p.resolve text) answer p :=
  ⟨_, roomy.resolve_reads text⟩

end Position

end ChessEngine
