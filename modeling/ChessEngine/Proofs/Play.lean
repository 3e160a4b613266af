import ChessEngine.Proofs.Fen.Parse
import ChessEngine.Proofs.MoveText
import ChessEngine.Proofs.Position.Repetition
import Mathlib.Data.Nat.SuccPred
import Mathlib.Order.SuccPred.Archimedean

/-!
# Playing a text

The words of a text are played one after the other, and each of them is resolved by
trying all legal moves on the position itself.  `play_of_reachable` says what this comes
to: the longest start of the text that spells a line of legal moves is played, nothing
else leaves a trace, and the first word that spells no move decides about the error.

`playWords_append` cuts a text in two, whatever becomes of it; `Firm.playWords_spelled`
is the part before the cut, where every word is the text of a legal move.  Such texts are
what a line is printed as (`Move.words_lineText`).
-/

namespace ChessEngine

/-! ## Words -/

namespace Text

theorem words_ofList_append (start rest : List Char) {gap : List Char}
    (blank : ∀ c ∈ gap, isBlank c = true) (parted : gap ≠ []) :
    words (String.ofList (start ++ (gap ++ rest))) =
      words (String.ofList start) ++ words (String.ofList rest) := by
  simp only [Fen.words_eq_parts, Fen.parts, String.toList_ofList]
  induction gap generalizing start with
  | nil => exact absurd rfl parted
  | cons c gap ih =>
    obtain ⟨here, others⟩ := List.forall_mem_cons.1 blank
    rw [List.cons_append, List.splitOnP_append_cons _ _ here, List.filter_append, List.map_append]
    refine congrArg _ ?_
    cases gap with
    | nil => rfl
    | cons c' gap => exact ih [] others (List.cons_ne_nil _ _)

/-- Blanks part the words before them from those after them. -/
theorem words_append {first gap second : String} (blank : ∀ c ∈ gap.toList, isBlank c = true)
    (parted : gap ≠ "") : words (first ++ gap ++ second) = words first ++ words second := by
  have chars : gap.toList ≠ [] := fun empty => parted (String.toList_inj.1 empty)
  have cut := words_ofList_append first.toList second.toList blank chars
  simpa only [String.ofList_append, String.ofList_toList, String.append_assoc] using cut

theorem not_blank_of_all {l : List Char} (solid : l.all (!isBlank ·) = true) :
    ∀ c ∈ l, isBlank c = false := by
  simpa using solid

theorem words_of_forall_not_blank {text : String} (solid : ∀ c ∈ text.toList, isBlank c = false)
    (some : text ≠ "") : words text = [text] := by
  have chars : text.toList ≠ [] := fun empty => some (String.toList_inj.1 empty)
  have whole : text.toList.splitOnP isBlank = [text.toList] :=
    List.splitOnP_eq_singleton fun c inside => by simp [solid c inside]
  rw [Fen.words_eq_parts, Fen.parts, whole]
  simp [chars]

end Text

namespace Move

theorem isBlank_of_mem_text {m : Move} {c : Char} (inside : c ∈ m.text.toList) :
    Text.isBlank c = false := by
  have files : ∀ c ∈ MoveText.fileLetters, Text.isBlank c = false :=
    Text.not_blank_of_all (by decide)
  have ranks : ∀ c ∈ MoveText.rankDigits, Text.isBlank c = false :=
    Text.not_blank_of_all (by decide)
  have kinds : ∀ kind, ∀ c ∈ MoveText.suffix kind, Text.isBlank c = false := by
    intro kind
    refine Text.not_blank_of_all ?_
    rcases kind with _ | _ | _ | _ | _ | _ | _ <;> decide
  obtain ⟨f, r, f', r', chars, ⟨file, rank⟩, file', rank'⟩ :=
    (MoveText.ofMove m).exists_toList_text
  rw [← MoveText.text_ofMove, chars, List.mem_append] at inside
  rcases inside with square | promotion
  · simp only [List.mem_cons, List.not_mem_nil, or_false] at square
    rcases square with rfl | rfl | rfl | rfl
    · exact files _ file
    · exact ranks _ rank
    · exact files _ file'
    · exact ranks _ rank'
  · exact kinds _ c promotion

theorem four_le_length_text (m : Move) : 4 ≤ m.text.toList.length := by
  obtain ⟨f, r, f', r', chars, -⟩ := (MoveText.ofMove m).exists_toList_text
  rw [← MoveText.text_ofMove, chars, List.length_append]
  exact Nat.le_add_right _ _

theorem words_text (m : Move) : Text.words m.text = [m.text] :=
  Text.words_of_forall_not_blank (fun _ => isBlank_of_mem_text) fun empty => by
    have long := four_le_length_text m
    rw [empty] at long
    cases long

/-- The words of a line are the texts of its moves. -/
theorem words_lineText (line : List Move) : Text.words (lineText line) = line.map text := by
  unfold lineText
  induction line with
  | nil => rfl
  | cons m rest ih =>
    cases rest with
    | nil => exact words_text m
    | cons m' rest =>
      rw [List.map_cons, List.map_cons, String.intercalate_cons_cons,
        Text.words_append (List.all_eq_true.1 (by decide)) (by decide), words_text]
      exact congrArg (m.text :: ·) ih

end Move

namespace Position

section

variable [ZobristKeys] {p q : Position} {m : Move} {moves : List Move} {word : String}
  {words : List String}

/-! ## One word -/

theorem Legal.recount (firm : p.Firm) (legal : p.Legal m) (fullmove : Counter) (ply : Nat) :
    (p.recount fullmove ply).Legal m := by
  rcases legal with ⟨member, q, made⟩
  exact ⟨member, _, firm.make_recount member made fullmove ply⟩

theorem Firm.legal_recount_iff (firm : p.Firm) (fullmove : Counter) (ply : Nat) :
    (p.recount fullmove ply).Legal m ↔ p.Legal m :=
  ⟨fun legal => legal.recount (firm.recount fullmove ply) p.fullmove p.ply,
    fun legal => legal.recount firm fullmove ply⟩

/-- The text of a legal move is resolved as this move. -/
theorem Roomy.resolve_text (roomy : p.Roomy 1) (legal : p.Legal m) :
    Restores 1 (p.resolve m.text) (.ok m) p := by
  have read := ((roomy.firm.reading_decides m.text).ok_iff m).2 ⟨legal, rfl⟩
  exact read ▸ roomy.resolve_reads m.text

/-- A word that is the text of no legal move is an error. -/
theorem Roomy.resolve_misnamed (roomy : p.Roomy 1) (unwritten : ∀ m, p.Legal m → m.text ≠ word) :
    ∃ e, Restores 1 (p.resolve word) (.error e) p := by
  have decides := roomy.firm.reading_decides word
  have reads := roomy.resolve_reads word
  cases read : p.reading word with
  | ok m =>
    obtain ⟨legal, written⟩ := (decides.ok_iff m).1 read
    exact absurd written (unwritten m legal)
  | error e => exact ⟨e, read ▸ reads⟩

/-! ## Word by word -/

/-- Goes on from where the moves so far have led, unless an error has stopped them. -/
def andThen (next : Position → Except Fault (Except InputError (List Move) × Position)) :
    Except InputError (List Move) × Position →
      Except Fault (Except InputError (List Move) × Position)
  | (.ok played, p) => do
    let (more, p) ← next p
    return (more.map (played ++ ·), p)
  | (.error e, p) => return (.error e, p)

omit [ZobristKeys] in
theorem andThen_cons (next : Position → Except Fault (Except InputError (List Move) × Position))
    (m : Move) (r : Except InputError (List Move) × Position) :
    andThen next (r.1.map (m :: ·), r.2) =
      andThen next r >>= fun r => .ok (r.1.map (m :: ·), r.2) := by
  rcases r with ⟨e | played, p⟩
  · rfl
  · show (next p >>= fun r => _) = (next p >>= fun r => _) >>= _
    cases next p with
    | error fault => rfl
    | ok r => rcases r with ⟨e | more, q⟩ <;> rfl

theorem playWords_cons (p : Position) (word : String) (rest : List String) :
    p.playWords (word :: rest) = p.resolve word >>= fun r => match r with
      | (.error e, p) => .ok (.error e, p)
      | (.ok m, p) => p.make m >>= fun r =>
        if r.1 then r.2.playWords rest >>= fun r => .ok (r.1.map (m :: ·), r.2)
        else .ok (.error (.illegalMove word), r.2) :=
  rfl

/-- Playing words and then others is playing them all. -/
theorem playWords_append (p : Position) (first second : List String) :
    p.playWords (first ++ second) = p.playWords first >>= andThen (·.playWords second) := by
  induction first generalizing p with
  | nil =>
    show p.playWords second = p.playWords second >>= fun r => _
    cases p.playWords second with
    | error fault => rfl
    | ok r => rcases r with ⟨e | more, q⟩ <;> rfl
  | cons word rest ih =>
    rw [List.cons_append, playWords_cons, playWords_cons]
    cases p.resolve word with
    | error fault => rfl
    | ok r =>
      rcases r with ⟨e | m, p⟩
      · rfl
      · simp only [ok_bind]
        cases p.make m with
        | error fault => rfl
        | ok r =>
          rcases r with ⟨_ | _, q⟩
          · rfl
          · simp only [ok_bind, if_true, ih]
            cases q.playWords rest with
            | error fault => rfl
            | ok r => exact (andThen_cons _ m r).symm

/-- Blanks part the moves before them from those after them. -/
theorem play_append (p : Position) {first gap second : String}
    (blank : ∀ c ∈ gap.toList, Text.isBlank c = true) (parted : gap ≠ "") :
    p.play (first ++ gap ++ second) = p.play first >>= andThen (·.play second) := by
  unfold play
  rw [Text.words_append blank parted]
  exact p.playWords_append _ _

/-- The texts of a line of legal moves are played as this line. -/
theorem Firm.playWords_spelled (firm : p.Firm) (played : Played p moves q)
    (room : p.history.size + moves.length ≤ historyCapacity) (fullmove : Counter) :
    ∃ fullmove', (p.recount fullmove p.ply).playWords (moves.map Move.text) =
        .ok (.ok moves, q.recount fullmove' q.ply) ∧
      (fullmove = p.fullmove → p.fullmove.toNat + moves.length ≤ 65535 →
        fullmove' = q.fullmove) := by
  induction played generalizing fullmove with
  | nil => exact ⟨fullmove, rfl, fun same _ => same⟩
  | @cons p q r m rest member made played ih =>
    rw [List.length_cons] at room
    have roomy : (p.recount fullmove p.ply).Roomy 1 := ⟨firm.recount _ _, by
      show p.history.size + 1 ≤ _
      omega⟩
    have legal : (p.recount fullmove p.ply).Legal m := Legal.recount firm ⟨member, q, made⟩ _ _
    obtain ⟨between, resolved, kept⟩ := roomy.resolve_text legal
    have applied := firm.applied_of_make member made
    have step : (p.recount between p.ply).make m =
        .ok (true, q.recount (Basis.fullmoveAfter between p.side) q.ply) := by
      rw [firm.ply_of_apply member applied]
      exact firm.make_recount member made between p.ply
    have shorter : q.history.size + rest.length ≤ historyCapacity := by
      rw [firm.size_of_apply member applied]
      omega
    obtain ⟨fullmove', others, exact⟩ :=
      ih (firm.of_apply member applied) shorter (Basis.fullmoveAfter between p.side)
    refine ⟨fullmove', ?_, fun same count => exact ?_ ?_⟩
    · rw [List.map_cons, playWords_cons, resolved]
      simp only [ok_bind, recount_recount]
      show ((p.recount between p.ply).make m >>= fun r => _) = _
      rw [step]
      simp only [ok_bind, if_true, others]
      rfl
    · rw [List.length_cons] at count
      subst same
      rw [kept (show p.fullmove.toNat + 1 ≤ 65535 by omega),
        firm.fullmove_of_apply member applied]
      rfl
    · have next := firm.toNat_fullmove_le member applied
      rw [List.length_cons] at count
      omega

/-- What follows the texts of a line of legal moves is played from where the line leads. -/
theorem Firm.playWords_after (firm : p.Firm) (played : Played p moves q)
    (room : p.history.size + moves.length ≤ historyCapacity) (words : List String) :
    ∃ fullmove, p.playWords (moves.map Move.text ++ words) =
        andThen (·.playWords words) (.ok moves, q.recount fullmove q.ply) ∧
      (p.fullmove.toNat + moves.length ≤ 65535 → fullmove = q.fullmove) := by
  obtain ⟨fullmove, spelled, exact⟩ := firm.playWords_spelled played room p.fullmove
  refine ⟨fullmove, ?_, exact rfl⟩
  rw [playWords_append]
  exact congrArg (· >>= andThen (·.playWords words)) spelled

theorem andThen_playWords {r : Position} {e : InputError}
    (resolved : q.resolve word = .ok (.error e, r)) (moves : List Move) (rest : List String) :
    andThen (·.playWords (word :: rest)) (.ok moves, q) = .ok (.error e, r) := by
  show (q.playWords (word :: rest) >>= fun r => _) = _
  rw [playWords_cons, resolved]
  rfl

/-! ## The longest line that a text spells -/

/-- The first `k` words are the texts of legal moves, each in the position that the ones before it
lead to. -/
def Spells (p : Position) (words : List String) (k : Nat) : Prop :=
  k ≤ words.length ∧ ∃ moves q, Played p moves q ∧ moves.map Move.text = words.take k

theorem exists_isGreatest_spells (p : Position) (words : List String) :
    ∃ k, IsGreatest {k | p.Spells words k} k :=
  BddAbove.exists_isGreatest_of_nonempty ⟨words.length, fun _ spells => spells.1⟩
    ⟨0, Nat.zero_le _, [], p, .nil, rfl⟩

theorem Played.append {r : Position} {more : List Move} (played : Played p moves q)
    (played' : Played q more r) : Played p (moves ++ more) r := by
  induction played with
  | nil => exact played'
  | cons member made _ ih => exact .cons member made (ih played')

/-- The longest line cannot go on with the next word. -/
theorem unwritten_of_isGreatest {k : Nat} (greatest : IsGreatest {k | p.Spells words k} k)
    (played : Played p moves q) (same : moves.map Move.text = words.take k)
    (next : words[k]? = some word) (m : Move) (legal : q.Legal m) : m.text ≠ word := by
  intro written
  obtain ⟨member, r, made⟩ := legal
  obtain ⟨inside, -⟩ := List.getElem?_eq_some_iff.1 next
  have longer : p.Spells words (k + 1) :=
    ⟨inside, moves ++ [m], r, played.append (.cons member made .nil), by
      rw [List.map_append, same, List.take_add_one, next, ← written]
      rfl⟩
  exact absurd (greatest.2 longer) (Nat.not_succ_le_self k)

theorem Grounded.toNat_fullmove_of_played (grounded : p.Grounded) (played : Played p moves q) :
    q.fullmove.toNat ≤ p.fullmove.toNat + moves.length := by
  induction played with
  | nil => exact Nat.le_refl _
  | cons member made _ ih =>
    obtain ⟨applied, next⟩ := grounded.apply_of_make member made
    have step := grounded.firm.toNat_fullmove_le member applied
    have others := ih next
    rw [List.length_cons]
    omega

/-- A word that is the text of no legal move stops the line before it. -/
theorem Grounded.playWords_stopped (grounded : p.Grounded) (played : Played p moves q)
    (unwritten : ∀ m, q.Legal m → m.text ≠ word)
    (room : p.history.size + moves.length < historyCapacity)
    (count : p.fullmove.toNat + moves.length < 65535) (rest : List String) :
    ∃ e, q.resolve word = .ok (.error e, q) ∧
      p.playWords (moves.map Move.text ++ word :: rest) = .ok (.error e, q) := by
  have roomy : q.Roomy 1 := ⟨(grounded.of_reaches played.reaches).firm, by
    rw [grounded.size_of_played played]
    omega⟩
  obtain ⟨e, restores⟩ := roomy.resolve_misnamed unwritten
  have bound := grounded.toNat_fullmove_of_played played
  have resolved : q.resolve word = .ok (.error e, q) := restores.eq (by omega)
  obtain ⟨fullmove, after, exact⟩ :=
    grounded.firm.playWords_after played (Nat.le_of_lt room) (word :: rest)
  have same := exact (Nat.le_of_lt count)
  subst same
  exact ⟨e, resolved, after.trans (andThen_playWords resolved moves rest)⟩

end

/-- A text is played up to the first word that is not the text of a legal move where it stands, and
ends with this word's error; if there is no such word, all its moves are played.  Playing it is
playing what stands before a gap and then, unless this fails, what stands after it. -/
theorem play_of_reachable [ZobristKeys] {p : Position} (reachable : p.Reachable) (text : String)
    (room : p.history.size + (Text.words text).length < historyCapacity)
    (count : p.fullmove.toNat + (Text.words text).length < 65535) :
    (∃ k, IsGreatest {k | p.Spells (Text.words text) k} k ∧
      ∀ moves q, Played p moves q → moves.map Move.text = (Text.words text).take k →
        (k = (Text.words text).length → p.play text = .ok (.ok moves, q)) ∧
        ∀ word, (Text.words text)[k]? = some word → ∃ e, q.resolve word = .ok (.error e, q) ∧
          p.play text = .ok (.error e, q)) ∧
      ∀ first gap second, text = first ++ gap ++ second → gap ≠ "" →
        (∀ c ∈ gap.toList, Text.isBlank c = true) →
        p.play text = p.play first >>= andThen (·.play second) := by
  have grounded := reachable.grounded
  obtain ⟨k, greatest⟩ := p.exists_isGreatest_spells (Text.words text)
  refine ⟨⟨k, greatest, fun moves q played same => ?_⟩, ?_⟩
  · have length : moves.length ≤ (Text.words text).length := by
      have lengths := congrArg List.length same
      rw [List.length_map, List.length_take] at lengths
      omega
    refine ⟨fun all => ?_, fun word next => ?_⟩
    · rw [all, List.take_length] at same
      obtain ⟨fullmove, spelled, exact⟩ :=
        grounded.firm.playWords_spelled played (by omega) p.fullmove
      have kept := exact rfl (by omega)
      subst kept
      rw [play, ← same]
      exact spelled
    · have unwritten := unwritten_of_isGreatest greatest played same next
      obtain ⟨inside, here⟩ := List.getElem?_eq_some_iff.1 next
      obtain ⟨e, resolved, stopped⟩ := grounded.playWords_stopped played unwritten
        (by omega) (by omega) ((Text.words text).drop (k + 1))
      refine ⟨e, resolved, ?_⟩
      rw [same, ← here, List.getElem_cons_drop, List.take_append_drop] at stopped
      exact stopped
  · intro first gap second cut parted blank
    subst cut
    exact p.play_append blank parted

/-- Castling that is written the usual way is no move text: the two moves before it stay played, and
the one after it is not reached. -/
theorem play_of_rehearsal :
    ∃ q, Played Rehearsal.start (Rehearsal.moves.take 2) q ∧
      Rehearsal.start.play "d7d5 e5d6 O-O e8f7" = .ok (.error (.malformedMove "O-O"), q) := by
  have cut : Text.words "d7d5 e5d6 O-O e8f7" = ["d7d5", "e5d6", "O-O", "e8f7"] := by decide +kernel
  have spelled : (Rehearsal.moves.take 2).map Move.text = ["d7d5", "e5d6"] := by decide +kernel
  obtain ⟨q, played, -⟩ :=
    (show Played _ (Rehearsal.moves.take 2 ++ _) _ from Rehearsal.played).of_append
  obtain ⟨⟨k, greatest, plays⟩, -⟩ := play_of_reachable Rehearsal.reachable
    "d7d5 e5d6 O-O e8f7" (by rw [cut]; decide +kernel) (by rw [cut]; decide +kernel)
  rw [cut] at greatest plays
  have atLeast : 2 ≤ k := greatest.2 ⟨by decide, _, q, played, spelled⟩
  have atMost : k ≤ 2 := by
    by_contra more
    obtain ⟨-, moves, r, -, same⟩ := greatest.1
    have read : "O-O" ∈ moves.map Move.text := by
      rw [same]
      exact List.mem_take_iff_getElem.2 ⟨2, by simp; omega, rfl⟩
    obtain ⟨m, -, written⟩ := List.mem_map.1 read
    have long := m.four_le_length_text
    rw [written] at long
    exact absurd long (by decide)
  have two : k = 2 := Nat.le_antisymm atMost atLeast
  subst two
  obtain ⟨e, resolved, answered⟩ := (plays _ q played spelled).2 "O-O" rfl
  have malformed : q.resolve "O-O" = .ok (.error (.malformedMove "O-O"), q) := rfl
  cases malformed.symm.trans resolved
  exact ⟨q, played, answered⟩

end Position

end ChessEngine
