/-!
# Computations that succeed

Rewriting steps for `Except` computations whose parts are known to succeed.
-/

namespace ChessEngine

variable {ε α β : Type}

@[simp] theorem ok_bind (a : α) (f : α → Except ε β) : (Except.ok a >>= f) = f a := rfl

@[simp] theorem pure_eq_ok (a : α) : (pure a : Except ε α) = .ok a := rfl

/-- A bind that succeeds passed through a value. -/
theorem bind_eq_ok {x : Except ε α} {f : α → Except ε β} {b : β} (h : (x >>= f) = .ok b) :
    ∃ a, x = .ok a ∧ f a = .ok b := by
  cases x with
  | error e => cases h
  | ok a => exact ⟨a, rfl, h⟩

/-- A success is found again in its value. -/
theorem eq_ok_get {x : Except ε α} (succeeds : x.toOption.isSome = true) :
    x = .ok (x.toOption.get succeeds) := by
  cases x with
  | error e => cases succeeds
  | ok a => rfl

/-- A check that succeeds passed its condition. -/
theorem unless_eq_ok {c : Prop} [Decidable c] {e : ε} {k : Unit → Except ε α} {x : Except ε α}
    {a : α} (h : (if ¬ c then throw e >>= k else x) = .ok a) : c ∧ x = .ok a := by
  split at h
  · cases h
  · next passed => exact ⟨Decidable.of_not_not passed, h⟩

/-- What a check guards succeeds if the check does not fail. -/
theorem ite_error_eq_ok_iff {c : Prop} [Decidable c] {e : ε} {x : Except ε α} {a : α} :
    (if c then .error e else x) = .ok a ↔ ¬ c ∧ x = .ok a := by
  split
  · next fails => exact ⟨nofun, fun passed => absurd fails passed.1⟩
  · next passes => exact ⟨fun same => ⟨passes, same⟩, And.right⟩

/-! ## Computations that are decided -/

/-- A computation succeeds with what `Good` allows, fails with what `Bad` allows, and that is all
there is to say about it. -/
structure Decides (x : Except ε α) (Good : α → Prop) (Bad : ε → Prop) : Prop where
  ok_iff : ∀ a, x = .ok a ↔ Good a
  error_iff : ∀ e, x = .error e ↔ Bad e

/-- It is enough to know that good and bad cases are answered as such and that there are no
others. -/
theorem Decides.of_cases {x : Except ε α} {Good : α → Prop} {Bad : ε → Prop}
    (good : ∀ a, Good a → x = .ok a) (bad : ∀ e, Bad e → x = .error e)
    (cases : (∃ a, Good a) ∨ ∃ e, Bad e) : Decides x Good Bad := by
  rcases cases with ⟨a, here⟩ | ⟨e, here⟩
  · have answered := good a here
    refine ⟨fun b => ⟨fun same => ?_, good b⟩, fun e => ⟨fun same => ?_, bad e⟩⟩
    · cases answered.symm.trans same
      exact here
    · cases answered.symm.trans same
  · have answered := bad e here
    refine ⟨fun a => ⟨fun same => ?_, good a⟩, fun e' => ⟨fun same => ?_, bad e'⟩⟩
    · cases answered.symm.trans same
    · cases answered.symm.trans same
      exact here

theorem Decides.total {x : Except ε α} {Good : α → Prop} {Bad : ε → Prop}
    (decides : Decides x Good Bad) : (∃ a, Good a) ∨ ∃ e, Bad e := by
  cases x with
  | error e => exact .inr ⟨e, (decides.error_iff e).1 rfl⟩
  | ok a => exact .inl ⟨a, (decides.ok_iff a).1 rfl⟩

theorem Decides.bind_of_good {x : Except ε α} {Good : α → Prop} {Bad : ε → Prop}
    (decides : Decides x Good Bad) {a : α} (good : Good a) (f : α → Except ε β) :
    (x >>= f) = f a := by
  rw [(decides.ok_iff a).2 good, ok_bind]

theorem Decides.bind_of_bad {x : Except ε α} {Good : α → Prop} {Bad : ε → Prop}
    (decides : Decides x Good Bad) {e : ε} (bad : Bad e) (f : α → Except ε β) :
    (x >>= f) = .error e := by
  rw [(decides.error_iff e).2 bad]
  rfl

theorem forM_eq_ok {f : α → Except ε Unit} :
    ∀ {l : List α}, (∀ a ∈ l, f a = .ok ()) → l.forM f = .ok ()
  | [], _ => rfl
  | a :: l, each => by
      show (f a >>= fun _ => l.forM f) = .ok ()
      rw [each a List.mem_cons_self, ok_bind]
      exact forM_eq_ok fun b member => each b (List.mem_cons_of_mem a member)

theorem of_forM_eq_ok {f : α → Except ε Unit} :
    ∀ {l : List α}, l.forM f = .ok () → ∀ a ∈ l, f a = .ok ()
  | [], _, _, member => absurd member List.not_mem_nil
  | a :: l, succeeded, b, member => by
      obtain ⟨⟨⟩, first, rest⟩ := bind_eq_ok (show (f a >>= fun _ => l.forM f) = _ from succeeded)
      rcases List.mem_cons.1 member with rfl | later
      · exact first
      · exact of_forM_eq_ok rest b later

end ChessEngine
