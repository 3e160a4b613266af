/-!
# The two sides

`Color` names a side and `ByColor` holds one value for each of them.  Every
table of a position that exists once per side is a `ByColor`.
-/

namespace ChessEngine

/-- A side of the game. -/
inductive Color where
  | white
  | black
deriving DecidableEq

namespace Color

/-- The other side. -/
def opposite : Color → Color
  | white => black
  | black => white

/-- The name of a side as messages print it. -/
def name : Color → String
  | white => "White"
  | black => "Black"

@[simp] theorem opposite_opposite (c : Color) : c.opposite.opposite = c := by
  cases c <;> rfl

theorem opposite_ne (c : Color) : c.opposite ≠ c := by
  cases c <;> decide

end Color

/-- One value for each side. -/
structure ByColor (α : Type) where
  white : α
  black : α
deriving DecidableEq

namespace ByColor

variable {α : Type}

/-- The same value for both sides. -/
def both (x : α) : ByColor α := ⟨x, x⟩

/-- The value of side `c`. -/
def get (t : ByColor α) : Color → α
  | .white => t.white
  | .black => t.black

/-- Changes the value of side `c` and leaves the other one alone. -/
def update (t : ByColor α) (c : Color) (f : α → α) : ByColor α :=
  match c with
  | .white => { t with white := f t.white }
  | .black => { t with black := f t.black }

@[simp] theorem get_both (x : α) (c : Color) : (both x).get c = x := by
  cases c <;> rfl

@[simp] theorem get_update_self (t : ByColor α) (c : Color) (f : α → α) :
    (t.update c f).get c = f (t.get c) := by
  cases c <;> rfl

theorem get_update_of_ne (t : ByColor α) {c d : Color} (f : α → α) (h : d ≠ c) :
    (t.update c f).get d = t.get d := by
  cases c <;> cases d <;> first | rfl | exact absurd rfl h

theorem ext_get {t u : ByColor α} (h : ∀ c, t.get c = u.get c) : t = u := by
  cases t
  cases u
  have hw := h .white
  have hb := h .black
  simp only [get] at hw hb
  rw [hw, hb]

end ByColor

end ChessEngine
