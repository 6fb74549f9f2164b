import Mathlib.Tactic.Cases
import Mathlib.Data.Nat.Basic

/-!
# A text canvas seen through a window

Characters are laid on a page of rows without end, and a terminal shows the last few rows of it. The
terminal has only those rows: where the canvas goes on to a new row, it moves its rows up by one.
-/

namespace Vulcanos.Canvas

variable {α : Type}

/-- Rows of cells, and the place of the next character. -/
structure Page (α : Type) where
  cell : Nat → Nat → α
  row : Nat
  col : Nat

/-- What a character asks a page for. -/
inductive Act (α : Type) where
  | newline
  | advance
  | write (a : α)

namespace Page

def put (a : α) (p : Page α) : Page α :=
  { p with cell := fun r x => if r = p.row ∧ x = p.col then a else p.cell r x }

/-- One column back, onto a blank. -/
def back (blank : α) (p : Page α) : Page α := ({ p with col := p.col - 1 } : Page α).put blank

/-- One column on, and behind the last one a new row. -/
def onward (newline : Page α → Page α) (width : Nat) (p : Page α) : Page α :=
  if p.col + 1 < width then { p with col := p.col + 1 } else newline p

/-- One character, on a page that starts its rows as `newline` does. -/
def act (newline : Page α → Page α) (width : Nat) : Act α → Page α → Page α
  | .newline, p => newline p
  | .advance, p => p.onward newline width
  | .write a, p => (p.put a).onward newline width

def acts (newline : Page α → Page α) (width : Nat) (as : List (Act α)) (p : Page α) : Page α :=
  as.foldl (fun p a => p.act newline width a) p

/-- A new row on the canvas. -/
def next (left : Nat) (p : Page α) : Page α := { p with row := p.row + 1, col := left }

/-- A new row in a window of `height` rows: below the last one there is none, so all rows move up
and the last one is blank. -/
def scroll (height left : Nat) (blank : α) (p : Page α) : Page α :=
  if p.row + 1 < height then p.next left
  else { p with
    cell := fun r x => if r + 1 < height then p.cell (r + 1) x else blank
    col := left }

end Page

section Rules

variable {newline : Page α → Page α} {width : Nat}

theorem Page.acts_cons (a : Act α) (as : List (Act α)) (p : Page α) :
    p.acts newline width (a :: as) = (p.act newline width a).acts newline width as := rfl

theorem Page.acts_append (as bs : List (Act α)) (p : Page α) :
    p.acts newline width (as ++ bs) = (p.acts newline width as).acts newline width bs :=
  List.foldl_append

/-- **The simulation rule.** Two ways to start a row that keep a relation, where the two pages agree
on the place of the next character and putting a cell keeps the relation, keep it on every text. -/
theorem Page.acts_related {newline' : Page α → Page α} {rel : Page α → Page α → Prop}
    (hplace : ∀ p q, rel p q → q.col = p.col)
    (hput : ∀ a p q, rel p q → rel (p.put a) (q.put a))
    (hright : ∀ p q, rel p q → rel { p with col := p.col + 1 } { q with col := q.col + 1 })
    (hnewline : ∀ p q, rel p q → rel (newline p) (newline' q))
    (as : List (Act α)) {p q : Page α} (h : rel p q) :
    rel (p.acts newline width as) (q.acts newline' width as) := by
  have honward : ∀ p q, rel p q → rel (p.onward newline width) (q.onward newline' width) := by
    intro p q h
    unfold Page.onward
    have hcol := hplace p q h
    by_cases hroom : p.col + 1 < width
    · rw [if_pos hroom, if_pos (by omega)]
      exact hright p q h
    · rw [if_neg hroom, if_neg (by omega)]
      exact hnewline p q h
  induction as generalizing p q with
  | nil => exact h
  | cons a as ih =>
      cases a with
      | newline => exact ih (hnewline p q h)
      | advance => exact ih (honward p q h)
      | write a => exact ih (honward _ _ (hput a p q h))

end Rules

/-! ### The window -/

/-- The first canvas row a window of `height` rows shows. -/
def top (height row : Nat) : Nat := row - (height - 1)

/-- The window shows the last rows of the canvas, and the canvas is blank behind them. -/
structure Shows (height : Nat) (blank : α) (canvas window : Page α) : Prop where
  row : window.row = canvas.row - top height canvas.row
  col : window.col = canvas.col
  cell : ∀ r, r < height → ∀ x, window.cell r x = canvas.cell (top height canvas.row + r) x
  below : ∀ r, top height canvas.row + height ≤ r → ∀ x, canvas.cell r x = blank

section Shows

variable {height left : Nat} {blank : α} {c w : Page α}

theorem Shows.put (hpos : 0 < height) (a : α) (h : Shows height blank c w) :
    Shows height blank (c.put a) (w.put a) := by
  have hrow := h.row
  have htop : top height c.row ≤ c.row := by unfold top; omega
  have hlast : c.row < top height c.row + height := by unfold top; omega
  refine ⟨h.row, h.col, ?_, ?_⟩
  · intro r hr x
    have hplace : (r = w.row ∧ x = w.col) ↔ (top height c.row + r = c.row ∧ x = c.col) := by
      rw [h.col]
      omega
    simp only [Page.put, hplace, h.cell r hr x]
  · intro r hr x
    have hne : ¬ (r = c.row ∧ x = c.col) := by
      have hr' : top height c.row + height ≤ r := hr
      omega
    simp only [Page.put, if_neg hne]
    exact h.below r hr x

theorem Shows.newline (hpos : 0 < height) (h : Shows height blank c w) :
    Shows height blank (c.next left) (w.scroll height left blank) := by
  have hrow := h.row
  unfold Page.scroll
  split
  · rename_i hroom
    -- room below: the canvas row is still in the window and the window stands still
    have htop : top height (c.row + 1) = top height c.row := by
      unfold top at hrow ⊢
      omega
    refine ⟨?_, rfl, ?_, ?_⟩
    · change w.row + 1 = c.row + 1 - top height (c.row + 1)
      rw [htop]
      unfold top at hrow ⊢
      omega
    · intro r hr x
      change w.cell r x = c.cell (top height (c.row + 1) + r) x
      rw [htop]
      exact h.cell r hr x
    · intro r hr x
      refine h.below r ?_ x
      rw [← htop]
      exact hr
  · rename_i hfull
    have htop : top height (c.row + 1) = top height c.row + 1 := by
      unfold top at hrow ⊢
      omega
    refine ⟨?_, rfl, ?_, ?_⟩
    · change w.row = c.row + 1 - top height (c.row + 1)
      rw [htop]
      omega
    · intro r hr x
      change (if r + 1 < height then w.cell (r + 1) x else blank) =
        c.cell (top height (c.row + 1) + r) x
      rw [htop, Nat.add_right_comm, Nat.add_assoc]
      split
      · rename_i hlt
        exact h.cell (r + 1) hlt x
      · exact (h.below _ (by omega) x).symm
    · intro r hr x
      refine h.below r ?_ x
      have hr' : top height (c.row + 1) + height ≤ r := hr
      omega

/-- **A terminal shows the canvas.** -/
theorem Shows.acts {width : Nat} (hpos : 0 < height) (as : List (Act α))
    (h : Shows height blank c w) :
    Shows height blank (c.acts (Page.next left) width as)
      (w.acts (Page.scroll height left blank) width as) :=
  Page.acts_related (fun _ _ h => h.col) (fun a _ _ h => h.put hpos a)
    (fun _ _ h => ⟨h.row, congrArg (· + 1) h.col, h.cell, h.below⟩)
    (fun _ _ h => h.newline hpos) as h

theorem Shows.of_window (hrow : w.row < height) :
    Shows height blank
      { w with cell := fun r x => if r < height then w.cell r x else blank } w := by
  have htop : top height w.row = 0 := by unfold top; omega
  refine ⟨?_, rfl, ?_, ?_⟩
  · change w.row = w.row - top height w.row
    omega
  · intro r hr x
    change w.cell r x =
      if top height w.row + r < height then w.cell (top height w.row + r) x else blank
    rw [htop, Nat.zero_add, if_pos hr]
  · intro r hr x
    have hr' : top height w.row + height ≤ r := hr
    exact if_neg (by omega)

theorem Shows.row_lt (hpos : 0 < height) (h : Shows height blank c w) : w.row < height := by
  rw [h.row]
  unfold top
  omega

end Shows

end Vulcanos.Canvas
