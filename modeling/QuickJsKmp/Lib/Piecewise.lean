import Mathlib.Data.List.Basic

/-!
# Reading a list piece by piece

A piece reader looks at the first element and at what follows, and says what
the piece is read as and how many of the following elements belong to it. The
same list may be cut into pieces by two readers; where they agree on every piece
of the one, they read the whole list alike.
-/

namespace Piecewise

variable {α β : Type}

/-- What the first piece is read as, and how many elements it takes besides the first. -/
abbrev Reader (α β : Type) : Type := α → List α → List β × ℕ

variable {read read' : Reader α β} {P Q : α → List α → Prop}

/-- Reading after `skip` elements that belong to the piece before. -/
def runFrom (read : Reader α β) : ℕ → List α → List β
  | _, [] => []
  | 0, a :: as => (read a as).1 ++ runFrom read (read a as).2 as
  | skip + 1, _ :: as => runFrom read skip as

def run (read : Reader α β) (l : List α) : List β := runFrom read 0 l

/-- `P` holds at the beginning of every piece. -/
def AlongFrom (read : Reader α β) (P : α → List α → Prop) : ℕ → List α → Prop
  | _, [] => True
  | 0, a :: as => P a as ∧ AlongFrom read P (read a as).2 as
  | skip + 1, _ :: as => AlongFrom read P skip as

def Along (read : Reader α β) (P : α → List α → Prop) (l : List α) : Prop := AlongFrom read P 0 l

theorem runFrom_eq (skip : ℕ) (l : List α) : runFrom read skip l = run read (l.drop skip) := by
  induction l generalizing skip with
  | nil => simp [run, runFrom]
  | cons a as ih =>
    cases skip with
    | zero => rfl
    | succ skip => exact ih skip

theorem alongFrom_iff (skip : ℕ) (l : List α) :
    AlongFrom read P skip l ↔ Along read P (l.drop skip) := by
  induction l generalizing skip with
  | nil => simp [Along, AlongFrom]
  | cons a as ih =>
    cases skip with
    | zero => exact Iff.rfl
    | succ skip => exact ih skip

@[simp] theorem run_nil : run read [] = [] := rfl

theorem run_cons (a : α) (as : List α) :
    run read (a :: as) = (read a as).1 ++ run read (as.drop (read a as).2) := by
  rw [← runFrom_eq]
  rfl

theorem along_cons {a : α} {as : List α} :
    Along read P (a :: as) ↔ P a as ∧ Along read P (as.drop (read a as).2) := by
  rw [← alongFrom_iff]
  exact Iff.rfl

/-- Induction over the pieces of a list. -/
theorem pieces_induction (read : Reader α β) {motive : List α → Prop} (nil : motive [])
    (cons : ∀ a as, motive (as.drop (read a as).2) → motive (a :: as)) (l : List α) : motive l := by
  have hall : ∀ n, ∀ l : List α, l.length ≤ n → motive l := by
    intro n
    induction n with
    | zero => exact fun l hl => List.eq_nil_of_length_eq_zero (Nat.le_zero.mp hl) ▸ nil
    | succ n ih =>
      intro l hl
      cases l with
      | nil => exact nil
      | cons a as =>
        refine cons a as (ih _ ?_)
        rw [List.length_drop]
        exact Nat.le_trans (Nat.sub_le ..) (Nat.le_of_succ_le_succ hl)
  exact hall l.length l (Nat.le_refl _)

theorem Along.imp (h : ∀ {a as}, P a as → Q a as) {l : List α} (hl : Along read P l) :
    Along read Q l := by
  induction l using pieces_induction read with
  | nil => trivial
  | cons a as ih =>
    obtain ⟨hhere, hrest⟩ := along_cons.mp hl
    exact along_cons.mpr ⟨h hhere, ih hrest⟩

-- ---------------------------------------------------------------------------
-- Front parts
-- ---------------------------------------------------------------------------

/-- The list begins with `front`, and `front` is made of whole pieces. -/
inductive Front (read : Reader α β) : List α → List α → Prop
  | nil (l : List α) : Front read [] l
  | cons {a : α} {as front : List α} (h : Front read front (as.drop (read a as).2)) :
    Front read (a :: (as.take (read a as).2 ++ front)) (a :: as)

/-- A reader that looks no further than the piece it takes. -/
structure Local (read : Reader α β) : Prop where
  within : ∀ a as, (read a as).2 ≤ as.length
  take : ∀ a as n, (read a as).2 ≤ n → read a (as.take n) = read a as

theorem Front.take (h : Front read front l) : ∃ n, front = l.take n := by
  induction h with
  | nil l => exact ⟨0, rfl⟩
  | @cons a as front h ih =>
    obtain ⟨n, rfl⟩ := ih
    exact ⟨(read a as).2 + n + 1, by rw [List.take_succ_cons, List.take_add]⟩

/-- The whole list is made of its pieces. -/
theorem Front.whole (read : Reader α β) (l : List α) : Front read l l := by
  induction l using pieces_induction read with
  | nil => exact .nil []
  | cons a as ih =>
    have h := Front.cons ih
    rwa [List.take_append_drop] at h

/-- A local reader cuts a front part into the pieces that the list begins with. -/
theorem Local.run_front (hlocal : Local read) (a : α) (as : List α) (n : ℕ) :
    run read (a :: (as.take (read a as).2 ++ (as.drop (read a as).2).take n)) =
      (read a as).1 ++ run read ((as.drop (read a as).2).take n) := by
  have hsame : read a (as.take (read a as).2 ++ (as.drop (read a as).2).take n) = read a as := by
    rw [← List.take_add]
    exact hlocal.take a as _ (Nat.le_add_right ..)
  rw [run_cons, hsame, List.drop_left' (List.length_take_of_le (hlocal.within a as))]

variable {front l : List α}

/-- Front parts of a list whose pieces are read alike are read alike. -/
theorem Along.run_front (hlocal : Local read) (hlocal' : Local read')
    (h : Along read (fun a as => read a as = read' a as) l) (hfront : Front read front l) :
    run read front = run read' front := by
  induction hfront with
  | nil l => rfl
  | @cons a as front hfront ih =>
    obtain ⟨hhere, hrest⟩ := along_cons.mp h
    obtain ⟨n, rfl⟩ := hfront.take
    have hrest := ih hrest
    rw [hlocal.run_front, hrest, hhere, hlocal'.run_front]

end Piecewise
