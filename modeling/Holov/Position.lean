namespace Holov

/-- Lines and columns count from one, and only a newline starts a line. -/
structure Position where
  line : Nat := 1
  column : Nat := 1
deriving DecidableEq, Repr, Inhabited

namespace Position

def advance (p : Position) (c : Char) : Position :=
  if c = '\n' then ⟨p.line + 1, 1⟩ else ⟨p.line, p.column + 1⟩

def after (p : Position) (cs : List Char) : Position :=
  cs.foldl advance p

@[simp] theorem after_nil (p : Position) : p.after [] = p := rfl

@[simp] theorem after_cons (p : Position) (c : Char) (cs : List Char) :
    p.after (c :: cs) = (p.advance c).after cs := rfl

theorem after_append (p : Position) (cs ds : List Char) :
    p.after (cs ++ ds) = (p.after cs).after ds := by
  simp [after]

theorem advance_of_ne {c : Char} (h : c ≠ '\n') (p : Position) :
    p.advance c = ⟨p.line, p.column + 1⟩ := by
  simp [advance, h]

/-- A text without a newline moves the column only. -/
theorem after_of_forall_ne {cs : List Char} (h : ∀ c ∈ cs, c ≠ '\n') (p : Position) :
    p.after cs = ⟨p.line, p.column + cs.length⟩ := by
  induction cs generalizing p with
  | nil => simp
  | cons c cs ih =>
    rw [after_cons, ih (fun d hd => h d (by simp [hd])), advance_of_ne (h c (by simp))]
    simp [Nat.add_comm, Nat.add_left_comm]

def text (p : Position) : String :=
  "line " ++ p.line.repr ++ ", column " ++ p.column.repr

def report (p : Position) (message : String) : String :=
  "Error on " ++ p.text ++ ": " ++ message

end Position

end Holov
