namespace Holov

structure Cursor (α : Type) where
  last? : Option α := none
  ahead : List α
deriving DecidableEq, Repr, Inhabited

namespace Cursor

variable {α β : Type}

/-- Something read from `c`, and the cursor after it, which has less ahead. -/
structure Read (c : Cursor α) (β : Type) where
  result : β
  next : Cursor α
  shorter : next.ahead.length < c.ahead.length

def ofList (items : List α) : Cursor α :=
  { ahead := items }

def peek? (c : Cursor α) : Option α :=
  c.ahead.head?

def take? : (c : Cursor α) → Option (c.Read α)
  | ⟨_, []⟩ => none
  | ⟨_, a :: rest⟩ => some ⟨a, ⟨some a, rest⟩, Nat.lt_succ_self _⟩

def takeIf? (p : α → Bool) (c : Cursor α) : Option (c.Read α) :=
  c.take?.filter fun r => p r.result

@[simp] theorem takeIf?_nil (p : α → Bool) (last : Option α) :
    takeIf? p ⟨last, []⟩ = none := rfl

theorem takeIf?_cons (p : α → Bool) (last : Option α) (a : α) (rest : List α) :
    takeIf? p ⟨last, a :: rest⟩ =
      if p a then some ⟨a, ⟨some a, rest⟩, Nat.lt_succ_self _⟩ else none := by
  simp [takeIf?, take?, Option.filter]

def Read.ofLater {c d : Cursor α} (r : d.Read β) (h : d.ahead.length < c.ahead.length) : c.Read β :=
  ⟨r.result, r.next, Nat.lt_trans r.shorter h⟩

end Cursor

end Holov
