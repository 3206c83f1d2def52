namespace Holov

abbrev Bindings (α : Type) := List (String × α)

namespace Bindings

variable {α : Type}

/-- Binds a name in place of an earlier binding, or behind the others. -/
def assign : Bindings α → String → α → Bindings α
  | [], name, a => [(name, a)]
  | (key, value) :: rest, name, a =>
    if key = name then (key, a) :: rest else (key, value) :: assign rest name a

theorem lookup_cons (key name : String) (value : α) (rest : Bindings α) :
    List.lookup name ((key, value) :: rest) =
      if key = name then some value else rest.lookup name := by
  by_cases h : key = name
  · rw [h, List.lookup_cons_self, if_pos rfl]
  · rw [List.lookup_cons, beq_eq_false_iff_ne.mpr (Ne.symm h), if_neg h]

theorem lookup_assign (b : Bindings α) (name other : String) (a : α) :
    (assign b name a).lookup other = if name = other then some a else b.lookup other := by
  induction b with
  | nil => exact lookup_cons name other a []
  | cons entry rest ih =>
    obtain ⟨key, value⟩ := entry
    by_cases hk : key = name
    · subst hk
      by_cases ho : key = other <;> simp [assign, lookup_cons, ho]
    · by_cases ho : key = other
      · subst ho
        simp [assign, hk, Ne.symm hk]
      · simp [assign, lookup_cons, hk, ho, ih]

section Renamed

variable {β : Type} {f : String → String} (hf : Function.Injective f) (g : α → β)
include hf

theorem lookup_renamed (b : Bindings α) (name : String) :
    (b.map (Prod.map f g)).lookup (f name) = (b.lookup name).map g := by
  induction b with
  | nil => rfl
  | cons entry rest ih =>
    obtain ⟨key, value⟩ := entry
    by_cases hk : key = name
    · simp [hk]
    · simp [lookup_cons, hk, hf.eq_iff, ih]

theorem assign_renamed (b : Bindings α) (name : String) (a : α) :
    (assign b name a).map (Prod.map f g) = assign (b.map (Prod.map f g)) (f name) (g a) := by
  induction b with
  | nil => rfl
  | cons entry rest ih =>
    obtain ⟨key, value⟩ := entry
    by_cases hk : key = name
    · simp [assign, hk]
    · simp [assign, hk, hf.eq_iff, ih]

end Renamed

theorem lookup_map {β : Type} (g : α → β) (b : Bindings α) (name : String) :
    (b.map fun entry => (entry.1, g entry.2)).lookup name = (b.lookup name).map g :=
  lookup_renamed Function.injective_id g b name

theorem assign_map {β : Type} (g : α → β) (b : Bindings α) (name : String) (a : α) :
    (assign b name a).map (fun entry => (entry.1, g entry.2)) =
      assign (b.map fun entry => (entry.1, g entry.2)) name (g a) :=
  assign_renamed Function.injective_id g b name a

end Bindings

end Holov
