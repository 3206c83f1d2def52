import Holov.Program
import Holov.Scope.Bindings
import Holov.Value

namespace Holov

structure Routine where
  params : List String
  body : Block
deriving Repr, Inhabited

structure Frame where
  values : Bindings Value := []
  routines : Bindings Routine := []
deriving Repr, Inhabited

/-- A chain of frames. A lookup goes from the innermost one outwards, and a definition binds in the
innermost one. -/
structure Scope where
  frame : Frame := {}
  outer : List Frame := []
deriving Repr, Inhabited

namespace Scope

/-- All frames, the innermost first. -/
def frames (s : Scope) : List Frame :=
  s.frame :: s.outer

def depth (s : Scope) : Nat :=
  s.frames.length

def value? (s : Scope) (name : String) : Option Value :=
  s.frames.findSome? fun f => f.values.lookup name

def routine? (s : Scope) (name : String) : Option Routine :=
  s.frames.findSome? fun f => f.routines.lookup name

def defineVariable (s : Scope) (name : String) (v : Value) : Scope :=
  { s with frame := { s.frame with values := s.frame.values.assign name v } }

def defineFunction (s : Scope) (name : String) (r : Routine) : Scope :=
  { s with frame := { s.frame with routines := s.frame.routines.assign name r } }

def defineVariables (s : Scope) (pairs : List (String × Value)) : Scope :=
  pairs.foldl (fun s p => s.defineVariable p.1 p.2) s

def enter (s : Scope) : Scope :=
  { outer := s.frames }

def leave? (s : Scope) : Option Scope :=
  match s.outer with
  | [] => none
  | frame :: outer => some ⟨frame, outer⟩

@[simp] theorem leave?_enter (s : Scope) : s.enter.leave? = some s := rfl

@[simp] theorem depth_enter (s : Scope) : s.enter.depth = s.depth + 1 := rfl

@[simp] theorem depth_defineVariable (s : Scope) (name : String) (v : Value) :
    (s.defineVariable name v).depth = s.depth := rfl

@[simp] theorem depth_defineFunction (s : Scope) (name : String) (r : Routine) :
    (s.defineFunction name r).depth = s.depth := rfl

@[simp] theorem value?_enter (s : Scope) (name : String) :
    s.enter.value? name = s.value? name := rfl

@[simp] theorem routine?_enter (s : Scope) (name : String) :
    s.enter.routine? name = s.routine? name := rfl

theorem value?_defineVariable (s : Scope) (name other : String) (v : Value) :
    (s.defineVariable name v).value? other =
      if name = other then some v else s.value? other := by
  by_cases h : name = other <;>
    simp [value?, frames, defineVariable, List.findSome?_cons, Bindings.lookup_assign, h]

@[simp] theorem routine?_defineVariable (s : Scope) (name other : String) (v : Value) :
    (s.defineVariable name v).routine? other = s.routine? other := rfl

theorem routine?_defineFunction (s : Scope) (name other : String) (r : Routine) :
    (s.defineFunction name r).routine? other =
      if name = other then some r else s.routine? other := by
  by_cases h : name = other <;>
    simp [routine?, frames, defineFunction, List.findSome?_cons, Bindings.lookup_assign, h]

@[simp] theorem value?_defineFunction (s : Scope) (name other : String) (r : Routine) :
    (s.defineFunction name r).value? other = s.value? other := rfl

end Scope

section MapRoutines

variable (g : Routine → Routine)

def Frame.mapRoutines (frame : Frame) : Frame :=
  { frame with routines := frame.routines.map fun entry => (entry.1, g entry.2) }

def Scope.mapRoutines (s : Scope) : Scope :=
  ⟨s.frame.mapRoutines g, s.outer.map (Frame.mapRoutines g)⟩

theorem Frame.mapRoutines_id : Frame.mapRoutines id = id := by
  funext frame
  exact congrArg (Frame.mk frame.values) (List.map_id frame.routines)

namespace Scope

theorem mapRoutines_id (s : Scope) : s.mapRoutines id = s := by
  rw [mapRoutines, Frame.mapRoutines_id, List.map_id, id]

theorem frames_mapRoutines (s : Scope) :
    (s.mapRoutines g).frames = s.frames.map (Frame.mapRoutines g) := rfl

theorem value?_mapRoutines (s : Scope) (name : String) :
    (s.mapRoutines g).value? name = s.value? name := by
  rw [value?, frames_mapRoutines, List.findSome?_map, value?]
  rfl

theorem routine?_mapRoutines (s : Scope) (name : String) :
    (s.mapRoutines g).routine? name = (s.routine? name).map g := by
  rw [routine?, frames_mapRoutines, List.findSome?_map, routine?, List.map_findSome?]
  congr 1
  funext frame
  exact Bindings.lookup_map g frame.routines name

theorem defineFunction_mapRoutines (s : Scope) (name : String) (r : Routine) :
    (s.defineFunction name r).mapRoutines g = (s.mapRoutines g).defineFunction name (g r) := by
  simp only [defineFunction, mapRoutines, Frame.mapRoutines, Bindings.assign_map]

theorem defineVariables_mapRoutines (s : Scope) (pairs : List (String × Value)) :
    (s.defineVariables pairs).mapRoutines g = (s.mapRoutines g).defineVariables pairs := by
  induction pairs generalizing s with
  | nil => rfl
  | cons p pairs ih => exact ih (s.defineVariable p.1 p.2)

end Scope

end MapRoutines

end Holov
