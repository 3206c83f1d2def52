namespace Holov

/-- A sink with a limit takes bytes up to that limit and refuses the rest. -/
structure Sink where
  written : Array UInt8 := #[]
  limit : Option Nat := none
  /-- Why a byte past the limit is refused. -/
  refusal : String := ""
deriving DecidableEq, Repr, Inhabited

namespace Sink

def room (s : Sink) (n : Nat) : Nat :=
  match s.limit with
  | none => n
  | some limit => min n (limit - s.written.size)

/-- Writes as many of the bytes as there is room for, and says whether that was all of them. -/
def write (s : Sink) (bytes : List UInt8) : Bool × Sink :=
  let n := s.room bytes.length
  (n == bytes.length, { s with written := s.written ++ bytes.take n })

def writeText (s : Sink) (text : String) : Bool × Sink :=
  s.write text.toUTF8.data.toList

theorem written_write (s : Sink) (bytes : List UInt8) :
    (s.write bytes).2.written.toList = s.written.toList ++ bytes.take (s.room bytes.length) := by
  simp [write]

end Sink

end Holov
