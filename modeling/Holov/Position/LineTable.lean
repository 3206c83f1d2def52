import Holov.Position

namespace Holov

structure LineStart where
  offset : Nat
  /-- The text from there to the end. -/
  text : List Char
deriving Repr, Inhabited

def LineStart.afterNewlines (offset : Nat) : List Char → List LineStart
  | [] => []
  | c :: cs =>
    let next := offset + c.utf8Size
    if c = '\n' then ⟨next, cs⟩ :: afterNewlines next cs else afterNewlines next cs

/-- The number of characters in the first `n` bytes of `cs`, if these are whole characters. -/
def charCount? : List Char → Nat → Option Nat
  | _, 0 => some 0
  | [], _ + 1 => none
  | c :: cs, n + 1 =>
    if c.utf8Size ≤ n + 1 then (charCount? cs (n + 1 - c.utf8Size)).map (· + 1) else none

/-- The least index from `lo` on at which `p` fails, or `hi`, found by bisection: `p` is to hold on
a front part of the interval and fail on the rest. -/
def partitionPoint (p : Nat → Bool) (lo hi : Nat) : Nat :=
  if lo < hi then
    let mid := (lo + hi) / 2
    if p mid then partitionPoint p (mid + 1) hi else partitionPoint p lo mid
  else lo
termination_by hi - lo

structure LineTable where
  lines : Array LineStart
deriving Repr, Inhabited

namespace LineTable

def ofString (source : String) : LineTable :=
  ⟨(⟨0, source.toList⟩ :: LineStart.afterNewlines 0 source.toList).toArray⟩

def lineCount (index : LineTable) (offset : Nat) : Nat :=
  partitionPoint (fun i => index.lines[i]?.any fun l => l.offset ≤ offset) 0 index.lines.size

/-- The position of the byte `offset`. There is none past the end of the text or inside a
character; the end itself has one. -/
def position? (index : LineTable) (offset : Nat) : Option Position := do
  let line := index.lineCount offset
  let start ← index.lines[line - 1]?
  let count ← charCount? start.text (offset - start.offset)
  return ⟨line, count + 1⟩

end LineTable

end Holov
