namespace Holov

namespace Word

def truth : String := "ճշմարիտ"
def falsity : String := "կեղծ"
def naming : String := "որպես"
def function : String := "գործառույթ"
def parameter : String := "չափոցով"
def separator : String := "և"

end Word

def quoteOpen : Char := '«'
def quoteClose : Char := '»'
def commentOpen : Char := '('
def commentClose : Char := ')'

/-- The Armenian letters, in either case, with the ligature `և`. -/
def isLetter (c : Char) : Bool :=
  ('Ա' ≤ c && c ≤ 'Ֆ') || ('ա' ≤ c && c ≤ 'և')

/-- Spaces and newlines. No other character separates tokens. -/
def isBlank (c : Char) : Bool :=
  c = ' ' || c = '\n'

/-- The letters that mark a grammatical case when they end a word. -/
def isCaseMarker (c : Char) : Bool :=
  c = 'ն' || c = 'ը'

theorem isLetter_of_isCaseMarker {c : Char} (h : isCaseMarker c) : isLetter c := by
  simp only [isCaseMarker, Bool.or_eq_true, decide_eq_true_eq] at h
  rcases h with rfl | rfl <;> decide

/-- Splits at most one final case marker off a word, and says whether it did. -/
def splitCaseMarker (cs : List Char) : List Char × Bool :=
  match cs.getLast? with
  | none => (cs, false)
  | some c => if isCaseMarker c then (cs.dropLast, true) else (cs, false)

@[simp] theorem splitCaseMarker_nil : splitCaseMarker [] = ([], false) := rfl

theorem splitCaseMarker_append_of_isCaseMarker (cs : List Char) {c : Char} (h : isCaseMarker c) :
    splitCaseMarker (cs ++ [c]) = (cs, true) := by
  simp [splitCaseMarker, h]

end Holov
