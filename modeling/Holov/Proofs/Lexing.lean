import Holov.Token.Lexer

namespace Holov

namespace Lexeme

/-- Whether a lexeme can stand in front of `rest`: a run of letters or digits ends there, and the
meaning of `«` depends on whether a body opener is `awaited`. -/
def Fits (awaited : Prop) (rest : List Char) : Lexeme → Prop
  | blank run => run ≠ [] ∧ ∀ c ∈ run, isBlank c
  | comment text => commentClose ∉ text
  | bodyOpening => awaited
  | quote text => ¬ awaited ∧ quoteClose ∉ text
  | closing => True
  | word letters => letters ≠ [] ∧ (∀ c ∈ letters, isLetter c) ∧ ∀ c ∈ rest.head?, ¬ isLetter c
  | number digits => digits ≠ [] ∧ (∀ c ∈ digits, c.isDigit) ∧ ∀ c ∈ rest.head?, ¬ c.isDigit

-- These come first, so that no instance is taken that runs over all characters.
instance decidableForallMem (p : Char → Prop) [DecidablePred p] (cs : List Char) :
    Decidable (∀ c ∈ cs, p c) :=
  List.decidableBAll p cs

instance decidableForallMemHead (p : Char → Prop) [DecidablePred p] (c? : Option Char) :
    Decidable (∀ c ∈ c?, p c) :=
  Option.decidableForallMem c?

instance (awaited : Prop) [Decidable awaited] (rest : List Char) :
    (l : Lexeme) → Decidable (l.Fits awaited rest)
  | blank _ => inferInstanceAs (Decidable (_ ∧ _))
  | comment _ => inferInstanceAs (Decidable (¬ _))
  | bodyOpening => inferInstanceAs (Decidable awaited)
  | quote _ => inferInstanceAs (Decidable (_ ∧ _))
  | closing => inferInstanceAs (Decidable True)
  | word _ | number _ => inferInstanceAs (Decidable (_ ∧ _ ∧ _))

theorem isLetter_eq_false_of_isDigit {c : Char} (h : c.isDigit) : isLetter c = false := by
  simp only [Char.isDigit, Bool.and_eq_true, decide_eq_true_eq, UInt32.le_iff_toNat_le] at h
  simp only [isLetter, Bool.or_eq_false_iff, Bool.and_eq_false_iff, decide_eq_false_iff_not,
    Char.le_def, UInt32.le_iff_toNat_le]
  have h₁ : ('9' : Char).val.toNat < ('Ա' : Char).val.toNat := by decide
  have h₂ : ('Ա' : Char).val.toNat < ('ա' : Char).val.toNat := by decide
  omega

theorem takeWhile_append_of_head {p : Char → Bool} {cs rest : List Char} (hcs : ∀ c ∈ cs, p c)
    (hr : ∀ c ∈ rest.head?, ¬ p c) : (cs ++ rest).takeWhile p = cs := by
  rw [List.takeWhile_append_of_pos hcs]
  cases rest with
  | nil => simp
  | cons c rest => simp [hr c (by simp)]

theorem textUpTo?_append {stop : Char} {text : List Char} (h : stop ∉ text) (rest : List Char) :
    textUpTo? stop (text ++ stop :: rest) = some text := by
  have ht : ∀ c ∈ text, (decide (c ≠ stop)) = true := by
    intro c hc
    simpa using fun e : c = stop => h (e ▸ hc)
  rw [textUpTo?, if_pos (by simp), takeWhile_append_of_head ht (by simp)]

/-- A character that is neither blank nor a delimiter starts a run or nothing. -/
theorem first_of_notMem {pending : Bool} {c : Char} (cs : List Char)
    (h : c ∉ [' ', '\n', commentOpen, quoteOpen, quoteClose]) :
    first pending c cs =
      if isLetter c then .ok (word (c :: cs.takeWhile isLetter))
      else if c.isDigit then .ok (number (c :: cs.takeWhile Char.isDigit))
      else .error (.stray c) := by
  simp only [List.mem_cons, List.not_mem_nil, or_false, not_or] at h
  obtain ⟨h₁, h₂, h₃, h₄, h₅⟩ := h
  simp [first, isBlank, h₁, h₂, h₃, h₄, h₅]

theorem first_of_isLetter (pending : Bool) {c : Char} (cs : List Char) (h : isLetter c) :
    first pending c cs = .ok (word (c :: cs.takeWhile isLetter)) := by
  rw [first_of_notMem, if_pos h]
  intro hc
  have hd : [' ', '\n', commentOpen, quoteOpen, quoteClose].all (fun d => !isLetter d) := by decide
  have hn := List.all_eq_true.mp hd c hc
  rw [h] at hn
  cases hn

theorem first_of_isDigit (pending : Bool) {c : Char} (cs : List Char) (h : c.isDigit) :
    first pending c cs = .ok (number (c :: cs.takeWhile Char.isDigit)) := by
  rw [first_of_notMem, isLetter_eq_false_of_isDigit h, if_neg (by simp), if_pos h]
  intro hc
  have hd : [' ', '\n', commentOpen, quoteOpen, quoteClose].all (fun d => !d.isDigit) := by decide
  have hn := List.all_eq_true.mp hd c hc
  rw [h] at hn
  cases hn

/-- A lexeme that fits is the first one of the text. A blank has to reach as far as it can. -/
theorem first_of_fits {pending : Bool} {rest : List Char} {l : Lexeme} (h : l.Fits pending rest)
    (hb : ∀ run, l = blank run → ∀ c ∈ rest.head?, ¬ isBlank c) :
    ∃ c cs, l.spelling = c :: cs ∧ first pending c (cs ++ rest) = .ok l := by
  cases l with
  | blank run =>
    obtain ⟨hne, hr⟩ := h
    obtain ⟨c, cs, rfl⟩ := List.exists_cons_of_ne_nil hne
    refine ⟨c, cs, rfl, ?_⟩
    have hcs : ∀ d ∈ cs, isBlank d := fun d hd => hr d (by simp [hd])
    rw [first, if_pos (hr c (by simp)), takeWhile_append_of_head hcs (hb _ rfl)]
  | comment text =>
    refine ⟨commentOpen, text ++ [commentClose], rfl, ?_⟩
    rw [List.append_assoc, List.singleton_append]
    simp [first, textUpTo?_append h, show isBlank commentOpen = false by decide]
  | bodyOpening =>
    have hp : pending = true := h
    exact ⟨quoteOpen, [], rfl, by subst hp; rfl⟩
  | quote text =>
    have hp : pending = false := by simpa using h.1
    refine ⟨quoteOpen, text ++ [quoteClose], rfl, ?_⟩
    rw [List.append_assoc, List.singleton_append, hp]
    simp [first, textUpTo?_append h.2, show isBlank quoteOpen = false by decide,
      show quoteOpen ≠ commentOpen by decide]
  | closing => exact ⟨quoteClose, [], rfl, rfl⟩
  | word letters =>
    obtain ⟨hne, hl, hr⟩ := h
    obtain ⟨c, cs, rfl⟩ := List.exists_cons_of_ne_nil hne
    refine ⟨c, cs, rfl, ?_⟩
    rw [first_of_isLetter _ _ (hl c (by simp)),
      takeWhile_append_of_head (fun d hd => hl d (by simp [hd])) hr]
  | number digits =>
    obtain ⟨hne, hl, hr⟩ := h
    obtain ⟨c, cs, rfl⟩ := List.exists_cons_of_ne_nil hne
    refine ⟨c, cs, rfl, ?_⟩
    rw [first_of_isDigit _ _ (hl c (by simp)),
      takeWhile_append_of_head (fun d hd => hl d (by simp [hd])) hr]

/-- A run that is taken as far as it goes fits in front of what follows it. -/
theorem fits_run (p : Char → Bool) {c : Char} (cs : List Char) (hc : p c) :
    (∀ d ∈ c :: cs.takeWhile p, p d) ∧ ∀ d ∈ (cs.drop (cs.takeWhile p).length).head?, ¬ p d := by
  induction cs generalizing c with
  | nil => simpa using hc
  | cons d cs ih =>
    by_cases hd : p d
    · obtain ⟨ht, hr⟩ := ih hd
      rw [List.takeWhile_cons_of_pos hd]
      exact ⟨List.forall_mem_cons.mpr ⟨hc, ht⟩, hr⟩
    · rw [List.takeWhile_cons_of_neg hd]
      exact ⟨by simpa using hc, by simpa using hd⟩

theorem spelling_pos {awaited : Prop} {rest : List Char} {l : Lexeme} (h : l.Fits awaited rest) :
    0 < l.spelling.length := by
  cases l with
  | blank run => exact List.length_pos_iff.mpr h.1
  | word letters => exact List.length_pos_iff.mpr h.1
  | number digits => exact List.length_pos_iff.mpr h.1
  | comment _ | bodyOpening | quote _ | closing => simp [spelling]

theorem drop_spelling {awaited : Prop} {rest : List Char} {l : Lexeme} (h : l.Fits awaited rest)
    (c : Char) (cs : List Char) :
    (c :: cs).drop l.spelling.length = cs.drop (l.spelling.length - 1) := by
  obtain ⟨n, hn⟩ := Nat.exists_eq_add_of_lt (spelling_pos h)
  rw [hn, Nat.zero_add, List.drop_succ_cons, Nat.add_sub_cancel]

theorem fits_of_first {pending : Bool} {c : Char} {cs : List Char} {l : Lexeme}
    (h : first pending c cs = .ok l) : l.Fits pending ((c :: cs).drop l.spelling.length) := by
  unfold first at h
  split at h
  · rename_i hc
    cases h
    exact ⟨by simp, (fits_run isBlank cs hc).1⟩
  split at h
  · split at h
    · rename_i text ht
      cases h
      exact (textUpTo?_eq_some ht).2
    · cases h
  split at h
  · split at h
    · rename_i hp
      cases h
      exact hp
    · rename_i hp
      split at h
      · rename_i text ht
        cases h
        exact ⟨hp, (textUpTo?_eq_some ht).2⟩
      · cases h
  split at h
  · cases h
    trivial
  split at h
  · rename_i hc
    cases h
    exact ⟨by simp, fits_run isLetter cs hc⟩
  split at h
  · rename_i hc
    cases h
    exact ⟨by simp, fits_run Char.isDigit cs hc⟩
  · cases h

end Lexeme

theorem tokensFrom_of_first {pending : Bool} {c : Char} {cs rest : List Char} {l : Lexeme}
    (hs : l.spelling = c :: cs) (h : Lexeme.first pending c (cs ++ rest) = .ok l) (p : Position) :
    tokensFrom p pending (l.spelling ++ rest) =
      (tokensFrom (p.after l.spelling) (l.opensBodyNext pending) rest).map (l.tokens p ++ ·) := by
  have hd : (cs ++ rest).drop ((c :: cs).length - 1) = rest := by simp
  rw [hs, List.cons_append, tokensFrom, h]
  simp only [hs, hd]
  cases tokensFrom (p.after (c :: cs)) (l.opensBodyNext pending) rest <;> rfl

theorem map_blank (p q : Position) (pending : Bool) (run rest : List Char) :
    (tokensFrom q ((Lexeme.blank run).opensBodyNext pending) rest).map
      ((Lexeme.blank run).tokens p ++ ·) = tokensFrom q pending rest := by
  change (tokensFrom q pending rest).map ([] ++ ·) = _
  cases tokensFrom q pending rest <;> rfl

theorem tokensFrom_dropWhile (p : Position) (pending : Bool) (cs : List Char) :
    tokensFrom p pending cs =
      tokensFrom (p.after (cs.takeWhile isBlank)) pending (cs.dropWhile isBlank) := by
  cases cs with
  | nil => rfl
  | cons c cs =>
    by_cases hc : isBlank c
    · have hf : Lexeme.first pending c (cs.takeWhile isBlank ++ cs.dropWhile isBlank) =
          .ok (.blank (c :: cs.takeWhile isBlank)) := by
        rw [List.takeWhile_append_dropWhile, Lexeme.first, if_pos hc]
      have h := tokensFrom_of_first rfl hf p
      rw [List.takeWhile_cons_of_pos hc, List.dropWhile_cons_of_pos hc]
      simp only [Lexeme.spelling, List.cons_append, List.takeWhile_append_dropWhile] at h
      rw [h, map_blank]
    · rw [List.takeWhile_cons_of_neg hc, List.dropWhile_cons_of_neg hc, Position.after_nil]

/-- Blanks only move the position. -/
theorem tokensFrom_blank {run : List Char} (h : ∀ c ∈ run, isBlank c) (p : Position)
    (pending : Bool) (rest : List Char) :
    tokensFrom p pending (run ++ rest) = tokensFrom (p.after run) pending rest := by
  rw [tokensFrom_dropWhile, List.takeWhile_append_of_pos h, List.dropWhile_append_of_pos h,
    Position.after_append, ← tokensFrom_dropWhile]

/-- A lexeme that fits is read off in front of the rest. -/
theorem tokensFrom_lexeme {pending : Bool} {rest : List Char} {l : Lexeme}
    (h : l.Fits pending rest) (p : Position) :
    tokensFrom p pending (l.spelling ++ rest) =
      (tokensFrom (p.after l.spelling) (l.opensBodyNext pending) rest).map (l.tokens p ++ ·) := by
  by_cases hb : ∃ run, l = .blank run
  · -- The run may go on in the rest, so it need not be the lexeme that is read.
    obtain ⟨run, rfl⟩ := hb
    rw [Lexeme.spelling, tokensFrom_blank h.2, map_blank]
  · obtain ⟨c, cs, hs, hf⟩ := Lexeme.first_of_fits h fun run hl => absurd ⟨run, hl⟩ hb
    exact tokensFrom_of_first hs hf p

namespace Lexeme

def spell (ls : List Lexeme) : List Char :=
  ls.flatMap spelling

def pendingAfter (pending : Bool) (ls : List Lexeme) : Bool :=
  ls.foldl opensBodyNext pending

def tokensOf (p : Position) : List Lexeme → List Token
  | [] => []
  | l :: ls => l.tokens p ++ tokensOf (p.after l.spelling) ls

def FitAll (rest : List Char) : Bool → List Lexeme → Prop
  | _, [] => True
  | pending, l :: ls => l.Fits pending (spell ls ++ rest) ∧ FitAll rest (l.opensBodyNext pending) ls

instance decidableFitAll (rest : List Char) :
    (pending : Bool) → (ls : List Lexeme) → Decidable (FitAll rest pending ls)
  | _, [] => inferInstanceAs (Decidable True)
  | pending, l :: ls =>
    have := decidableFitAll rest (l.opensBodyNext pending) ls
    inferInstanceAs (Decidable (_ ∧ _))

@[simp] theorem spell_nil : spell [] = [] := rfl

@[simp] theorem spell_cons (l : Lexeme) (ls : List Lexeme) :
    spell (l :: ls) = l.spelling ++ spell ls := rfl

@[simp] theorem pendingAfter_nil (pending : Bool) : pendingAfter pending [] = pending := rfl

@[simp] theorem pendingAfter_cons (pending : Bool) (l : Lexeme) (ls : List Lexeme) :
    pendingAfter pending (l :: ls) = pendingAfter (l.opensBodyNext pending) ls := rfl

end Lexeme

open Lexeme

/-- Lexemes that fit are read off in front of the rest, one after the other. -/
theorem tokensFrom_spell {pending : Bool} {rest : List Char} {ls : List Lexeme}
    (h : FitAll rest pending ls) (p : Position) :
    tokensFrom p pending (spell ls ++ rest) =
      (tokensFrom (p.after (spell ls)) (pendingAfter pending ls) rest).map (tokensOf p ls ++ ·) := by
  induction ls generalizing p pending with
  | nil =>
    change tokensFrom p pending rest = (tokensFrom p pending rest).map ([] ++ ·)
    cases tokensFrom p pending rest <;> rfl
  | cons l ls ih =>
    rw [spell_cons, List.append_assoc, tokensFrom_lexeme h.1, ih h.2, ← Position.after_append,
      pendingAfter_cons, tokensOf]
    cases tokensFrom (p.after (l.spelling ++ spell ls)) (pendingAfter (l.opensBodyNext pending) ls)
      rest with
    | error e => rfl
    | ok ts => simp [Except.map]

theorem tokensFrom_spell_nil {pending : Bool} {ls : List Lexeme} (h : FitAll [] pending ls)
    (p : Position) : tokensFrom p pending (spell ls) = .ok (tokensOf p ls) := by
  have ht := tokensFrom_spell h p
  rw [List.append_nil, tokensFrom, Except.map, List.append_nil] at ht
  exact ht

/-- Whether a body opener is still awaited at the end of a text, as far as it can be read. -/
def pendingAtEnd (pending : Bool) : List Char → Bool
  | [] => pending
  | c :: cs =>
    match first pending c cs with
    | .error _ => pending
    | .ok l => pendingAtEnd (l.opensBodyNext pending) (cs.drop (l.spelling.length - 1))
termination_by cs => cs.length
decreasing_by simp only [List.length_drop, List.length_cons]; omega

/-- A text with tokens is spelled by lexemes that have these tokens. -/
theorem exists_lexemes {p : Position} {pending : Bool} {cs : List Char} {ts : List Token}
    (h : tokensFrom p pending cs = .ok ts) :
    ∃ ls, spell ls = cs ∧ FitAll [] pending ls ∧ tokensOf p ls = ts ∧
      pendingAfter pending ls = pendingAtEnd pending cs := by
  fun_induction tokensFrom p pending cs generalizing ts with
  | case1 p pending =>
    cases h
    exact ⟨[], rfl, trivial, rfl, by rw [pendingAtEnd]; rfl⟩
  | case2 p pending c cs fault hf => cases h
  | case3 p pending c cs l hf ih =>
    cases hr : tokensFrom (p.after l.spelling) (l.opensBodyNext pending)
      (cs.drop (l.spelling.length - 1)) with
    | error e =>
      rw [hr] at h
      cases h
    | ok us =>
      rw [hr] at h
      cases h
      obtain ⟨ls, hs, hfit, rfl, hp⟩ := ih hr
      have hl := fits_of_first hf
      have hsp := spelling_of_first hf
      rw [drop_spelling hl] at hl hsp
      refine ⟨l :: ls, by rw [spell_cons, hs, hsp], ⟨?_, hfit⟩, rfl, ?_⟩
      · rwa [List.append_nil, hs]
      · rw [pendingAfter_cons, hp, pendingAtEnd, hf]

/-- A text without tokens is spelled by lexemes up to a character where none starts. -/
theorem exists_lexemes_of_error {p : Position} {pending : Bool} {cs : List Char} {e : LexError}
    (h : tokensFrom p pending cs = .error e) :
    ∃ ls c rest, spell ls ++ c :: rest = cs ∧ FitAll (c :: rest) pending ls ∧
      e.position = p.after (spell ls) ∧
      first (pendingAfter pending ls) c rest = .error e.fault := by
  fun_induction tokensFrom p pending cs with
  | case1 p pending => cases h
  | case2 p pending c cs fault hf =>
    cases h
    exact ⟨[], c, cs, rfl, trivial, rfl, hf⟩
  | case3 p pending c cs l hf ih =>
    cases hr : tokensFrom (p.after l.spelling) (l.opensBodyNext pending)
      (cs.drop (l.spelling.length - 1)) with
    | ok us =>
      rw [hr] at h
      cases h
    | error e' =>
      rw [hr] at h
      cases h
      obtain ⟨ls, d, rest, hs, hfit, hp, hd⟩ := ih hr
      have hl := fits_of_first hf
      have hsp := spelling_of_first hf
      rw [drop_spelling hl, ← hs] at hl hsp
      refine ⟨l :: ls, d, rest, ?_, ⟨hl, hfit⟩, ?_, hd⟩
      · rw [spell_cons, List.append_assoc, hsp]
      · rw [hp, spell_cons, Position.after_append]

theorem Lexeme.Fits.append {awaited : Prop} {cs rest : List Char} {l : Lexeme}
    (h : l.Fits awaited cs) (hr : ∀ c ∈ rest.head?, ¬ isLetter c ∧ ¬ c.isDigit) :
    l.Fits awaited (cs ++ rest) := by
  cases cs with
  | nil =>
    cases l with
    | word letters => exact ⟨h.1, h.2.1, fun c hc => (hr c hc).1⟩
    | number digits => exact ⟨h.1, h.2.1, fun c hc => (hr c hc).2⟩
    | blank _ | comment _ | bodyOpening | quote _ | closing => exact h
  | cons c cs => cases l <;> exact h

theorem Lexeme.FitAll.of_nil {rest : List Char} {pending : Bool} {ls : List Lexeme}
    (h : FitAll [] pending ls) (hr : ∀ c ∈ rest.head?, ¬ isLetter c ∧ ¬ c.isDigit) :
    FitAll rest pending ls := by
  induction ls generalizing pending with
  | nil => trivial
  | cons l ls ih =>
    refine ⟨?_, ih h.2⟩
    have hl := h.1.append hr
    rwa [List.append_nil] at hl

theorem Lexeme.Fits.of_append {awaited : Prop} {cs rest : List Char} {l : Lexeme}
    (h : l.Fits awaited (cs ++ rest)) : l.Fits awaited cs := by
  cases cs with
  | nil =>
    cases l with
    | word letters => exact ⟨h.1, h.2.1, by simp⟩
    | number digits => exact ⟨h.1, h.2.1, by simp⟩
    | blank _ | comment _ | bodyOpening | quote _ | closing => exact h
  | cons c cs => cases l <;> exact h

/-- Lexemes that can be read in front of some text can be read without it. -/
theorem Lexeme.FitAll.to_nil {rest : List Char} {pending : Bool} {ls : List Lexeme}
    (h : FitAll rest pending ls) : FitAll [] pending ls := by
  induction ls generalizing pending with
  | nil => trivial
  | cons l ls ih =>
    refine ⟨?_, ih h.2⟩
    rw [List.append_nil]
    exact h.1.of_append

/-- A lexed text keeps its tokens in front of a text that does not go on with its last run. -/
theorem tokensFrom_append {p : Position} {pending : Bool} {cs rest : List Char} {ts : List Token}
    (h : tokensFrom p pending cs = .ok ts)
    (hr : ∀ c ∈ rest.head?, ¬ isLetter c ∧ ¬ c.isDigit) :
    tokensFrom p pending (cs ++ rest) =
      (tokensFrom (p.after cs) (pendingAtEnd pending cs) rest).map (ts ++ ·) := by
  obtain ⟨ls, rfl, hf, rfl, hp⟩ := exists_lexemes h
  rw [tokensFrom_spell (hf.of_nil hr), hp]

end Holov
