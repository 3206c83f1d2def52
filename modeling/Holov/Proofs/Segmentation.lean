import Holov.Proofs.Lexing
import Mathlib.Tactic.SplitIfs

namespace Holov

/-- The position of a character with the text `before` in front of it: one line for each newline,
one column for each character since the last of them. -/
def Position.behind (before : List Char) : Position :=
  ⟨before.count '\n' + 1, (before.reverse.takeWhile (· ≠ '\n')).length + 1⟩

theorem Position.advance_behind (before : List Char) (c : Char) :
    (behind before).advance c = behind (before ++ [c]) := by
  by_cases hc : c = '\n'
  · simp [advance, behind, hc]
  · simp [advance, behind, hc]

theorem Position.after_behind (before cs : List Char) :
    (behind before).after cs = behind (before ++ cs) := by
  induction cs generalizing before with
  | nil => simp
  | cons c cs ih => rw [after_cons, advance_behind, ih, List.append_assoc, List.singleton_append]

namespace Lexeme

/-- A run of letters is its stem and at most one case marker behind it. -/
inductive Stem : List Char → List Char → Bool → Prop
  | unmarked {run : List Char} (h : ∀ c ∈ run.getLast?, ¬ isCaseMarker c) : Stem run run false
  | marked {stem : List Char} {c : Char} (h : isCaseMarker c) : Stem (stem ++ [c]) stem true

def keywords : List (String × Kind) :=
  [(Word.truth, .truth), (Word.falsity, .falsity), (Word.naming, .naming),
    (Word.function, .function), (Word.parameter, .parameter), (Word.separator, .separator)]

def Names (stem : String) (kind : Kind) : Prop :=
  (stem, kind) ∈ keywords ∨ kind = .identifier ∧ ∀ entry ∈ keywords, entry.1 ≠ stem

/-- A body opener is awaited: there was a function word, and no body opener since. -/
def Awaits (before : List Lexeme) : Prop :=
  ∃ earlier run marked since, before = earlier ++ word run :: since ∧
    Stem run Word.function.toList marked ∧ bodyOpening ∉ since

/-- The tokens of a lexeme behind the text `before`. -/
inductive Denotes (before : List Char) : Lexeme → List Token → Prop
  | blank (run : List Char) : Denotes before (blank run) []
  | comment (text : List Char) : Denotes before (comment text) []
  | bodyOpening : Denotes before bodyOpening []
  | quote (text : List Char) :
      Denotes before (quote text) [⟨.quote, String.ofList text, .behind before⟩]
  | closing : Denotes before closing [⟨.endFunction, "", .behind before⟩]
  | number (digits : List Char) :
      Denotes before (number digits) [⟨.number, String.ofList digits, .behind before⟩]
  | word {run stem : List Char} {kind : Kind} (hs : Stem run stem false)
      (hk : Names (String.ofList stem) kind) :
      Denotes before (word run) [⟨kind, String.ofList stem, .behind before⟩]
  | markedWord {run stem : List Char} {kind : Kind} (hs : Stem run stem true) (hne : stem ≠ [])
      (hk : Names (String.ofList stem) kind) :
      Denotes before (word run) [⟨kind, String.ofList stem, .behind before⟩,
        ⟨.caseEnding, "", .behind (before ++ stem)⟩]
  | marker {run : List Char} (hs : Stem run [] true) :
      Denotes before (word run) [⟨.caseEnding, "", .behind before⟩]

inductive DenoteAll : List Char → List Lexeme → List Token → Prop
  | nil (before : List Char) : DenoteAll before [] []
  | cons {before : List Char} {l : Lexeme} {ls : List Lexeme} {ts us : List Token}
      (hl : Denotes before l ts) (hls : DenoteAll (before ++ l.spelling) ls us) :
      DenoteAll before (l :: ls) (ts ++ us)

/-- A text cut into lexemes, each of which fits between those before it and the text after it. -/
structure Segments (text : List Char) (ls : List Lexeme) : Prop where
  spelled : text = ls.flatMap spelling
  fits : ∀ before l after, ls = before ++ l :: after →
    l.Fits (Awaits before) (after.flatMap spelling)

theorem stem_iff {run stem : List Char} {marked : Bool} :
    Stem run stem marked ↔ splitCaseMarker run = (stem, marked) := by
  constructor
  · rintro (h | h)
    · cases hl : run.getLast? with
      | none => simp [splitCaseMarker, hl]
      | some c => simp [splitCaseMarker, hl, h c hl]
    · exact splitCaseMarker_append_of_isCaseMarker _ h
  · intro h
    unfold splitCaseMarker at h
    split at h
    · rename_i hl
      cases h
      exact .unmarked (by simp [hl])
    · rename_i c hl
      split at h
      · rename_i hc
        cases h
        obtain ⟨stem, rfl⟩ := List.getLast?_eq_some_iff.mp hl
        rw [List.dropLast_concat]
        exact .marked hc
      · rename_i hc
        cases h
        exact .unmarked (by simpa [hl] using hc)

theorem names_iff {stem : String} {kind : Kind} : Names stem kind ↔ Kind.ofWord stem = kind := by
  constructor
  · rintro (h | ⟨rfl, h⟩)
    · simp only [keywords, List.mem_cons, Prod.mk.injEq, List.not_mem_nil, or_false] at h
      rcases h with ⟨rfl, rfl⟩ | ⟨rfl, rfl⟩ | ⟨rfl, rfl⟩ | ⟨rfl, rfl⟩ | ⟨rfl, rfl⟩ | ⟨rfl, rfl⟩ <;>
        decide
    · simp only [keywords, List.forall_mem_cons] at h
      obtain ⟨h₁, h₂, h₃, h₄, h₅, h₆, -⟩ := h
      simp only [Kind.ofWord, h₁.symm, h₂.symm, h₃.symm, h₄.symm, h₅.symm, h₆.symm, if_false]
  · rintro rfl
    unfold Kind.ofWord
    split_ifs with h₁ h₂ h₃ h₄ h₅ h₆
    · exact .inl (by simp [keywords, h₁])
    · exact .inl (by simp [keywords, h₂])
    · exact .inl (by simp [keywords, h₃])
    · exact .inl (by simp [keywords, h₄])
    · exact .inl (by simp [keywords, h₅])
    · exact .inl (by simp [keywords, h₆])
    · refine .inr ⟨rfl, ?_⟩
      simp only [keywords, List.forall_mem_cons]
      exact ⟨Ne.symm h₁, Ne.symm h₂, Ne.symm h₃, Ne.symm h₄, Ne.symm h₅, Ne.symm h₆, by simp⟩

theorem isFunctionWord_iff {run : List Char} :
    isFunctionWord run ↔ ∃ marked, Stem run Word.function.toList marked := by
  simp only [stem_iff, isFunctionWord, decide_eq_true_eq]
  constructor
  · intro h
    exact ⟨(splitCaseMarker run).2, by rw [← h, String.toList_ofList]⟩
  · rintro ⟨marked, h⟩
    rw [h, String.ofList_toList]

theorem awaits_cons {l : Lexeme} {ls : List Lexeme} :
    Awaits (l :: ls) ↔
      Awaits ls ∨ (∃ run, l = word run ∧ isFunctionWord run) ∧ bodyOpening ∉ ls := by
  constructor
  · rintro ⟨_ | ⟨k, earlier⟩, run, marked, since, h, hs, ho⟩
    · cases h
      exact .inr ⟨⟨run, rfl, isFunctionWord_iff.mpr ⟨marked, hs⟩⟩, ho⟩
    · cases h
      exact .inl ⟨earlier, run, marked, since, rfl, hs, ho⟩
  · rintro (⟨earlier, run, marked, since, rfl, hs, ho⟩ | ⟨⟨run, rfl, hw⟩, ho⟩)
    · exact ⟨l :: earlier, run, marked, since, rfl, hs, ho⟩
    · obtain ⟨marked, hs⟩ := isFunctionWord_iff.mp hw
      exact ⟨[], run, marked, ls, rfl, hs, ho⟩

/-- A body opener is awaited after lexemes that leave one awaited, or if it was before and none of
them opens a body. -/
theorem pendingAfter_iff {pending : Bool} {ls : List Lexeme} :
    pendingAfter pending ls ↔ Awaits ls ∨ pending ∧ bodyOpening ∉ ls := by
  induction ls generalizing pending with
  | nil => simp [Awaits]
  | cons l ls ih =>
    rw [pendingAfter_cons, ih, awaits_cons]
    cases l with
    | word run =>
      simp only [opensBodyNext, Bool.or_eq_true, word.injEq, exists_eq_left', List.mem_cons,
        reduceCtorEq, false_or, or_and_right, or_assoc]
      rw [or_comm (a := pending = true ∧ _)]
    | _ => simp [opensBodyNext]

theorem Stem.subset {run stem : List Char} {marked : Bool} (h : Stem run stem marked) :
    ∀ c ∈ stem, c ∈ run := by
  cases h with
  | unmarked _ => exact fun c hc => hc
  | marked _ => exact fun c hc => List.mem_append_left _ hc

/-- Letters only move the column. -/
theorem behind_append_of_isLetter {letters : List Char} (h : ∀ c ∈ letters, isLetter c)
    (before : List Char) :
    Position.behind (before ++ letters) =
      ⟨(Position.behind before).line, (Position.behind before).column + letters.length⟩ := by
  rw [← Position.after_behind]
  apply Position.after_of_forall_ne
  rintro c hc rfl
  exact absurd (h _ hc) (by decide)

theorem Denotes.wordTokens_eq {before run : List Char} {ts : List Token} (hne : run ≠ [])
    (hl : ∀ c ∈ run, isLetter c) (h : Denotes before (.word run) ts) :
    wordTokens (.behind before) run = ts := by
  cases h with
  | word hs hk =>
    cases hs with
    | unmarked hm => simp [wordTokens, stem_iff.mp (.unmarked hm), hne, names_iff.mp hk]
  | markedWord hs hn hk =>
    simp [wordTokens, stem_iff.mp hs, hn, names_iff.mp hk,
      behind_append_of_isLetter (fun c hc => hl c (hs.subset c hc))]
  | marker hs => simp [wordTokens, stem_iff.mp hs]

theorem exists_denotes_word (before run : List Char) : ∃ ts, Denotes before (word run) ts := by
  have hs : Stem run (splitCaseMarker run).1 (splitCaseMarker run).2 := stem_iff.mpr rfl
  have hk := names_iff.mpr (rfl : Kind.ofWord (String.ofList (splitCaseMarker run).1) = _)
  cases hm : (splitCaseMarker run).2 with
  | false => exact ⟨_, .word (hm ▸ hs) hk⟩
  | true =>
    by_cases hn : (splitCaseMarker run).1 = []
    · exact ⟨_, .marker (hn ▸ hm ▸ hs)⟩
    · exact ⟨_, .markedWord (hm ▸ hs) hn hk⟩

theorem denotes_iff {awaited : Prop} {before rest : List Char} {l : Lexeme} {ts : List Token}
    (h : l.Fits awaited rest) : Denotes before l ts ↔ l.tokens (.behind before) = ts := by
  cases l with
  | word run =>
    constructor
    · exact Denotes.wordTokens_eq h.1 h.2.1
    · -- A word denotes something, and whatever it denotes is what is read.
      rintro rfl
      obtain ⟨ts, hd⟩ := exists_denotes_word before run
      rwa [tokens, hd.wordTokens_eq h.1 h.2.1]
  | blank _ | comment _ | bodyOpening | quote _ | closing | number _ =>
    constructor
    · rintro ⟨⟩
      rfl
    · rintro rfl
      constructor

theorem denoteAll_iff {rest : List Char} {pending : Bool} {ls : List Lexeme}
    (h : FitAll rest pending ls) (before : List Char) (ts : List Token) :
    DenoteAll before ls ts ↔ tokensOf (.behind before) ls = ts := by
  induction ls generalizing pending before ts with
  | nil =>
    constructor
    · rintro ⟨⟩
      rfl
    · rintro rfl
      exact .nil before
  | cons l ls ih =>
    constructor
    · rintro ⟨⟩
      rename_i us vs hl hls
      rw [tokensOf, (denotes_iff h.1).mp hl, Position.after_behind, (ih h.2 _ _).mp hls]
    · rintro rfl
      refine .cons ((denotes_iff h.1).mpr rfl) ?_
      rw [Position.after_behind]
      exact (ih h.2 _ _).mpr rfl

theorem awaits_eq (ls : List Lexeme) : Awaits ls = (pendingAfter false ls = true) :=
  propext (by simp [pendingAfter_iff])

theorem pendingAfter_concat (pending : Bool) (ls : List Lexeme) (l : Lexeme) :
    pendingAfter pending (ls ++ [l]) = l.opensBodyNext (pendingAfter pending ls) := by
  simp [pendingAfter]

/-- Reading in order asks of each lexeme that it fits between those before and after it. -/
theorem fitAll_iff {before ls : List Lexeme} :
    FitAll [] (pendingAfter false before) ls ↔
      ∀ pre l post, ls = pre ++ l :: post → l.Fits (Awaits (before ++ pre)) (spell post) := by
  -- Each lexeme that is read moves over to those before.
  induction ls generalizing before with
  | nil => simp [FitAll]
  | cons k ls ih =>
    rw [FitAll, List.append_nil, ← awaits_eq, ← pendingAfter_concat, ih]
    constructor
    · rintro ⟨hk, hls⟩ (_ | ⟨j, pre⟩) l post h
      · cases h
        rwa [List.append_nil]
      · cases h
        rw [List.append_cons]
        exact hls pre l post rfl
    · intro h
      refine ⟨by simpa using h [] k ls rfl, fun pre l post hls => ?_⟩
      rw [List.append_assoc, List.singleton_append]
      exact h (k :: pre) l post (by rw [hls, List.cons_append])

theorem segments_iff {text : List Char} {ls : List Lexeme} :
    Segments text ls ↔ spell ls = text ∧ FitAll [] false ls := by
  have h := @fitAll_iff [] ls
  constructor
  · rintro ⟨rfl, hf⟩
    exact ⟨rfl, h.mpr hf⟩
  · rintro ⟨rfl, hf⟩
    exact ⟨rfl, h.mp hf⟩

end Lexeme

open Lexeme

/-- Lexing succeeds on the texts that can be cut into lexemes, and returns their tokens. -/
theorem tokenize_exact (s : String) (ts : List Token) :
    tokenize s = .ok ts ↔ ∃ ls, Segments s.toList ls ∧ DenoteAll [] ls ts := by
  constructor
  · intro h
    obtain ⟨ls, hs, hf, ht, -⟩ := exists_lexemes h
    exact ⟨ls, segments_iff.mpr ⟨hs, hf⟩, (denoteAll_iff hf [] ts).mpr ht⟩
  · rintro ⟨ls, hseg, hd⟩
    obtain ⟨hs, hf⟩ := segments_iff.mp hseg
    have ht := (denoteAll_iff hf [] ts).mp hd
    have h := tokensFrom_spell hf (.behind [])
    rw [List.append_nil, hs, ht] at h
    rw [tokenize, show ({} : Position) = .behind [] from rfl, h, tokensFrom]
    simp [Except.map]

end Holov
