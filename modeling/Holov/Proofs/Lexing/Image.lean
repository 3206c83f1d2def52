import Holov.Proofs.Segmentation

namespace Holov

def Token.content (t : Token) : Kind × String :=
  (t.kind, t.text)

def Kind.Admits : Kind → String → Prop
  | .endFunction, text | .caseEnding, text => text = ""
  | .number, text => text.toList ≠ [] ∧ ∀ c ∈ text.toList, c.isDigit
  | .quote, text => quoteClose ∉ text.toList
  | .identifier, text => text.toList ≠ [] ∧ (∀ c ∈ text.toList, isLetter c) ∧
      ∀ entry ∈ Lexeme.keywords, entry.1 ≠ text
  | kind, text => (text, kind) ∈ Lexeme.keywords

instance : (kind : Kind) → (text : String) → Decidable (kind.Admits text)
  | .endFunction, _ | .caseEnding, _ => inferInstanceAs (Decidable (_ = _))
  | .number, _ => inferInstanceAs (Decidable (_ ∧ _))
  | .quote, _ => inferInstanceAs (Decidable (¬ _))
  | .identifier, _ => inferInstanceAs (Decidable (_ ∧ _ ∧ _))
  | .truth, _ | .falsity, _ | .naming, _ | .function, _ | .separator, _ | .parameter, _ =>
    inferInstanceAs (Decidable (_ ∈ _))

def endsInMarker (text : String) : Bool :=
  text.toList.getLast?.any isCaseMarker

/-- Every text is one that its kind admits, and a name that ends in a case marker is followed by a
case ending. -/
def ContentsWellFormed : List (Kind × String) → Prop
  | [] => True
  | w :: rest => w.1.Admits w.2 ∧
      (w.1 = .identifier → endsInMarker w.2 → rest.head?.any (·.1 = .caseEnding)) ∧
      ContentsWellFormed rest

instance decidableContentsWellFormed :
    (ws : List (Kind × String)) → Decidable (ContentsWellFormed ws)
  | [] => inferInstanceAs (Decidable True)
  | _ :: rest =>
    have := decidableContentsWellFormed rest
    inferInstanceAs (Decidable (_ ∧ _ ∧ _))

theorem ContentsWellFormed.append {ws vs : List (Kind × String)} (hw : ContentsWellFormed ws)
    (hv : ContentsWellFormed vs) : ContentsWellFormed (ws ++ vs) := by
  induction ws with
  | nil => exact hv
  | cons w ws ih =>
    obtain ⟨hadmits, hnext, hrest⟩ := hw
    refine ⟨hadmits, fun hk hm => ?_, ih hrest⟩
    have hnext := hnext hk hm
    cases ws with
    | nil => cases hnext
    | cons w' ws => exact hnext

namespace Lexeme

theorem Names.admits {stem : List Char} {kind : Kind} (h : Names (String.ofList stem) kind)
    (hne : stem ≠ []) (hl : ∀ c ∈ stem, isLetter c) : kind.Admits (String.ofList stem) := by
  rcases h with h | ⟨rfl, h⟩
  · have hall : ∀ entry ∈ keywords, entry.2.Admits entry.1 := by decide
    exact hall _ h
  · refine ⟨?_, ?_, h⟩
    · rwa [String.toList_ofList]
    · rwa [String.toList_ofList]

/-- The tokens of a lexeme are well formed by themselves. -/
theorem Denotes.wellFormed {awaited : Prop} {before rest : List Char} {l : Lexeme}
    {ts : List Token} (h : Denotes before l ts) (hf : l.Fits awaited rest) :
    ContentsWellFormed (ts.map Token.content) := by
  cases h with
  | blank run => trivial
  | comment text => trivial
  | bodyOpening => trivial
  | quote text =>
    have hadmits : Kind.quote.Admits (String.ofList text) := by
      change quoteClose ∉ (String.ofList text).toList
      rw [String.toList_ofList]
      exact hf.2
    exact ⟨hadmits, nofun, trivial⟩
  | closing => exact ⟨rfl, nofun, trivial⟩
  | number digits =>
    have hadmits : Kind.number.Admits (String.ofList digits) := by
      change (String.ofList digits).toList ≠ [] ∧ ∀ c ∈ (String.ofList digits).toList, c.isDigit
      rw [String.toList_ofList]
      exact ⟨hf.1, hf.2.1⟩
    exact ⟨hadmits, nofun, trivial⟩
  | @word run stem kind hs hk =>
    cases hs with
    | unmarked hm =>
      -- The stem is all of the word, so its last letter is no marker.
      refine ⟨hk.admits hf.1 hf.2.1, fun _ hend => ?_, trivial⟩
      have hend : endsInMarker (String.ofList run) := hend
      obtain ⟨c, hc, hmarker⟩ : ∃ c ∈ run.getLast?, isCaseMarker c := by
        simpa [endsInMarker, Option.any_eq_true] using hend
      exact absurd hmarker (hm c hc)
  | markedWord hs hne hk =>
    have hadmits := hk.admits hne fun c hc => hf.2.1 c (hs.subset c hc)
    exact ⟨hadmits, fun _ _ => rfl, rfl, nofun, trivial⟩
  | marker hs => exact ⟨rfl, nofun, trivial⟩

theorem DenoteAll.wellFormed {rest : List Char} {pending : Bool} {before : List Char}
    {ls : List Lexeme} {ts : List Token} (h : DenoteAll before ls ts)
    (hf : FitAll rest pending ls) : ContentsWellFormed (ts.map Token.content) := by
  induction h generalizing pending with
  | nil before => trivial
  | cons hl hls ih =>
    rw [List.map_append]
    exact (hl.wellFormed hf.1).append (ih hf.2)

end Lexeme

/-- How a token is written when no case ending is glued to it. The function word has the opening of
its body right behind it. -/
def Kind.lexemes : Kind → String → List Lexeme
  | .quote, text => [.quote text.toList]
  | .number, text => [.number text.toList]
  | .endFunction, _ => [.closing]
  | .caseEnding, _ => [.word ['ն']]
  | .function, text => [.word text.toList, .bodyOpening]
  | _, text => [.word text.toList]

/-- How tokens are written, with a space behind each and a case ending glued to the name in front
of it. -/
def lexemesOf : List (Kind × String) → List Lexeme
  | [] => []
  | (.identifier, text) :: (.caseEnding, _) :: rest =>
    .word (text.toList ++ ['ն']) :: .blank [' '] :: lexemesOf rest
  | (kind, text) :: rest => kind.lexemes text ++ .blank [' '] :: lexemesOf rest

def writeOut (ws : List (Kind × String)) : String :=
  String.ofList (Lexeme.spell (lexemesOf ws))

namespace Lexeme

/-- Lexemes that can be read as a text of their own, that leave no body opener awaited, and whose
tokens have the given contents. -/
structure Writes (ls : List Lexeme) (ws : List (Kind × String)) : Prop where
  fits : FitAll [] false ls
  settled : pendingAfter false ls = false
  contents : ∀ p, (tokensOf p ls).map Token.content = ws

theorem FitAll.append {rest : List Char} {pending : Bool} {ls ls' : List Lexeme}
    (h : FitAll (spell ls' ++ rest) pending ls) (h' : FitAll rest (pendingAfter pending ls) ls') :
    FitAll rest pending (ls ++ ls') := by
  induction ls generalizing pending with
  | nil => exact h'
  | cons l ls ih =>
    have hs : spell (ls ++ ls') ++ rest = spell ls ++ (spell ls' ++ rest) := by
      simp [spell]
    rw [List.cons_append, FitAll, hs]
    exact ⟨h.1, ih h.2 h'⟩

theorem tokensOf_append (p : Position) (ls ls' : List Lexeme) :
    tokensOf p (ls ++ ls') = tokensOf p ls ++ tokensOf (p.after (spell ls)) ls' := by
  induction ls generalizing p with
  | nil => rfl
  | cons l ls ih =>
    rw [List.cons_append, tokensOf, tokensOf, ih, spell_cons, Position.after_append,
      List.append_assoc]

section Writing

variable {ls ls' : List Lexeme} {ws ws' : List (Kind × String)}

/-- Lexemes that can be read in front of others have their tokens in front of the others'. -/
theorem Writes.glue (h : Writes ls ws) (hf : FitAll (spell ls') false ls) (h' : Writes ls' ws') :
    Writes (ls ++ ls') (ws ++ ws') where
  fits := by
    apply FitAll.append
    · rwa [List.append_nil]
    · rw [h.settled]
      exact h'.fits
  settled := by
    have hs := h.settled
    rw [pendingAfter] at hs ⊢
    rw [List.foldl_append, hs]
    exact h'.settled
  contents p := by
    rw [tokensOf_append, List.map_append, h.contents, h'.contents]

/-- Blanks keep the lexemes in front of them and behind them apart. -/
theorem Writes.append_blank {gap : List Char} (hne : gap ≠ []) (hb : ∀ c ∈ gap, isBlank c)
    (h : Writes ls ws) (h' : Writes ls' ws') : Writes (ls ++ blank gap :: ls') (ws ++ ws') := by
  have hrest : Writes (blank gap :: ls') ws' := ⟨⟨⟨hne, hb⟩, h'.fits⟩, h'.settled, fun p => h'.contents _⟩
  have hapart : ∀ c ∈ (spell (blank gap :: ls')).head?, ¬ isLetter c ∧ ¬ c.isDigit := by
    obtain ⟨d, gap, rfl⟩ := List.exists_cons_of_ne_nil hne
    intro c hc
    cases hc
    have hd := hb d (by simp)
    simp only [isBlank, Bool.or_eq_true, decide_eq_true_eq] at hd
    rcases hd with rfl | rfl <;> decide
  exact h.glue (h.fits.of_nil hapart) hrest

theorem Writes.append (h : Writes ls ws) (h' : Writes ls' ws') :
    Writes (ls ++ blank [' '] :: ls') (ws ++ ws') :=
  h.append_blank (by simp) (by decide) h'

end Writing

theorem splitCaseMarker_of_not_endsInMarker {text : String} (h : endsInMarker text = false) :
    splitCaseMarker text.toList = (text.toList, false) := by
  apply stem_iff.mp
  apply Stem.unmarked
  intro c hc hmarker
  rw [endsInMarker, hc, Option.any_some, hmarker] at h
  cases h

section Words

variable {text : String} {kind : Kind} (hk : Names text kind) (hne : text.toList ≠ [])
  (hl : ∀ c ∈ text.toList, isLetter c)
include hk hne hl

theorem word_writes (hm : endsInMarker text = false) (hf : text ≠ Word.function) :
    Writes [word text.toList] [(kind, text)] where
  fits := ⟨⟨hne, hl, by simp⟩, trivial⟩
  settled := by
    simp [opensBodyNext, isFunctionWord, splitCaseMarker_of_not_endsInMarker hm, hf]
  contents p := by
    simp [tokensOf, tokens, wordTokens, splitCaseMarker_of_not_endsInMarker hm, hne,
      names_iff.mp hk, Token.content]

theorem markedWord_writes {c : Char} (hc : isCaseMarker c) (hf : text ≠ Word.function) :
    Writes [word (text.toList ++ [c])] [(kind, text), (.caseEnding, "")] where
  fits := by
    have hletters : ∀ d ∈ text.toList ++ [c], isLetter d :=
      List.forall_mem_append.mpr
        ⟨hl, List.forall_mem_singleton.mpr (isLetter_of_isCaseMarker hc)⟩
    exact ⟨⟨by simp, hletters, by simp⟩, trivial⟩
  settled := by
    have hs := splitCaseMarker_append_of_isCaseMarker text.toList hc
    simp [opensBodyNext, isFunctionWord, hs, hf]
  contents p := by
    have hs := splitCaseMarker_append_of_isCaseMarker text.toList hc
    simp [tokensOf, tokens, wordTokens, hs, hne, names_iff.mp hk, Token.content]

end Words

theorem keyword_writes {kind : Kind} {text : String} (h : (text, kind) ∈ keywords)
    (hf : kind ≠ .function) : Writes [word text.toList] [(kind, text)] := by
  have hall : ∀ entry ∈ keywords, entry.1.toList ≠ [] ∧ (∀ c ∈ entry.1.toList, isLetter c) ∧
      endsInMarker entry.1 = false ∧ (entry.1 = Word.function → entry.2 = .function) := by decide
  obtain ⟨hne, hl, hm, hfun⟩ := hall _ h
  exact word_writes (.inl h) hne hl hm fun ht => hf (hfun ht)

theorem ne_function_of_admits {text : String} (h : Kind.identifier.Admits text) :
    text ≠ Word.function := by
  intro ht
  exact h.2.2 (Word.function, .function) (by decide) ht.symm

/-- A token with a text that its kind admits is written by its lexemes. -/
theorem lexemes_writes {kind : Kind} {text : String} (h : kind.Admits text)
    (hm : kind = .identifier → endsInMarker text = false) :
    Writes (kind.lexemes text) [(kind, text)] := by
  cases kind with
  | quote =>
    refine ⟨⟨⟨by simp, h⟩, trivial⟩, rfl, fun p => ?_⟩
    simp [Kind.lexemes, tokensOf, tokens, Token.content]
  | number =>
    refine ⟨⟨⟨h.1, h.2, by simp⟩, trivial⟩, rfl, fun p => ?_⟩
    simp [Kind.lexemes, tokensOf, tokens, Token.content]
  | identifier =>
    exact word_writes (.inr ⟨rfl, h.2.2⟩) h.1 h.2.1 (hm rfl) (ne_function_of_admits h)
  | function =>
    have hall : ∀ entry ∈ keywords, entry.2 = .function → entry.1 = Word.function := by decide
    obtain rfl : text = Word.function := hall _ h rfl
    have hawaited : isFunctionWord Word.function.toList := by decide
    exact ⟨⟨⟨by decide, by decide, by decide⟩, hawaited, trivial⟩, by decide, fun p => rfl⟩
  | endFunction =>
    obtain rfl : text = "" := h
    exact ⟨⟨trivial, trivial⟩, rfl, fun p => rfl⟩
  | caseEnding =>
    obtain rfl : text = "" := h
    exact ⟨⟨⟨by decide, by decide, by decide⟩, trivial⟩, by decide, fun p => rfl⟩
  | truth => exact keyword_writes h (by decide)
  | falsity => exact keyword_writes h (by decide)
  | naming => exact keyword_writes h (by decide)
  | separator => exact keyword_writes h (by decide)
  | parameter => exact keyword_writes h (by decide)

theorem writes_nil : Writes [] [] :=
  ⟨trivial, rfl, fun _ => rfl⟩

theorem lexemesOf_writes {ws : List (Kind × String)} (h : ContentsWellFormed ws) :
    Writes (lexemesOf ws) ws := by
  fun_induction lexemesOf ws with
  | case1 => exact writes_nil
  | case2 text ending rest ih =>
    obtain ⟨hname, -, hending, -, hrest⟩ := h
    obtain rfl : ending = "" := hending
    have hword := markedWord_writes (.inr ⟨rfl, hname.2.2⟩) hname.1 hname.2.1
      (c := 'ն') (by decide) (ne_function_of_admits hname)
    exact hword.append (ih hrest)
  | case3 kind text rest hglued ih =>
    -- Had the name a marker at its end, a case ending would be glued to it.
    obtain ⟨hadmits, hnext, hrest⟩ := h
    have hm : kind = .identifier → endsInMarker text = false := by
      intro hk
      apply Bool.eq_false_iff.mpr
      intro hend
      have hnext := hnext hk hend
      cases rest with
      | nil => cases hnext
      | cons w rest =>
        obtain ⟨k, ending⟩ := w
        obtain rfl : k = .caseEnding := by simpa using hnext
        exact hglued ending rest rfl hk
    exact (lexemes_writes hadmits hm).append (ih hrest)

end Lexeme

theorem tokenize_spell {ls : List Lexeme} (h : Lexeme.FitAll [] false ls) :
    tokenize (String.ofList (Lexeme.spell ls)) = .ok (Lexeme.tokensOf {} ls) := by
  rw [tokenize, String.toList_ofList, tokensFrom_spell_nil h]

/-- The tokens of every text have well-formed contents, and all well-formed contents are those of
the tokens of a text. -/
theorem tokenize_image :
    (∀ source ts, tokenize source = .ok ts → ContentsWellFormed (ts.map Token.content)) ∧
    ∀ ws, ContentsWellFormed ws →
      ∃ ts, tokenize (writeOut ws) = .ok ts ∧ ts.map Token.content = ws := by
  constructor
  · intro source ts h
    obtain ⟨ls, hs, hf, ht, -⟩ := exists_lexemes h
    exact ((Lexeme.denoteAll_iff hf [] ts).mpr ht).wellFormed hf
  · intro ws h
    have hw := Lexeme.lexemesOf_writes h
    exact ⟨_, tokenize_spell hw.fits, hw.contents {}⟩

/-- A name that ends in a case marker, a marked function word, and a quote behind it. -/
theorem tokenize_image_marked :
    ∃ ts, tokenize "բառըն գործառույթ« ն «ա(» " = .ok ts ∧
      ts.map Token.content = [(.identifier, "բառը"), (.caseEnding, ""), (.function, "գործառույթ"),
        (.caseEnding, ""), (.quote, "ա(")] := by
  have hs : writeOut [(.identifier, "բառը"), (.caseEnding, ""), (.function, "գործառույթ"),
      (.caseEnding, ""), (.quote, "ա(")] = "բառըն գործառույթ« ն «ա(» " := by decide
  rw [← hs]
  exact tokenize_image.2 _ (by decide)

end Holov
