import Holov.Proofs.Segmentation
import Holov.Value

namespace Holov

/-- A character of the text stands at `p`. -/
def Position.IsIn (source : String) (p : Position) : Prop :=
  ∃ before c after, source.toList = before ++ c :: after ∧ p = .behind before

/-- The token has a value in some scope: it can be looked up, or it stands for itself. -/
def Token.Resolvable (t : Token) : Prop :=
  t.kind = .identifier ∨ (Value.ofLiteral? t).isSome

instance (t : Token) : Decidable t.Resolvable :=
  inferInstanceAs (Decidable (_ ∨ _))

/-- A run of digits writes a number. -/
theorem Number.isSome_read? {digits : List Char} (hne : digits ≠ [])
    (hd : ∀ c ∈ digits, c.isDigit) : (read? (String.ofList digits)).isSome := by
  have hs : Decimal.splitSign digits = (false, digits) := by
    unfold Decimal.splitSign
    split
    · exact absurd (hd '+' (by simp)) (by decide)
    · exact absurd (hd '-' (by simp)) (by decide)
    · rfl
  have ht : digits.takeWhile Char.isDigit = digits := by
    have h := @List.takeWhile_append_of_pos _ _ _ [] hd
    simpa using h
  have hdrop : digits.dropWhile Char.isDigit = [] := by
    have h := @List.dropWhile_append_of_pos _ _ _ [] hd
    simpa using h
  have hr : (Decimal.read? digits).isSome := by
    have hg : guard (!digits.isEmpty || !([] : List Char).isEmpty) = some () :=
      if_pos (by simp [hne])
    rw [Decimal.read?, ht, hdrop]
    change Option.isSome (guard (!digits.isEmpty || !([] : List Char).isEmpty) >>= _)
    rw [hg]
    rfl
  unfold read?
  rw [String.toList_ofList, hs]
  dsimp only
  split
  · rfl
  · split
    · rfl
    · simpa using hr

namespace Lexeme

/-- The tokens of a lexeme stand at characters of its spelling. -/
theorem Denotes.position {awaited : Prop} {before rest : List Char} {l : Lexeme} {ts : List Token}
    (h : Denotes before l ts) (hf : l.Fits awaited rest) :
    ∀ t ∈ ts, ∃ pre c post, l.spelling = pre ++ c :: post ∧
      t.position = .behind (before ++ pre) := by
  -- All but the case endings stand at the first character.
  have hfirst : ∃ c post, l.spelling = [] ++ c :: post :=
    List.exists_cons_of_ne_nil (List.length_pos_iff.mp (spelling_pos hf))
  obtain ⟨c, post, hs⟩ := hfirst
  have hat : ∀ t : Token, t.position = .behind before →
      ∃ pre c post, l.spelling = pre ++ c :: post ∧ t.position = .behind (before ++ pre) :=
    fun t ht => ⟨[], c, post, hs, by rw [ht, List.append_nil]⟩
  cases h with
  | blank run => simp
  | comment text => simp
  | bodyOpening => simp
  | quote text => exact List.forall_mem_singleton.mpr (hat _ rfl)
  | closing => exact List.forall_mem_singleton.mpr (hat _ rfl)
  | number digits => exact List.forall_mem_singleton.mpr (hat _ rfl)
  | word hm hk => exact List.forall_mem_singleton.mpr (hat _ rfl)
  | marker hm => exact List.forall_mem_singleton.mpr (hat _ rfl)
  | @markedWord run stem kind hm hne hk =>
    refine List.forall_mem_cons.mpr ⟨hat _ rfl, List.forall_mem_singleton.mpr ?_⟩
    cases hm with
    | @marked _ c hc => exact ⟨stem, c, [], rfl, rfl⟩

theorem Denotes.resolvable {awaited : Prop} {before rest : List Char} {l : Lexeme}
    {ts : List Token} (h : Denotes before l ts) (hf : l.Fits awaited rest) :
    ∀ t ∈ ts, t.kind.isValue → t.Resolvable := by
  have hword : ∀ (stem : String) (kind : Kind) (p : Position), Names stem kind →
      kind.isValue → Token.Resolvable ⟨kind, stem, p⟩ := by
    rintro stem kind p (hk | ⟨rfl, -⟩) hv
    · simp only [keywords, List.mem_cons, Prod.mk.injEq, List.not_mem_nil, or_false] at hk
      rcases hk with ⟨rfl, rfl⟩ | ⟨rfl, rfl⟩ | ⟨rfl, rfl⟩ | ⟨rfl, rfl⟩ | ⟨rfl, rfl⟩ | ⟨rfl, rfl⟩
      · exact .inr rfl
      · exact .inr rfl
      all_goals cases hv
    · exact .inl rfl
  cases h with
  | blank run => simp
  | comment text => simp
  | bodyOpening => simp
  | quote text => exact List.forall_mem_singleton.mpr fun _ => .inr rfl
  | closing => simp [Kind.isValue]
  | number digits =>
    have hn := Number.isSome_read? hf.1 hf.2.1
    refine List.forall_mem_singleton.mpr fun _ => .inr ?_
    simpa [Value.ofLiteral?] using hn
  | word hm hk => exact List.forall_mem_singleton.mpr (hword _ _ _ hk)
  | markedWord hm hne hk =>
    exact List.forall_mem_cons.mpr ⟨hword _ _ _ hk, by simp [Kind.isValue]⟩
  | marker hm => simp [Kind.isValue]

theorem DenoteAll.position {rest : List Char} {pending : Bool} {before : List Char}
    {ls : List Lexeme} {ts : List Token} (h : DenoteAll before ls ts)
    (hf : FitAll rest pending ls) :
    ∀ t ∈ ts, ∃ pre c post, spell ls = pre ++ c :: post ∧ t.position = .behind (before ++ pre) := by
  induction h generalizing pending with
  | nil before => simp
  | @cons before l ls ts us hl hls ih =>
    intro t ht
    rcases List.mem_append.mp ht with ht | ht
    · obtain ⟨pre, c, post, hs, hp⟩ := hl.position hf.1 t ht
      exact ⟨pre, c, post ++ spell ls, by rw [spell_cons, hs]; simp, hp⟩
    · obtain ⟨pre, c, post, hs, hp⟩ := ih hf.2 t ht
      exact ⟨l.spelling ++ pre, c, post, by rw [spell_cons, hs]; simp, by rw [hp]; simp⟩

theorem DenoteAll.resolvable {rest : List Char} {pending : Bool} {before : List Char}
    {ls : List Lexeme} {ts : List Token} (h : DenoteAll before ls ts)
    (hf : FitAll rest pending ls) : ∀ t ∈ ts, t.kind.isValue → t.Resolvable := by
  induction h generalizing pending with
  | nil before => simp
  | @cons before l ls ts us hl hls ih =>
    intro t ht
    rcases List.mem_append.mp ht with ht | ht
    · exact hl.resolvable hf.1 t ht
    · exact ih hf.2 t ht

end Lexeme

section Sources

variable {source : String} {ts : List Token}

/-- The lexemes of a lexed text, and its tokens as those that they denote. -/
theorem exists_denoteAll (h : tokenize source = .ok ts) :
    ∃ ls, Lexeme.spell ls = source.toList ∧ Lexeme.FitAll [] false ls ∧
      Lexeme.DenoteAll [] ls ts := by
  obtain ⟨ls, hs, hf, ht, -⟩ := exists_lexemes h
  exact ⟨ls, hs, hf, (Lexeme.denoteAll_iff hf [] ts).mpr ht⟩

theorem isIn_of_mem_tokens (h : tokenize source = .ok ts) {t : Token} (ht : t ∈ ts) :
    t.position.IsIn source := by
  obtain ⟨ls, hs, hf, hd⟩ := exists_denoteAll h
  obtain ⟨pre, c, post, hsp, hp⟩ := hd.position hf t ht
  exact ⟨pre, c, post, by rw [← hs, hsp], hp⟩

theorem resolvable_of_mem_tokens (h : tokenize source = .ok ts) {t : Token} (ht : t ∈ ts)
    (hv : t.kind.isValue) : t.Resolvable := by
  obtain ⟨ls, -, hf, hd⟩ := exists_denoteAll h
  exact hd.resolvable hf t ht hv

theorem isIn_of_lexError {e : LexError} (h : tokenize source = .error e) :
    e.position.IsIn source := by
  obtain ⟨ls, c, rest, hs, -, hp, -⟩ := exists_lexemes_of_error h
  refine ⟨Lexeme.spell ls, c, rest, hs.symm, ?_⟩
  rw [hp]
  exact Position.after_behind [] (Lexeme.spell ls)

end Sources

end Holov
