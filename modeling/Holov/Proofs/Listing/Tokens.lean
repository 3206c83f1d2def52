import Holov.Proofs.Diagnostics
import Holov.Token.Listing

namespace Holov

/-- What is written for a value can be told from whatever stands behind it. -/
def PrefixFree {α : Type} (f : α → List Char) : Prop :=
  ∀ a b rest rest', f a ++ rest = f b ++ rest' → a = b ∧ rest = rest'

namespace PrefixFree

variable {α β : Type} {f : α → List Char} {g : β → List Char}

theorem pair (hf : PrefixFree f) (hg : PrefixFree g) :
    PrefixFree fun x : α × β => f x.1 ++ g x.2 := by
  rintro ⟨a, b⟩ ⟨a', b'⟩ rest rest' h
  rw [List.append_assoc, List.append_assoc] at h
  obtain ⟨rfl, hmore⟩ := hf a a' _ _ h
  obtain ⟨rfl, hrest⟩ := hg b b' _ _ hmore
  exact ⟨rfl, hrest⟩

/-- A text in which `stop` does not occur ends at the first `stop`. -/
theorem terminated (hf : Function.Injective f) {stop : Char} (hs : ∀ a, stop ∉ f a) :
    PrefixFree fun a => f a ++ [stop] := by
  intro a b rest rest' h
  rw [List.append_assoc, List.append_assoc, List.singleton_append, List.singleton_append] at h
  have htext := congrArg (Lexeme.textUpTo? stop) h
  rw [Lexeme.textUpTo?_append (hs a), Lexeme.textUpTo?_append (hs b), Option.some.injEq] at htext
  obtain rfl := hf htext
  exact ⟨rfl, (List.cons.inj (List.append_cancel_left h)).2⟩

/-- Values that are written one behind the other can be told apart, if each takes some text. -/
theorem flatMap_injective (hf : PrefixFree f) (hne : ∀ a, f a ≠ []) :
    Function.Injective (List.flatMap f) := by
  intro as
  induction as with
  | nil =>
    intro bs h
    cases bs with
    | nil => rfl
    | cons b bs => exact absurd (List.append_eq_nil_iff.mp h.symm).1 (hne b)
  | cons a as ih =>
    intro bs h
    cases bs with
    | nil => exact absurd (List.append_eq_nil_iff.mp h).1 (hne a)
    | cons b bs =>
      rw [List.flatMap_cons, List.flatMap_cons] at h
      obtain ⟨rfl, hmore⟩ := hf a b _ _ h
      rw [ih hmore]

end PrefixFree

theorem digitChar_injective_of_lt {m n : Nat} (hm : m < 16) (hn : n < 16)
    (h : m.digitChar = n.digitChar) : m = n := by
  have hall : ∀ i < 16, ∀ j < 16, i.digitChar = j.digitChar → i = j := by decide
  exact hall m hm n hn h

theorem hexDigits_injective : Function.Injective (Nat.toDigits 16) := by
  have hne : ∀ k, Nat.toDigits 16 k ≠ [] := fun k => Nat.toDigits_ne_nil
  intro m
  induction m using Nat.strongRecOn with
  | ind m ih =>
    intro n h
    rw [Nat.toDigits_eq_if (n := m) (by decide), Nat.toDigits_eq_if (n := n) (by decide)] at h
    by_cases hm : m < 16
    · by_cases hn : n < 16
      · rw [if_pos hm, if_pos hn] at h
        exact digitChar_injective_of_lt hm hn (List.cons.inj h).1
      · -- A single digit is not one of several.
        simp [hm, hn, List.singleton_eq_append_iff, hne] at h
    · by_cases hn : n < 16
      · simp [hm, hn, List.append_eq_singleton_iff, hne] at h
      · rw [if_neg hm, if_neg hn] at h
        obtain ⟨hhigh, hlow⟩ := List.append_inj' h rfl
        have hdiv := ih (m / 16) (by omega) hhigh
        have hmod := digitChar_injective_of_lt (Nat.mod_lt m (by decide))
          (Nat.mod_lt n (by decide)) (List.cons.inj hlow).1
        omega

def shortEscapes : List (Char × Char) :=
  [('\x00', '0'), ('\t', 't'), ('\r', 'r'), ('\n', 'n'), ('\\', '\\'), ('\x22', '\x22')]

inductive Escapes : Char → List Char → Prop
  | short {c letter : Char} (h : (c, letter) ∈ shortEscapes) : Escapes c ['\\', letter]
  | number (c : Char) :
      Escapes c (['\\', 'u', '\x7b'] ++ (Nat.toDigits 16 c.toNat ++ ['\x7d']))
  | itself {c : Char} (hb : c ≠ '\\') (hd : c ≠ '\x22') : Escapes c [c]

theorem escapes_escapeChar (c : Char) : Escapes c (escapeChar '\x22' c) := by
  unfold escapeChar
  split_ifs with h₀ ht hr hn hd hu
  · exact .short (by simp [shortEscapes, h₀])
  · exact .short (by simp [shortEscapes, ht])
  · exact .short (by simp [shortEscapes, hr])
  · exact .short (by simp [shortEscapes, hn])
  · simp only [Bool.or_eq_true, decide_eq_true_eq] at hd
    rcases hd with rfl | rfl
    · exact .short (by decide)
    · exact .short (by decide)
  · exact .number c
  · simp only [Bool.or_eq_true, decide_eq_true_eq, not_or] at hd
    exact .itself hd.1 hd.2

namespace Escapes

/-- A delimiter that ends a quoted text does not start an escape. -/
theorem append_ne_delimiter {c : Char} {s : List Char} (h : Escapes c s)
    (rest rest' : List Char) : s ++ rest ≠ '\x22' :: rest' := by
  intro heq
  cases h with
  | short h => exact absurd (List.cons.inj heq).1 (by decide)
  | number => exact absurd (List.cons.inj heq).1 (by decide)
  | itself hb hd => exact hd (List.cons.inj heq).1

/-- The backslash and the letter behind it say how far an escape goes. -/
theorem cancel {c d : Char} {s t rest rest' : List Char} (hc : Escapes c s) (hd : Escapes d t)
    (h : s ++ rest = t ++ rest') : c = d ∧ rest = rest' := by
  have hletter : ∀ entry ∈ shortEscapes, entry.2 ≠ 'u' := by decide
  have hshort : ∀ entry ∈ shortEscapes, ∀ other ∈ shortEscapes, entry.2 = other.2 →
      entry.1 = other.1 := by decide
  cases hc with
  | short hc =>
    cases hd with
    | short hd =>
      simp only [List.cons_append, List.nil_append, List.cons.injEq, true_and] at h
      exact ⟨hshort _ hc _ hd h.1, h.2⟩
    | number =>
      simp only [List.cons_append, List.nil_append, List.cons.injEq, true_and] at h
      exact absurd h.1 (hletter _ hc)
    | itself hb hd =>
      exact absurd (List.cons.inj h).1.symm hb
  | number =>
    cases hd with
    | short hd =>
      simp only [List.cons_append, List.nil_append, List.cons.injEq, true_and] at h
      exact absurd h.1.symm (hletter _ hd)
    | number =>
      have hhex : PrefixFree fun n => Nat.toDigits 16 n ++ ['\x7d'] :=
        .terminated hexDigits_injective (not_mem_hex (by decide))
      simp only [List.cons_append, List.nil_append, List.cons.injEq, true_and] at h
      obtain ⟨hn, hrest⟩ := hhex _ _ _ _ h
      exact ⟨Char.toNat_inj.mp hn, hrest⟩
    | itself hb hd =>
      exact absurd (List.cons.inj h).1.symm hb
  | itself hb hq =>
    cases hd with
    | short hd => exact absurd (List.cons.inj h).1 hb
    | number => exact absurd (List.cons.inj h).1 hb
    | itself hb' hq' => exact List.cons.inj h

end Escapes

theorem quotedText_prefixFree : PrefixFree fun s : String => (quotedText s).toList := by
  have key : ∀ a b rest rest' : List Char,
      a.flatMap (escapeChar '\x22') ++ '\x22' :: rest =
        b.flatMap (escapeChar '\x22') ++ '\x22' :: rest' → a = b ∧ rest = rest' := by
    intro a
    induction a with
    | nil =>
      intro b rest rest' h
      cases b with
      | nil => exact ⟨rfl, (List.cons.inj h).2⟩
      | cons d b =>
        rw [List.flatMap_cons, List.append_assoc] at h
        exact absurd h.symm ((escapes_escapeChar d).append_ne_delimiter _ _)
    | cons c a ih =>
      intro b rest rest' h
      cases b with
      | nil =>
        rw [List.flatMap_cons, List.append_assoc] at h
        exact absurd h ((escapes_escapeChar c).append_ne_delimiter _ _)
      | cons d b =>
        rw [List.flatMap_cons, List.flatMap_cons, List.append_assoc, List.append_assoc] at h
        obtain ⟨rfl, hmore⟩ := (escapes_escapeChar c).cancel (escapes_escapeChar d) h
        obtain ⟨rfl, hrest⟩ := ih b rest rest' hmore
        exact ⟨rfl, hrest⟩
  intro s t rest rest' h
  simp only [quotedText, String.toList_ofList, List.append_assoc, List.cons_append,
    List.nil_append, List.cons.injEq, true_and] at h
  obtain ⟨htext, hrest⟩ := key _ _ _ _ h
  exact ⟨String.toList_inj.mp htext, hrest⟩

theorem Kind.oneLine_name (k : Kind) : OneLine k.name := by
  cases k <;> decide

theorem Kind.name_prefixFree : PrefixFree fun k : Kind => k.name.toList ++ [' '] := by
  apply PrefixFree.terminated
  · exact fun j k h => name_injective (String.toList_inj.mp h)
  · intro k
    cases k <;> decide

/-- A number that is written in decimal ends at the first character that is not a digit. -/
theorem repr_prefixFree (stop : Char) (h : stop.isDigit = false) :
    PrefixFree fun n : Nat => n.repr.toList ++ [stop] := by
  apply PrefixFree.terminated
  · intro m n hmn
    simp only [Nat.repr, String.toList_ofList] at hmn
    have hvalue := congrArg (fun digits => Nat.ofDigitChars 10 digits 0) hmn
    simpa [Nat.ofDigitChars_toDigits] using hvalue
  · intro n hn
    have hdigit := isDigit_of_mem_repr hn
    rw [h] at hdigit
    cases hdigit

namespace Token

def listingText (t : Token) : String :=
  t.kind.name ++ " " ++ quotedText t.text ++ " " ++ t.position.line.repr ++ ":"
    ++ t.position.column.repr

theorem listingLine_eq (t : Token) : t.listingLine = t.listingText ++ "\n" := rfl

theorem oneLine_listingText (t : Token) : OneLine t.listingText := by
  have hname := t.kind.oneLine_name
  have htext := oneLine_quotedText t.text
  have hline := oneLine_repr t.position.line
  have hcolumn := oneLine_repr t.position.column
  simp only [listingText, oneLine_append, hname, htext, hline, hcolumn]
  decide

theorem listingLine_prefixFree : PrefixFree fun t : Token => t.listingLine.toList := by
  have hspace : PrefixFree fun _ : Unit => [' '] := by
    rintro ⟨⟩ ⟨⟩ rest rest' h
    exact ⟨rfl, (List.cons.inj h).2⟩
  have hparts := Kind.name_prefixFree.pair (quotedText_prefixFree.pair
    (hspace.pair ((repr_prefixFree ':' rfl).pair (repr_prefixFree '\n' rfl))))
  have hline : ∀ t : Token, ∀ rest, t.listingLine.toList ++ rest = t.kind.name.toList ++ [' '] ++
      ((quotedText t.text).toList ++ ([' '] ++ (t.position.line.repr.toList ++ [':'] ++
        (t.position.column.repr.toList ++ ['\n'])))) ++ rest := by
    intro t rest
    simp [listingLine, String.toList_append]
  rintro ⟨k, s, ⟨line, column⟩⟩ ⟨k', s', ⟨line', column'⟩⟩ rest rest' h
  rw [hline, hline] at h
  obtain ⟨heq, hrest⟩ := hparts (k, s, (), line, column) (k', s', (), line', column') _ _ h
  cases heq
  exact ⟨rfl, hrest⟩

end Token

theorem toList_listTokens (ts : List Token) :
    (listTokens ts).toList = ts.flatMap fun t => t.listingLine.toList := by
  rw [listTokens, String.toList_join, List.flatMap_map]

/-- A listing has a line for each token, and the tokens can be told from it. -/
theorem listTokens_faithful :
    (∃ line : Token → String, (∀ t, OneLine (line t)) ∧
      ∀ ts, listTokens ts = String.join (ts.map fun t => line t ++ "\n")) ∧
    Function.Injective listTokens := by
  refine ⟨⟨Token.listingText, Token.oneLine_listingText, fun ts => rfl⟩, ?_⟩
  intro ts us h
  apply Token.listingLine_prefixFree.flatMap_injective
  · intro t
    rw [Token.listingLine_eq, String.toList_append]
    simp
  · rw [← toList_listTokens, ← toList_listTokens, h]

end Holov
