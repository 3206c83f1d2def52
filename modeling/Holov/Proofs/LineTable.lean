import Holov.Position.LineTable
import Holov.Proofs.Lexing.Faults
import Mathlib.Data.List.Induction
import Mathlib.Data.String.Basic

namespace Holov

open String (utf8Len)

def Position.Precedes (p q : Position) : Prop :=
  p.line < q.line ∨ p.line = q.line ∧ p.column < q.column

theorem Position.Precedes.ne {p q : Position} (h : p.Precedes q) : p ≠ q := by
  rintro rfl
  unfold Precedes at h
  omega

theorem Position.behind_precedes (before : List Char) {between : List Char}
    (h : between ≠ []) : (behind before).Precedes (behind (before ++ between)) := by
  have hpos := List.length_pos_iff.mpr h
  have hmove := (behind before).after_line_or_column between
  rw [after_behind] at hmove
  unfold Precedes
  omega

/-- Bisection finds the place where the predicate changes. -/
theorem partitionPoint_eq {p : Nat → Bool} {lo hi k : Nat} (hlo : lo ≤ k) (hhi : k ≤ hi)
    (hp : ∀ i < k, p i) (hn : ∀ i, k ≤ i → i < hi → p i = false) :
    partitionPoint p lo hi = k := by
  fun_induction partitionPoint p lo hi with
  | case1 lo hi hlt mid hmid ih =>
    have hk : mid < k := by
      by_contra hge
      have hfalse := hn mid (by omega) (by omega)
      rw [hmid] at hfalse
      cases hfalse
    exact ih hk hhi hn
  | case2 lo hi hlt mid hmid ih =>
    have hk : k ≤ mid := by
      by_contra hlt'
      exact hmid (hp mid (by omega))
    exact ih hlo hk fun i hi' hm => hn i hi' (by omega)
  | case3 lo hi hge => omega

/-- The bytes of a front part of a text are whole characters. -/
theorem charCount?_append (pre rest : List Char) :
    charCount? (pre ++ rest) (utf8Len pre) = some pre.length := by
  induction pre with
  | nil => cases rest <;> rfl
  | cons c pre ih =>
    have hsize := c.utf8Size_pos
    obtain ⟨n, hn⟩ : ∃ n, utf8Len (c :: pre) = n + 1 := by
      apply Nat.exists_eq_succ_of_ne_zero
      rw [String.utf8Len_cons]
      omega
    have hrest : n + 1 - c.utf8Size = utf8Len pre := by
      rw [← hn, String.utf8Len_cons]
      omega
    rw [hn, List.cons_append, charCount?, hrest, ih, if_pos]
    · rfl
    · rw [← hn, String.utf8Len_cons]
      omega

/-- Whole characters are those of a front part. -/
theorem exists_of_charCount? {cs : List Char} {n k : Nat} (h : charCount? cs n = some k) :
    ∃ pre rest, cs = pre ++ rest ∧ utf8Len pre = n := by
  fun_induction charCount? cs n generalizing k with
  | case1 cs => exact ⟨[], cs, rfl, rfl⟩
  | case2 n => cases h
  | case3 c cs n hle ih =>
    obtain ⟨k, hk, -⟩ := Option.map_eq_some_iff.mp h
    obtain ⟨pre, rest, rfl, hpre⟩ := ih hk
    refine ⟨c :: pre, rest, rfl, ?_⟩
    rw [String.utf8Len_cons]
    omega
  | case4 c cs n hgt => cases h

namespace LineStart

theorem afterNewlines_append (offset : Nat) (cs ds : List Char) :
    afterNewlines offset (cs ++ ds) =
      (afterNewlines offset cs).map (fun l => ⟨l.offset, l.text ++ ds⟩) ++
        afterNewlines (offset + utf8Len cs) ds := by
  induction cs generalizing offset with
  | nil => rfl
  | cons c cs ih =>
    have hsum : offset + c.utf8Size + utf8Len cs = offset + utf8Len (c :: cs) := by
      rw [String.utf8Len_cons]
      omega
    rw [List.cons_append, afterNewlines, afterNewlines, ih, hsum]
    split <;> rfl

theorem length_afterNewlines (offset : Nat) (cs : List Char) :
    (afterNewlines offset cs).length = cs.count '\n' := by
  induction cs generalizing offset with
  | nil => rfl
  | cons c cs ih =>
    rw [afterNewlines, List.count_cons]
    by_cases hc : c = '\n'
    · simp [hc, ih]
    · simp [hc, ih]

/-- A line starts behind a newline of the text. -/
theorem exists_of_mem_afterNewlines {offset : Nat} {cs : List Char} {l : LineStart}
    (h : l ∈ afterNewlines offset cs) :
    ∃ pre, cs = pre ++ '\n' :: l.text ∧ l.offset = offset + utf8Len pre + 1 := by
  induction cs generalizing offset with
  | nil => cases h
  | cons c cs ih =>
    have hmore : l ∈ afterNewlines (offset + c.utf8Size) cs →
        ∃ pre, c :: cs = pre ++ '\n' :: l.text ∧ l.offset = offset + utf8Len pre + 1 := by
      intro hl
      obtain ⟨pre, rfl, hpre⟩ := ih hl
      refine ⟨c :: pre, rfl, ?_⟩
      rw [hpre, String.utf8Len_cons]
      omega
    rw [afterNewlines] at h
    split at h
    · rename_i hc
      rcases List.mem_cons.mp h with rfl | hl
      · exact ⟨[], by rw [hc]; rfl, by rw [hc]; rfl⟩
      · exact hmore hl
    · exact hmore h

/-- The line starts up to a byte come before those behind it. -/
theorem exists_split_afterNewlines (byte offset : Nat) (cs : List Char) :
    ∃ front back, afterNewlines offset cs = front ++ back ∧ (∀ l ∈ front, l.offset ≤ byte) ∧
      ∀ l ∈ back, byte < l.offset := by
  induction cs generalizing offset with
  | nil => exact ⟨[], [], rfl, nofun, nofun⟩
  | cons c cs ih =>
    by_cases hle : offset + c.utf8Size ≤ byte
    · obtain ⟨front, back, hs, hf, hb⟩ := ih (offset + c.utf8Size)
      rw [afterNewlines, hs]
      by_cases hc : c = '\n'
      · exact ⟨⟨_, cs⟩ :: front, back, if_pos hc, List.forall_mem_cons.mpr ⟨hle, hf⟩, hb⟩
      · exact ⟨front, back, if_neg hc, hf, hb⟩
    · -- Nothing starts before the first of these characters ends.
      refine ⟨[], afterNewlines offset (c :: cs), rfl, nofun, fun l hl => ?_⟩
      obtain ⟨pre, hpre, ho⟩ := exists_of_mem_afterNewlines hl
      cases pre with
      | nil =>
        obtain rfl : c = '\n' := (List.cons.inj hpre).1
        have hsize : '\n'.utf8Size = 1 := rfl
        rw [String.utf8Len_nil] at ho
        omega
      | cons d pre =>
        obtain rfl : c = d := (List.cons.inj hpre).1
        rw [String.utf8Len_cons] at ho
        omega

theorem afterNewlines_eq_nil {cs : List Char} (h : '\n' ∉ cs) (offset : Nat) :
    afterNewlines offset cs = [] := by
  apply List.eq_nil_of_length_eq_zero
  rw [length_afterNewlines, List.count_eq_zero]
  exact h

end LineStart

/-- The last line of a text is behind its last newline. -/
theorem exists_lastLine (cs : List Char) :
    ∃ earlier line, cs = earlier ++ line ∧ '\n' ∉ line ∧
      (earlier = [] ∨ ∃ pre, earlier = pre ++ ['\n']) := by
  induction cs using List.reverseRecOn with
  | nil => exact ⟨[], [], rfl, nofun, .inl rfl⟩
  | append_singleton cs c ih =>
    by_cases hc : c = '\n'
    · exact ⟨cs ++ [c], [], by simp, nofun, .inr ⟨cs, by rw [hc]⟩⟩
    · obtain ⟨earlier, line, rfl, hl, he⟩ := ih
      refine ⟨earlier, line ++ [c], by simp, ?_, he⟩
      simp [hl, Ne.symm hc]

theorem Position.behind_of_lastLine {earlier line : List Char} (hl : '\n' ∉ line)
    (he : earlier = [] ∨ ∃ pre, earlier = pre ++ ['\n']) :
    behind (earlier ++ line) = ⟨earlier.count '\n' + 1, line.length + 1⟩ := by
  have hcount : line.count '\n' = 0 := List.count_eq_zero.mpr hl
  have hrun : ∀ c ∈ line.reverse, decide (c ≠ '\n') = true := by
    intro c hc
    simpa using fun e : c = '\n' => hl (e ▸ List.mem_reverse.mp hc)
  have htake : ((earlier ++ line).reverse.takeWhile (· ≠ '\n')) = line.reverse := by
    rw [List.reverse_append]
    apply Lexeme.takeWhile_append_of_head hrun
    rcases he with rfl | ⟨pre, rfl⟩
    · exact nofun
    · simp
  rw [behind, htake, List.count_append, hcount, List.length_reverse, Nat.add_zero]

namespace LineTable

/-- The lines up to an offset are counted, if the others start behind it. -/
theorem lineCount_eq {index : LineTable} {front back : List LineStart} {offset : Nat}
    (hl : index.lines.toList = front ++ back) (hf : ∀ l ∈ front, l.offset ≤ offset)
    (hb : ∀ l ∈ back, offset < l.offset) : index.lineCount offset = front.length := by
  have hsize : index.lines.size = front.length + back.length := by
    rw [← Array.length_toList, hl, List.length_append]
  have hget : ∀ i : Nat, index.lines[i]? = (front ++ back)[i]? := by
    intro i
    rw [← hl, Array.getElem?_toList]
  apply partitionPoint_eq
  · exact Nat.zero_le _
  · omega
  · intro i hi
    rw [hget, List.getElem?_append_left hi, List.getElem?_eq_getElem hi]
    simpa using hf _ (List.getElem_mem hi)
  · intro i hi hsi
    have hi' : i - front.length < back.length := by omega
    rw [hget, List.getElem?_append_right hi, List.getElem?_eq_getElem hi']
    simpa using hb _ (List.getElem_mem hi')

/-- The line that an offset lies in is the last of those that are counted. -/
theorem lineStart_eq {index : LineTable} {front back : List LineStart} {l : LineStart}
    {offset : Nat} (hl : index.lines.toList = front ++ l :: back)
    (hf : ∀ k ∈ front ++ [l], k.offset ≤ offset) (hb : ∀ k ∈ back, offset < k.offset) :
    index.lineCount offset = front.length + 1 ∧
      index.lines[index.lineCount offset - 1]? = some l := by
  have hsplit : index.lines.toList = (front ++ [l]) ++ back := by simp [hl]
  have hcount : index.lineCount offset = front.length + 1 := by
    rw [lineCount_eq hsplit hf hb]
    simp
  refine ⟨hcount, ?_⟩
  rw [hcount, Nat.add_sub_cancel, ← Array.getElem?_toList, hl]
  simp

variable {source : String}

theorem lines_ofString (source : String) :
    (ofString source).lines.toList =
      ⟨0, source.toList⟩ :: LineStart.afterNewlines 0 source.toList := rfl

/-- Every offset lies in a line: there is one that starts at it or before, somewhere in the text. -/
theorem exists_lineStart (source : String) (offset : Nat) :
    ∃ l, 0 < (ofString source).lineCount offset ∧
      (ofString source).lines[(ofString source).lineCount offset - 1]? = some l ∧
      l.offset ≤ offset ∧
      ∃ pre, source.toList = pre ++ l.text ∧ utf8Len pre = l.offset := by
  obtain ⟨front, back, hs, hf, hb⟩ :=
    LineStart.exists_split_afterNewlines offset 0 source.toList
  rcases List.eq_nil_or_concat front with rfl | ⟨front, l, rfl⟩
  · have hl : (ofString source).lines.toList = [] ++ ⟨0, source.toList⟩ :: back := by
      rw [lines_ofString, hs]
      rfl
    obtain ⟨hcount, hget⟩ := lineStart_eq hl (by simp) hb
    exact ⟨_, by omega, hget, Nat.zero_le _, [], rfl, rfl⟩
  · have hl : (ofString source).lines.toList = (⟨0, source.toList⟩ :: front) ++ l :: back := by
      rw [lines_ofString, hs]
      simp
    obtain ⟨hcount, hget⟩ := lineStart_eq hl (by simpa using hf) hb
    have hmem : l ∈ LineStart.afterNewlines 0 source.toList := by simp [hs]
    obtain ⟨pre, hpre, ho⟩ := LineStart.exists_of_mem_afterNewlines hmem
    refine ⟨l, by omega, hget, hf l (by simp), pre ++ ['\n'], by simpa using hpre, ?_⟩
    have hnewline : utf8Len ['\n'] = 1 := rfl
    rw [String.utf8Len_append, hnewline, ho]
    omega

/-- The line starts of a text, seen from a place in the middle of a line. -/
theorem exists_lines_append {earlier line after : List Char}
    (hs : source.toList = earlier ++ (line ++ after)) (hn : '\n' ∉ line)
    (he : earlier = [] ∨ ∃ pre, earlier = pre ++ ['\n']) :
    ∃ front, (ofString source).lines.toList = front ++ ⟨utf8Len earlier, line ++ after⟩ ::
        LineStart.afterNewlines (utf8Len (earlier ++ line)) after ∧
      front.length = earlier.count '\n' ∧ ∀ l ∈ front, l.offset ≤ utf8Len earlier := by
  have hline : ∀ offset, LineStart.afterNewlines offset (line ++ after) =
      LineStart.afterNewlines (offset + utf8Len line) after := by
    intro offset
    rw [LineStart.afterNewlines_append, LineStart.afterNewlines_eq_nil hn]
    rfl
  rw [lines_ofString, hs, String.utf8Len_append]
  rcases he with rfl | ⟨pre, rfl⟩
  · exact ⟨[], by rw [List.nil_append, hline]; rfl, rfl, nofun⟩
  · have hnewline : utf8Len (pre ++ ['\n']) = utf8Len pre + 1 := String.utf8Len_append pre ['\n']
    have hsplit : LineStart.afterNewlines 0 (pre ++ '\n' :: (line ++ after)) =
        (LineStart.afterNewlines 0 pre).map (fun l => ⟨l.offset, l.text ++ '\n' :: (line ++ after)⟩) ++
          ⟨utf8Len pre + 1, line ++ after⟩ ::
            LineStart.afterNewlines (utf8Len pre + 1 + utf8Len line) after := by
      rw [LineStart.afterNewlines_append, Nat.zero_add, ← hline]
      rfl
    rw [hnewline, List.append_assoc, List.singleton_append, hsplit, ← List.cons_append]
    refine ⟨_, rfl, by simp [LineStart.length_afterNewlines], List.forall_mem_cons.mpr ⟨by simp, ?_⟩⟩
    intro l hl
    obtain ⟨k, hk, rfl⟩ := List.mem_map.mp hl
    obtain ⟨pre', rfl, ho⟩ := LineStart.exists_of_mem_afterNewlines hk
    simp only [String.utf8Len_append, String.utf8Len_cons]
    omega

theorem position?_eq {index : LineTable} {offset : Nat} {l : LineStart}
    (hl : index.lines[index.lineCount offset - 1]? = some l) :
    index.position? offset =
      (charCount? l.text (offset - l.offset)).map fun n => ⟨index.lineCount offset, n + 1⟩ := by
  rw [position?, hl, Option.map_eq_bind]
  rfl

/-- The byte behind a front part of the text has the position behind its characters. -/
theorem position?_of_append {before after : List Char} (hs : source.toList = before ++ after) :
    (ofString source).position? (utf8Len before) = some (.behind before) := by
  obtain ⟨earlier, line, rfl, hn, he⟩ := exists_lastLine before
  rw [List.append_assoc] at hs
  obtain ⟨front, hlines, hfront, hf⟩ := exists_lines_append hs hn he
  have hle : utf8Len earlier ≤ utf8Len (earlier ++ line) := by
    rw [String.utf8Len_append]
    omega
  have hupTo : ∀ k ∈ front ++ [⟨utf8Len earlier, line ++ after⟩],
      k.offset ≤ utf8Len (earlier ++ line) :=
    List.forall_mem_append.mpr
      ⟨fun k hk => (hf k hk).trans hle, List.forall_mem_singleton.mpr hle⟩
  have hbehind : ∀ k ∈ LineStart.afterNewlines (utf8Len (earlier ++ line)) after,
      utf8Len (earlier ++ line) < k.offset := by
    intro k hk
    obtain ⟨pre, -, ho⟩ := LineStart.exists_of_mem_afterNewlines hk
    omega
  obtain ⟨hcount, hget⟩ := lineStart_eq hlines hupTo hbehind
  have hrest : utf8Len (earlier ++ line) - utf8Len earlier = utf8Len line := by
    rw [String.utf8Len_append]
    omega
  rw [position?_eq hget, hrest, charCount?_append, Position.behind_of_lastLine hn he, hcount,
    hfront]
  rfl

/-- A byte with a position is behind a front part of the text. -/
theorem exists_append_of_position? {offset : Nat} {p : Position}
    (h : (ofString source).position? offset = some p) :
    ∃ before after, source.toList = before ++ after ∧ utf8Len before = offset := by
  obtain ⟨l, -, hget, hle, pre, hs, hpre⟩ := exists_lineStart source offset
  rw [position?_eq hget] at h
  obtain ⟨n, hn, -⟩ := Option.map_eq_some_iff.mp h
  obtain ⟨line, after, ht, hline⟩ := exists_of_charCount? hn
  refine ⟨pre ++ line, after, by rw [hs, ht, List.append_assoc], ?_⟩
  rw [String.utf8Len_append]
  omega

theorem position?_eq_some_iff {offset : Nat} {p : Position} :
    (ofString source).position? offset = some p ↔
      ∃ before after, source.toList = before ++ after ∧ utf8Len before = offset ∧
        p = .behind before := by
  constructor
  · intro h
    obtain ⟨before, after, hs, rfl⟩ := exists_append_of_position? h
    rw [position?_of_append hs] at h
    exact ⟨before, after, hs, rfl, (Option.some.inj h).symm⟩
  · rintro ⟨before, after, hs, rfl, rfl⟩
    exact position?_of_append hs

/-- The boundaries of characters are behind the front parts of the text. -/
theorem isValid_iff {offset : Nat} :
    String.Pos.Raw.IsValid source ⟨offset⟩ ↔
      ∃ before after, source.toList = before ++ after ∧ utf8Len before = offset := by
  have hlen : ∀ s : String, utf8Len s.toList = s.utf8ByteSize := by
    intro s
    rw [← String.utf8ByteSize_ofList, String.ofList_toList]
  rw [String.Pos.Raw.isValid_iff_exists_append]
  constructor
  · rintro ⟨s, t, rfl, hs⟩
    refine ⟨s.toList, t.toList, String.toList_append, ?_⟩
    rw [hlen]
    exact (congrArg String.Pos.Raw.byteIdx hs).symm
  · rintro ⟨before, after, hs, rfl⟩
    refine ⟨String.ofList before, String.ofList after, ?_, ?_⟩
    · rw [← String.ofList_append, ← hs, String.ofList_toList]
    · rw [← String.utf8ByteSize_ofList]
      rfl

/-- Of two front parts of the text, the one with fewer bytes is the front of the other. -/
theorem precedes_of_lt {i j : Nat} {p q : Position} (hi : (ofString source).position? i = some p)
    (hj : (ofString source).position? j = some q) (hlt : i < j) : p.Precedes q := by
  obtain ⟨before, after, hs, rfl, rfl⟩ := position?_eq_some_iff.mp hi
  obtain ⟨before', after', hs', rfl, rfl⟩ := position?_eq_some_iff.mp hj
  have hpre : before <+: source.toList := ⟨after, hs.symm⟩
  have hpre' : before' <+: source.toList := ⟨after', hs'.symm⟩
  rcases List.prefix_or_prefix_of_prefix hpre hpre' with ⟨between, rfl⟩ | ⟨between, rfl⟩
  · apply Position.behind_precedes
    rintro rfl
    rw [List.append_nil] at hlt
    omega
  · rw [String.utf8Len_append] at hlt
    omega

end LineTable

/-- Every byte offset lies in a line of the table. It has a position if and only if it is within
the text and on a boundary of characters, and that is the position which the newlines and the
characters in front of it give. Positions increase with the offsets. -/
theorem position?_exact (source : String) :
    (∀ offset, 0 < (LineTable.ofString source).lineCount offset ∧
      ∃ l, (LineTable.ofString source).lines[(LineTable.ofString source).lineCount offset - 1]? =
        some l ∧ l.offset ≤ offset) ∧
    (∀ offset, ((LineTable.ofString source).position? offset).isSome ↔
      offset ≤ source.utf8ByteSize ∧ String.Pos.Raw.IsValid source ⟨offset⟩) ∧
    (∀ before after, source = before ++ after →
      (LineTable.ofString source).position? before.utf8ByteSize =
        some ⟨1 + before.toList.count '\n',
          1 + (before.toList.reverse.takeWhile (· ≠ '\n')).length⟩) ∧
    ∀ i j p q, (LineTable.ofString source).position? i = some p →
      (LineTable.ofString source).position? j = some q →
        (i < j → p.Precedes q) ∧ (i ≠ j → p ≠ q) := by
  refine ⟨fun offset => ?_, fun offset => ?_, ?_, fun i j p q hi hj => ⟨?_, fun hne => ?_⟩⟩
  · obtain ⟨l, hpos, hget, hle, -⟩ := LineTable.exists_lineStart source offset
    exact ⟨hpos, l, hget, hle⟩
  · rw [LineTable.isValid_iff, Option.isSome_iff_exists]
    constructor
    · rintro ⟨p, hp⟩
      obtain ⟨before, after, hs, rfl⟩ := LineTable.exists_append_of_position? hp
      refine ⟨?_, before, after, hs, rfl⟩
      rw [← String.ofList_toList (s := source), String.utf8ByteSize_ofList, hs,
        String.utf8Len_append]
      omega
    · rintro ⟨-, before, after, hs, rfl⟩
      exact ⟨_, LineTable.position?_of_append hs⟩
  · rintro before after rfl
    have h := LineTable.position?_of_append (String.toList_append (s := before) (t := after))
    rw [← String.utf8ByteSize_ofList, String.ofList_toList] at h
    rw [h, Position.behind, Nat.add_comm, Nat.add_comm _ 1]
  · exact LineTable.precedes_of_lt hi hj
  · rcases Nat.lt_or_gt_of_ne hne with hlt | hgt
    · exact (LineTable.precedes_of_lt hi hj hlt).ne
    · exact (LineTable.precedes_of_lt hj hi hgt).ne.symm

namespace LineTable

open Lexeme (first fits_of_first spelling_of_first drop_spelling)

/-- The tokens of a text at the byte `offset`, where each lexeme has its position looked up. There
are none if a lookup has no answer. -/
def tokens? (table : LineTable) (offset : Nat) (pending : Bool) :
    List Char → Option (Except LexError (List Token))
  | [] => some (.ok [])
  | c :: cs => do
    let p ← table.position? offset
    match first pending c cs with
    | .error fault => return .error ⟨fault, p⟩
    | .ok l => do
      let rest ← tokens? table (offset + utf8Len l.spelling) (l.opensBodyNext pending)
        (cs.drop (l.spelling.length - 1))
      return rest.map (l.tokens p ++ ·)
termination_by cs => cs.length
decreasing_by simp only [List.length_drop, List.length_cons]; omega

theorem tokens?_of_append {source : String} {before cs : List Char} {pending : Bool}
    (hs : source.toList = before ++ cs) :
    (ofString source).tokens? (utf8Len before) pending cs =
      some (tokensFrom (.behind before) pending cs) := by
  -- The induction is over the lexemes, and the text in front grows by the spelling of each.
  generalize hp : Position.behind before = p
  fun_induction tokensFrom p pending cs generalizing before with
  | case1 p pending => rw [tokens?]
  | case2 p pending c cs fault hf =>
    rw [tokens?, position?_of_append hs, hp, hf]
    rfl
  | case3 p pending c cs l hf ih =>
    have hspell := spelling_of_first hf
    rw [drop_spelling (fits_of_first hf)] at hspell
    have hfront := position?_of_append hs
    rw [← hspell, ← List.append_assoc] at hs
    have hnext : Position.behind (before ++ l.spelling) = p.after l.spelling := by
      rw [← hp, Position.after_behind]
    have hrest := ih hs hnext
    rw [String.utf8Len_append] at hrest
    rw [tokens?, hfront, hp, hf]
    change (tokens? _ _ _ _ >>= _) = _
    rw [hrest]
    cases tokensFrom (p.after l.spelling) (l.opensBodyNext pending)
      (cs.drop (l.spelling.length - 1)) <;> rfl

/-- Counting positions along the way and looking each of them up come to the same tokens, and to the
same error. The table has an answer for all of them. -/
theorem tokens?_eq_tokenize (source : String) :
    (ofString source).tokens? 0 false source.toList = some (tokenize source) := by
  have hs : source.toList = [] ++ source.toList := rfl
  exact tokens?_of_append hs

end LineTable

end Holov
