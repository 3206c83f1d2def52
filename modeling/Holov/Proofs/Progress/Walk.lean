import Holov.Program.Parser

/-!
The parser as a walk along tokens that stay where they are. A walk has an index into the token list
and keeps it when it fails, it remembers where it stood at every look, and each of its loops has an
allowance of rounds. Whatever the allowance, a walk goes forward only, never leaves the list, and
looks at most eight times for each token that it takes, and four times more.
-/
namespace Holov

inductive Ending (α : Type) where
  | done (a : α)
  | failed (e : ParseError)
  /-- A loop came to a round that it was not allowed. -/
  | overrun

structure Walked (α : Type) where
  /-- The index at each look at the tokens, in order. -/
  looks : List Nat := []
  /-- The index in the end, also where the walk has failed. -/
  stop : Nat
  ending : Ending α

/-- A walk is started with a list of tokens and an index into it. -/
def Walk (α : Type) : Type :=
  List Token → Nat → Walked α

variable {α β : Type}

def Walked.andThen (r : Walked α) (more : α → Nat → Walked β) : Walked β :=
  match r.ending with
  | .done a =>
    let r' := more a r.stop
    { r' with looks := r.looks ++ r'.looks }
  | .failed e => { looks := r.looks, stop := r.stop, ending := .failed e }
  | .overrun => { looks := r.looks, stop := r.stop, ending := .overrun }

/-- The cursor that has taken `i` of the items. -/
def Cursor.ofIndex (items : List α) (i : Nat) : Cursor α where
  last? := match i with
    | 0 => none
    | k + 1 => items[k]?
  ahead := items.drop i

namespace Walk

instance : Monad Walk where
  pure a := fun _ i => { stop := i, ending := .done a }
  bind w f := fun ts i => (w ts i).andThen fun a => f a ts

def fail (e : ParseError) : Walk α :=
  fun _ i => { stop := i, ending := .failed e }

def overrun : Walk α :=
  fun _ i => { stop := i, ending := .overrun }

def ofExcept : Except ParseError α → Walk α
  | .ok a => pure a
  | .error e => fail e

def peek? : Walk (Option Token) :=
  fun ts i => { looks := [i], stop := i, ending := .done ts[i]? }

def takeIf? (p : Token → Bool) : Walk (Option Token) :=
  fun ts i =>
    match ts[i]?.filter p with
    | some t => { looks := [i], stop := i + 1, ending := .done (some t) }
    | none => { looks := [i], stop := i, ending := .done none }

theorem takeIf?_of_holds {p : Token → Bool} {ts : List Token} {i : Nat} {t : Token}
    (ht : ts[i]? = some t) (hp : p t) :
    takeIf? p ts i = { looks := [i], stop := i + 1, ending := .done (some t) } := by
  have hf : ts[i]?.filter p = some t := by rw [ht, Option.filter_some, if_pos hp]
  rw [takeIf?, hf]

theorem takeIf?_of_fails {p : Token → Bool} {ts : List Token} {i : Nat}
    (h : ∀ t ∈ ts[i]?, ¬ p t) :
    takeIf? p ts i = { looks := [i], stop := i, ending := .done none } := by
  have hf : ts[i]?.filter p = none := Option.filter_eq_none_iff.mpr h
  rw [takeIf?, hf]

def unmet (expected : Expectation) : Walk α :=
  fun ts i => { looks := [i], stop := i, ending := .failed (Parser.unmet (.ofIndex ts i) expected) }

def takeKind? (kind : Kind) : Walk (Option Token) :=
  takeIf? fun t => t.kind = kind

def requireKind (kind : Kind) (expected : Expectation) : Walk Token := do
  match ← takeKind? kind with
  | some t => return t
  | none => unmet expected

def operand? : Walk (Option Parser.Operand) := do
  match ← takeIf? fun t => t.kind.isValue with
  | some t => do
    let ending? ← takeKind? .caseEnding
    return some ⟨t, ending?.isSome⟩
  | none => return none

def operand (expected : Expectation) : Walk Parser.Operand := do
  match ← operand? with
  | some o => return o
  | none => unmet expected

def joined (n : Nat) : Walk (List Token) := do
  match ← takeKind? .separator with
  | none => return []
  | some _ =>
    match n with
    | 0 => overrun
    | n + 1 => do
      let v ← operand .valueAfterSeparator
      let more ← joined n
      return v.token :: more

def expression (n : Nat) (body : Position → Walk Block) : Walk Expr := do
  let first ← operand .value
  let rest ← joined n
  let values := rest ++ [first.token]
  if first.marked then
    match ← takeKind? .identifier with
    | some callee => return .call callee.text callee.position values
    | none => return .value first.token
  else
    match ← takeKind? .parameter with
    | some _ => do
      let word ← requireKind .function .functionAfterParameter
      let params ← ofExcept (values.mapM Parser.parameterName)
      let block ← body word.position
      return .function params block
    | none =>
      match ← operand? with
      | some arg => do
        let more ← joined n
        return .call first.token.text first.token.position (rest ++ arg.token :: more)
      | none => return .value first.token

def statement (n : Nat) (body : Position → Walk Block) : Walk Statement := do
  let e ← expression n body
  match ← takeKind? .naming with
  | none => return .expression e
  | some _ => do
    let name ← requireKind .identifier .nameAfterNaming
    return .definition e name.text name.position

/-- The statements of a function body, in `n` rounds at the most. Every round is counted, also the
one that finds the closing `»` and the one that finds no token at all. -/
def body (n : Nat) (openedAt : Position) : Walk Block :=
  match n with
  | 0 => overrun
  | n + 1 => do
    match ← peek? with
    | none => fail (.unclosedBody openedAt)
    | some _ =>
      match ← takeKind? .endFunction with
      | some _ => return []
      | none => do
        let s ← statement n (body n)
        let more ← body n openedAt
        return s :: more

def program (n : Nat) : Walk Block := do
  match ← peek? with
  | none => return []
  | some t =>
    match n with
    | 0 => overrun
    | n + 1 =>
      if t.kind = .endFunction then unmet .statement
      else do
        let s ← statement n (body n)
        let more ← program n
        return s :: more

end Walk

def Ending.least (spare : α → Int) (floor : Int) : Ending α → Int
  | .done a => spare a
  | .failed _ | .overrun => floor

theorem Ending.least_sub (spare : α → Int) (floor paid : Int) (e : Ending α) :
    e.least (fun a => spare a - paid) (floor - paid) = e.least spare floor - paid := by
  cases e <;> rfl

namespace Walked

/-- A walk from `i` that has only gone forward, and not past the end. -/
structure Ascends (ts : List Token) (i : Nat) (r : Walked α) : Prop where
  ordered : (i :: (r.looks ++ [r.stop])).Pairwise (· ≤ ·)
  inside : r.stop ≤ max i ts.length

/-- The walk has also looked at most eight times for each token taken, and four times more. -/
structure Frugal (ts : List Token) (i : Nat) (r : Walked α) : Prop extends r.Ascends ts i where
  few : r.looks.length ≤ 8 * (r.stop - i) + 4

def balance (i : Nat) (r : Walked α) : Int :=
  8 * (r.stop - i : Int) - r.looks.length

/-- The walk also leaves a balance of `spare` where it is done, and of `floor` where it is not. -/
structure Affords (ts : List Token) (i : Nat) (spare : α → Int) (floor : Int) (r : Walked α) : Prop
    extends r.Ascends ts i where
  affordable : r.ending.least spare floor ≤ r.balance i

theorem ordered_iff {i j : Nat} {looks : List Nat} :
    (i :: (looks ++ [j])).Pairwise (· ≤ ·) ↔
      i ≤ j ∧ looks.Pairwise (· ≤ ·) ∧ ∀ k ∈ looks, i ≤ k ∧ k ≤ j := by
  simp only [List.pairwise_cons, List.pairwise_append, List.mem_append, List.mem_singleton, or_imp,
    forall_and, forall_eq]
  constructor
  · rintro ⟨⟨hi, hj⟩, hl, -, hm⟩
    exact ⟨hj, hl, hi, hm⟩
  · rintro ⟨hj, hl, hi, hm⟩
    exact ⟨⟨hi, hj⟩, hl, by simp, hm⟩

variable {ts : List Token} {i : Nat} {r : Walked α} {spare : α → Int} {floor floor' : Int}

theorem Ascends.andThen_done {a : α} {more : α → Nat → Walked β} (ha : r.ending = .done a)
    (h : r.Ascends ts i) (hm : (more a r.stop).Ascends ts r.stop) :
    (r.andThen more).Ascends ts i := by
  obtain ⟨looks, j, ending⟩ := r
  subst ha
  obtain ⟨hij, hl, hb⟩ := ordered_iff.mp h.ordered
  obtain ⟨hjk, hl', hb'⟩ := ordered_iff.mp hm.ordered
  refine ⟨ordered_iff.mpr ⟨Nat.le_trans hij hjk, ?_, ?_⟩, ?_⟩
  · refine List.pairwise_append.mpr ⟨hl, hl', fun k hk k' hk' => ?_⟩
    exact Nat.le_trans (hb k hk).2 (hb' k' hk').1
  · intro k hk
    rcases List.mem_append.mp hk with hk | hk
    · exact ⟨(hb k hk).1, Nat.le_trans (hb k hk).2 hjk⟩
    · exact ⟨Nat.le_trans hij (hb' k hk).1, (hb' k hk).2⟩
  · have hj : j ≤ max i ts.length := h.inside
    have hk : (more a j).stop ≤ max j ts.length := hm.inside
    change (more a j).stop ≤ max i ts.length
    omega

theorem balance_andThen_done {a : α} (ha : r.ending = .done a) (more : α → Nat → Walked β) :
    (r.andThen more).balance i = r.balance i + (more a r.stop).balance r.stop := by
  simp only [andThen, ha, balance, List.length_append]
  omega

/-- Balances add up along the way. -/
theorem Affords.andThen {more : α → Nat → Walked β} {total : β → Int}
    (h : r.Affords ts i spare floor')
    (hm : ∀ a, (more a r.stop).Affords ts r.stop (fun b => total b - spare a) (floor - spare a))
    (hf : floor ≤ floor') : (r.andThen more).Affords ts i total floor := by
  obtain ⟨looks, j, ending⟩ := r
  cases ending with
  | failed e => exact ⟨⟨h.ordered, h.inside⟩, Int.le_trans hf h.affordable⟩
  | overrun => exact ⟨⟨h.ordered, h.inside⟩, Int.le_trans hf h.affordable⟩
  | done a =>
    refine ⟨h.toAscends.andThen_done rfl (hm a).toAscends, ?_⟩
    rw [balance_andThen_done rfl]
    have hpaid : spare a ≤ balance i ⟨looks, j, .done a⟩ := h.affordable
    have hleft := (hm a).affordable
    rw [Ending.least_sub] at hleft
    change (more a j).ending.least total floor - spare a ≤ (more a j).balance j at hleft
    change (more a j).ending.least total floor ≤
      balance i ⟨looks, j, .done a⟩ + (more a j).balance j
    omega

/-- Looking without taking anything. -/
theorem affords_of_standing {e : Ending α} (n : Nat) (h : e.least spare floor ≤ -n) :
    Affords ts i spare floor ⟨List.replicate n i, i, e⟩ := by
  refine ⟨⟨ordered_iff.mpr ⟨Nat.le_refl i, ?_, ?_⟩, Nat.le_max_left _ _⟩, ?_⟩
  · exact List.pairwise_replicate.mpr (.inr (Nat.le_refl i))
  · intro k hk
    rw [List.eq_of_mem_replicate hk]
    exact ⟨Nat.le_refl i, Nat.le_refl i⟩
  · simp only [balance, List.length_replicate]
    omega

theorem Affords.frugal (h : r.Affords ts i spare floor) (hs : ∀ a, -4 ≤ spare a)
    (hf : -4 ≤ floor) : r.Frugal ts i := by
  refine ⟨h.toAscends, ?_⟩
  have hi : i ≤ r.stop := (ordered_iff.mp h.ordered).1
  have hb : -4 ≤ r.balance i := by
    refine Int.le_trans ?_ h.affordable
    cases r.ending with
    | done a => exact hs a
    | failed _ | overrun => exact hf
  unfold balance at hb
  omega

end Walked

namespace Walk

def Affords (w : Walk α) (spare : α → Int) (floor : Int) : Prop :=
  ∀ ts i, (w ts i).Affords ts i spare floor

variable {w : Walk α} {spare : α → Int} {floor floor' : Int}

theorem Affords.bind {f : α → Walk β} {total : β → Int} (h : w.Affords spare floor')
    (hm : ∀ a, (f a).Affords (fun b => total b - spare a) (floor - spare a))
    (hf : floor ≤ floor') : (w >>= f).Affords total floor :=
  fun ts i => (h ts i).andThen (fun a => hm a ts _) hf

theorem pure_affords {a : α} (h : spare a ≤ 0) : (pure a : Walk α).Affords spare floor :=
  fun _ _ => Walked.affords_of_standing 0 h

theorem fail_affords {e : ParseError} (h : floor ≤ 0) : (fail e : Walk α).Affords spare floor :=
  fun _ _ => Walked.affords_of_standing 0 h

theorem overrun_affords (h : floor ≤ 0) : (overrun : Walk α).Affords spare floor :=
  fun _ _ => Walked.affords_of_standing 0 h

theorem ofExcept_affords (x : Except ParseError α) : (ofExcept x).Affords (fun _ => 0) 0 := by
  cases x with
  | ok a => exact pure_affords (Int.le_refl 0)
  | error e => exact fail_affords (Int.le_refl 0)

theorem unmet_affords {expected : Expectation} (h : floor ≤ -1) :
    (unmet expected : Walk α).Affords spare floor :=
  fun _ _ => Walked.affords_of_standing 1 h

theorem peek?_affords (floor : Int) : peek?.Affords (fun _ => -1) floor :=
  fun _ _ => Walked.affords_of_standing 1 (Int.le_refl _)

theorem takeIf?_affords (floor : Int) (p : Token → Bool) :
    (takeIf? p).Affords (fun t? => if t?.isSome then 7 else -1) floor := by
  intro ts i
  by_cases h : ∃ t, ts[i]? = some t ∧ p t
  · obtain ⟨t, ht, hp⟩ := h
    have hi : i < ts.length := (List.getElem?_eq_some_iff.mp ht).1
    rw [takeIf?_of_holds ht hp]
    refine ⟨⟨by simp, ?_⟩, ?_⟩
    · change i + 1 ≤ max i ts.length
      omega
    · change (7 : Int) ≤ 8 * (((i + 1 : Nat) : Int) - i) - 1
      omega
  · rw [takeIf?_of_fails fun t ht hp => h ⟨t, ht, hp⟩]
    exact Walked.affords_of_standing 1 (Int.le_refl _)

theorem takeKind?_affords (floor : Int) (kind : Kind) :
    (takeKind? kind).Affords (fun t? => if t?.isSome then 7 else -1) floor :=
  takeIf?_affords floor _

theorem requireKind_affords (kind : Kind) (expected : Expectation) :
    (requireKind kind expected).Affords (fun _ => 7) (-2) := by
  refine (takeKind?_affords 0 kind).bind ?_ (by omega)
  rintro (_ | t)
  · exact unmet_affords (by simp)
  · exact pure_affords (by simp)

theorem operand?_affords (floor : Int) :
    operand?.Affords (fun o? => if o?.isSome then 6 else -1) floor := by
  refine (takeIf?_affords floor _).bind ?_ (Int.le_refl _)
  rintro (_ | t)
  · exact pure_affords (by simp)
  · refine (takeKind?_affords _ .caseEnding).bind ?_ (Int.le_refl _)
    rintro (_ | e)
    · exact pure_affords (by simp)
    · exact pure_affords (by simp)

theorem operand_affords (expected : Expectation) :
    (operand expected).Affords (fun _ => 6) (-2) := by
  refine (operand?_affords 0).bind ?_ (by omega)
  rintro (_ | o)
  · exact unmet_affords (by simp)
  · exact pure_affords (by simp)

theorem joined_affords (n : Nat) : (joined n).Affords (fun _ => -1) 0 := by
  unfold joined
  refine (takeKind?_affords 0 .separator).bind ?_ (Int.le_refl _)
  rintro (_ | s)
  · exact pure_affords (by simp)
  · cases n with
    | zero => exact overrun_affords (by simp)
    | succ n =>
      refine (operand_affords .valueAfterSeparator).bind (fun v => ?_) (by simp)
      refine (joined_affords n).bind (fun more => ?_) (by simp)
      exact pure_affords (by simp)

section Bodies

variable {inner : Position → Walk Block} (hi : ∀ p, (inner p).Affords (fun _ => 0) (-4))
include hi

theorem expression_affords (n : Nat) : (expression n inner).Affords (fun _ => 3) (-2) := by
  refine (operand_affords .value).bind (fun first => ?_) (Int.le_refl _)
  refine (joined_affords n).bind (fun rest => ?_) (by simp)
  split
  · refine (takeKind?_affords 0 .identifier).bind ?_ (by simp)
    rintro (_ | callee)
    · exact pure_affords (by simp)
    · exact pure_affords (by simp)
  · refine (takeKind?_affords 0 .parameter).bind ?_ (by simp)
    rintro (_ | p)
    · refine (operand?_affords 0).bind ?_ (by simp)
      rintro (_ | arg)
      -- The tightest case: a bare value takes one token and has looked five times.
      · exact pure_affords (by simp)
      · refine (joined_affords n).bind (fun more => ?_) (by simp)
        exact pure_affords (by simp)
    · refine (requireKind_affords _ _).bind (fun word => ?_) (by simp)
      refine (ofExcept_affords _).bind (fun params => ?_) (by simp)
      refine (hi _).bind (fun block => ?_) (by simp)
      exact pure_affords (by simp)

theorem statement_affords (n : Nat) : (statement n inner).Affords (fun _ => 2) (-2) := by
  refine (expression_affords hi n).bind (fun e => ?_) (Int.le_refl _)
  refine (takeKind?_affords 0 .naming).bind ?_ (by simp)
  rintro (_ | as)
  · exact pure_affords (by simp)
  · refine (requireKind_affords _ _).bind (fun name => ?_) (by simp)
    exact pure_affords (by simp)

end Bodies

theorem body_affords (n : Nat) (p : Position) : (body n p).Affords (fun _ => 0) (-4) := by
  cases n with
  | zero => exact overrun_affords (by simp)
  | succ n =>
    refine (peek?_affords 0).bind ?_ (by simp)
    rintro (_ | t)
    · exact fail_affords (by simp)
    · refine (takeKind?_affords 0 .endFunction).bind ?_ (by simp)
      rintro (_ | close)
      -- A statement has the two looks to spare that came before it.
      · refine (statement_affords (body_affords n) n).bind (fun s => ?_) (by simp)
        refine (body_affords n p).bind (fun more => ?_) (by simp)
        exact pure_affords (by simp)
      · exact pure_affords (by simp)

theorem program_affords (n : Nat) : (program n).Affords (fun _ => -1) (-3) := by
  unfold program
  refine (peek?_affords 0).bind ?_ (by simp)
  rintro (_ | t)
  · exact pure_affords (by simp)
  · cases n with
    | zero => exact overrun_affords (by simp)
    | succ n =>
      simp only
      split
      · exact unmet_affords (by simp)
      · refine (statement_affords (body_affords n) n).bind (fun s => ?_) (by simp)
        refine (program_affords n).bind (fun more => ?_) (by simp)
        exact pure_affords (by simp)

end Walk

end Holov
