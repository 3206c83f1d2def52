import Holov.Proofs.Reading

namespace Holov
open Grammar

def bodiesAfter (bodies : List Token) (t : Token) : List Token :=
  match t.kind with
  | .function => t :: bodies
  | .endFunction => bodies.tail
  | _ => bodies

/-- The function words whose bodies are open at the end of the list, the innermost first. -/
def openBodies (ts : List Token) : List Token :=
  ts.foldl bodiesAfter []

structure ValueRun where
  values : List Token := []
  /-- There is a separator behind the last value. -/
  joining : Bool := false

def ValueRun.take (run : ValueRun) (t : Token) : ValueRun :=
  if t.kind.isValue then ⟨if run.joining then run.values ++ [t] else [t], false⟩
  else ⟨run.values, t.kind = .separator⟩

/-- The last values of the list that are joined by separators. If the list ends in the parameter
word, these are the parameters. -/
def pendingParameters (ts : List Token) : List Token :=
  (ts.foldl ValueRun.take {}).values

theorem bodiesAfter_of_ne {t : Token} (hf : t.kind ≠ .function) (he : t.kind ≠ .endFunction)
    (bodies : List Token) : bodiesAfter bodies t = bodies := by
  unfold bodiesAfter
  split <;> trivial

theorem bodiesAfter_of_isValue {t : Token} (h : t.kind.isValue) (bodies : List Token) :
    bodiesAfter bodies t = bodies :=
  bodiesAfter_of_ne (kind_ne_of_isValue h rfl) (kind_ne_of_isValue h rfl) bodies

namespace ValueRun

variable {run : ValueRun} {t : Token}

theorem take_of_isValue (h : t.kind.isValue) :
    run.take t = ⟨if run.joining then run.values ++ [t] else [t], false⟩ :=
  if_pos h

theorem take_of_not_isValue (h : t.kind.isValue = false) :
    run.take t = ⟨run.values, t.kind = .separator⟩ :=
  if_neg (by simp [h])

theorem joining_take_of_ne (h : t.kind ≠ .separator) : (run.take t).joining = false := by
  unfold take
  split
  · rfl
  · exact decide_eq_false h

theorem take_caseEnding (hk : t.kind = .caseEnding) (hj : run.joining = false) :
    run.take t = run := by
  obtain ⟨values, joining⟩ := run
  obtain rfl : joining = false := hj
  rw [take_of_not_isValue (by rw [hk]; rfl), hk]
  rfl

end ValueRun

def Stage.Fits (run : ValueRun) : Stage → Prop
  | joined first _ values => run = ⟨first :: values, false⟩
  | joining first _ values => run = ⟨first :: values, true⟩
  | parameters names => ∃ first values, run.values = first :: values ∧ names = values ++ [first]
  | enumerating => True
  | start | ended | arguments | naming => run.joining = false

/-- The machine stands where the tokens behind it say. -/
structure Reading.Tracks (r : Reading) (bodies : List Token) (run : ValueRun) : Prop where
  bodies_eq : r.bodies = bodies
  stage : r.stage.Fits run
  ending : ∀ s ∈ r.ending?, s.Fits run ∧ run.joining = false ∧ r.stage.awaits? = none

section Tracks

variable {bodies : List Token} {run : ValueRun} {t : Token} {r : Reading}

theorem Reading.tracks_unmarked {stage : Stage} {bodies' : List Token} (hb : bodies' = bodies)
    (hs : stage.Fits run) : Reading.Tracks ⟨bodies', stage, none⟩ bodies run :=
  ⟨hb, hs, nofun⟩

/-- Behind a word that ends the values before it, only the bodies are to be known. -/
theorem Reading.tracks_word {stage : Stage} {bodies' : List Token} (hk : t.kind ≠ .separator)
    (hb : bodies' = bodiesAfter bodies t)
    (hs : ∀ run : ValueRun, run.joining = false → stage.Fits run) :
    Reading.Tracks ⟨bodies', stage, none⟩ (bodiesAfter bodies t) (run.take t) :=
  tracks_unmarked hb (hs _ (ValueRun.joining_take_of_ne hk))

/-- Behind a value there may be a case ending. -/
theorem Reading.tracks_value {stage marked : Stage} (hv : t.kind.isValue)
    (hs : stage.Fits (run.take t)) (hm : marked.Fits (run.take t)) (ha : stage.awaits? = none) :
    Reading.Tracks ⟨bodies, stage, some marked⟩ (bodiesAfter bodies t) (run.take t) := by
  refine ⟨(bodiesAfter_of_isValue hv bodies).symm, hs, ?_⟩
  rintro _ ⟨rfl⟩
  exact ⟨hm, ValueRun.joining_take_of_ne (kind_ne_of_isValue hv rfl), ha⟩

theorem Reading.starts_tracks (hj : run.joining = false) (h : starts bodies t = .ok r) :
    r.Tracks (bodiesAfter bodies t) (run.take t) := by
  unfold starts at h
  split at h
  · rename_i hk
    split at h
    · cases h
    · cases h
      exact tracks_word (by simp [hk]) (by simp [bodiesAfter, hk]) fun _ => id
  · split at h
    · rename_i hv
      cases h
      have hrun : run.take t = ⟨[t], false⟩ := by
        rw [ValueRun.take_of_isValue hv, hj]
        rfl
      exact tracks_value hv hrun hrun rfl
    · cases h

theorem Reading.follows_tracks (hj : run.joining = false) (h : follows bodies t = .ok r) :
    r.Tracks (bodiesAfter bodies t) (run.take t) := by
  unfold follows at h
  split at h
  · rename_i hk
    cases h
    exact tracks_word (by simp [hk]) (by simp [bodiesAfter, hk]) fun _ => id
  · exact starts_tracks hj h

theorem Stage.step_tracks {stage : Stage} (hs : stage.Fits run)
    (h : stage.step bodies t = .ok r) : r.Tracks (bodiesAfter bodies t) (run.take t) := by
  cases stage with
  | start => exact Reading.starts_tracks hs h
  | ended => exact Reading.follows_tracks hs h
  | joined first marked values =>
    have hj : run.joining = false := by rw [hs]
    simp only [step] at h
    split at h
    · rename_i hk
      cases h
      refine Reading.tracks_unmarked (by simp [bodiesAfter, hk]) ?_
      have hrun : run = ⟨first :: values, false⟩ := hs
      exact (ValueRun.take_of_not_isValue (by rw [hk]; rfl)).trans (by simp [hk, hrun])
    · split at h
      · split at h
        · rename_i hk
          cases h
          exact Reading.tracks_word (by simp [hk]) (by simp [bodiesAfter, hk]) fun _ => id
        · exact Reading.follows_tracks hj h
      · split at h
        · rename_i hk
          cases h
          refine Reading.tracks_unmarked (by simp [bodiesAfter, hk]) ⟨first, values, ?_, rfl⟩
          rw [ValueRun.take_of_not_isValue (by rw [hk]; rfl), hs]
        · split at h
          · rename_i hv
            cases h
            have hend : (run.take t).joining = false :=
              ValueRun.joining_take_of_ne (kind_ne_of_isValue hv rfl)
            exact Reading.tracks_value hv hend hend rfl
          · exact Reading.follows_tracks hj h
  | joining first marked values =>
    simp only [step] at h
    split at h
    · rename_i hv
      cases h
      have hrun : run.take t = ⟨first :: (values ++ [t]), false⟩ := by
        rw [ValueRun.take_of_isValue hv, hs]
        rfl
      exact Reading.tracks_value hv hrun hrun rfl
    · cases h
  | parameters names =>
    simp only [step] at h
    split at h
    · rename_i hk
      obtain ⟨params, -, h⟩ := bind_eq_ok h
      cases h
      exact Reading.tracks_word (by simp [hk]) (by simp [bodiesAfter, hk]) fun _ => id
    · cases h
  | arguments =>
    simp only [step] at h
    split at h
    · rename_i hk
      cases h
      exact Reading.tracks_unmarked (by simp [bodiesAfter, hk]) trivial
    · exact Reading.follows_tracks hs h
  | enumerating =>
    simp only [step] at h
    split at h
    · rename_i hv
      cases h
      have hend : (run.take t).joining = false :=
        ValueRun.joining_take_of_ne (kind_ne_of_isValue hv rfl)
      exact Reading.tracks_value hv hend hend rfl
    · cases h
  | naming =>
    simp only [step] at h
    split at h
    · rename_i hk
      cases h
      exact Reading.tracks_word (by simp [hk]) (by simp [bodiesAfter, hk]) fun _ => id
    · cases h

theorem Reading.step_tracks (hr : r.Tracks bodies run) {r' : Reading} (h : r.step t = .ok r') :
    r'.Tracks (bodiesAfter bodies t) (run.take t) := by
  rw [← hr.bodies_eq]
  unfold step at h
  split at h
  · exact Stage.step_tracks hr.stage h
  · rename_i marked he
    split at h
    · rename_i hk
      cases h
      obtain ⟨hm, hj, -⟩ := hr.ending marked he
      rw [ValueRun.take_caseEnding hk hj]
      exact tracks_unmarked (by simp [bodiesAfter, hk]) hm
    · exact Stage.step_tracks hr.stage h

theorem Reading.foldlM_step_tracks {ts : List Token} (hr : r.Tracks bodies run) {r' : Reading}
    (h : ts.foldlM step r = .ok r') :
    r'.Tracks (ts.foldl bodiesAfter bodies) (ts.foldl ValueRun.take run) := by
  induction ts generalizing r bodies run with
  | nil =>
    cases h
    exact hr
  | cons t ts ih =>
    rw [List.foldlM_cons] at h
    obtain ⟨r₁, h₁, h⟩ := bind_eq_ok h
    exact ih (step_tracks hr h₁) h

end Tracks

/-- The machine that has read `ts` knows the bodies open in `ts` and the values at its end. -/
theorem Reading.tracks_of_foldlM {ts : List Token} {r : Reading}
    (h : ts.foldlM step {} = .ok r) : r.Tracks (openBodies ts) (ts.foldl ValueRun.take {}) := by
  have h₀ : Tracks {} [] {} := tracks_unmarked rfl rfl
  exact foldlM_step_tracks h₀ h

theorem Reading.Tracks.mem_parameters {r : Reading} {bodies names : List Token} {run : ValueRun}
    (hr : r.Tracks bodies run) (hs : r.stage = .parameters names) (t : Token) :
    t ∈ names ↔ t ∈ run.values := by
  have hfits := hr.stage
  rw [hs] at hfits
  obtain ⟨first, values, hrun, rfl⟩ := hfits
  rw [hrun, List.mem_append, List.mem_singleton, List.mem_cons, or_comm]

theorem Reading.Tracks.ending?_eq_none {r : Reading} {bodies : List Token} {run : ValueRun}
    {expected : Expectation} (hr : r.Tracks bodies run)
    (hs : r.stage.awaits? = some expected) : r.ending? = none := by
  refine Option.eq_none_iff_forall_not_mem.mpr fun s hm => ?_
  cases hs.symm.trans (hr.ending s hm).2.2

def FailsAtToken {α : Type} : Except ParseError α → Prop
  | .ok _ | .error (.unexpected _ _) => True
  | .error (.endOfInput _ _) | .error (.unclosedBody _) => False

section FailsAtToken

theorem FailsAtToken.bind {α β : Type} {x : Except ParseError α} {f : α → Except ParseError β}
    (hx : FailsAtToken x) (hf : ∀ a, FailsAtToken (f a)) : FailsAtToken (x >>= f) := by
  match x, hx with
  | .ok a, _ => exact hf a
  | .error (.unexpected _ _), _ => trivial

theorem Parser.parameters_failsAtToken (ts : List Token) :
    FailsAtToken (ts.mapM parameterName) := by
  induction ts with
  | nil => trivial
  | cons t ts ih =>
    rw [List.mapM_cons]
    have ht : FailsAtToken (parameterName t) := by
      unfold parameterName
      split <;> trivial
    exact ht.bind fun _ => ih.bind fun _ => trivial

theorem Reading.starts_failsAtToken (bodies : List Token) (t : Token) :
    FailsAtToken (starts bodies t) := by
  unfold starts
  repeat' split
  all_goals trivial

theorem Reading.follows_failsAtToken (bodies : List Token) (t : Token) :
    FailsAtToken (follows bodies t) := by
  unfold follows
  split
  · trivial
  · exact starts_failsAtToken bodies t

theorem Stage.step_failsAtToken (bodies : List Token) (t : Token) (stage : Stage) :
    FailsAtToken (stage.step bodies t) := by
  have hstarts := Reading.starts_failsAtToken bodies t
  have hfollows := Reading.follows_failsAtToken bodies t
  cases stage with
  | start => exact hstarts
  | ended => exact hfollows
  | parameters names =>
    rw [step]
    split
    · exact (Parser.parameters_failsAtToken names).bind fun _ => trivial
    · trivial
  | joined first marked values =>
    simp only [step]
    repeat' split
    all_goals first | exact hfollows | trivial
  | arguments =>
    rw [step]
    split
    · trivial
    · exact hfollows
  | joining first marked values | enumerating | naming =>
    rw [step]
    split <;> trivial

theorem Reading.step_failsAtToken (r : Reading) (t : Token) : FailsAtToken (r.step t) := by
  have hstage := Stage.step_failsAtToken r.bodies t r.stage
  unfold step
  split
  · exact hstage
  · split
    · trivial
    · exact hstage

theorem Reading.foldlM_step_failsAtToken (ts : List Token) (r : Reading) :
    FailsAtToken (ts.foldlM step r) := by
  induction ts generalizing r with
  | nil => trivial
  | cons t ts ih =>
    rw [List.foldlM_cons]
    exact (step_failsAtToken r t).bind ih

end FailsAtToken

theorem Stage.awaits?_eq_functionAfterParameter_iff {stage : Stage} :
    stage.awaits? = some .functionAfterParameter ↔ ∃ names, stage = .parameters names := by
  cases stage <;> simp [awaits?]

namespace Reading

variable {r : Reading}

def Accepts (r : Reading) (us : List Token) : Prop :=
  ∃ r', us.foldlM step r = .ok r' ∧ r'.stage.awaits? = none ∧ r'.bodies = []

theorem accepts_cons {t : Token} {us : List Token} {r' : Reading} (h : r.step t = .ok r') :
    r.Accepts (t :: us) ↔ r'.Accepts us := by
  simp only [Accepts, List.foldlM_cons, h, ok_bind]

theorem finish_eq_ok_iff {last? : Option Token} :
    r.finish last? = .ok () ↔ r.stage.awaits? = none ∧ r.bodies = [] := by
  unfold finish
  split
  · simp_all
  · split <;> simp_all

/-- If something is missing at the end, it is what the stage awaits. -/
theorem awaits?_of_finish {last? : Option Token} {expected : Expectation} {p : Position}
    (h : r.finish last? = .error (.endOfInput expected p)) : r.stage.awaits? = some expected := by
  unfold finish at h
  split at h
  · rename_i hs
    cases h
    exact hs
  · split at h <;> cases h

theorem bodies_of_finish {last? : Option Token} {p : Position}
    (h : r.finish last? = .error (.unclosedBody p)) :
    r.stage.awaits? = none ∧ r.bodies.head?.map Token.position = some p := by
  unfold finish at h
  split at h
  · cases h
  · rename_i hs
    split at h
    · cases h
    · rename_i hb
      cases h
      exact ⟨hs, by rw [hb]; rfl⟩

theorem finish_ne_unexpected {last? : Option Token} {t : Token} {expected : Expectation} :
    r.finish last? ≠ .error (.unexpected t expected) := by
  unfold finish
  split
  · nofun
  · split <;> nofun

theorem step_endFunction {t word : Token} {outer : List Token} (hs : r.stage.awaits? = none)
    (hb : r.bodies = word :: outer) (hk : t.kind = .endFunction) :
    r.step t = .ok { bodies := outer, stage := .ended } := by
  have hstarts : starts r.bodies t = .ok { bodies := outer, stage := .ended } := by
    rw [hb]
    exact if_pos hk
  have hfollows : follows r.bodies t = .ok { bodies := outer, stage := .ended } :=
    (if_neg (by simp [hk])).trans hstarts
  rw [step_of_ne (by simp [hk])]
  cases hstage : r.stage with
  | start => exact hstarts
  | ended => exact hfollows
  | joined first marked values => simp [Stage.step, hk, hfollows, Kind.isValue]
  | arguments => simp [Stage.step, hk, hfollows]
  | joining first marked values | parameters names | enumerating | naming =>
    rw [hstage] at hs
    cases hs

/-- Where a statement may end, as many closing words as there are bodies open end the input. -/
theorem accepts_endFunctions {us : List Token} (hs : r.stage.awaits? = none)
    (hu : ∀ u ∈ us, u.kind = .endFunction) (hl : us.length = r.bodies.length) : r.Accepts us := by
  induction us generalizing r with
  | nil => exact ⟨r, rfl, hs, List.length_eq_zero_iff.mp hl.symm⟩
  | cons u us ih =>
    obtain ⟨word, outer, hb⟩ := List.exists_cons_of_length_eq_add_one hl.symm
    have hl : us.length = outer.length := by simpa [hb] using hl
    refine (accepts_cons (step_endFunction hs hb (hu u (by simp)))).mpr ?_
    exact ih rfl (fun u hm => hu u (by simp [hm])) hl

/-- One token is enough where one is awaited, unless a parameter is not a name. -/
theorem exists_step_of_awaits? {expected : Expectation} (hs : r.stage.awaits? = some expected)
    (hn : ∀ names, r.stage = .parameters names → ∀ t ∈ names, t.kind = .identifier) :
    ∃ t r', r.step t = .ok r' ∧ r'.stage.awaits? = none := by
  -- A name will do in every stage but one, which awaits the function word.
  have hname := step_of_ne (r := r) (t := { kind := .identifier }) (by simp)
  have hword := step_of_ne (r := r) (t := { kind := .function }) (by simp)
  cases hstage : r.stage with
  | joining first marked values | enumerating | naming =>
    rw [hstage] at hname
    exact ⟨_, _, hname, rfl⟩
  | parameters names =>
    simp only [hstage, Stage.step, if_true, parameters_complete (hn names hstage), ok_bind] at hword
    exact ⟨_, _, hword, rfl⟩
  | start | ended | joined first marked values | arguments =>
    rw [hstage] at hs
    cases hs

theorem exists_accepts
    (hn : ∀ names, r.stage = .parameters names → ∀ t ∈ names, t.kind = .identifier) :
    ∃ us, r.Accepts us := by
  -- Where nothing is awaited, it is enough to close the bodies that are open.
  have hclosed : ∀ r : Reading, r.stage.awaits? = none → ∃ us, r.Accepts us := by
    intro r hs
    refine ⟨List.replicate r.bodies.length { kind := .endFunction }, accepts_endFunctions hs ?_ ?_⟩
    · intro u hu
      rw [List.eq_of_mem_replicate hu]
    · exact List.length_replicate
  cases hs : r.stage.awaits? with
  | none => exact hclosed r hs
  | some expected =>
    obtain ⟨t, r', hstep, hs'⟩ := exists_step_of_awaits? hs hn
    obtain ⟨us, hus⟩ := hclosed r' hs'
    exact ⟨t :: us, (accepts_cons hstep).mpr hus⟩

/-- A parameter that is not a name is refused, but only behind the function word. -/
theorem not_accepts_of_parameters {names us : List Token} {t : Token} (he : r.ending? = none)
    (hs : r.stage = .parameters names) (ht : t ∈ names) (hk : t.kind ≠ .identifier) :
    ¬ r.Accepts us := by
  rintro ⟨r', h, hr'⟩
  cases us with
  | nil =>
    cases h
    rw [hs] at hr'
    cases hr'.1
  | cons u us =>
    rw [List.foldlM_cons] at h
    obtain ⟨r₁, h₁, -⟩ := bind_eq_ok h
    simp only [step, he, hs, Stage.step] at h₁
    split at h₁
    · obtain ⟨params, hm, -⟩ := bind_eq_ok h₁
      exact hk ((parameters_sound hm).2 t ht)
    · cases h₁

end Reading

section Parse

variable {ts us : List Token} {r : Reading}

theorem parse_eq_error_iff {e : ParseError} :
    parse ts = .error e ↔
      (ts.foldlM Reading.step {} >>= fun r => r.finish ts.getLast?) = .error e := by
  rw [← parse_eq_answer]
  cases parse ts <;> simp [Except.map]

theorem parse_isOk_iff : (∃ b, parse ts = .ok b) ↔ Reading.Accepts {} ts := by
  have hiff : (∃ b, parse ts = .ok b) ↔
      (ts.foldlM Reading.step {} >>= fun r => r.finish ts.getLast?) = .ok () := by
    rw [← parse_eq_answer]
    cases parse ts <;> simp [Except.map]
  rw [hiff, Reading.Accepts]
  cases ts.foldlM Reading.step {} with
  | error e => simp [bind, Except.bind]
  | ok r => simp [ok_bind, Reading.finish_eq_ok_iff]

theorem parse_append_isOk_iff (h : ts.foldlM Reading.step {} = .ok r) :
    (∃ b, parse (ts ++ us) = .ok b) ↔ r.Accepts us := by
  rw [parse_isOk_iff, Reading.Accepts, List.foldlM_append, h]
  rfl

/-- If a token is not expected, the machine stops there. -/
theorem parse_eq_unexpected_iff {t : Token} {expected : Expectation} :
    parse ts = .error (.unexpected t expected) ↔
      ts.foldlM Reading.step {} = .error (.unexpected t expected) := by
  rw [parse_eq_error_iff]
  cases ts.foldlM Reading.step {} with
  | error e => simp [bind, Except.bind]
  | ok r => simp [ok_bind, Reading.finish_ne_unexpected]

/-- Otherwise the machine reads all tokens and is not content with the end of the input. -/
theorem exists_reading_of_parse_error {e : ParseError} (h : parse ts = .error e)
    (he : ∀ t expected, e ≠ .unexpected t expected) :
    ∃ r, ts.foldlM Reading.step {} = .ok r ∧ r.finish ts.getLast? = .error e := by
  rw [parse_eq_error_iff] at h
  have hf := Reading.foldlM_step_failsAtToken ts {}
  match hm : ts.foldlM Reading.step {}, hf with
  | .ok r, _ =>
    rw [hm] at h
    exact ⟨r, rfl, h⟩
  | .error (.unexpected t expected), _ =>
    rw [hm] at h
    cases h
    exact absurd rfl (he t expected)

end Parse

/-- Parse errors tell a malformed list of tokens from an incomplete one. A token that is not
expected is reported alike whatever follows. A list that ends too early has a continuation that
parses, unless it ends behind the parameter word and one of the parameters is not a name. A list
with open bodies names the innermost of them, and is continued by one closing word for each. -/
theorem parse_error_extension (ts : List Token) :
    (∀ t expected, parse ts = .error (.unexpected t expected) →
      ∀ us, parse (ts ++ us) = .error (.unexpected t expected)) ∧
    (∀ expected p, parse ts = .error (.endOfInput expected p) →
      ((∃ us b, parse (ts ++ us) = .ok b) ↔
        ¬ (expected = .functionAfterParameter ∧
          ∃ t ∈ pendingParameters ts, t.kind ≠ .identifier))) ∧
    (∀ p, parse ts = .error (.unclosedBody p) →
      (openBodies ts).head?.map Token.position = some p ∧
      ∀ us, (∀ u ∈ us, u.kind = .endFunction) → us.length = (openBodies ts).length →
        ∃ b, parse (ts ++ us) = .ok b) := by
  refine ⟨?_, ?_, ?_⟩
  · intro t expected h us
    rw [parse_eq_unexpected_iff] at h ⊢
    rw [List.foldlM_append, h]
    rfl
  · intro expected p h
    obtain ⟨r, hr, hf⟩ := exists_reading_of_parse_error h nofun
    have htracks := Reading.tracks_of_foldlM hr
    have hs := Reading.awaits?_of_finish hf
    simp only [parse_append_isOk_iff hr]
    constructor
    · rintro ⟨us, hus⟩ ⟨rfl, t, ht, hk⟩
      obtain ⟨names, hstage⟩ := Stage.awaits?_eq_functionAfterParameter_iff.mp hs
      have hmem : t ∈ names := (htracks.mem_parameters hstage t).mpr ht
      exact Reading.not_accepts_of_parameters (htracks.ending?_eq_none hs) hstage hmem hk hus
    · intro hn
      refine Reading.exists_accepts fun names hstage t ht => Decidable.byContradiction fun hk => hn ?_
      refine ⟨?_, t, (htracks.mem_parameters hstage t).mp ht, hk⟩
      rw [hstage] at hs
      exact (Option.some.inj hs).symm
  · intro p h
    obtain ⟨r, hr, hf⟩ := exists_reading_of_parse_error h nofun
    obtain ⟨hs, hp⟩ := Reading.bodies_of_finish hf
    rw [← (Reading.tracks_of_foldlM hr).bodies_eq]
    refine ⟨hp, fun us hu hl => ?_⟩
    exact (parse_append_isOk_iff hr).mpr (Reading.accepts_endFunctions hs hu hl)

theorem parse_error_extension_nested :
    (∀ us, parse ({ kind := .separator } :: us) =
      .error (.unexpected { kind := .separator } .value)) ∧
    (∀ us b, parse ({ kind := .number } :: { kind := .parameter } :: us) ≠ .ok b) ∧
    (∃ us b, parse ({ kind := .identifier } :: { kind := .parameter } :: us) = .ok b) ∧
    parse [{ kind := .identifier }, { kind := .parameter }, ⟨.function, "", ⟨1, 3⟩⟩,
      { kind := .identifier }, { kind := .parameter }, ⟨.function, "", ⟨2, 3⟩⟩] =
        .error (.unclosedBody ⟨2, 3⟩) ∧
    ∃ b, parse [{ kind := .identifier }, { kind := .parameter }, ⟨.function, "", ⟨1, 3⟩⟩,
      { kind := .identifier }, { kind := .parameter }, ⟨.function, "", ⟨2, 3⟩⟩,
      { kind := .endFunction }, { kind := .endFunction }] = .ok b := by
  refine ⟨?_, ?_, ?_, by with_unfolding_all rfl, ?_⟩
  · exact (parse_error_extension [{ kind := .separator }]).1 _ _ (by with_unfolding_all rfl)
  · intro us b h
    have hno := (parse_error_extension [{ kind := .number }, { kind := .parameter }]).2.1
      .functionAfterParameter {} (by with_unfolding_all rfl)
    exact hno.mp ⟨us, b, h⟩ ⟨rfl, { kind := .number }, by decide, by decide⟩
  · have hyes := (parse_error_extension [{ kind := .identifier }, { kind := .parameter }]).2.1
      .functionAfterParameter {} (by with_unfolding_all rfl)
    exact hyes.mpr (by decide)
  · have hopen := (parse_error_extension [{ kind := .identifier }, { kind := .parameter },
      ⟨.function, "", ⟨1, 3⟩⟩, { kind := .identifier }, { kind := .parameter },
      ⟨.function, "", ⟨2, 3⟩⟩]).2.2 ⟨2, 3⟩ (by with_unfolding_all rfl)
    exact hopen.2 [{ kind := .endFunction }, { kind := .endFunction }] (by decide) (by decide)

end Holov
