import Holov.Proofs.Effects
import Holov.Proofs.Provenance

namespace Holov

def bytesOf (es : List Effect) : List UInt8 :=
  es.flatMap Effect.bytes

def eventsOf (es : List Effect) : List Event :=
  es.flatMap Effect.events

@[simp] theorem bytesOf_nil : bytesOf [] = [] := rfl

@[simp] theorem bytesOf_cons (e : Effect) (es : List Effect) :
    bytesOf (e :: es) = e.bytes ++ bytesOf es := rfl

@[simp] theorem bytesOf_append (es fs : List Effect) :
    bytesOf (es ++ fs) = bytesOf es ++ bytesOf fs := List.flatMap_append

@[simp] theorem eventsOf_nil : eventsOf [] = [] := rfl

@[simp] theorem eventsOf_cons (e : Effect) (es : List Effect) :
    eventsOf (e :: es) = e.events ++ eventsOf es := rfl

def Sink.Takes (s : Sink) (k : Nat) : Prop :=
  ∀ n ∈ s.limit, s.written.size + k ≤ n

theorem Sink.room_of_takes {s : Sink} {k : Nat} (h : s.Takes k) : s.room k = k := by
  unfold room
  split
  · rfl
  · rename_i n hl
    have := h n hl
    omega

def Machine.extend (m : Machine) (bytes : List UInt8) (events : List Event) : Machine :=
  ⟨{ m.sink with written := m.sink.written ++ bytes }, m.log ++ events⟩

namespace Machine

theorem extend_nil (m : Machine) : m.extend [] [] = m := by
  simp [extend]

theorem written_extend (m : Machine) (bytes : List UInt8) (events : List Event) :
    (m.extend bytes events).sink.written.toList = m.sink.written.toList ++ bytes := by
  simp [extend]

theorem log_extend (m : Machine) (bytes : List UInt8) (events : List Event) :
    (m.extend bytes events).log.toList = m.log.toList ++ events := by
  simp [extend]

theorem size_extend (m : Machine) (bytes : List UInt8) (events : List Event) :
    (m.extend bytes events).sink.written.size = m.sink.written.size + bytes.length := by
  rw [← Array.length_toList, written_extend, List.length_append, Array.length_toList]

theorem extend_extend (m : Machine) (bytes bytes' : List UInt8) (events events' : List Event) :
    (m.extend bytes events).extend bytes' events' =
      m.extend (bytes ++ bytes') (events ++ events') := by
  have happ : ∀ {α : Type} (xs : Array α) (as bs : List α), xs ++ as ++ bs = xs ++ (as ++ bs) := by
    intro α xs as bs
    apply Array.toList_inj.mp
    simp
  simp only [extend, happ]

theorem takes_extend {m : Machine} {bytes : List UInt8} {k : Nat} (events : List Event)
    (h : m.sink.Takes (bytes.length + k)) : (m.extend bytes events).sink.Takes k := by
  intro n hn
  have := h n hn
  rw [size_extend]
  omega

/-- An effect notes its events, and writes as much of its text as there is room for. -/
theorem act_eq (m : Machine) (e : Effect) :
    m.act e = (m.sink.room e.bytes.length == e.bytes.length,
      m.extend (e.bytes.take (m.sink.room e.bytes.length)) e.events) := by
  cases e with
  | noted event =>
    have hb : (Effect.noted event).bytes = [] := rfl
    have hr : m.sink.room 0 = 0 := by
      unfold Sink.room
      split <;> simp
    simp [act, hb, hr, note, extend, Effect.events]
  | listed text => simp [act, write, Sink.writeText, Sink.write, extend, Effect.bytes, Effect.text,
      Effect.events]
  | printed f p values => simp [act, write, note, Sink.writeText, Sink.write, extend, Effect.bytes,
      Effect.text, Effect.events, Sink.room]

theorem act_of_takes {m : Machine} {e : Effect} (h : m.sink.Takes e.bytes.length) :
    m.act e = (true, m.extend e.bytes e.events) := by
  rw [act_eq, Sink.room_of_takes h, List.take_length, beq_self_eq_true]

theorem act_of_limit {m : Machine} {e : Effect} {n : Nat} (hl : m.sink.limit = some n)
    (hs : m.sink.written.size ≤ n) (hn : n < m.sink.written.size + e.bytes.length) :
    m.act e = (false, m.extend (e.bytes.take (n - m.sink.written.size)) e.events) := by
  have hr : m.sink.room e.bytes.length = n - m.sink.written.size := by
    unfold Sink.room
    rw [hl]
    dsimp only
    omega
  have hne : (m.sink.room e.bytes.length == e.bytes.length) = false := by
    rw [hr, beq_eq_false_iff_ne]
    omega
  rw [act_eq, hne, hr]

/-- Effects that fit are all performed. -/
theorem perform_of_takes (o : Outcome Failure) {es : List Effect} {m : Machine}
    (h : m.sink.Takes (bytesOf es).length) :
    m.perform o es = (o, m.extend (bytesOf es) (eventsOf es)) := by
  induction es generalizing m with
  | nil => rw [perform, bytesOf_nil, eventsOf_nil, extend_nil]
  | cons e es ih =>
    rw [bytesOf_cons, List.length_append] at h
    have he : m.sink.Takes e.bytes.length := fun n hn => by have := h n hn; omega
    rw [perform, act_of_takes he]
    change perform o es _ = _
    rw [ih (takes_extend _ h), extend_extend, bytesOf_cons, eventsOf_cons]

/-- Where the effects do not fit, the one that writes byte `n` ends the run, and those behind it
are not performed. -/
theorem perform_of_limit (o : Outcome Failure) {es : List Effect} {m : Machine} {n : Nat}
    (hl : m.sink.limit = some n) (hs : m.sink.written.size ≤ n)
    (hn : n < m.sink.written.size + (bytesOf es).length) :
    ∃ before e after, es = before ++ e :: after ∧
      m.sink.written.size + (bytesOf before).length ≤ n ∧
      n < m.sink.written.size + (bytesOf before).length + e.bytes.length ∧
      m.perform o es = (.failed (e.refused m.sink.refusal),
        m.extend ((bytesOf es).take (n - m.sink.written.size)) (eventsOf (before ++ [e]))) := by
  -- The machine moves on with each effect that fits, so the induction is over all machines.
  induction es generalizing m with
  | nil =>
    simp only [bytesOf_nil, List.length_nil] at hn
    omega
  | cons e es ih =>
    simp only [bytesOf_cons, List.length_append] at hn
    by_cases hfit : m.sink.written.size + e.bytes.length ≤ n
    · have he : m.sink.Takes e.bytes.length := by
        intro k hk
        obtain rfl : n = k := by simpa [hl] using hk
        exact hfit
      have hsize := size_extend m e.bytes e.events
      obtain ⟨before, d, after, rfl, h₁, h₂, hp⟩ := ih (m := m.extend e.bytes e.events) hl
        (by rw [hsize]; exact hfit) (by rw [hsize]; omega)
      rw [hsize] at h₁ h₂ hp
      refine ⟨e :: before, d, after, rfl, ?_, ?_, ?_⟩
      · simp only [bytesOf_cons, List.length_append]
        omega
      · simp only [bytesOf_cons, List.length_append]
        omega
      · have htake : (e.bytes ++ bytesOf (before ++ d :: after)).take (n - m.sink.written.size) =
            e.bytes ++ (bytesOf (before ++ d :: after)).take
              (n - (m.sink.written.size + e.bytes.length)) := by
          rw [List.take_append, List.take_of_length_le (by omega)]
          congr 2
          omega
        rw [perform, act_of_takes he]
        change perform o _ _ = _
        rw [hp, extend_extend, bytesOf_cons, htake, List.cons_append, eventsOf_cons]
        rfl
    -- This effect is the one that writes byte `n`.
    · refine ⟨[], e, es, rfl, by simpa using hs, by simpa using hfit, ?_⟩
      have htake : (bytesOf (e :: es)).take (n - m.sink.written.size) =
          e.bytes.take (n - m.sink.written.size) := by
        rw [bytesOf_cons, List.take_append_of_le_length (by omega)]
      rw [perform, act_of_limit hl hs (by omega), htake, List.nil_append, eventsOf_cons,
        eventsOf_nil, List.append_nil]
      rfl

end Machine

def listings (listing : Bool) (source : String) : String :=
  match listing, tokenize source with
  | true, .ok ts =>
    listTokens ts ++
      match parse ts with
      | .ok program => listProgram program
      | .error _ => ""
  | _, _ => ""

theorem bytesOf_preliminaries (listing : Bool) (source : String) :
    bytesOf (preliminaries listing source) = (listings listing source).toUTF8.data.toList := by
  unfold preliminaries listings
  cases tokenize source with
  | error e => cases listing <;> rfl
  | ok ts =>
    cases listing with
    | false => cases hp : parse ts <;> simp [hp, listedIf, Effect.bytes, Effect.text]
    | true => cases hp : parse ts <;> simp [hp, listedIf, Effect.bytes, Effect.text]

theorem printed_not_mem_preliminaries (listing : Bool) (source : String) (f : Builtin)
    (p : Position) (values : List Value) : .printed f p values ∉ preliminaries listing source := by
  unfold preliminaries
  cases tokenize source with
  | error e => simp
  | ok ts =>
    dsimp only
    cases parse ts with
    | error e => cases listing <;> simp [listedIf]
    | ok program => cases listing <;> simp [listedIf]

/-- Of the effects, `e` is the one that writes byte `n`, and those of `before` come before it. -/
structure WritesByte (effects : List Effect) (n : Nat) (before : List Effect) (e : Effect) :
    Prop where
  split : ∃ after, effects = before ++ e :: after
  start : (bytesOf before).length ≤ n
  stop : n < (bytesOf before).length + e.bytes.length

section WritesByte

variable {effects front es before : List Effect} {e : Effect} {n : Nat}

theorem WritesByte.mem_front (h : WritesByte (front ++ es) n before e)
    (hn : n < (bytesOf front).length) : e ∈ front := by
  obtain ⟨after, hsplit⟩ := h.split
  rcases List.append_eq_append_iff.mp hsplit with ⟨gap, rfl, -⟩ | ⟨gap, rfl, hgap⟩
  · have := h.start
    rw [bytesOf_append, List.length_append] at this
    omega
  · cases gap with
    | nil =>
      have := h.start
      rw [List.append_nil] at hn
      omega
    | cons d gap =>
      cases hgap
      simp

theorem WritesByte.mem_rest (h : WritesByte (front ++ es) n before e)
    (hn : (bytesOf front).length ≤ n) : e ∈ es := by
  obtain ⟨after, hsplit⟩ := h.split
  rcases List.append_eq_append_iff.mp hsplit with ⟨gap, rfl, rfl⟩ | ⟨gap, rfl, hgap⟩
  · simp
  · cases gap with
    | nil =>
      rw [List.nil_append] at hgap
      simp [← hgap]
    | cons d gap =>
      cases hgap
      have := h.stop
      simp only [bytesOf_append, bytesOf_cons, List.length_append] at hn
      omega

/-- A byte of the program's own output is written by a call. -/
theorem WritesByte.printed (h : WritesByte effects n before e) (hu : Unlisted es) (hm : e ∈ es) :
    ∃ f p values, e = .printed f p values := by
  cases e with
  | noted event =>
    have h₁ := h.start
    have h₂ := h.stop
    have hb : (Effect.noted event).bytes.length = 0 := rfl
    omega
  | listed text => exact absurd hm (hu text)
  | printed f p values => exact ⟨f, p, values, rfl⟩

end WritesByte

def Machine.bounded (n : Nat) (refusal : String) : Machine :=
  { sink := { limit := some n, refusal } }

theorem Machine.perform_new (o : Outcome Failure) (es : List Effect) :
    ({} : Machine).perform o es = (o, ({} : Machine).extend (bytesOf es) (eventsOf es)) :=
  perform_of_takes o fun n hn => by cases hn

theorem Machine.perform_bounded_of_le (o : Outcome Failure) {es : List Effect} {n : Nat}
    (refusal : String) (hn : (bytesOf es).length ≤ n) :
    (bounded n refusal).perform o es =
      (o, (bounded n refusal).extend (bytesOf es) (eventsOf es)) := by
  apply perform_of_takes
  intro k hk
  obtain rfl : n = k := by simpa [bounded] using hk
  simpa [bounded] using hn

theorem Machine.perform_bounded_of_lt (o : Outcome Failure) {es : List Effect} {n : Nat}
    (refusal : String) (hn : n < (bytesOf es).length) :
    ∃ before e, WritesByte es n before e ∧
      (bounded n refusal).perform o es = (.failed (e.refused refusal),
        (bounded n refusal).extend ((bytesOf es).take n) (eventsOf (before ++ [e]))) := by
  have hz : (bounded n refusal).sink.written.size = 0 := rfl
  have hlt : n < (bounded n refusal).sink.written.size + (bytesOf es).length := by omega
  obtain ⟨before, e, after, hs, h₁, h₂, hp⟩ := perform_of_limit o rfl (by omega) hlt
  rw [hz, Nat.zero_add] at h₁ h₂
  exact ⟨before, e, ⟨⟨after, hs⟩, h₁, h₂⟩, hp⟩

theorem runsTo_perform {listing : Bool} {depth : Nat} {source : String} {o : Outcome Failure}
    {es : List Effect} (ho : o ≠ .tooDeep)
    (h : ∀ m, run listing depth source m = m.perform o es) (m : Machine) :
    RunsTo listing source m (m.perform o es) := by
  refine ⟨fun ht => ?_, depth, h m⟩
  rcases Machine.perform_fst o es m with hf | ⟨f, hf⟩
  · rw [hf] at ht
    exact ho ht
  · rw [hf] at ht
    cases ht

theorem refused_of_mem_preliminaries {listing : Bool} {source : String} {e : Effect}
    (h : e ∈ preliminaries listing source) (details : String) :
    e.refused details = .output details := by
  cases e with
  | noted event => rfl
  | listed text => rfl
  | printed f p values => exact absurd h (printed_not_mem_preliminaries listing source f p values)

/-- The output of a call is refused at a token that names the callee. -/
theorem namesCallee_of_refused {listing : Bool} {depth : Nat} {source : String} {m m' : Machine}
    {details : String} {p : Position}
    (h : run listing depth source m = (.failed (.runtime (.output details p)), m'))
    (f : Builtin) : ∃ ts, tokenize source = .ok ts ∧ NamesCallee ts f.name p := by
  obtain ⟨e, -, hf⟩ | ⟨d, hf⟩ | ⟨ts, ht, ⟨e, -, hf⟩ | ⟨program, m₁, e, hp, hx, hf⟩⟩ := run_failed h
  · cases hf
  · cases hf
  · cases hf
  · cases hf
    obtain ⟨g, hg, -⟩ := execute_tracesTo ht hp hx
    cases f
    cases g
    exact ⟨ts, ht, hg⟩

theorem length_bytesOf_preliminaries (listing : Bool) (source : String) :
    (bytesOf (preliminaries listing source)).length = (listings listing source).toUTF8.size := by
  rw [bytesOf_preliminaries]
  rfl

/-- A run whose output does not fit ends where byte `n` is written: in the listings, or in a call
of the program. -/
theorem runsTo_bounded_of_lt {listing : Bool} {source : String} {o : Outcome Failure}
    {es : List Effect} (hu : Unlisted es)
    (hall : ∀ m : Machine, RunsTo listing source m
      (m.perform o (preliminaries listing source ++ es)))
    {n : Nat} (hn : n < (bytesOf (preliminaries listing source ++ es)).length)
    (refusal : String) :
    ∃ before e o', WritesByte (preliminaries listing source ++ es) n before e ∧
      RunsTo listing source (.bounded n refusal) (o', (Machine.bounded n refusal).extend
        ((bytesOf (preliminaries listing source ++ es)).take n) (eventsOf (before ++ [e]))) ∧
      (n < (listings listing source).toUTF8.size → o' = .failed (.output refusal)) ∧
      ((listings listing source).toUTF8.size ≤ n → ∃ f p values, e = .printed f p values ∧
        o' = .failed (.runtime (.output refusal p)) ∧
        ∃ ts, tokenize source = .ok ts ∧ NamesCallee ts f.name p) := by
  obtain ⟨before, e, hw, hp⟩ := Machine.perform_bounded_of_lt o refusal hn
  have hb := hall (.bounded n refusal)
  have hlisted := length_bytesOf_preliminaries listing source
  rw [hp] at hb
  refine ⟨before, e, _, hw, hb, ?_, ?_⟩
  · intro hl
    rw [refused_of_mem_preliminaries (hw.mem_front (hlisted ▸ hl))]
  · intro hl
    obtain ⟨f, p, values, rfl⟩ := hw.printed hu (hw.mem_rest (hlisted ▸ hl))
    obtain ⟨-, depth, hd⟩ := hb
    exact ⟨f, p, values, rfl, rfl, namesCallee_of_refused hd f⟩

/-- A run on a sink for `n` bytes writes the first `n` bytes of what the run without a limit
writes: the listings, and then the output of the run without listings. If that is all, it ends
alike. Otherwise it ends with the effect that writes byte `n`: in the listings, or with the call
whose output that byte is, and nothing behind that effect is done. -/
theorem run_bounded_sink {listing : Bool} {source : String} {o : Outcome Failure} {m : Machine}
    (h : RunsTo listing source {} (o, m)) :
    (∃ m₀, RunsTo false source {} (o, m₀) ∧
      m.sink.written.toList =
        (listings listing source).toUTF8.data.toList ++ m₀.sink.written.toList) ∧
    (∀ e, tokenize source = .error e → m.sink.written = #[]) ∧
    ∃ effects : List Effect,
      (∀ m₁ : Machine, RunsTo listing source m₁ (m₁.perform o effects)) ∧
      ∀ n refusal, ∃ o' m', RunsTo listing source (.bounded n refusal) (o', m') ∧
        m'.sink.written.toList = m.sink.written.toList.take n ∧
        (m.sink.written.size ≤ n → o' = o ∧ m'.log = m.log) ∧
        (n < m.sink.written.size → ∃ before e, WritesByte effects n before e ∧
          m'.log.toList = eventsOf (before ++ [e]) ∧
          (n < (listings listing source).toUTF8.size → o' = .failed (.output refusal)) ∧
          ((listings listing source).toUTF8.size ≤ n → ∃ f p values, e = .printed f p values ∧
            o' = .failed (.runtime (.output refusal p)) ∧
            ∃ ts, tokenize source = .ok ts ∧ NamesCallee ts f.name p)) := by
  obtain ⟨ho, depth, hr⟩ := h
  obtain ⟨es, o₁, hu, hrun⟩ := run_performs depth source
  rw [hrun, Machine.perform_new, Prod.mk.injEq] at hr
  obtain ⟨rfl, rfl⟩ := hr
  have hall := runsTo_perform ho fun m => hrun listing m
  refine ⟨?_, ?_, preliminaries listing source ++ es, hall, fun n refusal => ?_⟩
  · have hoff := runsTo_perform ho (fun m => hrun false m) {}
    rw [Machine.perform_new] at hoff
    refine ⟨_, hoff, ?_⟩
    have hnone : bytesOf (preliminaries false source) = [] := bytesOf_preliminaries false source
    simp [Machine.written_extend, bytesOf_preliminaries, hnone]
  · intro e he
    have hx := hrun listing {}
    rw [Machine.perform_new] at hx
    simp only [run, he] at hx
    exact (congrArg (fun x => x.2.sink.written) hx).symm
  · have hsize := Machine.size_extend {} (bytesOf (preliminaries listing source ++ es))
      (eventsOf (preliminaries listing source ++ es))
    rw [show ({} : Machine).sink.written.size = 0 from rfl, Nat.zero_add] at hsize
    by_cases hn : (bytesOf (preliminaries listing source ++ es)).length ≤ n
    · have hb := hall (.bounded n refusal)
      rw [Machine.perform_bounded_of_le o₁ refusal hn] at hb
      refine ⟨o₁, _, hb, ?_, fun _ => ⟨rfl, rfl⟩, fun h => by omega⟩
      rw [Machine.written_extend, Machine.written_extend]
      exact (List.take_of_length_le hn).symm
    · obtain ⟨before, e, o', hw, hb, hcut⟩ :=
        runsTo_bounded_of_lt hu hall (Nat.lt_of_not_le hn) refusal
      refine ⟨o', _, hb, ?_, fun h => by omega, fun _ => ⟨before, e, hw, ?_, hcut⟩⟩
      · simp [Machine.written_extend, Machine.bounded]
      · simp [Machine.log_extend, Machine.bounded]

/-- A line that is cut in front of its end. -/
theorem run_bounded_sink_cut :
    ∃ m', RunsTo false "5ն տպիր" (.bounded 1 "full")
        (.failed (.runtime (.output "full" ⟨1, 4⟩)), m') ∧ m'.sink.written.toList = [53] := by
  have ht : tokenize "5ն տպիր" = .ok [⟨.number, "5", ⟨1, 1⟩⟩, ⟨.caseEnding, "", ⟨1, 2⟩⟩,
      ⟨.identifier, "տպիր", ⟨1, 4⟩⟩] := by
    with_unfolding_all rfl
  have ho : (run false 0 "5ն տպիր" {}).1 = .completed := by decide +kernel
  have hs : (run false 0 "5ն տպիր" {}).2.sink.written = #[53, 10] := by decide +kernel
  have hl : (listings false "5ն տպիր").toUTF8.size = 0 := rfl
  rcases hx : run false 0 "5ն տպիր" {} with ⟨o, m⟩
  rw [hx] at ho hs
  obtain rfl : o = .completed := ho
  replace hs : m.sink.written = #[53, 10] := hs
  have hfull : RunsTo false "5ն տպիր" {} (.completed, m) := ⟨nofun, 0, hx⟩
  obtain ⟨-, -, effects, -, hn⟩ := run_bounded_sink hfull
  obtain ⟨o', m', hr, hw, -, hc⟩ := hn 1 "full"
  obtain ⟨before, e, -, -, -, hp⟩ := hc (by rw [hs]; decide)
  obtain ⟨f, p, values, -, rfl, ts, hts, t, hm, -, htext, rfl⟩ := hp (by omega)
  cases f
  cases ht.symm.trans hts
  have hpos : t.position = ⟨1, 4⟩ := by
    simp only [List.mem_cons, List.not_mem_nil, or_false] at hm
    rcases hm with rfl | rfl | rfl
    · exact absurd htext (by decide)
    · exact absurd htext (by decide)
    · rfl
  rw [hpos] at hr
  exact ⟨m', hr, by rw [hw, hs]; rfl⟩

end Holov
