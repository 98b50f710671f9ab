import EsmLift.Trace
import EsmLift.Proofs.Loads

/-!
# `Proofs.Nesting` — phases are brackets

An exported trace is a list of plain events. Read from left to right, the start of a phase is an opening bracket and
its end a closing one. What is open at a point of the list is said here without a stack: a stretch of events is
**balanced** if its brackets pair up, and a start is still open if only balanced stretches and further open starts
follow it. A trace keeps a stack of numbers instead; the two readings agree after every call.

## Contents

* `Trace.Balanced`, `Trace.StillOpen`: the brackets of a list of events;
* `Trace.StillOpen.unique`, `Trace.StillOpen.count`: there is one reading, and it never closes too much;
* `Trace.perform_cases`: what one call does;
* `Trace.Nested`, `Trace.Nested.perform`, `Trace.nested_ofCalls`: a step and a run;
* `Trace.ofCalls_brackets`.
-/

namespace EsmLift
namespace Trace

open Value

/-! ## Brackets -/

/-- Whether an exported event is the start of a phase. -/
def opens (v : Value) : Bool := (v.at "type").isText "phase_start"

/-- Whether an exported event is the end of a phase. -/
def closes (v : Value) : Bool := (v.at "type").isText "phase_end"

/-- No event is both a start and an end. -/
theorem closes_of_opens {v : Value} (h : opens v = true) : closes v = false := by
  unfold opens at h
  unfold closes
  generalize v.at "type" = w at h ⊢
  cases w with
  | text s =>
    have hs : s = "phase_start" := by simpa [isText] using h
    rw [hs]
    decide
  | _ => rfl

theorem opens_of_closes {v : Value} (h : closes v = true) : opens v = false := by
  cases ho : opens v with
  | false => rfl
  | true => rw [closes_of_opens ho] at h; cases h

/-- A stretch of events in which every start has its end. -/
inductive Balanced : List Value → Prop where
  | nil : Balanced []
  | plain {v : Value} {rest : List Value} (hv : opens v = false ∧ closes v = false) (hrest : Balanced rest) :
      Balanced (v :: rest)
  | phase {s e : Value} {inner rest : List Value} (hs : opens s = true) (hinner : Balanced inner)
      (he : closes e = true) (hrest : Balanced rest) : Balanced (s :: (inner ++ e :: rest))

/-- After the events `vs` the starts `ss` wait for their ends, innermost first. -/
inductive StillOpen : List Value → List Value → Prop where
  | none {vs : List Value} (h : Balanced vs) : StillOpen vs []
  | some {vs ss inner : List Value} {s : Value} (h : StillOpen vs ss) (hs : opens s = true) (hinner : Balanced inner) :
      StillOpen (vs ++ s :: inner) (s :: ss)

theorem Balanced.append {a b : List Value} (ha : Balanced a) (hb : Balanced b) : Balanced (a ++ b) := by
  induction ha with
  | nil => exact hb
  | plain hv _ ih => exact .plain hv ih
  | phase hs hinner he _ _ ih =>
    rw [List.cons_append, List.append_assoc, List.cons_append]
    exact .phase hs hinner he ih

theorem Balanced.count {vs : List Value} (h : Balanced vs) : vs.countP closes = vs.countP opens := by
  induction h with
  | nil => rfl
  | plain hv _ ih => simpa [List.countP_cons, hv.1, hv.2] using ih
  | @phase s e inner rest hs _ he _ ihinner ihrest =>
    have hs' : closes s = false := closes_of_opens hs
    have he' : opens e = false := opens_of_closes he
    simp only [List.countP_cons, List.countP_append, hs, hs', he, he', ihinner, ihrest]
    simp
    omega

namespace StillOpen

variable {vs ss : List Value}

/-- A balanced stretch leaves open what was open. -/
theorem append {b : List Value} (h : StillOpen vs ss) (hb : Balanced b) : StillOpen (vs ++ b) ss := by
  cases h with
  | none h => exact .none (h.append hb)
  | some h hs hinner =>
    rw [List.append_assoc, List.cons_append]
    exact .some h hs (hinner.append hb)

/-- Where nothing is open all is paired up. -/
theorem balanced (h : StillOpen vs []) : Balanced vs := by
  cases h with
  | none h => exact h

theorem plain {v : Value} (h : StillOpen vs ss) (hv : opens v = false ∧ closes v = false) :
    StillOpen (vs ++ [v]) ss :=
  h.append (.plain hv .nil)

/-- A start waits for its end. -/
theorem start {s : Value} (h : StillOpen vs ss) (hs : opens s = true) : StillOpen (vs ++ [s]) (s :: ss) :=
  .some h hs .nil

/-- An end closes the innermost phase. -/
theorem stop {s e : Value} (h : StillOpen vs (s :: ss)) (he : closes e = true) : StillOpen (vs ++ [e]) ss := by
  cases h with
  | some h hs hinner =>
    rw [List.append_assoc, List.cons_append]
    exact h.append (.phase hs hinner he .nil)

/-- **What is open is what was opened and not closed**, so no more is closed than was opened. -/
theorem count (h : StillOpen vs ss) : vs.countP closes + ss.length = vs.countP opens := by
  induction h with
  | none h => exact h.count
  | some _ hs hinner ih =>
    rw [List.countP_append, List.countP_append, List.countP_cons, List.countP_cons, hinner.count, closes_of_opens hs,
      hs, List.length_cons]
    simp
    omega

end StillOpen

/-! ### The brackets can be read in one way only

`pop` reads the events one at a time, with the starts that wait on top of `ss`. -/

/-- The open starts after one event; none if it is an end and nothing is open. -/
def popOne (v : Value) (ss : List Value) : Option (List Value) :=
  if opens v then some (v :: ss) else if closes v then ss.tail? else some ss

/-- The open starts after the events. -/
def pop : List Value → List Value → Option (List Value)
  | [], ss => some ss
  | v :: rest, ss => (popOne v ss).bind (pop rest)

theorem pop_opens {s : Value} (hs : opens s = true) (rest ss : List Value) : pop (s :: rest) ss = pop rest (s :: ss) := by
  rw [pop, popOne, if_pos hs]
  rfl

theorem pop_closes {e : Value} (he : closes e = true) (rest ss : List Value) (s : Value) :
    pop (e :: rest) (s :: ss) = pop rest ss := by
  rw [pop, popOne, opens_of_closes he, he]
  rfl

theorem pop_balanced {b : List Value} (h : Balanced b) (rest ss : List Value) : pop (b ++ rest) ss = pop rest ss := by
  induction h generalizing rest ss with
  | nil => rfl
  | plain hv _ ih =>
    rw [List.cons_append, pop, popOne, hv.1, hv.2]
    exact ih rest ss
  | phase hs _ he _ ihinner ihrest =>
    rw [List.cons_append, List.append_assoc, List.cons_append, pop_opens hs, ihinner, pop_closes he]
    exact ihrest rest ss

theorem StillOpen.pop_eq {vs ss : List Value} (h : StillOpen vs ss) (rest : List Value) :
    pop (vs ++ rest) [] = pop rest ss := by
  induction h generalizing rest with
  | none h => exact pop_balanced h rest []
  | some _ hs hinner ih => rw [List.append_assoc, List.cons_append, ih, pop_opens hs, pop_balanced hinner]

/-- **There is one reading.** -/
theorem StillOpen.unique {vs ss ss' : List Value} (h : StillOpen vs ss) (h' : StillOpen vs ss') : ss' = ss := by
  have hpop := (h'.pop_eq []).symm.trans (h.pop_eq [])
  exact Option.some.inj hpop

/-! ## One call -/

/-- The kind of event that a call is noted as. -/
def Call.kind : Call → Kind
  | .openPhase .. => .phaseStart
  | .closePhase => .phaseEnd
  | .mutation .. => .mutation
  | .warning .. => .warning
  | .inspection .. => .inspection

/-- The stack after an event. -/
def stackAfter (opened : List Nat) (e : Event) : List Nat :=
  match e.kind with
  | .phaseStart => e.id :: opened
  | .phaseEnd => opened.tail
  | _ => opened

/-- An event that a call adds: of its kind, with a number of its own, inside the innermost open phase. -/
structure Noted (t t' : Trace) (call : Call) (e : Event) : Prop where
  events : t'.events = t.events ++ [e]
  id : e.id = t.nextId
  kind : e.kind = call.kind
  parent : e.parent = t.opened.head?
  opened : t'.opened = stackAfter t.opened e
  closing : call = .closePhase → t.opened ≠ []

/-- **What one call does**: it adds one event, or it would close a phase and there is none. -/
theorem perform_cases (t : Trace) (call : Call) :
    (call = .closePhase ∧ t.opened = [] ∧ t.perform call = t) ∨ ∃ e, Noted t (t.perform call) call e := by
  cases call with
  | closePhase =>
    rw [perform, closePhase]
    cases hopened : t.opened with
    | nil => exact .inl ⟨rfl, rfl, rfl⟩
    | cons id rest => exact .inr ⟨_, rfl, rfl, rfl, rfl, by rw [hopened]; rfl, fun _ h => by rw [hopened] at h; cases h⟩
  | openPhase name detail => exact .inr ⟨_, rfl, rfl, rfl, rfl, rfl, nofun⟩
  | mutation type before after => exact .inr ⟨_, rfl, rfl, rfl, rfl, rfl, nofun⟩
  | warning message => exact .inr ⟨_, rfl, rfl, rfl, rfl, rfl, nofun⟩
  | inspection node outcome detail => exact .inr ⟨_, rfl, rfl, rfl, rfl, rfl, nofun⟩

/-! ## Nested traces -/

/-- The name of the innermost open phase, null if none is open. -/
def innermost : List Value → Value
  | [] => .null
  | s :: _ => s.at "id"

/-- The phases that a trace holds open are the starts `ss` that wait for their ends, and every event names the phase
that was innermost before it. -/
structure Nested (t : Trace) (ss : List Value) : Prop where
  stillOpen : StillOpen t.values ss
  opened : ss.map (·.at "id") = t.opened.map fun id => .text (idText id)
  parents : ∀ before e after, t.values = before ++ e :: after →
    ∃ ss, StillOpen before ss ∧ e.at "parent_id" = innermost ss ∧ (closes e = true → ss ≠ [])
  ids : t.events.map (·.id) = List.range t.events.length

/-- The phase of an event, as plain data. -/
theorem Event.at_parent_id (e : Event) {ss : List Value} {ids : List Nat} (hparent : e.parent = ids.head?)
    (hss : ss.map (·.at "id") = ids.map fun id => .text (idText id)) : e.value.at "parent_id" = innermost ss := by
  obtain ⟨id, kind, description, parent, details⟩ := e
  cases ids with
  | nil =>
    cases hparent
    rw [List.map_eq_nil_iff.mp hss]
    rfl
  | cons i ids =>
    cases hparent
    cases ss with
    | nil => cases hss
    | cons s ss => exact (List.cons.inj hss).1.symm

theorem Event.opens_value (e : Event) : opens e.value = decide (e.kind = .phaseStart) := by
  obtain ⟨id, kind, description, parent, details⟩ := e
  cases kind <;> rfl

theorem Event.closes_value (e : Event) : closes e.value = decide (e.kind = .phaseEnd) := by
  obtain ⟨id, kind, description, parent, details⟩ := e
  cases kind <;> rfl

/-- An event more, seen from a place in the list. -/
theorem concat_eq_append {vs before after : List Value} {v e : Value} (h : vs ++ [v] = before ++ e :: after) :
    (vs = before ∧ v = e) ∨ ∃ rest, vs = before ++ e :: rest := by
  rcases List.eq_nil_or_concat after with rfl | ⟨rest, w, rfl⟩
  · obtain ⟨hvs, hv⟩ := List.append_inj' h rfl
    exact .inl ⟨hvs, (List.cons.inj hv).1⟩
  · rw [List.concat_eq_append, ← List.cons_append, ← List.append_assoc] at h
    exact .inr ⟨rest, (List.append_inj' h rfl).1⟩

namespace Nested

variable {t t' : Trace} {ss : List Value} {call : Call} {e : Event}

theorem empty : Nested Trace.empty [] :=
  ⟨.none .nil, rfl, fun before e after h => absurd h (by simp [Trace.values, Trace.empty]), rfl⟩

/-- The starts that wait after one more event. -/
theorem exists_stillOpen (h : Nested t ss) (hnoted : Noted t t' call e) :
    ∃ ss', StillOpen (t.values ++ [e.value]) ss' ∧
      ss'.map (·.at "id") = (stackAfter t.opened e).map fun id => .text (idText id) := by
  have hopens := e.opens_value
  have hcloses := e.closes_value
  unfold stackAfter
  cases hkind : e.kind with
  | phaseStart =>
    rw [hkind] at hopens
    exact ⟨_, h.stillOpen.start hopens, congrArg (_ :: ·) h.opened⟩
  | phaseEnd =>
    rw [hkind] at hcloses
    have hclosing : t.opened ≠ [] := by
      apply hnoted.closing
      have hcall := hnoted.kind
      rw [hkind] at hcall
      cases call with
      | closePhase => rfl
      | _ => cases hcall
    -- what the trace holds open stands in the list
    cases ss with
    | nil => exact absurd (List.map_eq_nil_iff.mp h.opened.symm) hclosing
    | cons s ss =>
      refine ⟨ss, h.stillOpen.stop hcloses, ?_⟩
      have htail := congrArg List.tail h.opened
      rwa [← List.map_tail, ← List.map_tail] at htail
  | _ =>
    rw [hkind] at hopens hcloses
    exact ⟨ss, h.stillOpen.plain ⟨hopens, hcloses⟩, h.opened⟩

/-- One more event names the phase that is innermost before it. -/
theorem noted_parent (h : Nested t ss) (hnoted : Noted t t' call e) :
    e.value.at "parent_id" = innermost ss ∧ (closes e.value = true → ss ≠ []) := by
  refine ⟨e.at_parent_id hnoted.parent h.opened, fun hcloses hss => ?_⟩
  rw [e.closes_value, hnoted.kind] at hcloses
  have hcall : call = .closePhase := by
    cases call with
    | closePhase => rfl
    | _ => cases hcloses
  apply hnoted.closing hcall
  rw [← List.map_eq_nil_iff, ← h.opened, hss, List.map_nil]

/-- **One call keeps a trace nested.** -/
theorem perform (h : Nested t ss) (call : Call) : ∃ ss', Nested (t.perform call) ss' := by
  rcases perform_cases t call with ⟨_, _, hsame⟩ | ⟨e, hnoted⟩
  · rw [hsame]
    exact ⟨ss, h⟩
  · have hvalues : (t.perform call).values = t.values ++ [e.value] := by
      rw [values, hnoted.events, List.map_append]
      rfl
    obtain ⟨ss', hopen, hids⟩ := h.exists_stillOpen hnoted
    refine ⟨ss', ?_, ?_, ?_, ?_⟩
    · rwa [hvalues]
    · rwa [hnoted.opened]
    · intro before v after hsplit
      rw [hvalues] at hsplit
      rcases concat_eq_append hsplit with ⟨rfl, rfl⟩ | ⟨rest, hrest⟩
      · exact ⟨ss, h.stillOpen, h.noted_parent hnoted⟩
      · exact h.parents before v rest hrest
    · rw [hnoted.events, List.map_append, List.length_append, h.ids, List.length_singleton, List.range_succ,
        List.map_singleton, hnoted.id]
      rfl

/-- Every prefix of the events has its open starts. -/
theorem exists_of_split (h : Nested t ss) {before after : List Value} (hsplit : t.values = before ++ after) :
    ∃ ss', StillOpen before ss' := by
  cases after with
  | nil =>
    rw [List.append_nil] at hsplit
    exact ⟨ss, hsplit ▸ h.stillOpen⟩
  | cons e after =>
    obtain ⟨ss', hopen, _⟩ := h.parents before e after hsplit
    exact ⟨ss', hopen⟩

/-- Names are used once. -/
theorem nodup (h : Nested t ss) : (t.values.map (·.at "id")).Nodup := by
  have hnames : t.values.map (·.at "id") = (t.events.map (·.id)).map fun id => .text (idText id) := by
    rw [values, List.map_map, List.map_map]
    rfl
  rw [hnames, h.ids]
  refine List.Pairwise.map _ (fun i j hne hij => hne ?_) List.nodup_range
  have htext := congrArg String.toList (Value.text.inj hij)
  rw [idText, idText, String.toList_append, String.toList_append] at htext
  -- a number is read back from its digits
  have hread := congrArg (fun digits => Nat.ofDigitChars 10 digits 0) (List.append_cancel_left htext)
  simpa [Nat.toString_eq_ofList_toDigits] using hread

end Nested

/-- A run of calls keeps a trace nested. -/
theorem Nested.run {t : Trace} {ss : List Value} (h : Nested t ss) (calls : List Call) :
    ∃ ss', Nested (calls.foldl Trace.perform t) ss' := by
  induction calls generalizing t ss with
  | nil => exact ⟨ss, h⟩
  | cons call calls ih =>
    obtain ⟨ss', h'⟩ := h.perform call
    exact ih h'

/-- **Every run of calls leaves a nested trace.** -/
theorem nested_ofCalls (calls : List Call) : ∃ ss, Nested (ofCalls calls) ss := Nested.empty.run calls

/-! ## The brackets of a run -/

/-- The brackets of exported events: no prefix closes more phases than it opened, every end names the start that it
matches, and every other event the innermost start that is open before it. -/
structure Bracketed (vs : List Value) : Prop where
  count : ∀ before after, vs = before ++ after → before.countP closes ≤ before.countP opens
  reading : ∀ before after, vs = before ++ after →
    ∃ ss, StillOpen before ss ∧ ∀ ss', StillOpen before ss' → ss' = ss
  matched : ∀ before e after, vs = before ++ e :: after → closes e = true →
    ∃ outer s inner, before = outer ++ s :: inner ∧ opens s = true ∧ Balanced inner
  ends : ∀ outer s inner e after, vs = (outer ++ s :: inner) ++ e :: after → opens s = true → Balanced inner →
    closes e = true → e.at "parent_id" = s.at "id"
  others : ∀ before e after ss, vs = before ++ e :: after → closes e = false → StillOpen before ss →
    e.at "parent_id" = innermost ss

theorem Nested.bracketed {t : Trace} {ss : List Value} (h : Nested t ss) : Bracketed t.values where
  count before after hsplit := by
    obtain ⟨ss', hopen⟩ := h.exists_of_split hsplit
    have hcount := hopen.count
    omega
  reading before after hsplit := by
    obtain ⟨ss', hopen⟩ := h.exists_of_split hsplit
    exact ⟨ss', hopen, fun _ hopen' => hopen.unique hopen'⟩
  matched before e after hsplit hcloses := by
    obtain ⟨ss', hopen, _, hne⟩ := h.parents before e after hsplit
    cases hopen with
    | none => exact absurd rfl (hne hcloses)
    | some _ hs hinner => exact ⟨_, _, _, rfl, hs, hinner⟩
  ends outer s inner e after hsplit hs hinner _ := by
    obtain ⟨ss', hopen, hparent, _⟩ := h.parents _ e after hsplit
    rw [List.append_assoc] at hsplit
    obtain ⟨ssOuter, houter⟩ := h.exists_of_split hsplit
    rw [hparent, (StillOpen.some houter hs hinner).unique hopen]
    rfl
  others before e after ss' hsplit _ hopen := by
    obtain ⟨ss'', hopen'', hparent, _⟩ := h.parents before e after hsplit
    rw [hparent, hopen.unique hopen'']

/-- What one call adds to the exported events. -/
theorem Nested.values_perform {t : Trace} {ss : List Value} (h : Nested t ss) (call : Call) :
    (call = .closePhase ∧ Balanced t.values ∧ t.perform call = t) ∨
      (¬(call = .closePhase ∧ Balanced t.values) ∧
        ∃ e, (t.perform call).values = t.values ++ [e] ∧ e.at "type" = .text call.kind.tag) := by
  have hnothing : t.opened = [] ↔ ss = [] := by
    rw [← List.map_eq_nil_iff (f := fun id => Value.text (idText id)), ← h.opened, List.map_eq_nil_iff]
  rcases perform_cases t call with ⟨hcall, hopened, hsame⟩ | ⟨e, hnoted⟩
  · left
    have hopen := h.stillOpen
    rw [hnothing.mp hopened] at hopen
    exact ⟨hcall, hopen.balanced, hsame⟩
  · right
    constructor
    · rintro ⟨hcall, hbalanced⟩
      have hss : ss = [] := (StillOpen.none hbalanced).unique h.stillOpen
      exact hnoted.closing hcall (hnothing.mpr hss)
    · refine ⟨e.value, ?_, ?_⟩
      · rw [values, hnoted.events, List.map_append]
        rfl
      · rw [← hnoted.kind]
        rfl

/-- **Phases nest over every run of calls.** The exported events are bracketed, under names that are used once; the
starts that wait at the end are the phases that the trace holds open; and one more call adds one event of its kind,
unless it would close a phase where none is open: then it changes nothing. -/
theorem ofCalls_brackets (calls : List Call) :
    Bracketed (ofCalls calls).values ∧
    ((ofCalls calls).values.map (·.at "id")).Nodup ∧
    (∃ ss, StillOpen (ofCalls calls).values ss ∧
      ss.map (·.at "id") = (ofCalls calls).opened.map fun id => .text (idText id)) ∧
    ∀ call,
      (call = .closePhase ∧ Balanced (ofCalls calls).values ∧ ofCalls (calls ++ [call]) = ofCalls calls) ∨
      (¬(call = .closePhase ∧ Balanced (ofCalls calls).values) ∧
        ∃ e, (ofCalls (calls ++ [call])).values = (ofCalls calls).values ++ [e] ∧
          e.at "type" = .text call.kind.tag) := by
  obtain ⟨ss, h⟩ := nested_ofCalls calls
  refine ⟨h.bracketed, h.nodup, ⟨ss, h.stillOpen, h.opened⟩, ?_⟩
  intro call
  have hlast : ofCalls (calls ++ [call]) = (ofCalls calls).perform call := by
    rw [ofCalls, List.foldl_append]
    rfl
  rw [hlast]
  exact h.values_perform call

end Trace
end EsmLift
