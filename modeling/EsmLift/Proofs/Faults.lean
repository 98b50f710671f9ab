import EsmLift.Lift.Pass
import EsmLift.Proofs.Loads

/-!
# `Proofs.Faults` — only the walk runs out of fuel

Recognition, splitting, and printing a warning can all end in a fault, but none of them is bounded by fuel. So a walk
of the pass that is stopped for want of fuel was stopped by the walk itself, not by what was asked at a node
(`Lift.ask_fueled`).

## Contents

* `Fueled`, closed under steps that follow each other;
* `Statement.isCandidate_fueled`, `Statement.split_fueled`;
* `Diagnostics.echoLines_fueled`, `Diagnostics.warn_fueled`;
* `Lift.ask_fueled`: one question.
-/

namespace EsmLift

/-- The operation does not fail for want of fuel. -/
def Fueled {α : Type} (x : Except Fault α) : Prop := x ≠ .error .exhausted

namespace Fueled

variable {α β : Type}

theorem ok (a : α) : Fueled (.ok a : Except Fault α) := by
  intro h
  cases h

theorem error {fault : Fault} (h : fault ≠ .exhausted) : Fueled (.error fault : Except Fault α) := by
  intro he
  exact h (Except.error.inj he)

theorem bind {x : Except Fault α} {f : α → Except Fault β} (hx : Fueled x) (hf : ∀ a, Fueled (f a)) :
    Fueled (x >>= f) := by
  cases x with
  | error fault => intro h; exact hx (congrArg Except.error (Except.error.inj h))
  | ok a => exact hf a

theorem map {x : Except Fault α} {f : α → β} (hx : Fueled x) : Fueled (x.map f) := by
  cases x with
  | error fault => intro h; exact hx (congrArg Except.error (Except.error.inj h))
  | ok a => exact ok _

end Fueled

/-! ## Values -/

namespace Value

theorem field_fueled (v : Value) (key : String) : Fueled (v.field key) := by
  cases v with
  | object m fs => exact .ok _
  | _ => exact .error (by decide)

theorem require_fueled (v : Value) (key : String) : Fueled (v.require key) := by
  cases v with
  | object m fs =>
    simp only [require]
    cases fs.lookup key with
    | some w => exact .ok _
    | none => exact .error (by simp)
  | _ => exact .error (by decide)

theorem items_fueled (v : Value) : Fueled v.items := by
  cases v with
  | list | tuple | text | object => exact .ok _
  | _ => exact .error (by decide)

end Value

/-! ## Statements -/

namespace Require

theorem specifier_fueled (localName imported : Value) : Fueled (specifier localName imported) := by
  refine .bind (imported.require_fueled "name") fun name => ?_
  split <;> exact .ok _

theorem propertySpecifiers_fueled (ps : List Value) : Fueled (propertySpecifiers ps) := by
  induction ps with
  | nil => exact .ok _
  | cons p rest ih =>
    refine .bind (.bind (p.require_fueled "value") fun localName => ?_) fun s => .bind ih fun ss => .ok _
    exact .bind (p.require_fueled "key") fun imported => specifier_fueled localName imported

theorem statement_fueled (kind d : Value) : Fueled (statement kind d) := by
  rw [statement_eq]
  cases load? d with
  | none => exact .ok _
  | some l =>
    cases l with
    | whole id source => exact .ok _
    | exports properties source => exact .map (propertySpecifiers_fueled properties)
    | one id property source => exact .map (specifier_fueled id property)

end Require

theorem Syntax.copyKey_fueled (source target : Value) (key : String) : Fueled (copyKey source target key) := by
  refine .bind (source.field_fueled key) fun comments => ?_
  split
  · refine .bind comments.items_fueled fun copied => ?_
    cases target with
    | object m fs => exact .bind (Value.items_fueled _) fun own => .ok _
    | _ => exact .error (by decide)
  · exact .ok _

theorem Syntax.copyKeys_fueled (source target : Value) (keys : List String) :
    (copyKeys source target keys).2 ≠ some .exhausted := by
  induction keys generalizing target with
  | nil => intro h; cases h
  | cons key rest ih =>
    rw [copyKeys]
    cases hc : copyKey source target key with
    | ok t => exact ih t
    | error fault =>
      intro h
      exact copyKey_fueled source target key (hc.trans (congrArg Except.error (Option.some.inj h)))

namespace Statement

theorem pieces_fueled (kind : Value) (ds : List Value) : Fueled (pieces kind ds) := by
  induction ds with
  | nil => exact .ok _
  | cons d rest ih => exact .bind (Require.statement_fueled kind d) fun s => .bind ih fun ss => .ok _

theorem commented_fueled (e : Value) (ns : List Value) : Fueled (commented e ns) := by
  cases ns with
  | nil => exact .ok _
  | cons n rest =>
    have hcopy := Syntax.copyKeys_fueled e n Syntax.commentKeys
    rw [commented, Syntax.copyComments]
    rcases hc : Syntax.copyKeys e n Syntax.commentKeys with ⟨n', _ | fault⟩
    · exact .ok _
    · rw [hc] at hcopy
      exact .error fun h => hcopy (congrArg some h)

theorem split_fueled (keepComments : Bool) (e : Value) : Fueled (split keepComments e) := by
  refine .bind (e.require_fueled "kind") fun kind => .bind (e.require_fueled "declarations") fun declarations =>
    .bind declarations.items_fueled fun ds => .bind (pieces_fueled kind ds) fun ns => ?_
  cases keepComments with
  | false => exact .ok _
  | true => exact .bind (commented_fueled e ns) fun nodes => .ok _

theorem isCandidate_fueled (v : Value) : Fueled (isCandidate v) := by
  refine .bind (v.field_fueled "type") fun type => ?_
  split
  · exact .bind (Value.items_fueled _) fun ds => .ok _
  · exact .ok _

end Statement

/-! ## Warnings and questions -/

theorem Syntax.startLine_fueled (v : Value) : Fueled (startLine v) := by
  unfold startLine
  split
  · exact .bind (Value.field_fueled _ _) fun line => .ok _
  · exact .ok _

namespace Diagnostics

theorem warningAt_fueled (checks : Checks) (node message category : Value) :
    Fueled (warningAt checks node message category) := by
  refine .bind (Syntax.startLine_fueled node) fun line => ?_
  unfold Validation.Checked.lift
  split
  · exact .ok _
  · exact .error (by simp)

theorem echoLines_fueled (console : Console) (w : Warning) : Fueled (echoLines console w) := by
  refine .bind (.bind ?_ fun line => .ok _) fun text => ?_
  · unfold writeInt
    split
    · exact .ok _
    · exact .error (by decide)
  · cases console.log .warning text with
    | error mistake => exact .error (by simp)
    | ok lines => exact .ok _

theorem warn_fueled (d : Diagnostics) (node message category : Value) : Fueled (d.warn node message category).1 := by
  have hwarning := warningAt_fueled d.services.checks node message category
  unfold warn
  cases hw : warningAt d.services.checks node message category with
  | error fault => rw [hw] at hwarning; exact .error fun h => hwarning (congrArg Except.error h)
  | ok w =>
    dsimp only
    split
    · have hlines := echoLines_fueled d.services.console w
      cases hl : echoLines d.services.console w with
      | error fault => rw [hl] at hlines; exact .error fun h => hlines (congrArg Except.error h)
      | ok lines => exact .ok _
    · exact .ok _

end Diagnostics

/-- Nothing that is asked at a node fails for want of fuel. -/
theorem Lift.ask_fueled (category : Value) (keepComments : Bool) (v : Value) (owner : Option Value)
    (t : Trail Memory) : Fueled ((visitor category keepComments).ask v owner t).1 := by
  have hcandidate := Statement.isCandidate_fueled v
  unfold Visitor.ask visitor
  dsimp only
  cases hc : Statement.isCandidate v with
  | error fault => rw [hc] at hcandidate; exact .error fun h => hcandidate (congrArg Except.error h)
  | ok b =>
    cases b with
    | false => exact .ok _
    | true =>
      dsimp only
      cases hp : isProgram owner with
      | true =>
        have hsplit := Statement.split_fueled keepComments v
        cases hs : Statement.split keepComments v with
        | error fault => rw [hs] at hsplit; exact .error fun h => hsplit (congrArg Except.error h)
        | ok r => exact .ok _
      | false =>
        have hwarn := t.memory.sink.warn_fueled v (.text rootLevelMessage) category
        rcases hw : t.memory.sink.warn v (.text rootLevelMessage) category with ⟨fault | _, sink⟩
        · rw [hw] at hwarn
          exact .error fun h => hwarn (congrArg Except.error h)
        · exact .ok _

end EsmLift
