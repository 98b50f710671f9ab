import EsmLift.Proofs.Fuel
import EsmLift.Proofs.Stripping
import EsmLift.Proofs.Totality
import EsmLift.Standard

/-!
# `Proofs.Noninterference` — locations and comments do not matter

A pass over a tree and a pass over the stripped tree go side by side: they ask about twins, get the same answers, and
edit twins. Only the lines of warnings differ. So a pass that returns on a tree returns on the stripped tree, and
leaves there what it leaves here, stripped.

## Contents

* `Diagnostics.exists_echoLines`: whether a warning can be printed does not depend on its line;
* `Diagnostics.warn_bare`: a warning about a node without a location;
* `Trail.Coupled`, `Lift.ask_twin`: two passes side by side, and one question;
* `Lift.Stage.Followed`, `Lift.Passes.followed`: a walk through twins goes beside the pass, rule by rule;
* `Lift.run_strip`: the pass.
-/

namespace EsmLift

open Value

/-! ## Messages that start with a number -/

/-- A whole number is written with digits, and a sign in front. -/
theorem plain_toString (i : Int) : (toString i).toList.all Console.isPlain = true := by
  have hdigits (n : Nat) : (toString n).toList.all Console.isPlain = true := by
    refine List.all_eq_true.mpr fun c hc => ?_
    have hdigit := isDigit_of_mem_toString hc
    rw [Console.isPlain, Bool.and_eq_true, bne_iff_ne, bne_iff_ne]
    constructor <;> rintro rfl <;> exact absurd hdigit (by decide)
  cases i with
  | ofNat n => exact hdigits n
  | negSucc n =>
    have htext : (toString (Int.negSucc n)).toList = '-' :: (toString (n + 1)).toList := by
      show ("-" ++ toString (n + 1)).toList = _
      rw [String.toList_append]
      rfl
    rw [htext, List.all_cons, hdigits]
    rfl

/-! ## Warnings -/

/-- What a warning says, but for its line. -/
def Warning.content (w : Warning) : String × String := (w.message, w.category)

theorem mapError_eq_ok {ε ε' α : Type} {f : ε → ε'} {r : Except ε α} {a : α} : r.mapError f = .ok a ↔ r = .ok a := by
  cases r <;> simp [Except.mapError]

namespace Diagnostics

/-- The text of a warning after its line. -/
def echoRest (console : Console) (w : Warning) : String :=
  ": " ++ console.escape w.message ++ " (" ++ console.escape w.category ++ ")"

/-- What is printed for a warning starts with its line, if that can be written. -/
theorem echoLines_eq (console : Console) (w : Warning) : echoLines console w = (do
    let line ← writeInt w.line
    (console.emit .warning (Console.Level.warning.sign ++ line ++ echoRest console w)).mapError .unshown) := by
  unfold echoLines echoText
  cases writeInt w.line with
  | error fault => rfl
  | ok line =>
    show (console.log .warning _).mapError _ = _
    simp only [Console.log, Console.Level.message, echoRest, String.append_assoc]
    rfl

/-- What can be printed for a warning can be printed with another line in front. -/
theorem exists_echoLines {console : Console} {w : Warning} {i : Int} {line : String} {lines : List String}
    (hi : writeInt i = .ok line) (h : echoLines console w = .ok lines) :
    ∃ lines', echoLines console ⟨i, w.message, w.category⟩ = .ok lines' := by
  have hplain {i : Int} {line : String} (hi : writeInt i = .ok line) :
      (Console.Level.warning.sign ++ line).toList.all Console.isPlain = true := by
    rw [← eq_of_writeInt hi, String.toList_append, List.all_append, plain_toString i]
    decide
  rw [echoLines_eq] at h
  obtain ⟨line', hline', hshown⟩ := bind_ok h
  obtain ⟨lines', hlines'⟩ := console.emit_start _ _ _ _ _ (hplain hline') (hplain hi) (mapError_eq_ok.mp hshown)
  refine ⟨lines', ?_⟩
  rw [echoLines_eq]
  show (writeInt i >>= fun line => _) = _
  rw [hi]
  exact mapError_eq_ok.mpr hlines'

/-- **A warning about a node without a location** is accepted where one about any other node is, and says the same. -/
theorem warn_bare {d e d' : Diagnostics} {v w message category : Value} (hw : Syntax.startLine w = .ok (.int 0))
    (hservices : d.services = e.services) (hecho : d.echo = e.echo)
    (hcontent : d.warnings.map Warning.content = e.warnings.map Warning.content)
    (h : d.warn v message category = (.ok (), d')) :
    ∃ e', e.warn w message category = (.ok (), e') ∧ d'.services = e'.services ∧ d'.echo = e'.echo ∧
      d'.warnings.map Warning.content = e'.warnings.map Warning.content := by
  obtain ⟨a, ha, hwarnings, hservices', hecho', hshown⟩ := warn_ok h
  obtain ⟨line, hline, hlift⟩ := bind_ok ha
  cases hfields : Warning.ofFields d.services.checks [("line", line), ("message", message), ("category", category)] with
  | error issues => rw [hfields] at hlift; cases hlift
  | ok a' =>
    rw [hfields] at hlift
    cases hlift
    obtain ⟨_, rfl, rfl⟩ := Warning.ofFields_ok hfields
    have hat : warningAt e.services.checks w (.text a.message) (.text a.category) = .ok ⟨0, a.message, a.category⟩ :=
      warningAt_text _ hw _ _
    have hall : d'.warnings.map Warning.content
        = (e.warnings ++ [Warning.mk 0 a.message a.category]).map Warning.content := by
      rw [hwarnings, List.map_append, List.map_append, hcontent]
      rfl
    unfold warn
    rw [hat]
    dsimp only
    cases he : e.echo with
    | false => exact ⟨_, rfl, hservices'.trans hservices, hecho'.trans (hecho.trans he), hall⟩
    | true =>
      obtain ⟨lines, hlines⟩ := hshown (hecho.trans he)
      rw [hservices] at hlines
      have hzero : writeInt 0 = .ok "0" := by decide +kernel
      obtain ⟨lines', hlines'⟩ := exists_echoLines hzero hlines
      rw [if_pos rfl, hlines']
      exact ⟨_, rfl, hservices'.trans hservices, hecho'.trans (hecho.trans he), hall⟩

end Diagnostics

/-! ## Two passes side by side -/

variable {σ τ : Nat → Nat} {n : Nat}

/-- What a regular function does not change is the same for twins. -/
theorem Twin.agree {α : Type} {P : Value → α} (hP : ∀ {f : Value → Value}, Regular f → ∀ v, P (f v) = P v)
    (hσ : σ 0 = 0) {v w : Value} (h : Twin σ n v w) : P v = P w := by
  rw [← hP regular_strip v, h.1, hP (regular_rename hσ)]

theorem Faithful.isNode {f : Value → Value} (hf : Faithful f) (v : Value) : (f v).isNode = v.isNode := by
  unfold Value.isNode
  rw [hf.get?_type, Option.isSome_map]

/-- Replacements side by side. -/
def TwinReplacement (σ : Nat → Nat) (n : Nat) (r s : Replacement) : Prop :=
  Twin σ n r.target s.target ∧ List.Forall₂ (Twin σ n) r.nodes s.nodes

/-- **A statement is located where its twin is.** -/
theorem TwinReplacement.split {N : Nat} {r s : Replacement} {xs ys before after : List Value}
    (h : TwinReplacement σ n r s) (hσ : Renaming σ N n) (ho : r.target.isObject = true)
    (hxs : List.Forall₂ (Twin σ n) xs ys) (hsplit : r.split xs = .ok (before, after)) :
    ∃ before' after', s.split ys = .ok (before', after') ∧ List.Forall₂ (Twin σ n) before before' ∧
      List.Forall₂ (Twin σ n) after after' := by
  have hrel := Replacement.twin_locate hσ h.1 ho hxs
  unfold Replacement.split at hsplit ⊢
  generalize Replacement.locate r.target xs = a at hrel hsplit
  generalize Replacement.locate s.target ys = b at hrel ⊢
  cases hrel with
  | none => cases hsplit
  | some hparts =>
    cases hsplit
    exact ⟨_, _, rfl, hparts⟩

/-- A pass over a tree and a pass over the stripped tree, at the same point: all that they carry along are twins, and
what has no mark yet was not edited. -/
structure Trail.Coupled (σ : Nat → Nat) (t t' : Trail Lift.Memory) : Prop where
  marks : Renaming σ t.next t'.next
  revisions : TwinRevisions σ t'.next t.revisions t'.revisions
  unedited : ∀ m, t.next ≤ m → t.revisions.lookup m = none
  uneditedTwin : ∀ k, t'.next ≤ k → t'.revisions.lookup k = none
  replacements : List.Forall₂ (TwinReplacement σ t'.next) t.memory.replacements t'.memory.replacements
  rejected : List.Forall₂ (Twin σ t'.next) t.memory.rejected t'.memory.rejected
  services : t.memory.sink.services = t'.memory.sink.services
  echo : t.memory.sink.echo = t'.memory.sink.echo
  warnings : t.memory.sink.warnings.map Warning.content = t'.memory.sink.warnings.map Warning.content

namespace Trail.Coupled

variable {t t' : Trail Lift.Memory}

theorem current {v w : Value} (h : t.Coupled σ t') (hvw : Twin σ t'.next v w) :
    Twin σ t'.next (t.current v) (t'.current w) := hvw.refresh h.marks.pos h.revisions

/-- New marks were not edited. -/
theorem advance {N : Nat} (h : t.Coupled σ t') (ha : Advance σ τ t.next t'.next N n) :
    ({ t with next := N } : Trail Lift.Memory).Coupled τ { t' with next := n } where
  marks := ha.after
  revisions k hk := by
    show Option.Rel (Twin τ n) (t.revisions.lookup (τ k)) (t'.revisions.lookup k)
    by_cases hold : k < t'.next
    · have hrel := h.revisions k hold
      rw [ha.agree k hold]
      generalize t.revisions.lookup (σ k) = a at hrel ⊢
      generalize t'.revisions.lookup k = b at hrel ⊢
      cases hrel with
      | some hab => exact .some (hab.advance ha)
      | none => exact .none
    · have hle := Nat.not_lt.mp hold
      rw [h.unedited _ (ha.fresh k hle hk), h.uneditedTwin k hle]
      exact .none
  unedited m hm := h.unedited m (Nat.le_trans ha.le_left hm)
  uneditedTwin k hk := h.uneditedTwin k (Nat.le_trans ha.le hk)
  replacements := h.replacements.imp fun _ _ hrs => ⟨hrs.1.advance ha, forall₂_twin_advance hrs.2 ha⟩
  rejected := forall₂_twin_advance h.rejected ha
  services := h.services
  echo := h.echo
  warnings := h.warnings

/-- An edit of twins. -/
theorem recordList {k : Nat} {xs ys : List Value} (h : t.Coupled σ t') (hk : k < t'.next)
    (hxs : List.Forall₂ (Twin σ t'.next) xs ys) : (t.recordList (σ k) xs).Coupled σ (t'.recordList k ys) := by
  have hnew : Twin σ t'.next (.list (σ k) (refreshItems t.revisions xs)) (.list k (refreshItems t'.revisions ys)) := by
    rw [refreshItems_eq_map, refreshItems_eq_map]
    exact Twin.list_iff.mpr ⟨k, _, rfl, rfl, hk, forall₂_map_of_mem hxs fun _ _ _ hxy => h.current hxy⟩
  have hne {j : Nat} (hj : j < t'.next) (hjk : j ≠ k) : σ j ≠ σ k := fun heq => hjk (h.marks.inj j k hj hk heq)
  -- the edit alone, to bring the other revisions up to date
  have hsingle : TwinRevisions σ t'.next [(σ k, .list (σ k) (refreshItems t.revisions xs))]
      [(k, .list k (refreshItems t'.revisions ys))] := by
    intro j hj
    by_cases hjk : j = k
    · subst hjk
      rw [List.lookup_cons_self, List.lookup_cons_self]
      exact .some hnew
    · rw [List.lookup_cons, List.lookup_cons, beq_eq_false_iff_ne.mpr (hne hj hjk), beq_eq_false_iff_ne.mpr hjk]
      exact .none
  have hlt := h.marks.below k hk
  refine { h with
    revisions := fun j hj => ?_
    unedited := fun m (hm : t.next ≤ m) => ?_
    uneditedTwin := fun j (hj : t'.next ≤ j) => ?_ }
  · show Option.Rel _ ((t.revisions.record _ _).lookup _) ((t'.revisions.record _ _).lookup _)
    by_cases hjk : j = k
    · subst hjk
      rw [Revisions.lookup_record_self, Revisions.lookup_record_self]
      exact .some hnew
    · rw [Revisions.lookup_record_ne _ _ (hne hj hjk), Revisions.lookup_record_ne _ _ hjk]
      have hrel := h.revisions j hj
      generalize t.revisions.lookup (σ j) = a at hrel ⊢
      generalize t'.revisions.lookup j = b at hrel ⊢
      cases hrel with
      | some hab => exact .some (hab.refresh h.marks.pos hsingle)
      | none => exact .none
  · show (t.revisions.record _ _).lookup m = none
    rw [Revisions.lookup_record_ne _ _ (by omega), h.unedited m hm]
    rfl
  · show (t'.revisions.record _ _).lookup j = none
    rw [Revisions.lookup_record_ne _ _ (by omega), h.uneditedTwin j hj]
    rfl

end Trail.Coupled

/-! ## One question -/

/-- Answers side by side. -/
inductive TwinAnswer (σ : Nat → Nat) (n : Nat) : Answer → Answer → Prop where
  | keep : TwinAnswer σ n .keep .keep
  | splice {r s : Replacement} (statement : r.target.isObject = true) (twin : TwinReplacement σ n r s) :
      TwinAnswer σ n (.splice r) (.splice s)

/-- A twin has no location, so it starts on line `0`. -/
theorem Twin.startLine {m : Nat} {fs : Fields} {w : Value} (h : Twin σ n (.object m fs) w) :
    Syntax.startLine w = .ok (.int 0) := by
  obtain ⟨k, gs, rfl, _, _, hfs⟩ := Twin.object_iff.mp h
  have hloc : (Value.object k gs).get? "loc" = none := hfs.lookup_metadata (by decide)
  unfold Syntax.startLine
  rw [hloc]

namespace Lift

variable {category : Value} {keepComments : Bool}

/-- **Twins are asked about alike.** -/
theorem ask_twin {v w : Value} {owner owner' : Option Value} {t t₁ t' : Trail Memory} {answer : Answer}
    (ht : t.Coupled σ t') (h : Twin σ t'.next v w) (howner : isProgram owner = isProgram owner')
    (hask : (visitor category keepComments).ask v owner t = (.ok answer, t₁)) :
    ∃ answer' t₁' τ, (visitor category keepComments).ask w owner' t' = (.ok answer', t₁') ∧
      Advance σ τ t.next t'.next t₁.next t₁'.next ∧ t₁.Coupled τ t₁' ∧ TwinAnswer τ t₁'.next answer answer' := by
  have hcand : Statement.isCandidate v = Statement.isCandidate w :=
    h.agree (fun hf v => Statement.isCandidate_faithful hf.toFaithful v) ht.marks.zero
  have hobj := isObject_of_ask hask
  rcases ask_cases category keepComments v owner t with
    ⟨fault, t₂, hfault⟩ | ⟨hc, hkeep⟩ | ⟨hc, hprogram, sink, hwarn, hkeep⟩ | ⟨hc, hprogram, r, hsplit, hsplice⟩
  · rw [hask] at hfault
    cases hfault
  · rw [hask] at hkeep
    cases hkeep
    refine ⟨.keep, t', σ, ?_, .refl ht.marks, ht, .keep⟩
    unfold Visitor.ask visitor
    dsimp only
    rw [← hcand, hc]
    rfl
  · rw [hask] at hkeep
    cases hkeep
    have hline : Syntax.startLine w = .ok (.int 0) := by
      cases v with
      | object m fs => exact h.startLine
      | _ => cases hobj
    obtain ⟨sink', hwarn', hservices, hecho, hcontent⟩ :=
      Diagnostics.warn_bare hline ht.services ht.echo ht.warnings hwarn
    refine ⟨.keep, { t' with memory := { t'.memory with sink := sink', rejected := t'.memory.rejected ++ [w] } }, σ, ?_,
      .refl ht.marks, ?_, .keep⟩
    · unfold Visitor.ask visitor
      dsimp only
      rw [← hcand, hc]
      dsimp only
      rw [if_neg (by rw [← howner, hprogram]; exact Bool.false_ne_true), hwarn']
      rfl
    · exact { ht with
        rejected := List.rel_append ht.rejected (.cons h .nil)
        services := hservices
        echo := hecho
        warnings := hcontent }
  · rw [hask] at hsplice
    cases hsplice
    obtain ⟨s, hs, htarget', hnodes⟩ := Statement.twin_split ht.marks h (Statement.loads_iff.mpr hc) hsplit
    have htarget : Twin σ t'.next r.target s.target := by rw [(Statement.split_ok hsplit).1, htarget']; exact h
    -- new marks go to the target first, then to the statements
    obtain ⟨τ, ha, hstamped⟩ := twin_stamp ht.marks r.target htarget
    obtain ⟨υ, hb, hstampedNodes⟩ := twin_stampItems ha.after r.nodes (forall₂_twin_advance hnodes ha)
    have hmemory : Trail.Coupled σ
        { t with memory := { t.memory with replacements := t.memory.replacements ++ [r] } }
        { t' with memory := { t'.memory with replacements := t'.memory.replacements ++ [s] } } :=
      { ht with replacements := List.rel_append ht.replacements (.cons ⟨htarget, hnodes⟩ .nil) }
    refine ⟨(Answer.stamp t'.next (.splice s)).1,
      { t' with
        memory := { t'.memory with replacements := t'.memory.replacements ++ [s] }
        next := (Answer.stamp t'.next (.splice s)).2 }, υ, ?_, ha.trans hb, hmemory.advance (ha.trans hb), ?_⟩
    · unfold Visitor.ask visitor
      dsimp only
      rw [← hcand, hc]
      dsimp only
      rw [if_pos (by rw [← howner, hprogram]), hs]
    · refine .splice ?_ ⟨hstamped.advance hb, hstampedNodes⟩
      show (r.target.stamp t.next).1.isObject = true
      rw [isObject_stamp, (Statement.split_ok hsplit).1, hobj]

end Lift

/-! ## Types side by side -/

/-- Fields that tell the same type, if any. -/
def TypedAlike (fs gs : Fields) : Prop :=
  Option.Rel (fun u u' => ∀ s, u.isText s = u'.isText s) (fs.lookup "type") (gs.lookup "type")

theorem Twin.isText {v w : Value} (h : Twin σ n v w) (s : String) : v.isText s = w.isText s := by
  cases v with
  | list m xs => obtain ⟨k, ys, rfl, _⟩ := Twin.list_iff.mp h; rfl
  | object m fs => obtain ⟨k, gs, rfl, _⟩ := Twin.object_iff.mp h; rfl
  | tuple xs =>
    have heq := h.1
    cases w <;> first | rfl | cases heq
  | _ => rw [h.leaf rfl]

namespace TypedAlike

variable {fs gs fs' gs' : Fields}

theorem isA (h : TypedAlike fs gs) (m k : Nat) (t : NodeType) :
    (Value.object m fs).isA t = (Value.object k gs).isA t := by
  rw [Value.isA_eq, Value.isA_eq]
  show (fs.lookup "type").any _ = (gs.lookup "type").any _
  unfold TypedAlike at h
  generalize fs.lookup "type" = a at h ⊢
  generalize gs.lookup "type" = b at h ⊢
  cases h with
  | some hab => exact hab t.tag
  | none => rfl

theorem append (h : TypedAlike fs gs) (h' : TypedAlike fs' gs') : TypedAlike (fs ++ fs') (gs ++ gs') := by
  unfold TypedAlike at h h' ⊢
  rw [List.lookup_append, List.lookup_append]
  generalize fs.lookup "type" = a at h ⊢
  generalize gs.lookup "type" = b at h ⊢
  cases h with
  | some hab => exact .some hab
  | none => exact h'

theorem cons {key : String} {v w : Value} (hvw : ∀ s, v.isText s = w.isText s) (h : TypedAlike fs gs) :
    TypedAlike ((key, v) :: fs) ((key, w) :: gs) := by
  unfold TypedAlike at h ⊢
  rw [List.lookup_cons, List.lookup_cons]
  split
  · exact .some hvw
  · exact h

theorem skip {key : String} {v : Value} (hk : Syntax.metadataKeys.contains key = true) (h : TypedAlike fs gs) :
    TypedAlike ((key, v) :: fs) gs := by
  unfold TypedAlike at h ⊢
  have hne : ("type" == key) = false := by
    rw [beq_eq_false_iff_ne]
    rintro rfl
    exact absurd hk (by decide)
  rw [List.lookup_cons, hne]
  exact h

theorem of_twins (h : TwinFields σ n fs gs) : TypedAlike fs gs := by
  induction h with
  | nil => exact .none
  | skip hk _ ih => exact ih.skip hk
  | cons _ hvw _ ih => exact ih.cons hvw.isText

end TypedAlike

/-! ## The walk -/

/-- The second walk returns where the first one does, and both go on side by side. -/
structure Beside {α : Type} (σ : Nat → Nat) (t t' : Trail Lift.Memory) (result : (Nat → Nat) → Nat → α → α → Prop)
    (w w' : Walked Lift.Memory α) : Prop where
  fault : w'.fault = none
  edited : w.edited = w'.edited
  coupled : ∃ τ, Advance σ τ t.next t'.next w.trail.next w'.trail.next ∧ w.trail.Coupled τ w'.trail ∧
    result τ w'.trail.next w.value w'.value

/-- Nothing was done on either side. -/
theorem Beside.here {α : Type} {result : (Nat → Nat) → Nat → α → α → Prop} {t t' : Trail Lift.Memory} {x y : α}
    (ht : t.Coupled σ t') (h : result σ t'.next x y) : Beside σ t t' result ⟨x, false, none, t⟩ ⟨y, false, none, t'⟩ :=
  ⟨rfl, rfl, σ, .refl ht.marks, ht, h⟩

/-- Two walks that are side by side after a first part, with what follows. -/
theorem Beside.after {α : Type} {result : (Nat → Nat) → Nat → α → α → Prop} {t t' t₁ t₁' : Trail Lift.Memory}
    {w w' : Walked Lift.Memory α} (ha : Advance σ τ t.next t'.next t₁.next t₁'.next) (h : Beside τ t₁ t₁' result w w') :
    Beside σ t t' result w w' := by
  obtain ⟨hfault, hedited, υ, hb, hcoupled, hvalue⟩ := h
  exact ⟨hfault, hedited, υ, ha.trans hb, hcoupled, hvalue⟩

theorem Twin.isNode {N : Nat} {v w : Value} (h : Twin σ n v w) (hσ : Renaming σ N n) : w.isNode = v.isNode :=
  (h.agree (fun hf v => hf.toFaithful.isNode v) hσ.zero).symm

/-- The twin of what is no list is no list. -/
theorem Twin.ne_list {v w : Value} (h : Twin σ n v w) (hn : 0 < n) (hv : ∀ m xs, v ≠ .list m xs) (m : Nat)
    (xs : List Value) : w ≠ .list m xs := by
  cases v with
  | list m xs => exact absurd rfl (hv m xs)
  | object m fs => obtain ⟨k, gs, rfl, _⟩ := Twin.object_iff.mp h; nofun
  | tuple xs => obtain ⟨ys, rfl, _⟩ := (Twin.tuple_iff hn).mp h; nofun
  | _ => rw [h.leaf rfl]; nofun

namespace Lift

variable (category : Value) (keepComments : Bool)

/-- A walk through the task goes beside the first walk `w`, with fuel `n`. -/
def Followed (n : Nat) (σ : Nat → Nat) (t t' : Trail Memory) (task : Walk.Task)
    (result : (Nat → Nat) → Nat → task.Result → task.Result → Prop) (w : Walked Memory task.Result) : Prop :=
  ∃ qs w', Walk.Runs (visitor category keepComments) n task t' qs w' ∧ Beside σ t t' result w w'

/-- A walk through twins goes beside the pass; metadata is passed over. -/
def Stage.Followed (n : Nat) : (stage : Stage) → Trail Memory → Walked Memory stage.task.Result → Prop
  | .children v, t, w => ∀ σ v' t', t.Coupled σ t' → Twin σ t'.next v v' →
    Lift.Followed category keepComments n σ t t' (.children v') Twin w
  | .fields _ _ done todo, t, w => ∀ σ mark' done' todo' t', TypedAlike done done' → t.Coupled σ t' →
    TwinFields σ t'.next todo todo' →
    Lift.Followed category keepComments n σ t t' (.fields mark' done' todo') TwinFields w
  | .slot _ owner key v, t, w => ∀ σ owner' v' t', Syntax.metadataKeys.contains key = false →
    (∀ u u', (∀ s, u.isText s = u'.isText s) → (owner u).isA .program = (owner' u').isA .program) →
    t.Coupled σ t' → Twin σ t'.next v v' →
    Lift.Followed category keepComments n σ t t' (.slot owner' key v') Twin w
  | .items _ owner done todo, t, w => ∀ σ owner' done' todo' t',
    (∀ ys ys', (owner ys).isA .program = (owner' ys').isA .program) → t.Coupled σ t' →
    List.Forall₂ (Twin σ t'.next) done done' → List.Forall₂ (Twin σ t'.next) todo todo' →
    Lift.Followed category keepComments n σ t t' (.items owner' done' todo') (fun τ n => List.Forall₂ (Twin τ n)) w
  | .pieces kind ps, t, w => ∀ σ nodes' t', t.Coupled σ t' →
    List.Forall₂ (Twin σ t'.next) (ps.map (Piece.value kind)) nodes' →
    Lift.Followed category keepComments n σ t t' (.each nodes') (fun τ n => List.Forall₂ (Twin τ n)) w

variable {category : Value} {keepComments : Bool} {N : Nat} {t t₁ : Trail Memory}

/-- An object, if a walk through the fields of its twin goes beside. -/
theorem Stage.Followed.object {program : Bool} {mark : Nat} {fs : Fields} {w : Walked Memory Fields}
    (h : (Stage.fields program mark [] fs).Followed category keepComments N t w) (hedited : w.edited = false) :
    (Stage.children (.object mark fs)).Followed category keepComments (N + 1) t
      ⟨.object mark w.value, false, w.fault, w.trail⟩ := by
  intro σ v' t' ht htwin
  obtain ⟨k, gs, rfl, rfl, hk, hfs⟩ := Twin.object_iff.mp htwin
  obtain ⟨qs, w', hruns, hfault, hsame, τ, ha, hcoupled, hvalue⟩ := h σ k [] gs t' .none ht hfs
  refine ⟨qs, _, .object hruns, hfault, rfl, τ, ?_⟩
  rw [← hsame, hedited, if_neg Bool.false_ne_true]
  exact ⟨ha, hcoupled, Twin.object_iff.mpr ⟨k, _, rfl, ha.agree k hk, Nat.lt_of_lt_of_le hk ha.le, hvalue⟩⟩

section

variable {program : Bool} {mark : Nat} {done rest : Fields} {key : String} {v : Value} {here : Walked Memory Value}
  {later : Walked Memory Fields} {qs : List Question} {σ : Nat → Nat} {done' rest' : Fields} {t' : Trail Memory}

/-- Metadata: the second walk does not have it, so it has one field less to go through. -/
theorem Stage.Followed.skip (hkey : Syntax.metadataKeys.contains key = true)
    (hhere : Passes category keepComments N (.slot program (fun w => .object mark (done ++ (key, w) :: rest)) key v) t qs
      here) (hfault : here.fault = none)
    (hlater : (Stage.fields program mark (done ++ [(key, here.value)]) rest).Followed category keepComments N here.trail
      later) (mark' : Nat) (hdone : TypedAlike done done') (ht : t.Coupled σ t')
    (hrest : TwinFields σ t'.next rest rest') :
    Lift.Followed category keepComments (N + 1) σ t t' (.fields mark' done' rest') TwinFields
      ⟨(key, here.value) :: later.value, here.edited || later.edited, later.fault, later.trail⟩ := by
  have hno {P : Prop} (h : Syntax.metadataKeys.contains key = false) : P := by rw [hkey] at h; cases h
  cases hhere with
  | exhausted => cases hfault
  | metadata =>
    have hdone₁ : TypedAlike (done ++ [(key, v)]) done' := by
      rw [← List.append_nil done']
      exact hdone.append (.skip hkey .none)
    obtain ⟨qs', w', hruns, hfault', hedited, τ, ha, hcoupled, hvalue⟩ :=
      hlater σ mark' done' rest' t' hdone₁ ht hrest
    exact ⟨qs', w', hruns.succ (by rw [hfault']; nofun), hfault', hedited, τ, ha, hcoupled, .skip hkey hvalue⟩
  | slotList _ h | slotOther _ h | slotFault _ h | slotKeep _ h | slotSplice _ h => exact hno h

/-- A field that both walks have, and those that follow. -/
theorem Stage.Followed.field {v' : Value} (hkey : Syntax.metadataKeys.contains key = false)
    (hhere : (Stage.slot program (fun w => .object mark (done ++ (key, w) :: rest)) key v).Followed category keepComments
      N t here)
    (hlater : (Stage.fields program mark (done ++ [(key, here.value)]) rest).Followed category keepComments N here.trail
      later) (mark' : Nat) (hdone : TypedAlike done done') (ht : t.Coupled σ t') (hv : Twin σ t'.next v v')
    (hrest : TwinFields σ t'.next rest rest') :
    Lift.Followed category keepComments (N + 1) σ t t' (.fields mark' done' ((key, v') :: rest')) TwinFields
      ⟨(key, here.value) :: later.value, here.edited || later.edited, later.fault, later.trail⟩ := by
  have howner (u u' : Value) (hu : ∀ s, u.isText s = u'.isText s) :
      (Value.object mark (done ++ (key, u) :: rest)).isA .program
        = (Value.object mark' (done' ++ (key, u') :: rest')).isA .program :=
    (hdone.append ((TypedAlike.of_twins hrest).cons hu)).isA mark mark' .program
  obtain ⟨qs, here', hruns, hfault, hedited, τ, ha, hcoupled, hvalue⟩ :=
    hhere σ (fun w => .object mark' (done' ++ (key, w) :: rest')) v' t' hkey howner ht hv
  obtain ⟨qs', later', hruns', hfault', hedited', υ, hb, hcoupled', hvalue'⟩ :=
    hlater τ mark' (done' ++ [(key, here'.value)]) rest' here'.trail (hdone.append (.cons hvalue.isText .none)) hcoupled
      (hrest.advance ha)
  refine ⟨_, _, .field hruns hfault hruns', hfault', ?_, υ, ha.trans hb, hcoupled',
    .cons hkey (hvalue.advance hb) hvalue'⟩
  show (_ || _) = (_ || _)
  rw [hedited, hedited']

end

/-- A list, if a walk through the items of its twin goes beside. -/
theorem Stage.Followed.list {program : Bool} {owner : Value → Value} {key : String} {mark : Nat} {xs : List Value}
    {w : Walked Memory (List Value)} (hs : (Value.list mark xs).Settled t.revisions)
    (h : (Stage.items program (fun ys => owner (.list mark ys)) [] xs).Followed category keepComments N t w) :
    (Stage.slot program owner key (.list mark xs)).Followed category keepComments (N + 1) t
      ⟨.list mark w.value, false, w.fault, if w.edited then w.trail.recordList mark w.value else w.trail⟩ := by
  intro σ owner' v' t' hkey howner ht htwin
  have hcur := ht.current htwin
  rw [Trail.current, hs.refresh] at hcur
  obtain ⟨k, ys, hcurrent, rfl, hk, hxs⟩ := Twin.list_iff.mp hcur
  -- a list is no text, so its items do not decide what its owner is
  obtain ⟨qs, w', hruns, hfault, hedited, τ, ha, hcoupled, hvalue⟩ :=
    h σ (fun zs => owner' (.list k zs)) [] ys t' (fun _ _ => howner _ _ fun _ => rfl) ht .nil hxs
  have hk' : k < w'.trail.next := Nat.lt_of_lt_of_le hk ha.le
  have hlist : Twin τ w'.trail.next (.list (σ k) w.value) (.list k w'.value) :=
    Twin.list_iff.mpr ⟨k, _, rfl, ha.agree k hk, hk', hvalue⟩
  refine ⟨qs, _, .slotList hkey hcurrent hruns, hfault, rfl, τ, ?_⟩
  dsimp only
  rw [← hedited]
  cases w.edited with
  | false => exact ⟨ha, hcoupled, hlist⟩
  | true =>
    -- the list is edited on both sides, under marks that belong together
    have hrecord := hcoupled.recordList hk' hvalue
    rw [ha.agree k hk] at hrecord
    exact ⟨ha, hrecord, hlist⟩

section

variable {program : Bool} {owner : List Value → Value} {done rest : List Value} {v : Value}
  {later : Walked Memory (List Value)}

/-- An item that is no node, and those that follow. -/
theorem Stage.Followed.itemOther (hnode : v.isNode = false)
    (hlater : (Stage.items program owner (done ++ [v]) rest).Followed category keepComments N t later) :
    (Stage.items program owner done (v :: rest)).Followed category keepComments (N + 1) t later := by
  intro σ owner' done' todo' t' howner ht hdone htodo
  cases htodo with
  | cons hvw hrest =>
    obtain ⟨qs, w', hruns, hbeside⟩ := hlater σ owner' _ _ t' howner ht (List.rel_append hdone (.cons hvw .nil)) hrest
    exact ⟨qs, w', .itemOther (by rw [hvw.isNode ht.marks, hnode]) hruns, hbeside⟩

/-- An item that is kept, and those that follow. -/
theorem Stage.Followed.itemKeep {w : Walked Memory Value} (hs : v.Settled t.revisions) (hnode : v.isNode = true)
    (hask : (visitor category keepComments).ask v (some (owner (done ++ v :: rest))) t = (.ok .keep, t₁))
    (hchildren : (Stage.children v).Followed category keepComments N t₁ w)
    (hlater : (Stage.items program owner (done ++ [w.value]) rest).Followed category keepComments N w.trail later) :
    (Stage.items program owner done (v :: rest)).Followed category keepComments (N + 1) t later := by
  intro σ owner' done' todo' t' howner ht hdone htodo
  cases htodo with
  | @cons _ v' _ rest' hvw hrest =>
    have hcur := ht.current hvw
    rw [Trail.current, hs.refresh] at hcur
    have howned : isProgram (some (owner (done ++ v :: rest)))
        = isProgram (some (owner' (done' ++ t'.current v' :: rest'))) := howner _ _
    obtain ⟨answer', t₁', τ, hask', ha, hcoupled, htwin⟩ := ask_twin ht hcur howned hask
    cases htwin with
    | keep =>
      obtain ⟨qs, w', hruns, hfault, _, υ, hb, hcoupled', hvalue⟩ := hchildren τ _ t₁' hcoupled (hcur.advance ha)
      have hab := ha.trans hb
      obtain ⟨qs', later', hruns', hbeside⟩ := hlater υ owner' _ _ w'.trail howner hcoupled'
        (List.rel_append (forall₂_twin_advance hdone hab) (.cons hvalue .nil)) (forall₂_twin_advance hrest hab)
      have hnode' := hvw.isNode ht.marks
      exact ⟨_, _, .itemKeep (hnode'.trans hnode) rfl hask' hruns hfault hruns', hbeside.after hab⟩

/-- An item that gives way to its pieces, and those that follow. The same place is found in both lists, and the walks
go on behind the new statements. -/
theorem Stage.Followed.itemSplice {r : Replacement} {kind : Value} {ps : List Piece} {w : Walked Memory (List Value)}
    (hw : (Stage.items true owner done (v :: rest)).Walkable t)
    (hask : (visitor category keepComments).ask v (some (owner (done ++ v :: rest))) t
      = (.ok (.splice ⟨v, ps.map (Piece.value kind)⟩), t₁))
    (hopen : Statement.Opened keepComments v r kind ps t t₁)
    (hpieces : (Stage.pieces kind ps).Followed category keepComments N t₁ w)
    (hlater : (Stage.items true owner (done ++ w.value) rest).Followed category keepComments N w.trail later) :
    (Stage.items true owner done (v :: rest)).Followed category keepComments (N + 1) t { later with edited := true } := by
  intro σ owner' done' todo' t' howner ht hdone htodo
  cases htodo with
  | @cons _ v' _ rest' hvw hrest =>
    obtain ⟨_, _, hs, hr, hapart⟩ := hw
    have hcur := ht.current hvw
    rw [Trail.current, (hs v List.mem_cons_self).refresh] at hcur
    have howned : isProgram (some (owner (done ++ v :: rest)))
        = isProgram (some (owner' (done' ++ t'.current v' :: rest'))) := howner _ _
    obtain ⟨answer', t₁', τ, hask', ha, hcoupled, htwin⟩ := ask_twin ht hcur howned hask
    cases htwin with
    | splice hstatement htwins =>
      have hbody := List.rel_append (forall₂_twin_advance hdone ha)
        (.cons (hcur.advance ha) (forall₂_twin_advance hrest ha))
      obtain ⟨before', after', hsplit', hbefore, hafter⟩ :=
        htwins.split hcoupled.marks hstatement hbody (Walk.splice_found _ hopen.loads hr hapart)
      obtain ⟨qs, w', hruns, hfault, _, υ, hb, hcoupled', hvalue⟩ := hpieces τ _ t₁' hcoupled htwins.2
      obtain ⟨qs', later', hruns', hfault', _, hbeside⟩ := hlater υ owner' (before' ++ w'.value) after' w'.trail howner
        hcoupled' (List.rel_append (forall₂_twin_advance hbefore hb) hvalue) (forall₂_twin_advance hafter hb)
      have hnode' := (hvw.isNode ht.marks).trans (Statement.isNode_of_loads hopen.loads)
      exact ⟨_, _, .itemSplice hnode' rfl hask' hsplit' hruns hfault hruns',
        Beside.after (ha.trans hb) ⟨hfault', rfl, hbeside⟩⟩

end

/-- **The walks go side by side**, if the first one is a pass that is not stopped. -/
theorem Passes.followed {stage : Stage} {qs : List Question} {w : Walked Memory stage.task.Result}
    (h : Passes category keepComments N stage t qs w) (hf : w.fault = none) :
    stage.Followed category keepComments N t w := by
  induction h with
  | exhausted | fieldStop | slotFault | slotSplice | itemFault | itemKeepStop | itemSpliceStop | pieceStop => cases hf
  | object _ _ hedited ih => exact (ih hf).object hedited
  | noFields =>
    intro σ mark' done' todo' t' _ ht htodo
    cases htodo
    exact ⟨_, _, .noFields, .here ht .nil⟩
  | field _ hhere hfault _ ih ih' =>
    intro σ mark' done' todo' t' hdone ht htodo
    cases htodo with
    | skip hkey hrest => exact Stage.Followed.skip hkey hhere hfault (ih' hf) mark' hdone ht hrest
    | cons hkey hv hrest => exact (ih hfault).field hkey (ih' hf) mark' hdone ht hv hrest
  | metadata _ hmeta =>
    intro σ owner' v' t' hkey
    rw [hmeta] at hkey
    cases hkey
  | slotList hw _ _ ih => exact (ih hf).list hw.2.2.1
  | slotOther hw _ hlist hnode =>
    intro σ owner' v' t' hkey _ ht htwin
    have hcur := ht.current htwin
    rw [Trail.current, hw.2.2.1.refresh] at hcur
    exact ⟨_, _, .slotOther hkey rfl (hcur.ne_list ht.marks.pos hlist) ((hcur.isNode ht.marks).trans hnode),
      .here ht hcur⟩
  | @slotKeep n program owner key v t t₁ qs w hw _ hnode hask _ ih =>
    intro σ owner' v' t' hkey howner ht htwin
    have hcur := ht.current htwin
    rw [Trail.current, hw.2.2.1.refresh] at hcur
    have howned : isProgram (some (owner v)) = isProgram (some (owner' (t'.current v'))) := howner _ _ hcur.isText
    obtain ⟨answer', t₁', τ, hask', ha, hcoupled, hanswer⟩ := ask_twin ht hcur howned hask
    cases hanswer with
    | keep =>
      obtain ⟨qs, w', hruns, hbeside⟩ := ih hf τ _ t₁' hcoupled (hcur.advance ha)
      exact ⟨_, _, .slotKeep hkey rfl ((hcur.isNode ht.marks).trans hnode) hask' hruns, hbeside.after ha⟩
  | noItems =>
    intro σ owner' done' todo' t' _ ht hdone htodo
    cases htodo
    exact ⟨_, _, .noItems, .here ht hdone⟩
  | itemOther _ hnode _ ih => exact (ih hf).itemOther hnode
  | itemKeep hw hnode hask _ hfault _ ih ih' =>
    exact .itemKeep (hw.2.2.1 _ List.mem_cons_self) hnode hask (ih hfault) (ih' hf)
  | itemSplice hw hask hopen _ hfault _ ih ih' => exact .itemSplice hw hask hopen (ih hfault) (ih' hf)
  | noPieces =>
    intro σ nodes' t' ht hnodes
    cases hnodes
    exact ⟨_, _, .noNodes, .here ht .nil⟩
  | piece hw _ hfault _ ih ih' =>
    intro σ nodes' t' ht hnodes
    rw [List.map_cons] at hnodes
    cases hnodes with
    | cons hv hrest =>
      have hcur := ht.current hv
      rw [hw.firstPiece.1] at hcur
      obtain ⟨qs, w', hruns, hfault', _, τ, ha, hcoupled, hvalue⟩ := ih hfault σ _ t' ht hcur
      obtain ⟨qs', later', hruns', hfault₁, _, υ, hb, hcoupled₁, hvalue₁⟩ :=
        ih' hf τ _ w'.trail hcoupled (forall₂_twin_advance hrest ha)
      exact ⟨_, _, .node rfl hruns hfault' hruns', hfault₁, rfl, υ, ha.trans hb, hcoupled₁,
        .cons (hvalue.advance hb) hvalue₁⟩

end Lift

/-! ## The pass -/

namespace Value

theorem rename_id (v : Value) : v.rename id = v := by
  induction v using Value.induction with
  | leaf v h => cases v <;> first | rfl | cases h
  | list m xs ih => rw [rename, renameItems_eq_map, items_map_self ih]; rfl
  | tuple xs ih => rw [rename, renameItems_eq_map, items_map_self ih]
  | object m fs ih =>
    rw [rename, renameFields_eq_map]
    exact congrArg (object m) (Fields.map_self (g := fun _ v => v.rename id) ih)

theorem mem_stripFields {fs : Fields} {g : String × Value} (h : g ∈ stripFields fs) : ∃ f ∈ fs, g.2 = f.2.strip := by
  induction fs with
  | nil => exact absurd h List.not_mem_nil
  | cons f rest ih =>
    obtain ⟨key, v⟩ := f
    rw [stripFields] at h
    have hrest (h : g ∈ stripFields rest) : ∃ f ∈ (key, v) :: rest, g.2 = f.2.strip := by
      obtain ⟨f, hf, heq⟩ := ih h
      exact ⟨f, List.mem_cons_of_mem _ hf, heq⟩
    split at h
    · exact hrest h
    · rcases List.mem_cons.mp h with rfl | h
      · exact ⟨_, List.mem_cons_self, rfl⟩
      · exact hrest h

/-- A tree that comes from a reader is still one when it is stripped. -/
theorem isJson_strip {v : Value} (h : v.isJson = true) : v.strip.isJson = true := by
  induction v using Value.induction with
  | leaf v hv => rw [regular_strip.leaf v hv]; exact h
  | list m xs ih =>
    have hself := isJson_iff.mp h
    rw [strip, stripItems_eq_map]
    refine isJson_iff.mpr fun c hc => ?_
    rcases mem_compounds_list.mp hc with rfl | ⟨y, hy, hc⟩
    · exact ⟨(hself _ (mem_compounds_list.mpr (.inl rfl))).1, rfl⟩
    · obtain ⟨x, hx, rfl⟩ := List.mem_map.mp hy
      refine isJson_iff.mp (ih x hx (isJson_iff.mpr fun d hd => ?_)) c hc
      exact hself d (mem_compounds_list.mpr (.inr ⟨x, hx, hd⟩))
  | tuple xs _ => cases (isJson_iff.mp h _ (mem_compounds_tuple.mpr (.inl rfl))).2
  | object m fs ih =>
    have hself := isJson_iff.mp h
    rw [strip]
    refine isJson_iff.mpr fun c hc => ?_
    rcases mem_compounds_object.mp hc with rfl | ⟨g, hg, hc⟩
    · exact ⟨(hself _ (mem_compounds_object.mpr (.inl rfl))).1, rfl⟩
    · obtain ⟨f, hf, heq⟩ := mem_stripFields hg
      rw [heq] at hc
      refine isJson_iff.mp (ih f hf (isJson_iff.mpr fun d hd => ?_)) c hc
      exact hself d (mem_compounds_object.mpr (.inr ⟨f, hf, hd⟩))

mutual
/-- Where there are no marks none is the largest. -/
theorem topMark_eq_zero : (v : Value) → (∀ m ∈ v.marks, m = 0) → v.topMark = 0
  | .null, _ | .bool _, _ | .int _, _ | .double _, _ | .text _, _ => rfl
  | .list m xs, h => by
    rw [marks_list] at h
    obtain ⟨hm, hxs⟩ := List.forall_mem_cons.mp h
    rw [topMark, hm, topMarkItems_eq_zero xs hxs]
    rfl
  | .tuple xs, h => by
    rw [marks_tuple] at h
    exact topMarkItems_eq_zero xs (List.forall_mem_cons.mp h).2
  | .object m fs, h => by
    rw [marks_object] at h
    obtain ⟨hm, hfs⟩ := List.forall_mem_cons.mp h
    rw [topMark, hm, topMarkFields_eq_zero fs hfs]
    rfl

theorem topMarkItems_eq_zero : (xs : List Value) → (∀ m ∈ marksItems xs, m = 0) → topMarkItems xs = 0
  | [], _ => rfl
  | x :: rest, h => by
    rw [marksItems_cons] at h
    obtain ⟨hx, hrest⟩ := List.forall_mem_append.mp h
    rw [topMarkItems, topMark_eq_zero x hx, topMarkItems_eq_zero rest hrest]
    rfl

theorem topMarkFields_eq_zero : (fs : List (String × Value)) → (∀ m ∈ marksFields fs, m = 0) → topMarkFields fs = 0
  | [], _ => rfl
  | (key, v) :: rest, h => by
    rw [marksFields_cons] at h
    obtain ⟨hv, hrest⟩ := List.forall_mem_append.mp h
    rw [topMarkFields, topMark_eq_zero v hv, topMarkFields_eq_zero rest hrest]
    rfl
end

theorem marks_of_json {v : Value} (h : v.isJson = true) : ∀ m ∈ v.marks, m = 0 := by
  intro m hm
  obtain ⟨c, hc, rfl⟩ := List.mem_map.mp hm
  exact (isJson_iff.mp h c hc).1

end Value

/-- A replacement without locations and comments. -/
def Replacement.strip (r : Replacement) : Replacement := ⟨r.target.strip, r.nodes.map Value.strip⟩

namespace Lift

variable {category : Value} {keepComments : Bool} {sink : Diagnostics} {tree : Value}

/-- Both passes start side by side. -/
theorem exists_coupled (sink : Diagnostics) (hjson : tree.isJson = true) :
    ∃ σ, (outset sink tree).Coupled σ (outset sink tree.strip) ∧
      Twin σ (outset sink tree.strip).next (placed tree) (placed tree.strip) := by
  have hbare := isJson_strip hjson
  have hstart : Renaming id 1 1 := ⟨Nat.one_pos, rfl, fun j k hj hk _ => by omega, fun k hk => hk⟩
  have htwin : Twin id 1 tree tree.strip :=
    ⟨(rename_id _).symm, fun m hm => by rw [marks_of_json hbare m hm]; exact Nat.one_pos⟩
  obtain ⟨σ, ha, hplaced⟩ := twin_stamp hstart tree htwin
  unfold outset placed
  rw [topMark_eq_zero tree (marks_of_json hjson), topMark_eq_zero tree.strip (marks_of_json hbare)]
  exact ⟨σ, ⟨ha.after, fun _ _ => .none, fun _ _ => rfl, fun _ _ => rfl, .nil, .nil, rfl, rfl, rfl⟩, hplaced⟩

/-- What a walk through a tree comes to. -/
def Result.of (w : Walked Memory Value) : Result where
  tree := w.trail.current w.value
  fault := w.fault
  sink := w.trail.memory.sink
  replacements := w.trail.memory.replacements.map fun r =>
    { target := w.trail.current r.target, nodes := r.nodes.map w.trail.current }
  rejected := w.trail.memory.rejected.map w.trail.current

/-- A pass that keeps the root is a walk, with any fuel above its own. -/
theorem run_eq_of_keep (hjson : tree.isJson = true) {t : Trail Memory}
    (hask : (visitor category keepComments).ask (placed tree) none (outset sink tree) = (.ok .keep, t)) {n : Nat}
    (hle : fuel tree ≤ n) :
    run category keepComments sink tree = .of (Walk.children (visitor category keepComments) n (placed tree) t) := by
  unfold run
  rw [← walk_eq_of_le category keepComments sink hjson hle, walk_eq, ← outset, hask]
  rfl

theorem map_eq_of_forall₂ {α β γ : Type} {R : α → β → Prop} {f : α → γ} {g : β → γ} {xs : List α} {ys : List β}
    (h : List.Forall₂ R xs ys) (hfg : ∀ x y, R x y → f x = g y) : xs.map f = ys.map g := by
  rw [← List.forall₂_eq_eq_eq]
  exact List.rel_map hfg h

/-- **Locations and comments do not matter.** If a pass over a tree returns, a pass over the tree without them returns
too. It leaves the same tree, replacements and rejected candidates, but for locations and comments, and gives the same
warnings, but for their lines. -/
theorem run_strip (category : Value) (keepComments : Bool) (sink : Diagnostics) (tree : Value)
    (hjson : tree.isJson = true) (hfault : (run category keepComments sink tree).fault = none) :
    let r := run category keepComments sink tree
    let s := run category keepComments sink tree.strip
    s.fault = none ∧ r.tree.strip.erase = s.tree.erase ∧
      r.replacements.map (·.strip.erase) = s.replacements.map Replacement.erase ∧
      r.rejected.map (·.strip.erase) = s.rejected.map Value.erase ∧
      r.sink.warnings.map (fun w => (w.message, w.category))
        = s.sink.warnings.map (fun w => (w.message, w.category)) := by
  obtain ⟨t, hask, hreturned, _⟩ := run_of_returned hfault
  obtain ⟨σ, hcoupled, hplaced⟩ := exists_coupled sink hjson
  obtain ⟨answer, t', τ, hask', ha, hcoupled, htwin⟩ := ask_twin hcoupled hplaced rfl hask
  cases htwin
  -- with the fuel of both passes, the walks are side by side to their end
  have hle := Nat.le_max_left (fuel tree) (fuel tree.strip)
  have hmore : Walk.children (visitor category keepComments) (max (fuel tree) (fuel tree.strip)) (placed tree) t
      = Walk.children (visitor category keepComments) (fuel tree) (placed tree) t :=
    Walk.run_eq_of_le (.children _) hle (children_fueled category keepComments sink hjson hask)
  obtain ⟨qs, w, hpass⟩ :=
    exists_passes category keepComments (max (fuel tree) (fuel tree.strip)) (outset_walkable hjson hask)
  have hwalk : Walk.children (visitor category keepComments) _ (placed tree) t = w := hpass.runs.eq_run
  have hnone : w.fault = none := by rw [← hwalk, hmore]; exact hreturned
  obtain ⟨qs', w', hruns, hfault', _, υ, hb, hcoupled, hvalue⟩ :=
    hpass.followed hnone τ _ t' hcoupled (hplaced.advance ha)
  have hwalk' : Walk.children (visitor category keepComments) _ (placed tree.strip) t' = w' := hruns.eq_run
  rw [run_eq_of_keep hjson hask hle, run_eq_of_keep (isJson_strip hjson) hask' (Nat.le_max_right _ _), hwalk, hwalk']
  have hcurrent {v w : Value} (h : Twin υ _ v w) := (hcoupled.current h).erase.symm
  refine ⟨hfault', hcurrent hvalue, ?_, ?_, hcoupled.warnings⟩
  · show (List.map _ _).map _ = (List.map _ _).map _
    rw [List.map_map, List.map_map]
    refine map_eq_of_forall₂ hcoupled.replacements fun p q hpq => Replacement.mk.injEq .. ▸ ⟨hcurrent hpq.1, ?_⟩
    show ((List.map _ _).map _).map _ = (List.map _ _).map _
    rw [List.map_map, List.map_map, List.map_map]
    exact map_eq_of_forall₂ hpq.2 fun v w h => hcurrent h
  · show (List.map _ _).map _ = (List.map _ _).map _
    rw [List.map_map, List.map_map]
    exact map_eq_of_forall₂ hcoupled.rejected fun v w h => hcurrent h

theorem run_strip_sample :
    let r := run (.text "commonjs") true (.empty .standard true) Sample.program
    let s := run (.text "commonjs") true (.empty .standard true) Sample.program.strip
    Sample.program.isJson = true ∧ r.fault = none ∧ s.fault = none ∧ r.tree.strip.erase = s.tree.erase ∧
      r.replacements.map (·.strip.erase) = s.replacements.map Replacement.erase ∧
      r.rejected.map (·.strip.erase) = s.rejected.map Value.erase ∧
      r.sink.warnings = [⟨3, rootLevelMessage, "commonjs"⟩] ∧
      s.sink.warnings = [⟨0, rootLevelMessage, "commonjs"⟩] := by
  have hjson : Sample.program.isJson = true := by decide +kernel
  have hfault : (run (.text "commonjs") true (.empty .standard true) Sample.program).fault = none := by decide +kernel
  obtain ⟨hfault', htree, hreplacements, hrejected, _⟩ := run_strip _ _ _ _ hjson hfault
  exact ⟨hjson, hfault, hfault', htree, hreplacements, hrejected, by decide +kernel, by decide +kernel⟩

end Lift

end EsmLift
