import EsmLift.Console.Basic
import EsmLift.Console.Markup
import EsmLift.Value.Show

/-!
# `Console.Standard` — lines on a console

The console that a program is run with. The first line of a message shows the name of the level in eight columns;
further lines are indented by nine. Blanks at the end of a line are not shown.

## Contents

* `emit`: the lines of a message;
* `rows`, `printed`: values printed side by side, lists and objects in rows of their own;
* `exists_emit_of_plain`, `exists_emit_of_start`: when a message is shown;
* `Console.standard`.
-/

namespace EsmLift
namespace Markup

open Console (Level isPlain)

/-- The lines of a text. -/
def linesOf (s : String) : List String :=
  (s.toList.splitOnP (· == '\n')).map String.ofList

/-- A text filled up with blanks to a width. -/
def padded (width : Nat) (s : String) : String :=
  s ++ String.ofList (List.replicate (width - s.length) ' ')

/-- Lines with a label in front of the first one and blanks in front of the others. -/
def labelled (label : String) : List String → List String
  | [] => []
  | first :: rest =>
    Text.stripEnd (padded 8 label ++ " " ++ first) ::
      rest.map fun line => Text.stripEnd (padded 9 "" ++ line)

/-- The lines of a message. A message whose styles cannot be applied is not shown. -/
def emit (level : Level) (message : String) : Except Mistake (List String) := do
  let shown ← render message
  match paint message with
  | .ok () => return labelled level.name (linesOf shown)
  | .error _ => return []

/-! ## Printed values -/

/-- A value as it is printed: a text may have tags. -/
def shownValue : Value → Except Fault String
  | .text s => (render s).mapError Fault.unshown
  | v => v.say

/-- Whether a value is printed in a row of its own. -/
def standsAlone : Value → Bool
  | .list .. | .tuple _ | .object .. => true
  | _ => false

/-- Texts side by side, if there are any. -/
def row (texts : List String) : List String :=
  if texts.isEmpty then [] else [" ".intercalate texts]

/-- The rows of printed values, where `texts` wait for the end of their row; the first fault wins. -/
def rows (texts : List String) : List Value → Except Fault (List String)
  | [] => .ok (row texts)
  | v :: rest => do
    if standsAlone v then
      let own ← v.write
      let later ← rows [] rest
      return row texts ++ own :: later
    else
      let s ← shownValue v
      rows (texts ++ [s]) rest

/-- Applies the styles in a printed value. -/
def paintValue : Value → Except Fault Unit
  | .text s => (paint s).mapError Fault.unshown
  | _ => .ok ()

/-- The lines of printed values; nothing printed gives an empty line. -/
def printed (values : List Value) : Except Fault (List String) := do
  let shown ← rows [] values
  values.forM paintValue
  return (linesOf ("\n".intercalate shown)).map Text.stripEnd

/-! ## When a message is shown -/

theorem emit_of_render {level : Level} {message : String} {chars : List Char}
    (h : renderPieces [] (pieces message.toList) = .ok chars) : ∃ lines, emit level message = .ok lines := by
  have hrender : render message = .ok (String.ofList (chars.filter (!isDropped ·))) := by
    unfold render
    rw [h]
    rfl
  unfold emit
  rw [hrender]
  cases paint message <;> exact ⟨_, rfl⟩

theorem renderPieces_of_emit {level : Level} {message : String} {lines : List String}
    (h : emit level message = .ok lines) : ∃ chars, renderPieces [] (pieces message.toList) = .ok chars := by
  unfold emit render at h
  cases hchars : renderPieces [] (pieces message.toList) with
  | ok chars => exact ⟨chars, rfl⟩
  | error mistake => rw [hchars] at h; cases h

/-- Text without an opening bracket has no tag. -/
theorem tagAt_of_not_mem {cs : List Char} (h : '[' ∉ cs) : tagAt cs = none := by
  unfold tagAt
  split
  · exact absurd List.mem_cons_self h
  · rfl

theorem scan_of_not_mem (fuel : Nat) (run : List Char) (position : Nat) {cs : List Char} (h : '[' ∉ cs) :
    ∃ chars, scan fuel run position cs = [.plain chars] := by
  induction fuel generalizing run position cs with
  | zero => exact ⟨_, rfl⟩
  | succ fuel ih =>
    cases cs with
    | nil => exact ⟨_, rfl⟩
    | cons c rest =>
      have hdrop (n : Nat) : '[' ∉ (c :: rest).drop n := fun hmem => h (List.mem_of_mem_drop hmem)
      unfold scan
      dsimp only
      rw [tagAt_of_not_mem (hdrop _)]
      dsimp only
      split
      · exact ih _ _ fun hmem => h (List.mem_cons_of_mem _ hmem)
      · exact ih _ _ (hdrop _)

/-- A message without an opening bracket is shown. -/
theorem exists_emit_of_plain (level : Level) (text : String) (h : '[' ∉ text.toList) :
    ∃ lines, emit level text = .ok lines := by
  obtain ⟨chars, hchars⟩ := scan_of_not_mem (text.toList.length + 1) [] 0 h
  have hpieces : pieces text.toList = [.plain chars] := hchars
  have hrender : renderPieces [] (pieces text.toList) = .ok (unslashed chars ++ []) := by
    rw [hpieces]
    rfl
  exact emit_of_render hrender

theorem scan_plain {c : Char} (hc : isPlain c = true) (fuel : Nat) (run : List Char) (position : Nat)
    (cs : List Char) : scan (fuel + 1) run position (c :: cs) = scan fuel (c :: run) (position + 1) cs := by
  rw [isPlain, Bool.and_eq_true, bne_iff_ne, bne_iff_ne] at hc
  obtain ⟨hbracket, hslash⟩ := hc
  have hslashes : ((c :: cs).takeWhile (· == '\\')) = [] := by
    rw [List.takeWhile_cons_of_neg (by simpa using hslash)]
  have htag : tagAt (c :: cs) = none := by
    unfold tagAt
    split
    · rename_i heq
      exact absurd (List.cons.inj heq).1 hbracket
    · rfl
  rw [scan]
  simp only [hslashes, List.length_nil, List.drop_zero, htag, if_true]

/-- A plain start goes into the first run. -/
theorem scan_start {front : List Char} (hfront : front.all isPlain = true) (fuel : Nat) (run : List Char)
    (position : Nat) (cs : List Char) :
    scan (front.length + fuel) run position (front ++ cs)
      = scan fuel (front.reverse ++ run) (position + front.length) cs := by
  induction front generalizing run position with
  | nil => rw [List.length_nil, Nat.zero_add]; rfl
  | cons c rest ih =>
    rw [List.all_cons, Bool.and_eq_true] at hfront
    obtain ⟨hc, hrest⟩ := hfront
    rw [List.length_cons, Nat.add_right_comm, List.cons_append, scan_plain hc, ih hrest]
    simp only [List.reverse_cons, List.append_assoc, List.singleton_append]
    congr 1
    omega

/-- A tag opens or closes the same wherever it stands. -/
theorem step_position {opened after : List Tag} {inside : List Char} {p : Nat} (q : Nat)
    (h : step opened p inside = .ok after) : step opened q inside = .ok after := by
  unfold step at h ⊢
  split at h
  · dsimp only at h ⊢
    split at h
    · rename_i hname
      rw [if_pos hname]
      cases opened with
      | nil => cases h
      | cons t rest => exact h
    · rename_i hname
      rw [if_neg hname]
      cases hnormal : normalise (Text.strip (String.ofList ((tagName _).toList.drop 1))) with
      | error mistake => rw [hnormal] at h; cases h
      | ok name =>
        rw [hnormal] at h
        simp only [bind, Except.bind] at h ⊢
        cases hclose : closeNamed name opened with
        | none => rw [hclose] at h; cases h
        | some found => rw [hclose] at h; exact h
  · exact h

/-- Whether a text can be rendered is decided by its tags, not by what stands before them. -/
theorem exists_render_scan (fuel : Nat) {opened : List Tag} {run : List Char} {position : Nat} (run' : List Char)
    (position' : Nat) {cs shown : List Char} (h : renderPieces opened (scan fuel run position cs) = .ok shown) :
    ∃ shown', renderPieces opened (scan fuel run' position' cs) = .ok shown' := by
  induction fuel generalizing opened run position run' position' cs shown with
  | zero => exact ⟨_, rfl⟩
  | succ fuel ih =>
    cases cs with
    | nil => exact ⟨_, rfl⟩
    | cons c rest =>
      unfold scan at h ⊢
      dsimp only at h ⊢
      generalize ((c :: rest).takeWhile (· == '\\')).length = slashes at h ⊢
      cases htag : tagAt ((c :: rest).drop slashes) with
      | some found =>
        obtain ⟨inside, after⟩ := found
        rw [htag] at h
        simp only [renderPieces, bind, Except.bind] at h ⊢
        by_cases hodd : slashes % 2 = 1
        · simp only [if_pos hodd] at h ⊢
          cases hlater : renderPieces opened (scan fuel [] (position + slashes + inside.length + 2) after) with
          | error mistake => rw [hlater] at h; cases h
          | ok later =>
            obtain ⟨later', hlater'⟩ := ih [] (position' + slashes + inside.length + 2) hlater
            rw [hlater']
            exact ⟨_, rfl⟩
        · simp only [if_neg hodd] at h ⊢
          cases hstep : step opened (position + slashes) inside with
          | error mistake => rw [hstep] at h; cases h
          | ok opened' =>
            rw [hstep] at h
            rw [step_position _ hstep]
            dsimp only at h ⊢
            cases hlater : renderPieces opened' (scan fuel [] (position + slashes + inside.length + 2) after) with
            | error mistake => rw [hlater] at h; cases h
            | ok later =>
              obtain ⟨later', hlater'⟩ := ih [] (position' + slashes + inside.length + 2) hlater
              rw [hlater']
              exact ⟨_, rfl⟩
      | none =>
        rw [htag] at h
        dsimp only at h ⊢
        split
        · rename_i h0
          rw [if_pos h0] at h
          exact ih _ _ h
        · rename_i h0
          rw [if_neg h0] at h
          exact ih _ _ h

/-- Whether a message is shown does not depend on how it starts, if that is plain. -/
theorem exists_emit_of_start (level : Level) (front front' text : String) (lines : List String)
    (hfront : front.toList.all isPlain = true) (hfront' : front'.toList.all isPlain = true)
    (h : emit level (front ++ text) = .ok lines) : ∃ lines', emit level (front' ++ text) = .ok lines' := by
  have hpieces {start : String} (hstart : start.toList.all isPlain = true) : pieces (start ++ text).toList
      = scan (text.toList.length + 1) (start.toList.reverse ++ []) (0 + start.toList.length) text.toList := by
    unfold pieces
    rw [String.toList_append, List.length_append, Nat.add_assoc]
    exact scan_start hstart _ _ _ _
  obtain ⟨chars, hchars⟩ := renderPieces_of_emit h
  rw [hpieces hfront] at hchars
  obtain ⟨chars', hchars'⟩ :=
    exists_render_scan _ (front'.toList.reverse ++ []) (0 + front'.toList.length) hchars
  rw [← hpieces hfront'] at hchars'
  exact emit_of_render hchars'

end Markup

/-- The console that a program is run with. -/
def Console.standard : Console where
  escape := Markup.escape
  emit := Markup.emit
  emit_plain := Markup.exists_emit_of_plain
  emit_start := Markup.exists_emit_of_start

end EsmLift
