import EsmLift.Console.Markup
import EsmLift.Proofs.Pieces

/-!
# `Proofs.Markup` — a marked-up text taken apart

A text with style tags is read by a scanner that counts backslashes and keeps a position. Here it is taken apart
once: a **layout** is a list of tags, each with the plain run in front of it and its backslashes, and a last run.
Every text has a layout, the pieces that the scanner finds are those of the layout, and so what escaping does to a text
and what is left of it without its tags can be said part by part.

## Contents

* `Markup.IsTag`, `Markup.Tagless`: what is a tag, and text without one;
* `Markup.Layout`, `Markup.exists_layout`, `Markup.Layout.pieces_text`: layouts and the scanner;
* `Markup.Layout.escaped`: every tag with its backslashes doubled and one more;
* `Markup.Layout.bare`: the text without the tags that are not escaped; `Markup.Layout.bare_escaped`: escaped and then
  bared, a text is what it was.
-/

namespace EsmLift.Markup

/-! ## Tags -/

/-- What can stand between the brackets of a tag. -/
def IsTag (inside : List Char) : Prop :=
  ∃ c rest, inside = c :: rest ∧ startsTag c = true ∧ '[' ∉ rest ∧ ']' ∉ rest

/-- A text in which no tag stands. -/
def Tagless (cs : List Char) : Prop := ∀ before inside after, cs = before ++ (written inside ++ after) → ¬IsTag inside

theorem written_append (inside after : List Char) : written inside ++ after = '[' :: (inside ++ ']' :: after) := by
  simp [written]

namespace IsTag

variable {inside : List Char}

theorem no_open (h : IsTag inside) : '[' ∉ inside := by
  obtain ⟨c, rest, rfl, hc, hopen, _⟩ := h
  rw [List.mem_cons, not_or]
  refine ⟨?_, hopen⟩
  rintro rfl
  exact absurd hc (by decide)

theorem no_close (h : IsTag inside) : ']' ∉ inside := by
  obtain ⟨c, rest, rfl, hc, _, hclose⟩ := h
  rw [List.mem_cons, not_or]
  refine ⟨?_, hclose⟩
  rintro rfl
  exact absurd hc (by decide)

end IsTag

theorem drop_takeWhile_length (p : Char → Bool) (cs : List Char) :
    cs.drop (cs.takeWhile p).length = cs.dropWhile p := by
  have hsplit := List.takeWhile_append_dropWhile (p := p) (l := cs)
  calc cs.drop (cs.takeWhile p).length
      = (cs.takeWhile p ++ cs.dropWhile p).drop (cs.takeWhile p).length := by rw [hsplit]
    _ = cs.dropWhile p := List.drop_left

/-- Up to its first bracket a text is taken. -/
theorem takeWhile_unbracketed {rest after : List Char} (hopen : '[' ∉ rest) (hclose : ']' ∉ rest) :
    ((rest ++ ']' :: after).takeWhile fun d => d != '[' && d != ']') = rest := by
  rw [List.takeWhile_append_of_pos, List.takeWhile_cons_of_neg (by decide), List.append_nil]
  intro d hd
  rw [Bool.and_eq_true, bne_iff_ne, bne_iff_ne]
  exact ⟨fun h => hopen (h ▸ hd), fun h => hclose (h ▸ hd)⟩

/-- A tag at the front is found. -/
theorem tagAt_written {inside : List Char} (h : IsTag inside) (after : List Char) :
    tagAt (written inside ++ after) = some (inside, after) := by
  obtain ⟨c, rest, rfl, hc, hopen, hclose⟩ := h
  rw [written_append, List.cons_append, tagAt, if_pos hc]
  simp only [takeWhile_unbracketed hopen hclose, List.drop_left]

/-- What is found is a tag at the front. -/
theorem tagAt_some {cs inside after : List Char} (h : tagAt cs = some (inside, after)) :
    IsTag inside ∧ cs = written inside ++ after := by
  unfold tagAt at h
  split at h
  · rename_i c rest
    by_cases hc : startsTag c = true
    · rw [if_pos hc] at h
      dsimp only at h
      rw [drop_takeWhile_length] at h
      have hsplit := List.takeWhile_append_dropWhile (p := fun d => d != '[' && d != ']') (l := rest)
      have hfree (d : Char) (hd : d ∈ rest.takeWhile fun d => d != '[' && d != ']') : d ≠ '[' ∧ d ≠ ']' := by
        simpa using List.all_eq_true.mp List.all_takeWhile d hd
      split at h
      · rename_i after' heq
        cases h
        rw [heq] at hsplit
        refine ⟨⟨c, _, rfl, hc, fun hd => (hfree _ hd).1 rfl, fun hd => (hfree _ hd).2 rfl⟩, ?_⟩
        rw [written_append, List.cons_append, hsplit]
      · cases h
    · rw [if_neg hc] at h
      cases h
  · cases h

theorem tagAt_eq_none_iff {cs : List Char} :
    tagAt cs = none ↔ ∀ inside after, cs = written inside ++ after → ¬IsTag inside := by
  constructor
  · rintro h inside after rfl htag
    rw [tagAt_written htag] at h
    cases h
  · intro h
    cases htag : tagAt cs with
    | none => rfl
    | some found =>
      obtain ⟨inside, after⟩ := found
      obtain ⟨hinside, hcs⟩ := tagAt_some htag
      exact absurd hinside (h inside after hcs)

namespace Tagless

variable {a b : List Char}

theorem nil : Tagless [] := by
  intro before inside after h
  rw [written_append] at h
  simp at h

theorem left (h : Tagless (a ++ b)) : Tagless a := by
  rintro before inside after rfl
  refine h before inside (after ++ b) ?_
  simp only [List.append_assoc]

theorem right (h : Tagless (a ++ b)) : Tagless b := by
  rintro before inside after rfl
  exact h (a ++ before) inside after (List.append_assoc ..).symm

theorem tagAt_none (h : Tagless a) : tagAt a = none :=
  tagAt_eq_none_iff.mpr fun inside after => h [] inside after

/-- A tag in a text is at its front or behind its first character. -/
theorem cons {c : Char} (h : Tagless a) (hfront : tagAt (c :: a) = none) : Tagless (c :: a) := by
  intro before inside after heq
  cases before with
  | nil => exact tagAt_eq_none_iff.mp hfront inside after heq
  | cons d before => exact h before inside after (List.cons.inj heq).2

/-- Text without an opening bracket in front brings no tag. -/
theorem of_no_open (h : Tagless b) (ha : '[' ∉ a) : Tagless (a ++ b) := by
  induction a with
  | nil => exact h
  | cons c a ih =>
    rw [List.mem_cons, not_or] at ha
    refine (ih ha.2).cons (tagAt_eq_none_iff.mpr fun inside after heq => ?_)
    rw [written_append] at heq
    exact absurd (List.cons.inj heq).1.symm ha.1

/-- Where a tag that starts in `a` can go on: through text without brackets, to a closing one. -/
theorem straddle {before inside after : List Char} (ha : Tagless a) (hb : Tagless b) (htag : IsTag inside)
    (h : a ++ b = before ++ (written inside ++ after)) :
    ∃ y z w, a = before ++ '[' :: y ∧ b = z ++ ']' :: w ∧ inside = y ++ z := by
  rcases List.append_eq_append_iff.mp h with ⟨u, hbefore, hb'⟩ | ⟨u, ha', hrest⟩
  · exact absurd htag (hb u inside after hb')
  · rw [written_append] at hrest
    cases u with
    | nil => exact absurd htag (hb [] inside after (by rw [written_append]; exact hrest.symm))
    | cons c u =>
      obtain ⟨hc, htail⟩ := List.cons.inj hrest
      subst hc
      rcases List.append_eq_append_iff.mp htail with ⟨z, hu, hz⟩ | ⟨z, hinside, hz⟩
      · -- the tag would end before `a` does
        cases z with
        | nil =>
          rw [List.append_nil] at hu
          exact ⟨u, [], after, ha', hz.symm, by rw [hu, List.append_nil]⟩
        | cons d z =>
          obtain ⟨rfl, hz⟩ := List.cons.inj hz
          refine absurd htag (ha before inside z ?_)
          rw [ha', hu, written_append]
      · exact ⟨u, z, after, ha', hz, hinside⟩

/-- Text without a closing bracket behind brings no tag. -/
theorem of_no_close (h : Tagless a) (hb : ']' ∉ b) : Tagless (a ++ b) := by
  intro before inside after heq htag
  have hb' : Tagless b := by
    rintro before inside after rfl _
    rw [written_append] at hb
    exact hb (by simp)
  obtain ⟨y, z, w, _, hz, _⟩ := straddle h hb' htag heq
  exact hb (by rw [hz]; simp)

end Tagless

/-! ## Layouts -/

/-- A tag with the run and the backslashes in front of it. -/
structure Segment where
  run : List Char
  slashes : Nat
  inside : List Char

def Segment.text (s : Segment) : List Char := s.run ++ (List.replicate s.slashes '\\' ++ written s.inside)

/-- The run has no tag, and ends where the backslashes of the tag start. -/
structure Segment.Valid (s : Segment) : Prop where
  tagless : Tagless s.run
  ends : s.run.getLast? ≠ some '\\'
  tag : IsTag s.inside

/-- A text taken apart. -/
structure Layout where
  segments : List Segment
  last : List Char

namespace Layout

/-- The text of a layout. -/
def text (l : Layout) : List Char := l.segments.flatMap Segment.text ++ l.last

theorem text_cons (s : Segment) (segments : List Segment) (last : List Char) :
    text ⟨s :: segments, last⟩
      = s.run ++ (List.replicate s.slashes '\\' ++ (written s.inside ++ text ⟨segments, last⟩)) := by
  simp only [text, Segment.text, List.flatMap_cons, List.append_assoc]

structure Valid (l : Layout) : Prop where
  segments : ∀ s ∈ l.segments, s.Valid
  last : Tagless l.last

/-- A layout with more text in front. -/
def behind (front : List Char) : Layout → Layout
  | ⟨[], last⟩ => ⟨[], front ++ last⟩
  | ⟨s :: segments, last⟩ => ⟨{ s with run := front ++ s.run } :: segments, last⟩

theorem text_behind (front : List Char) (l : Layout) : (l.behind front).text = front ++ l.text := by
  obtain ⟨segments, last⟩ := l
  cases segments with
  | nil => rfl
  | cons s segments =>
    simp only [behind, text, Segment.text, List.flatMap_cons, List.append_assoc]

/-- The first run of a layout. -/
def firstRun : Layout → List Char
  | ⟨[], last⟩ => last
  | ⟨s :: _, _⟩ => s.run

theorem Valid.behind {front : List Char} {l : Layout} (h : l.Valid) (htagless : Tagless (front ++ l.firstRun))
    (hends : front.getLast? ≠ some '\\') : (l.behind front).Valid := by
  obtain ⟨segments, last⟩ := l
  cases segments with
  | nil => exact ⟨fun s hs => absurd hs List.not_mem_nil, htagless⟩
  | cons s segments =>
    obtain ⟨hs, hsegments⟩ := List.forall_mem_cons.mp h.segments
    refine ⟨List.forall_mem_cons.mpr ⟨⟨htagless, ?_, hs.tag⟩, hsegments⟩, h.last⟩
    show (front ++ s.run).getLast? ≠ some '\\'
    rw [List.getLast?_append]
    cases hlast : s.run.getLast? with
    | none => exact hends
    | some c =>
      have := hs.ends
      rwa [hlast] at this

theorem Valid.firstRun_tagless {l : Layout} (h : l.Valid) : Tagless l.firstRun := by
  obtain ⟨segments, last⟩ := l
  cases segments with
  | nil => exact h.last
  | cons s segments => exact (h.segments s List.mem_cons_self).tagless

end Layout

/-- The first tag of a text, if there is one. -/
theorem exists_first_tag (cs : List Char) :
    Tagless cs ∨ ∃ before inside after, cs = before ++ (written inside ++ after) ∧ IsTag inside ∧ Tagless before := by
  induction cs with
  | nil => exact .inl .nil
  | cons c cs ih =>
    cases htag : tagAt (c :: cs) with
    | some found =>
      obtain ⟨inside, after⟩ := found
      obtain ⟨hinside, hcs⟩ := tagAt_some htag
      exact .inr ⟨[], inside, after, hcs, hinside, .nil⟩
    | none =>
      rcases ih with hnone | ⟨before, inside, after, rfl, hinside, hbefore⟩
      · exact .inl (hnone.cons htag)
      · refine .inr ⟨c :: before, inside, after, rfl, hinside, hbefore.cons ?_⟩
        refine tagAt_eq_none_iff.mpr fun inside' after' heq => ?_
        refine tagAt_eq_none_iff.mp htag inside' (after' ++ (written inside ++ after)) ?_
        rw [← List.append_assoc (written inside'), ← heq]
        rfl

/-- The backslashes at the end of a text. -/
theorem exists_slashes (cs : List Char) :
    ∃ run slashes, cs = run ++ List.replicate slashes '\\' ∧ run.getLast? ≠ some '\\' := by
  generalize hn : cs.length = n
  induction n generalizing cs with
  | zero => exact ⟨[], 0, List.length_eq_zero_iff.mp hn, nofun⟩
  | succ n ih =>
    rcases List.eq_nil_or_concat cs with rfl | ⟨front, c, rfl⟩
    · cases hn
    · by_cases hc : c = '\\'
      · obtain ⟨run, slashes, hfront, hends⟩ := ih front (by simpa using hn)
        refine ⟨run, slashes + 1, ?_, hends⟩
        rw [List.concat_eq_append, hfront, hc, List.append_assoc, ← List.replicate_succ']
      · refine ⟨front ++ [c], 0, by simp, ?_⟩
        rw [List.getLast?_append_of_ne_nil _ (by simp)]
        simpa using hc

/-- **Every text has a layout.** -/
theorem exists_layout (cs : List Char) : ∃ l : Layout, l.Valid ∧ l.text = cs := by
  generalize hn : cs.length = n
  induction n using Nat.strongRecOn generalizing cs with
  | ind n ih =>
    rcases exists_first_tag cs with hnone | ⟨before, inside, after, rfl, hinside, hbefore⟩
    · exact ⟨⟨[], cs⟩, ⟨fun s hs => absurd hs List.not_mem_nil, hnone⟩, rfl⟩
    · obtain ⟨run, slashes, rfl, hends⟩ := exists_slashes before
      obtain ⟨l, hl, htext⟩ := ih after.length (by simp [written] at hn; omega) after rfl
      refine ⟨⟨⟨run, slashes, inside⟩ :: l.segments, l.last⟩, ⟨?_, hl.last⟩, ?_⟩
      · exact List.forall_mem_cons.mpr ⟨⟨hbefore.left, hends, hinside⟩, hl.segments⟩
      · rw [Layout.text_cons, ← htext, List.append_assoc]

/-! ## The scanner -/

/-- One step of the scanner. -/
theorem scan_cons (fuel : Nat) (run : List Char) (position : Nat) (c : Char) (rest : List Char) :
    scan (fuel + 1) run position (c :: rest) =
      match tagAt ((c :: rest).dropWhile (· == '\\')) with
      | some (inside, after) =>
        .plain run.reverse ::
          .tag ((c :: rest).takeWhile (· == '\\')).length
            (position + ((c :: rest).takeWhile (· == '\\')).length) inside ::
            scan fuel [] (position + ((c :: rest).takeWhile (· == '\\')).length + inside.length + 2) after
      | none =>
        if ((c :: rest).takeWhile (· == '\\')).length = 0 then scan fuel (c :: run) (position + 1) rest
        else scan fuel (List.replicate ((c :: rest).takeWhile (· == '\\')).length '\\' ++ run)
          (position + ((c :: rest).takeWhile (· == '\\')).length) ((c :: rest).dropWhile (· == '\\')) := by
  rw [← drop_takeWhile_length]
  rfl

/-- Fuel that suffices gives one result. -/
theorem scan_fuel {fuel fuel' : Nat} (run : List Char) (position : Nat) {cs : List Char} (h : cs.length < fuel)
    (h' : cs.length < fuel') : scan fuel run position cs = scan fuel' run position cs := by
  induction fuel generalizing fuel' run position cs with
  | zero => exact absurd h (Nat.not_lt_zero _)
  | succ fuel ih =>
    cases fuel' with
    | zero => exact absurd h' (Nat.not_lt_zero _)
    | succ fuel' =>
      cases cs with
      | nil => rw [scan, scan]
      | cons c rest =>
        rw [List.length_cons] at h h'
        have hle : ((c :: rest).dropWhile (· == '\\')).length ≤ rest.length + 1 :=
          (List.dropWhile_suffix _).length_le
        rw [scan_cons, scan_cons]
        cases htag : tagAt ((c :: rest).dropWhile (· == '\\')) with
        | some found =>
          obtain ⟨inside, after⟩ := found
          have hafter := congrArg List.length (tagAt_some htag).2
          rw [written_append, List.length_cons, List.length_append, List.length_cons] at hafter
          dsimp only
          rw [ih _ _ (by omega) (by omega : after.length < fuel')]
        | none =>
          dsimp only
          split
          · exact ih _ _ (by omega) (by omega)
          · rename_i hne
            have hsplit := congrArg List.length
              (List.takeWhile_append_dropWhile (p := (· == '\\')) (l := c :: rest))
            rw [List.length_append, List.length_cons] at hsplit
            exact ih _ _ (by omega) (by omega)

/-- The scanner with all the fuel it needs. -/
def scanAll (run : List Char) (position : Nat) (cs : List Char) : List Piece := scan (cs.length + 1) run position cs

theorem dropWhile_slashes (slashes : Nat) {cs : List Char} (h : cs.head? ≠ some '\\') :
    (List.replicate slashes '\\' ++ cs).dropWhile (· == '\\') = cs := by
  induction slashes with
  | zero =>
    cases cs with
    | nil => rfl
    | cons c cs =>
      have hc : c ≠ '\\' := fun heq => h (by rw [heq]; rfl)
      exact List.dropWhile_cons_of_neg (by simpa using hc)
  | succ slashes ih =>
    rw [List.replicate_succ, List.cons_append, List.dropWhile_cons_of_pos (by decide), ih]

theorem takeWhile_slashes (slashes : Nat) {cs : List Char} (h : cs.head? ≠ some '\\') :
    ((List.replicate slashes '\\' ++ cs).takeWhile (· == '\\')) = List.replicate slashes '\\' := by
  induction slashes with
  | zero =>
    cases cs with
    | nil => rfl
    | cons c cs =>
      have hc : c ≠ '\\' := fun heq => h (by rw [heq]; rfl)
      exact List.takeWhile_cons_of_neg (by simpa using hc)
  | succ slashes ih =>
    rw [List.replicate_succ, List.cons_append, List.takeWhile_cons_of_pos (by decide), ih]

theorem exists_front_slashes (cs : List Char) :
    ∃ slashes rest, cs = List.replicate slashes '\\' ++ rest ∧ rest.head? ≠ some '\\' := by
  induction cs with
  | nil => exact ⟨0, [], rfl, nofun⟩
  | cons c cs ih =>
    by_cases hc : c = '\\'
    · obtain ⟨slashes, rest, hcs, hhead⟩ := ih
      exact ⟨slashes + 1, rest, by rw [hc, hcs, List.replicate_succ]; rfl, hhead⟩
    · exact ⟨0, c :: cs, rfl, by simpa using hc⟩

/-- A character that is no backslash goes into the run, if no tag starts with it. -/
theorem scanAll_char (run : List Char) (position : Nat) {c : Char} {cs : List Char} (hc : c ≠ '\\')
    (h : tagAt (c :: cs) = none) : scanAll run position (c :: cs) = scanAll (c :: run) (position + 1) cs := by
  unfold scanAll
  rw [scan_cons, List.takeWhile_cons_of_neg (by simpa using hc), List.dropWhile_cons_of_neg (by simpa using hc), h]
  dsimp only
  rw [List.length_nil, if_pos rfl]
  rfl

/-- Backslashes go into the run, if no tag stands behind them. -/
theorem scanAll_slashes (run : List Char) (position slashes : Nat) {cs : List Char} (hhead : cs.head? ≠ some '\\')
    (h : tagAt cs = none) : scanAll run position (List.replicate slashes '\\' ++ cs)
      = scanAll (List.replicate slashes '\\' ++ run) (position + slashes) cs := by
  cases slashes with
  | zero => rfl
  | succ slashes =>
    have hdrop := dropWhile_slashes (slashes + 1) hhead
    have htake := takeWhile_slashes (slashes + 1) hhead
    unfold scanAll
    rw [List.replicate_succ, List.cons_append] at hdrop htake ⊢
    rw [scan_cons, hdrop, htake, h]
    dsimp only
    rw [← List.replicate_succ, List.length_replicate, if_neg (Nat.succ_ne_zero _)]
    refine scan_fuel _ _ ?_ (Nat.lt_succ_self _)
    rw [List.length_cons, List.length_append]
    omega

/-- A tag ends the run. -/
theorem scanAll_tag (run : List Char) (position slashes : Nat) {inside : List Char} (h : IsTag inside)
    (after : List Char) : scanAll run position (List.replicate slashes '\\' ++ (written inside ++ after))
      = .plain run.reverse :: .tag slashes (position + slashes) inside ::
        scanAll [] (position + slashes + inside.length + 2) after := by
  have hhead : (written inside ++ after).head? ≠ some '\\' := by
    rw [written_append, List.head?_cons]
    decide
  have hdrop := dropWhile_slashes slashes hhead
  have htake := takeWhile_slashes slashes hhead
  obtain ⟨c, rest, hcons⟩ : ∃ c rest, List.replicate slashes '\\' ++ (written inside ++ after) = c :: rest := by
    cases slashes with
    | zero => exact ⟨_, _, written_append inside after⟩
    | succ slashes => exact ⟨_, _, rfl⟩
  have hlength := congrArg List.length hcons
  rw [List.length_append, written_append, List.length_cons, List.length_cons, List.length_append, List.length_cons]
    at hlength
  unfold scanAll
  rw [hcons] at hdrop htake ⊢
  rw [scan_cons, hdrop, htake, tagAt_written h]
  dsimp only
  rw [List.length_replicate, scan_fuel _ _ (by rw [List.length_cons]; omega) (Nat.lt_succ_self after.length)]

/-- **A run without tags is taken over**, up to a tag or to the end. -/
theorem scanAll_run (run : List Char) (position : Nat) {r tail : List Char}
    (hno : ∀ y z, r = y ++ z → z ≠ [] → tagAt (z ++ tail) = none) (hends : tail = [] ∨ r.getLast? ≠ some '\\') :
    scanAll run position (r ++ tail) = scanAll (r.reverse ++ run) (position + r.length) tail := by
  -- backslashes are taken at once, so the induction is on the length of the run
  generalize hn : r.length = n
  induction n using Nat.strongRecOn generalizing r run position with
  | ind n ih =>
    obtain ⟨slashes, rest, rfl, hhead⟩ := exists_front_slashes r
    cases rest with
    | nil =>
      rcases hends with rfl | hends
      · rw [List.append_nil, scanAll_slashes run position slashes hhead rfl, ← hn]
        simp
      · cases slashes with
        | zero => rw [← hn]; rfl
        | succ slashes =>
          rw [List.append_nil, List.replicate_succ', List.getLast?_concat] at hends
          exact absurd rfl hends
    | cons c rest =>
      have hc : c ≠ '\\' := fun heq => hhead (by rw [heq]; rfl)
      have hnone : tagAt (c :: (rest ++ tail)) = none := hno _ _ rfl (by simp)
      rw [List.length_append, List.length_replicate, List.length_cons] at hn
      have hrest := ih rest.length (by omega) (c :: (List.replicate slashes '\\' ++ run)) (position + slashes + 1)
        (fun y z hrest hz => hno (List.replicate slashes '\\' ++ c :: y) z (by rw [hrest]; simp) hz)
        (by
          refine hends.imp id fun hends hlast => hends ?_
          rw [List.getLast?_append_of_ne_nil _ (by simp), List.getLast?_cons, hlast]
          rfl)
        rfl
      rw [List.append_assoc, List.cons_append,
        scanAll_slashes run position slashes (by simpa using hc) hnone, scanAll_char _ _ hc hnone, hrest]
      have hposition : position + slashes + 1 + rest.length = position + n := by omega
      rw [hposition]
      simp [List.reverse_replicate]

/-- Behind backslashes an opening bracket comes first. -/
theorem slashes_bracket_ne {slashes : Nat} {t u w : List Char} (hu : '[' ∉ u) :
    List.replicate slashes '\\' ++ '[' :: t ≠ u ++ ']' :: w := by
  induction slashes generalizing u with
  | zero =>
    intro h
    cases u with
    | nil => exact absurd (List.cons.inj h).1 (by decide)
    | cons c u => exact hu (by rw [← (List.cons.inj h).1]; exact List.mem_cons_self)
  | succ slashes ih =>
    intro h
    cases u with
    | nil => exact absurd (List.cons.inj h).1 (by decide)
    | cons c u => exact ih (fun hmem => hu (List.mem_cons_of_mem _ hmem)) (List.cons.inj h).2

/-- No tag starts in the run in front of a tag. -/
theorem Segment.Valid.tagAt_none {s : Segment} (h : s.Valid) (after : List Char) {y z : List Char} (hrun : s.run = y ++ z)
    (hz : z ≠ []) : tagAt (z ++ (List.replicate s.slashes '\\' ++ (written s.inside ++ after))) = none := by
  refine tagAt_eq_none_iff.mpr fun inside after' heq htag => ?_
  have htagless : Tagless z := (hrun ▸ h.tagless).right
  rcases List.append_eq_append_iff.mp heq with ⟨u, hinside, hu⟩ | ⟨u, hz', _⟩
  · obtain ⟨c, z, rfl⟩ := List.exists_cons_of_ne_nil hz
    rcases List.eq_nil_or_concat u with rfl | ⟨u, d, rfl⟩
    · exact htagless [] inside [] (by rw [List.append_nil, hinside, List.append_nil]; rfl) htag
    · -- the inside would go on to the bracket of the tag
      rw [List.concat_eq_append, List.cons_append, ← List.append_assoc] at hinside
      obtain ⟨hsame, hd⟩ := List.append_inj' (List.cons.inj hinside).2 rfl
      have hopen : '[' ∉ u := fun hmem => htag.no_open (by rw [hsame]; exact List.mem_append_right _ hmem)
      rw [List.concat_eq_append, ← (List.cons.inj hd).1, List.append_assoc, written_append] at hu
      exact slashes_bracket_ne hopen hu
  · exact htagless [] inside u hz' htag

namespace Layout

/-- The pieces of segments at a position, and of the last run. -/
def piecesOf (last : List Char) (position : Nat) : List Segment → List Piece
  | [] => [.plain last]
  | s :: segments =>
    .plain s.run :: .tag s.slashes (position + s.run.length + s.slashes) s.inside ::
      piecesOf last (position + s.run.length + s.slashes + s.inside.length + 2) segments

/-- **The scanner finds the parts of the layout.** -/
theorem scanAll_text {segments : List Segment} {last : List Char} (h : Valid ⟨segments, last⟩) (position : Nat) :
    scanAll [] position (text ⟨segments, last⟩) = piecesOf last position segments := by
  induction segments generalizing position with
  | nil =>
    have hno (y z : List Char) (hlast : last = y ++ z) (_ : z ≠ []) : tagAt (z ++ []) = none := by
      have htagless : Tagless (y ++ z) := hlast ▸ h.last
      rw [List.append_nil]
      exact htagless.right.tagAt_none
    have hrun := scanAll_run [] position hno (.inl rfl)
    rw [List.append_nil, List.append_nil] at hrun
    refine hrun.trans ?_
    simp [scanAll, scan, piecesOf]
  | cons s segments ih =>
    obtain ⟨hs, hsegments⟩ := List.forall_mem_cons.mp h.segments
    rw [text_cons, scanAll_run [] position (fun y z => hs.tagAt_none _) (.inr hs.ends), scanAll_tag _ _ _ hs.tag,
      ih ⟨hsegments, h.last⟩]
    simp [piecesOf]

theorem pieces_text {l : Layout} (h : l.Valid) : pieces l.text = piecesOf l.last 0 l.segments := scanAll_text h 0

end Layout

/-! ## Escaping -/

/-- A segment with its tag escaped. -/
def Segment.escaped (s : Segment) : Segment := { s with slashes := 2 * s.slashes + 1 }

/-- A segment without its tag, unless the tag is escaped. Backslashes in front of a tag come in pairs. -/
def Segment.bare (s : Segment) : List Char :=
  s.run ++ (List.replicate (s.slashes / 2) '\\' ++ if s.slashes % 2 = 1 then written s.inside else [])

theorem Segment.bare_escaped (s : Segment) : s.escaped.bare = s.text := by
  have hhalf : (2 * s.slashes + 1) / 2 = s.slashes := by omega
  have hodd : (2 * s.slashes + 1) % 2 = 1 := by omega
  simp only [bare, escaped, hhalf, hodd, if_true, text]

/-- A segment that was not escaped loses its tag, or backslashes in front of it. -/
theorem Segment.length_bare_lt (s : Segment) : s.bare.length < s.text.length := by
  unfold bare text written
  split <;> simp only [List.length_append, List.length_cons, List.length_replicate, List.length_nil] <;> omega

namespace Layout

/-- A layout with its tags escaped. -/
def escaped (l : Layout) : Layout := ⟨l.segments.map Segment.escaped, l.last⟩

/-- The text of a layout without the tags that are not escaped. -/
def bare (l : Layout) : List Char := l.segments.flatMap Segment.bare ++ l.last

/-- All tags are escaped. -/
def IsEscaped (l : Layout) : Prop := ∀ s ∈ l.segments, s.slashes % 2 = 1

theorem isEscaped_escaped (l : Layout) : l.escaped.IsEscaped := by
  intro s hs
  obtain ⟨s, _, rfl⟩ := List.mem_map.mp hs
  show (2 * s.slashes + 1) % 2 = 1
  omega

theorem flatMap_bare_escaped (l : Layout) :
    l.escaped.segments.flatMap Segment.bare = l.segments.flatMap Segment.text := by
  simp only [escaped, List.flatMap_map, Segment.bare_escaped]

/-- **Escaped and then bared, a text is what it was.** -/
theorem bare_escaped (l : Layout) : l.escaped.bare = l.text := by
  rw [bare, flatMap_bare_escaped]
  rfl

theorem Valid.escaped {l : Layout} (h : l.Valid) : l.escaped.Valid := by
  refine ⟨fun s hs => ?_, h.last⟩
  obtain ⟨s', hs', rfl⟩ := List.mem_map.mp hs
  obtain ⟨htagless, hends, htag⟩ := h.segments s' hs'
  exact ⟨htagless, hends, htag⟩

theorem firstRun_escaped (l : Layout) : l.escaped.firstRun = l.firstRun := by
  obtain ⟨segments, last⟩ := l
  cases segments <;> rfl

theorem escaped_behind (front : List Char) (l : Layout) : (l.behind front).escaped = l.escaped.behind front := by
  obtain ⟨segments, last⟩ := l
  cases segments <;> rfl

theorem bare_behind (front : List Char) (l : Layout) : (l.behind front).bare = front ++ l.bare := by
  obtain ⟨segments, last⟩ := l
  cases segments with
  | nil => rfl
  | cons s segments => simp only [behind, bare, Segment.bare, List.flatMap_cons, List.append_assoc]

theorem IsEscaped.behind {l : Layout} (h : l.IsEscaped) (front : List Char) : (l.behind front).IsEscaped := by
  obtain ⟨segments, last⟩ := l
  cases segments with
  | nil => exact h
  | cons s segments =>
    obtain ⟨hs, hsegments⟩ := List.forall_mem_cons.mp h
    exact List.forall_mem_cons.mpr ⟨hs, hsegments⟩

theorem flatMap_escaped (last : List Char) (position : Nat) (segments : List Segment) :
    (piecesOf last position segments).flatMap Piece.escaped = (Layout.escaped ⟨segments, last⟩).text := by
  induction segments generalizing position with
  | nil => simp [piecesOf, Piece.escaped, escaped, text]
  | cons s segments ih =>
    rw [piecesOf, List.flatMap_cons, List.flatMap_cons, ih]
    simp [escaped, text, Piece.escaped, Segment.text, Segment.escaped]

/-! ## More text -/

/-- A layout with more text at the end. -/
def extend (l : Layout) (more : List Char) : Layout := ⟨l.segments, l.last ++ more⟩

theorem text_extend (l : Layout) (more : List Char) : (l.extend more).text = l.text ++ more :=
  (List.append_assoc ..).symm

theorem bare_extend (l : Layout) (more : List Char) : (l.extend more).bare = l.bare ++ more :=
  (List.append_assoc ..).symm

theorem Valid.extend {l : Layout} (h : l.Valid) {more : List Char} (hmore : ']' ∉ more) : (l.extend more).Valid :=
  ⟨h.segments, h.last.of_no_close hmore⟩

/-- Segments in front of a layout. -/
def after (segments : List Segment) (l : Layout) : Layout := ⟨segments ++ l.segments, l.last⟩

theorem text_after (segments : List Segment) (l : Layout) :
    (l.after segments).text = segments.flatMap Segment.text ++ l.text := by
  simp only [after, text, List.flatMap_append, List.append_assoc]

theorem bare_after (segments : List Segment) (l : Layout) :
    (l.after segments).bare = segments.flatMap Segment.bare ++ l.bare := by
  simp only [after, bare, List.flatMap_append, List.append_assoc]

theorem Valid.after {segments : List Segment} {l : Layout} (h : l.Valid) (hsegments : ∀ s ∈ segments, s.Valid) :
    (l.after segments).Valid :=
  ⟨List.forall_mem_append.mpr ⟨hsegments, h.segments⟩, h.last⟩

end Layout
end EsmLift.Markup
