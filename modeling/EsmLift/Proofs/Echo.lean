import EsmLift.Diagnostics
import EsmLift.Proofs.Markup
import EsmLift.Proofs.Noninterference
import EsmLift.Standard

/-!
# `Proofs.Echo` — what a warning looks like on the console

An echoing sink prints a line `number: message (category)`. Message and category are escaped one by one and then
joined, and the whole goes to the console as markup. What a console does with markup is not known here; it is assumed
to leave out tags, and to undo what escaping does (`Console.Assumed`). Then each of the two texts would be printed as it
is. But what is no tag in either of them may become one when they are joined: a tag **straddles** them. That is the only
thing that goes wrong, on every console that does what is assumed.

## Contents

* `Console.Assumed`: what is assumed of a console;
* `Markup.Straddles`, `Markup.JointLayout`: two escaped texts, joined;
* `Diagnostics.echoLines_iff`: the line of a warning;
* `Console.ideal`: a console that does what is assumed with every text;
* `Diagnostics.warn_literal_iff`, `Diagnostics.warn_not_literal`.
-/

namespace EsmLift

open Markup

/-- What is assumed of a console about the texts that are `ordinary`, such as those without line breaks and emoji codes.
In front of a message it prints the label of the level. -/
structure Console.Assumed (c : Console) (ordinary : List Char → Prop) (label : Console.Level → String) : Prop where
  /-- Escaping doubles the backslashes in front of each tag, and puts one more there. -/
  escape : ∀ l : Markup.Layout, l.Valid → ordinary l.text → (c.escape (String.ofList l.text)).toList = l.escaped.text
  /-- What is printed of a message is its text without the tags that are not escaped. -/
  printed : ∀ (l : Markup.Layout) level lines, l.Valid → ordinary l.text →
    c.emit level (String.ofList l.text) = .ok lines →
    lines = [label level ++ String.ofList l.bare]
  /-- A message is printed if all its tags are escaped. -/
  emits : ∀ (l : Markup.Layout) level, l.Valid → ordinary l.text → l.IsEscaped →
    ∃ lines, c.emit level (String.ofList l.text) = .ok lines

/-! ## Two escaped texts, joined -/

namespace Markup

/-- A tag that starts in the first text and ends in the second, when the second follows in parentheses. -/
def Straddles (a b : List Char) : Prop :=
  ∃ x y z w, a = x ++ '[' :: y ∧ b = z ++ ']' :: w ∧ IsTag (y ++ (' ' :: '(' :: z))

/-- Two texts, the second in parentheses. -/
def joint (a b : List Char) : List Char := a ++ (' ' :: '(' :: (b ++ [')']))

/-- Where no tag straddles two texts the run between them has none. -/
theorem tagless_between {la lb : Layout} (ha : la.Valid) (hb : lb.Valid) (hno : ¬Straddles la.text lb.text) :
    Tagless ((la.last ++ [' ', '(']) ++ lb.firstRun) := by
  have hfront : Tagless (la.last ++ [' ', '(']) := ha.last.of_no_close (by decide)
  intro before inside after heq htag
  obtain ⟨y', z, w, hy', hz, rfl⟩ := Tagless.straddle hfront hb.firstRun_tagless htag heq
  -- the bracket stands in the last run of the first text, not in what is between
  obtain ⟨y, hlast, rfl⟩ : ∃ y, la.last = before ++ '[' :: y ∧ y' = y ++ [' ', '('] := by
    rcases List.append_eq_append_iff.mp hy' with ⟨u, _, hu⟩ | ⟨u, hlast, hu⟩
    · exact absurd (show '[' ∈ [' ', '('] by rw [hu]; simp) (by decide)
    · cases u with
      | nil => exact absurd (show '[' ∈ [' ', '('] by rw [← List.nil_append [' ', '('], ← hu]; simp) (by decide)
      | cons d u =>
        obtain ⟨rfl, hu'⟩ := List.cons.inj hu
        exact ⟨u, hlast, hu'⟩
  obtain ⟨more, hmore⟩ : ∃ more, lb.text = lb.firstRun ++ more := by
    obtain ⟨segments, last⟩ := lb
    cases segments with
    | nil => exact ⟨[], (List.append_nil _).symm⟩
    | cons s segments => exact ⟨_, Layout.text_cons s segments last⟩
  refine hno ⟨la.segments.flatMap Segment.text ++ before, y, z, w ++ more, ?_, ?_, ?_⟩
  · rw [Layout.text, hlast, List.append_assoc]
  · rw [hmore, hz, List.append_assoc]
    rfl
  · simpa only [List.append_assoc, List.cons_append, List.nil_append] using htag

/-- Two texts `a` and `b`, and a layout of the two when they are escaped and then joined. -/
structure JointLayout (a b : List Char) (la lb l : Layout) : Prop where
  first : la.Valid
  first_text : la.text = a
  second : lb.Valid
  second_text : lb.text = b
  valid : l.Valid
  text : l.text = joint la.escaped.text lb.escaped.text

/-- **Where no tag straddles two texts, all tags are still escaped**, and both texts are what they were. -/
theorem exists_jointLayout_of_not_straddles {a b : List Char} (hno : ¬Straddles a b) :
    ∃ la lb l, JointLayout a b la lb l ∧ l.IsEscaped ∧ l.bare = joint a b := by
  obtain ⟨la, ha, rfl⟩ := exists_layout a
  obtain ⟨lb, hb, rfl⟩ := exists_layout b
  have hends : (la.last ++ [' ', '(']).getLast? ≠ some '\\' := by
    rw [List.getLast?_append_of_ne_nil _ (by decide)]
    decide
  have hbehind : (lb.escaped.behind (la.last ++ [' ', '('])).Valid :=
    hb.escaped.behind (by rw [lb.firstRun_escaped]; exact tagless_between ha hb hno) hends
  have hclose : ']' ∉ [')'] := by decide
  have hvalid := (hbehind.extend hclose).after ha.escaped.segments
  refine ⟨la, lb, _, ⟨ha, rfl, hb, rfl, hvalid, ?_⟩, ?_, ?_⟩
  · rw [Layout.text_after, Layout.text_extend, Layout.text_behind, joint]
    simp [Layout.text, Layout.escaped]
  · exact List.forall_mem_append.mpr ⟨la.isEscaped_escaped, lb.isEscaped_escaped.behind _⟩
  · rw [Layout.bare_after, Layout.bare_extend, Layout.bare_behind, lb.bare_escaped, ← la.bare_escaped, joint]
    simp [Layout.bare, Layout.escaped]

/-- **Where a tag straddles two texts, something is lost**: the tag, or some of the backslashes in front of it. -/
theorem exists_jointLayout_of_straddles {a b : List Char} (h : Straddles a b) :
    ∃ la lb l, JointLayout a b la lb l ∧ l.bare ≠ joint a b := by
  obtain ⟨x, y, z, w, rfl, rfl, htag⟩ := h
  obtain ⟨lx, hx, rfl⟩ := exists_layout x
  obtain ⟨lw, hw, rfl⟩ := exists_layout w
  obtain ⟨r, slashes, hlast, hends⟩ := exists_slashes lx.last
  have hy : ']' ∉ '[' :: y := by
    have hclose := htag.no_close
    simp only [List.mem_append, not_or] at hclose
    simpa using hclose.1
  have hz : '[' ∉ z ++ [']'] := by
    have hopen := htag.no_open
    simp only [List.mem_append, List.mem_cons, not_or] at hopen
    simpa using hopen.2.2.2
  -- the tag starts in the last run of the one text and ends in the first run of the other
  have ha : (lx.extend ('[' :: y)).Valid := hx.extend hy
  have hb : (lw.behind (z ++ [']'])).Valid :=
    hw.behind (hw.firstRun_tagless.of_no_open hz) (by rw [List.getLast?_concat]; decide)
  have hr : Tagless r := (hlast ▸ hx.last).left
  have hvalid : ((lw.escaped.extend [')']).after
      (lx.escaped.segments ++ [⟨r, slashes, y ++ (' ' :: '(' :: z)⟩])).Valid := by
    refine (hw.escaped.extend (by decide)).after (List.forall_mem_append.mpr ⟨hx.escaped.segments, ?_⟩)
    exact List.forall_mem_singleton.mpr (Segment.Valid.mk hr hends htag)
  refine ⟨_, _, _, ⟨ha, Layout.text_extend .., hb, by rw [Layout.text_behind]; simp, hvalid, ?_⟩, ?_⟩
  · rw [Layout.escaped_behind, Layout.text_behind, Layout.text_after, Layout.text_extend, joint]
    simp [Layout.text, Layout.escaped, Layout.extend, hlast, Segment.text, written]
  · -- all else is as it was, but the tag is not
    intro hsame
    have htext : joint (lx.text ++ '[' :: y) (z ++ ']' :: lw.text)
        = lx.segments.flatMap Segment.text ++
          ((Segment.mk r slashes (y ++ (' ' :: '(' :: z))).text ++ (lw.text ++ [')'])) := by
      simp [joint, Layout.text, hlast, Segment.text, written]
    rw [htext, Layout.bare_after, Layout.bare_extend, lw.bare_escaped, List.flatMap_append, lx.flatMap_bare_escaped,
      List.flatMap_singleton, List.append_assoc] at hsame
    have htag := List.append_cancel_right (List.append_cancel_left hsame)
    exact Nat.ne_of_lt (Segment.length_bare_lt _) (congrArg List.length htag)

/-- What stands in front of the two texts has nothing to do with markup, if it is plain. -/
theorem JointLayout.behind {a b : List Char} {la lb l : Layout} (h : JointLayout a b la lb l) {front : List Char}
    (hfront : front.all Console.isPlain = true) : (l.behind front).Valid := by
  have hplain := List.all_eq_true.mp hfront
  refine h.valid.behind (h.valid.firstRun_tagless.of_no_open fun hmem => ?_) fun hlast => ?_
  · exact absurd (hplain _ hmem) (by decide)
  · exact absurd (hplain _ (List.mem_of_getLast? hlast)) (by decide)

end Markup

/-! ## The line of a warning -/

namespace Diagnostics

open Console (Level)

/-- What stands in front of the message of a warning. -/
def heading (line : String) : String := Level.warning.sign ++ line ++ ": "

theorem heading_plain {i : Int} {line : String} (h : writeInt i = .ok line) :
    (heading line).toList.all Console.isPlain = true := by
  rw [heading, ← eq_of_writeInt h, String.toList_append, String.toList_append, List.all_append, List.all_append,
    plain_toString i]
  decide

variable {console : Console} {ordinary : List Char → Prop} {label : Level → String} {w : Warning} {line : String}

/-- What goes to the console for a warning. -/
theorem message_eq (console : Console) (hline : writeInt w.line = .ok line) :
    ∃ text, echoText console w = .ok text ∧ Level.warning.message text =
      String.ofList ((heading line).toList ++
        joint (console.escape w.message).toList (console.escape w.category).toList) := by
  refine ⟨line ++ ": " ++ console.escape w.message ++ " (" ++ console.escape w.category ++ ")", ?_, ?_⟩
  · unfold echoText
    rw [hline]
    rfl
  · rw [← String.toList_inj]
    simp [Level.message, heading, joint, String.toList_append]

/-- The text of a warning, as it should be read. -/
def plainText (line : String) (w : Warning) : String := line ++ ": " ++ w.message ++ " (" ++ w.category ++ ")"

/-- **The line of a warning shows its text if and only if no tag straddles message and category.** -/
theorem echoLines_iff (hconsole : console.Assumed ordinary label) (hline : writeInt w.line = .ok line)
    (hmessage : ordinary w.message.toList) (hcategory : ordinary w.category.toList)
    (hwhole : ∀ text, echoText console w = .ok text → ordinary (Level.warning.message text).toList) :
    echoLines console w = .ok [label .warning ++ Level.warning.message (plainText line w)] ↔
      ¬Straddles w.message.toList w.category.toList := by
  obtain ⟨text, htext, hmarkup⟩ := message_eq console hline
  have hordinary := hwhole text htext
  have hlines : echoLines console w = (console.emit .warning (Level.warning.message text)).mapError .unshown := by
    unfold echoLines
    rw [htext]
    rfl
  have hplain : Level.warning.message (plainText line w) =
      String.ofList ((heading line).toList ++ joint w.message.toList w.category.toList) := by
    rw [← String.toList_inj]
    simp [Level.message, plainText, heading, joint, String.toList_append]
  rw [hmarkup, String.toList_ofList] at hordinary
  rw [hlines, hmarkup, hplain, mapError_eq_ok]
  -- the layout of what goes to the console
  have hlayout {la lb l : Markup.Layout} (h : JointLayout w.message.toList w.category.toList la lb l) :
      (heading line).toList ++ joint (console.escape w.message).toList (console.escape w.category).toList
        = (l.behind (heading line).toList).text := by
    have hfirst := hconsole.escape la h.first (by rwa [h.first_text])
    have hsecond := hconsole.escape lb h.second (by rwa [h.second_text])
    rw [h.first_text, String.ofList_toList] at hfirst
    rw [h.second_text, String.ofList_toList] at hsecond
    rw [Markup.Layout.text_behind, h.text, hfirst, hsecond]
  constructor
  · intro hemit hstraddles
    obtain ⟨la, lb, l, h, hne⟩ := exists_jointLayout_of_straddles hstraddles
    rw [hlayout h] at hemit hordinary
    have hprinted := hconsole.printed _ _ _ (h.behind (heading_plain hline)) hordinary hemit
    have hsame := congrArg String.toList (List.cons.inj hprinted).1
    rw [String.toList_append, String.toList_append, String.toList_ofList, String.toList_ofList,
      Markup.Layout.bare_behind] at hsame
    exact hne (List.append_cancel_left (List.append_cancel_left hsame)).symm
  · intro hno
    obtain ⟨la, lb, l, h, hescaped, hbare⟩ := exists_jointLayout_of_not_straddles hno
    rw [hlayout h] at hordinary ⊢
    have hvalid := h.behind (heading_plain hline)
    obtain ⟨lines, hemit⟩ := hconsole.emits _ .warning hvalid hordinary (hescaped.behind _)
    rw [hemit, hconsole.printed _ _ _ hvalid hordinary hemit, Markup.Layout.bare_behind, hbare]

/-- **A warning is printed literally exactly where no tag straddles its texts.** On a console that does what is assumed
with the message, the category and the whole, a warning is accepted and printed as it should be read, behind the sign
of a warning, if and only if its line can be written and no tag starts in the message and ends in the category. -/
theorem warn_literal_iff {d : Diagnostics} (hconsole : d.services.console.Assumed ordinary label)
    (hecho : d.echo = true) {node line : Value} (hline : Syntax.startLine node = .ok line) {message category : String}
    (hmessage : ordinary message.toList) (hcategory : ordinary category.toList)
    (hwhole : ∀ text, echoText d.services.console ⟨Syntax.lineNumber line, message, category⟩ = .ok text →
      ordinary (Level.warning.message text).toList) :
    d.warn node (.text message) (.text category) = (.ok (),
      { d with
        warnings := d.warnings ++ [⟨Syntax.lineNumber line, message, category⟩]
        printed := d.printed ++ [label .warning ++ ("⚠️  " ++ (toString (Syntax.lineNumber line) ++ ": " ++ message ++
          " (" ++ category ++ ")"))] }) ↔
      isShort (Syntax.lineNumber line) = true ∧ ¬Straddles message.toList category.toList := by
  have hlines : d.warn node (.text message) (.text category) = (.ok (),
      { d with
        warnings := d.warnings ++ [⟨Syntax.lineNumber line, message, category⟩]
        printed := d.printed ++ [label .warning ++ ("⚠️  " ++ (toString (Syntax.lineNumber line) ++ ": " ++ message ++
          " (" ++ category ++ ")"))] }) ↔
      echoLines d.services.console ⟨Syntax.lineNumber line, message, category⟩ = .ok [label .warning ++
        Level.warning.message (plainText (toString (Syntax.lineNumber line))
          ⟨Syntax.lineNumber line, message, category⟩)] := by
    rcases d with ⟨services, echo, warnings, printed⟩
    obtain rfl : echo = true := hecho
    unfold warn
    rw [warningAt_text _ hline]
    dsimp only
    rw [if_pos rfl]
    cases echoLines services.console ⟨Syntax.lineNumber line, message, category⟩ with
    | error fault =>
      constructor
      · intro h
        cases (Prod.mk.inj h).1
      · intro h
        cases h
    | ok lines =>
      constructor
      · intro h
        have hprinted := congrArg Diagnostics.printed (Prod.mk.inj h).2
        rw [List.append_cancel_left hprinted]
        rfl
      · intro h
        rw [Except.ok.inj h]
        rfl
  rw [hlines]
  cases hshort : isShort (Syntax.lineNumber line) with
  | true =>
    have hwritten : writeInt (Syntax.lineNumber line) = .ok (toString (Syntax.lineNumber line)) := by
      rw [writeInt, hshort, if_pos rfl]
    have hiff := echoLines_iff (w := ⟨Syntax.lineNumber line, message, category⟩) hconsole hwritten hmessage hcategory
      hwhole
    rw [hiff]
    simp
  | false =>
    have hlong : echoLines d.services.console ⟨Syntax.lineNumber line, message, category⟩ = .error .tooLong := by
      unfold echoLines echoText writeInt
      rw [hshort]
      rfl
    rw [hlong]
    simp

end Diagnostics

/-! ## A console that does what is assumed -/

namespace Markup

/-- A piece without its tag, unless the tag is escaped. -/
def Piece.bare : Piece → List Char
  | plain cs => cs
  | tag slashes _ inside => List.replicate (slashes / 2) '\\' ++ if slashes % 2 = 1 then written inside else []

theorem flatMap_bare (last : List Char) (position : Nat) (segments : List Segment) :
    (Layout.piecesOf last position segments).flatMap Piece.bare = Layout.bare ⟨segments, last⟩ := by
  induction segments generalizing position with
  | nil => simp [Layout.piecesOf, Piece.bare, Layout.bare]
  | cons s segments ih =>
    rw [Layout.piecesOf, List.flatMap_cons, List.flatMap_cons, ih]
    simp [Layout.bare, Piece.bare, Segment.bare]

/-- Tags that are escaped close nothing. -/
theorem exists_renderPieces {segments : List Segment} (h : ∀ s ∈ segments, s.slashes % 2 = 1) (opened : List Tag)
    (last : List Char) (position : Nat) :
    ∃ shown, renderPieces opened (Layout.piecesOf last position segments) = .ok shown := by
  induction segments generalizing position with
  | nil => exact ⟨_, rfl⟩
  | cons s segments ih =>
    obtain ⟨hs, hsegments⟩ := List.forall_mem_cons.mp h
    obtain ⟨shown, hshown⟩ := ih hsegments (position + s.run.length + s.slashes + s.inside.length + 2)
    rw [Layout.piecesOf, renderPieces, renderPieces, if_pos hs, hshown]
    exact ⟨_, rfl⟩

end Markup

/-- A console that does what is assumed with every text. It refuses the closing tags that the standard one refuses. -/
def Console.ideal : Console where
  escape s := String.ofList ((pieces s.toList).flatMap Piece.escaped)
  emit level text := (renderPieces [] (pieces text.toList)).map fun _ =>
    [level.name ++ " " ++ String.ofList ((pieces text.toList).flatMap Piece.bare)]
  emit_plain level text h := by
    obtain ⟨lines, hlines⟩ := exists_emit_of_plain level text h
    obtain ⟨chars, hchars⟩ := renderPieces_of_emit hlines
    rw [hchars]
    exact ⟨_, rfl⟩
  emit_start level front front' text lines hfront hfront' h := by
    obtain ⟨chars, hchars, _⟩ := map_ok h
    have hshown : ∃ lines', Markup.emit level (front ++ text) = .ok lines' := emit_of_render hchars
    obtain ⟨lines', hlines'⟩ := hshown
    obtain ⟨_, hemit⟩ := exists_emit_of_start level front front' text lines' hfront hfront' hlines'
    obtain ⟨chars', hchars'⟩ := renderPieces_of_emit hemit
    rw [hchars']
    exact ⟨_, rfl⟩

theorem Console.ideal_assumed : Console.ideal.Assumed (fun _ => True) (fun level => level.name ++ " ") where
  escape l hl _ := by
    show (String.ofList ((pieces (String.ofList l.text).toList).flatMap Piece.escaped)).toList = _
    rw [String.toList_ofList, String.toList_ofList, Markup.Layout.pieces_text hl, Markup.Layout.flatMap_escaped]
  printed l level lines hl _ h := by
    obtain ⟨_, _, rfl⟩ := map_ok h
    rw [String.toList_ofList, Markup.Layout.pieces_text hl, flatMap_bare]
  emits l level hl _ hescaped := by
    obtain ⟨shown, hshown⟩ := exists_renderPieces hescaped [] l.last 0
    show ∃ lines, (renderPieces [] (pieces (String.ofList l.text).toList)).map _ = .ok lines
    rw [String.toList_ofList, Markup.Layout.pieces_text hl, hshown]
    exact ⟨_, rfl⟩

namespace Diagnostics

/-- A message with an escaped tag and an open bracket. -/
theorem warn_literal_iff_sample :
    (empty ⟨.ideal, .standard⟩ true).warn (.new []) (.text "a \\[b] [c") (.text "k") = (.ok (),
      { empty ⟨.ideal, .standard⟩ true with
        warnings := [] ++ [⟨0, "a \\[b] [c", "k"⟩]
        printed := [] ++ ["WARNING" ++ " " ++ ("⚠️  " ++ (toString (0 : Int) ++ ": " ++ "a \\[b] [c" ++
          " (" ++ "k" ++ ")"))] }) := by
  have hno : ¬Straddles "a \\[b] [c".toList "k".toList := by
    rintro ⟨x, y, z, w, _, hk, _⟩
    have hmem : ']' ∈ "k".toList := by
      rw [hk]
      simp
    exact absurd hmem (by decide)
  have hline : Syntax.startLine (.new []) = .ok (.int 0) := rfl
  have hshort : isShort (Syntax.lineNumber (.int 0)) = true := by decide +kernel
  have hconsole : (empty ⟨.ideal, .standard⟩ true).services.console.Assumed _ _ := Console.ideal_assumed
  exact (warn_literal_iff hconsole rfl hline trivial trivial fun _ _ => trivial).mpr ⟨hshort, hno⟩

/-- **Not every warning is printed literally**: a bracket opened in the message and closed in the category makes a tag,
which is not shown, or which closes nothing, so that the warning cannot be printed at all. -/
theorem warn_not_literal :
    ((empty .standard true).warn (.new []) (.text "[a") (.text "b]")).2.printed = ["WARNING  ⚠️  0: )"] ∧
    ((empty .standard true).warn (.new []) (.text "[/a") (.text "b]")).1.toBool = false := by
  decide +kernel

end Diagnostics
end EsmLift
