import EsmLift.Proofs.Legibility
import EsmLift.Proofs.Specifiers
import EsmLift.Toml.Scalar

/-!
# `Proofs.Rendering` — the line of an import says all that it binds

An import is shown in one line, `import a, {b as c, d} from 'm';`. The line leaves out what repeats itself: braces
around nothing, and `as` between equal names. Still nothing is lost: the names that are bound by default, the pairs of
exported and local names, and the source can be told from the line, if names are free of the characters that the line is
put together with.

The line is taken apart at separators, always by the same fact: two texts that are cut where a separator stands for the
first time have the same cut (`split_unique`). The first quote ends the clause, and what follows it is the source in
quotes, which can be read back character by character. In the clause a brace tells the named part from the default ones,
commas divide the parts, and a blank in a named part ends the exported name.

## Contents

* `Text.readChar`, `Text.quoted_injective`: text in quotes can be read back;
* `split_unique`, `Syntax.Part`, `Syntax.intercalate_unique`: parts that are joined by commas;
* `Syntax.clauseChars_unique`, `Syntax.namedText_unique`: the clause, and a named part of it;
* `Syntax.IsImport`, `Require.isImport_of_classify`: the imports that declarators stand for;
* `Syntax.Shown`, `Syntax.Shown.line_unique`, `Syntax.render_import`: the names that a line shows;
* `Syntax.defaultLocals`, `Syntax.namedPairs`, `Syntax.sourceText`, `Require.render_determines`.
-/

namespace EsmLift

open Value

/-! ## Text in quotes -/

namespace Text

theorem hexValue?_digitChar : ∀ d, d < 16 → Toml.hexValue? (Nat.digitChar d) = some d := by decide

/-- Hexadecimal digits denote the number they were written for. -/
theorem ofDigits_toDigits (n : Nat) : Toml.ofDigits 16 (Nat.toDigits 16 n) = n := by
  induction n using Nat.strongRecOn with
  | ind n ih =>
    rcases Nat.lt_or_ge n 16 with hn | hn
    · rw [Nat.toDigits_of_lt_base hn]
      simp [Toml.ofDigits, hexValue?_digitChar n hn]
    · have hrest := ih (n / 16) (by omega)
      unfold Toml.ofDigits at hrest ⊢
      rw [Nat.toDigits_of_base_le (by decide) hn, List.foldl_append, hrest, List.foldl_cons, List.foldl_nil,
        hexValue?_digitChar _ (Nat.mod_lt n (by decide)), Option.getD_some]
      omega

/-- Zeros in front do not count. -/
theorem ofDigits_hex (width n : Nat) : Toml.ofDigits 16 (hex width n) = n := by
  have hzeros (k : Nat) : Toml.ofDigits 16 (List.replicate k '0') = 0 := by
    induction k with
    | zero => rfl
    | succ k ih => exact ih
  have hdigits := ofDigits_toDigits n
  unfold hex
  unfold Toml.ofDigits at hzeros hdigits ⊢
  rw [List.foldl_append, hzeros, hdigits]

theorem length_hex {width n : Nat} (hwidth : 0 < width) (hn : n < 16 ^ width) : (hex width n).length = width := by
  have hle := (Nat.length_toDigits_le_iff (by decide) hwidth).mpr hn
  simp only [hex, List.length_append, List.length_replicate]
  omega

/-- The character with a code of `width` digits, and the rest. -/
def readCode (width : Nat) (cs : List Char) : Char × List Char :=
  (Char.ofNat (Toml.ofDigits 16 (cs.take width)), cs.drop width)

theorem readCode_hex {width : Nat} {c : Char} (hwidth : 0 < width) (hc : c.toNat < 16 ^ width) (rest : List Char) :
    readCode width (hex width c.toNat ++ rest) = (c, rest) := by
  have hlength := length_hex hwidth hc
  rw [readCode, List.take_left' hlength, List.drop_left' hlength, ofDigits_hex, Char.ofNat_toNat]

/-- The character after a backslash, and the rest. -/
def readEscaped : List Char → Option (Char × List Char)
  | [] => none
  | c :: rest =>
    if c = 'n' then some ('\n', rest)
    else if c = 'r' then some ('\r', rest)
    else if c = 't' then some ('\t', rest)
    else if c = 'x' then some (readCode 2 rest)
    else if c = 'u' then some (readCode 4 rest)
    else if c = 'U' then some (readCode 8 rest)
    else some (c, rest)

/-- The first character of a text in quotes, and the rest. -/
def readChar : List Char → Option (Char × List Char)
  | [] => none
  | c :: rest => if c = '\\' then readEscaped rest else some (c, rest)

/-- **What was written between quotes can be read back.** -/
theorem readChar_quoteChar {q : Char} (hq : q = '\'' ∨ q = '"') (c : Char) (rest : List Char) :
    readChar (quoteChar q c ++ rest) = some (c, rest) := by
  unfold quoteChar
  split
  · rename_i hc
    have hplain : c = '\'' ∨ c = '"' ∨ c = '\\' := by
      rcases hc with rfl | rfl
      · exact hq.imp_right .inl
      · exact .inr (.inr rfl)
    rcases hplain with rfl | rfl | rfl <;> rfl
  · rename_i hc
    split
    · rename_i h; rw [h]; rfl
    split
    · rename_i h; rw [h]; rfl
    split
    · rename_i h; rw [h]; rfl
    split
    · exact if_neg fun h => hc (.inr h)
    split
    · rename_i h
      exact congrArg some (readCode_hex (by decide) h rest)
    split
    · rename_i h
      exact congrArg some (readCode_hex (by decide) h rest)
    · exact congrArg some (readCode_hex (by decide) c.val.toNat_lt rest)

theorem flatMap_quoteChar_injective {q : Char} (hq : q = '\'' ∨ q = '"') :
    Function.Injective fun cs : List Char => cs.flatMap (quoteChar q) := by
  intro cs ds h
  dsimp only at h
  induction cs generalizing ds with
  | nil =>
    cases ds with
    | nil => rfl
    | cons d ds =>
      have hread := congrArg readChar h
      rw [List.flatMap_cons, readChar_quoteChar hq] at hread
      cases hread
  | cons c cs ih =>
    have hread := congrArg readChar h
    cases ds with
    | nil =>
      rw [List.flatMap_cons, readChar_quoteChar hq] at hread
      cases hread
    | cons d ds =>
      rw [List.flatMap_cons, List.flatMap_cons, readChar_quoteChar hq, readChar_quoteChar hq, Option.some.injEq,
        Prod.mk.injEq] at hread
      rw [hread.1, ih hread.2]

theorem quoteFor_cases (cs : List Char) : quoteFor cs = '\'' ∨ quoteFor cs = '"' := by
  unfold quoteFor
  split
  · exact .inr rfl
  · exact .inl rfl

/-- **Text in quotes determines the text.** -/
theorem quoted_injective : Function.Injective quoted := by
  intro s t h
  have hchars : quoteChars s.toList = quoteChars t.toList := by
    simpa [quoted] using congrArg String.toList h
  unfold quoteChars at hchars
  obtain ⟨hquote, hinside⟩ := List.cons_eq_cons.mp hchars
  rw [hquote] at hinside
  exact String.toList_inj.mp (flatMap_quoteChar_injective (quoteFor_cases _) (List.append_cancel_right hinside))

end Text

/-! ## Parts that are joined -/

/-- Nothing, or a separator at the front. -/
def AtSeparator {α : Type} (sep : α → Bool) (xs : List α) : Prop := ∀ x ∈ xs.head?, sep x = true

/-- **The first separator cuts a list in one way only.** -/
theorem split_unique {α : Type} {sep : α → Bool} {front front' rest rest' : List α}
    (hfront : ∀ x ∈ front, sep x = false) (hfront' : ∀ x ∈ front', sep x = false) (hrest : AtSeparator sep rest)
    (hrest' : AtSeparator sep rest') (h : front ++ rest = front' ++ rest') : front = front' ∧ rest = rest' := by
  -- a separator cannot stand where the other list has none yet
  have hclash {x : α} {tail cut : List α} (hx : sep x = false) (hcut : AtSeparator sep cut) : cut ≠ x :: tail := by
    rintro rfl
    exact Bool.false_ne_true (hx.symm.trans (hcut x rfl))
  induction front generalizing front' with
  | nil =>
    cases front' with
    | nil => exact ⟨rfl, h⟩
    | cons y front' => exact absurd h (hclash (hfront' y List.mem_cons_self) hrest)
  | cons x front ih =>
    cases front' with
    | nil => exact absurd h.symm (hclash (hfront x List.mem_cons_self) hrest')
    | cons y front' =>
      obtain ⟨rfl, htail⟩ := List.cons_eq_cons.mp h
      obtain ⟨rfl, hrests⟩ := ih (List.forall_mem_cons.mp hfront).2 (List.forall_mem_cons.mp hfront').2 htail
      exact ⟨rfl, hrests⟩

namespace Syntax

/-- A word in a clause: not empty, without commas and braces. -/
structure Word (w : List Char) : Prop where
  nonempty : w ≠ []
  commas : ∀ c ∈ w, (c == ',') = false
  opening : ∀ c ∈ w, (c == '{') = false
  closing : ∀ c ∈ w, (c == '}') = false

/-- A part of a clause: a word, or something in braces. -/
inductive Part : List Char → Prop
  | word {w : List Char} (h : Word w) : Part w
  | braces {inside : List Char} (h : ∀ c ∈ inside, (c == '}') = false) : Part ('{' :: (inside ++ ['}']))

theorem Part.ne_nil {x : List Char} (h : Part x) : x ≠ [] := by
  cases h with
  | word h => exact h.nonempty
  | braces _ => exact List.cons_ne_nil _ _

/-- A word does not start like something in braces. -/
theorem Word.append_ne {w rest tail : List Char} (h : Word w) : w ++ rest ≠ '{' :: tail := by
  obtain ⟨c, w, rfl⟩ := List.exists_cons_of_ne_nil h.nonempty
  intro heq
  obtain ⟨rfl, _⟩ := List.cons_eq_cons.mp heq
  exact absurd (h.opening '{' List.mem_cons_self) (by decide)

/-- A part ends where a comma stands, or the text does. -/
theorem Part.unique {x y rest rest' : List Char} (hx : Part x) (hy : Part y) (hrest : AtSeparator (· == ',') rest)
    (hrest' : AtSeparator (· == ',') rest') (h : x ++ rest = y ++ rest') : x = y ∧ rest = rest' := by
  cases hx with
  | word hx =>
    cases hy with
    | word hy => exact split_unique hx.commas hy.commas hrest hrest' h
    | braces hy => exact absurd h hx.append_ne
  | @braces inside hx =>
    cases hy with
    | word hy => exact absurd h.symm hy.append_ne
    | @braces inside' hy =>
      have htail : inside ++ ('}' :: rest) = inside' ++ ('}' :: rest') := by simpa using h
      have hcut (tail : List Char) : AtSeparator (· == '}') ('}' :: tail) := by
        intro c hc
        cases hc
        rfl
      obtain ⟨rfl, hrests⟩ := split_unique hx hy (hcut rest) (hcut rest') htail
      exact ⟨rfl, (List.cons_eq_cons.mp hrests).2⟩

/-- What joins the parts. -/
def comma : List Char := [',', ' ']

/-- The first part, and a comma if there are more. -/
theorem exists_intercalate_cons (x : List Char) (xs : List (List Char)) :
    ∃ rest, comma.intercalate (x :: xs) = x ++ rest ∧ AtSeparator (· == ',') rest ∧
      ((xs = [] ∧ rest = []) ∨ (xs ≠ [] ∧ rest = comma ++ comma.intercalate xs)) := by
  cases xs with
  | nil => exact ⟨[], by simp, fun c hc => (nomatch hc), .inl ⟨rfl, rfl⟩⟩
  | cons y ys =>
    refine ⟨comma ++ comma.intercalate (y :: ys), ?_, ?_, .inr ⟨List.cons_ne_nil _ _, rfl⟩⟩
    · rw [List.intercalate_cons_cons, List.append_assoc]
    · intro c hc
      cases hc
      rfl

/-- **Joined parts can be told apart.** -/
theorem intercalate_unique {xs ys : List (List Char)} (hxs : ∀ x ∈ xs, Part x) (hys : ∀ y ∈ ys, Part y)
    (h : comma.intercalate xs = comma.intercalate ys) : xs = ys := by
  have hsome {x : List Char} {xs : List (List Char)} (hx : Part x) : comma.intercalate (x :: xs) ≠ [] := by
    obtain ⟨rest, heq, _⟩ := exists_intercalate_cons x xs
    rw [heq]
    exact fun hnil => hx.ne_nil (List.append_eq_nil_iff.mp hnil).1
  induction xs generalizing ys with
  | nil =>
    cases ys with
    | nil => rfl
    | cons y ys => exact absurd h.symm (hsome (hys y List.mem_cons_self))
  | cons x xs ih =>
    cases ys with
    | nil => exact absurd h (hsome (hxs x List.mem_cons_self))
    | cons y ys =>
      obtain ⟨hx, hmore⟩ := List.forall_mem_cons.mp hxs
      obtain ⟨hy, hmore'⟩ := List.forall_mem_cons.mp hys
      obtain ⟨rest, heq, hcut, hrest⟩ := exists_intercalate_cons x xs
      obtain ⟨rest', heq', hcut', hrest'⟩ := exists_intercalate_cons y ys
      rw [heq, heq'] at h
      obtain ⟨rfl, rfl⟩ := hx.unique hy hcut hcut' h
      rcases hrest with ⟨rfl, rfl⟩ | ⟨_, rfl⟩
      · rcases hrest' with ⟨rfl, _⟩ | ⟨_, hnil⟩
        · rfl
        · cases hnil
      · rcases hrest' with ⟨_, hnil⟩ | ⟨_, htail⟩
        · cases hnil
        · rw [ih hmore hmore' (List.append_cancel_left htail)]

/-! ## The clause of an import -/

/-- What stands in braces, in its characters. -/
def bracesText (named : List (List Char)) : List Char := '{' :: (comma.intercalate named ++ ['}'])

/-- A clause in its characters. -/
def clauseChars (defaults named : List (List Char)) : List Char :=
  comma.intercalate (defaults ++ if named.isEmpty && !defaults.isEmpty then [] else [bracesText named])

theorem toList_clauseText (clauses : List Clause) : (clauseText clauses).toList =
    clauseChars ((defaults clauses).map String.toList) ((nameds clauses).map String.toList) := by
  have hbraces : ("\x7b" ++ ", ".intercalate (nameds clauses) ++ "\x7d").toList =
      bracesText ((nameds clauses).map String.toList) := by
    simp [bracesText, comma, String.toList_intercalate]
  unfold clauseText clauseChars
  rw [String.toList_intercalate, List.map_append, List.isEmpty_map, List.isEmpty_map]
  split
  · rfl
  · rw [List.map_singleton, hbraces]
    rfl

/-- What stands neither in the parts nor between them is not in the whole. -/
theorem absent_intercalate {p : Char → Bool} (hcomma : p ',' = false) (hblank : p ' ' = false) {xs : List (List Char)}
    (hxs : ∀ x ∈ xs, ∀ c ∈ x, p c = false) : ∀ c ∈ comma.intercalate xs, p c = false := by
  induction xs with
  | nil => exact fun c hc => absurd hc List.not_mem_nil
  | cons x xs ih =>
    obtain ⟨hx, hmore⟩ := List.forall_mem_cons.mp hxs
    obtain ⟨rest, heq, _, hrest⟩ := exists_intercalate_cons x xs
    rw [heq, List.forall_mem_append]
    refine ⟨hx, ?_⟩
    rcases hrest with ⟨_, rfl⟩ | ⟨_, rfl⟩
    · exact fun c hc => absurd hc List.not_mem_nil
    · rw [List.forall_mem_append]
      exact ⟨by simp [comma, hcomma, hblank], ih hmore⟩

/-- The same for a clause. -/
theorem absent_clauseChars {p : Char → Bool} (hcomma : p ',' = false) (hblank : p ' ' = false)
    (hopening : p '{' = false) (hclosing : p '}' = false) {ds ns : List (List Char)}
    (hds : ∀ x ∈ ds, ∀ c ∈ x, p c = false) (hns : ∀ x ∈ ns, ∀ c ∈ x, p c = false) :
    ∀ c ∈ clauseChars ds ns, p c = false := by
  have hbraces : ∀ c ∈ bracesText ns, p c = false := by
    rw [bracesText, List.forall_mem_cons, List.forall_mem_append, List.forall_mem_singleton]
    exact ⟨hopening, absent_intercalate hcomma hblank hns, hclosing⟩
  refine absent_intercalate hcomma hblank ?_
  rw [List.forall_mem_append]
  refine ⟨hds, ?_⟩
  split
  · exact fun x hx => absurd hx List.not_mem_nil
  · rw [List.forall_mem_singleton]
    exact hbraces

/-- **A clause determines its words.** -/
theorem clauseChars_unique {ds ds' ns ns' : List (List Char)} (hds : ∀ w ∈ ds, Word w) (hds' : ∀ w ∈ ds', Word w)
    (hns : ∀ w ∈ ns, Word w) (hns' : ∀ w ∈ ns', Word w) (h : clauseChars ds ns = clauseChars ds' ns') :
    ds = ds' ∧ ns = ns' := by
  have hparts {ds ns : List (List Char)} (hds : ∀ w ∈ ds, Word w) (hns : ∀ w ∈ ns, Word w) :
      ∀ x ∈ ds ++ (if ns.isEmpty && !ds.isEmpty then [] else [bracesText ns]), Part x := by
    rw [List.forall_mem_append]
    refine ⟨fun w hw => .word (hds w hw), fun x hx => ?_⟩
    split at hx
    · exact absurd hx List.not_mem_nil
    · rw [List.mem_singleton.mp hx]
      exact .braces (absent_intercalate rfl rfl fun w hw => (hns w hw).closing)
  have hlists := intercalate_unique (hparts hds hns) (hparts hds' hns') h
  -- the part in braces is the first one with a brace at its front
  have hwords {ds : List (List Char)} (hds : ∀ w ∈ ds, Word w) : ∀ w ∈ ds, (w.head? == some '{') = false := by
    intro w hw
    obtain ⟨c, w, rfl⟩ := List.exists_cons_of_ne_nil (hds w hw).nonempty
    exact (hds _ hw).opening c List.mem_cons_self
  have hcut (b : Bool) (ns : List (List Char)) :
      AtSeparator (fun w : List Char => w.head? == some '{') (if b then [] else [bracesText ns]) := by
    intro w hw
    cases b with
    | true => cases hw
    | false => cases hw; rfl
  obtain ⟨rfl, hbraces⟩ := split_unique (hwords hds) (hwords hds') (hcut _ ns) (hcut _ ns') hlists
  refine ⟨rfl, ?_⟩
  split at hbraces
  · rename_i hnone
    split at hbraces
    · rename_i hnone'
      rw [Bool.and_eq_true, List.isEmpty_iff] at hnone hnone'
      rw [hnone.1, hnone'.1]
    · cases hbraces
  · split at hbraces
    · cases hbraces
    · have hinside := (List.cons_eq_cons.mp (List.singleton_inj.mp hbraces)).2
      exact intercalate_unique (fun w hw => .word (hns w hw)) (fun w hw => .word (hns' w hw))
        (List.append_cancel_right hinside)

/-! ## Names -/

/-- The characters that a line is put together with. -/
def punctuation : List Char := [' ', ',', '{', '}', '\'', '"']

/-- Whether a name is a text that is not empty and has none of these characters. -/
def isPlainName : Value → Bool
  | .text s => s != "" && s.toList.all fun c => !punctuation.contains c
  | _ => false

/-- A plain name in its characters. -/
structure PlainChars (cs : List Char) : Prop where
  nonempty : cs ≠ []
  plain : ∀ c ∈ cs, c ∉ punctuation

theorem plainChars_of_isPlainName {s : String} (h : isPlainName (.text s) = true) : PlainChars s.toList := by
  simp only [isPlainName, Bool.and_eq_true, bne_iff_ne, List.all_eq_true, Bool.not_eq_true', List.contains_eq_mem,
    decide_eq_false_iff_not] at h
  exact ⟨fun hnil => h.1 (String.toList_inj.mp hnil), h.2⟩

/-- A plain name has no character that the line is put together with. -/
theorem PlainChars.ne {cs : List Char} (h : PlainChars cs) {m : Char} (hm : m ∈ punctuation) :
    ∀ c ∈ cs, (c == m) = false := by
  intro c hc
  rw [beq_eq_false_iff_ne]
  rintro rfl
  exact h.plain c hc hm

theorem PlainChars.word {cs : List Char} (h : PlainChars cs) : Word cs :=
  ⟨h.nonempty, h.ne (by decide), h.ne (by decide), h.ne (by decide)⟩

/-- The characters that put a text in quotes. -/
def isQuote (c : Char) : Bool := c == '\'' || c == '"'

theorem PlainChars.unquoted {cs : List Char} (h : PlainChars cs) : ∀ c ∈ cs, isQuote c = false := by
  intro c hc
  rw [isQuote, Bool.or_eq_false_iff]
  exact ⟨h.ne (by decide) c hc, h.ne (by decide) c hc⟩

/-- The text of a named binding, from the exported and the local name. -/
def namedText (imported localName : String) : String :=
  if imported == localName then imported else imported ++ " as " ++ localName

theorem toList_namedText (imported localName : String) : (namedText imported localName).toList =
    imported.toList ++ if imported = localName then [] else [' ', 'a', 's', ' '] ++ localName.toList := by
  unfold namedText
  by_cases h : imported = localName
  · simp [h]
  · simp [h]

/-- **A named binding determines its names.** -/
theorem namedText_unique {a b a' b' : String} (ha : PlainChars a.toList) (ha' : PlainChars a'.toList)
    (h : namedText a b = namedText a' b') : a = a' ∧ b = b' := by
  have hchars := congrArg String.toList h
  rw [toList_namedText, toList_namedText] at hchars
  have hcut (x y : String) : AtSeparator (· == ' ') (if x = y then [] else [' ', 'a', 's', ' '] ++ y.toList) := by
    intro c hc
    split at hc
    · cases hc
    · cases hc
      rfl
  obtain ⟨hfront, hrest⟩ := split_unique (ha.ne (by decide)) (ha'.ne (by decide)) (hcut a b) (hcut a' b') hchars
  obtain rfl := String.toList_inj.mp hfront
  refine ⟨rfl, ?_⟩
  split at hrest
  · rename_i hsame
    split at hrest
    · rename_i hsame'
      exact hsame.symm.trans hsame'
    · cases hrest
  · split at hrest
    · cases hrest
    · exact String.toList_inj.mp (List.append_cancel_left hrest)

/-- What is neither in the names nor in ` as ` is not in a named binding. -/
theorem absent_namedText {p : Char → Bool} (has : ∀ c ∈ [' ', 'a', 's', ' '], p c = false) {a b : String}
    (ha : ∀ c ∈ a.toList, p c = false) (hb : ∀ c ∈ b.toList, p c = false) :
    ∀ c ∈ (namedText a b).toList, p c = false := by
  rw [toList_namedText, List.forall_mem_append]
  refine ⟨ha, ?_⟩
  split
  · exact fun c hc => absurd hc List.not_mem_nil
  · rw [List.forall_mem_append]
    exact ⟨has, hb⟩

theorem namedText_word {a b : String} (ha : PlainChars a.toList) (hb : PlainChars b.toList) :
    Word (namedText a b).toList where
  nonempty hnil := by
    rw [toList_namedText] at hnil
    exact ha.nonempty (List.append_eq_nil_iff.mp hnil).1
  commas := absent_namedText (by simp) (ha.ne (by decide)) (hb.ne (by decide))
  opening := absent_namedText (by simp) (ha.ne (by decide)) (hb.ne (by decide))
  closing := absent_namedText (by simp) (ha.ne (by decide)) (hb.ne (by decide))

/-! ## Imports -/

/-- The specifiers of an import. -/
def specifiersOf (n : Value) : List Value := Require.listed (n.at "specifiers")

/-- The local names that an import binds by default. -/
def defaultLocals (n : Value) : List Value :=
  ((specifiersOf n).filter (·.isA .importDefaultSpecifier)).map fun s => (s.at "local").at "name"

/-- The exported names that an import names, with their local names. -/
def namedPairs (n : Value) : List (Value × Value) :=
  ((specifiersOf n).filter (!·.isA .importDefaultSpecifier)).map fun s =>
    ((s.at "imported").at "name", (s.at "local").at "name")

/-- The text of the source of an import. -/
def sourceText (n : Value) : Value := (n.at "source").at "value"

/-- The names in the specifiers of an import are plain. -/
structure PlainNames (n : Value) : Prop where
  locals : ∀ s ∈ specifiersOf n, isPlainName ((s.at "local").at "name") = true
  imported : ∀ s ∈ specifiersOf n, s.isA .importDefaultSpecifier = false →
    isPlainName ((s.at "imported").at "name") = true

/-- A specifier of names. -/
inductive BindsNames : Value → Prop
  | byDefault {localName : Value} (h : Require.IsName localName) : BindsNames (importDefaultSpecifier localName)
  | named {localName imported : Value} (h : Require.IsName localName) (h' : Require.IsName imported) :
      BindsNames (importSpecifier localName imported)

/-- An import of names from a literal. -/
inductive IsImport : Value → Prop
  | intro {specifiers : List Value} {source : Value} (hspecifiers : ∀ s ∈ specifiers, BindsNames s)
      (hsource : Require.IsSource source) : IsImport (importDeclaration specifiers source)

end Syntax

namespace Require

/-- What a declarator stands for is an import of names from a literal. -/
theorem isImport_of_classify {d n : Value} (h : classify d = .ok (some n)) : Syntax.IsImport n := by
  obtain ⟨l, hl, hn⟩ := of_classify h
  cases hl with
  | whole plain name =>
    obtain ⟨_, _, _, _, load⟩ := plain
    obtain ⟨_, _, _, _, _, literal⟩ := load
    cases hn
    exact .intro (List.forall_mem_singleton.mpr (.byDefault name)) literal
  | @exports id source mark mark' properties plain type found simple =>
    obtain ⟨_, _, _, _, load⟩ := plain
    obtain ⟨_, _, _, _, _, literal⟩ := load
    rw [toImport_exports simple hn]
    refine .intro (fun s hs => ?_) literal
    obtain ⟨p, hp, rfl⟩ := List.mem_map.mp ((defaultsFirst_perm _).mem_iff.mp hs)
    obtain ⟨_, ⟨key, hkey, hkeyName⟩, _, value, hvalue, hvalueName⟩ := simple p hp
    unfold specifierOf defaultOf namedOf
    rw [at_eq hkey, at_eq hvalue]
    split
    · exact .byDefault hvalueName
    · exact .named hvalueName hkeyName
  | one member =>
    obtain ⟨_, _, name, _, _, _, _, load, _, propertyName⟩ := member
    obtain ⟨_, _, _, _, _, literal⟩ := load
    obtain ⟨s, hs, rfl⟩ := map_ok hn
    obtain ⟨_, _, rfl⟩ := specifier_ok hs
    refine .intro (List.forall_mem_singleton.mpr ?_) literal
    split
    · exact .byDefault name
    · exact .named name propertyName

end Require

namespace Syntax

/-! ## The line of an import -/

/-- The name of an identifier, as a line shows it. -/
def nameText (v : Value) : String := (v.at "name").shown

/-- What a specifier of names contributes to the clause. -/
def clauseFor (s : Value) : Clause :=
  if s.isA .importDefaultSpecifier then .byDefault (nameText (s.at "local"))
  else .named (namedText (nameText (s.at "imported")) (nameText (s.at "local")))

theorem clausesOf_eq {ss : List Value} (h : ∀ s ∈ ss, clauseOf s = .ok (clauseFor s)) :
    clausesOf ss = .ok (ss.map clauseFor) := by
  induction ss with
  | nil => rfl
  | cons s rest ih =>
    obtain ⟨hs, hrest⟩ := List.forall_mem_cons.mp h
    rw [clausesOf, hs, ih hrest]
    rfl

theorem defaults_map (ss : List Value) : defaults (ss.map clauseFor) =
    (ss.filter (·.isA .importDefaultSpecifier)).map fun s => nameText (s.at "local") := by
  unfold defaults
  induction ss with
  | nil => rfl
  | cons s rest ih =>
    rw [List.map_cons, List.filterMap_cons, ih]
    cases hs : s.isA .importDefaultSpecifier with
    | true => simp [clauseFor, hs]
    | false => simp [clauseFor, hs]

theorem nameds_map (ss : List Value) : nameds (ss.map clauseFor) =
    ((ss.filter (!·.isA .importDefaultSpecifier)).map fun s => (nameText (s.at "imported"), nameText (s.at "local"))).map
      (Function.uncurry namedText) := by
  unfold nameds
  induction ss with
  | nil => rfl
  | cons s rest ih =>
    rw [List.map_cons, List.filterMap_cons, ih]
    cases hs : s.isA .importDefaultSpecifier with
    | true => simp [clauseFor, hs]
    | false => simp [clauseFor, hs]

/-- A plain name is shown as it is. -/
structure ShownPlainly (v : Value) : Prop where
  name : v.at "name" = .text (nameText v)
  plain : PlainChars (nameText v).toList
  shown : nameOf v = .ok (nameText v)

theorem shownPlainly {v : Value} (h : Require.IsName v) (hplain : isPlainName (v.at "name") = true) :
    ShownPlainly v := by
  obtain ⟨m, fs, rfl, _⟩ := exists_of_get? h
  have hsay : nameOf (.object m fs) = ((Value.object m fs).at "name").say := by
    unfold nameOf
    rw [Require.isName_iff.mpr h]
    rfl
  cases hname : (Value.object m fs).at "name" with
  | text s =>
    rw [hname] at hplain hsay
    have htext : nameText (.object m fs) = s := by rw [nameText, hname]; rfl
    exact ⟨by rw [htext, hname], by rw [htext]; exact plainChars_of_isPlainName hplain, by rw [htext]; exact hsay⟩
  | _ =>
    rw [hname] at hplain
    cases hplain

/-- A source is shown in quotes. -/
theorem source_eq {v : Value} (h : Require.IsSource v) :
    ∃ s, v.at "value" = .text s ∧ nameOf v = .ok (Text.quoted s) := by
  obtain ⟨s, hs⟩ := h.value
  have hliteral : v.isA .literal = true := isA_iff.mpr h.type
  refine ⟨s, at_eq hs, ?_⟩
  obtain ⟨m, fs, rfl, _⟩ := exists_of_get? h.type
  have hpart : part (.object m fs) "value" = .text s := at_eq hs
  unfold nameOf
  rw [isA_unique hliteral (by decide), hliteral, hpart]
  rfl

/-- The names that a line shows: the local names of the default part, and the pairs in braces. -/
structure Shown where
  locals : List String
  pairs : List (String × String)
  locals_plain : ∀ a ∈ locals, PlainChars a.toList
  pairs_plain : ∀ p ∈ pairs, PlainChars p.1.toList ∧ PlainChars p.2.toList

namespace Shown

/-- The words of the default part. -/
def defaultWords (t : Shown) : List (List Char) := t.locals.map String.toList

/-- The words in braces. -/
def namedWords (t : Shown) : List (List Char) := (t.pairs.map (Function.uncurry namedText)).map String.toList

theorem word_of_mem_defaultWords (t : Shown) : ∀ w ∈ t.defaultWords, Word w := by
  unfold defaultWords
  rw [List.forall_mem_map]
  exact fun a ha => (t.locals_plain a ha).word

theorem word_of_mem_namedWords (t : Shown) : ∀ w ∈ t.namedWords, Word w := by
  unfold namedWords
  rw [List.forall_mem_map, List.forall_mem_map]
  exact fun p hp => namedText_word (t.pairs_plain p hp).1 (t.pairs_plain p hp).2

/-- The clause has no quotes. -/
theorem unquoted_clause (t : Shown) : ∀ c ∈ clauseChars t.defaultWords t.namedWords, isQuote c = false := by
  refine absent_clauseChars rfl rfl rfl rfl ?_ ?_
  · unfold defaultWords
    rw [List.forall_mem_map]
    exact fun a ha => (t.locals_plain a ha).unquoted
  · unfold namedWords
    rw [List.forall_mem_map, List.forall_mem_map]
    intro p hp
    exact absent_namedText (by simp [isQuote]) (t.pairs_plain p hp).1.unquoted (t.pairs_plain p hp).2.unquoted

/-- The words in braces determine the pairs. -/
theorem pairs_unique {t u : Shown} (h : t.namedWords = u.namedWords) : t.pairs = u.pairs := by
  have hunique {ps qs : List (String × String)} (hps : ∀ p ∈ ps, PlainChars p.1.toList)
      (hqs : ∀ q ∈ qs, PlainChars q.1.toList)
      (h : ps.map (Function.uncurry namedText) = qs.map (Function.uncurry namedText)) : ps = qs := by
    induction ps generalizing qs with
    | nil => exact (List.map_eq_nil_iff.mp h.symm).symm
    | cons p ps ih =>
      cases qs with
      | nil => cases h
      | cons q qs =>
        obtain ⟨hp, hps⟩ := List.forall_mem_cons.mp hps
        obtain ⟨hq, hqs⟩ := List.forall_mem_cons.mp hqs
        obtain ⟨hfirst, hrest⟩ := List.cons_eq_cons.mp h
        obtain ⟨himported, hlocal⟩ := namedText_unique hp hq hfirst
        rw [Prod.ext himported hlocal, ih hps hqs hrest]
  refine hunique (fun p hp => (t.pairs_plain p hp).1) (fun q hq => (u.pairs_plain q hq).1) ?_
  exact List.map_injective_iff.mpr (fun _ _ => String.toList_inj.mp) h

/-- The characters of the line that shows these names and a source. -/
def line (t : Shown) (source : String) : List Char :=
  "import ".toList ++ (clauseChars t.defaultWords t.namedWords ++ " from ".toList ++
    ((Text.quoted source).toList ++ [';']))

/-- **A line determines what it shows.** -/
theorem line_unique {t u : Shown} {source source' : String} (h : t.line source = u.line source') :
    t.locals = u.locals ∧ t.pairs = u.pairs ∧ source = source' := by
  have hfront (t : Shown) : ∀ c ∈ clauseChars t.defaultWords t.namedWords ++ " from ".toList, isQuote c = false := by
    rw [List.forall_mem_append]
    exact ⟨t.unquoted_clause, by simp [isQuote]⟩
  have hcut (s : String) : AtSeparator isQuote ((Text.quoted s).toList ++ [';']) := by
    intro c hc
    have hquote : c = Text.quoteFor s.toList := by
      simpa [Text.quoted, Text.quoteChars] using hc.symm
    rw [hquote]
    rcases Text.quoteFor_cases s.toList with hq | hq <;> rw [hq] <;> rfl
  -- the first quote ends the clause
  obtain ⟨hclause, hsource⟩ :=
    split_unique (hfront t) (hfront u) (hcut source) (hcut source') (List.append_cancel_left h)
  obtain ⟨hlocals, hnamed⟩ := clauseChars_unique t.word_of_mem_defaultWords u.word_of_mem_defaultWords
    t.word_of_mem_namedWords u.word_of_mem_namedWords (List.append_cancel_right hclause)
  refine ⟨List.map_injective_iff.mpr (fun _ _ => String.toList_inj.mp) hlocals, pairs_unique hnamed, ?_⟩
  exact Text.quoted_injective (String.toList_injective (List.append_cancel_right hsource))

end Shown

theorem toList_line (clauses : List Clause) (source : String) :
    ("import " ++ clauseText clauses ++ " from " ++ Text.quoted source ++ ";").toList = "import ".toList ++
      (clauseChars ((defaults clauses).map String.toList) ((nameds clauses).map String.toList) ++ " from ".toList ++
        ((Text.quoted source).toList ++ [';'])) := by
  simp only [String.toList_append, toList_clauseText, List.append_assoc]
  rfl

/-- The local name of a specifier is shown as it is. -/
theorem BindsNames.shown_local {s : Value} (h : BindsNames s)
    (hplain : isPlainName ((s.at "local").at "name") = true) : ShownPlainly (s.at "local") := by
  cases h with
  | byDefault h => exact shownPlainly h hplain
  | named h _ => exact shownPlainly h hplain

/-- So is its exported name, if it has one. -/
theorem BindsNames.shown_imported {s : Value} (h : BindsNames s) (hd : s.isA .importDefaultSpecifier = false)
    (hplain : isPlainName ((s.at "imported").at "name") = true) : ShownPlainly (s.at "imported") := by
  cases h with
  | byDefault _ => cases hd
  | named _ h => exact shownPlainly h hplain

/-- The clause of a specifier shows its names. -/
theorem BindsNames.clauseOf_eq {s : Value} (h : BindsNames s) (hlocal : ShownPlainly (s.at "local"))
    (himported : s.isA .importDefaultSpecifier = false → ShownPlainly (s.at "imported")) :
    clauseOf s = .ok (clauseFor s) := by
  cases h with
  | @byDefault l _ =>
    have hshown : nameOf l = .ok (nameText l) := hlocal.shown
    show (nameOf l >>= fun name => pure (Clause.byDefault name)) = _
    rw [hshown]
    rfl
  | @named l i _ _ =>
    have hshown : nameOf l = .ok (nameText l) := hlocal.shown
    have hshown' : nameOf i = .ok (nameText i) := (himported rfl).shown
    show (nameOf l >>= fun name => nameOf i >>= fun imported => pure (Clause.named (namedText imported name))) = _
    rw [hshown, hshown']
    rfl

theorem mem_filter_named {ss : List Value} {s : Value} (hs : s ∈ ss.filter (!·.isA .importDefaultSpecifier)) :
    s ∈ ss ∧ s.isA .importDefaultSpecifier = false := by
  simpa using List.mem_filter.mp hs

section

variable {ss : List Value} {source : Value} (hss : ∀ s ∈ ss, BindsNames s)
  (hn : PlainNames (importDeclaration ss source))

include hss hn

theorem shown_locals : ∀ s ∈ ss, ShownPlainly (s.at "local") :=
  fun s hs => (hss s hs).shown_local (hn.locals s hs)

theorem shown_imported : ∀ s ∈ ss, s.isA .importDefaultSpecifier = false → ShownPlainly (s.at "imported") :=
  fun s hs hd => (hss s hs).shown_imported hd (hn.imported s hs hd)

/-- The names that the line of an import shows. -/
def shownBy : Shown where
  locals := (ss.filter (·.isA .importDefaultSpecifier)).map fun s => nameText (s.at "local")
  pairs := (ss.filter (!·.isA .importDefaultSpecifier)).map fun s => (nameText (s.at "imported"), nameText (s.at "local"))
  locals_plain := by
    rw [List.forall_mem_map]
    exact fun s hs => (shown_locals hss hn s (List.mem_filter.mp hs).1).plain
  pairs_plain := by
    rw [List.forall_mem_map]
    intro s hs
    obtain ⟨hmem, hd⟩ := mem_filter_named hs
    exact ⟨(shown_imported hss hn s hmem hd).plain, (shown_locals hss hn s hmem).plain⟩

theorem defaultLocals_eq : defaultLocals (importDeclaration ss source) = (shownBy hss hn).locals.map .text := by
  unfold shownBy
  rw [List.map_map]
  exact List.map_congr_left fun s hs => (shown_locals hss hn s (List.mem_filter.mp hs).1).name

theorem namedPairs_eq :
    namedPairs (importDeclaration ss source) = (shownBy hss hn).pairs.map (Prod.map .text .text) := by
  unfold shownBy
  rw [List.map_map]
  refine List.map_congr_left fun s hs => ?_
  obtain ⟨hmem, hd⟩ := mem_filter_named hs
  exact Prod.ext (shown_imported hss hn s hmem hd).name (shown_locals hss hn s hmem).name

theorem toList_shownBy (text : String) :
    ("import " ++ clauseText (ss.map clauseFor) ++ " from " ++ Text.quoted text ++ ";").toList =
      (shownBy hss hn).line text := by
  rw [toList_line, defaults_map, nameds_map]
  rfl

end

/-- **What the line of an import is written from.** -/
theorem render_import {n : Value} (h : IsImport n) (hn : PlainNames n) :
    ∃ (t : Shown) (source text : String), render n = .ok text ∧ text.toList = t.line source ∧
      defaultLocals n = t.locals.map .text ∧ namedPairs n = t.pairs.map (Prod.map .text .text) ∧
      sourceText n = .text source := by
  cases h with
  | @intro ss literal hss hliteral =>
    obtain ⟨source, hvalue, hquoted⟩ := source_eq hliteral
    have hrender : render (importDeclaration ss literal) =
        .ok ("import " ++ clauseText (ss.map clauseFor) ++ " from " ++ Text.quoted source ++ ";") := by
      have hclauses : (itemsIn (importDeclaration ss literal) "specifiers" >>= clausesOf) = .ok (ss.map clauseFor) :=
        clausesOf_eq fun s hs =>
          (hss s hs).clauseOf_eq (shown_locals hss hn s hs) (shown_imported hss hn s hs)
      have hsource : nameOf (part (importDeclaration ss literal) "source") = .ok (Text.quoted source) := hquoted
      rw [render_eq, hclauses, hsource]
      rfl
    exact ⟨shownBy hss hn, source, _, hrender, toList_shownBy hss hn source, defaultLocals_eq hss hn,
      namedPairs_eq hss hn, hvalue⟩

end Syntax

namespace Require

/-- **The line of an import determines it.** Two declarators whose imports are shown by the same line bind the same names
by default, import the same names under the same local ones, in the same order, and load the same module. -/
theorem render_determines {d d' n n' : Value} (h : classify d = .ok (some n)) (h' : classify d' = .ok (some n'))
    (hn : Syntax.PlainNames n) (hn' : Syntax.PlainNames n') (hline : Syntax.render n = Syntax.render n') :
    (∃ text, Syntax.render n = .ok text ∧ Syntax.render n' = .ok text) ∧
      Syntax.defaultLocals n = Syntax.defaultLocals n' ∧ Syntax.namedPairs n = Syntax.namedPairs n' ∧
      Syntax.sourceText n = Syntax.sourceText n' := by
  obtain ⟨t, source, text, hrender, hchars, hlocals, hpairs, hsource⟩ := Syntax.render_import (isImport_of_classify h) hn
  obtain ⟨u, source', text', hrender', hchars', hlocals', hpairs', hsource'⟩ :=
    Syntax.render_import (isImport_of_classify h') hn'
  obtain rfl : text = text' := Except.ok.inj (hrender.symm.trans (hline.trans hrender'))
  obtain ⟨hl, hp, hs⟩ := Syntax.Shown.line_unique (hchars.symm.trans hchars')
  refine ⟨⟨text, hrender, hrender'⟩, ?_, ?_, ?_⟩
  · rw [hlocals, hlocals', hl]
  · rw [hpairs, hpairs', hp]
  · rw [hsource, hsource', hs]

/-- A property whose local name has a position. -/
def Sample.placed (key localName : String) : Value :=
  .new [("type", NodeType.property.value), ("key", Lift.Sample.name key), ("computed", .bool false),
    ("value", .new [("type", NodeType.identifier.value), ("name", .text localName), ("start", .int 4)])]

/-- The names of `Sample.mixed`, in another order and with a position. -/
def Sample.shuffled : Value :=
  Sample.unpack [Lift.Sample.property "default" "d", Sample.placed "x" "y", Lift.Sample.property "z" "z"]

def Sample.shuffledImport : Value :=
  Syntax.importDeclaration [Syntax.importDefaultSpecifier (Lift.Sample.name "d"),
    Syntax.importSpecifier ((Sample.placed "x" "y").at "value") (Lift.Sample.name "x"),
    Syntax.importSpecifier (Lift.Sample.name "z") (Lift.Sample.name "z")] Sample.path

theorem render_determines_shuffled :
    classify Sample.mixed = .ok (some Sample.mixedImport) ∧ classify Sample.shuffled = .ok (some Sample.shuffledImport) ∧
      Syntax.render Sample.mixedImport = Syntax.render Sample.shuffledImport ∧
      (∃ text, Syntax.render Sample.mixedImport = .ok text ∧ Syntax.render Sample.shuffledImport = .ok text) ∧
      Syntax.defaultLocals Sample.mixedImport = Syntax.defaultLocals Sample.shuffledImport ∧
      Syntax.namedPairs Sample.mixedImport = Syntax.namedPairs Sample.shuffledImport ∧
      Syntax.sourceText Sample.mixedImport = Syntax.sourceText Sample.shuffledImport :=
  ⟨rfl, rfl, rfl, @render_determines Sample.mixed Sample.shuffled _ _ rfl rfl ⟨by decide, by decide⟩
    ⟨by decide, by decide⟩ rfl⟩

end Require
end EsmLift
