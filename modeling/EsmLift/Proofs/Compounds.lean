import EsmLift.Value.Mark

/-!
# `Proofs.Compounds` — what is inside a value, and which marks it carries

Everything that is said later about identity goes through one list: the **compounds** of a value, which are the
objects, lists and tuples in it. Marks are read off that list. A tuple cannot be edited in place and has no mark;
it counts as unmarked, so "all marks are positive" also says that there are no tuples.

## Contents

* `Value.induction`: induction over values, one case for all leaves;
* `Fields.lookup_map`: lookup in an object whose fields were mapped;
* the companions of `erase`, `refresh` as plain maps;
* `Value.compounds`, `Value.marks`, `Value.isJson`;
* `Value.count_marks_stamp`: every fresh mark is given exactly once, and no other mark is touched.
-/

namespace EsmLift

/-- Whether a value is an object, a list or a tuple. -/
def Value.isCompound : Value → Bool
  | .list .. | .tuple _ | .object .. => true
  | _ => false

/-- Induction over values: a compound may use what holds of its items or of the values of its fields. -/
@[elab_as_elim] theorem Value.induction {motive : Value → Prop}
    (leaf : ∀ v, v.isCompound = false → motive v)
    (list : ∀ mark items, (∀ v ∈ items, motive v) → motive (.list mark items))
    (tuple : ∀ items, (∀ v ∈ items, motive v) → motive (.tuple items))
    (object : ∀ mark fields, (∀ f ∈ fields, motive f.2) → motive (.object mark fields))
    (v : Value) : motive v :=
  @Value.rec motive (fun items => ∀ v ∈ items, motive v) (fun fields => ∀ f ∈ fields, motive f.2)
    (fun f => motive f.2) (leaf _ rfl) (fun _ => leaf _ rfl) (fun _ => leaf _ rfl) (fun _ => leaf _ rfl)
    (fun _ => leaf _ rfl) list tuple object (fun _ h => absurd h List.not_mem_nil)
    (fun _ _ head tail => List.forall_mem_cons.mpr ⟨head, tail⟩) (fun _ h => absurd h List.not_mem_nil)
    (fun _ _ head tail => List.forall_mem_cons.mpr ⟨head, tail⟩) (fun _ _ value => value) v

/-! ## Fields -/

/-- Lookup in fields whose values were changed, each by a function of its key. -/
theorem Fields.lookup_map (g : String → Value → Value) (fs : Fields) (key : String) :
    (fs.map fun f => (f.1, g f.1 f.2)).lookup key = (fs.lookup key).map (g key) := by
  induction fs with
  | nil => rfl
  | cons f rest ih =>
    obtain ⟨k, v⟩ := f
    by_cases h : key = k
    · subst h; simp
    · have hne : (key == k) = false := by simpa using h
      simp only [List.map_cons, List.lookup_cons, hne]
      exact ih

/-- A field that is found stands among the fields. -/
theorem Fields.mem_of_lookup {fs : Fields} {key : String} {v : Value} (h : fs.lookup key = some v) :
    (key, v) ∈ fs := by
  induction fs with
  | nil => simp at h
  | cons f rest ih =>
    obtain ⟨k, w⟩ := f
    by_cases hk : key = k
    · subst hk
      have hw : w = v := by simpa using h
      subst hw
      exact List.mem_cons_self
    · have hne : (key == k) = false := by simpa using hk
      rw [List.lookup_cons, hne] at h
      exact List.mem_cons_of_mem _ (ih h)

/-- A map that moves no item leaves a list as it is. -/
theorem items_map_self {g : Value → Value} {xs : List Value} (h : ∀ x ∈ xs, g x = x) : xs.map g = xs :=
  (List.map_congr_left h).trans (List.map_id' xs)

/-- A map that moves no value leaves fields as they are. -/
theorem Fields.map_self {g : String → Value → Value} {fs : Fields} (h : ∀ f ∈ fs, g f.1 f.2 = f.2) :
    (fs.map fun f => (f.1, g f.1 f.2)) = fs :=
  (List.map_congr_left fun f hf => by rw [h f hf]).trans (List.map_id' fs)

/-! ## Companion functions as plain maps -/

@[simp] theorem eraseItems_eq_map (xs : List Value) : Value.eraseItems xs = xs.map Value.erase := by
  induction xs with
  | nil => rfl
  | cons x rest ih => exact congrArg (x.erase :: ·) ih

@[simp] theorem eraseFields_eq_map (fs : Fields) :
    Value.eraseFields fs = fs.map fun f => (f.1, f.2.erase) := by
  induction fs with
  | nil => rfl
  | cons f rest ih => exact congrArg ((f.1, f.2.erase) :: ·) ih

@[simp] theorem refreshItems_eq_map (R : Revisions) (xs : List Value) :
    refreshItems R xs = xs.map (Value.refresh R) := by
  induction xs with
  | nil => rfl
  | cons x rest ih => exact congrArg (x.refresh R :: ·) ih

@[simp] theorem refreshFields_eq_map (R : Revisions) (fs : Fields) :
    refreshFields R fs = fs.map fun f => (f.1, f.2.refresh R) := by
  induction fs with
  | nil => rfl
  | cons f rest ih => exact congrArg ((f.1, f.2.refresh R) :: ·) ih

/-! ## Compounds and marks -/

namespace Value

/-- The mark of an object or a list; what has none counts as unmarked. -/
def mark : Value → Nat
  | list m _ => m
  | object m _ => m
  | _ => 0

mutual
/-- The objects, lists and tuples in a value, the value itself included, owners first. -/
def compounds : Value → List Value
  | list m xs => list m xs :: compoundsItems xs
  | tuple xs => tuple xs :: compoundsItems xs
  | object m fs => object m fs :: compoundsFields fs
  | _ => []

/-- The compounds in the items of a list. -/
def compoundsItems : List Value → List Value
  | [] => []
  | v :: rest => compounds v ++ compoundsItems rest

/-- The compounds in the fields of an object. -/
def compoundsFields : List (String × Value) → List Value
  | [] => []
  | (_, v) :: rest => compounds v ++ compoundsFields rest
end

/-- The marks in a value. -/
def marks (v : Value) : List Nat := v.compounds.map mark

/-- The marks in the items of a list. -/
def marksItems (xs : List Value) : List Nat := xs.flatMap marks

/-- The marks in the fields of an object. -/
def marksFields (fs : Fields) : List Nat := fs.flatMap fun f => f.2.marks

theorem compoundsItems_eq (xs : List Value) : compoundsItems xs = xs.flatMap compounds := by
  induction xs with
  | nil => rfl
  | cons x rest ih => exact congrArg (x.compounds ++ ·) ih

theorem compoundsFields_eq (fs : Fields) : compoundsFields fs = fs.flatMap fun f => f.2.compounds := by
  induction fs with
  | nil => rfl
  | cons f rest ih => exact congrArg (f.2.compounds ++ ·) ih

theorem compounds_list (m : Nat) (xs : List Value) : (list m xs).compounds = list m xs :: xs.flatMap compounds :=
  congrArg (list m xs :: ·) (compoundsItems_eq xs)

theorem compounds_tuple (xs : List Value) : (tuple xs).compounds = tuple xs :: xs.flatMap compounds :=
  congrArg (tuple xs :: ·) (compoundsItems_eq xs)

theorem compounds_object (m : Nat) (fs : Fields) :
    (object m fs).compounds = object m fs :: fs.flatMap fun f => f.2.compounds :=
  congrArg (object m fs :: ·) (compoundsFields_eq fs)

theorem compounds_leaf {v : Value} (h : v.isCompound = false) : v.compounds = [] := by
  cases v <;> first | rfl | cases h

@[simp] theorem marks_list (m : Nat) (xs : List Value) : (list m xs).marks = m :: marksItems xs := by
  rw [marks, compounds_list, List.map_cons, List.map_flatMap]
  rfl

@[simp] theorem marks_tuple (xs : List Value) : (tuple xs).marks = 0 :: marksItems xs := by
  rw [marks, compounds_tuple, List.map_cons, List.map_flatMap]
  rfl

@[simp] theorem marks_object (m : Nat) (fs : Fields) : (object m fs).marks = m :: marksFields fs := by
  rw [marks, compounds_object, List.map_cons, List.map_flatMap]
  rfl

theorem marks_leaf {v : Value} (h : v.isCompound = false) : v.marks = [] := by
  rw [marks, compounds_leaf h, List.map_nil]

@[simp] theorem marksItems_nil : marksItems [] = [] := rfl

@[simp] theorem marksItems_cons (v : Value) (rest : List Value) :
    marksItems (v :: rest) = v.marks ++ marksItems rest := rfl

@[simp] theorem marksItems_append (xs ys : List Value) :
    marksItems (xs ++ ys) = marksItems xs ++ marksItems ys := List.flatMap_append

@[simp] theorem marksFields_nil : marksFields [] = [] := rfl

@[simp] theorem marksFields_cons (f : String × Value) (rest : Fields) :
    marksFields (f :: rest) = f.2.marks ++ marksFields rest := rfl

@[simp] theorem marksFields_append (fs gs : Fields) :
    marksFields (fs ++ gs) = marksFields fs ++ marksFields gs := List.flatMap_append

theorem mem_compounds_list {c : Value} {m : Nat} {xs : List Value} :
    c ∈ (list m xs).compounds ↔ c = list m xs ∨ ∃ x ∈ xs, c ∈ x.compounds := by
  rw [compounds_list, List.mem_cons, List.mem_flatMap]

theorem mem_compounds_tuple {c : Value} {xs : List Value} :
    c ∈ (tuple xs).compounds ↔ c = tuple xs ∨ ∃ x ∈ xs, c ∈ x.compounds := by
  rw [compounds_tuple, List.mem_cons, List.mem_flatMap]

theorem mem_compounds_object {c : Value} {m : Nat} {fs : Fields} :
    c ∈ (object m fs).compounds ↔ c = object m fs ∨ ∃ f ∈ fs, c ∈ f.2.compounds := by
  rw [compounds_object, List.mem_cons, List.mem_flatMap]

/-- A mark that occurs once tells a compound from all others. -/
theorem eq_of_mark {v c d : Value} (hc : c ∈ v.compounds) (hd : d ∈ v.compounds) (heq : c.mark = d.mark)
    (honce : v.marks.count c.mark ≤ 1) : c = d := by
  rw [marks, List.count, List.countP_map, List.countP_eq_length_filter] at honce
  -- both are among the compounds with this mark, of which there is one at most
  have hc' := List.mem_filter.mpr ⟨hc, show ((· == c.mark) ∘ mark) c = true by simp⟩
  have hd' := List.mem_filter.mpr ⟨hd, show ((· == c.mark) ∘ mark) d = true by simp [heq]⟩
  generalize List.filter ((· == c.mark) ∘ mark) _ = alike at honce hc' hd'
  match alike with
  | [] => exact absurd hc' List.not_mem_nil
  | [e] => rw [List.mem_singleton.mp hc', List.mem_singleton.mp hd']
  | _ :: _ :: _ => exact absurd honce (by simp)

/-- The parts of a compound are compounds of its owner. -/
theorem compounds_trans {c d : Value} (v : Value) (hc : c ∈ v.compounds) (hd : d ∈ c.compounds) :
    d ∈ v.compounds := by
  induction v using Value.induction with
  | leaf v h => rw [compounds_leaf h] at hc; exact absurd hc List.not_mem_nil
  | list m xs ih =>
    rcases mem_compounds_list.mp hc with rfl | ⟨x, hx, hcx⟩
    · exact hd
    · exact mem_compounds_list.mpr (.inr ⟨x, hx, ih x hx hcx⟩)
  | tuple xs ih =>
    rcases mem_compounds_tuple.mp hc with rfl | ⟨x, hx, hcx⟩
    · exact hd
    · exact mem_compounds_tuple.mpr (.inr ⟨x, hx, ih x hx hcx⟩)
  | object m fs ih =>
    rcases mem_compounds_object.mp hc with rfl | ⟨f, hf, hcf⟩
    · exact hd
    · exact mem_compounds_object.mpr (.inr ⟨f, hf, ih f hf hcf⟩)

/-- The marks in a compound of a value are marks of the value. -/
theorem marks_of_compound {c v : Value} (hc : c ∈ v.compounds) {m : Nat} (hm : m ∈ c.marks) :
    m ∈ v.marks := by
  obtain ⟨d, hd, rfl⟩ := List.mem_map.mp hm
  exact List.mem_map.mpr ⟨d, compounds_trans v hc hd, rfl⟩

/-- Whether a value is a tuple. -/
def isTuple : Value → Bool
  | tuple _ => true
  | _ => false

/-- A tuple has no mark, so there is none in a value that is marked throughout. -/
theorem isTuple_of_marked {c v : Value} (h : ∀ m ∈ v.marks, 0 < m) (hc : c ∈ v.compounds) : c.isTuple = false := by
  cases c with
  | tuple xs => exact absurd (h 0 (List.mem_map_of_mem hc)) (Nat.lt_irrefl 0)
  | _ => rfl

/-- A value as it comes from a reader: nothing in it is marked yet, and there are no tuples. -/
def isJson (v : Value) : Bool := v.compounds.all fun c => c.mark == 0 && !c.isTuple

/-! ## Stamping -/

mutual
/-- A value all of whose compounds are marked is left as it is. -/
theorem stamp_of_marked (next : Nat) : (v : Value) → (∀ m ∈ v.marks, 0 < m) → v.stamp next = (v, next)
  | .null, _ | .bool _, _ | .int _, _ | .double _, _ | .text _, _ => rfl
  | .tuple xs, h => absurd (h 0 (by simp)) (Nat.lt_irrefl 0)
  | .list m xs, h => by
    obtain ⟨hm, hxs⟩ := List.forall_mem_cons.mp (marks_list m xs ▸ h)
    simp only [stamp, if_neg (Nat.ne_of_gt hm), stampItems_of_marked next xs hxs]
  | .object m fs, h => by
    obtain ⟨hm, hfs⟩ := List.forall_mem_cons.mp (marks_object m fs ▸ h)
    simp only [stamp, if_neg (Nat.ne_of_gt hm), stampFields_of_marked next fs hfs]

theorem stampItems_of_marked (next : Nat) :
    (xs : List Value) → (∀ m ∈ marksItems xs, 0 < m) → stampItems next xs = (xs, next)
  | [], _ => rfl
  | v :: rest, h => by
    obtain ⟨hv, hr⟩ := List.forall_mem_append.mp h
    simp only [stampItems, stamp_of_marked next v hv, stampItems_of_marked next rest hr]

theorem stampFields_of_marked (next : Nat) :
    (fs : Fields) → (∀ m ∈ marksFields fs, 0 < m) → stampFields next fs = (fs, next)
  | [], _ => rfl
  | (k, v) :: rest, h => by
    obtain ⟨hv, hr⟩ := List.forall_mem_append.mp h
    simp only [stampFields, stamp_of_marked next v hv, stampFields_of_marked next rest hr]
end

mutual
/-- Stamping changes marks only. -/
theorem erase_stamp (next : Nat) : (v : Value) → (v.stamp next).1.erase = v.erase
  | .null | .bool _ | .int _ | .double _ | .text _ => rfl
  | .tuple xs => by simp only [stamp, erase, erase_stampItems next xs]
  | .list m xs => by
    by_cases hm : m = 0
    · simp only [stamp, if_pos hm, erase, erase_stampItems (next + 1) xs]
    · simp only [stamp, if_neg hm, erase, erase_stampItems next xs]
  | .object m fs => by
    by_cases hm : m = 0
    · simp only [stamp, if_pos hm, erase, erase_stampFields (next + 1) fs]
    · simp only [stamp, if_neg hm, erase, erase_stampFields next fs]

theorem erase_stampItems (next : Nat) :
    (xs : List Value) → eraseItems (stampItems next xs).1 = eraseItems xs
  | [] => rfl
  | v :: rest => by
    simp only [stampItems, eraseItems, erase_stamp next v, erase_stampItems (v.stamp next).2 rest]

theorem erase_stampFields (next : Nat) :
    (fs : Fields) → eraseFields (stampFields next fs).1 = eraseFields fs
  | [] => rfl
  | (k, v) :: rest => by
    simp only [stampFields, eraseFields, erase_stamp next v, erase_stampFields (v.stamp next).2 rest]
end

theorem isObject_stamp (next : Nat) (v : Value) : (v.stamp next).1.isObject = v.isObject := by
  cases v with
  | list m xs => rw [stamp]; split <;> rfl
  | object m fs => rw [stamp]; split <;> rfl
  | _ => rfl

/-- One for a mark that is given between two states of the supply. -/
def given (next last m : Nat) : Nat := if next ≤ m ∧ m < last then 1 else 0

@[simp] theorem given_self (next m : Nat) : given next next m = 0 := by
  unfold given; exact if_neg (by omega)

theorem given_trans {a b c : Nat} (hab : a ≤ b) (hbc : b ≤ c) (m : Nat) :
    given a b m + given b c m = given a c m := by
  unfold given; grind

theorem given_succ {next last : Nat} (h : next + 1 ≤ last) (m : Nat) :
    given (next + 1) last m + (if next == m then 1 else 0) = given next last m := by
  unfold given; grind

theorem given_le_one (next last m : Nat) : given next last m ≤ 1 := by
  unfold given; split <;> omega

mutual
/-- Every fresh mark is given exactly once, and the other marks stay where they are. -/
theorem count_marks_stamp {m : Nat} (hm : 0 < m) (next : Nat) :
    (v : Value) → next ≤ (v.stamp next).2 ∧
      (v.stamp next).1.marks.count m = v.marks.count m + given next (v.stamp next).2 m
  | .null | .bool _ | .int _ | .double _ | .text _ => by simp [stamp]
  | .tuple xs => by
    obtain ⟨hle, hc⟩ := count_marks_stampItems hm next xs
    simp only [stamp, marks_tuple, List.count_cons, hc]
    exact ⟨hle, by omega⟩
  | .list k xs => by
    by_cases hk : k = 0
    · obtain ⟨hle, hc⟩ := count_marks_stampItems hm (next + 1) xs
      have hk' : (k == m) = false := by simp; omega
      simp only [stamp, if_pos hk, marks_list, List.count_cons, hc, hk', ← given_succ hle m]
      exact ⟨by omega, by simp; omega⟩
    · obtain ⟨hle, hc⟩ := count_marks_stampItems hm next xs
      simp only [stamp, if_neg hk, marks_list, List.count_cons, hc]
      exact ⟨hle, by omega⟩
  | .object k fs => by
    by_cases hk : k = 0
    · obtain ⟨hle, hc⟩ := count_marks_stampFields hm (next + 1) fs
      have hk' : (k == m) = false := by simp; omega
      simp only [stamp, if_pos hk, marks_object, List.count_cons, hc, hk', ← given_succ hle m]
      exact ⟨by omega, by simp; omega⟩
    · obtain ⟨hle, hc⟩ := count_marks_stampFields hm next fs
      simp only [stamp, if_neg hk, marks_object, List.count_cons, hc]
      exact ⟨hle, by omega⟩

theorem count_marks_stampItems {m : Nat} (hm : 0 < m) (next : Nat) :
    (xs : List Value) → next ≤ (stampItems next xs).2 ∧
      (marksItems (stampItems next xs).1).count m
        = (marksItems xs).count m + given next (stampItems next xs).2 m
  | [] => by simp [stampItems]
  | v :: rest => by
    obtain ⟨hle, hc⟩ := count_marks_stamp hm next v
    obtain ⟨hle', hc'⟩ := count_marks_stampItems hm (v.stamp next).2 rest
    simp only [stampItems, marksItems_cons, List.count_append, hc, hc', ← given_trans hle hle' m]
    exact ⟨by omega, by omega⟩

theorem count_marks_stampFields {m : Nat} (hm : 0 < m) (next : Nat) :
    (fs : Fields) → next ≤ (stampFields next fs).2 ∧
      (marksFields (stampFields next fs).1).count m
        = (marksFields fs).count m + given next (stampFields next fs).2 m
  | [] => by simp [stampFields]
  | (k, v) :: rest => by
    obtain ⟨hle, hc⟩ := count_marks_stamp hm next v
    obtain ⟨hle', hc'⟩ := count_marks_stampFields hm (v.stamp next).2 rest
    simp only [stampFields, marksFields_cons, List.count_append, hc, hc', ← given_trans hle hle' m]
    exact ⟨by omega, by omega⟩
end

mutual
/-- Stamping gives fresh marks to new compounds, and leaves a part that is marked throughout as it is. -/
theorem mem_compounds_stamp {c : Value} (next : Nat) :
    (v : Value) → (∀ d ∈ v.compounds, (d.mark = 0 ∧ d.isTuple = false) ∨ ∀ m ∈ d.marks, 0 < m) →
      c ∈ (v.stamp next).1.compounds →
      (next ≤ c.mark ∧ ∃ d ∈ v.compounds, d.mark = 0 ∧ c.erase = d.erase) ∨ c ∈ v.compounds ∧ 0 < c.mark
  | .null, _, h | .bool _, _, h | .int _, _, h | .double _, _, h | .text _, _, h => absurd h List.not_mem_nil
  | .tuple xs, hv, _ => by
    rcases hv _ List.mem_cons_self with ⟨_, h⟩ | h
    · cases h
    · exact absurd (h 0 (by simp)) (Nat.lt_irrefl 0)
  | .list m xs, hv, h => by
    by_cases hm : m = 0
    · have herase := erase_stamp next (.list m xs)
      simp only [stamp, if_pos hm] at h herase
      rcases List.mem_cons.mp h with rfl | h
      · exact .inl ⟨Nat.le_refl next, _, List.mem_cons_self, hm, herase⟩
      · have hxs := mem_compounds_stampItems (next + 1) xs (fun d hd => hv d (List.mem_cons_of_mem _ hd)) h
        exact hxs.imp (fun ⟨hle, d, hd, hnew⟩ => ⟨Nat.le_of_succ_le hle, d, List.mem_cons_of_mem _ hd, hnew⟩)
          fun h => ⟨List.mem_cons_of_mem _ h.1, h.2⟩
    · rcases hv _ List.mem_cons_self with ⟨h0, _⟩ | hall
      · exact absurd h0 hm
      · rw [stamp_of_marked next _ hall] at h
        exact .inr ⟨h, hall _ (List.mem_map_of_mem h)⟩
  | .object m fs, hv, h => by
    by_cases hm : m = 0
    · have herase := erase_stamp next (.object m fs)
      simp only [stamp, if_pos hm] at h herase
      rcases List.mem_cons.mp h with rfl | h
      · exact .inl ⟨Nat.le_refl next, _, List.mem_cons_self, hm, herase⟩
      · have hfs := mem_compounds_stampFields (next + 1) fs (fun d hd => hv d (List.mem_cons_of_mem _ hd)) h
        exact hfs.imp (fun ⟨hle, d, hd, hnew⟩ => ⟨Nat.le_of_succ_le hle, d, List.mem_cons_of_mem _ hd, hnew⟩)
          fun h => ⟨List.mem_cons_of_mem _ h.1, h.2⟩
    · rcases hv _ List.mem_cons_self with ⟨h0, _⟩ | hall
      · exact absurd h0 hm
      · rw [stamp_of_marked next _ hall] at h
        exact .inr ⟨h, hall _ (List.mem_map_of_mem h)⟩

theorem mem_compounds_stampItems {c : Value} (next : Nat) :
    (xs : List Value) → (∀ d ∈ compoundsItems xs, (d.mark = 0 ∧ d.isTuple = false) ∨ ∀ m ∈ d.marks, 0 < m) →
      c ∈ compoundsItems (stampItems next xs).1 →
      (next ≤ c.mark ∧ ∃ d ∈ compoundsItems xs, d.mark = 0 ∧ c.erase = d.erase) ∨
        c ∈ compoundsItems xs ∧ 0 < c.mark
  | [], _, h => absurd h List.not_mem_nil
  | v :: rest, hv, h => by
    simp only [stampItems, compoundsItems] at h hv ⊢
    obtain ⟨hhead, htail⟩ := List.forall_mem_append.mp hv
    rcases List.mem_append.mp h with h | h
    · exact (mem_compounds_stamp next v hhead h).imp
        (fun ⟨hle, d, hd, hnew⟩ => ⟨hle, d, List.mem_append_left _ hd, hnew⟩) fun h => ⟨List.mem_append_left _ h.1, h.2⟩
    · have hnext := (count_marks_stamp Nat.one_pos next v).1
      exact (mem_compounds_stampItems _ rest htail h).imp
        (fun ⟨hle, d, hd, hnew⟩ => ⟨Nat.le_trans hnext hle, d, List.mem_append_right _ hd, hnew⟩)
        fun h => ⟨List.mem_append_right _ h.1, h.2⟩

theorem mem_compounds_stampFields {c : Value} (next : Nat) :
    (fs : List (String × Value)) →
      (∀ d ∈ compoundsFields fs, (d.mark = 0 ∧ d.isTuple = false) ∨ ∀ m ∈ d.marks, 0 < m) →
      c ∈ compoundsFields (stampFields next fs).1 →
      (next ≤ c.mark ∧ ∃ d ∈ compoundsFields fs, d.mark = 0 ∧ c.erase = d.erase) ∨
        c ∈ compoundsFields fs ∧ 0 < c.mark
  | [], _, h => absurd h List.not_mem_nil
  | (k, v) :: rest, hv, h => by
    simp only [stampFields, compoundsFields] at h hv ⊢
    obtain ⟨hhead, htail⟩ := List.forall_mem_append.mp hv
    rcases List.mem_append.mp h with h | h
    · exact (mem_compounds_stamp next v hhead h).imp
        (fun ⟨hle, d, hd, hnew⟩ => ⟨hle, d, List.mem_append_left _ hd, hnew⟩) fun h => ⟨List.mem_append_left _ h.1, h.2⟩
    · have hnext := (count_marks_stamp Nat.one_pos next v).1
      exact (mem_compounds_stampFields _ rest htail h).imp
        (fun ⟨hle, d, hd, hnew⟩ => ⟨Nat.le_trans hnext hle, d, List.mem_append_right _ hd, hnew⟩)
        fun h => ⟨List.mem_append_right _ h.1, h.2⟩
end

end Value
end EsmLift
