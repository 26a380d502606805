import Mathlib.Data.List.TakeWhile
import TripletSat.Proofs.Dimacs.Grammar
import TripletSat.Proofs.Recording

/-!
Texts that restore their formulas. A printed formula is a header line and one line for each octant, and
the octants alone, tier after tier, give the formula back with its permutation.
-/

namespace TripletSat

/-! ### Counting octants -/

namespace OctantSet

theorem size_le_eight (s : OctantSet) : s.size ≤ 8 := by
  rw [size_eq_length]
  exact List.length_filter_le _ _

end OctantSet

namespace Tier

theorem count_le_eight_mul (ts : List Tier) : count ts ≤ 8 * ts.length := by
  induction ts with
  | nil => exact Nat.le_refl _
  | cons t rest ih =>
    have eight : t.size ≤ 8 := t.octants.size_le_eight
    rw [count_cons, List.length_cons]
    omega

end Tier

/-- Clauses give at most one octant each. -/
theorem Formula.clauseCount_ofClauses_le (clauses : List Clause) :
    (ofClauses clauses).clauseCount ≤ clauses.length := by
  rw [clauseCount_ofClauses, ← List.length_map (f := Clause.litSet)]
  exact List.toFinset_card_le _

/-! ### The text of a clause -/

namespace Dimacs

open Text (lead?)

/-- Magnitudes below 2^31 fit in 32 bits under either sign. -/
theorem le_maxValue_of_lt {v : Nat} (small : v < 2 ^ 31) : (v : Int) ≤ Int32.maxValue.toInt := by
  have : Int32.maxValue.toInt = 2147483647 := by decide
  omega

theorem toList_text (l : Lit) :
    l.text.toList = if l.negated then '-' :: Nat.toDigits 10 l.name else Nat.toDigits 10 l.name := by
  have positive := l.name_pos
  unfold Lit.text Lit.signed
  rw [Int.toString_eq_repr, Int.repr_eq_if]
  split
  · rw [if_neg (by omega)]
    simp
  · rw [if_pos (by omega)]
    simp

theorem number?_text {l : Lit} (small : l.name < 2 ^ 31) : number? l.text.toList = some l.signed := by
  have inRange : l.signed ≠ Int32.minValue.toInt := by
    intro least
    have magnitude := congrArg Int.natAbs least
    rw [l.natAbs_signed, show Int32.minValue.toInt.natAbs = 2 ^ 31 by decide] at magnitude
    omega
  have value : Text.integer? l.text.toList = some l.signed := by
    rw [toList_text, Lit.signed]
    split
    · exact Text.integer?_neg_toDigits (le_maxValue_of_lt small)
    · exact Text.integer?_toDigits (le_maxValue_of_lt small)
  rw [number?, value, Option.filter_some, if_pos (decide_eq_true inRange)]

/-- The characters of numbers. -/
theorem digit_of_mem_text {l : Lit} {c : Char} (h : c ∈ l.text.toList) : c = '-' ∨ c.isDigit = true := by
  rw [toList_text] at h
  split at h
  · exact (List.mem_cons.mp h).imp id Text.isDigit_of_mem_toDigits
  · exact .inr (Text.isDigit_of_mem_toDigits h)

theorem text_ne_nil (l : Lit) : l.text.toList ≠ [] := by
  rw [toList_text]
  split
  · exact List.cons_ne_nil _ _
  · exact Nat.toDigits_ne_nil

/-- The words of a clause, with its zero. -/
def clauseWordsOf (c : Clause) : List (List Char) := c.lits.map (·.text.toList) ++ [['0']]

/-- The line of a clause. -/
def clauseLine (c : Clause) : List Char := [' '].intercalate (clauseWordsOf c)

theorem toList_clause_text (c : Clause) :
    c.text.toList ++ " 0\n".toList = clauseLine c ++ ['\n'] := by
  simp [Clause.text, clauseLine, clauseWordsOf, Clause.lits, List.intercalate]

theorem digit_of_mem_clauseWordsOf {c : Clause} {w : List Char} (hw : w ∈ clauseWordsOf c) {ch : Char}
    (h : ch ∈ w) : ch = '-' ∨ ch.isDigit = true := by
  rcases List.mem_append.mp hw with text | zero
  · obtain ⟨l, -, rfl⟩ := List.mem_map.mp text
    exact digit_of_mem_text h
  · obtain rfl := List.mem_singleton.mp zero
    obtain rfl := List.mem_singleton.mp h
    exact .inr rfl

theorem isBlank_of_digit {ch : Char} (h : ch = '-' ∨ ch.isDigit = true) : Text.isBlank ch = false := by
  rcases h with rfl | digit
  · rfl
  · exact Text.isBlank_of_isDigit digit

theorem unbroken_clauseWordsOf (c : Clause) : Text.Unbroken (clauseWordsOf c) := by
  intro w hw
  refine ⟨?_, fun ch h => isBlank_of_digit (digit_of_mem_clauseWordsOf hw h)⟩
  rcases List.mem_append.mp hw with text | zero
  · obtain ⟨l, -, rfl⟩ := List.mem_map.mp text
    exact text_ne_nil l
  · obtain rfl := List.mem_singleton.mp zero
    exact List.cons_ne_nil _ _

theorem words_clauseLine (c : Clause) : Text.words (clauseLine c) = clauseWordsOf c :=
  Text.words_intercalate rfl (unbroken_clauseWordsOf c)

theorem numbers_clauseLine {c : Clause} (small : ∀ v ∈ c.triple.names, v < 2 ^ 31) :
    (Text.words (clauseLine c)).mapM number? = some (Row.ofClause c).ended := by
  have zero : number? ['0'] = some 0 := by decide
  rw [words_clauseLine]
  simp [clauseWordsOf, Clause.lits, List.mapM_cons, zero,
    number?_text (small _ (c.triple.name_mem_names .a)),
    number?_text (small _ (c.triple.name_mem_names .b)),
    number?_text (small _ (c.triple.name_mem_names .c))]
  rfl

theorem numbers_clauseLines {clauses : List Clause}
    (small : ∀ c ∈ clauses, ∀ v ∈ c.triple.names, v < 2 ^ 31) :
    ((clauses.map clauseLine).flatMap Text.words).mapM number? =
      some ((clauses.map Row.ofClause).flatMap Row.ended) := by
  induction clauses with
  | nil => rfl
  | cons c rest ih =>
    obtain ⟨first, later⟩ := List.forall_mem_cons.mp small
    rw [List.map_cons, List.flatMap_cons, List.mapM_append, numbers_clauseLine first, ih later]
    rfl

theorem lead_clauseLine (c : Clause) :
    ∃ ch, lead? (clauseLine c) = some ch ∧ (ch = '-' ∨ ch.isDigit = true) := by
  rw [← Text.head?_words, words_clauseLine]
  obtain ⟨ch, rest, text⟩ := List.exists_cons_of_ne_nil (text_ne_nil c.a)
  refine ⟨ch, ?_, digit_of_mem_text (l := c.a) (text ▸ List.mem_cons_self)⟩
  simp [clauseWordsOf, Clause.lits, text]

/-! ### The text of a formula -/

theorem foldl_max_le_iff {names : List Nat} {a b : Nat} :
    names.foldl max a ≤ b ↔ a ≤ b ∧ ∀ v ∈ names, v ≤ b := by
  induction names generalizing a with
  | nil => simp
  | cons v rest ih => rw [List.foldl_cons, ih, Nat.max_le, List.forall_mem_cons, and_assoc]

/-- The words of the header. -/
def headerWords (vars clauses : Nat) : List (List Char) :=
  [['p'], ['c', 'n', 'f'], Nat.toDigits 10 vars, Nat.toDigits 10 clauses]

theorem unbroken_headerWords (vars clauses : Nat) : Text.Unbroken (headerWords vars clauses) := by
  have number (n : Nat) : Nat.toDigits 10 n ≠ [] ∧ ∀ c ∈ Nat.toDigits 10 n, Text.isBlank c = false :=
    ⟨Nat.toDigits_ne_nil, fun _ h => Text.isBlank_of_isDigit (Text.isDigit_of_mem_toDigits h)⟩
  have letters (c : Char) (rest : List Char) (solid : (c :: rest).all (!Text.isBlank ·) = true) :
      c :: rest ≠ [] ∧ ∀ d ∈ c :: rest, Text.isBlank d = false :=
    ⟨List.cons_ne_nil _ _, by simpa using solid⟩
  refine List.forall_mem_cons.mpr ⟨letters _ _ rfl, List.forall_mem_cons.mpr ⟨letters _ _ rfl, ?_⟩⟩
  exact List.forall_mem_cons.mpr ⟨number _, List.forall_mem_singleton.mpr (number _)⟩

/-- The line of the header. -/
def headerChars (f : Formula) : List Char :=
  [' '].intercalate (headerWords (f.permutation.names.foldl max 0) f.clauseCount)

theorem toList_headerLine (f : Formula) : (headerLine f).toList = headerChars f ++ ['\n'] := by
  simp [headerLine, headerChars, headerWords, List.intercalate]
  rfl

theorem words_headerChars (f : Formula) : Text.words (headerChars f) =
    headerWords (f.permutation.names.foldl max 0) f.clauseCount :=
  Text.words_intercalate rfl (unbroken_headerWords _ _)

theorem heads_headerChars {f : Formula} (small : ∀ v ∈ f.permutation.names, v < 2 ^ 31)
    (counted : f.clauseCount < UInt64.size) :
    (⟨f.permutation.names.foldl max 0, f.clauseCount⟩ : Header).Heads (Text.words (headerChars f)) := by
  have greatest : f.permutation.names.foldl max 0 ≤ 2 ^ 31 - 1 :=
    foldl_max_le_iff.mpr ⟨Nat.zero_le _, fun v hv => Nat.le_sub_one_of_lt (small v hv)⟩
  have vars : f.permutation.names.foldl max 0 < UInt64.size :=
    Nat.lt_of_le_of_lt greatest (by decide)
  exact ⟨_, _, words_headerChars f, Text.count?_toDigits vars, Text.count?_toDigits counted⟩

variable {f : Formula} {text : String} {clauses : List Clause}

theorem contentLines_of_print (lines : text.toList = headerChars f ++ '\n' ::
      (clauses.map clauseLine).flatMap (· ++ ['\n'])) :
    contentLines text = headerChars f :: clauses.map clauseLine := by
  have unbroken : ∀ line ∈ headerChars f :: clauses.map clauseLine, '\n' ∉ line :=
    List.forall_mem_cons.mpr ⟨Text.feed_not_mem_intercalate (unbroken_headerWords _ _),
      List.forall_mem_map.mpr fun c _ => Text.feed_not_mem_intercalate (unbroken_clauseWordsOf c)⟩
  have leads : ∀ line ∈ headerChars f :: clauses.map clauseLine,
      ∃ ch, lead? line = some ch ∧ ch ≠ '%' ∧ ch ≠ 'c' := by
    refine List.forall_mem_cons.mpr ⟨⟨'p', ?_, by decide⟩, List.forall_mem_map.mpr fun c _ => ?_⟩
    · rw [← Text.head?_words, words_headerChars]
      rfl
    · obtain ⟨ch, lead, digit⟩ := lead_clauseLine c
      refine ⟨ch, lead, ?_, ?_⟩ <;> rintro rfl <;> exact absurd digit (by decide)
  have all : Text.lines text.toList = headerChars f :: clauses.map clauseLine := by
    rw [lines, ← Text.lines_flatMap unbroken, List.flatMap_cons, List.append_assoc]
    rfl
  unfold contentLines
  rw [all, List.takeWhile_eq_self_iff.mpr, List.filter_eq_self.mpr]
  · intro line hl
    obtain ⟨ch, lead, -, other⟩ := leads line hl
    simp [lead, other]
  · intro line hl
    obtain ⟨ch, lead, other, -⟩ := leads line hl
    simp [lead, other]

/-- The printed clauses are rows under the printed header. -/
theorem spells_of_print (small : ∀ v ∈ f.permutation.names, v < 2 ^ 31)
    (counted : f.clauseCount < UInt64.size)
    (known : ∀ c ∈ clauses, ∀ v ∈ c.triple.names, v ∈ f.permutation.names)
    (lines : text.toList = headerChars f ++ '\n' :: (clauses.map clauseLine).flatMap (· ++ ['\n'])) :
    Spells text ⟨f.permutation.names.foldl max 0, f.clauseCount⟩ (clauses.map Row.ofClause) := by
  have content := contentLines_of_print lines
  refine ⟨⟨headerChars f, by rw [content]; rfl, heads_headerChars small counted⟩, ?_, ?_⟩
  · rw [content]
    refine List.forall_mem_map.mpr fun c _ => ?_
    obtain ⟨ch, lead, digit⟩ := lead_clauseLine c
    rw [lead]
    rintro ⟨rfl⟩
    exact absurd digit (by decide)
  · rw [content]
    exact numbers_clauseLines fun c hc v hv => small v (known c hc v hv)

/-- The text of the formula is read as the formula, without a warning. -/
def Restored (f : Formula) : Prop :=
  ∃ text d, print f = .ok text ∧ Document.read text = .ok d ∧ d.formula = f ∧ d.warnings = []

theorem restored_of_grown (h : f.Grown) (positive : ∀ v ∈ f.permutation.names, 0 < v)
    (small : ∀ v ∈ f.permutation.names, v < 2 ^ 31) (counted : f.clauseCount < UInt64.size) :
    Restored f := by
  obtain ⟨clauses, run, back, length, triples⟩ := h.clauses_returns positive
  have known (c : Clause) (hc : c ∈ clauses) : ∀ v ∈ c.triple.names, v ∈ f.permutation.names := by
    obtain ⟨t, ht, same⟩ := (triples c.triple).mp ⟨c, hc, rfl⟩
    rw [← same]
    exact h.known t ht
  let text := headerLine f ++ String.join (clauses.map fun c => c.text ++ " 0\n")
  have lines : text.toList =
      headerChars f ++ '\n' :: (clauses.map clauseLine).flatMap (· ++ ['\n']) := by
    simp only [text, String.toList_append, toList_headerLine, String.toList_join, List.flatMap_map,
      toList_clause_text, List.append_assoc, List.singleton_append]
  have spells := spells_of_print small counted known lines
  refine ⟨text, ⟨⟨_, _⟩, clauses⟩, ?_, Document.read_eq_ok_iff.mpr ⟨_, spells, ?_⟩, ?_, ?_⟩
  · unfold print
    rw [run]
    rfl
  · simp [Function.comp_def]
  · exact back
  · have below : (clauses.flatMap (·.triple.names)).foldl max 0 ≤ f.permutation.names.foldl max 0 := by
      refine foldl_max_le_iff.mpr ⟨Nat.zero_le _, fun v hv => ?_⟩
      obtain ⟨c, hc, hv⟩ := List.mem_flatMap.mp hv
      exact (foldl_max_le_iff.mp (Nat.le_refl _)).2 v (known c hc v hv)
    unfold Document.warnings Document.maxVar
    rw [if_pos length.symm, if_pos below]
    rfl

theorem size_lt_of_names {p : Permutation} (small : ∀ v ∈ p.names, v < 2 ^ 31) : p.size ≤ 2 ^ 31 := by
  have part : p.names ⊆ List.range (2 ^ 31) := fun v hv => List.mem_range.mpr (small v hv)
  have length := (List.subperm_of_subset p.nodup part).length_le
  rwa [List.length_range] at length

/-- Printed text restores the formula of any clauses over 31-bit names, as many as a list in memory may
hold, and any structure over such names without empty tiers: the permutation, the tiers in their order
and their octants. No warning comes with it. -/
theorem print_restores :
    (∀ clauses : List Clause, clauses.length < UInt64.size →
      (∀ c ∈ clauses, ∀ v ∈ c.triple.names, v < 2 ^ 31) → Restored (.ofClauses clauses)) ∧
    ∀ f : Formula, f.Compact → f.Solid → (∀ v ∈ f.permutation.names, 0 < v ∧ v < 2 ^ 31) →
      Restored f := by
  refine ⟨fun clauses count small => ?_, fun f compact solid names => ?_⟩
  · have encodes := Formula.encodes_ofClauses clauses
    refine restored_of_grown (Formula.grown_ofClauses clauses) (fun v hv => encodes.name_pos hv)
      (fun v hv => ?_) (Nat.lt_of_le_of_lt (Formula.clauseCount_ofClauses_le clauses) count)
    obtain ⟨c, hc, hv⟩ := (encodes.names v).mp hv
    exact small c hc v hv
  · have small (v : Nat) (hv : v ∈ f.permutation.names) : v < 2 ^ 31 := (names v hv).2
    have counted : f.clauseCount < UInt64.size := by
      have octants := Tier.count_le_eight_mul f.tiers
      have tiers := compact.count
      have size := size_lt_of_names small
      have wide : UInt64.size = 2 ^ 64 := rfl
      unfold Formula.clauseCount
      omega
    exact restored_of_grown (compact.grown solid) (fun v hv => (names v hv).1) small counted

/-- Two clauses over the same variables, in one tier, and one octant of a window. -/
theorem print_restores_braided :
    Restored (.ofClauses [⟨⟨2, true, by decide⟩, ⟨9, false, by decide⟩, ⟨4, true, by decide⟩,
        by decide, by decide, by decide⟩,
      ⟨⟨4, false, by decide⟩, ⟨2, true, by decide⟩, ⟨9, true, by decide⟩,
        by decide, by decide, by decide⟩]) ∧
      Restored ⟨⟨[7, 3, 5], by decide⟩, [⟨⟨7, 3, 5, by decide, by decide, by decide⟩,
        OctantSet.empty.insert ⟨true, false, true⟩⟩]⟩ :=
  ⟨print_restores.1 _ (by decide) (by decide),
    print_restores.2 _ (Formula.Windowed.compact rfl (List.cons_ne_nil _ _))
      (List.forall_mem_singleton.mpr (by decide)) (by decide)⟩

end Dimacs

end TripletSat
