import Mathlib.Data.List.Induction
import Mathlib.Data.List.Shortlex
import Mathlib.Tactic.Ring
import TripletSat.Render

/-!
Letter names. A word over the letters is a number in base 26 whose digits go from one to 26, so that no
word is written twice. `lettersBefore` writes the word of each number and `wordValue` reads it back; the
words stand in the order of their lengths, and those of one length in alphabetical order.
-/

namespace TripletSat.Render

/-! ### Digits -/

/-- The place of a letter in the alphabet, from one on. -/
def digit (c : Char) : Nat := c.toNat - 'a'.toNat + 1

theorem digit_pos (c : Char) : 0 < digit c := Nat.succ_pos _

theorem isLower_iff {c : Char} : c.isLower = true ↔ 'a'.toNat ≤ c.toNat ∧ c.toNat ≤ 'z'.toNat := by
  show ('a'.val ≤ c.val && c.val ≤ 'z'.val) = true ↔ _
  rw [Bool.and_eq_true, decide_eq_true_iff, decide_eq_true_iff]
  exact Iff.rfl

theorem digit_le {c : Char} (lower : c.isLower = true) : digit c ≤ 26 := by
  have last : 'z'.toNat = 'a'.toNat + 25 := rfl
  have := (isLower_iff.mp lower).2
  unfold digit
  omega

theorem digit_lt_digit {c d : Char} (lower : c.isLower = true) (before : c < d) :
    digit c < digit d := by
  have first := (isLower_iff.mp lower).1
  have : c.toNat < d.toNat := before
  unfold digit
  omega

theorem digit_letter : ∀ n < 26, digit (letter n) = n + 1 := by decide

theorem isLower_letter : ∀ n < 26, (letter n).isLower = true := by decide

theorem letter_digit {c : Char} (lower : c.isLower = true) : letter (digit c - 1) = c := by
  have first := (isLower_iff.mp lower).1
  unfold letter digit
  rw [Nat.add_sub_cancel, Nat.add_sub_cancel' first, Char.ofNat_toNat]

/-! ### Words -/

/-- The number that a word stands for. -/
def wordValue (word : List Char) : Nat := word.foldl (fun n c => 26 * n + digit c) 0

variable {s t word tail : List Char}

theorem wordValue_append_singleton (word : List Char) (c : Char) :
    wordValue (word ++ [c]) = 26 * wordValue word + digit c :=
  List.foldl_append

theorem wordValue_append (s t : List Char) :
    wordValue (s ++ t) = wordValue s * 26 ^ t.length + wordValue t := by
  induction t using List.reverseRecOn with
  | nil => simp [wordValue]
  | append_singleton t c ih =>
    rw [← List.append_assoc, wordValue_append_singleton, wordValue_append_singleton, ih,
      List.length_append, List.length_singleton]
    ring

theorem wordValue_cons (c : Char) (t : List Char) :
    wordValue (c :: t) = digit c * 26 ^ t.length + wordValue t := by
  have one : wordValue [c] = digit c := Nat.zero_add _
  rw [← List.singleton_append, wordValue_append, one]

theorem wordValue_pos (some : word ≠ []) : 0 < wordValue word := by
  obtain ⟨c, t, rfl⟩ := List.exists_cons_of_ne_nil some
  rw [wordValue_cons]
  exact Nat.add_pos_left (Nat.mul_pos (digit_pos c) (Nat.pow_pos (by decide))) _

/-- A word is read back from its number. -/
theorem lettersBefore_wordValue (lower : ∀ c ∈ word, c.isLower = true) (tail : List Char) :
    lettersBefore tail (wordValue word) = word ++ tail := by
  induction word using List.reverseRecOn generalizing tail with
  | nil => rw [wordValue, List.foldl_nil, lettersBefore, List.nil_append]
  | append_singleton word c ih =>
    have last := lower c (by simp)
    have small := digit_le last
    obtain ⟨n, digit_eq⟩ := Nat.exists_eq_succ_of_ne_zero (Nat.ne_of_gt (digit_pos c))
    have letter_eq : letter n = c := by
      have there := letter_digit last
      rwa [digit_eq, Nat.succ_sub_one] at there
    rw [wordValue_append_singleton, digit_eq, Nat.succ_eq_add_one, ← Nat.add_assoc, lettersBefore,
      show (26 * wordValue word + n) % 26 = n by omega,
      show (26 * wordValue word + n) / 26 = wordValue word by omega, letter_eq,
      ih fun d hd => lower d (List.mem_append_left _ hd), List.append_assoc, List.singleton_append]

/-- A number is read back from its word, over letters only. -/
theorem wordValue_lettersBefore (tail : List Char) (n : Nat) :
    wordValue (lettersBefore tail n) = n * 26 ^ tail.length + wordValue tail ∧
      ∀ c ∈ lettersBefore tail n, c.isLower = true ∨ c ∈ tail := by
  fun_induction lettersBefore tail n with
  | case1 tail => exact ⟨by simp, fun c hc => .inr hc⟩
  | case2 tail n ih =>
    have small : n % 26 < 26 := Nat.mod_lt n (by decide)
    obtain ⟨value, letters⟩ := ih
    refine ⟨?_, fun c hc => ?_⟩
    · have parts : 26 * (n / 26) + (n % 26 + 1) = n + 1 := by omega
      rw [value, wordValue_cons, digit_letter _ small, List.length_cons, Nat.pow_succ]
      calc _ = (26 * (n / 26) + (n % 26 + 1)) * 26 ^ tail.length + wordValue tail := by ring
        _ = _ := by rw [parts]
    · rcases letters c hc with lower | member
      · exact .inl lower
      · rcases List.mem_cons.mp member with rfl | member
        · exact .inl (isLower_letter _ small)
        · exact .inr member

/-! ### Order -/

theorem wordValue_lt_of_length_eq (lower : ∀ c ∈ s, c.isLower = true) (same : s.length = t.length) :
    wordValue s < 26 ^ t.length + wordValue t := by
  induction s generalizing t with
  | nil => exact Nat.add_pos_left (Nat.pow_pos (by decide)) _
  | cons c s ih =>
    match t with
    | d :: t =>
      obtain ⟨first, lower⟩ := List.forall_mem_cons.mp lower
      have same : s.length = t.length := Nat.succ.inj same
      have later := ih lower same
      have high := Nat.mul_le_mul_right (26 ^ t.length) (digit_le first)
      have low := Nat.mul_le_mul_right (26 ^ t.length) (digit_pos d)
      rw [wordValue_cons, wordValue_cons, same, List.length_cons, Nat.pow_succ]
      omega

theorem wordValue_lt_of_length_lt (lower : ∀ c ∈ s, c.isLower = true) (shorter : s.length < t.length) :
    wordValue s < wordValue t := by
  -- The last letters of the longer word are as many as the shorter one has.
  have length : (t.drop (t.length - s.length)).length = s.length := by
    rw [List.length_drop]
    omega
  have front : 0 < wordValue (t.take (t.length - s.length)) := by
    refine wordValue_pos fun none => ?_
    have := congrArg List.length none
    rw [List.length_take, List.length_nil] at this
    omega
  have near := wordValue_lt_of_length_eq lower length.symm
  have high := Nat.mul_le_mul_right (26 ^ s.length) front
  rw [← List.take_append_drop (t.length - s.length) t, wordValue_append]
  rw [length] at near ⊢
  omega

theorem wordValue_lt_of_lex (lower : ∀ c ∈ s, c.isLower = true) (same : s.length = t.length)
    (before : List.Lex (· < ·) s t) : wordValue s < wordValue t := by
  induction before with
  | nil => cases same
  | cons _ ih =>
    have same := Nat.succ.inj same
    rw [wordValue_cons, wordValue_cons, same]
    exact Nat.add_lt_add_left (ih (List.forall_mem_cons.mp lower).2 same) _
  | @rel c s d t first =>
    obtain ⟨here, lower⟩ := List.forall_mem_cons.mp lower
    have same : s.length = t.length := Nat.succ.inj same
    have near := wordValue_lt_of_length_eq lower same
    have high : digit c * 26 ^ t.length + 26 ^ t.length ≤ digit d * 26 ^ t.length := by
      rw [← Nat.succ_mul]
      exact Nat.mul_le_mul_right _ (digit_lt_digit here first)
    rw [wordValue_cons, wordValue_cons, same]
    omega

theorem wordValue_lt_of_shortlex (lower : ∀ c ∈ s, c.isLower = true)
    (before : List.Shortlex (· < ·) s t) : wordValue s < wordValue t := by
  rcases List.shortlex_def.mp before with shorter | ⟨same, before⟩
  · exact wordValue_lt_of_length_lt lower shorter
  · exact wordValue_lt_of_lex lower same before

/-! ### Names -/

theorem toList_letterName (v : Nat) : (letterName v).toList = lettersBefore [] v :=
  String.toList_ofList

theorem isLower_of_mem_letterName {v : Nat} {c : Char} (hc : c ∈ (letterName v).toList) :
    c.isLower = true := by
  rw [toList_letterName] at hc
  exact ((wordValue_lettersBefore [] v).2 c hc).resolve_right (List.not_mem_nil)

theorem wordValue_letterName (v : Nat) : wordValue (letterName v).toList = v := by
  rw [toList_letterName, (wordValue_lettersBefore [] v).1]
  simp [wordValue]

theorem letterName_wordValue {s : String} (lower : ∀ c ∈ s.toList, c.isLower = true) :
    letterName (wordValue s.toList) = s := by
  rw [letterName, lettersBefore_wordValue lower, List.append_nil, String.ofList_toList]

theorem shortlex_letterName_iff {v w : Nat} :
    List.Shortlex (· < ·) (letterName v).toList (letterName w).toList ↔ v < w := by
  have rises {v w : Nat} (before : List.Shortlex (· < ·) (letterName v).toList (letterName w).toList) :
      v < w := by
    have := wordValue_lt_of_shortlex (fun c hc => isLower_of_mem_letterName hc) before
    rwa [wordValue_letterName, wordValue_letterName] at this
  refine ⟨rises, fun less => ?_⟩
  rcases trichotomous_of (List.Shortlex fun c d : Char => c < d) (letterName v).toList
    (letterName w).toList with before | same | after
  · exact before
  · have equal := congrArg wordValue same
    rw [wordValue_letterName, wordValue_letterName] at equal
    omega
  · exact absurd (rises after) (Nat.lt_asymm less)

/-- Each name has a word of its own, over `a … z`, and in their order; the words of 32-bit names are those
with a 32-bit value. -/
theorem letterName_enumerates :
    Function.Injective letterName ∧
      (∀ v, 0 < v → letterName v ≠ "" ∧ ∀ c ∈ (letterName v).toList, c.isLower = true) ∧
      (∀ v w, List.Shortlex (· < ·) (letterName v).toList (letterName w).toList ↔ v < w) ∧
      ∀ s : String, (∀ c ∈ s.toList, c.isLower = true) →
        ((∃ v < 2 ^ 32, letterName v = s) ↔ wordValue s.toList ≤ 2 ^ 32 - 1) := by
  refine ⟨fun v w same => ?_, fun v positive => ⟨fun none => ?_, fun c => isLower_of_mem_letterName⟩,
    fun v w => shortlex_letterName_iff, fun s lower => ⟨?_, fun small => ?_⟩⟩
  · rw [← wordValue_letterName v, same, wordValue_letterName]
  · have value := wordValue_letterName v
    rw [none] at value
    exact Nat.ne_of_gt positive value.symm
  · rintro ⟨v, small, rfl⟩
    rw [wordValue_letterName]
    omega
  · exact ⟨_, by omega, letterName_wordValue lower⟩

/-- The last word of a 32-bit name, and the word behind it. -/
theorem letterName_enumerates_last :
    (∃ v < 2 ^ 32, letterName v = "mwlqkwu") ∧ ¬ ∃ v < 2 ^ 32, letterName v = "mwlqkwv" := by
  obtain ⟨-, -, -, words⟩ := letterName_enumerates
  exact ⟨(words "mwlqkwu" (by simp)).mpr (by decide), mt (words "mwlqkwv" (by simp)).mp (by decide)⟩

end TripletSat.Render
