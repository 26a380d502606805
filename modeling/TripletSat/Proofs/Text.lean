import Mathlib.Data.List.Basic
import TripletSat.Literal
import TripletSat.Text.Decimal
import TripletSat.Text.Words

/-!
Words, lines and numbers of a text. A blank parts words and a line feed parts lines, wherever they
stand, and a number that is written in digits is read back.
-/

namespace TripletSat.Text

variable {cut : Char → Bool} {c : Char} {text rest word line : List Char}

/-! ### Pieces -/

theorem pieces_cons_of_cut (h : cut c = true) : pieces cut (c :: rest) = [] :: pieces cut rest := by
  simp [pieces, h]

theorem pieces_ne_nil (cut : Char → Bool) (text : List Char) : pieces cut text ≠ [] := by
  cases text with
  | nil => exact List.cons_ne_nil _ _
  | cons c rest =>
    unfold pieces
    rw [List.foldr_cons]
    split
    · exact List.cons_ne_nil _ _
    · split <;> exact List.cons_ne_nil _ _

theorem pieces_cons_of_not_cut (rest : List Char) (h : cut c = false) :
    ∃ piece more, pieces cut rest = piece :: more ∧ pieces cut (c :: rest) = (c :: piece) :: more := by
  obtain ⟨piece, more, same⟩ := List.exists_cons_of_ne_nil (pieces_ne_nil cut rest)
  refine ⟨piece, more, same, ?_⟩
  unfold pieces at same ⊢
  rw [List.foldr_cons, same]
  simp [h]

/-- A cut parts the pieces before it from those behind it. -/
theorem pieces_append_cons (h : cut c = true) :
    pieces cut (text ++ c :: rest) = pieces cut text ++ pieces cut rest := by
  induction text with
  | nil => exact pieces_cons_of_cut h
  | cons d text ih =>
    rw [List.cons_append]
    cases cuts : cut d with
    | true => rw [pieces_cons_of_cut cuts, pieces_cons_of_cut cuts, ih, List.cons_append]
    | false =>
      obtain ⟨piece, more, same, grown⟩ := pieces_cons_of_not_cut text cuts
      obtain ⟨piece', more', same', grown'⟩ := pieces_cons_of_not_cut (text ++ c :: rest) cuts
      rw [ih, same, List.cons_append] at same'
      obtain ⟨rfl, rfl⟩ := List.cons.inj same'
      rw [grown, grown', List.cons_append]

theorem pieces_of_not_cut (h : ∀ c ∈ text, cut c = false) : pieces cut text = [text] := by
  induction text with
  | nil => rfl
  | cons c rest ih =>
    obtain ⟨first, later⟩ := List.forall_mem_cons.mp h
    obtain ⟨piece, more, same, grown⟩ := pieces_cons_of_not_cut rest first
    rw [ih later] at same
    obtain ⟨rfl, rfl⟩ := List.cons.inj same
    exact grown

/-! ### Words and lines -/

theorem words_append_blank (blank : isBlank c = true) :
    words (text ++ c :: rest) = words text ++ words rest := by
  unfold words
  rw [pieces_append_cons blank, List.filter_append]

theorem words_of_not_blank (some : word ≠ []) (solid : ∀ c ∈ word, isBlank c = false) :
    words word = [word] := by
  unfold words
  rw [pieces_of_not_cut solid]
  simpa using some

/-- Words that are not empty and hold no blanks. -/
def Unbroken (ws : List (List Char)) : Prop := ∀ w ∈ ws, w ≠ [] ∧ ∀ c ∈ w, isBlank c = false

/-- Words with blanks between them. -/
theorem words_intercalate {ws : List (List Char)} (blank : isBlank c = true) (unbroken : Unbroken ws) :
    words ([c].intercalate ws) = ws := by
  induction ws with
  | nil => rfl
  | cons w rest ih =>
    obtain ⟨⟨some, solid⟩, others⟩ := List.forall_mem_cons.mp unbroken
    cases rest with
    | nil =>
      rw [List.intercalate_singleton]
      exact words_of_not_blank some solid
    | cons w' rest =>
      rw [List.intercalate_cons_cons, List.append_assoc]
      show words (w ++ c :: [c].intercalate (w' :: rest)) = _
      rw [words_append_blank blank, words_of_not_blank some solid, ih others]
      rfl

theorem mem_intercalate {d : Char} {ws : List (List Char)} (h : c ∈ [d].intercalate ws) :
    c = d ∨ ∃ w ∈ ws, c ∈ w := by
  induction ws with
  | nil => exact absurd h List.not_mem_nil
  | cons w rest ih =>
    cases rest with
    | nil =>
      rw [List.intercalate_singleton] at h
      exact .inr ⟨w, List.mem_cons_self, h⟩
    | cons w' rest =>
      rw [List.intercalate_cons_cons, List.append_assoc] at h
      rcases List.mem_append.mp h with first | later
      · exact .inr ⟨w, List.mem_cons_self, first⟩
      · rcases List.mem_cons.mp later with same | later
        · exact .inl same
        · exact (ih later).imp id fun ⟨w, hw, hc⟩ => ⟨w, List.mem_cons_of_mem _ hw, hc⟩

theorem feed_not_mem_intercalate {ws : List (List Char)} (unbroken : Unbroken ws) :
    '\n' ∉ [' '].intercalate ws := by
  intro feed
  rcases mem_intercalate feed with same | ⟨w, hw, inside⟩
  · exact absurd same (by decide)
  · exact absurd ((unbroken w hw).2 _ inside) (by decide)

theorem lines_append_feed (unbroken : '\n' ∉ line) :
    lines (line ++ '\n' :: rest) = line :: lines rest := by
  have solid : ∀ c ∈ line, (c == '\n') = false := by
    intro c hc
    rw [beq_eq_false_iff_ne]
    rintro rfl
    exact unbroken hc
  have some := pieces_ne_nil (· == '\n') rest
  unfold lines
  rw [pieces_append_cons rfl, pieces_of_not_cut solid, List.singleton_append]
  dsimp only
  rw [List.getLast?_cons_of_ne_nil some]
  split
  · exact List.dropLast_cons_of_ne_nil some
  · rfl

theorem lines_flatMap {ls : List (List Char)} (unbroken : ∀ line ∈ ls, '\n' ∉ line) :
    lines (ls.flatMap (· ++ ['\n'])) = ls := by
  induction ls with
  | nil => rfl
  | cons line rest ih =>
    obtain ⟨first, later⟩ := List.forall_mem_cons.mp unbroken
    rw [List.flatMap_cons, List.append_assoc, List.singleton_append, lines_append_feed first, ih later]

/-! ### The first character of a line -/

/-- The first character of a line that is not blank. -/
def lead? (line : List Char) : Option Char := line.find? (!isBlank ·)

theorem head?_words (line : List Char) : (words line).head?.bind List.head? = lead? line := by
  induction line with
  | nil => rfl
  | cons c rest ih =>
    cases blank : isBlank c with
    | true =>
      have behind : words ([] ++ c :: rest) = words [] ++ words rest := words_append_blank blank
      rw [← List.nil_append (c :: rest), behind]
      show (words rest).head?.bind List.head? = _
      rw [ih, lead?, lead?, List.nil_append, List.find?_cons_of_neg (by simp [blank])]
    | false =>
      obtain ⟨piece, more, -, grown⟩ := pieces_cons_of_not_cut rest blank
      unfold words
      rw [grown, List.filter_cons_of_pos rfl, lead?, List.find?_cons_of_pos (by simp [blank])]
      rfl

/-! ### Numbers -/

variable {n : Nat}

theorem isBlank_of_isDigit (h : c.isDigit = true) : isBlank c = false := by
  have bounds : 48 ≤ c.toNat ∧ c.toNat ≤ 57 := by
    simpa [Char.isDigit, UInt32.le_iff_toNat_le] using h
  unfold isBlank
  simp
  omega

theorem isDigit_of_mem_toDigits (h : c ∈ Nat.toDigits 10 n) : c.isDigit = true :=
  Nat.isDigit_of_mem_toDigits (by decide) (by decide) h

theorem digits?_toDigits (n : Nat) : digits? (Nat.toDigits 10 n) = some n := by
  have all : (Nat.toDigits 10 n).all Char.isDigit = true :=
    List.all_eq_true.mpr fun _ => isDigit_of_mem_toDigits
  unfold digits?
  rw [List.isEmpty_eq_false_iff.mpr Nat.toDigits_ne_nil, all]
  exact congrArg some Nat.ofDigitChars_ten_toDigits

theorem count?_toDigits (small : n < UInt64.size) : count? (Nat.toDigits 10 n) = some n := by
  unfold count?
  split
  · rename_i rest same
    have plus : '+' ∈ Nat.toDigits 10 n := same ▸ List.mem_cons_self
    exact absurd (isDigit_of_mem_toDigits plus) (by decide)
  · dsimp only
    rw [digits?_toDigits, Option.filter_some, if_pos (decide_eq_true small)]

theorem integer?_toDigits (small : (n : Int) ≤ Int32.maxValue.toInt) :
    integer? (Nat.toDigits 10 n) = some (n : Int) := by
  have first {sign : Char} {rest : List Char} (same : Nat.toDigits 10 n = sign :: rest) :
      sign.isDigit = true :=
    isDigit_of_mem_toDigits (same ▸ List.mem_cons_self)
  unfold integer?
  dsimp only
  split
  · rename_i rest same
    exact absurd (first same) (by decide)
  · rename_i rest same
    exact absurd (first same) (by decide)
  · simp [digits?_toDigits, small]

theorem integer?_neg_toDigits (small : (n : Int) ≤ Int32.maxValue.toInt) :
    integer? ('-' :: Nat.toDigits 10 n) = some (-n : Int) := by
  have large : (n : Int) ≤ 2147483648 := by
    have : Int32.maxValue.toInt = 2147483647 := by decide
    omega
  have below : -(n : Int) ≤ Int32.maxValue.toInt :=
    Int.le_trans (Int.neg_nonpos_of_nonneg (Int.natCast_nonneg n)) (by decide)
  simp [integer?, digits?_toDigits, large, below]

end TripletSat.Text
