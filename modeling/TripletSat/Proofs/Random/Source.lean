import TripletSat.Proofs.Random.Drawing

/-!
The generator that reads off words. Its samples hold what they promise, each value takes a word at least, and
every clause of the range is drawn from some words.
-/

namespace TripletSat.Random

variable {α β : Type} {s s' : Source}

namespace Source

/-- The number of words that are left. -/
def left (s : Source) : Nat := s.limit - s.position

theorem left_next_word (here : s.position < s.limit) :
    left { s with position := s.position + 1 } + 1 = s.left := by
  unfold left
  dsimp only
  omega

end Source

/-- Each value has the property, and at least so many words have gone for it. -/
def Takes (words : Nat) (s : Source) (x : Option (α × Source)) (P : α → Prop) : Prop :=
  ∀ a s', x = some (a, s') → s'.left + words ≤ s.left ∧ P a

namespace Takes

variable {words more : Nat} {x : Option (α × Source)} {f : α × Source → Option (β × Source)}
  {P : α → Prop} {Q : β → Prop}

theorem pure {a : α} (h : P a) : Takes 0 s (some (a, s)) P := by
  intro _ _ same
  cases same
  exact ⟨Nat.le_refl _, h⟩

theorem bind (hx : Takes words s x P) (more : Nat) (hf : ∀ a s', P a → Takes more s' (f (a, s')) Q) :
    Takes (words + more) s (x >>= f) Q := by
  intro b s'' run
  obtain ⟨⟨a, s'⟩, first, later⟩ := Option.bind_eq_some_iff.mp run
  obtain ⟨left, ha⟩ := hx a s' first
  obtain ⟨left', hb⟩ := hf a s' ha b s'' later
  exact ⟨by omega, hb⟩

end Takes

/-! ### Numbers -/

theorem below_takes (range : Nat) (s : Source) : Takes 1 s (s.below range) (· < range) := by
  fun_induction Source.below range s with
  | case1 s here product s' accepted =>
    have positive : 0 < range := by
      refine Nat.pos_of_ne_zero fun none => ?_
      rw [none, Nat.zero_shiftLeft] at accepted
      exact Nat.not_lt_zero _ accepted
    have high : (s.word s.position >>> 32).toNat < UInt32.size := by
      have := (s.word s.position).toNat_lt
      rw [UInt64.toNat_shiftRight, Nat.shiftRight_eq_div_pow]
      exact Nat.div_lt_of_lt_mul this
    intro number later same
    cases same
    exact ⟨Nat.le_of_eq (Source.left_next_word here),
      Nat.div_lt_of_lt_mul (Nat.mul_lt_mul_of_pos_right high positive)⟩
  | case2 s here product s' rejected ih =>
    intro number later run
    obtain ⟨left, small⟩ := ih number later run
    have spent : s'.left + 1 = s.left := Source.left_next_word here
    exact ⟨by omega, small⟩
  | case3 s ended => exact nofun

theorem coin_takes (s : Source) : Takes 1 s s.coin fun _ => True := by
  unfold Source.coin Source.next
  split
  · rename_i here
    intro negated later same
    cases same
    exact ⟨Nat.le_of_eq (Source.left_next_word here), trivial⟩
  · exact nofun

/-! ### Indices -/

variable {amount bound : Nat} {drawn indices : List Nat}

/-- One index more, whichever place it takes. -/
theorem Picked.further (picked : Picked amount bound drawn) {i : Nat} (perm : indices.Perm (i :: drawn))
    (fresh : i ∉ drawn) (small : i ≤ bound) : Picked (amount + 1) (bound + 1) indices := by
  obtain ⟨length, nodup, below⟩ := picked
  refine ⟨?_, perm.nodup_iff.mpr (nodup.cons fresh), fun j hj => ?_⟩
  · rw [perm.length_eq, List.length_cons, length]
  · obtain rfl | old := List.mem_cons.mp (perm.mem_iff.mp hj)
    · exact Nat.lt_succ_of_le small
    · exact Nat.lt_succ_of_lt (below j old)

theorem drawIndex_takes (picked : Picked amount bound drawn) :
    Takes 1 s (s.drawIndex (bound + 1) drawn) (Picked (amount + 1) (bound + 1)) := by
  refine (below_takes (bound + 1) s).bind 0 fun index s' small => ?_
  dsimp only
  split
  · rename_i place found
    obtain ⟨inside, -⟩ := List.idxOf?_eq_some_iff.mp found
    have fresh : bound ∉ drawn := fun old => Nat.lt_irrefl _ (picked.below _ old)
    exact .pure (picked.further (List.perm_insertIdx _ _ (Nat.le_of_lt inside)) fresh (Nat.le_refl _))
  · rename_i absent
    have fresh := List.idxOf?_eq_none_iff.mp absent
    exact .pure (picked.further (List.perm_append_singleton _ _) fresh (Nat.le_of_lt_succ small))

theorem sample_takes (within : amount ≤ bound) :
    Takes amount s (s.sample bound amount) (Picked amount bound) := by
  induction amount generalizing bound s with
  | zero => exact .pure ⟨rfl, .nil, nofun⟩
  | succ amount ih =>
    obtain ⟨bound, rfl⟩ := Nat.exists_eq_succ_of_ne_zero (Nat.ne_of_gt (Nat.zero_lt_of_lt within))
    exact (ih (Nat.le_of_succ_le_succ within)).bind 1 fun _ _ picked => drawIndex_takes picked

theorem samples_source : Generator.Samples Source :=
  fun _ _ _ s' indices within given => (sample_takes within indices s' given).2

theorem left_of_drawClause {n : Nat} {c : Clause} (run : drawClause n s = .ok (c, s')) :
    s'.left < s.left := by
  obtain ⟨three, s₁, s₂, s₃, given, signA, signB, signC⟩ := drawClause_eq_ok_iff.mp run
  have ⟨indices, _⟩ := sample_takes three _ _ given
  have ⟨first, _⟩ := coin_takes _ _ _ signA
  have ⟨second, _⟩ := coin_takes _ _ _ signB
  have ⟨third, _⟩ := coin_takes _ _ _ signC
  omega

/-! ### Sources for a clause -/

/-- The least factor that brings the range to `k * 2 ^ 32`. -/
def factorFor (range k : Nat) : Nat := (k * 2 ^ 32 + (range - 1)) / range

/-- A word that gives the number below the range. -/
def wordFor (range k : Nat) : UInt64 := .ofNat (factorFor range k * 2 ^ 32)

def coinFor (negated : Bool) : UInt64 := if negated then 0 else 0x8000000000000000

/-- The source of the words from a position on. -/
def sourceFrom (words : List UInt64) (position : Nat) : Source :=
  ⟨fun i => words.getD i 0, position, words.length⟩

variable {words : List UInt64} {position range k : Nat}

theorem word_sourceFrom {word : UInt64} (here : words[position]? = some word) :
    (sourceFrom words position).word position = word := by
  show words.getD position 0 = _
  rw [List.getD_eq_getElem?_getD, here, Option.getD_some]

theorem factorFor_mul (inside : k < range) :
    k * 2 ^ 32 ≤ factorFor range k * range ∧ factorFor range k * range < k * 2 ^ 32 + range := by
  have quotient := Nat.div_add_mod' (k * 2 ^ 32 + (range - 1)) range
  have remainder := Nat.mod_lt (k * 2 ^ 32 + (range - 1)) (Nat.zero_lt_of_lt inside)
  unfold factorFor
  omega

theorem wordFor_high (inside : k < range) (fits : range ≤ 2 ^ 32) :
    (wordFor range k >>> 32).toNat = factorFor range k := by
  have small : factorFor range k < 2 ^ 32 := Nat.div_lt_of_lt_mul (by omega)
  have word : factorFor range k * 2 ^ 32 < UInt64.size := by
    show _ < 2 ^ 64
    omega
  unfold wordFor
  rw [UInt64.toNat_shiftRight, UInt64.toNat_ofNat_of_lt' word, Nat.shiftRight_eq_div_pow]
  exact Nat.mul_div_cancel _ (by decide)

theorem below_wordFor (inside : k < range) (fits : range ≤ 2 ^ 32)
    (here : words[position]? = some (wordFor range k)) :
    (sourceFrom words position).below range = some (k, sourceFrom words (position + 1)) := by
  obtain ⟨early, -⟩ := List.getElem?_eq_some_iff.mp here
  have high : ((sourceFrom words position).word (sourceFrom words position).position >>> 32).toNat =
      factorFor range k := by
    rw [← wordFor_high inside fits, ← word_sourceFrom here]
    rfl
  obtain ⟨atLeast, under⟩ := factorFor_mul inside
  have low : factorFor range k * range % UInt32.size < range <<< Source.leadingZeros range := by
    rw [Nat.shiftLeft_eq]
    refine Nat.lt_of_lt_of_le ?_ (Nat.le_mul_of_pos_right _ (Nat.two_pow_pos _))
    show _ % 2 ^ 32 < _
    omega
  have number : factorFor range k * range / UInt32.size = k := by
    show _ / 2 ^ 32 = _
    omega
  unfold Source.below
  rw [if_pos (show (sourceFrom words position).position < (sourceFrom words position).limit from early)]
  dsimp only
  rw [high, if_pos low, number]
  rfl

theorem coin_coinFor {negated : Bool} (here : words[position]? = some (coinFor negated)) :
    (sourceFrom words position).coin = some (negated, sourceFrom words (position + 1)) := by
  obtain ⟨early, -⟩ := List.getElem?_eq_some_iff.mp here
  have clear : decide (coinFor negated < 0x8000000000000000) = negated := by
    cases negated <;> decide
  unfold Source.coin Source.next
  rw [if_pos (show (sourceFrom words position).position < (sourceFrom words position).limit from early)]
  show some (decide ((sourceFrom words position).word position < 0x8000000000000000), _) = _
  rw [word_sourceFrom here, clear]
  rfl

theorem drawIndex_wordFor (inside : k < range) (fits : range ≤ 2 ^ 32) (fresh : k ∉ drawn)
    (here : words[position]? = some (wordFor range k)) :
    (sourceFrom words position).drawIndex range drawn =
      some (drawn ++ [k], sourceFrom words (position + 1)) := by
  unfold Source.drawIndex
  rw [below_wordFor inside fits here]
  dsimp only [Option.bind_eq_bind, Option.bind_some]
  rw [List.idxOf?_eq_none_iff.mpr fresh]
  rfl

/-- Words that give a clause with ascending names: its indices, none of them moved, then its signs. -/
def wordsFor (n : Nat) (c : Clause) : List UInt64 :=
  [wordFor (n - 2) (c.a.name - 1), wordFor (n - 1) (c.b.name - 1), wordFor n (c.c.name - 1),
    coinFor c.a.negated, coinFor c.b.negated, coinFor c.c.negated]

theorem drawClause_wordsFor {n : Nat} {c : Clause} (fits : n ≤ 2 ^ 32) (ranged : c.Over n)
    (ab : c.a.name < c.b.name) (bc : c.b.name < c.c.name) (before after : List UInt64) :
    drawClause n (sourceFrom (before ++ wordsFor n c ++ after) before.length) =
      .ok (c, sourceFrom (before ++ wordsFor n c ++ after) (before ++ wordsFor n c).length) := by
  have least := c.a.name_pos
  have most : c.c.name ≤ n := Clause.over_iff.mp ranged c.c (by simp [Clause.lits])
  generalize hw : before ++ wordsFor n c ++ after = words
  have here (place : Nat) (inside : place < 6) :
      words[before.length + place]? = (wordsFor n c)[place]? := by
    rw [← hw, List.append_assoc, List.getElem?_append_right (Nat.le_add_right _ _),
      Nat.add_sub_cancel_left, List.getElem?_append_left inside]
  have first : (sourceFrom words before.length).drawIndex (n - 2) [] =
      some ([c.a.name - 1], sourceFrom words (before.length + 1)) :=
    drawIndex_wordFor (by omega) (by omega) (by simp) (here 0 (by decide))
  have second : (sourceFrom words (before.length + 1)).drawIndex (n - 1) [c.a.name - 1] =
      some ([c.a.name - 1, c.b.name - 1], sourceFrom words (before.length + 2)) :=
    drawIndex_wordFor (by omega) (by omega) (by simp; omega) (here 1 (by decide))
  have third : (sourceFrom words (before.length + 2)).drawIndex n [c.a.name - 1, c.b.name - 1] =
      some ([c.a.name - 1, c.b.name - 1, c.c.name - 1], sourceFrom words (before.length + 3)) :=
    drawIndex_wordFor (by omega) (by omega) (by simp; omega) (here 2 (by decide))
  have indices : (sourceFrom words before.length).sample n 3 =
      some ([c.a.name - 1, c.b.name - 1, c.c.name - 1], sourceFrom words (before.length + 3)) := by
    show ((((sourceFrom words before.length).drawIndex (n - 1 - 1) []).bind fun r =>
      r.2.drawIndex (n - 1) r.1).bind fun r => r.2.drawIndex n r.1) = _
    rw [Nat.sub_sub, first, Option.bind_some, second, Option.bind_some, third]
  rw [List.length_append]
  exact drawClause_eq_ok_iff.mpr ⟨by omega, _, _, _, indices, coin_coinFor (here 3 (by decide)),
    coin_coinFor (here 4 (by decide)), coin_coinFor (here 5 (by decide))⟩

end TripletSat.Random
