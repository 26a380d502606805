import Mathlib.Data.List.Nodup
import TripletSat.Dimacs.Generic
import TripletSat.Proofs.Returns
import TripletSat.Proofs.Structure

/-!
The reduction to clauses of three literals. What takes the place of a clause is true with one of its
literals, for suitable values of the fresh variables, and only then. It mentions no variable above
those in use, so that the values chosen for one clause do not disturb another.
-/

namespace TripletSat

namespace Assignment

variable {α β : Assignment} {l : Lit}

theorem get?_of_makesTrue : α.makesTrue l = true ↔ α.get? l.name = some (!l.negated) := by
  unfold makesTrue litValue?
  cases α.get? l.name with
  | none => simp
  | some b => cases b <;> cases l.negated <;> decide

theorem not_makesTrue_negate (h : α.makesTrue l = true) : ¬ α.makesTrue l.negate = true := by
  rw [get?_of_makesTrue] at h ⊢
  show ¬ α.get? l.name = some (!!l.negated)
  rw [h]
  simp

theorem makesTrue_congr (same : β.get? l.name = α.get? l.name) :
    β.makesTrue l = α.makesTrue l := by
  unfold makesTrue litValue?
  rw [same]

/-- Some literal is true. -/
def Meets (α : Assignment) (lits : List Lit) : Prop := ∃ l ∈ lits, α.makesTrue l = true

theorem satisfies_iff {c : Clause} : α.satisfies c = true ↔ α.Meets c.lits := List.any_eq_true

theorem Meets.congr {lits : List Lit} (h : α.Meets lits)
    (same : ∀ l ∈ lits, β.get? l.name = α.get? l.name) : β.Meets lits := by
  obtain ⟨l, hl, holds⟩ := h
  refine ⟨l, hl, ?_⟩
  rw [makesTrue_congr (same l hl), holds]

end Assignment

theorem Clause.ofLits_returns {a b c : Lit} (ab : a.name ≠ b.name) (ac : a.name ≠ c.name)
    (bc : b.name ≠ c.name) : Returns (ofLits a b c) fun clause => clause.lits = [a, b, c] := by
  let clause : Clause := ⟨a, b, c, ab, ac, bc⟩
  exact ⟨clause, clause.ofLits_lits, rfl⟩

namespace Dimacs

/-- The clauses stand for the literals, with fresh variables from those in use on. -/
structure Reduced.StandsFor (r : Reduced) (used : Nat) (lits : List Lit) : Prop where
  grows : used ≤ r.used
  bounded : ∀ c ∈ r.clauses, ∀ l ∈ c.lits, l.name ≤ r.used
  sound : ∀ α : Assignment, (∀ c ∈ r.clauses, α.satisfies c = true) → α.Meets lits
  complete : ∀ α : Assignment, α.Meets lits →
    ∃ β : Assignment, (∀ v ≤ used, β.get? v = α.get? v) ∧ ∀ c ∈ r.clauses, β.satisfies c = true

namespace Reduced

variable {r : Reduced} {used : Nat} {lits : List Lit}

/-- Clauses that put fresh literals beside the given ones, which no assignment makes true in all of
them. -/
theorem StandsFor.of_padding {paddings : List (List Lit)} (grows : used ≤ r.used)
    (padded : List.Forall₂ (fun padding (c : Clause) => c.lits = lits ++ padding) paddings r.clauses)
    (known : ∀ l ∈ lits, l.name ≤ used) (bounded : ∀ p ∈ paddings, ∀ l ∈ p, l.name ≤ r.used)
    (apart : ∀ α : Assignment, ∃ p ∈ paddings, ¬ α.Meets p) : r.StandsFor used lits where
  grows := grows
  bounded := by
    refine forall_mem_of_forall₂ padded fun p hp c same l hl => ?_
    rw [same] at hl
    rcases List.mem_append.mp hl with old | new
    · exact Nat.le_trans (known l old) grows
    · exact bounded p hp l new
  sound α all := by
    obtain ⟨p, hp, unmet⟩ := apart α
    obtain ⟨c, hc, same⟩ := exists_of_forall₂ padded hp
    obtain ⟨l, hl, holds⟩ := Assignment.satisfies_iff.mp (all c hc)
    rw [same] at hl
    rcases List.mem_append.mp hl with old | new
    · exact ⟨l, old, holds⟩
    · exact absurd ⟨l, new, holds⟩ unmet
  complete α := by
    rintro ⟨l, hl, holds⟩
    refine ⟨α, fun _ _ => rfl, forall_mem_of_forall₂ padded fun p _ c same => ?_⟩
    refine Assignment.satisfies_iff.mpr ⟨l, ?_, holds⟩
    rw [same]
    exact List.mem_append_left p hl

theorem StandsFor.single {clause : Clause} (same : clause.lits = lits)
    (known : ∀ l ∈ lits, l.name ≤ used) : StandsFor ⟨[clause], used⟩ used lits := by
  have padded : List.Forall₂ (fun padding (c : Clause) => c.lits = lits ++ padding) [[]] [clause] :=
    .cons (by rw [same, List.append_nil]) .nil
  apply StandsFor.of_padding (Nat.le_refl used) padded known
  · simp
  · intro α
    exact ⟨[], List.mem_singleton_self _, by simp [Assignment.Meets]⟩

/-- A fresh variable links two literals to what stands for the others. -/
theorem StandsFor.link {a b : Lit} {rest : List Lit} {clause : Clause}
    (h : r.StandsFor (used + 1) ((fresh used).negate :: rest))
    (lits : clause.lits = [a, b, fresh used]) (known : ∀ l ∈ a :: b :: rest, l.name ≤ used) :
    StandsFor ⟨clause :: r.clauses, r.used⟩ used (a :: b :: rest) where
  grows := Nat.le_of_succ_le h.grows
  bounded := by
    have grows := h.grows
    refine List.forall_mem_cons.mpr ⟨fun l hl => ?_, h.bounded⟩
    show l.name ≤ r.used
    have small : l.name ≤ used + 1 := by
      rw [lits] at hl
      by_cases here : l = fresh used
      · subst here
        exact Nat.le_refl _
      · exact Nat.le_succ_of_le (known l (by grind))
    omega
  sound α all := by
    obtain ⟨first, others⟩ := List.forall_mem_cons.mp all
    obtain ⟨l, hl, holds⟩ := Assignment.satisfies_iff.mp first
    rw [lits] at hl
    by_cases here : l = fresh used
    · subst here
      obtain ⟨m, hm, holds'⟩ := h.sound α others
      rcases List.mem_cons.mp hm with rfl | hm
      · exact absurd holds' (Assignment.not_makesTrue_negate holds)
      · exact ⟨m, by simp [hm], holds'⟩
    · exact ⟨l, by grind, holds⟩
  complete α := by
    rintro ⟨l, hl, holds⟩
    have linked (value : Bool)
        (later : (α.assign (used + 1) value).Meets ((fresh used).negate :: rest))
        (first : value = true ∨ l = a ∨ l = b) :
        ∃ β : Assignment, (∀ v ≤ used, β.get? v = α.get? v) ∧
          ∀ c ∈ clause :: r.clauses, β.satisfies c = true := by
      obtain ⟨β, agrees, satisfied⟩ := h.complete _ later
      have same (v : Nat) (hv : v ≤ used) : β.get? v = α.get? v := by
        rw [agrees v (by omega), Assignment.get?_assign, if_neg (by omega)]
      refine ⟨β, same, List.forall_mem_cons.mpr ⟨Assignment.satisfies_iff.mpr ?_, satisfied⟩⟩
      rw [lits]
      rcases first with rfl | here
      · refine ⟨fresh used, by simp, Assignment.get?_of_makesTrue.mpr ?_⟩
        show β.get? (used + 1) = some true
        rw [agrees _ (Nat.le_refl _), Assignment.get?_assign, if_pos rfl]
      · refine ⟨l, by grind, ?_⟩
        rw [Assignment.makesTrue_congr (same _ (known l hl)), holds]
    -- The link is true where only one of the other literals is.
    by_cases here : l = a ∨ l = b
    · refine linked false ⟨(fresh used).negate, List.mem_cons_self, ?_⟩ (.inr here)
      rw [Assignment.get?_of_makesTrue, Assignment.get?_assign]
      exact if_pos rfl
    · refine linked true ⟨l, by grind, ?_⟩ (.inl rfl)
      have small := known l hl
      rw [Assignment.makesTrue_congr, holds]
      rw [Assignment.get?_assign, if_neg (by omega)]

end Reduced

variable {used : Nat} {lits : List Lit}

theorem fresh_above (known : ∀ l ∈ lits, l.name ≤ used) {l : Lit} (hl : l ∈ lits) :
    l.name ≠ (fresh used).name := by
  have small := known l hl
  show l.name ≠ used + 1
  omega

theorem forall_le_fresh (known : ∀ l ∈ lits, l.name ≤ used) :
    ∀ l ∈ fresh used :: lits, l.name ≤ used + 1 :=
  List.forall_mem_cons.mpr ⟨Nat.le_refl _, fun l hl => Nat.le_succ_of_le (known l hl)⟩

theorem nodup_fresh (known : ∀ l ∈ lits, l.name ≤ used) (distinct : (lits.map Lit.name).Nodup) :
    ((fresh used :: lits).map Lit.name).Nodup := by
  rw [List.map_cons, List.nodup_cons]
  refine ⟨fun member => ?_, distinct⟩
  obtain ⟨l, hl, same⟩ := List.mem_map.mp member
  exact fresh_above known hl same

theorem chain_returns {link : Lit} (wide : 2 ≤ lits.length)
    (distinct : ((link :: lits).map Lit.name).Nodup) (known : ∀ l ∈ link :: lits, l.name ≤ used) :
    Returns (chain used link lits) fun r => r.StandsFor used (link.negate :: lits) := by
  induction lits generalizing used link with
  | nil => simp at wide
  | cons l rest ih =>
    have apart : link.negate.name ≠ l.name := by
      show link.name ≠ l.name
      grind
    have known' : ∀ k ∈ link.negate :: l :: rest, k.name ≤ used :=
      List.forall_mem_cons.mpr (List.forall_mem_cons.mp known)
    rcases rest with _ | ⟨m, _ | ⟨n, rest⟩⟩
    · simp at wide
    · have apartLast : link.negate.name ≠ m.name := by
        show link.name ≠ m.name
        grind
      unfold chain
      exact (Clause.ofLits_returns apart apartLast (by grind)).bind fun clause lits =>
        .pure (.single lits known')
    · have knownRest : ∀ k ∈ m :: n :: rest, k.name ≤ used := by grind
      have distinctRest : ((m :: n :: rest).map Lit.name).Nodup := by grind
      unfold chain
      refine (Clause.ofLits_returns apart (fresh_above known' (by simp))
        (fresh_above known' (by simp))).bind fun clause lits => ?_
      exact (ih (by simp) (nodup_fresh knownRest distinctRest) (forall_le_fresh knownRest)).bind
        fun r stands => .pure (stands.link lits known')

theorem fresh_or_negate (used : Nat) (α : Assignment) :
    ∃ l ∈ [fresh used, (fresh used).negate], ¬ α.makesTrue l = true := by
  by_cases holds : α.makesTrue (fresh used) = true
  · exact ⟨_, by simp, Assignment.not_makesTrue_negate holds⟩
  · exact ⟨_, by simp, holds⟩

/-- A literal beside two fresh variables under all their signs. -/
theorem reduce_single_returns {l : Lit} (known : ∀ k ∈ [l], k.name ≤ used) :
    Returns (reduce used [l]) fun r => r.StandsFor used [l] := by
  let y := fresh used
  let z := fresh (used + 1)
  let signs := [(y, z), (y, z.negate), (y.negate, z), (y.negate, z.negate)]
  have names : ∀ s ∈ signs, s.1.name = used + 1 ∧ s.2.name = used + 2 := by
    simp only [signs, List.forall_mem_cons]
    exact ⟨⟨rfl, rfl⟩, ⟨rfl, rfl⟩, ⟨rfl, rfl⟩, ⟨rfl, rfl⟩, by simp⟩
  have four : Returns (signs.mapM fun s => Clause.ofLits l s.1 s.2)
      (List.Forall₂ (fun (s : Lit × Lit) (c : Clause) => c.lits = [l] ++ [s.1, s.2]) signs) := by
    apply Returns.mapM
    intro s hs
    obtain ⟨first, second⟩ := names s hs
    have small := known l (List.mem_singleton_self l)
    exact Clause.ofLits_returns (by omega) (by omega) (by omega)
  unfold reduce
  refine four.bind fun clauses padded => .pure (.of_padding (Nat.le_add_right used 2)
    (List.forall₂_map_left_iff.mpr padded) known ?_ fun α => ?_)
  · intro p hp k hk
    obtain ⟨s, hs, rfl⟩ := List.mem_map.mp hp
    obtain ⟨first, second⟩ := names s hs
    show k.name ≤ used + 2
    rcases List.mem_pair.mp hk with rfl | rfl
    · omega
    · omega
  · obtain ⟨m, hm, unmet⟩ := fresh_or_negate used α
    obtain ⟨n, hn, unmet'⟩ := fresh_or_negate (used + 1) α
    refine ⟨[m, n], List.mem_map.mpr ⟨(m, n), ?_, rfl⟩, ?_⟩
    · rcases List.mem_pair.mp hm with rfl | rfl <;> rcases List.mem_pair.mp hn with rfl | rfl <;>
        simp [signs, y, z]
    · simp [Assignment.Meets, unmet, unmet']

/-- Two literals beside a fresh variable under both signs. -/
theorem reduce_pair_returns {l m : Lit} (apart : l.name ≠ m.name)
    (known : ∀ k ∈ [l, m], k.name ≤ used) :
    Returns (reduce used [l, m]) fun r => r.StandsFor used [l, m] := by
  have aboveL : l.name ≠ (fresh used).name := fresh_above known (by simp)
  have aboveM : m.name ≠ (fresh used).name := fresh_above known (by simp)
  unfold reduce
  refine (Clause.ofLits_returns apart aboveL aboveM).bind fun c positive => ?_
  refine (Clause.ofLits_returns (c := (fresh used).negate) apart aboveL aboveM).bind
    fun d negative => .pure ?_
  have padded : List.Forall₂ (fun padding (c : Clause) => c.lits = [l, m] ++ padding)
      [[fresh used], [(fresh used).negate]] [c, d] := .cons positive (.cons negative .nil)
  apply Reduced.StandsFor.of_padding (Nat.le_succ used) padded known
  · have name : (fresh used).name ≤ used + 1 := Nat.le_refl _
    refine List.forall_mem_cons.mpr ⟨List.forall_mem_singleton.mpr name, ?_⟩
    exact List.forall_mem_singleton.mpr (List.forall_mem_singleton.mpr name)
  · intro α
    obtain ⟨k, hk, unmet⟩ := fresh_or_negate used α
    refine ⟨[k], ?_, by simp [Assignment.Meets, unmet]⟩
    simpa using hk

theorem reduce_returns (some : lits ≠ []) (distinct : (lits.map Lit.name).Nodup)
    (known : ∀ l ∈ lits, l.name ≤ used) :
    Returns (reduce used lits) fun r => r.StandsFor used lits := by
  match lits, some with
  | [l], _ => exact reduce_single_returns known
  | [l, m], _ => exact reduce_pair_returns (by grind) known
  | [l, m, n], _ =>
    unfold reduce
    exact (Clause.ofLits_returns (by grind) (by grind) (by grind)).bind fun clause lits =>
      .pure (.single lits known)
  | l :: m :: n :: o :: rest, _ =>
    have knownRest : ∀ k ∈ n :: o :: rest, k.name ≤ used := by grind
    have distinctRest : ((n :: o :: rest).map Lit.name).Nodup := by grind
    unfold reduce
    refine (Clause.ofLits_returns (by grind) (fresh_above known (by simp))
      (fresh_above known (by simp))).bind fun clause lits => ?_
    exact (chain_returns (by simp) (nodup_fresh knownRest distinctRest)
      (forall_le_fresh knownRest)).bind fun r stands => .pure (stands.link lits known)

/-! ### All clauses of a text -/

theorem nodup_names_of_not_tautology {lits : List Lit} (nodup : lits.Nodup)
    (sound : isTautology lits = false) : (lits.map Lit.name).Nodup := by
  refine List.Nodup.map_on (fun l hl m hm same => ?_) nodup
  by_contra other
  have opposite : m = l.negate := by
    obtain ⟨name, negated, _⟩ := l
    obtain ⟨name', negated', _⟩ := m
    cases negated <;> cases negated' <;> simp_all [Lit.negate]
  have tautology : isTautology lits = true :=
    List.any_eq_true.mpr ⟨l, hl, by simp [← opposite, hm]⟩
  exact Bool.false_ne_true (sound.symm.trans tautology)

/-- The clauses of three literals stand for those of any width that are no tautologies. -/
structure Reduces (used : Nat) (sources : List (List Lit)) (clauses : List Clause) : Prop where
  sound : ∀ α : Assignment, (∀ c ∈ clauses, α.satisfies c = true) →
    ∀ lits ∈ sources, isTautology lits = false → α.Meets lits
  complete : ∀ α : Assignment, (∀ lits ∈ sources, isTautology lits = false → α.Meets lits) →
    ∃ β : Assignment, (∀ v ≤ used, β.get? v = α.get? v) ∧ ∀ c ∈ clauses, β.satisfies c = true

theorem Reduces.cons_tautology {sources : List (List Lit)} {clauses : List Clause}
    (tautology : isTautology lits = true) (h : Reduces used sources clauses) :
    Reduces used (lits :: sources) clauses where
  sound α all := by
    refine List.forall_mem_cons.mpr ⟨fun sound => ?_, h.sound α all⟩
    exact absurd (sound.symm.trans tautology) Bool.false_ne_true
  complete α meets := h.complete α fun lits hl => meets lits (List.mem_cons_of_mem _ hl)

theorem Reduces.cons {r : Reduced} {sources : List (List Lit)} {clauses : List Clause}
    (stands : r.StandsFor used lits) (sound : isTautology lits = false)
    (known : ∀ l ∈ lits :: sources, ∀ k ∈ l, k.name ≤ used) (h : Reduces r.used sources clauses) :
    Reduces used (lits :: sources) (r.clauses ++ clauses) where
  sound α all := by
    obtain ⟨first, rest⟩ := List.forall_mem_append.mp all
    exact List.forall_mem_cons.mpr ⟨fun _ => stands.sound α first, h.sound α rest⟩
  complete α meets := by
    obtain ⟨first, rest⟩ := List.forall_mem_cons.mp meets
    obtain ⟨β, agrees, satisfied⟩ := stands.complete α (first sound)
    have grows := stands.grows
    obtain ⟨γ, agrees', satisfied'⟩ := h.complete β fun lits hl sound =>
      (rest lits hl sound).congr fun l hk => agrees _ (known lits (List.mem_cons_of_mem _ hl) l hk)
    refine ⟨γ, fun v hv => ?_, List.forall_mem_append.mpr ⟨fun c hc => ?_, satisfied'⟩⟩
    · rw [agrees' v (by omega), agrees v hv]
    · -- The later values leave the variables of the earlier clauses alone.
      exact Assignment.satisfies_iff.mpr ((Assignment.satisfies_iff.mp (satisfied c hc)).congr
        fun l hl => agrees' _ (stands.bounded c hc l hl))

theorem reduceAll_returns {sources : List (List Lit)} (some : ∀ lits ∈ sources, lits ≠ [])
    (nodup : ∀ lits ∈ sources, lits.Nodup) (known : ∀ lits ∈ sources, ∀ l ∈ lits, l.name ≤ used) :
    Returns (reduceAll used sources) (Reduces used sources) := by
  induction sources generalizing used with
  | nil => exact .pure ⟨by simp, fun α _ => ⟨α, fun _ _ => rfl, by simp⟩⟩
  | cons lits rest ih =>
    obtain ⟨someHere, someRest⟩ := List.forall_mem_cons.mp some
    obtain ⟨nodupHere, nodupRest⟩ := List.forall_mem_cons.mp nodup
    obtain ⟨knownHere, knownRest⟩ := List.forall_mem_cons.mp known
    unfold reduceAll
    split
    · rename_i tautology
      exact (ih someRest nodupRest knownRest).mono fun _ => .cons_tautology tautology
    · rename_i sound
      have sound := eq_false_of_ne_true sound
      refine (reduce_returns someHere (nodup_names_of_not_tautology nodupHere sound)
        knownHere).bind fun r stands => ?_
      have knownLater : ∀ lits ∈ rest, ∀ l ∈ lits, l.name ≤ r.used := fun lits hl l hk =>
        Nat.le_trans (knownRest lits hl l hk) stands.grows
      exact (ih someRest nodupRest knownLater).bind fun clauses reduces =>
        .pure (.cons stands sound known reduces)

end Dimacs

end TripletSat
