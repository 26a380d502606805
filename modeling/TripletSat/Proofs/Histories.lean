import TripletSat.Proofs.Ensures
import TripletSat.Proofs.Growth

/-!
Formulas as operations build them up. Whichever operations came, in whatever order, no two tiers are
over the same variables, and each tier has variables of the permutation, in its order.
-/

namespace TripletSat

/-! ### What operations leave of the tiers

Whether or not the formula is a structure: an operation on octants alone shrinks the tiers or clears
them. -/

namespace Tier

variable {t u : Tier} {prev next : Option Tier} {v : Nat} {value : Bool}

theorem adjoinLeft_ensures : Ensures (t.adjoinLeft u) t.ShrinksTo := by
  unfold adjoinLeft
  split
  · exact .pure ⟨rfl, fun _ ho => (OctantSet.mem_agreeing.mp ho).1⟩
  · exact .fault

theorem adjoinRight_ensures : Ensures (t.adjoinRight u) t.ShrinksTo := by
  unfold adjoinRight
  split
  · exact .pure ⟨rfl, fun _ ho => (OctantSet.mem_agreeing.mp ho).1⟩
  · exact .fault

theorem between_ensures : Ensures (t.between prev next) t.ShrinksTo := by
  unfold between
  cases prev with
  | none =>
    cases next with
    | none => exact .pure (.refl t)
    | some next => exact adjoinRight_ensures
  | some prev =>
    cases next with
    | none => exact adjoinLeft_ensures.bind fun _ => .pure
    | some next =>
      exact adjoinLeft_ensures.bind fun _ left => adjoinRight_ensures.mono fun _ => left.trans

theorem subtract_ensures : Ensures (t.subtract u) t.ShrinksTo := by
  unfold subtract
  split
  · exact Ensures.any.bind fun _ _ => .pure ⟨rfl, fun _ ho => (OctantSet.mem_inter.mp ho).1⟩
  · exact .fault

theorem concretize_ensures : Ensures (t.concretize v value) t.ShrinksTo := by
  unfold concretize
  split
  · exact .pure ⟨rfl, fun _ ho => (OctantSet.mem_inter.mp ho).1⟩
  · exact .fault

/-- A tier without the variable stays as it is. -/
theorem concretize_where_ensures : Ensures
    (if t.triple.contains v then t.concretize v value else pure t) t.ShrinksTo := by
  split
  · exact concretize_ensures
  · exact .pure (.refl t)

end Tier

/-- The tiers that a pass keeps shrank. -/
def Sweep.Shrinks (tiers : List Tier) : Sweep → Prop
  | .kept tiers' _ => List.Forall₂ Tier.ShrinksTo tiers tiers'
  | .emptied _ => True

theorem sweep_ensures {low high index : Nat} {prev : Option Tier} {tiers : List Tier} :
    Ensures (sweep low high index prev tiers) (Sweep.Shrinks tiers) := by
  induction tiers generalizing index prev with
  | nil => exact .pure .nil
  | cons t rest ih =>
    have alone {s : Sweep} (h : s.Shrinks rest) : (s.behind t).Shrinks (t :: rest) := by
      cases s with
      | kept tiers span => exact .cons (.refl t) h
      | emptied span => trivial
    unfold sweep
    split
    · exact ih.bind fun s hs => .pure (alone hs)
    · apply Tier.between_ensures.bind
      intro u hu
      split
      · exact ih.bind fun s hs => .pure (alone hs)
      · split
        · exact .pure trivial
        · apply ih.bind
          intro s hs
          refine .pure ?_
          cases s with
          | kept tiers span => exact .cons hu hs
          | emptied span => trivial

theorem settle_ensures {count limit fuel low high : Nat} {tiers : List Tier} {span : Option Span} :
    Ensures (settle count limit fuel low high tiers span) (Sweep.Shrinks tiers) := by
  induction fuel generalizing low high tiers span with
  | zero => exact .fault
  | succ fuel ih =>
    unfold settle
    apply sweep_ensures.bind
    intro s hs
    cases s with
    | emptied more => exact .pure trivial
    | kept tiers' more =>
      cases more with
      | none => exact .pure hs
      | some more =>
        apply ih.mono
        intro s hs'
        cases s with
        | emptied last => trivial
        | kept tiers'' last => exact forall₂_trans (R := Tier.ShrinksTo) (fun _ _ _ => .trans) hs hs'

namespace Formula

variable {f g : Formula}

theorem propagate_ensures {low high : Nat} :
    Ensures (f.propagate low high) fun r => f.ShrinksTo r.1 := by
  unfold propagate
  split
  · exact .pure (.refl f)
  · dsimp only
    split
    · exact Ensures.fault (e := .windowCount f.varCount f.tierCount)
    · split
      · exact .pure (ShrinksTo.clear f)
      · apply settle_ensures.bind
        intro s hs
        cases s with
        | emptied span => exact .pure (ShrinksTo.clear f)
        | kept tiers span =>
          cases span with
          | none => exact .pure (ShrinksTo.refl f)
          | some span => exact .pure ⟨rfl, .inr hs⟩

theorem cleaned_ensures : Ensures f.cleaned f.ShrinksTo :=
  propagate_ensures.bind fun _ => .pure

/-- Each tier is restricted by itself, before a cleanup. -/
theorem mapM_ensures {k : Tier → Checked Tier} (each : ∀ t ∈ f.tiers, Ensures (k t) t.ShrinksTo) :
    Ensures (f.tiers.mapM k) fun tiers => f.ShrinksTo { f with tiers } :=
  (Ensures.mapM each).mono fun _ shrunk => ⟨rfl, .inr shrunk⟩

theorem removeOctant_ensures {index : Nat} {o : Octant} :
    Ensures (f.removeOctant index o) f.ShrinksTo := by
  cases at' : f.tiers[index]? with
  | none =>
    unfold removeOctant tier
    rw [at']
    exact Ensures.fault.bind (P := fun _ => False) fun _ none => none.elim
  | some t => exact (removeOctant_returns at').ensures.mono fun _ => And.left

theorem subtract_ensures : Ensures (f.subtract g) fun r => f.ShrinksTo r.1 := by
  unfold subtract
  refine (mapM_ensures fun t _ => ?_).bind fun _ first => propagate_ensures.mono fun _ => first.trans
  split
  · exact Tier.subtract_ensures
  · exact .pure (.refl t)

theorem intersect_ensures : Ensures (f.intersect g) f.ShrinksTo := by
  unfold intersect
  refine Ensures.any.bind fun _ _ => ?_
  split
  · exact .pure (.clear f)
  · refine cleaned_ensures.mono fun h => ShrinksTo.trans ⟨rfl, .inr ?_⟩
    rw [List.forall₂_map_right_iff, List.forall₂_same]
    intro t _
    cases g.tierOver? t.triple with
    | none => exact .refl t
    | some u => exact t.shrinksTo_meet u

theorem concretize_ensures {v : Nat} {value : Bool} :
    Ensures (f.concretize v value) f.ShrinksTo := by
  unfold concretize
  split
  · exact .pure (.refl f)
  · split
    · exact (mapM_ensures fun _ _ => Tier.concretize_where_ensures).bind fun _ first =>
        cleaned_ensures.mono fun _ => first.trans
    · exact .fault

theorem concretizeOctant_ensures {triple : Triple} {o : Octant} :
    Ensures (f.concretizeOctant triple o) f.ShrinksTo :=
  concretize_ensures.bind fun _ first =>
    concretize_ensures.bind fun _ second =>
      concretize_ensures.mono fun _ third => (first.trans second).trans third

/-! ### Tiers in place -/

/-- No two tiers are over the same variables; each has variables of the permutation, in its order. -/
structure Placed (f : Formula) : Prop where
  distinct : f.Distinct
  known : f.Known
  ascends : ∀ t ∈ f.tiers, f.permutation.Ascends t.triple

namespace Placed

theorem bare (p : Permutation) : (⟨p, []⟩ : Formula).Placed := ⟨.nil, nofun, nofun⟩

theorem ofClauses (clauses : List Clause) : (Formula.ofClauses clauses).Placed := by
  have grown := grown_ofClauses clauses
  exact ⟨grown.distinct, grown.known, fun t ht => grown.ascending _ (List.mem_map_of_mem ht)⟩

theorem of_windowed (h : f.Windowed) : f.Placed where
  distinct := h.distinct
  known := h.known
  ascends _ ht := Permutation.index_lt_of_mem_windows (h.triple_mem ht)

theorem shrinksTo (h : f.Placed) (shrinks : f.ShrinksTo g) : g.Placed := by
  obtain ⟨p, tiers⟩ := g
  obtain ⟨rfl, gone | shrunk⟩ := shrinks
  · obtain rfl : tiers = [] := gone
    exact bare _
  · have triples := Tier.map_triple_of_forall₂ shrunk
    refine ⟨?_, ?_, ?_⟩
    · rw [Distinct, triples]
      exact h.distinct
    · exact forall_mem_of_forall₂ shrunk fun t ht u same v hv => h.known t ht v (same.1 ▸ hv)
    · exact forall_mem_of_forall₂ shrunk fun t ht u same => same.1 ▸ h.ascends t ht

theorem addTier (h : f.Placed) (t : Tier) : (f.addTier t).Placed := by
  refine ⟨distinct_addTier h.distinct t, known_addTier h.known, ?_⟩
  unfold Formula.addTier
  split
  · intro u hu
    obtain ⟨u₀, hu₀, rfl⟩ := List.mem_map.mp hu
    split <;> exact h.ascends u₀ hu₀
  · intro u hu
    rcases List.mem_append.mp hu with old | new
    · exact (Permutation.Ascends.addAll (h.known u old)).mpr (h.ascends u old)
    · obtain rfl := List.mem_singleton.mp new
      exact ascends_orderedBy fun v hv => Permutation.mem_addAll.mpr (.inr hv)

/-- Variables at the end leave the others where they are. -/
theorem grow (h : f.Placed) (names : List Nat) :
    (⟨f.permutation.addAll names, f.tiers⟩ : Formula).Placed where
  distinct := h.distinct
  known t ht w hw := Permutation.mem_addAll.mpr (.inl (h.known t ht w hw))
  ascends t ht := (Permutation.Ascends.addAll (h.known t ht)).mpr (h.ascends t ht)

/-- A variable before the others moves all of them by one place. -/
theorem prependVariable (h : f.Placed) (v : Nat) :
    Ensures (f.prependVariable v) Placed := by
  unfold Formula.prependVariable Permutation.insert
  split
  · exact Ensures.fault.bind (P := fun _ => False) fun _ none => none.elim
  · rename_i fresh
    refine .pure ⟨h.distinct, fun t ht w hw => List.mem_cons_of_mem _ (h.known t ht w hw), ?_⟩
    intro t ht
    have moved {w : Nat} (hw : w ∈ t.triple.names) :
        (v :: f.permutation.names).idxOf w = f.permutation.index w + 1 := by
      refine List.idxOf_cons_ne _ ?_
      rintro rfl
      exact fresh (h.known t ht _ hw)
    have below {x y : Nat} (hx : x ∈ t.triple.names) (hy : y ∈ t.triple.names)
        (order : f.permutation.index x < f.permutation.index y) :
        (v :: f.permutation.names).idxOf x < (v :: f.permutation.names).idxOf y := by
      rw [moved hx, moved hy]
      exact Nat.succ_lt_succ order
    obtain ⟨ab, bc⟩ := h.ascends t ht
    have b := Triple.name_mem_names t.triple .b
    exact ⟨below (Triple.name_mem_names _ .a) b ab, below b (Triple.name_mem_names _ .c) bc⟩

theorem sortTiers (h : f.Placed) : f.sortTiers.Placed where
  distinct := by
    have sorted := List.mergeSort_perm f.tiers fun t u =>
      f.permutation.index t.triple.a ≤ f.permutation.index u.triple.a
    refine ((sorted.map Tier.triple).pairwise_iff ?_).mpr h.distinct
    exact fun apart => eq_false_of_ne_true fun same =>
      Bool.false_ne_true (apart.symm.trans (Triple.sameVariables_comm same))
  known t ht := h.known t (List.mem_mergeSort.mp ht)
  ascends t ht := h.ascends t (List.mem_mergeSort.mp ht)

theorem union (hf : f.Placed) (hg : g.Placed) : Ensures (f.union g) Placed := by
  have fold {tiers : List Tier} : ∀ {f : Formula}, f.Placed → (tiers.foldl Formula.addTier f).Placed := by
    induction tiers with
    | nil => exact id
    | cons t rest ih => exact fun hf => ih (hf.addTier t)
  unfold Formula.union
  refine Ensures.any.bind fun _ _ => ?_
  split
  · exact .pure hf
  · split
    · exact .pure hg
    · exact .pure (fold hf)

theorem complete {more : Permutation} : Ensures (f.complete more) fun r => r.1.Placed := by
  unfold Formula.complete
  split
  · exact .fault
  · refine propagate_ensures.mono fun r => (of_windowed ?_).shrinksTo
    simp [Windowed, Function.comp_def, triple_allowed]

end Placed
end Formula

/-! ### Histories -/

/-- What can be done to a formula. Some operations read another one. -/
inductive Operation (σ : Type)
  | add (clause : Clause)
  | addTier (t : Tier)
  | appendVariable (v : Nat)
  | prependVariable (v : Nat)
  | sortTiers
  | clear
  | removeOctant (index : Nat) (o : Octant)
  | cleanup
  | cleanupAround (index : Nat)
  | subtract (other : σ)
  | complete (more : Permutation)
  | union (other : σ)
  | intersect (other : σ)
  | concretize (v : Nat) (value : Bool)
  | concretizeOctant (triple : Triple) (o : Octant)

namespace Operation

variable {σ τ : Type}

def operands : Operation σ → List σ
  | subtract other | union other | intersect other => [other]
  | _ => []

def map (k : σ → τ) : Operation σ → Operation τ
  | add clause => add clause
  | addTier t => addTier t
  | appendVariable v => appendVariable v
  | prependVariable v => prependVariable v
  | sortTiers => sortTiers
  | clear => clear
  | removeOctant index o => removeOctant index o
  | cleanup => cleanup
  | cleanupAround index => cleanupAround index
  | subtract other => subtract (k other)
  | complete more => complete more
  | union other => union (k other)
  | intersect other => intersect (k other)
  | concretize v value => concretize v value
  | concretizeOctant triple o => concretizeOctant triple o

theorem operands_map {k : σ → τ} (op : Operation σ) : (op.map k).operands = op.operands.map k := by
  cases op <;> rfl

theorem map_map_of_operands {k : σ → τ} {r : τ → σ} {op : Operation τ}
    (back : ∀ o ∈ op.operands, k (r o) = o) : (op.map r).map k = op := by
  cases op with
  | subtract other | union other | intersect other =>
    exact congrArg _ (back other List.mem_cons_self)
  | _ => rfl

end Operation

namespace Formula

def apply (f : Formula) : Operation Formula → Checked Formula
  | .add clause => return f.add clause
  | .addTier t => return f.addTier t
  | .appendVariable v => return f.appendVariable v
  | .prependVariable v => f.prependVariable v
  | .sortTiers => return f.sortTiers
  | .clear => return f.clear
  | .removeOctant index o => f.removeOctant index o
  | .cleanup => return (← f.cleanup).1
  | .cleanupAround index => return (← f.cleanupAround index).1
  | .subtract g => return (← f.subtract g).1
  | .complete more => return (← f.complete more).1
  | .union g => f.union g
  | .intersect g => f.intersect g
  | .concretize v value => f.concretize v value
  | .concretizeOctant triple o => f.concretizeOctant triple o

/-- What operations make of formulas without tiers and of those of clauses. -/
inductive Reached : Formula → Prop
  | empty : Reached empty
  | ofNames (names : List Nat) : Reached ⟨.ofNames names, []⟩
  | ofClauses (clauses : List Clause) : Reached (ofClauses clauses)
  | step {f g : Formula} {op : Operation Formula} (before : Reached f)
      (operands : ∀ h ∈ op.operands, Reached h) (run : f.apply op = .ok g) : Reached g

theorem apply_ensures {f : Formula} {op : Operation Formula} (h : f.Placed)
    (operands : ∀ g ∈ op.operands, g.Placed) : Ensures (f.apply op) Placed := by
  have shrunk (g : Formula) : f.ShrinksTo g → g.Placed := h.shrinksTo
  cases op with
  | add clause => exact .pure (h.addTier _)
  | addTier t => exact .pure (h.addTier t)
  | appendVariable v => exact .pure (h.grow [v])
  | prependVariable v => exact h.prependVariable v
  | sortTiers => exact .pure h.sortTiers
  | clear => exact .pure (.bare _)
  | removeOctant index o => exact removeOctant_ensures.mono shrunk
  | cleanup => exact cleaned_ensures.mono shrunk
  | cleanupAround index => exact propagate_ensures.bind fun r hr => .pure (shrunk r.1 hr)
  | subtract g => exact subtract_ensures.bind fun r hr => .pure (shrunk r.1 hr)
  | complete more => exact Placed.complete.bind fun _ => .pure
  | union g => exact h.union (operands g List.mem_cons_self)
  | intersect g => exact intersect_ensures.mono shrunk
  | concretize v value => exact concretize_ensures.mono shrunk
  | concretizeOctant triple o => exact concretizeOctant_ensures.mono shrunk

theorem Reached.placed {f : Formula} (h : f.Reached) : f.Placed := by
  induction h with
  | empty => exact .bare _
  | ofNames names => exact .bare _
  | ofClauses clauses => exact .ofClauses clauses
  | step before operands run ih operandsPlaced =>
    exact (apply_ensures ih operandsPlaced).of_canReturn run

end Formula
end TripletSat
