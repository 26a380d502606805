import TripletSat.Proofs.Ensures
import TripletSat.Proofs.Hyper.Columns

/-!
How often a construction starts over. Every pass that does not add a layer has cost the basic
structure two octants: the one that turned out impossible, and at least one more that cleanup took
after it. So the passes come to an end, and restarts are fewer than half of the octants.
-/

namespace TripletSat

open MonadAttach (CanReturn)

namespace HyperSystem

variable {check : Bool} {start s s' : HyperSystem} {index next : Nat}

/-- Where the passes of a construction begin, each with the number of layers that stand. -/
inductive Underway (check : Bool) (start : HyperSystem) : Nat → HyperSystem → Prop
  | seeded {s : HyperSystem} (seeds : CanReturn start.seed s) : Underway check start 1 s
  | passed {index next : Nat} {s s' : HyperSystem} (before : Underway check start index s)
      (more : index < start.tierCount)
      (passes : CanReturn (pass check start.tierCount index s) (next, s')) :
      Underway check start next s'

/-! ### What a construction returns comes from its passes -/

theorem buildFrom_underway {fuel : Nat} (h : Underway check start index s) :
    Ensures (buildFrom check start.tierCount fuel index s)
      fun s' => ∃ n ≥ start.tierCount, Underway check start n s' := by
  induction fuel generalizing index s with
  | zero =>
    unfold buildFrom
    split
    · rename_i done
      exact .pure ⟨index, done, h⟩
    · exact .liftLogged .fault
  | succ fuel ih =>
    rw [buildFrom_succ]
    split
    · rename_i done
      exact .pure ⟨index, done, h⟩
    · rename_i more
      have passes : Ensures (pass check start.tierCount index s)
          fun p => Underway check start p.1 p.2 :=
        ⟨fun returned => h.passed (Nat.lt_of_not_le more) returned⟩
      exact passes.bind fun p onward => ih onward

theorem build_underway :
    Ensures (build check start) fun s => ∃ n ≥ start.tierCount, Underway check start n s := by
  unfold build
  have seeds : Ensures start.seed (Underway check start 1) := ⟨.seeded⟩
  apply seeds.bind
  intro s h
  dsimp only
  split
  · exact Ensures.any.bind fun _ _ =>
      buildFrom_underway h
  · exact buildFrom_underway h

theorem ofStructures_ensures {structures : List Formula} {i : Nat} {basic : Formula}
    {P : HyperSystem → Prop} (chosen : basicIndex? structures = some i)
    (hbasic : structures[i]? = some basic)
    (built : Ensures (build check (started structures i basic)) P) :
    Ensures (ofStructures structures check) P := by
  have get : structures.getD i .empty = basic := by
    rw [List.getD_eq_getElem?_getD, hbasic]
    rfl
  unfold ofStructures
  rw [chosen]
  dsimp only
  rw [get]
  split
  · exact .throw_bind
  · split
    · exact .throw_bind
    · split
      · exact .fault_bind
      · apply Ensures.report.bind
        intro _ _
        apply built.run.bind
        intro r hr
        cases r with
        | ok s => exact .pure (hr s rfl)
        | error e => exact Ensures.report.bind fun _ _ => .throwLogged

/-! ### Each pass pays for what it takes back -/

theorem firstLayer_tier : Ensures s.firstLayer fun _ => s.basic.tiers ≠ [] := by
  unfold firstLayer Formula.tier
  cases found : s.basic.tiers[0]? with
  | none => exact Ensures.bind (P := fun _ => False) .fault fun _ none => none.elim
  | some t => exact ⟨fun _ => List.ne_nil_of_mem (List.mem_of_getElem? found)⟩

/-- Only a structure with tiers is seeded. -/
theorem seed_tiers : Ensures s.seed fun _ => s.basic.tiers ≠ [] := by
  unfold seed
  rw [seedRounds]
  apply (Ensures.liftLogged firstLayer_tier).bind
  exact fun _ tiers => ⟨fun _ => tiers⟩

/-- Up to the start of a pass, all has gone well. -/
structure Ready (start s : HyperSystem) (index : Nat) : Prop where
  advances : start.Advances s
  clean : s.Clean
  length : s.layers.length = index
  some : 1 ≤ index

theorem Ready.pass_concludes (h : Ready start s index) (more : index < start.tierCount) :
    Concludes (pass check start.tierCount index s) (fun (next, s') => s.Passed next s')
      fun _ => ∀ τ, ¬ s.Carries τ := by
  obtain ⟨advances, clean, rfl, some⟩ := h
  exact HyperSystem.pass_concludes check clean some (advances.tierCount_eq clean.formed ▸ more)

theorem Underway.tiers (h : Underway check start index s) : start.basic.tiers ≠ [] := by
  induction h with
  | seeded seeds => exact seed_tiers.of_canReturn seeds
  | passed _ _ _ ih => exact ih

theorem Underway.ready (h : Underway check start index s) (formed : start.Formed) :
    Ready start s index := by
  induction h with
  | seeded seeds =>
    have seeds := (seed_concludes formed).ensures.of_canReturn seeds
    exact ⟨seeds.advances, seeds.clean, seeds.length, Nat.le_refl 1⟩
  | passed before more passes ih =>
    have passed := (ih.pass_concludes more).ensures.of_canReturn passes
    exact ⟨ih.advances.trans passed.advances, passed.clean, passed.length, passed.some⟩

end HyperSystem

end TripletSat
