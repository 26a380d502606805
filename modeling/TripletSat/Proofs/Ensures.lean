import TripletSat.Proofs.Returns

/-!
Partial correctness of computations. Whatever a computation can return has a property, whether or
not it faults, fails or reports events on the way.
-/

namespace TripletSat

open MonadAttach (CanReturn)

variable {α β ε : Type}

instance exceptMonadAttach {ζ : Type} : MonadAttach (Except ζ) where
  CanReturn x a := x = .ok a
  attach x := match x with
    | .ok a => .ok ⟨a, rfl⟩
    | .error e => .error e

instance exceptLawfulMonadAttach {ζ : Type} : LawfulMonadAttach (Except ζ) where
  map_attach {α x} := by cases x <;> rfl
  canReturn_map_imp {α P x a} h := by
    cases x with
    | error e => cases h
    | ok b => exact Except.ok.inj h ▸ b.property

/-- Whatever the computation can return has the property. -/
structure Ensures {m : Type → Type} [MonadAttach m] (x : m α) (P : α → Prop) : Prop where
  of_canReturn : ∀ {a}, CanReturn x a → P a

namespace Ensures

theorem mono {m : Type → Type} [MonadAttach m] {x : m α} {P Q : α → Prop} (hx : Ensures x P)
    (h : ∀ a, P a → Q a) : Ensures x Q :=
  ⟨fun returned => h _ (hx.of_canReturn returned)⟩

theorem any {m : Type → Type} [MonadAttach m] {x : m α} : Ensures x fun _ => True :=
  ⟨fun _ => trivial⟩

theorem both {m : Type → Type} [MonadAttach m] {x : m α} {P Q : α → Prop} (hp : Ensures x P)
    (hq : Ensures x Q) : Ensures x fun a => P a ∧ Q a :=
  ⟨fun returned => ⟨hp.of_canReturn returned, hq.of_canReturn returned⟩⟩

section Monads

variable {m : Type → Type} [Monad m] [LawfulMonad m] [MonadAttach m] [LawfulMonadAttach m]
  {P : α → Prop} {Q : β → Prop}

theorem pure {a : α} (h : P a) : Ensures (Pure.pure a : m α) P :=
  ⟨fun returned => LawfulMonadAttach.eq_of_canReturn_pure returned ▸ h⟩

theorem bind {x : m α} {f : α → m β} (hx : Ensures x P) (hf : ∀ a, P a → Ensures (f a) Q) :
    Ensures (x >>= f) Q := by
  constructor
  intro b returned
  obtain ⟨a, first, second⟩ := LawfulMonadAttach.canReturn_bind_imp' returned
  exact (hf a (hx.of_canReturn first)).of_canReturn second

theorem mapM {f : α → m β} {R : α → β → Prop} {xs : List α} (h : ∀ x ∈ xs, Ensures (f x) (R x)) :
    Ensures (xs.mapM f) (List.Forall₂ R xs) := by
  induction xs with
  | nil => exact pure .nil
  | cons x rest ih =>
    rw [List.mapM_cons]
    apply (h x List.mem_cons_self).bind
    intro y hy
    apply (ih fun z hz => h z (List.mem_cons_of_mem _ hz)).bind
    intro ys hys
    exact pure (.cons hy hys)

theorem mapM_length (f : α → m β) (xs : List α) :
    Ensures (xs.mapM f) fun ys => ys.length = xs.length :=
  (mapM fun _ _ => any).mono fun _ pairs => pairs.length_eq.symm

/-- `I rest b` holds of the accumulator `b` while `rest` is still to come. -/
theorem foldlM {f : β → α → m β} (I : List α → β → Prop) {xs : List α} {b : β}
    (step : ∀ x rest b, I (x :: rest) b → Ensures (f b x) (I rest)) (start : I xs b) :
    Ensures (xs.foldlM f b) (I []) := by
  induction xs generalizing b with
  | nil => exact pure start
  | cons x rest ih =>
    rw [List.foldlM_cons]
    exact (step x rest b start).bind fun _ h => ih h

end Monads

variable {P : α → Prop}

theorem fault {e : Fault} : Ensures (throw e : Checked α) P := ⟨nofun⟩

theorem throw {e : ε} : Ensures (MonadExcept.throw e : Attempt ε α) P := ⟨nofun⟩

theorem lift {x : Checked α} (hx : Ensures x P) : Ensures (liftM x : Attempt ε α) P := by
  constructor
  intro a returned
  cases x with
  | error e => cases returned
  | ok b =>
    cases returned
    exact hx.of_canReturn rfl

theorem look {x : Attempt ε α} (hx : Ensures x P) :
    Ensures (x.run : Checked _) fun r => ∀ a, r = .ok a → P a := by
  constructor
  rintro r returned a rfl
  exact hx.of_canReturn returned

/-! ### Computations that report events -/

theorem throwLogged {e : ε} : Ensures (MonadExcept.throw e : Logged ε α) P :=
  ⟨fun ⟨_, _, returned⟩ => nomatch returned⟩

theorem liftLogged {x : Checked α} (hx : Ensures x P) : Ensures (liftM x : Logged ε α) P := by
  constructor
  rintro a ⟨log, log', returned⟩
  cases x with
  | error e => cases returned
  | ok b =>
    cases returned
    exact hx.of_canReturn rfl

theorem throw_bind {e : ε} {f : α → Logged ε β} {Q : β → Prop} :
    Ensures (MonadExcept.throw e >>= f) Q :=
  bind (P := fun _ => False) throwLogged fun _ none => none.elim

theorem fault_bind {e : Fault} {f : α → Logged ε β} {Q : β → Prop} :
    Ensures ((liftM (MonadExcept.throw e : Checked α) : Logged ε α) >>= f) Q :=
  bind (P := fun _ => False) (liftLogged fault) fun _ none => none.elim

theorem report {e : Event} : Ensures (Logged.report e : Logged ε Unit) fun _ => True :=
  ⟨fun _ => trivial⟩

theorem ofAttempt {x : Attempt ε α} (hx : Ensures x P) :
    Ensures (Logged.ofAttempt x : Logged ε α) P := by
  unfold Logged.ofAttempt
  apply (liftLogged hx.look).bind
  intro r hr
  cases r with
  | ok a => exact pure (hr a rfl)
  | error e => exact throwLogged

/-- The outcome of a computation is looked at by another. -/
theorem run {δ : Type} {x : Logged ε α} (hx : Ensures x P) :
    Ensures (liftM (x.run : StateT (List Event) Checked _) : Logged δ (Except ε α))
      fun r => ∀ a, r = .ok a → P a := by
  constructor
  rintro r ⟨log, log', returned⟩ a rfl
  refine hx.of_canReturn ⟨log, log', ?_⟩
  have mapped : (fun p : Except ε α × List Event => ((Except.ok p.1 : Except δ (Except ε α)), p.2)) <$>
      (x.run : StateT (List Event) Checked _).run log = .ok (.ok (.ok a), log') := returned
  cases ran : (x.run : StateT (List Event) Checked _).run log with
  | error fault =>
    rw [ran] at mapped
    cases mapped
  | ok p =>
    obtain ⟨r, events⟩ := p
    rw [ran] at mapped
    cases mapped
    exact ran

end Ensures

theorem Returns.ensures {x : Checked α} {P : α → Prop} (h : Returns x P) : Ensures x P :=
  ⟨h.of_eq⟩

theorem Attempts.ensures {x : Attempt ε α} {P : α → Prop} {E : ε → Prop} (h : Attempts x P E) :
    Ensures x P := by
  constructor
  intro a returned
  obtain ⟨r, run, hr⟩ := h
  obtain rfl := Except.ok.inj (run.symm.trans returned)
  exact hr

theorem Attempts.and_ensures {x : Attempt ε α} {P Q : α → Prop} {E : ε → Prop}
    (h : Attempts x P E) (ensures : Ensures x Q) : Attempts x (fun a => P a ∧ Q a) E := by
  obtain ⟨r, run, hr⟩ := h
  refine ⟨r, run, ?_⟩
  cases r with
  | ok a => exact ⟨hr, ensures.of_canReturn run⟩
  | error e => exact hr

theorem Concludes.ensures {x : Logged ε α} {P : α → Prop} {E : ε → Prop} (h : Concludes x P E) :
    Ensures x P :=
  ⟨fun ⟨log, _, returned⟩ => (h log).of_eq returned⟩

end TripletSat
