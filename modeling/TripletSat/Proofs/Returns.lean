import Mathlib.Data.List.Forall2
import TripletSat.Event

/-!
Total correctness of computations. A computation that meets its specification never ends in a
fault; it ends in a result with one property or, where it can fail, in an error with another.
-/

namespace TripletSat

variable {α β ε : Type}

theorem ok_of_bind {x : Except ε α} {f : α → Except ε β} {b : β} (h : x >>= f = .ok b) :
    ∃ a, x = .ok a ∧ f a = .ok b := by
  cases x with
  | error e => cases h
  | ok a => exact ⟨a, rfl, h⟩

theorem bind_of_ok {x : Except ε α} {f : α → Except ε β} {a : α} (h : x = .ok a) : x >>= f = f a := by
  rw [h]
  rfl

theorem map_eq_ok_iff {x : Except ε α} {f : α → β} {b : β} :
    f <$> x = .ok b ↔ ∃ a, x = .ok a ∧ f a = b := by
  cases x with
  | error e => exact ⟨nofun, fun ⟨_, run, _⟩ => nomatch run⟩
  | ok a =>
    constructor
    · exact fun h => ⟨a, rfl, Except.ok.inj h⟩
    · rintro ⟨_, run, rfl⟩
      cases run
      rfl

theorem map_eq_error_iff {x : Except ε α} {f : α → β} {e : ε} : f <$> x = .error e ↔ x = .error e := by
  cases x with
  | error e' =>
    exact ⟨fun h => congrArg _ (Except.error.inj h), fun h => congrArg _ (Except.error.inj h)⟩
  | ok a => exact ⟨nofun, nofun⟩

/-- No fault, and a result with the property. -/
def Returns (x : Checked α) (P : α → Prop) : Prop := ∃ a, x = .ok a ∧ P a

/-- A property of results beside one of errors. -/
def Either (P : α → Prop) (E : ε → Prop) : Except ε α → Prop
  | .ok a => P a
  | .error e => E e

/-- No fault; a result with the first property or an error with the second. -/
def Attempts (x : Attempt ε α) (P : α → Prop) (E : ε → Prop) : Prop :=
  Returns x.run (Either P E)

/-- `Attempts` for a computation that reports events, whichever came before. -/
def Concludes (x : Logged ε α) (P : α → Prop) (E : ε → Prop) : Prop :=
  ∀ log, Returns ((x.run : StateT (List Event) Checked _).run log) fun r => Either P E r.1

namespace Returns

theorem pure {a : α} {P : α → Prop} (h : P a) : Returns (pure a) P := ⟨a, rfl, h⟩

theorem mono {x : Checked α} {P Q : α → Prop} (hx : Returns x P) (h : ∀ a, P a → Q a) :
    Returns x Q := by
  obtain ⟨a, rfl, ha⟩ := hx
  exact ⟨a, rfl, h a ha⟩

theorem bind {x : Checked α} {f : α → Checked β} {P : α → Prop} {Q : β → Prop}
    (hx : Returns x P) (hf : ∀ a, P a → Returns (f a) Q) : Returns (x >>= f) Q := by
  obtain ⟨a, rfl, ha⟩ := hx
  exact hf a ha

theorem map {x : Checked α} {f : α → β} {P : β → Prop} (hx : Returns x fun a => P (f a)) :
    Returns (f <$> x) P := by
  obtain ⟨a, rfl, ha⟩ := hx
  exact ⟨f a, rfl, ha⟩

theorem of_eq {x : Checked α} {a : α} {P : α → Prop} (hx : Returns x P) (h : x = .ok a) : P a := by
  obtain ⟨b, hb, hp⟩ := hx
  rw [h] at hb
  exact Except.ok.inj hb ▸ hp

/-- What is known of the result, and that it is the result. -/
theorem with_eq {x : Checked α} {P : α → Prop} (hx : Returns x P) :
    Returns x fun a => x = .ok a ∧ P a := by
  obtain ⟨a, run, ha⟩ := hx
  exact ⟨a, run, run, ha⟩

theorem mapM {f : α → Checked β} {R : α → β → Prop} {xs : List α}
    (h : ∀ x ∈ xs, Returns (f x) (R x)) : Returns (xs.mapM f) (List.Forall₂ R xs) := by
  induction xs with
  | nil => exact pure .nil
  | cons x rest ih =>
    rw [List.mapM_cons]
    apply (h x List.mem_cons_self).bind
    intro y hy
    apply (ih fun z hz => h z (List.mem_cons_of_mem _ hz)).bind
    intro ys hys
    exact pure (.cons hy hys)

theorem forM {f : α → Checked PUnit} {xs : List α} (h : ∀ x ∈ xs, Returns (f x) fun _ => True) :
    Returns (xs.forM f) fun _ => True := by
  induction xs with
  | nil => exact pure trivial
  | cons x rest ih =>
    show Returns (f x >>= fun _ => rest.forM f) _
    exact (h x List.mem_cons_self).bind fun _ _ => ih fun y hy => h y (List.mem_cons_of_mem _ hy)

/-- `I rest b` holds of the accumulator `b` while `rest` is still to come. -/
theorem foldlM {f : β → α → Checked β} (I : List α → β → Prop) {xs : List α} {b : β}
    (step : ∀ x rest b, I (x :: rest) b → Returns (f b x) (I rest)) (start : I xs b) :
    Returns (xs.foldlM f b) (I []) := by
  induction xs generalizing b with
  | nil => exact pure start
  | cons x rest ih =>
    rw [List.foldlM_cons]
    exact (step x rest b start).bind fun _ h => ih h

end Returns

namespace Attempts

variable {P : α → Prop} {E : ε → Prop}

theorem pure {a : α} (h : P a) : Attempts (pure a : Attempt ε α) P E := ⟨_, rfl, h⟩

theorem throw {e : ε} (h : E e) : Attempts (throw e : Attempt ε α) P E := ⟨_, rfl, h⟩

theorem mono {x : Attempt ε α} {Q : α → Prop} {F : ε → Prop} (hx : Attempts x P E)
    (hp : ∀ a, P a → Q a) (he : ∀ e, E e → F e) : Attempts x Q F := by
  apply Returns.mono hx
  intro r hr
  cases r with
  | ok a => exact hp a hr
  | error e => exact he e hr

theorem bind {x : Attempt ε α} {f : α → Attempt ε β} {Q : β → Prop}
    (hx : Attempts x P E) (hf : ∀ a, P a → Attempts (f a) Q E) : Attempts (x >>= f) Q E := by
  unfold Attempts
  rw [ExceptT.run_bind]
  apply Returns.bind hx
  intro r hr
  cases r with
  | ok a => exact hf a hr
  | error e => exact Returns.pure hr

theorem lift {x : Checked α} (hx : Returns x P) : Attempts (liftM x : Attempt ε α) P E :=
  Returns.map hx

theorem exists_ok {x : Attempt ε α} (hx : Attempts x P E) (none : ∀ e, ¬ E e) :
    ∃ a, x.run = .ok (.ok a) ∧ P a := by
  obtain ⟨r, same, hr⟩ := hx
  cases r with
  | ok a => exact ⟨a, same, hr⟩
  | error e => exact absurd hr (none e)

theorem adapt {δ : Type} {x : Attempt ε α} {f : ε → δ} {F : δ → Prop}
    (hx : Attempts x P fun e => F (f e)) : Attempts (ExceptT.adapt f x) P F := by
  unfold Attempts
  rw [ExceptT.run_adapt]
  refine Returns.map (Returns.mono hx ?_)
  intro r hr
  cases r with
  | ok a => exact hr
  | error e => exact hr

theorem mapM {f : α → Attempt ε β} {R : α → β → Prop} {xs : List α}
    (h : ∀ x ∈ xs, Attempts (f x) (R x) E) : Attempts (xs.mapM f) (List.Forall₂ R xs) E := by
  induction xs with
  | nil => exact pure .nil
  | cons x rest ih =>
    rw [List.mapM_cons]
    apply (h x List.mem_cons_self).bind
    intro y hy
    apply (ih fun z hz => h z (List.mem_cons_of_mem _ hz)).bind
    intro ys hys
    exact pure (.cons hy hys)

theorem foldlM {f : β → α → Attempt ε β} (I : List α → β → Prop) {xs : List α} {b : β}
    (step : ∀ x rest b, I (x :: rest) b → Attempts (f b x) (I rest) E) (start : I xs b) :
    Attempts (xs.foldlM f b) (I []) E := by
  induction xs generalizing b with
  | nil => exact pure start
  | cons x rest ih =>
    rw [List.foldlM_cons]
    exact (step x rest b start).bind fun _ h => ih h

end Attempts

namespace Concludes

variable {P : α → Prop} {E : ε → Prop}

theorem pure {a : α} (h : P a) : Concludes (pure a : Logged ε α) P E := fun _ => ⟨_, rfl, h⟩

theorem throw {e : ε} (h : E e) : Concludes (throw e : Logged ε α) P E := fun _ => ⟨_, rfl, h⟩

theorem mono {x : Logged ε α} {Q : α → Prop} {F : ε → Prop} (hx : Concludes x P E)
    (hp : ∀ a, P a → Q a) (he : ∀ e, E e → F e) : Concludes x Q F := by
  intro log
  apply (hx log).mono
  intro r hr
  obtain ⟨r, events⟩ := r
  cases r with
  | ok a => exact hp a hr
  | error e => exact he e hr

theorem bind {x : Logged ε α} {f : α → Logged ε β} {Q : β → Prop}
    (hx : Concludes x P E) (hf : ∀ a, P a → Concludes (f a) Q E) : Concludes (x >>= f) Q E := by
  intro log
  rw [ExceptT.run_bind, StateT.run_bind]
  apply (hx log).bind
  intro r hr
  obtain ⟨r, events⟩ := r
  cases r with
  | ok a => exact hf a hr events
  | error e => exact Returns.pure hr

theorem report {e : Event} {P : Unit → Prop} (h : P ()) :
    Concludes (Logged.report e : Logged ε Unit) P E := fun _ => ⟨_, rfl, h⟩

theorem lift {x : Checked α} (hx : Returns x P) : Concludes (liftM x : Logged ε α) P E := by
  obtain ⟨a, rfl, h⟩ := hx
  exact fun _ => ⟨_, rfl, h⟩

theorem ofAttempt {x : Attempt ε α} (hx : Attempts x P E) :
    Concludes (Logged.ofAttempt x : Logged ε α) P E := by
  obtain ⟨r, hr, h⟩ := hx
  unfold Logged.ofAttempt
  apply bind (lift ⟨r, hr, h⟩)
  intro r hr
  cases r with
  | ok a => exact pure hr
  | error e => exact throw hr

theorem outcome {x : Logged ε α} (hx : Concludes x P E) :
    Returns x.outcome fun (r, _) => Either P E r :=
  hx []

/-- The outcome of a computation is looked at by another, which may go on after an error. -/
theorem run {δ : Type} {x : Logged ε α} (hx : Concludes x P E) {F : δ → Prop} :
    Concludes (liftM (x.run : StateT (List Event) Checked _) : Logged δ (Except ε α))
      (Either P E) F := by
  intro log
  obtain ⟨⟨r, events⟩, hr, h⟩ := hx log
  refine ⟨(.ok r, events), ?_, h⟩
  exact (congrArg (Functor.map fun p : Except ε α × List Event => (Except.ok p.1, p.2)) hr :)

end Concludes

end TripletSat
