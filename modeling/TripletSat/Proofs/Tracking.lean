import TripletSat.Proofs.Returns

/-!
Two computations side by side. One tracks another if it ends in a related result wherever the other
one does not fault; there is one rule for each way to put computations together.
-/

namespace TripletSat

variable {α β γ δ ε ζ : Type}

/-- Where the first computation does not fault, the second one returns something related. -/
def Tracks (R : α → β → Prop) (x : Checked α) (y : Checked β) : Prop :=
  ∀ a, x = .ok a → Returns y (R a)

/-- A relation of results beside one of errors. -/
def Matches (R : α → β → Prop) (E : ε → ζ → Prop) : Except ε α → Except ζ β → Prop
  | .ok a, .ok b => R a b
  | .error e, .error e' => E e e'
  | _, _ => False

/-- `Tracks` for computations that can fail. -/
def Shadows (R : α → β → Prop) (E : ε → ζ → Prop) (x : Attempt ε α) (y : Attempt ζ β) : Prop :=
  Tracks (Matches R E) x.run y.run

/-- `Shadows` for computations that report events, whichever came before. The events may differ. -/
def Echoes (R : α → β → Prop) (E : ε → ζ → Prop) (x : Logged ε α) (y : Logged ζ β) : Prop :=
  ∀ log log', Tracks (fun r r' => Matches R E r.1 r'.1)
    ((x.run : StateT (List Event) Checked _).run log)
    ((y.run : StateT (List Event) Checked _).run log')

/-- Both may fail, whatever the errors are. -/
def anyErrors (_ : ε) (_ : ζ) : Prop := True

theorem forall₂_eq_map {k : α → β} {xs : List α} {ys : List β} :
    List.Forall₂ (fun x y => y = k x) xs ys ↔ ys = xs.map k := by
  rw [eq_comm (b := xs.map k), ← List.forall₂_eq_eq_eq, List.forall₂_map_left_iff]
  simp only [eq_comm]

theorem forall₂_and_eq_map {P : α → Prop} {k : α → β} {xs : List α} {ys : List β} :
    List.Forall₂ (fun x y => P x ∧ y = k x) xs ys ↔ (∀ x ∈ xs, P x) ∧ ys = xs.map k := by
  rw [List.forall₂_and_left, forall₂_eq_map]

theorem rel_ite (P : α → β → Prop) {c d : Prop} [Decidable c] [Decidable d] {x x' : α} {y y' : β}
    (same : c ↔ d) (yes : c → P x y) (no : ¬ c → P x' y') :
    P (if c then x else x') (if d then y else y') := by
  by_cases h : c
  · rw [if_pos h, if_pos (same.mp h)]
    exact yes h
  · rw [if_neg h, if_neg (mt same.mpr h)]
    exact no h

namespace Tracks

variable {R : α → β → Prop} {S : γ → δ → Prop} {x : Checked α} {y : Checked β}

theorem pure {a : α} {b : β} (h : R a b) : Tracks R (pure a) (pure b) := by
  intro a' same
  obtain rfl := Except.ok.inj same
  exact .pure h

theorem throw {e : Fault} : Tracks R (throw e) y := nofun

theorem mono {T : α → β → Prop} (h : Tracks R x y) (weaker : ∀ a b, R a b → T a b) :
    Tracks T x y :=
  fun a run => (h a run).mono (weaker a)

/-- What is known of the first result besides. -/
theorem with_returns {P : α → Prop} (h : Tracks R x y) (known : Returns x P) :
    Tracks (fun a b => P a ∧ R a b) x y :=
  fun a run => (h a run).mono fun _ related => ⟨known.of_eq run, related⟩

theorem bind {f : α → Checked γ} {g : β → Checked δ} (h : Tracks R x y)
    (onward : ∀ a b, R a b → Tracks S (f a) (g b)) : Tracks S (x >>= f) (y >>= g) := by
  intro c run
  cases first : x with
  | error e =>
    rw [first] at run
    cases run
  | ok a =>
    rw [first] at run
    exact (h a first).bind fun b related => onward a b related c run

/-- Going on from a result and its image. -/
theorem bind_eq {k : α → β} {f : α → Checked γ} {g : β → Checked δ}
    (h : Tracks (fun a b => b = k a) x y) (onward : ∀ a, Tracks S (f a) (g (k a))) :
    Tracks S (x >>= f) (y >>= g) :=
  h.bind fun a _ same => same ▸ onward a

theorem bind_and_eq {P : α → Prop} {k : α → β} {f : α → Checked γ} {g : β → Checked δ}
    (h : Tracks (fun a b => P a ∧ b = k a) x y) (onward : ∀ a, P a → Tracks S (f a) (g (k a))) :
    Tracks S (x >>= f) (y >>= g) :=
  h.bind fun a _ ⟨known, same⟩ => same ▸ onward a known

/-- A step that only the first computation takes. -/
theorem first {f : α → Checked γ} {y : Checked δ} (h : ∀ a, x = .ok a → Tracks S (f a) y) :
    Tracks S (x >>= f) y := by
  cases x with
  | error e => exact nofun
  | ok a => exact h a rfl

/-- A step that only the second computation takes. -/
theorem second {x : Checked γ} {g : β → Checked δ} {b : β} (run : y = .ok b) (h : Tracks S x (g b)) :
    Tracks S x (y >>= g) := by
  rw [run]
  exact h

/-- A step that both take. -/
theorem both {f : α → Checked γ} {g : α → Checked δ} (h : ∀ a, x = .ok a → Tracks S (f a) (g a)) :
    Tracks S (x >>= f) (x >>= g) := by
  cases x with
  | error e => exact nofun
  | ok a => exact h a rfl

theorem ite {c d : Prop} [Decidable c] [Decidable d] {x' : Checked α} {y' : Checked β}
    (same : c ↔ d) (yes : c → Tracks R x y) (no : ¬ c → Tracks R x' y') :
    Tracks R (if c then x else x') (if d then y else y') :=
  rel_ite (Tracks R) same yes no

theorem map {f : α → γ} {g : β → δ} (h : Tracks (fun a b => S (f a) (g b)) x y) :
    Tracks S (f <$> x) (g <$> y) := by
  cases x with
  | error e => exact nofun
  | ok a =>
    intro c same
    obtain rfl := Except.ok.inj same
    exact (h a rfl).map

theorem mapM {f : α → Checked γ} {g : β → Checked δ} {h : α → β} {xs : List α}
    (step : ∀ x ∈ xs, Tracks S (f x) (g (h x))) :
    Tracks (List.Forall₂ S) (xs.mapM f) ((xs.map h).mapM g) := by
  induction xs with
  | nil => exact pure .nil
  | cons x rest ih =>
    rw [List.map_cons, List.mapM_cons, List.mapM_cons]
    obtain ⟨first, others⟩ := List.forall_mem_cons.mp step
    refine first.bind fun c d head => (ih others).bind fun cs ds tail => pure (.cons head tail)

theorem mapM_same {f : α → Checked γ} {g : α → Checked δ} {xs : List α}
    (step : ∀ x ∈ xs, Tracks S (f x) (g x)) : Tracks (List.Forall₂ S) (xs.mapM f) (xs.mapM g) := by
  have both := mapM (h := id) step
  rwa [List.map_id] at both

theorem forM {f : α → Checked PUnit} {g : β → Checked PUnit} {h : α → β} {xs : List α}
    (step : ∀ x ∈ xs, Tracks (fun _ _ => True) (f x) (g (h x))) :
    Tracks (fun _ _ => True) (xs.forM f) ((xs.map h).forM g) := by
  induction xs with
  | nil => exact pure trivial
  | cons x rest ih =>
    show Tracks _ (f x >>= fun _ => rest.forM f) (g (h x) >>= fun _ => (rest.map h).forM g)
    obtain ⟨first, others⟩ := List.forall_mem_cons.mp step
    exact first.bind fun _ _ _ => ih others

theorem foldlM {f : γ → α → Checked γ} {g : δ → β → Checked δ} {h : α → β} {xs : List α} {c : γ}
    {d : δ} (step : ∀ x ∈ xs, ∀ c d, S c d → Tracks S (f c x) (g d (h x))) (start : S c d) :
    Tracks S (xs.foldlM f c) ((xs.map h).foldlM g d) := by
  induction xs generalizing c d with
  | nil => exact pure start
  | cons x rest ih =>
    rw [List.map_cons, List.foldlM_cons, List.foldlM_cons]
    obtain ⟨first, others⟩ := List.forall_mem_cons.mp step
    exact (first c d start).bind fun _ _ related => ih others related

end Tracks

namespace Shadows

variable {R : α → β → Prop} {S : γ → δ → Prop} {E : ε → ζ → Prop} {x : Attempt ε α}
  {y : Attempt ζ β}

theorem pure {a : α} {b : β} (h : R a b) : Shadows R E (pure a) (pure b) := Tracks.pure h

theorem throw {e : ε} {e' : ζ} (h : E e e') : Shadows R E (throw e) (throw e') := Tracks.pure h

theorem bind {f : α → Attempt ε γ} {g : β → Attempt ζ δ} (h : Shadows R E x y)
    (onward : ∀ a b, R a b → Shadows S E (f a) (g b)) : Shadows S E (x >>= f) (y >>= g) := by
  unfold Shadows
  rw [ExceptT.run_bind, ExceptT.run_bind]
  refine Tracks.bind h fun r r' matched => ?_
  match r, r', matched with
  | .ok a, .ok b, related => exact onward a b related
  | .error _, .error _, related => exact Tracks.pure related

theorem bind_eq {k : α → β} {f : α → Attempt ε γ} {g : β → Attempt ζ δ}
    (h : Shadows (fun a b => b = k a) E x y) (onward : ∀ a, Shadows S E (f a) (g (k a))) :
    Shadows S E (x >>= f) (y >>= g) :=
  h.bind fun a _ same => same ▸ onward a

theorem bind_and_eq {P : α → Prop} {k : α → β} {f : α → Attempt ε γ} {g : β → Attempt ζ δ}
    (h : Shadows (fun a b => P a ∧ b = k a) E x y)
    (onward : ∀ a, P a → Shadows S E (f a) (g (k a))) : Shadows S E (x >>= f) (y >>= g) :=
  h.bind fun a _ ⟨known, same⟩ => same ▸ onward a known

theorem ite {c d : Prop} [Decidable c] [Decidable d] {x' : Attempt ε α} {y' : Attempt ζ β}
    (same : c ↔ d) (yes : c → Shadows R E x y) (no : ¬ c → Shadows R E x' y') :
    Shadows R E (if c then x else x') (if d then y else y') :=
  rel_ite (Shadows R E) same yes no

theorem with_attempts {P : α → Prop} {F : ε → Prop} (h : Shadows R E x y) (known : Attempts x P F) :
    Shadows (fun a b => P a ∧ R a b) E x y := by
  refine Tracks.mono (Tracks.with_returns h known) fun r r' ⟨either, matched⟩ => ?_
  match r, r', matched with
  | .ok _, .ok _, related => exact ⟨either, related⟩
  | .error _, .error _, related => exact related

theorem lift {x : Checked α} {y : Checked β} (h : Tracks R x y) :
    Shadows R E (liftM x : Attempt ε α) (liftM y : Attempt ζ β) :=
  Tracks.map h

theorem fault {e : Fault} : Shadows R E (liftM (MonadExcept.throw e : Checked α)) y := nofun

theorem first {x : Checked α} {f : α → Attempt ε γ} {y : Attempt ζ δ}
    (h : ∀ a, x = .ok a → Shadows S E (f a) y) : Shadows S E ((liftM x : Attempt ε α) >>= f) y := by
  cases x with
  | error e => exact nofun
  | ok a => exact h a rfl

theorem second {x : Attempt ε γ} {y : Checked β} {g : β → Attempt ζ δ} {b : β} (run : y = .ok b)
    (h : Shadows S E x (g b)) : Shadows S E x ((liftM y : Attempt ζ β) >>= g) := by
  rw [run]
  exact h

theorem both {x : Checked α} {f : α → Attempt ε γ} {g : α → Attempt ζ δ}
    (h : ∀ a, x = .ok a → Shadows S E (f a) (g a)) :
    Shadows S E ((liftM x : Attempt ε α) >>= f) ((liftM x : Attempt ζ α) >>= g) := by
  cases x with
  | error e => exact nofun
  | ok a => exact h a rfl

theorem adapt {ε' ζ' : Type} {f : ε → ε'} {g : ζ → ζ'} {F : ε' → ζ' → Prop} (h : Shadows R E x y)
    (errors : ∀ e e', E e e' → F (f e) (g e')) :
    Shadows R F (ExceptT.adapt f x) (ExceptT.adapt g y) := by
  unfold Shadows
  rw [ExceptT.run_adapt, ExceptT.run_adapt]
  refine Tracks.map (Tracks.mono h fun r r' matched => ?_)
  match r, r', matched with
  | .ok _, .ok _, related => exact related
  | .error e, .error e', related => exact errors e e' related

theorem foldlM {f : γ → α → Attempt ε γ} {g : δ → β → Attempt ζ δ} {h : α → β} {xs : List α} {c : γ}
    {d : δ} (step : ∀ x ∈ xs, ∀ c d, S c d → Shadows S E (f c x) (g d (h x))) (start : S c d) :
    Shadows S E (xs.foldlM f c) ((xs.map h).foldlM g d) := by
  induction xs generalizing c d with
  | nil => exact pure start
  | cons x rest ih =>
    rw [List.map_cons, List.foldlM_cons, List.foldlM_cons]
    obtain ⟨first, others⟩ := List.forall_mem_cons.mp step
    exact (first c d start).bind fun _ _ related => ih others related

theorem foldlM_same {f : γ → α → Attempt ε γ} {g : δ → α → Attempt ζ δ} {xs : List α} {c : γ} {d : δ}
    (step : ∀ x ∈ xs, ∀ c d, S c d → Shadows S E (f c x) (g d x)) (start : S c d) :
    Shadows S E (xs.foldlM f c) (xs.foldlM g d) := by
  have both := foldlM (h := id) step start
  rwa [List.map_id] at both

end Shadows

namespace Echoes

variable {R : α → β → Prop} {S : γ → δ → Prop} {E : ε → ζ → Prop} {x : Logged ε α}
  {y : Logged ζ β}

theorem pure {a : α} {b : β} (h : R a b) : Echoes R E (pure a) (pure b) :=
  fun _ _ => Tracks.pure h

theorem throw {e : ε} {e' : ζ} (h : E e e') : Echoes R E (throw e) (throw e') :=
  fun _ _ => Tracks.pure h

theorem bind {f : α → Logged ε γ} {g : β → Logged ζ δ} (h : Echoes R E x y)
    (onward : ∀ a b, R a b → Echoes S E (f a) (g b)) : Echoes S E (x >>= f) (y >>= g) := by
  intro log log'
  rw [ExceptT.run_bind, StateT.run_bind, ExceptT.run_bind, StateT.run_bind]
  refine (h log log').bind fun ⟨r, events⟩ ⟨r', events'⟩ matched => ?_
  match r, r', matched with
  | .ok a, .ok b, related => exact onward a b related events events'
  | .error _, .error _, related => exact Tracks.pure related

theorem bind_eq {k : α → β} {f : α → Logged ε γ} {g : β → Logged ζ δ}
    (h : Echoes (fun a b => b = k a) E x y) (onward : ∀ a, Echoes S E (f a) (g (k a))) :
    Echoes S E (x >>= f) (y >>= g) :=
  h.bind fun a _ same => same ▸ onward a

theorem bind_and_eq {P : α → Prop} {k : α → β} {f : α → Logged ε γ} {g : β → Logged ζ δ}
    (h : Echoes (fun a b => P a ∧ b = k a) E x y)
    (onward : ∀ a, P a → Echoes S E (f a) (g (k a))) : Echoes S E (x >>= f) (y >>= g) :=
  h.bind fun a _ ⟨known, same⟩ => same ▸ onward a known

theorem weaken {F : ε → ζ → Prop} (h : Echoes R E x y) (weaker : ∀ e e', E e e' → F e e') :
    Echoes R F x y := by
  refine fun log log' => (h log log').mono fun (r, _) (r', _) matched => ?_
  match r, r', matched with
  | .ok _, .ok _, related => exact related
  | .error e, .error e', related => exact weaker e e' related

theorem lift {x : Checked α} {y : Checked β} (h : Tracks R x y) :
    Echoes R E (liftM x : Logged ε α) (liftM y : Logged ζ β) := by
  intro log log' r run
  cases x with
  | error e => cases run
  | ok a =>
    obtain rfl := Except.ok.inj run
    obtain ⟨b, rfl, related⟩ := h a rfl
    exact ⟨_, rfl, related⟩

/-- What follows an error does not matter. -/
theorem throw_bind {e : ε} {e' : ζ} {f : α → Logged ε γ} {g : β → Logged ζ δ} (h : E e e') :
    Echoes S E (MonadExcept.throw e >>= f) (MonadExcept.throw e' >>= g) :=
  bind (R := fun _ _ => False) (throw h) fun _ _ none => none.elim

theorem fault_bind {e : Fault} {y : Checked β} {f : α → Logged ε γ} {g : β → Logged ζ δ} :
    Echoes S E ((liftM (MonadExcept.throw e : Checked α) : Logged ε α) >>= f)
      ((liftM y : Logged ζ β) >>= g) :=
  bind (R := fun _ _ => False) (lift .throw) fun _ _ none => none.elim

theorem ite {c d : Prop} [Decidable c] [Decidable d] {x' : Logged ε α} {y' : Logged ζ β}
    (same : c ↔ d) (yes : c → Echoes R E x y) (no : ¬ c → Echoes R E x' y') :
    Echoes R E (if c then x else x') (if d then y else y') :=
  rel_ite (Echoes R E) same yes no

theorem report {e e' : Event} {f : Unit → Logged ε γ} {g : Unit → Logged ζ δ}
    (h : Echoes S E (f ()) (g ())) :
    Echoes S E (Logged.report e >>= f) (Logged.report e' >>= g) :=
  bind (R := fun _ _ => True) (fun _ _ => Tracks.pure trivial) fun _ _ _ => h

theorem ofAttempt {x : Attempt ε α} {y : Attempt ζ β} (h : Shadows R E x y) :
    Echoes R E (Logged.ofAttempt x) (Logged.ofAttempt y) := by
  unfold Logged.ofAttempt
  refine bind (lift h) fun r r' matched => ?_
  match r, r', matched with
  | .ok _, .ok _, related => exact pure related
  | .error _, .error _, related => exact throw related

/-- Outcomes that others look at, which may go on after an error. -/
theorem run {ε' ζ' : Type} {F : ε' → ζ' → Prop} (h : Echoes R E x y) :
    Echoes (Matches R E) F
      (liftM (x.run : StateT (List Event) Checked _) : Logged ε' (Except ε α))
      (liftM (y.run : StateT (List Event) Checked _) : Logged ζ' (Except ζ β)) :=
  fun log log' => Tracks.map (h log log')

/-- What is known of the two results besides. -/
theorem with_concludes {P : α → Prop} {Q : β → Prop} {F : ε → Prop} {G : ζ → Prop}
    (h : Echoes R E x y) (left : Concludes x P F) (right : Concludes y Q G) :
    Echoes (fun a b => R a b ∧ P a ∧ Q b) E x y := by
  intro log log' r run
  obtain ⟨r', run', matched⟩ := h log log' r run
  have known := (left log).of_eq run
  have known' := (right log').of_eq run'
  refine ⟨r', run', ?_⟩
  obtain ⟨r, events⟩ := r
  obtain ⟨r', events'⟩ := r'
  match r, r', matched with
  | .ok _, .ok _, related => exact ⟨related, known, known'⟩
  | .error _, .error _, related => exact related

end Echoes

/-! ### With the same events -/

/-- `Shadows` for computations that fail alike and report the same events. -/
def Retraces (R : α → β → Prop) (x : Logged ε α) (y : Logged ε β) : Prop :=
  ∀ log, Tracks (fun r r' => Matches R Eq r.1 r'.1 ∧ r'.2 = r.2)
    ((x.run : StateT (List Event) Checked _).run log)
    ((y.run : StateT (List Event) Checked _).run log)

namespace Retraces

variable {R : α → β → Prop} {S : γ → δ → Prop} {x : Logged ε α} {y : Logged ε β}

theorem pure {a : α} {b : β} (h : R a b) : Retraces R (pure a : Logged ε α) (pure b) :=
  fun _ => Tracks.pure ⟨h, rfl⟩

theorem throw {e : ε} :
    Retraces R (MonadExcept.throw e : Logged ε α) (MonadExcept.throw e : Logged ε β) :=
  fun _ => Tracks.pure ⟨rfl, rfl⟩

theorem fault {e : Fault} : Retraces R (liftM (MonadExcept.throw e : Checked α)) y := fun _ => nofun

theorem refl (x : Logged ε α) : Retraces Eq x x := by
  intro log r run
  refine ⟨r, run, ?_, rfl⟩
  obtain ⟨_ | _, _⟩ := r <;> exact rfl

theorem bind {f : α → Logged ε γ} {g : β → Logged ε δ} (h : Retraces R x y)
    (onward : ∀ a b, R a b → Retraces S (f a) (g b)) : Retraces S (x >>= f) (y >>= g) := by
  intro log
  rw [ExceptT.run_bind, StateT.run_bind, ExceptT.run_bind, StateT.run_bind]
  refine (h log).bind ?_
  rintro ⟨r, _⟩ ⟨r', events⟩ ⟨matched, rfl⟩
  match r, r', matched with
  | .ok a, .ok b, related => exact onward a b related events
  | .error _, .error _, same => exact Tracks.pure ⟨same, rfl⟩

theorem bind_and_eq {P : α → Prop} {k : α → β} {f : α → Logged ε γ} {g : β → Logged ε δ}
    (h : Retraces (fun a b => P a ∧ b = k a) x y)
    (onward : ∀ a, P a → Retraces S (f a) (g (k a))) : Retraces S (x >>= f) (y >>= g) :=
  h.bind fun a _ ⟨known, same⟩ => same ▸ onward a known

/-- What follows an error does not matter. -/
theorem throw_bind {e : ε} {f : α → Logged ε γ} {g : β → Logged ε δ} :
    Retraces S (MonadExcept.throw e >>= f) (MonadExcept.throw e >>= g) :=
  bind (R := fun _ _ => False) throw fun _ _ none => none.elim

/-- A step that both take. -/
theorem both {x : Logged ε α} {f : α → Logged ε γ} {g : α → Logged ε δ} (h : ∀ a, Retraces S (f a) (g a)) :
    Retraces S (x >>= f) (x >>= g) :=
  (refl x).bind fun a _ same => same ▸ h a

theorem ite {c d : Prop} [Decidable c] [Decidable d] {x' : Logged ε α} {y' : Logged ε β}
    (same : c ↔ d) (yes : c → Retraces R x y) (no : ¬ c → Retraces R x' y') :
    Retraces R (if c then x else x') (if d then y else y') :=
  rel_ite (Retraces R) same yes no

theorem first {x : Checked α} {f : α → Logged ε γ} {y : Logged ε δ}
    (h : ∀ a, x = .ok a → Retraces S (f a) y) : Retraces S ((liftM x : Logged ε α) >>= f) y := by
  cases x with
  | error e => exact fun _ => nofun
  | ok a => exact h a rfl

theorem second {x : Logged ε γ} {y : Checked β} {g : β → Logged ε δ} {b : β} (run : y = .ok b)
    (h : Retraces S x (g b)) : Retraces S x ((liftM y : Logged ε β) >>= g) := by
  rw [run]
  exact h

theorem lift {x : Checked α} {y : Checked β} (h : Tracks R x y) :
    Retraces R (liftM x : Logged ε α) (liftM y) := by
  intro log r run
  cases x with
  | error e => cases run
  | ok a =>
    obtain rfl := Except.ok.inj run
    obtain ⟨b, rfl, related⟩ := h a rfl
    exact ⟨_, rfl, related, rfl⟩

theorem ofAttempt {x : Attempt ε α} {y : Attempt ε β} (h : Shadows R Eq x y) :
    Retraces R (Logged.ofAttempt x) (Logged.ofAttempt y) := by
  unfold Logged.ofAttempt
  refine bind (lift h) fun r r' matched => ?_
  match r, r', matched with
  | .ok _, .ok _, related => exact pure related
  | .error _, .error _, same => exact same ▸ throw

theorem run {δ : Type} (h : Retraces R x y) :
    Retraces (Matches R Eq)
      (liftM (x.run : StateT (List Event) Checked _) : Logged δ (Except ε α))
      (liftM (y.run : StateT (List Event) Checked _)) :=
  fun log => Tracks.map (h log)

/-- What a computation comes to, and what one that does the same makes of it. -/
theorem outcome {P : α → Prop} {k : α → β} (h : Retraces (fun a b => P a ∧ b = k a) x y) {r : Except ε α}
    {events : List Event} (run : x.outcome = .ok (r, events)) :
    y.outcome = .ok (r.map k, events) ∧ ∀ a, r = .ok a → P a := by
  obtain ⟨⟨r', _⟩, run', matched, rfl⟩ := h [] _ run
  match r, r', matched with
  | .ok a, .ok _, ⟨known, rfl⟩ => exact ⟨run', fun b same => Except.ok.inj same ▸ known⟩
  | .error e, .error _, rfl => exact ⟨run', nofun⟩

end Retraces

end TripletSat
