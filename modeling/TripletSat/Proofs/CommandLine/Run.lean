import Mathlib
import TripletSat.CommandLine.Surroundings
import TripletSat.Proofs.CommandLine.Certificates
import TripletSat.Proofs.Dimacs.Grammar

/-!
What a run prints. Its lines are remarks, which start with a `c`, and at their end the verdict with the
certificate. Whatever the surroundings are, the verdict is right for the text that was read.
-/

namespace TripletSat.CommandLine

open Dimacs

variable {S : Type} {console : Console (StateM S)} {printed : S → List String} {α β : Type}

/-- The surroundings show the lines that are printed, the latest first, and nothing else changes
them. -/
structure Records (console : Console (StateM S)) (printed : S → List String) : Prop where
  print : ∀ line s, printed ((console.print line).run s).2 = line :: printed s
  complain : ∀ line s, printed ((console.complain line).run s).2 = printed s
  read : ∀ name s, printed ((console.read name).run s).2 = printed s
  write : ∀ name bytes s, printed ((console.write name bytes).run s).2 = printed s
  clock : ∀ s, printed (console.clock.run s).2 = printed s

theorem Surroundings.records : Records Surroundings.console Surroundings.printed where
  print _ _ := rfl
  complain _ _ := rfl
  read _ _ := rfl
  write name bytes s := by
    cases written : s.tree.write name bytes <;>
      simp only [Surroundings.console, StateT.run_bind, StateT.run_get, pure_bind, written] <;> rfl
  clock _ := rfl

/-- From a state on, the run prints lines, the latest first, and ends in a result. -/
def Emits (printed : S → List String) (x : Run (StateM S) α) (s : S)
    (Q : List String → Except Nat α → Prop) : Prop :=
  ∃ lines, printed (x.run.run s).2 = lines ++ printed s ∧ Q lines (x.run.run s).1

namespace Emits

variable {s : S} {P : List String → Except Nat α → Prop} {Q : List String → Except Nat β → Prop}

theorem pure {a : α} (h : P [] (.ok a)) : Emits printed (pure a) s P := ⟨[], rfl, h⟩

theorem throw {code : Nat} (h : P [] (.error code)) : Emits printed (throw code) s P := ⟨[], rfl, h⟩

theorem mono {x : Run (StateM S) α} {P' : List String → Except Nat α → Prop}
    (hx : Emits printed x s P) (h : ∀ lines r, P lines r → P' lines r) : Emits printed x s P' := by
  obtain ⟨lines, same, hp⟩ := hx
  exact ⟨lines, same, h _ _ hp⟩

theorem quiet {op : StateM S α} (same : printed (op.run s).2 = printed s)
    (h : P [] (.ok (op.run s).1)) : Emits printed (liftM op : Run (StateM S) α) s P :=
  ⟨[], same, h⟩

theorem bind {x : Run (StateM S) α} {f : α → Run (StateM S) β} (hx : Emits printed x s P)
    (error : ∀ lines code, P lines (.error code) → Q lines (.error code))
    (ok : ∀ lines a s', P lines (.ok a) →
      Emits printed (f a) s' fun more r => Q (more ++ lines) r) :
    Emits printed (x >>= f) s Q := by
  obtain ⟨lines, same, hp⟩ := hx
  have step : (x >>= f).run.run s = match (x.run.run s).1 with
      | .ok a => (f a).run.run (x.run.run s).2
      | .error code => (.error code, (x.run.run s).2) := by
    rw [ExceptT.run_bind, StateT.run_bind]
    rcases x.run.run s with ⟨_ | _, _⟩ <;> rfl
  unfold Emits
  rw [step]
  -- The state that an error leaves behind is the one where it was raised.
  cases result : (x.run.run s).1 with
  | error code =>
    rw [result] at hp
    exact ⟨lines, same, error lines code hp⟩
  | ok a =>
    rw [result] at hp
    obtain ⟨more, same', hq⟩ := ok lines a (x.run.run s).2 hp
    refine ⟨more ++ lines, ?_, hq⟩
    show printed ((f a).run.run (x.run.run s).2).2 = _
    rw [same', same, List.append_assoc]

theorem bind_quiet {op : StateM S α} {f : α → Run (StateM S) β}
    (same : printed (op.run s).2 = printed s)
    (h : ∀ s', Emits printed (f (op.run s).1) s' Q) : Emits printed (liftM op >>= f) s Q := by
  refine bind (P := fun lines r => lines = [] ∧ r = .ok (op.run s).1) (.quiet same ⟨rfl, rfl⟩)
    (fun _ _ => nofun) ?_
  rintro _ a s' ⟨rfl, same⟩
  obtain rfl := Except.ok.inj same
  exact (h s').mono fun more _ hq => by rwa [List.append_nil]

variable (records : Records console printed) {line : String}

include records

theorem print {P : List String → Except Nat Unit → Prop} (h : P [line] (.ok ())) :
    Emits printed (liftM (console.print line) : Run (StateM S) Unit) s P :=
  ⟨[line], records.print line s, h⟩

theorem bind_print {f : Unit → Run (StateM S) β}
    (h : ∀ s', Emits printed (f ()) s' fun more r => Q (more ++ [line]) r) :
    Emits printed (liftM (console.print line) >>= f) s Q := by
  refine bind (P := fun lines r => lines = [line] ∧ r = .ok ()) (print records ⟨rfl, rfl⟩)
    (fun _ _ => nofun) ?_
  rintro _ a s' ⟨rfl, -⟩
  exact h s'

end Emits

/-! ### Remarks -/

def Starts (c : Char) (line : String) : Prop := line.toList.head? = some c

theorem starts_of_head {c : Char} {line : String} (h : line.toList.head? = some c) : Starts c line :=
  h

theorem Starts.append {c : Char} {line : String} (h : Starts c line) (more : String) :
    Starts c (line ++ more) := by
  unfold Starts at h ⊢
  rw [String.toList_append, List.head?_append, h, Option.some_or]

theorem not_starts_of_ne {c d : Char} {line : String} (h : Starts c line) (other : c ≠ d) :
    ¬ Starts d line :=
  fun h' => other (Option.some.inj (h.symm.trans h'))

/-- Whatever the state is, only remarks are printed. -/
def Remarks (printed : S → List String) (x : Run (StateM S) α) : Prop :=
  ∀ s, Emits printed x s fun lines _ => ∀ line ∈ lines, Starts 'c' line

namespace Remarks

theorem pure {a : α} : Remarks printed (pure a) := fun _ => .pure (by simp)

theorem throw {code : Nat} : Remarks printed (throw code : Run (StateM S) α) :=
  fun _ => .throw (by simp)

theorem bind {x : Run (StateM S) α} {f : α → Run (StateM S) β} (hx : Remarks printed x)
    (hf : ∀ a, Remarks printed (f a)) : Remarks printed (x >>= f) := by
  intro s
  refine (hx s).bind (fun _ _ remarks => remarks) fun lines a s' remarks => (hf a s').mono ?_
  intro more _ remarks'
  exact List.forall_mem_append.mpr ⟨remarks', remarks⟩

theorem forM {f : α → Run (StateM S) PUnit} {xs : List α} (hf : ∀ a ∈ xs, Remarks printed (f a)) :
    Remarks printed (xs.forM f) := by
  induction xs with
  | nil => exact pure
  | cons x rest ih =>
    obtain ⟨head, tail⟩ := List.forall_mem_cons.mp hf
    exact head.bind fun _ => ih tail

theorem optionForM {f : α → Run (StateM S) PUnit} {x : Option α} (hf : ∀ a, Remarks printed (f a)) :
    Remarks printed (x.forM f) := by
  cases x with
  | none => exact pure
  | some a => exact hf a

variable (records : Records console printed)

include records

theorem print {line : String} (h : Starts 'c' line) :
    Remarks printed (liftM (console.print line) : Run (StateM S) Unit) :=
  fun _ => .print records (List.forall_mem_singleton.mpr h)

theorem complain (line : String) :
    Remarks printed (liftM (console.complain line) : Run (StateM S) Unit) :=
  fun s => .quiet (records.complain line s) (by simp)

theorem write (name : String) (bytes : List UInt8) :
    Remarks printed (liftM (console.write name bytes) : Run (StateM S) _) :=
  fun s => .quiet (records.write name bytes s) (by simp)

theorem abort (code : Nat) (message : String) :
    Remarks printed (console.abort code message : Run (StateM S) α) :=
  (complain records message).bind fun _ => throw

theorem checked (x : Checked α) : Remarks printed (console.checked x) := by
  unfold Console.checked
  split
  · exact pure
  · exact abort records 101 _

theorem refuse (program : String) (problem : UsageProblem) :
    Remarks printed (console.refuse program problem : Run (StateM S) α) := by
  have rest : Remarks printed (do
      (usage program).forM fun line => (liftM (console.complain line) : Run (StateM S) Unit)
      MonadExcept.throw 1 : Run (StateM S) α) :=
    (forM fun line _ => complain records line).bind fun _ => throw
  unfold Console.refuse
  cases problem with
  | incomplete => exact rest
  | unknown option => exact (complain records _).bind fun _ => rest

theorem exportTo (structures : List Formula) (path : String) :
    Remarks printed (console.exportTo structures path) := by
  have remark : Starts 'c' s!"c wrote {structures.length} structures to '{path}'" :=
    ((((starts_of_head rfl).append _).append _).append _).append _
  unfold Console.exportTo
  refine (checked records _).bind fun written => ?_
  refine (write records path _).bind fun outcome => ?_
  have failed (message : String) : Remarks printed (do
      console.abort 1 message
      liftM (console.print s!"c wrote {structures.length} structures to '{path}'")) :=
    (abort records 1 message).bind fun _ => print records remark
  cases outcome with
  | error problem => exact failed _
  | ok =>
    dsimp only
    cases written.problem? with
    | none => exact print records remark
    | some e => exact failed _

theorem saveTo (structures : List Formula) (start : String) :
    Remarks printed (console.saveTo structures start) := by
  have remark : Starts 'c' s!"c saved {structures.length} structures as '{start}-cts-*.cnf'" :=
    ((((starts_of_head rfl).append _).append _).append _).append _
  unfold Console.saveTo
  refine Remarks.bind (forM fun (f, index) _ => ?_) fun _ => print records remark
  unfold Console.saveOne
  refine (checked records _).bind fun text => (write records _ _).bind fun outcome => ?_
  split
  · exact pure
  · exact abort records _ _

theorem exportStructures (options : Options) (f : Formula) :
    Remarks printed (console.exportStructures options f) := by
  unfold Console.exportStructures
  split
  · refine (checked records _).bind fun answer => ?_
    cases answer with
    | error e => exact print records ((starts_of_head rfl).append _)
    | ok structures =>
      exact (optionForM fun path => exportTo records structures path).bind fun _ =>
        optionForM fun start => saveTo records structures start
  · exact pure

end Remarks

/-! ### Loading and reporting -/

theorem checked_eq_pure {x : Checked α} {a : α} (h : x = .ok a) :
    (console.checked x : Run (StateM S) α) = Pure.pure a := by
  rw [h]
  rfl

/-- Loading prints nothing, and a formula that it returns speaks of the clauses of the file. -/
theorem load_emits (records : Records console printed) (options : Options) (s : S) :
    Emits printed (console.load options) s fun lines r => lines = [] ∧ ∀ f names,
      r = .ok (.ok (f, names)) → ∃ text clauses,
        ((console.read options.file).run s).1 = .ok text ∧ clauses? text = some clauses ∧
          Speaks f names clauses := by
  unfold Console.load
  refine .bind_quiet (records.read options.file s) fun s' => ?_
  cases read : ((console.read options.file).run s).1 with
  | error problem => exact .pure ⟨rfl, nofun⟩
  | ok text =>
    dsimp only
    split
    · obtain ⟨answer, run, sound⟩ := Instance.read_attempts text
      rw [checked_eq_pure run, pure_bind]
      cases answer with
      | error e => exact .pure ⟨rfl, nofun⟩
      | ok found =>
        obtain ⟨clauses, said, restates⟩ := sound
        refine .pure ⟨rfl, fun f names same => ?_⟩
        cases same
        exact ⟨text, clauses, rfl, said, speaks_of_restates restates⟩
    · cases document : Document.read text with
      | error e => exact .pure ⟨rfl, nofun⟩
      | ok d =>
        refine .pure ⟨rfl, fun f names same => ?_⟩
        cases same
        exact ⟨text, _, rfl, Document.clauses?_of_read document, speaks_of_document d⟩

/-- The literals behind a `v`, then a zero. -/
def certificateLine (lits : List Int) : String :=
  "v" ++ String.join (lits.map fun l => " " ++ toString l) ++ " 0"

/-- The lines of a verdict that is right for the clauses, the latest first. -/
inductive Verdict (clauses : List (List Int)) : List String → Prop
  | unknown : Verdict clauses ["s UNKNOWN"]
  | unsatisfiable (none : ¬ ∃ σ, Solves σ clauses) : Verdict clauses ["s UNSATISFIABLE"]
  | satisfiable {lits : List Int} (certificate : Certificate clauses lits) :
    Verdict clauses [certificateLine lits, "s SATISFIABLE"]

theorem starts_certificateLine (lits : List Int) : Starts 'v' (certificateLine lits) :=
  ((starts_of_head rfl).append _).append _

section Verdict

variable {clauses : List (List Int)} {lines : List String}

theorem Verdict.certificate (h : Verdict clauses lines) (said : "s SATISFIABLE" ∈ lines) :
    ∃ lits, Certificate clauses lits ∧ lines = [certificateLine lits, "s SATISFIABLE"] := by
  cases h with
  | unknown => simp at said
  | unsatisfiable none => simp at said
  | satisfiable certificate => exact ⟨_, certificate, rfl⟩

theorem Verdict.none (h : Verdict clauses lines) (said : "s UNSATISFIABLE" ∈ lines) :
    ¬ ∃ σ, Solves σ clauses := by
  cases h with
  | unknown => simp at said
  | unsatisfiable none => exact none
  | @satisfiable lits certificate =>
    have verdict : Starts 's' "s UNSATISFIABLE" := starts_of_head rfl
    rcases List.mem_pair.mp said with same | same
    · exact absurd (same ▸ starts_certificateLine lits) (not_starts_of_ne verdict (by decide))
    · simp at same

end Verdict

theorem report_emits (records : Records console printed) (options : Options)
    {names : Option Permutation} {f : Formula} {clauses : List (List Int)}
    (speaks : Speaks f names clauses) (s : S) :
    Emits printed (report console options names f) s fun lines _ => ∃ verdict remarks,
      lines = verdict ++ remarks ∧ (∀ line ∈ remarks, Starts 'c' line) ∧ Verdict clauses verdict := by
  obtain ⟨given, rfl⟩ := speaks.built
  obtain ⟨⟨answer, events⟩, run, judges⟩ := Formula.solve_judges given options.check
  have remark (time : String) : Starts 'c' ("c solved in " ++ time ++ "s") :=
    ((starts_of_head rfl).append _).append _
  unfold report
  refine .bind_quiet (records.clock s) fun s' => ?_
  rw [checked_eq_pure run, pure_bind]
  refine .bind_quiet (records.clock s') fun s'' => ?_
  dsimp only
  match answer, judges with
  | .ok (.satisfiable α), ⟨true', domain⟩ =>
    refine .bind_print records fun _ => .bind_print records fun _ => .print records ?_
    exact ⟨_, [_], rfl, List.forall_mem_singleton.mpr (remark _),
      .satisfiable (speaks.certifies α true' domain)⟩
  | .ok .unsatisfiable, false' =>
    refine .bind_print records fun _ => .print records ?_
    refine ⟨_, [_], rfl, List.forall_mem_singleton.mpr (remark _), .unsatisfiable ?_⟩
    rintro ⟨σ, solves⟩
    obtain ⟨α, true'⟩ := speaks.complete σ solves
    exact false' α true'
  | .error e, _ =>
    refine .bind_print records fun _ => ?_
    refine .bind_quiet (records.complain _ _) fun _ => .throw ?_
    exact ⟨_, [], rfl, List.forall_mem_nil _, .unknown⟩

/-- The clauses that the file of a run says. -/
def Reads (console : Console (StateM S)) (arguments : List String) (s : S)
    (clauses : List (List Int)) : Prop :=
  ∃ options text, Options.ofArguments arguments = .ok options ∧
    ((console.read options.file).run s).1 = .ok text ∧ clauses? text = some clauses

/-- Remarks, and at their end a verdict on the clauses of the file, if there is one. -/
def Reports (console : Console (StateM S)) (arguments : List String) (s : S)
    (lines : List String) : Prop :=
  ∃ verdict remarks, lines = verdict ++ remarks ∧ (∀ line ∈ remarks, Starts 'c' line) ∧
    (verdict = [] ∨ ∃ clauses, Reads console arguments s clauses ∧ Verdict clauses verdict)

section Reports

variable {arguments : List String} {s s' : S} {lines more : List String}

theorem Reports.of_remarks (h : ∀ line ∈ lines, Starts 'c' line) :
    Reports console arguments s lines :=
  ⟨[], lines, rfl, h, .inl rfl⟩

theorem Reports.append (h : Reports console arguments s more)
    (remarks : ∀ line ∈ lines, Starts 'c' line) : Reports console arguments s (more ++ lines) := by
  obtain ⟨verdict, remarks', rfl, starts, sound⟩ := h
  exact ⟨verdict, remarks' ++ lines, List.append_assoc .., List.forall_mem_append.mpr
    ⟨starts, remarks⟩, sound⟩

theorem Remarks.emits {x : Run (StateM S) α} (h : Remarks printed x) :
    Emits printed x s' fun lines _ => Reports console arguments s lines :=
  (h s').mono fun _ _ => .of_remarks

/-- Remarks may come before. -/
theorem Remarks.bind_emits {x : Run (StateM S) α} {f : α → Run (StateM S) β}
    (hx : Remarks printed x)
    (hf : ∀ a s', Emits printed (f a) s' fun lines _ => Reports console arguments s lines) :
    Emits printed (x >>= f) s' fun lines _ => Reports console arguments s lines := by
  refine (hx s').bind (fun _ _ => .of_remarks) fun lines a s'' remarks => (hf a s'').mono ?_
  exact fun more _ reports => reports.append remarks

theorem runArguments_emits (records : Records console printed) (program : String)
    (arguments : List String) (s : S) :
    Emits printed (runArguments console program arguments) s fun lines _ =>
      Reports console arguments s lines := by
  unfold runArguments
  cases parsed : Options.ofArguments arguments with
  | error problem => exact (Remarks.refuse records program problem).emits
  | ok options =>
    refine (load_emits records options s).bind ?_ ?_
    · rintro _ _ ⟨rfl, -⟩
      exact .of_remarks (List.forall_mem_nil _)
    · rintro _ answer s' ⟨rfl, sound⟩
      simp only [List.append_nil]
      cases answer with
      | error e => exact (Remarks.abort records _ _).emits
      | ok found =>
        obtain ⟨f, names⟩ := found
        obtain ⟨text, clauses, read, said, speaks⟩ := sound f names rfl
        have heading : Starts 'c' s!"c {f.summary} from '{options.file}'" :=
          ((((starts_of_head rfl).append _).append _).append _).append _
        have finish (s' : S) : Emits printed (do
            console.exportStructures options f
            report console options names f) s' fun lines _ => Reports console arguments s lines := by
          refine (Remarks.exportStructures records options f).bind_emits fun _ s' => ?_
          refine (report_emits records options speaks s').mono fun _ _ reports => ?_
          obtain ⟨verdict, remarks, same, starts, right⟩ := reports
          have reads : Reads console arguments s clauses := ⟨options, text, parsed, read, said⟩
          exact ⟨verdict, remarks, same, starts, .inr ⟨clauses, reads, right⟩⟩
        refine (Remarks.print records heading).bind_emits fun _ s' => ?_
        split
        · refine Remarks.bind_emits (.forM fun line _ => ?_) fun _ => finish
          exact Remarks.print records ((starts_of_head rfl).append _)
        · exact finish s'

end Reports

/-! ### The whole run -/

/-- A line that is no remark stands in the verdict. -/
theorem Reports.verdict {arguments : List String} {s : S} {lines : List String} {line : String}
    {c : Char} (h : Reports console arguments s lines) (mem : line ∈ lines) (starts : Starts c line)
    (other : c ≠ 'c') : ∃ clauses verdict remarks, Reads console arguments s clauses ∧
      Verdict clauses verdict ∧ lines = verdict ++ remarks ∧ line ∈ verdict ∧
        ∀ line ∈ remarks, Starts 'c' line := by
  obtain ⟨verdict, remarks, rfl, remark, sound⟩ := h
  have said : line ∈ verdict :=
    (List.mem_append.mp mem).resolve_right fun late => not_starts_of_ne starts other (remark _ late)
  rcases sound with rfl | ⟨clauses, reads, right⟩
  · cases said
  · exact ⟨clauses, verdict, remarks, reads, right, rfl, said, remark⟩

/-- The verdict that a run prints is right for the clauses of its file, under every option: what the
line of a certificate names makes them true, and where they are called unsatisfiable, nothing does. -/
theorem run_reports_right (records : Records console printed) (program : String)
    (arguments : List String) (s : S) :
    ∃ lines, printed ((run console program arguments).run s).2 = lines ++ printed s ∧
      ("s SATISFIABLE" ∈ lines → ∃ clauses lits, Reads console arguments s clauses ∧
        Certificate clauses lits ∧ certificateLine lits ∈ lines ∧
          ∀ line ∈ lines, Starts 'v' line → line = certificateLine lits) ∧
      ("s UNSATISFIABLE" ∈ lines → ∃ clauses, Reads console arguments s clauses ∧
        ¬ ∃ σ, Solves σ clauses) := by
  obtain ⟨lines, same, reports⟩ := runArguments_emits records program arguments s
  have after : ((run console program arguments).run s).2 =
      ((runArguments console program arguments).run.run s).2 := by
    unfold run
    rw [StateT.run_bind]
    rcases (runArguments console program arguments).run.run s with ⟨_ | _, _⟩ <;> rfl
  refine ⟨lines, after ▸ same, fun said => ?_, fun said => ?_⟩
  · obtain ⟨clauses, verdict, remarks, reads, right, rfl, mem, remark⟩ :=
      reports.verdict said (starts_of_head (c := 's') rfl) (by decide)
    obtain ⟨lits, certificate, rfl⟩ := right.certificate mem
    refine ⟨clauses, lits, reads, certificate, by simp, fun line hl starts => ?_⟩
    rcases List.mem_append.mp hl with verdict | late
    · rcases List.mem_pair.mp verdict with rfl | rfl
      · rfl
      · exact absurd starts (not_starts_of_ne (starts_of_head (c := 's') rfl) (by decide))
    · exact absurd starts (not_starts_of_ne (remark line late) (by decide))
  · obtain ⟨clauses, verdict, remarks, reads, right, -, mem, -⟩ :=
      reports.verdict said (starts_of_head (c := 's') rfl) (by decide)
    exact ⟨clauses, reads, right.none mem⟩

/-- A directory with the text in its file `f`. -/
def Surroundings.holding (text : String) : Surroundings := .ofTree ⟨[(["f"], text.toUTF8)], []⟩

theorem Surroundings.printed_holding (text : String) : (holding text).printed = [] := rfl

theorem run_reports_right_holding :
    Records Surroundings.console Surroundings.printed ∧
      (∃ clauses lits,
        Reads Surroundings.console ["f", "--generic"] (.holding "7 -7 0 40 0") clauses ∧
          Certificate clauses lits) ∧
      ∃ clauses, Reads Surroundings.console ["f", "--generic"] (.holding "40 0 -40 0") clauses ∧
        ¬ ∃ σ, Solves σ clauses := by
  have reports := run_reports_right Surroundings.records "sat" ["f", "--generic"]
  refine ⟨Surroundings.records, ?_, ?_⟩
  · obtain ⟨lines, same, certified, -⟩ := reports (.holding "7 -7 0 40 0")
    have said : (Surroundings.printed ((run Surroundings.console "sat" ["f", "--generic"]).run
        (.holding "7 -7 0 40 0")).2)[1]? = some "s SATISFIABLE" := by cbv
    rw [same, Surroundings.printed_holding, List.append_nil] at said
    obtain ⟨clauses, lits, reads, certificate, -⟩ := certified (List.mem_of_getElem? said)
    exact ⟨clauses, lits, reads, certificate⟩
  · obtain ⟨lines, same, -, refuted⟩ := reports (.holding "40 0 -40 0")
    have said : (Surroundings.printed ((run Surroundings.console "sat" ["f", "--generic"]).run
        (.holding "40 0 -40 0")).2)[0]? = some "s UNSATISFIABLE" := by cbv
    rw [same, Surroundings.printed_holding, List.append_nil] at said
    exact refuted (List.mem_of_getElem? said)

end TripletSat.CommandLine
