import Mathlib.Data.List.Basic
import TripletSat.Dimacs.Strict
import TripletSat.Proofs.Clauses
import TripletSat.Proofs.Dimacs.Source
import TripletSat.Proofs.Text

/-!
The grammar of strict texts: a header, then rows of three literals over distinct variables, each with
a zero behind it, over lines in any layout. The strict reader accepts exactly these texts and returns
the rows as clauses.
-/

namespace TripletSat

namespace Dimacs

open Text (lead?)

/-! ### The lines that count -/

/-- The lines before the one that ends the text, without blank lines and comments. -/
def contentLines (text : String) : List (List Char) :=
  ((Text.lines text.toList).takeWhile (lead? · ≠ some '%')).filter fun line =>
    lead? line ≠ none ∧ lead? line ≠ some 'c'

/-- The header and the clauses among the lines of a text. -/
def content : List Line → List Line
  | [] | .stop :: _ => []
  | .skipped :: rest => content rest
  | .header words :: rest => .header words :: content rest
  | .literals words :: rest => .literals words :: content rest

theorem Line.ofText_eq (line : List Char) :
    Line.ofText line = match lead? line with
      | none | some 'c' => .skipped
      | some '%' => .stop
      | some 'p' => .header (Text.words line)
      | some _ => .literals (Text.words line) := by
  rw [← Text.head?_words]
  unfold ofText
  cases words : Text.words line with
  | nil => rfl
  | cons first rest =>
    obtain ⟨c, more, rfl⟩ := List.exists_cons_of_ne_nil
      (Text.ne_nil_of_mem_words (words ▸ List.mem_cons_self : first ∈ Text.words line))
    by_cases comment : c = 'c'
    · subst comment
      rfl
    by_cases stop : c = '%'
    · subst stop
      rfl
    by_cases header : c = 'p'
    · subst header
      rfl
    simp [comment, stop, header]

theorem content_map_ofText (lines : List (List Char)) :
    content (lines.map Line.ofText) =
      ((lines.takeWhile (lead? · ≠ some '%')).filter fun line =>
        lead? line ≠ none ∧ lead? line ≠ some 'c').map Line.ofText := by
  induction lines with
  | nil => rfl
  | cons line rest ih =>
    rw [List.map_cons, Line.ofText_eq]
    cases lead : lead? line with
    | none => simp [lead, content, ih]
    | some c =>
      by_cases comment : c = 'c'
      · simp [lead, comment, content, ih]
      by_cases stop : c = '%'
      · simp [lead, stop, content]
      by_cases header : c = 'p'
      · simp [lead, header, content, ih, Line.ofText_eq line]
      simp [lead, comment, stop, content, ih, Line.ofText_eq line]

theorem content_numberedLines (text : String) :
    content ((numberedLines text).map Prod.snd) = (contentLines text).map Line.ofText := by
  have lines : (numberedLines text).map Prod.snd = (Text.lines text.toList).map Line.ofText := by
    unfold numberedLines
    rw [List.map_map, ← List.zipIdx_map_fst 0 (Text.lines text.toList), List.map_map,
      List.zipIdx_map_fst]
    rfl
  rw [lines, content_map_ofText]
  rfl

theorem ofText_of_mem_contentLines {text : String} {line : List Char} (h : line ∈ contentLines text) :
    Line.ofText line =
      if lead? line = some 'p' then .header (Text.words line) else .literals (Text.words line) := by
  obtain ⟨before, counts⟩ := List.mem_filter.mp h
  have stop := List.all_eq_true.mp List.all_takeWhile line before
  simp only [decide_eq_true_eq] at counts stop
  rw [Line.ofText_eq]
  cases lead : lead? line with
  | none => exact absurd lead counts.1
  | some c =>
    rw [lead] at counts stop
    by_cases header : c = 'p'
    · subst header
      rfl
    · simp_all

theorem clauseWords_content (lines : List Line) : clauseWords (content lines) = clauseWords lines := by
  induction lines with
  | nil => rfl
  | cons line rest ih =>
    cases line with
    | stop => rfl
    | skipped => exact ih
    | header words => exact ih
    | literals words => exact congrArg (words ++ ·) ih

/-! ### Texts that say rows of literals -/

/-- Three literals over distinct variables, as numbers. -/
structure Row where
  a : Int
  b : Int
  c : Int
  a_ne_zero : a ≠ 0
  b_ne_zero : b ≠ 0
  c_ne_zero : c ≠ 0
  a_ne_b : a.natAbs ≠ b.natAbs
  a_ne_c : a.natAbs ≠ c.natAbs
  b_ne_c : b.natAbs ≠ c.natAbs

namespace Row

/-- The numbers of a row, with the zero behind it. -/
def ended (r : Row) : List Int := [r.a, r.b, r.c, 0]

def clause (r : Row) : Clause :=
  ⟨⟨r.a.natAbs, r.a < 0, Int.natAbs_pos.mpr r.a_ne_zero⟩,
    ⟨r.b.natAbs, r.b < 0, Int.natAbs_pos.mpr r.b_ne_zero⟩,
    ⟨r.c.natAbs, r.c < 0, Int.natAbs_pos.mpr r.c_ne_zero⟩, r.a_ne_b, r.a_ne_c, r.b_ne_c⟩

theorem ofSigned?_clause (r : Row) : Clause.ofSigned? r.a r.b r.c = some r.clause := by
  simp [Clause.ofSigned?, Lit.ofSigned?, Clause.ofLits?, clause, r.a_ne_zero, r.b_ne_zero, r.c_ne_zero,
    r.a_ne_b, r.a_ne_c, r.b_ne_c]

theorem ofSigned_clause (r : Row) : Clause.ofSigned r.a r.b r.c = .ok r.clause := by
  simp [Clause.ofSigned, Lit.ofSigned?, Clause.ofLits, Clause.ofLits?, clause, r.a_ne_zero, r.b_ne_zero,
    r.c_ne_zero, r.a_ne_b, r.a_ne_c, r.b_ne_c]
  rfl

theorem signed_clause (r : Row) : r.clause.signed = [r.a, r.b, r.c] :=
  Clause.signed_of_ofSigned? r.ofSigned?_clause

/-- The numbers of a clause. -/
def ofClause (c : Clause) : Row where
  a := c.a.signed
  b := c.b.signed
  c := c.c.signed
  a_ne_zero := c.a.signed_ne_zero
  b_ne_zero := c.b.signed_ne_zero
  c_ne_zero := c.c.signed_ne_zero
  a_ne_b := by simpa using c.a_ne_b
  a_ne_c := by simpa using c.a_ne_c
  b_ne_c := by simpa using c.b_ne_c

@[simp] theorem clause_ofClause (c : Clause) : (ofClause c).clause = c :=
  Option.some.inj ((ofClause c).ofSigned?_clause.symm.trans c.ofSigned?_signed)

theorem ended_ofClause {a b c : Int} {found : Clause} (h : Clause.ofSigned? a b c = some found) :
    (ofClause found).ended = [a, b, c, 0] :=
  congrArg (· ++ [0]) (Clause.signed_of_ofSigned? h)

end Row

/-- The words of a header line. -/
def Header.Heads (header : Header) (words : List (List Char)) : Prop :=
  ∃ vars clauses, words = ["p".toList, "cnf".toList, vars, clauses] ∧
    Text.count? vars = some header.vars ∧ Text.count? clauses = some header.clauses

/-- The lines of the text are a header, the only one, and rows of literals in any layout. -/
structure Spells (text : String) (header : Header) (rows : List Row) : Prop where
  first : ∃ line, (contentLines text).head? = some line ∧ header.Heads (Text.words line)
  alone : ∀ line ∈ (contentLines text).tail, lead? line ≠ some 'p'
  numbers : ((contentLines text).tail.flatMap Text.words).mapM number? = some (rows.flatMap Row.ended)

/-! ### Reading numbers -/

theorem count_eq_ok_iff {line : Nat} {word : List Char} {n : Nat} :
    count line word = .ok n ↔ Text.count? word = some n := by
  unfold count
  cases Text.count? word <;> simp

theorem Header.ofWords_eq_ok_iff {line : Nat} {words : List (List Char)} {header : Header} :
    ofWords line words = .ok header ↔ header.Heads words := by
  unfold Heads
  constructor
  · intro h
    unfold ofWords at h
    split at h
    · rename_i vars clauses
      obtain ⟨n, hn, h⟩ := ok_of_bind h
      obtain ⟨m, hm, h⟩ := ok_of_bind h
      cases h
      exact ⟨vars, clauses, rfl, count_eq_ok_iff.mp hn, count_eq_ok_iff.mp hm⟩
    · cases h
  · rintro ⟨vars, clauses, rfl, hv, hc⟩
    show (do return ⟨← count line vars, ← count line clauses⟩ : Except Error Header) = _
    rw [count_eq_ok_iff.mpr hv, count_eq_ok_iff.mpr hc]
    rfl

/-! ### Reading rows -/

namespace Progress

variable {s s' : Progress} {line last : Nat} {header : Header} {word : List Char}
  {words : List (List Char)} {lines : List (Nat × Line)}

/-- What one more number does. -/
def take? (s : Progress) (n : Int) : Option Progress :=
  if n ≠ 0 then some { s with pending := n :: s.pending }
  else match s.pending with
    | [c, b, a] => (Clause.ofSigned? a b c).map fun clause =>
        { s with clauses := clause :: s.clauses, pending := [] }
    | _ => none

/-- The numbers read so far. -/
def numbers (s : Progress) : List Int :=
  (s.clauses.reverse.flatMap fun c => (Row.ofClause c).ended) ++ s.pending.reverse

theorem readWord_of_literal {n : Int} (reads : literal line word = .ok n) :
    s.readWord line word = .ok s' ↔ s.take? n = some s' := by
  obtain ⟨header?, clauses, pending⟩ := s
  unfold readWord take?
  rw [reads]
  by_cases zero : n = 0
  · subst zero
    match pending with
    | [c, b, a] =>
      cases found : Clause.ofSigned? a b c with
      | none => simp [found, bind, Except.bind, throw, throwThe, MonadExceptOf.throw]
      | some clause => simp [found, bind, Except.bind, pure, Except.pure]
    | [] | [_] | [_, _] | _ :: _ :: _ :: _ :: _ =>
      simp [bind, Except.bind, throw, throwThe, MonadExceptOf.throw]
  · simp [zero, bind, Except.bind, pure, Except.pure]

theorem readWord_eq_ok_iff :
    s.readWord line word = .ok s' ↔ ∃ n, number? word = some n ∧ s.take? n = some s' := by
  constructor
  · intro h
    obtain ⟨n, reads, -⟩ := ok_of_bind h
    exact ⟨n, literal_eq_ok_iff.mp reads, (readWord_of_literal reads).mp h⟩
  · rintro ⟨n, spelled, taken⟩
    exact (readWord_of_literal (literal_eq_ok_iff.mpr spelled)).mpr taken

theorem foldlM_readWord_eq_ok_iff :
    words.foldlM (readWord line) s = .ok s' ↔
      ∃ numbers, words.mapM number? = some numbers ∧ numbers.foldlM take? s = some s' := by
  induction words generalizing s with
  | nil => simp [pure, Except.pure]
  | cons word rest ih =>
    rw [List.foldlM_cons, List.mapM_cons]
    constructor
    · intro h
      obtain ⟨next, reads, h⟩ := ok_of_bind h
      obtain ⟨n, spelled, taken⟩ := readWord_eq_ok_iff.mp reads
      obtain ⟨numbers, spelled', taken'⟩ := ih.mp h
      refine ⟨n :: numbers, by simp [spelled, spelled'], ?_⟩
      simp [List.foldlM_cons, taken, taken']
    · rintro ⟨numbers, spelled, taken⟩
      obtain ⟨n, first, spelled⟩ := Option.bind_eq_some_iff.mp spelled
      obtain ⟨others, later, same⟩ := Option.bind_eq_some_iff.mp spelled
      cases same
      obtain ⟨next, taken, taken'⟩ := Option.bind_eq_some_iff.mp taken
      rw [readWord_eq_ok_iff.mpr ⟨n, first, taken⟩]
      exact ih.mpr ⟨others, later, taken'⟩

theorem numbers_of_take? {n : Int} (h : s.take? n = some s') : s'.numbers = s.numbers ++ [n] := by
  unfold take? at h
  split at h
  · cases h
    simp [numbers]
  · rename_i zero
    split at h
    · rename_i c b a pending
      obtain ⟨clause, found, rfl⟩ := Option.map_eq_some_iff.mp h
      obtain rfl := Decidable.not_not.mp zero
      simp [numbers, pending, Row.ended_ofClause found]
    · cases h

theorem header?_of_take? {n : Int} (h : s.take? n = some s') : s'.header? = s.header? := by
  unfold take? at h
  split at h
  · cases h
    rfl
  · split at h
    · obtain ⟨clause, -, rfl⟩ := Option.map_eq_some_iff.mp h
      rfl
    · cases h

theorem numbers_of_foldlM_take? {numbers : List Int} (h : numbers.foldlM take? s = some s') :
    s'.numbers = s.numbers ++ numbers ∧ s'.header? = s.header? := by
  induction numbers generalizing s with
  | nil =>
    cases h
    exact ⟨(List.append_nil _).symm, rfl⟩
  | cons n rest ih =>
    obtain ⟨next, first, later⟩ := Option.bind_eq_some_iff.mp h
    obtain ⟨all, kept⟩ := ih later
    rw [all, kept, numbers_of_take? first, header?_of_take? first, List.append_assoc]
    exact ⟨rfl, rfl⟩

theorem foldlM_take?_ended {header? : Option Header} {clauses : List Clause} (rows : List Row) :
    (rows.flatMap Row.ended).foldlM take? ⟨header?, clauses, []⟩ =
      some ⟨header?, (rows.map Row.clause).reverse ++ clauses, []⟩ := by
  induction rows generalizing clauses with
  | nil => rfl
  | cons r rest ih =>
    have row : r.ended.foldlM take? ⟨header?, clauses, []⟩ =
        some ⟨header?, r.clause :: clauses, []⟩ := by
      simp [Row.ended, take?, r.a_ne_zero, r.b_ne_zero, r.c_ne_zero, r.ofSigned?_clause]
    rw [List.flatMap_cons, List.foldlM_append, row]
    show (rest.flatMap Row.ended).foldlM take? ⟨header?, r.clause :: clauses, []⟩ = _
    rw [ih]
    simp

/-- From one header on, numbers are read up to a row's end exactly if they are rows. -/
theorem foldlM_take?_eq_some_iff {numbers : List Int} (closed : s'.pending = []) :
    numbers.foldlM take? ⟨some header, [], []⟩ = some s' ↔ ∃ rows : List Row,
      numbers = rows.flatMap Row.ended ∧ s' = ⟨some header, (rows.map Row.clause).reverse, []⟩ := by
  constructor
  · intro h
    obtain ⟨all, kept⟩ := numbers_of_foldlM_take? h
    obtain ⟨header?, clauses, pending⟩ := s'
    obtain rfl : pending = [] := closed
    obtain rfl : header? = some header := kept
    refine ⟨clauses.reverse.map Row.ofClause, ?_, ?_⟩
    · rw [List.flatMap_map]
      simpa [Progress.numbers] using all.symm
    · simp [Function.comp_def]
  · rintro ⟨rows, rfl, rfl⟩
    rw [foldlM_take?_ended, List.append_nil]

theorem readLines_eq_ok_iff (known : s.header?.isSome = true) :
    (∃ last', readLines last s lines = .ok (s', last')) ↔
      (∀ words, Line.header words ∉ content (lines.map Prod.snd)) ∧
        ∃ numbers, (clauseWords (lines.map Prod.snd)).mapM number? = some numbers ∧
          numbers.foldlM take? s = some s' := by
  induction lines generalizing last s with
  | nil => simp [readLines, content, clauseWords, pure, Except.pure]
  | cons head rest ih =>
    obtain ⟨line, what⟩ := head
    cases what with
    | skipped => exact ih known
    | stop => simp [readLines, content, clauseWords, pure, Except.pure]
    | header words =>
      constructor
      · rintro ⟨last', h⟩
        obtain ⟨next, reads, -⟩ := ok_of_bind h
        unfold readHeader at reads
        rw [if_pos known] at reads
        cases reads
      · rintro ⟨alone, -⟩
        exact absurd List.mem_cons_self (alone words)
    | literals words =>
      have some : s.header?.isNone = false := by simpa using known
      have reads : s.readWords line words = words.foldlM (readWord line) s := by
        unfold readWords
        rw [some]
        rfl
      have same (words' : List (List Char)) :
          Line.header words' ∈ content (Line.literals words :: rest.map Prod.snd) ↔
            Line.header words' ∈ content (rest.map Prod.snd) := by
        simp [content]
      rw [readLines, List.map_cons, clauseWords, List.mapM_append]
      simp only [same]
      rw [reads]
      constructor
      · rintro ⟨last', h⟩
        obtain ⟨next, first, later⟩ := ok_of_bind h
        obtain ⟨numbers, spelled, taken⟩ := foldlM_readWord_eq_ok_iff.mp first
        have known' : next.header?.isSome = true := (numbers_of_foldlM_take? taken).2 ▸ known
        obtain ⟨alone, others, spelled', taken'⟩ := (ih known').mp ⟨last', later⟩
        refine ⟨alone, numbers ++ others, by simp [spelled, spelled'], ?_⟩
        rw [List.foldlM_append, taken]
        exact taken'
      · rintro ⟨alone, all, spelled, taken⟩
        obtain ⟨numbers, first, spelled⟩ := Option.bind_eq_some_iff.mp spelled
        obtain ⟨others, later, joined⟩ := Option.bind_eq_some_iff.mp spelled
        cases joined
        rw [List.foldlM_append] at taken
        obtain ⟨next, taken, taken'⟩ := Option.bind_eq_some_iff.mp taken
        have known' : next.header?.isSome = true := (numbers_of_foldlM_take? taken).2 ▸ known
        rw [foldlM_readWord_eq_ok_iff.mpr ⟨numbers, first, taken⟩]
        exact (ih known').mpr ⟨alone, others, later, taken'⟩

theorem readHeader_start_eq_ok_iff :
    start.readHeader line words = .ok s' ↔
      ∃ found : Header, found.Heads words ∧ s' = ⟨some found, [], []⟩ := by
  show (do return ⟨some (← Header.ofWords line words), [], []⟩ : Except Error Progress) = _ ↔ _
  constructor
  · intro h
    obtain ⟨found, heads, h⟩ := ok_of_bind h
    cases h
    exact ⟨found, Header.ofWords_eq_ok_iff.mp heads, rfl⟩
  · rintro ⟨found, heads, rfl⟩
    rw [Header.ofWords_eq_ok_iff.mpr heads]
    rfl

/-- Without a header so far, the first line that counts must be one. -/
theorem readLines_start_eq_ok_iff :
    (∃ last', readLines last start lines = .ok (s', last') ∧ s'.header? = some header) ↔
      ∃ words rest, content (lines.map Prod.snd) = .header words :: rest ∧ header.Heads words ∧
        (∀ words, Line.header words ∉ rest) ∧
        ∃ numbers, (clauseWords rest).mapM number? = some numbers ∧
          numbers.foldlM take? ⟨some header, [], []⟩ = some s' := by
  induction lines generalizing last with
  | nil =>
    constructor
    · rintro ⟨last', h, known⟩
      cases h
      cases known
    · rintro ⟨words, rest, empty, -⟩
      cases empty
  | cons head rest ih =>
    obtain ⟨line, what⟩ := head
    cases what with
    | skipped => exact ih
    | stop =>
      constructor
      · rintro ⟨last', h, known⟩
        cases h
        cases known
      · rintro ⟨words, rest, empty, -⟩
        cases empty
    | literals words =>
      constructor
      · rintro ⟨last', h, -⟩
        cases h
      · rintro ⟨words, rest, other, -⟩
        cases other
    | header words =>
      have first : content (((line, Line.header words) :: rest).map Prod.snd) =
        .header words :: content (rest.map Prod.snd) := rfl
      rw [first]
      constructor
      · rintro ⟨last', h, known⟩
        obtain ⟨next, reads, h⟩ := ok_of_bind h
        obtain ⟨found, heads, rfl⟩ := readHeader_start_eq_ok_iff.mp reads
        obtain ⟨alone, numbers, spelled, taken⟩ := (readLines_eq_ok_iff rfl).mp ⟨last', h⟩
        obtain rfl : found = header :=
          Option.some.inj ((numbers_of_foldlM_take? taken).2.symm.trans known)
        rw [← clauseWords_content] at spelled
        exact ⟨words, _, rfl, heads, alone, numbers, spelled, taken⟩
      · rintro ⟨words', rest', same, heads, alone, numbers, spelled, taken⟩
        cases same
        rw [clauseWords_content] at spelled
        have reads : ∃ last', readLines line ⟨some header, [], []⟩ rest = .ok (s', last') :=
          (readLines_eq_ok_iff rfl).mpr ⟨alone, numbers, spelled, taken⟩
        obtain ⟨last', h⟩ := reads
        refine ⟨last', ?_, (numbers_of_foldlM_take? taken).2⟩
        rw [readLines, readHeader_start_eq_ok_iff.mpr ⟨header, heads, rfl⟩]
        exact h

end Progress

/-! ### The grammar -/

variable {text : String} {header : Header} {rows : List Row}

theorem Header.Heads.lead? {line : List Char} (h : header.Heads (Text.words line)) :
    lead? line = some 'p' := by
  obtain ⟨vars, clauses, words, -⟩ := h
  rw [← Text.head?_words, words]
  rfl

theorem clauseWords_map_ofText {lines : List (List Char)}
    (literals : ∀ line ∈ lines, Line.ofText line = .literals (Text.words line)) :
    clauseWords (lines.map Line.ofText) = lines.flatMap Text.words := by
  induction lines with
  | nil => rfl
  | cons line rest ih =>
    obtain ⟨first, later⟩ := List.forall_mem_cons.mp literals
    rw [List.map_cons, first, List.flatMap_cons, ← ih later]
    rfl

theorem spells_iff :
    Spells text header rows ↔ ∃ words rest,
      content ((numberedLines text).map Prod.snd) = .header words :: rest ∧ header.Heads words ∧
        (∀ words, Line.header words ∉ rest) ∧
        (clauseWords rest).mapM number? = some (rows.flatMap Row.ended) := by
  rw [content_numberedLines]
  have kind (line : List Char) (counts : line ∈ contentLines text) := ofText_of_mem_contentLines counts
  constructor
  · rintro ⟨⟨line, first, heads⟩, alone, numbers⟩
    obtain ⟨lines, split⟩ := List.head?_eq_some_iff.mp first
    rw [split] at alone numbers kind ⊢
    obtain ⟨kind, kinds⟩ := List.forall_mem_cons.mp kind
    have literals (line : List Char) (hl : line ∈ lines) :
        Line.ofText line = .literals (Text.words line) := by
      rw [kinds line hl, if_neg (alone line hl)]
    refine ⟨_, _, by rw [List.map_cons, kind, if_pos heads.lead?], heads, fun words hw => ?_, ?_⟩
    · obtain ⟨line, hl, same⟩ := List.mem_map.mp hw
      cases (literals line hl).symm.trans same
    · rw [clauseWords_map_ofText literals]
      exact numbers
  · rintro ⟨words, rest, split, heads, alone, numbers⟩
    obtain ⟨line, lines, split', same, rfl⟩ := List.map_eq_cons_iff.mp split
    rw [split'] at kind
    obtain ⟨kind, kinds⟩ := List.forall_mem_cons.mp kind
    have alone (line : List Char) (hl : line ∈ lines) : lead? line ≠ some 'p' := by
      intro p
      refine alone (Text.words line) (List.mem_map.mpr ⟨line, hl, ?_⟩)
      rw [kinds line hl, if_pos p]
    have literals (line : List Char) (hl : line ∈ lines) :
        Line.ofText line = .literals (Text.words line) := by
      rw [kinds line hl, if_neg (alone line hl)]
    rw [clauseWords_map_ofText literals] at numbers
    rw [kind] at same
    split at same
    · cases same
      exact ⟨⟨line, by rw [split']; rfl, heads⟩, by rwa [split'], by rwa [split']⟩
    · cases same

/-- The strict reader reads what the text spells. -/
theorem Document.read_eq_ok_iff {d : Document} :
    read text = .ok d ↔ ∃ rows, Spells text d.header rows ∧ d.clauses = rows.map Row.clause := by
  simp only [spells_iff]
  constructor
  · intro h
    unfold read at h
    obtain ⟨⟨s, last⟩, reads, h⟩ := ok_of_bind h
    dsimp only at h
    split at h
    · cases h
    · rename_i header known
      split at h
      · rename_i closed
        have closed : s.pending = [] := List.isEmpty_iff.mp closed
        obtain ⟨words, rest, split, heads, alone, numbers, spelled, taken⟩ :=
          Progress.readLines_start_eq_ok_iff.mp ⟨last, reads, known⟩
        obtain ⟨rows, rfl, rfl⟩ := (Progress.foldlM_take?_eq_some_iff closed).mp taken
        cases h
        exact ⟨rows, ⟨words, rest, split, heads, alone, spelled⟩, List.reverse_reverse _⟩
      · cases h
  · rintro ⟨rows, ⟨words, rest, split, heads, alone, spelled⟩, clauses⟩
    obtain ⟨last, reads, known⟩ := Progress.readLines_start_eq_ok_iff.mpr
      ⟨words, rest, split, heads, alone, _, spelled,
        (Progress.foldlM_take?_eq_some_iff rfl).mpr ⟨rows, rfl, rfl⟩⟩
    unfold read
    rw [reads]
    show Except.ok (Document.mk d.header (rows.map Row.clause).reverse.reverse) = _
    rw [List.reverse_reverse, ← clauses]

/-! ### The clauses of the text -/

theorem clausesOf_rows (rows : List Row) :
    clausesOf (rows.flatMap Row.ended) = rows.map fun r => [r.a, r.b, r.c] := by
  induction rows with
  | nil => rfl
  | cons r rest ih =>
    have nonzero : 0 ∉ [r.a, r.b, r.c] := by
      simp [r.a_ne_zero.symm, r.b_ne_zero.symm, r.c_ne_zero.symm]
    rw [List.flatMap_cons, List.map_cons, ← ih]
    exact clausesOf_zero nonzero _

theorem Spells.clauses?_eq (h : Spells text header rows) :
    clauses? text = some (rows.map fun r => r.clause.signed) := by
  obtain ⟨words, rest, split, -, -, numbers⟩ := spells_iff.mp h
  have spelled : (clauseWords ((numberedLines text).map Prod.snd)).mapM number? =
      some (rows.flatMap Row.ended) := by
    rw [← clauseWords_content, split]
    exact numbers
  simp only [clauses?, spelled, Option.map_some, clausesOf_rows, Row.signed_clause]

theorem Document.clauses?_of_read {d : Document} (h : read text = .ok d) :
    clauses? text = some (d.clauses.map Clause.signed) := by
  obtain ⟨rows, spells, clauses⟩ := read_eq_ok_iff.mp h
  rw [spells.clauses?_eq, clauses, List.map_map]
  rfl

end Dimacs

end TripletSat
