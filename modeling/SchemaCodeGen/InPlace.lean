import SchemaCodeGen.CBuffer
import SchemaCodeGen.CellGrammar
import SchemaCodeGen.Walks

/-! The reader of rows as it works on the bytes of its file: one scan pointer, terminators that
are written behind it, and an array of pointers to the cells of the row. -/

namespace SchemaCodeGen.InPlace

open CString CsvReader CellGrammar CBuffer Relation

variable {σ : Type}

/-- A client that may write a terminator into a cell of the row it is handed, given by the cell
and the place in it. -/
structure Editor (σ : Type) extends Client σ where
  edit : σ → Row → Option (Nat × Nat)
  inside : ∀ {st row i o}, edit st row = some (i, o) → ∃ cell, row[i]? = some cell ∧ o < cell.length

/-- The tests and the call that the scan goes through. `cell` is where a pointer is stored. -/
inductive Place
  | head
  | lines
  | cell
  | quoted
  | rest
  | call
  | done
  deriving DecidableEq, Repr

structure State (σ : Type) where
  data : Text
  scan : Nat
  argc : Nat
  argv : Nat → Nat
  client : σ
  place : Place

def start (content : Text) (argv : Nat → Nat) (st : σ) : State σ :=
  ⟨content ++ [nul], 0, 0, argv, st, .head⟩

def args (s : State σ) : Row := (List.range s.argc).map fun k => stringAt s.data (s.argv k)

variable (k : Editor σ)

/-- One test, with what is done up to the next one. A store behind the array and a call that
does not return leave no state. -/
def step (s : State σ) : Option (State σ) :=
  let c := byte s.data s.scan
  match s.place with
  | .head =>
      if c = nul ∨ k.stopped s.client then some { s with place := .done }
      else some { s with argc := 0, place := .lines }
  | .lines =>
      if isLineEnd c then some { s with scan := s.scan + 1 }
      else if c = nul then some { s with place := .done }
      else some { s with place := .cell }
  | .cell =>
      if s.argc < k.capacity then
        if c = quote then
          some { s with scan := s.scan + 1, argv := Function.update s.argv s.argc (s.scan + 1), place := .quoted }
        else some { s with argv := Function.update s.argv s.argc s.scan, place := .rest }
      else none
  | .quoted =>
      if c = nul then some { s with place := .rest }
      else if c = quote then
        some { s with data := s.data.set s.scan nul, scan := s.scan + 1, place := .rest }
      else some { s with scan := s.scan + 1 }
  | .rest =>
      if c ≠ nul ∧ ¬ isDelimiter c then some { s with scan := s.scan + 1 }
      else
        let argc := if s.argc < k.capacity then s.argc + 1 else s.argc
        if c = nul then some { s with argc := argc, place := .head }
        else
          some { s with
            data := s.data.set s.scan nul
            scan := s.scan + 1
            argc := argc
            place := if isLineEnd c then .call else .cell }
  | .call =>
      let data :=
        match k.edit s.client (args s) with
        | none => s.data
        | some (i, o) => s.data.set (s.argv i + o) nul
      (k.handle s.client (args s)).map fun st => { s with data := data, client := st, place := .head }
  | .done => none

def Reaches (s s' : State σ) : Prop := ReflTransGen (Walks.Step (step k)) s s'

def left (s : State σ) : Text := stringAt s.data s.scan

/-- Where the reader of plain texts is meanwhile. -/
inductive Situation (σ : Type)
  | reading (r : Reader σ)
  | calling (row : Row) (st : σ)
  | done (st : σ)

def Situation.client : Situation σ → σ
  | .reading r => r.client
  | .calling _ st | .done st => st

def finished (r : Reader σ) (t : Text) : Option σ :=
  ((scan k.toClient r t).bind (finish k.toClient)).map Reader.client

def outcome : Situation σ → Text → Option σ
  | .reading r, t => finished k r t
  | .calling row st, t => (k.handle st row).bind fun st => finished k (CsvReader.start st) t
  | .done st, _ => some st

/-- The rows that begin in the text that is left, with the one that has begun. -/
def expected : Situation σ → Text → List Row
  | .reading ⟨.rowStart, _, _⟩, t => rows t
  | .reading ⟨.cellStart, argv, _⟩, t => rowFrom argv t
  | .reading ⟨.quoted cell, argv, _⟩, t =>
      closeCell argv (cell ++ t.takeWhile notQuote) (((t.dropWhile notQuote).drop 1).dropWhile notDelimiter)
  | .reading ⟨.afterQuote cell, argv, _⟩, t => closeCell argv cell (t.dropWhile notDelimiter)
  | .reading ⟨.unquoted cell, argv, _⟩, t =>
      closeCell argv (cell ++ t.takeWhile notDelimiter) (t.dropWhile notDelimiter)
  | .calling row _, t => row :: rows t
  | .done _, _ => []

/-- The rows that a client lets begin: all up to one after which it stops or does not return. -/
def begun : σ → List Row → List Row
  | _, [] => []
  | st, row :: rest =>
      if k.stopped st then []
      else row :: match k.handle st row with
        | none => []
        | some st' => begun st' rest

def Fits (x : Situation σ) (t : Text) : Prop :=
  ∀ row ∈ begun k x.client (expected x t), row.length ≤ k.capacity

/-- The state on the bytes holds what the reader of plain texts has in hand. -/
inductive Sim : State σ → Situation σ → Prop
  | head {data scan argc argv st} :
      Sim ⟨data, scan, argc, argv, st, .head⟩ (.reading (CsvReader.start st))
  | lines {data scan argv st} (hrun : k.stopped st = false) :
      Sim ⟨data, scan, 0, argv, st, .lines⟩ (.reading (CsvReader.start st))
  | cell {data scan argv st row} (hrun : k.stopped st = false) (hcells : Cells data argv row scan) :
      Sim ⟨data, scan, row.length, argv, st, .cell⟩ (.reading ⟨.cellStart, row, st⟩)
  | quoted {data scan argv st row cell} (hrun : k.stopped st = false) (hroom : row.length < k.capacity)
      (hcells : Cells data argv row (argv row.length)) (hopen : Open data (argv row.length) scan cell) :
      Sim ⟨data, scan, row.length, argv, st, .quoted⟩ (.reading ⟨.quoted cell, row, st⟩)
  | unquoted {data scan argv st row cell} (hrun : k.stopped st = false) (hroom : row.length < k.capacity)
      (hcells : Cells data argv row (argv row.length)) (hopen : Open data (argv row.length) scan cell) :
      Sim ⟨data, scan, row.length, argv, st, .rest⟩ (.reading ⟨.unquoted cell, row, st⟩)
  | afterQuote {data scan argv st row cell} (hrun : k.stopped st = false) (hroom : row.length < k.capacity)
      (hcells : Cells data argv row (argv row.length)) (hcell : Holds data (argv row.length) scan cell) :
      Sim ⟨data, scan, row.length, argv, st, .rest⟩ (.reading ⟨.afterQuote cell, row, st⟩)
  | call {data scan argv st row} (hrun : k.stopped st = false) (hsome : row ≠ [])
      (hroom : row.length ≤ k.capacity) (hcells : Cells data argv row scan) :
      Sim ⟨data, scan, row.length, argv, st, .call⟩ (.calling row st)
  | done {data scan argc argv st} : Sim ⟨data, scan, argc, argv, st, .done⟩ (.done st)

/-- A step from one situation to another changes neither what comes out nor what is expected. -/
structure Keeps (x : Situation σ) (t : Text) (x' : Situation σ) (t' : Text) : Prop where
  fits : Fits k x t ↔ Fits k x' t'
  outcome : outcome k x t = outcome k x' t'

/-- The state holds a situation that nothing was lost on the way to. -/
def Follows (x : Situation σ) (t : Text) (s' : State σ) : Prop :=
  ∃ x', Sim k s' x' ∧ Keeps k x t x' (left s')

section Keeps

variable {k} {c : Char} {t : Text} {st : σ} {row : Row} {cell : Text} {mode : Mode}

theorem Keeps.refl {x : Situation σ} : Keeps k x t x t := ⟨Iff.rfl, rfl⟩

theorem keeps_of {r r' : Reader σ} {t' : Text} (hclient : r.client = r'.client)
    (hexpected : expected (.reading r) t = expected (.reading r') t')
    (hfinished : finished k r t = finished k r' t') : Keeps k (.reading r) t (.reading r') t' := by
  refine ⟨?_, hfinished⟩
  rw [Fits, Fits, hexpected, Situation.client, Situation.client, hclient]

theorem finished_nil {r : Reader σ} (h : r.mode ≠ .cellStart) : finished k r [] = some r.client := by
  obtain ⟨mode, argv, st⟩ := r
  cases mode <;> first | rfl | exact absurd rfl h

theorem finished_cons (r : Reader σ) (c : Char) (t : Text) :
    finished k r (c :: t) = (CsvReader.step k.toClient r c).bind (finished k · t) := by
  rw [finished, scan_cons]
  cases CsvReader.step k.toClient r c <;> rfl

theorem eq_comma (hd : isDelimiter c = true) (hl : isLineEnd c = false) : c = ',' := by
  rw [isDelimiter, hl, Bool.or_false] at hd
  exact beq_iff_eq.mp hd

theorem keeps_stop : Keeps k (.reading (CsvReader.start st)) [] (.done st) [] := by
  refine ⟨?_, finished_nil (by simp [CsvReader.start])⟩
  simp [Fits, expected, CsvReader.start, rows_nil, begun]

theorem keeps_stopped {t' : Text} (hstop : k.stopped st = true) :
    Keeps k (.reading (CsvReader.start st)) t (.done st) t' := by
  constructor
  · have hnone : ∀ l, begun k st l = [] := by
      intro l
      cases l with
      | nil => rfl
      | cons row l => rw [begun, if_pos hstop]
    simp [Fits, Situation.client, CsvReader.start, hnone]
  · rw [InPlace.outcome, finished, scan_stopped k.toClient _ rfl hstop]
    rfl

theorem keeps_lines (hrun : k.stopped st = false) (hc : isLineEnd c = true) :
    Keeps k (.reading (CsvReader.start st)) (c :: t) (.reading (CsvReader.start st)) t := by
  refine keeps_of rfl (rows_lineEnd hc t) ?_
  rw [finished_cons, CsvReader.step, CsvReader.start]
  simp [hrun, hc]

theorem keeps_begin (hrun : k.stopped st = false) (hc : isLineEnd c = false) :
    Keeps k (.reading (CsvReader.start st)) (c :: t) (.reading ⟨.cellStart, [], st⟩) (c :: t) := by
  refine keeps_of rfl (rows_cell hc t) ?_
  rw [finished_cons, finished_cons, CsvReader.step, CsvReader.start]
  simp only [hrun, hc, Bool.false_eq_true, if_false]
  rfl

theorem keeps_quote (hroom : row.length < k.capacity) :
    Keeps k (.reading ⟨.cellStart, row, st⟩) (quote :: t) (.reading ⟨.quoted [], row, st⟩) t := by
  refine keeps_of rfl ?_ ?_
  · rw [expected, rowFrom_eq, cutCell, if_pos rfl]
    rfl
  · rw [finished_cons, CsvReader.step]
    simp [cellStep, hroom]

theorem keeps_plain (hroom : row.length < k.capacity) (ht : t.head? ≠ some quote) :
    Keeps k (.reading ⟨.cellStart, row, st⟩) t (.reading ⟨.unquoted [], row, st⟩) t := by
  cases t with
  | nil =>
      refine keeps_of rfl ?_ ?_
      · rw [expected, rowFrom_eq]
        rfl
      · simp [finished, finish, hroom]
  | cons c t =>
      have hc : c ≠ quote := fun h => ht (by rw [h]; rfl)
      refine keeps_of rfl ?_ ?_
      · rw [expected, rowFrom_eq, cutCell, if_neg hc]
        rfl
      · rw [finished_cons, finished_cons, CsvReader.step, CsvReader.step]
        simp only [cellStep, hroom, if_true, beq_eq_false_iff_ne.mpr hc, Bool.false_eq_true, if_false]
        rfl

theorem keeps_quoted (hc : c ≠ quote) :
    Keeps k (.reading ⟨.quoted cell, row, st⟩) (c :: t) (.reading ⟨.quoted (cell ++ [c]), row, st⟩) t := by
  have hn : notQuote c = true := bne_iff_ne.mpr hc
  refine keeps_of rfl ?_ ?_
  · rw [expected, expected, List.takeWhile_cons_of_pos hn, List.dropWhile_cons_of_pos hn,
      List.append_assoc]
    rfl
  · rw [finished_cons, CsvReader.step]
    simp [hc]

theorem keeps_close :
    Keeps k (.reading ⟨.quoted cell, row, st⟩) (quote :: t) (.reading ⟨.afterQuote cell, row, st⟩) t := by
  refine keeps_of rfl ?_ ?_
  · rw [expected, expected, List.takeWhile_cons_of_neg (by decide), List.dropWhile_cons_of_neg (by decide),
      List.append_nil]
    rfl
  · rw [finished_cons, CsvReader.step]
    rfl

theorem keeps_unclosed :
    Keeps k (.reading ⟨.quoted cell, row, st⟩) [] (.reading ⟨.unquoted cell, row, st⟩) [] :=
  keeps_of rfl rfl rfl

theorem keeps_unquoted (hc : isDelimiter c = false) : Keeps k (.reading ⟨.unquoted cell, row, st⟩) (c :: t)
    (.reading ⟨.unquoted (cell ++ [c]), row, st⟩) t := by
  have hn : notDelimiter c = true := by rw [notDelimiter, hc]; rfl
  refine keeps_of rfl ?_ ?_
  · rw [expected, expected, List.takeWhile_cons_of_pos hn, List.dropWhile_cons_of_pos hn,
      List.append_assoc]
    rfl
  · rw [finished_cons, CsvReader.step]
    simp [unquotedStep, hc]

theorem keeps_skip (hc : isDelimiter c = false) : Keeps k (.reading ⟨.afterQuote cell, row, st⟩) (c :: t)
    (.reading ⟨.afterQuote cell, row, st⟩) t := by
  have hn : notDelimiter c = true := by rw [notDelimiter, hc]; rfl
  refine keeps_of rfl ?_ ?_
  · rw [expected, expected, List.dropWhile_cons_of_pos hn]
  · rw [finished_cons, CsvReader.step]
    simp [hc]

section Delimiter

variable (hmode : mode = .unquoted cell ∨ mode = .afterQuote cell)
include hmode

theorem expected_delimiter (hc : ∀ c ∈ t.head?, isDelimiter c = true) :
    expected (.reading ⟨mode, row, st⟩) t = closeCell row cell t := by
  have hn : ∀ c ∈ t.head?, notDelimiter c = false := by
    intro c hmem
    rw [notDelimiter, hc c hmem]
    rfl
  have hkeep : t.takeWhile notDelimiter = [] ∧ t.dropWhile notDelimiter = t := by
    cases t with
    | nil => exact ⟨rfl, rfl⟩
    | cons c t =>
        have hneg : ¬ notDelimiter c = true := by simp [hn c rfl]
        exact ⟨List.takeWhile_cons_of_neg hneg, List.dropWhile_cons_of_neg hneg⟩
  rcases hmode with rfl | rfl
  · rw [expected, hkeep.1, hkeep.2, List.append_nil]
  · rw [expected, hkeep.2]

theorem finished_delimiter (hc : isDelimiter c = true) : finished k ⟨mode, row, st⟩ (c :: t) =
    (endCell k.toClient ⟨mode, row, st⟩ cell c).bind (finished k · t) := by
  rw [finished_cons]
  rcases hmode with rfl | rfl <;> simp [CsvReader.step, unquotedStep, hc]

theorem keeps_comma :
    Keeps k (.reading ⟨mode, row, st⟩) (',' :: t) (.reading ⟨.cellStart, row ++ [cell], st⟩) t := by
  refine keeps_of rfl ?_ ?_
  · rw [expected_delimiter hmode (by simp [isDelimiter]), closeCell, expected]
  · rw [finished_delimiter hmode rfl]
    rfl

theorem keeps_lineEnd (hc : isLineEnd c = true) :
    Keeps k (.reading ⟨mode, row, st⟩) (c :: t) (.calling (row ++ [cell]) st) t := by
  have hd : isDelimiter c = true := by rw [isDelimiter, hc, Bool.or_true]
  have hcomma : (c :: t).head? ≠ some ',' := by
    rintro h
    obtain rfl := Option.some.inj h
    exact absurd hc (by decide)
  constructor
  · rw [Fits, Fits, expected_delimiter hmode (by simp [hd]), closeCell_last _ _ hcomma]
    rfl
  · rw [outcome, finished_delimiter hmode hd, endCell, if_pos hc, outcome]
    cases k.handle st (row ++ [cell]) <;> rfl

theorem keeps_end (hrun : k.stopped st = false) (hroom : row.length < k.capacity) :
    Keeps k (.reading ⟨mode, row, st⟩) [] (.reading (CsvReader.start st)) [] := by
  constructor
  · have hlast : begun k st [row ++ [cell]] = [row ++ [cell]] := by
      rw [begun, hrun, if_neg Bool.false_ne_true]
      cases k.handle st (row ++ [cell]) <;> rfl
    have hnext : expected (.reading (CsvReader.start st)) [] = [] := rows_nil
    rw [Fits, Fits, expected_delimiter hmode (by simp), closeCell_last _ _ (by simp), List.drop_nil,
      rows_nil, hnext]
    refine iff_of_true ?_ (by simp [begun])
    rw [Situation.client, hlast, List.forall_mem_singleton, List.length_append, List.length_singleton]
    exact hroom
  · rw [outcome, outcome, finished_nil (by rcases hmode with rfl | rfl <;> simp),
      finished_nil (by simp [CsvReader.start])]
    rfl

end Delimiter

theorem keeps_call {st' : σ} (hrun : k.stopped st = false) (hroom : row.length ≤ k.capacity)
    (hhandle : k.handle st row = some st') :
    Keeps k (.calling row st) t (.reading (CsvReader.start st')) t := by
  constructor
  · have hbegun : begun k st (row :: rows t) = row :: begun k st' (rows t) := by
      rw [begun, hrun, if_neg Bool.false_ne_true, hhandle]
    have hfits : Fits k (.calling row st) t ↔ ∀ r ∈ row :: begun k st' (rows t), r.length ≤ k.capacity := by
      rw [← hbegun]
      rfl
    rw [hfits, List.forall_mem_cons, and_iff_right hroom]
    rfl
  · rw [outcome, outcome, hhandle]
    rfl

end Keeps

section Simulation

variable {k} {s s' : State σ} {x : Situation σ}

theorem left_nul (h : byte s.data s.scan = nul) : left s = [] := stringAt_nul h

theorem args_eq {data : Text} {scan b : Nat} {argv : Nat → Nat} {st : σ} {row : Row} {place : Place}
    (h : Cells data argv row b) : args ⟨data, scan, row.length, argv, st, place⟩ = row := h.map_stringAt

theorem sim_endCell {data : Text} {scan : Nat} {argv : Nat → Nat} {st : σ} {row : Row} {cell : Text}
    {mode : Mode} (hmode : mode = .unquoted cell ∨ mode = .afterQuote cell) (hrun : k.stopped st = false)
    (hroom : row.length < k.capacity) (hcells : Cells data argv row (argv row.length))
    (hscan : argv row.length ≤ scan)
    (hclose : scan < data.length → Holds (data.set scan nul) (argv row.length) (scan + 1) cell)
    (hend : ¬ (byte data scan ≠ nul ∧ ¬ isDelimiter (byte data scan)))
    (hs : step k ⟨data, scan, row.length, argv, st, .rest⟩ = some s') :
    Follows k (.reading ⟨mode, row, st⟩) (stringAt data scan) s' := by
  simp only [step, if_neg hend, if_pos hroom] at hs
  by_cases hnul : byte data scan = nul
  · rw [if_pos hnul] at hs
    obtain rfl := Option.some.inj hs
    refine ⟨_, .head, ?_⟩
    rw [left_nul hnul, stringAt_nul hnul]
    exact keeps_end hmode hrun hroom
  · rw [if_neg hnul] at hs
    obtain rfl := Option.some.inj hs
    have hcells' : Cells (data.set scan nul) argv (row ++ [cell]) (scan + 1) :=
      (hcells.set hscan nul).snoc (hclose (lt_length hnul))
    have hdelimiter : isDelimiter (byte data scan) = true := by
      by_contra hne
      exact hend ⟨hnul, hne⟩
    have hlength : row.length + 1 = (row ++ [cell]).length := by simp
    rw [stringAt_cons hnul]
    cases hline : isLineEnd (byte data scan) with
    | true =>
        simp only [if_true, hlength]
        refine ⟨_, .call hrun (by simp) (hlength ▸ hroom) hcells', ?_⟩
        rw [left, stringAt_set (Nat.lt_succ_self scan)]
        exact keeps_lineEnd hmode hline
    | false =>
        simp only [Bool.false_eq_true, if_false, hlength]
        refine ⟨_, .cell hrun hcells', ?_⟩
        rw [left, stringAt_set (Nat.lt_succ_self scan), eq_comma hdelimiter hline]
        exact keeps_comma hmode

theorem edit_spec {data : Text} {scan : Nat} {argv : Nat → Nat} {st : σ} {row : Row} {i o : Nat}
    (hcells : Cells data argv row scan) (h : k.edit st row = some (i, o)) : argv i + o < scan := by
  obtain ⟨cell, hcell, ho⟩ := k.inside h
  have hbefore := (hcells.holds i cell hcell).before
  omega

section Places

variable {data : Text} {scan argc : Nat} {argv : Nat → Nat} {st : σ} {row : Row} {cell : Text}

theorem sim_head (hs : step k ⟨data, scan, argc, argv, st, .head⟩ = some s') :
    Follows k (.reading (CsvReader.start st)) (stringAt data scan) s' := by
  simp only [step] at hs
  split_ifs at hs with hend
  · obtain rfl := Option.some.inj hs
    refine ⟨_, .done, ?_⟩
    rcases hend with hnul | hstop
    · rw [left_nul hnul, stringAt_nul hnul]
      exact keeps_stop
    · exact keeps_stopped hstop
  · obtain rfl := Option.some.inj hs
    rw [not_or, Bool.not_eq_true] at hend
    exact ⟨_, .lines hend.2, .refl⟩

theorem sim_lines (hrun : k.stopped st = false) (hs : step k ⟨data, scan, 0, argv, st, .lines⟩ = some s') :
    Follows k (.reading (CsvReader.start st)) (stringAt data scan) s' := by
  simp only [step] at hs
  split_ifs at hs with hline hnul
  · obtain rfl := Option.some.inj hs
    have hne : byte data scan ≠ nul := fun h => absurd (h ▸ hline) (by decide)
    refine ⟨_, .lines hrun, ?_⟩
    rw [stringAt_cons hne]
    exact keeps_lines hrun hline
  · obtain rfl := Option.some.inj hs
    refine ⟨_, .done, ?_⟩
    rw [left_nul hnul, stringAt_nul hnul]
    exact keeps_stop
  · obtain rfl := Option.some.inj hs
    refine ⟨_, .cell hrun Cells.nil, ?_⟩
    rw [left, stringAt_cons hnul]
    exact keeps_begin hrun (by simpa using hline)

theorem sim_cell (hrun : k.stopped st = false) (hcells : Cells data argv row scan)
    (hs : step k ⟨data, scan, row.length, argv, st, .cell⟩ = some s') :
    Follows k (.reading ⟨.cellStart, row, st⟩) (stringAt data scan) s' := by
  simp only [step] at hs
  split_ifs at hs with hroom hquote
  · obtain rfl := Option.some.inj hs
    have hne : byte data scan ≠ nul := fun h => absurd (h.symm.trans hquote) (by decide)
    refine ⟨.reading ⟨.quoted [], row, st⟩, .quoted hrun hroom ?_ ?_, ?_⟩
    · rw [Function.update_self]
      exact (hcells.update _).mono (by omega)
    · rw [Function.update_self]
      exact .nil
    · rw [stringAt_cons hne, hquote]
      exact keeps_quote hroom
  · obtain rfl := Option.some.inj hs
    refine ⟨.reading ⟨.unquoted [], row, st⟩, .unquoted hrun hroom ?_ ?_, ?_⟩
    · rw [Function.update_self]
      exact hcells.update _
    · rw [Function.update_self]
      exact .nil
    · apply keeps_plain hroom
      rw [head?_stringAt]
      simpa using fun _ => hquote

theorem sim_quoted (hrun : k.stopped st = false) (hroom : row.length < k.capacity)
    (hcells : Cells data argv row (argv row.length)) (hopen : Open data (argv row.length) scan cell)
    (hs : step k ⟨data, scan, row.length, argv, st, .quoted⟩ = some s') :
    Follows k (.reading ⟨.quoted cell, row, st⟩) (stringAt data scan) s' := by
  simp only [step] at hs
  split_ifs at hs with hnul hquote
  · obtain rfl := Option.some.inj hs
    refine ⟨_, .unquoted hrun hroom hcells hopen, ?_⟩
    rw [left_nul hnul, stringAt_nul hnul]
    exact keeps_unclosed
  · obtain rfl := Option.some.inj hs
    have hscan : argv row.length ≤ scan := by
      have hsize := hopen.size
      omega
    refine ⟨_, .afterQuote hrun hroom (hcells.set hscan nul) (hopen.close (lt_length hnul)), ?_⟩
    rw [stringAt_cons hnul, left, stringAt_set (Nat.lt_succ_self scan), hquote]
    exact keeps_close
  · obtain rfl := Option.some.inj hs
    refine ⟨_, .quoted hrun hroom hcells (hopen.snoc hnul), ?_⟩
    rw [stringAt_cons hnul]
    exact keeps_quoted hquote

theorem sim_unquoted (hrun : k.stopped st = false) (hroom : row.length < k.capacity)
    (hcells : Cells data argv row (argv row.length)) (hopen : Open data (argv row.length) scan cell)
    (hs : step k ⟨data, scan, row.length, argv, st, .rest⟩ = some s') :
    Follows k (.reading ⟨.unquoted cell, row, st⟩) (stringAt data scan) s' := by
  by_cases hskip : byte data scan ≠ nul ∧ ¬ isDelimiter (byte data scan)
  · simp only [step, if_pos hskip] at hs
    obtain rfl := Option.some.inj hs
    refine ⟨_, .unquoted hrun hroom hcells (hopen.snoc hskip.1), ?_⟩
    rw [stringAt_cons hskip.1]
    exact keeps_unquoted (by simpa using hskip.2)
  · have hscan : argv row.length ≤ scan := by
      have hsize := hopen.size
      omega
    exact sim_endCell (.inl rfl) hrun hroom hcells hscan hopen.close hskip hs

theorem sim_afterQuote (hrun : k.stopped st = false) (hroom : row.length < k.capacity)
    (hcells : Cells data argv row (argv row.length)) (hcell : Holds data (argv row.length) scan cell)
    (hs : step k ⟨data, scan, row.length, argv, st, .rest⟩ = some s') :
    Follows k (.reading ⟨.afterQuote cell, row, st⟩) (stringAt data scan) s' := by
  by_cases hskip : byte data scan ≠ nul ∧ ¬ isDelimiter (byte data scan)
  · simp only [step, if_pos hskip] at hs
    obtain rfl := Option.some.inj hs
    refine ⟨_, .afterQuote hrun hroom hcells (hcell.mono (Nat.le_succ scan)), ?_⟩
    rw [stringAt_cons hskip.1]
    exact keeps_skip (by simpa using hskip.2)
  · have hscan : argv row.length ≤ scan := by
      have hbefore := hcell.before
      omega
    exact sim_endCell (.inr rfl) hrun hroom hcells hscan
      (fun _ => (hcell.set le_rfl nul).mono (Nat.le_succ scan)) hskip hs

theorem sim_call (hrun : k.stopped st = false) (hroom : row.length ≤ k.capacity)
    (hcells : Cells data argv row scan) (hs : step k ⟨data, scan, row.length, argv, st, .call⟩ = some s') :
    Follows k (.calling row st) (stringAt data scan) s' := by
  simp only [step, args_eq hcells] at hs
  obtain ⟨st', hhandle, rfl⟩ := Option.map_eq_some_iff.mp hs
  refine ⟨_, .head, ?_⟩
  have hleft : ∀ data', data' = (match k.edit st row with
      | none => data
      | some (i, o) => data.set (argv i + o) nul) → stringAt data' scan = stringAt data scan := by
    rintro _ rfl
    cases hedit : k.edit st row with
    | none => rfl
    | some p => exact stringAt_set (edit_spec hcells hedit) nul
  rw [left, hleft _ rfl]
  exact keeps_call hrun hroom hhandle

end Places

theorem sim_step (h : Sim k s x) (hs : step k s = some s') : Follows k x (left s) s' := by
  cases h with
  | head => exact sim_head hs
  | lines hrun => exact sim_lines hrun hs
  | cell hrun hcells => exact sim_cell hrun hcells hs
  | quoted hrun hroom hcells hopen => exact sim_quoted hrun hroom hcells hopen hs
  | unquoted hrun hroom hcells hopen => exact sim_unquoted hrun hroom hcells hopen hs
  | afterQuote hrun hroom hcells hcell => exact sim_afterQuote hrun hroom hcells hcell hs
  | call hrun _ hroom hcells => exact sim_call hrun hroom hcells hs
  | done => simp [step] at hs

theorem sim_stuck (h : Sim k s x) (hs : step k s = none) :
    (s.place = .cell ∧ k.capacity ≤ s.argc ∨ Fits k x (left s)) ∧
      outcome k x (left s) = if s.place = .done then some s.client else none := by
  cases h with
  | @head data scan argc argv st | @lines data scan argv st hrun =>
      simp only [step] at hs
      split_ifs at hs
  | @cell data scan argv st row hrun hcells =>
      simp only [step] at hs
      split_ifs at hs with hroom
      refine ⟨.inl ⟨rfl, not_lt.mp hroom⟩, ?_⟩
      rw [if_neg (by simp), outcome]
      cases left ⟨data, scan, row.length, argv, st, .cell⟩ with
      | nil => simp [finished, finish, hroom]
      | cons c t => simp [finished_cons, CsvReader.step, cellStep, hroom]
  | @quoted data scan argv st row cell hrun hroom hcells hopen =>
      simp only [step] at hs
      split_ifs at hs
  | @unquoted data scan argv st row cell hrun hroom hcells hcell
  | @afterQuote data scan argv st row cell hrun hroom hcells hcell =>
      simp only [step] at hs
      split_ifs at hs
  | @call data scan argv st row hrun hsome hroom hcells =>
      simp only [step, args_eq hcells, Option.map_eq_none_iff] at hs
      constructor
      · have hbegun : ∀ l, begun k st (row :: l) = [row] := by
          intro l
          rw [begun, hrun, if_neg Bool.false_ne_true, hs]
        refine .inr ?_
        rw [Fits, expected, Situation.client, hbegun, List.forall_mem_singleton]
        exact hroom
      · rw [if_neg (by simp), outcome, hs]
        rfl
  | done => exact ⟨.inr (by simp [Fits, expected, begun]), rfl⟩

theorem left_start (content : Text) (argv : Nat → Nat) (st : σ) :
    left (start content argv st) = cstr content := by
  rw [left, start, stringAt, List.drop_zero, cstr, cstr, List.takeWhile_append]
  split_ifs with hall
  · rw [(List.takeWhile_prefix _).eq_of_length hall]
    exact List.append_nil content
  · rfl

theorem sim_reaches {content : Text} {argv : Nat → Nat} {st : σ}
    (h : Reaches k (start content argv st) s) :
    ∃ x, Sim k s x ∧ Keeps k (.reading (CsvReader.start st)) (cstr content) x (left s) := by
  induction h with
  | refl => exact ⟨_, .head, by rw [left_start]; exact .refl⟩
  | tail _ hs ih =>
      obtain ⟨x, hsim, hkeep⟩ := ih
      obtain ⟨x', hsim', hkeep'⟩ := sim_step hsim hs
      exact ⟨x', hsim', hkeep.fits.trans hkeep'.fits, hkeep.outcome.trans hkeep'.outcome⟩

end Simulation

section Runs

variable {k} {s s' : State σ}

/-- Of two states with the same text left, the first one comes later in the code. -/
def rank (s : State σ) : Nat :=
  if byte s.data s.scan = nul then
    match s.place with
    | .cell | .quoted => 3
    | .rest | .call => 2
    | .lines | .head => 1
    | .done => 0
  else
    match s.place with
    | .call => 4
    | .head => 3
    | .lines => 2
    | .cell => 1
    | .quoted | .rest | .done => 0

def remaining (s : State σ) : Nat := 5 * (s.data.length - s.scan) + rank s

theorem rank_le (s : State σ) : rank s ≤ 4 := by
  rw [rank]
  split_ifs <;> cases s.place <;> simp

theorem byte_set_nul {data : Text} {i : Nat} (j : Nat) (h : byte data i = nul) :
    byte (data.set j nul) i = nul := by
  rw [byte, List.getD_eq_getElem?_getD, List.getElem?_set]
  split_ifs
  · rfl
  · rfl
  · rw [← List.getD_eq_getElem?_getD]
    exact h

structure Blanked (data data' : Text) : Prop where
  length : data'.length = data.length
  nul : ∀ i, byte data i = nul → byte data' i = nul

theorem Blanked.refl (data : Text) : Blanked data data := ⟨rfl, fun _ h => h⟩

theorem Blanked.set (data : Text) (j : Nat) : Blanked data (data.set j CString.nul) :=
  ⟨List.length_set, fun _ h => byte_set_nul j h⟩

/-- A step goes on by one byte that is no terminator, or comes nearer to such a step. -/
theorem step_moves (hs : step k s = some s') :
    Blanked s.data s'.data ∧
      (byte s.data s.scan ≠ nul ∧ s'.scan = s.scan + 1 ∨ s'.scan = s.scan ∧ rank s' < rank s) := by
  obtain ⟨data, scan, argc, argv, st, place⟩ := s
  have hlines : isLineEnd (byte data scan) = true → byte data scan ≠ nul := fun h he =>
    absurd (he ▸ h) (by decide)
  have hquotes : byte data scan = quote → byte data scan ≠ nul := fun h he =>
    absurd (he.symm.trans h) (by decide)
  cases place with
  | head =>
      simp only [step] at hs
      split_ifs at hs with hend <;> obtain rfl := Option.some.inj hs
      · refine ⟨.refl data, .inr ⟨rfl, ?_⟩⟩
        simp only [rank]
        split_ifs <;> simp
      · rw [not_or] at hend
        refine ⟨.refl data, .inr ⟨rfl, ?_⟩⟩
        simp only [rank, if_neg hend.1]
        omega
  | lines =>
      simp only [step] at hs
      split_ifs at hs with hline hnul <;> obtain rfl := Option.some.inj hs
      · exact ⟨.refl data, .inl ⟨hlines hline, rfl⟩⟩
      · refine ⟨.refl data, .inr ⟨rfl, ?_⟩⟩
        simp only [rank, if_pos hnul]
        omega
      · refine ⟨.refl data, .inr ⟨rfl, ?_⟩⟩
        simp only [rank, if_neg hnul]
        omega
  | cell =>
      simp only [step] at hs
      split_ifs at hs with hroom hquote <;> obtain rfl := Option.some.inj hs
      · exact ⟨.refl data, .inl ⟨hquotes hquote, rfl⟩⟩
      · refine ⟨.refl data, .inr ⟨rfl, ?_⟩⟩
        simp only [rank]
        split_ifs <;> omega
  | quoted =>
      simp only [step] at hs
      split_ifs at hs with hnul hquote <;> obtain rfl := Option.some.inj hs
      · refine ⟨.refl data, .inr ⟨rfl, ?_⟩⟩
        simp only [rank, if_pos hnul]
        omega
      · exact ⟨.set data scan, .inl ⟨hnul, rfl⟩⟩
      · exact ⟨.refl data, .inl ⟨hnul, rfl⟩⟩
  | rest =>
      simp only [step] at hs
      by_cases hskip : byte data scan ≠ nul ∧ ¬ isDelimiter (byte data scan)
      · rw [if_pos hskip] at hs
        obtain rfl := Option.some.inj hs
        exact ⟨.refl data, .inl ⟨hskip.1, rfl⟩⟩
      · rw [if_neg hskip] at hs
        by_cases hnul : byte data scan = nul
        · rw [if_pos hnul] at hs
          obtain rfl := Option.some.inj hs
          refine ⟨.refl data, .inr ⟨rfl, ?_⟩⟩
          simp only [rank, if_pos hnul]
          omega
        · rw [if_neg hnul] at hs
          obtain rfl := Option.some.inj hs
          exact ⟨.set data scan, .inl ⟨hnul, rfl⟩⟩
  | call =>
      simp only [step] at hs
      obtain ⟨st', _, rfl⟩ := Option.map_eq_some_iff.mp hs
      have hblanked : Blanked data (match k.edit st (args ⟨data, scan, argc, argv, st, .call⟩) with
          | none => data
          | some (i, o) => data.set (argv i + o) nul) := by
        cases k.edit st (args ⟨data, scan, argc, argv, st, .call⟩) with
        | none => exact .refl data
        | some p => exact .set data _
      refine ⟨hblanked, .inr ⟨rfl, ?_⟩⟩
      by_cases hnul : byte data scan = nul
      · simp only [rank, if_pos hnul, if_pos (hblanked.nul scan hnul)]
        omega
      · simp only [rank, if_neg hnul]
        split_ifs <;> omega
  | done => simp [step] at hs

theorem remaining_step (hs : step k s = some s') : remaining s' < remaining s := by
  obtain ⟨hblanked, ⟨hne, hscan⟩ | ⟨hscan, hrank⟩⟩ := step_moves hs
  · have hlt := lt_length hne
    have hrank := rank_le s'
    simp only [remaining, hblanked.length, hscan]
    omega
  · simp only [remaining, hblanked.length, hscan]
    omega

theorem exists_stuck (k : Editor σ) (s : State σ) : ∃ f, Reaches k s f ∧ step k f = none := by
  induction hn : remaining s using Nat.strong_induction_on generalizing s with
  | _ n ih =>
      cases hs : step k s with
      | none => exact ⟨s, .refl, hs⟩
      | some s' =>
          obtain ⟨f, hf, hstuck⟩ := ih _ (hn ▸ remaining_step hs) s' rfl
          exact ⟨f, .head hs hf, hstuck⟩

/-- The scan pointer is not behind the terminator of the file. -/
structure Within (n : Nat) (s : State σ) : Prop where
  length : s.data.length = n + 1
  scan : s.scan ≤ n
  terminator : byte s.data n = nul

/-- The pointers show strings inside the buffer, each behind the terminator of the one before it. -/
structure Split (data : Text) (argc : Nat) (argv : Nat → Nat) : Prop where
  nonempty : 1 ≤ argc
  terminated : ∀ i < argc, argv i + (stringAt data (argv i)).length < data.length ∧
    byte data (argv i + (stringAt data (argv i)).length) = nul
  disjoint : ∀ i j, i < j → j < argc → argv i + (stringAt data (argv i)).length < argv j

theorem within_start (content : Text) (argv : Nat → Nat) (st : σ) :
    Within content.length (start content argv st) := by
  refine ⟨by simp [start], Nat.zero_le _, ?_⟩
  simp [start, byte]

theorem within_step {n : Nat} (h : Within n s) (hs : step k s = some s') : Within n s' := by
  obtain ⟨hblanked, hmove⟩ := step_moves hs
  refine ⟨hblanked.length.trans h.length, ?_, hblanked.nul n h.terminator⟩
  rcases hmove with ⟨hne, hscan⟩ | ⟨hscan, _⟩
  · have hlt : s.scan < n := lt_of_le_of_ne h.scan fun he => hne (he ▸ h.terminator)
    omega
  · exact hscan ▸ h.scan

theorem split_of_cells {data : Text} {b : Nat} {argv : Nat → Nat} {row : Row} (hsome : row ≠ [])
    (h : Cells data argv row b) : Split data row.length argv := by
  have hstring : ∀ i (hi : i < row.length), stringAt data (argv i) = row[i] := by
    intro i hi
    exact (h.holds i row[i] (List.getElem?_eq_getElem hi)).stringAt
  refine ⟨List.length_pos_iff.mpr hsome, fun i hi => ?_, fun i j hij hj => ?_⟩
  · rw [hstring i hi]
    exact (h.holds i row[i] (List.getElem?_eq_getElem hi)).terminated
  · rw [hstring i (hij.trans hj)]
    exact h.disjoint hij hj (List.getElem?_eq_getElem _)

theorem split_call {data : Text} {scan : Nat} {argv : Nat → Nat} {st : σ} {row : Row} (hsome : row ≠ [])
    (h : Cells data argv row scan) (hs : step k ⟨data, scan, row.length, argv, st, .call⟩ = some s') :
    Split s'.data s'.argc s'.argv := by
  simp only [step, args_eq h] at hs
  obtain ⟨st', _, rfl⟩ := Option.map_eq_some_iff.mp hs
  cases hedit : k.edit st row with
  | none => exact split_of_cells hsome h
  | some p =>
      obtain ⟨i, o⟩ := p
      obtain ⟨cell, hcell, ho⟩ := k.inside hedit
      have hcut := split_of_cells (by simpa using hsome) (h.cut hcell ho)
      simpa only [List.length_set] using hcut

theorem reaches_within {content : Text} {argv : Nat → Nat} {st : σ}
    (h : Reaches k (start content argv st) s) :
    Within content.length s ∧ (s.place = .call → Split s.data s.argc s.argv ∧
      ∀ s', step k s = some s' → Split s'.data s'.argc s'.argv) := by
  constructor
  · induction h with
    | refl => exact within_start content argv st
    | tail _ hs ih => exact within_step ih hs
  · obtain ⟨x, hsim, _⟩ := sim_reaches h
    intro hcall
    cases hsim with
    | call hrun hsome hroom hcells =>
        exact ⟨split_of_cells hsome hcells, fun s' hs => split_call hsome hcells hs⟩
    | _ => exact absurd hcall (by simp)

theorem stores_iff (content : Text) (argv : Nat → Nat) (st : σ) :
    (∀ s, Reaches k (start content argv st) s → s.place = .cell → s.argc < k.capacity) ↔
      ∀ row ∈ begun k st (rows (cstr content)), row.length ≤ k.capacity := by
  constructor
  · intro h
    obtain ⟨f, hf, hstuck⟩ := exists_stuck k (start content argv st)
    obtain ⟨x, hsim, hkeep⟩ := sim_reaches hf
    rcases (sim_stuck hsim hstuck).1 with ⟨hcell, hfull⟩ | hfits
    · exact absurd (h f hf hcell) (not_lt.mpr hfull)
    · exact hkeep.fits.mpr hfits
  · intro h s hs hplace
    obtain ⟨x, hsim, hkeep⟩ := sim_reaches hs
    have hfits := hkeep.fits.mp h
    cases hsim with
    | @cell data scan argv st row hrun hcells =>
        have hrow := hfits (row ++ (cutRow (stringAt data scan)).1) (by
          rw [expected, Situation.client, rowFrom, begun, hrun, if_neg Bool.false_ne_true]
          exact List.mem_cons_self)
        have hne := List.length_pos_iff.mpr (cutRow_ne_nil (stringAt data scan))
        rw [List.length_append] at hrow
        dsimp only
        omega
    | _ => exact absurd hplace (by simp)

theorem run_read (k : Editor σ) (content : Text) (argv : Nat → Nat) (st : σ) :
    ∃ f, Reaches k (start content argv st) f ∧ step k f = none ∧
      CsvReader.read k.toClient content st = if f.place = .done then some f.client else none := by
  obtain ⟨f, hf, hstuck⟩ := exists_stuck k (start content argv st)
  obtain ⟨x, hsim, hkeep⟩ := sim_reaches hf
  refine ⟨f, hf, hstuck, ?_⟩
  rw [← (sim_stuck hsim hstuck).2, ← hkeep.outcome]
  rfl

end Runs

end SchemaCodeGen.InPlace
