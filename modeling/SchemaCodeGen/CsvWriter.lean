import SchemaCodeGen.CsvTrace

namespace SchemaCodeGen.CsvWriter

open CString CsvReader CsvTrace

variable {σ : Type}

/-- A cell as a writer puts it down. Text with a delimiter has to be quoted. -/
structure Cell where
  quoted : Bool
  text : Text
  quoteFree : quote ∉ text
  nulFree : NulFree text
  plain : quoted = false → ∀ c ∈ text, isDelimiter c = false

def Cell.write (x : Cell) : Text := if x.quoted then quote :: (x.text ++ [quote]) else x.text

def writeCells : List Cell → Text
  | [] => []
  | [x] => x.write
  | x :: xs => x.write ++ ',' :: writeCells xs

/-- A row with its line end, a nonempty mix of line feeds and carriage returns.
An unquoted empty cell on its own would be a blank line. -/
structure Line (capacity : Nat) where
  cells : List Cell
  ending : Text
  cells_ne : cells ≠ []
  fits : cells.length ≤ capacity
  notBlank : ∀ x, cells = [x] → x.quoted = false → x.text ≠ []
  ending_ne : ending ≠ []
  ending_ends : ∀ c ∈ ending, isLineEnd c = true

def Line.write {capacity : Nat} (l : Line capacity) : Text := writeCells l.cells ++ l.ending

def Line.row {capacity : Nat} (l : Line capacity) : Row := l.cells.map Cell.text

def writeLines {capacity : Nat} (ls : List (Line capacity)) : Text := ls.flatMap Line.write

def takeThrough (isLast : Row → Bool) : List Row → List Row
  | [] => []
  | row :: rows => if isLast row then [row] else row :: takeThrough isLast rows

theorem isDelimiter_of_isLineEnd {c : Char} (h : isLineEnd c = true) : isDelimiter c = true := by
  simp [isDelimiter, h]

theorem not_quote_of_isDelimiter {c : Char} (h : isDelimiter c = true) : (c == quote) = false := by
  simp only [isDelimiter, isLineEnd, Bool.or_eq_true, beq_iff_eq] at h
  rcases h with rfl | rfl | rfl <;> rfl

theorem scan_quoted (k : Client σ) (cell argv : _) (s : σ) (t : Text) (ht : quote ∉ t) :
    scan k ⟨.quoted cell, argv, s⟩ t = some ⟨.quoted (cell ++ t), argv, s⟩ := by
  induction t generalizing cell with
  | nil => simp
  | cons c t ih =>
      simp only [List.mem_cons, not_or] at ht
      have hc : (c == quote) = false := by simpa using Ne.symm ht.1
      simp only [scan_cons, step, hc, Bool.false_eq_true, if_false, Option.bind_some]
      simpa using ih (cell ++ [c]) ht.2

theorem scan_unquoted (k : Client σ) (cell argv : _) (s : σ) (t : Text)
    (ht : ∀ c ∈ t, isDelimiter c = false) :
    scan k ⟨.unquoted cell, argv, s⟩ t = some ⟨.unquoted (cell ++ t), argv, s⟩ := by
  induction t generalizing cell with
  | nil => simp
  | cons c t ih =>
      have hc : isDelimiter c = false := ht c (by simp)
      simp only [scan_cons, step, unquotedStep, hc, Bool.false_eq_true, if_false, Option.bind_some]
      simpa using ih (cell ++ [c]) (fun d hd => ht d (by simp [hd]))

theorem scan_afterQuote (k : Client σ) (cell argv : _) (s : σ) (c : Char)
    (hc : isDelimiter c = true) :
    scan k ⟨.afterQuote cell, argv, s⟩ [c] = endCell k ⟨.cellStart, argv, s⟩ cell c := by
  simp [scan_cons, step, hc, endCell]

theorem scan_cell (k : Client σ) (argv : Row) (s : σ) (hfit : argv.length < k.capacity)
    (x : Cell) (c : Char) (hc : isDelimiter c = true) :
    scan k ⟨.cellStart, argv, s⟩ (x.write ++ [c]) = endCell k ⟨.cellStart, argv, s⟩ x.text c := by
  by_cases hq : x.quoted = true
  · have hopen : step k ⟨.cellStart, argv, s⟩ quote = some ⟨.quoted [], argv, s⟩ := by
      simp [step, cellStep, hfit]
    have hclose : scan k ⟨.quoted x.text, argv, s⟩ [quote] = some ⟨.afterQuote x.text, argv, s⟩ := by
      simp [scan_cons, step]
    rw [Cell.write, if_pos hq, List.cons_append, scan_cons, hopen, Option.bind_some, List.append_assoc,
      scan_append, scan_quoted k [] argv s x.text x.quoteFree, Option.bind_some, List.nil_append,
      scan_append, hclose, Option.bind_some]
    exact scan_afterQuote k x.text argv s c hc
  · have hq : x.quoted = false := by simpa using hq
    have hplain := x.plain hq
    have hquote := x.quoteFree
    rw [Cell.write, hq, if_neg Bool.false_ne_true]
    cases ht : x.text with
    | nil => simp [scan_cons, step, cellStep, unquotedStep, hfit, not_quote_of_isDelimiter hc, hc]
    | cons d t =>
        rw [ht] at hplain hquote
        have hd : isDelimiter d = false := hplain d (by simp)
        have hdq : (d == quote) = false := by
          simp only [List.mem_cons, not_or] at hquote
          simpa using Ne.symm hquote.1
        have hfirst : step k ⟨.cellStart, argv, s⟩ d = some ⟨.unquoted [d], argv, s⟩ := by
          simp [step, cellStep, unquotedStep, hfit, hdq, hd]
        rw [List.cons_append, scan_cons, hfirst, Option.bind_some, scan_append,
          scan_unquoted k [d] argv s t (fun e he => hplain e (by simp [he])), Option.bind_some]
        simp [scan_cons, step, unquotedStep, hc, endCell]

theorem endCell_comma (k : Client σ) (argv : Row) (s : σ) (cell : Text) :
    endCell k ⟨.cellStart, argv, s⟩ cell ',' = some ⟨.cellStart, argv ++ [cell], s⟩ := rfl

theorem endCell_lineEnd (k : Client σ) (argv : Row) (s : σ) (cell : Text) (c : Char)
    (hc : isLineEnd c = true) :
    endCell k ⟨.cellStart, argv, s⟩ cell c =
      (k.handle s (argv ++ [cell])).map (fun s => ⟨.rowStart, [], s⟩) := by
  simp [endCell, hc]

theorem scan_cells (k : Client σ) (argv : Row) (s : σ) (xs : List Cell) (hne : xs ≠ [])
    (hfit : argv.length + xs.length ≤ k.capacity) (c : Char) (hc : isLineEnd c = true) :
    scan k ⟨.cellStart, argv, s⟩ (writeCells xs ++ [c]) =
      (k.handle s (argv ++ xs.map Cell.text)).map (fun s => ⟨.rowStart, [], s⟩) := by
  induction xs generalizing argv with
  | nil => exact absurd rfl hne
  | cons x xs ih =>
      simp only [List.length_cons] at hfit
      cases xs with
      | nil =>
          have hx := scan_cell k argv s (by omega) x c (isDelimiter_of_isLineEnd hc)
          rw [endCell_lineEnd k argv s x.text c hc] at hx
          simpa [writeCells] using hx
      | cons y ys =>
          have hw : writeCells (x :: y :: ys) ++ [c] =
              (x.write ++ [',']) ++ (writeCells (y :: ys) ++ [c]) := by
            simp [writeCells]
          have hfit' : (argv ++ [x.text]).length + (y :: ys).length ≤ k.capacity := by
            simp only [List.length_append, List.length_cons, List.length_nil] at hfit ⊢
            omega
          rw [hw, scan_append, scan_cell k argv s (by omega) x ',' rfl, endCell_comma, Option.bind_some,
            ih (argv ++ [x.text]) (by simp) hfit']
          simp

theorem scan_lineEnds (k : Client σ) (s : σ) (t : Text) (ht : ∀ c ∈ t, isLineEnd c = true) :
    scan k ⟨.rowStart, [], s⟩ t = some ⟨.rowStart, [], s⟩ := by
  induction t with
  | nil => rfl
  | cons c t ih =>
      have hc : isLineEnd c = true := ht c (by simp)
      have hstep : step k ⟨.rowStart, [], s⟩ c = some ⟨.rowStart, [], s⟩ := by
        simp [step, hc]
      rw [scan_cons, hstep, Option.bind_some]
      exact ih (fun d hd => ht d (by simp [hd]))

theorem scan_rowStart (k : Client σ) (s : σ) (hs : k.stopped s = false) (c : Char) (t : Text)
    (hc : isLineEnd c = false) :
    scan k ⟨.rowStart, [], s⟩ (c :: t) = scan k ⟨.cellStart, [], s⟩ (c :: t) := by
  simp only [scan_cons, step, hs, hc, Bool.false_eq_true, if_false]
  rfl

theorem write_head (x : Cell) (t : Text) (h : x.quoted = true ∨ x.text ≠ []) :
    ∃ c u, x.write ++ t = c :: u ∧ isLineEnd c = false := by
  by_cases hq : x.quoted = true
  · exact ⟨quote, x.text ++ [quote] ++ t, by simp [Cell.write, hq], rfl⟩
  · have hq : x.quoted = false := by simpa using hq
    cases hx : x.text with
    | nil => exact absurd hx (h.resolve_left (by simp [hq]))
    | cons c u =>
        refine ⟨c, u ++ t, by simp [Cell.write, hq, hx], ?_⟩
        have hd := x.plain hq c (by simp [hx])
        simp only [isDelimiter, Bool.or_eq_false_iff] at hd
        exact hd.2

theorem line_head {capacity : Nat} (l : Line capacity) (t : Text) :
    ∃ c u, writeCells l.cells ++ t = c :: u ∧ (isLineEnd c = false) := by
  have hblank := l.notBlank
  cases hl : l.cells with
  | nil => exact absurd hl l.cells_ne
  | cons x xs =>
      cases xs with
      | nil =>
          have hx : x.quoted = true ∨ x.text ≠ [] := by
            cases hq : x.quoted with
            | true => exact .inl rfl
            | false => exact .inr (hblank x hl hq)
          simpa [writeCells] using write_head x t hx
      | cons y ys =>
          have hw : writeCells (x :: y :: ys) ++ t = x.write ++ (',' :: (writeCells (y :: ys) ++ t)) := by
            simp [writeCells]
          rw [hw]
          by_cases hx : x.quoted = true ∨ x.text ≠ []
          · exact write_head x _ hx
          · have hq : x.quoted = false := by simpa using fun h => hx (.inl h)
            have ht : x.text = [] := by simpa using fun h => hx (.inr h)
            exact ⟨',', writeCells (y :: ys) ++ t, by simp [Cell.write, hq, ht], rfl⟩

theorem scan_line {capacity : Nat} (k : Client σ) (hcap : capacity ≤ k.capacity) (s : σ)
    (hs : k.stopped s = false) (l : Line capacity) :
    scan k ⟨.rowStart, [], s⟩ l.write = (k.handle s l.row).map (fun s => ⟨.rowStart, [], s⟩) := by
  have hends := l.ending_ends
  cases he : l.ending with
  | nil => exact absurd he l.ending_ne
  | cons e es =>
      rw [he] at hends
      have hw : l.write = writeCells l.cells ++ [e] ++ es := by simp [Line.write, he]
      obtain ⟨c, u, hcu, hc⟩ := line_head l [e]
      rw [hw, scan_append, hcu, scan_rowStart k s hs c u hc, ← hcu,
        scan_cells k [] s l.cells l.cells_ne (by simpa using l.fits.trans hcap) e (hends e (by simp))]
      simp only [List.nil_append]
      change (Option.map _ (k.handle s l.row)).bind _ = _
      cases k.handle s l.row with
      | none => rfl
      | some s' => exact scan_lineEnds k s' es (fun d hd => hends d (by simp [hd]))

theorem scan_lines (capacity : Nat) (isLast : Row → Bool) (rows : List Row)
    (hrows : (tracer capacity isLast).stopped rows = false) (ls : List (Line capacity)) :
    scan (tracer capacity isLast) ⟨.rowStart, [], rows⟩ (writeLines ls) =
      some ⟨.rowStart, [], rows ++ takeThrough isLast (ls.map Line.row)⟩ := by
  induction ls generalizing rows with
  | nil => simp [writeLines, takeThrough]
  | cons l ls ih =>
      have hw : writeLines (l :: ls) = l.write ++ writeLines ls := rfl
      have hl := scan_line (tracer capacity isLast) (Nat.le_refl capacity) rows hrows l
      rw [hw, scan_append, hl]
      simp only [tracer, Option.map_some, Option.bind_some, List.map_cons, takeThrough]
      cases hlast : isLast l.row with
      | true =>
          simp only [if_true]
          refine scan_stopped _ _ rfl ?_ _
          exact (tracer_stopped_append capacity isLast rows l.row).trans hlast
      | false =>
          have hn := (tracer_stopped_append capacity isLast rows l.row).trans hlast
          have h := ih (rows ++ [l.row]) hn
          simpa [tracer] using h

theorem nulFree_write {capacity : Nat} (l : Line capacity) : NulFree l.write := by
  have hcell : ∀ x ∈ l.cells, nul ∉ x.write := by
    intro x _ hx
    have hn := x.nulFree
    cases hq : x.quoted with
    | true =>
        simp only [Cell.write, hq, if_true, List.mem_cons, List.mem_append, List.not_mem_nil,
          or_false] at hx
        rcases hx with hx | hx | hx
        · exact absurd hx (by decide)
        · exact hn hx
        · exact absurd hx (by decide)
    | false =>
        simp only [Cell.write, hq, Bool.false_eq_true, if_false] at hx
        exact hn hx
  have hends : nul ∉ l.ending := fun h => absurd (l.ending_ends _ h) (by decide)
  have hcells : ∀ xs : List Cell, (∀ x ∈ xs, nul ∉ x.write) → nul ∉ writeCells xs := by
    intro xs
    induction xs with
    | nil => intro _ h; simp [writeCells] at h
    | cons x xs ih =>
        intro h
        have hx := h x (by simp)
        have hxs := ih (fun y hy => h y (by simp [hy]))
        cases xs with
        | nil => simpa [writeCells] using hx
        | cons y ys =>
            simp only [writeCells, List.mem_append, List.mem_cons, not_or]
            exact ⟨hx, by decide, hxs⟩
  simp only [NulFree, Line.write, List.mem_append, not_or]
  exact ⟨hcells l.cells hcell, hends⟩

theorem trace_writeLines {capacity : Nat} (isLast : Row → Bool) (ls : List (Line capacity)) :
    trace capacity isLast (writeLines ls) =
      some ⟨.rowStart, [], takeThrough isLast (ls.map Line.row)⟩ := by
  have hnul : NulFree (writeLines ls) := by
    simp only [NulFree, writeLines, List.mem_flatMap, not_exists, not_and]
    exact fun l _ => nulFree_write l
  have hscan := scan_lines capacity isLast [] rfl ls
  rw [trace, readText, cstr_of_nulFree hnul, start, hscan]
  simp [finish]

end SchemaCodeGen.CsvWriter
