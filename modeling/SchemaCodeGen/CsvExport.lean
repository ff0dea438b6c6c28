import SchemaCodeGen.CsvWriter

namespace SchemaCodeGen.CsvExport

open CString CsvReader CsvTrace CsvWriter

variable {capacity : Nat} {isLast : Row → Bool}

def escape (t : Text) : Text := t.flatMap fun c => if c = quote then [quote, quote] else [c]

def needsQuotes (t : Text) : Bool := t.any fun c => c == quote || isDelimiter c

def exportCell (t : Text) : Text := if needsQuotes t then quote :: (escape t ++ [quote]) else t

def exportCells : Row → Text
  | [] => []
  | [t] => exportCell t
  | t :: ts => exportCell t ++ ',' :: exportCells ts

structure ExportLine (capacity : Nat) where
  row : Row
  ending : Text
  fits : row.length ≤ capacity
  ending_ne : ending ≠ []
  ending_ends : ∀ c ∈ ending, isLineEnd c = true

def ExportLine.write (l : ExportLine capacity) : Text := exportCells l.row ++ l.ending

def exportText (ls : List (ExportLine capacity)) : Text := ls.flatMap ExportLine.write

def Plain (row : Row) : Prop :=
  row ≠ [] ∧ row ≠ [[]] ∧ ∀ t ∈ row, quote ∉ t ∧ NulFree t

theorem escape_of_quoteFree {t : Text} (h : quote ∉ t) : escape t = t := by
  induction t with
  | nil => rfl
  | cons c t ih =>
      simp only [List.mem_cons, not_or] at h
      have hc : c ≠ quote := Ne.symm h.1
      have hs : escape (c :: t) = c :: escape t := by simp [escape, hc]
      rw [hs, ih h.2]

def plainCell (t : Text) (hq : quote ∉ t) (hn : NulFree t) : Cell where
  quoted := needsQuotes t
  text := t
  quoteFree := hq
  nulFree := hn
  plain := by
    intro h c hc
    simp only [needsQuotes, List.any_eq_false, Bool.or_eq_true, not_or, Bool.not_eq_true] at h
    exact (h c hc).2

theorem plainCell_write (t : Text) (hq : quote ∉ t) (hn : NulFree t) :
    (plainCell t hq hn).write = exportCell t := by
  rw [exportCell, escape_of_quoteFree hq]
  rfl

def plainCells (row : Row) (h : ∀ t ∈ row, quote ∉ t ∧ NulFree t) : List Cell :=
  row.pmap (fun t ht => plainCell t ht.1 ht.2) h

theorem plainCells_text (row : Row) (h : ∀ t ∈ row, quote ∉ t ∧ NulFree t) :
    (plainCells row h).map Cell.text = row := by
  simp [plainCells, List.map_pmap, plainCell]

theorem writeCells_plainCells (row : Row) (h : ∀ t ∈ row, quote ∉ t ∧ NulFree t) :
    writeCells (plainCells row h) = exportCells row := by
  induction row with
  | nil => rfl
  | cons t ts ih =>
      have ht := h t (by simp)
      have hts : ∀ u ∈ ts, quote ∉ u ∧ NulFree u := fun u hu => h u (by simp [hu])
      have hw : plainCells (t :: ts) h = plainCell t ht.1 ht.2 :: plainCells ts hts := rfl
      rw [hw]
      cases ts with
      | nil => exact plainCell_write t ht.1 ht.2
      | cons u us =>
          have hc : ∃ y ys, plainCells (u :: us) hts = y :: ys := ⟨_, _, rfl⟩
          obtain ⟨y, ys, hy⟩ := hc
          have hstep : writeCells (plainCell t ht.1 ht.2 :: y :: ys) =
              (plainCell t ht.1 ht.2).write ++ ',' :: writeCells (y :: ys) := rfl
          rw [hy, hstep, ← hy, ih hts, plainCell_write]
          rfl

/-- A plain row, exported, is a written line. -/
def plainLine (l : ExportLine capacity) (h : Plain l.row) : Line capacity where
  cells := plainCells l.row h.2.2
  ending := l.ending
  cells_ne := by
    intro he
    have := congrArg (List.map Cell.text) he
    rw [plainCells_text] at this
    exact h.1 this
  fits := by simpa [plainCells] using l.fits
  notBlank := by
    intro x hx _ ht
    have := congrArg (List.map Cell.text) hx
    rw [plainCells_text] at this
    exact h.2.1 (by simpa [ht] using this)
  ending_ne := l.ending_ne
  ending_ends := l.ending_ends

theorem plainLine_write (l : ExportLine capacity) (h : Plain l.row) :
    (plainLine l h).write = l.write := by
  simp [Line.write, ExportLine.write, plainLine, writeCells_plainCells]

theorem plainLine_row (l : ExportLine capacity) (h : Plain l.row) :
    (plainLine l h).row = l.row := plainCells_text l.row h.2.2

theorem cstr_append {s t : Text} (h : NulFree s) : cstr (s ++ t) = s ++ cstr t := by
  have hall : ∀ c ∈ s, (c != nul) = true := by
    intro c hc
    have hne : c ≠ nul := fun he => h (he ▸ hc)
    simpa using hne
  exact List.takeWhile_append_of_pos hall

theorem scan_plainLine (rows : List Row) (hrun : (tracer capacity isLast).stopped rows = false)
    (l : ExportLine capacity) (h : Plain l.row) (t : Text) :
    scan (tracer capacity isLast) ⟨.rowStart, [], rows⟩ (cstr (l.write ++ t)) =
      scan (tracer capacity isLast) ⟨.rowStart, [], rows ++ [l.row]⟩ (cstr t) := by
  have hl := scan_line (tracer capacity isLast) (Nat.le_refl capacity) rows hrun (plainLine l h)
  rw [plainLine_write, plainLine_row] at hl
  have hn : NulFree l.write := by
    rw [← plainLine_write l h]
    exact nulFree_write _
  rw [cstr_append hn, scan_append, hl]
  rfl

theorem scan_exportText (rows : List Row) (hrun : (tracer capacity isLast).stopped rows = false)
    (ls : List (ExportLine capacity))
    (h : ∀ row ∈ takeThrough isLast (ls.map ExportLine.row), Plain row) :
    scan (tracer capacity isLast) ⟨.rowStart, [], rows⟩ (cstr (exportText ls)) =
      some ⟨.rowStart, [], rows ++ takeThrough isLast (ls.map ExportLine.row)⟩ := by
  induction ls generalizing rows with
  | nil => simp [exportText, takeThrough, cstr]
  | cons l ls ih =>
      have hw : exportText (l :: ls) = l.write ++ exportText ls := rfl
      simp only [List.map_cons, takeThrough] at h ⊢
      cases hlast : isLast l.row with
      | true =>
          simp only [hlast, if_true, List.mem_singleton, forall_eq] at h
          rw [hw, scan_plainLine rows hrun l h]
          refine scan_stopped _ _ rfl ?_ _
          exact (tracer_stopped_append capacity isLast rows l.row).trans hlast
      | false =>
          simp only [hlast, Bool.false_eq_true, if_false, List.mem_cons, forall_eq_or_imp] at h
          have hn := (tracer_stopped_append capacity isLast rows l.row).trans hlast
          rw [hw, scan_plainLine rows hrun l h.1, ih (rows ++ [l.row]) hn h.2]
          simp

/-- What the reader can hand over as a cell: no terminator, and no quote in front. -/
def Handed (t : Text) : Prop := NulFree t ∧ t.head? ≠ some quote

/-- Every stored and every open cell can be handed over. -/
structure AllHanded (r : Reader (List Row)) : Prop where
  rows : ∀ row ∈ r.client, row ≠ [] ∧ ∀ t ∈ row, Handed t
  argv : ∀ t ∈ r.argv, Handed t
  opened : match r.mode with
    | .rowStart | .cellStart => True
    | .quoted cell | .afterQuote cell => Handed cell
    | .unquoted cell => Handed cell ∧ cell ≠ []

theorem handed_snoc {t : Text} {c : Char} (h : Handed t) (hn : c ≠ nul)
    (hq : t = [] → c ≠ quote) : Handed (t ++ [c]) := by
  refine ⟨?_, ?_⟩
  · simp only [NulFree, List.mem_append, List.mem_singleton, not_or]
    exact ⟨h.1, Ne.symm hn⟩
  · cases t with
    | nil => simpa using hq rfl
    | cons d t => simpa using h.2

theorem handed_nil : Handed [] := by
  refine ⟨?_, ?_⟩ <;> simp [NulFree]

section Handed

variable {r r' : Reader (List Row)}

theorem endCell_handed (h : AllHanded r) {cell : Text} (hc : Handed cell) (c : Char)
    (hstep : endCell (tracer capacity isLast) r cell c = some r') : AllHanded r' := by
  have hrow : ∀ t ∈ r.argv ++ [cell], Handed t := by
    intro t ht
    rcases List.mem_append.mp ht with ht | ht
    · exact h.argv t ht
    · rw [List.mem_singleton.mp ht]
      exact hc
  simp only [endCell, tracer, Option.map_some] at hstep
  split_ifs at hstep
  · obtain rfl := Option.some.inj hstep
    refine ⟨fun row hm => ?_, by simp, trivial⟩
    rcases List.mem_append.mp hm with hm | hm
    · exact h.rows row hm
    · rw [List.mem_singleton.mp hm]
      exact ⟨by simp, hrow⟩
  · obtain rfl := Option.some.inj hstep
    exact ⟨h.rows, hrow, trivial⟩

theorem unquotedStep_handed (h : AllHanded r) {cell : Text} (hc : Handed cell) {c : Char}
    (hn : c ≠ nul) (hq : cell = [] → c ≠ quote)
    (hstep : unquotedStep (tracer capacity isLast) r cell c = some r') : AllHanded r' := by
  rw [unquotedStep] at hstep
  split_ifs at hstep
  · exact endCell_handed h hc c hstep
  · obtain rfl := Option.some.inj hstep
    exact ⟨h.rows, h.argv, handed_snoc hc hn hq, by simp⟩

theorem cellStep_handed (h : AllHanded r) {c : Char} (hn : c ≠ nul)
    (hstep : cellStep (tracer capacity isLast) r c = some r') : AllHanded r' := by
  rw [cellStep] at hstep
  split_ifs at hstep with _ hq
  · obtain rfl := Option.some.inj hstep
    exact ⟨h.rows, h.argv, handed_nil⟩
  · exact unquotedStep_handed h handed_nil hn (fun _ he => hq (by simp [he])) hstep

theorem step_handed (h : AllHanded r) {c : Char} (hn : c ≠ nul)
    (hstep : step (tracer capacity isLast) r c = some r') : AllHanded r' := by
  have hopen := h.opened
  cases hm : r.mode with
  | rowStart =>
      simp only [step, hm] at hstep
      split_ifs at hstep
      · exact Option.some.inj hstep ▸ h
      · exact Option.some.inj hstep ▸ h
      · exact cellStep_handed h hn hstep
  | cellStart =>
      simp only [step, hm] at hstep
      exact cellStep_handed h hn hstep
  | quoted cell =>
      simp only [hm] at hopen
      simp only [step, hm] at hstep
      split_ifs at hstep with hq
      · obtain rfl := Option.some.inj hstep
        exact ⟨h.rows, h.argv, hopen⟩
      · obtain rfl := Option.some.inj hstep
        exact ⟨h.rows, h.argv, handed_snoc hopen hn (fun _ he => hq (by simp [he]))⟩
  | afterQuote cell =>
      simp only [hm] at hopen
      simp only [step, hm] at hstep
      split_ifs at hstep
      · exact endCell_handed h hopen c hstep
      · exact Option.some.inj hstep ▸ h
  | unquoted cell =>
      simp only [hm] at hopen
      simp only [step, hm] at hstep
      exact unquotedStep_handed h hopen.1 hn (fun he => absurd he hopen.2) hstep

theorem scan_handed (h : AllHanded r) (s : Text) (hs : NulFree s)
    (hscan : scan (tracer capacity isLast) r s = some r') : AllHanded r' := by
  induction s generalizing r with
  | nil => exact Option.some.inj hscan ▸ h
  | cons c s ih =>
      simp only [NulFree, List.mem_cons, not_or] at hs
      rw [scan_cons] at hscan
      obtain ⟨q, hq, hscan⟩ := Option.bind_eq_some_iff.mp hscan
      exact ih (step_handed h (Ne.symm hs.1) hq) hs.2 hscan

end Handed

/-- The row being read begins with `pre`, or one that does was the next to be handed over. -/
def Begun (rows : List Row) (pre : Row) (r : Reader (List Row)) : Prop :=
  (r.client = rows ∧
    match r.mode with
    | .rowStart => False
    | .cellStart => pre <+: r.argv
    | .quoted _ | .unquoted _ => pre <+: r.argv
    | .afterQuote cell => pre <+: r.argv ++ [cell]) ∨
  ∃ more tail, r.client = rows ++ (pre ++ more) :: tail

section Begun

variable {r r' : Reader (List Row)} {rows : List Row} {pre : Row}

theorem endCell_begun {cell : Text} (hc : r.client = rows) (hp : pre <+: r.argv ++ [cell]) (c : Char)
    (hstep : endCell (tracer capacity isLast) r cell c = some r') : Begun rows pre r' := by
  simp only [endCell, tracer, Option.map_some] at hstep
  split_ifs at hstep
  · obtain rfl := Option.some.inj hstep
    obtain ⟨more, hm⟩ := hp
    exact .inr ⟨more, [], by simp [hc, hm]⟩
  · obtain rfl := Option.some.inj hstep
    exact .inl ⟨hc, hp⟩

theorem client_extends {c : Char} (hstep : step (tracer capacity isLast) r c = some r') :
    ∃ tail, r'.client = r.client ++ tail := by
  have hend : ∀ cell, endCell (tracer capacity isLast) r cell c = some r' →
      ∃ tail, r'.client = r.client ++ tail := by
    intro cell h
    simp only [endCell, tracer, Option.map_some] at h
    split_ifs at h <;> obtain rfl := Option.some.inj h
    · exact ⟨_, rfl⟩
    · exact ⟨[], by simp⟩
  have hkeep : ∀ m a, some (⟨m, a, r.client⟩ : Reader (List Row)) = some r' →
      ∃ tail, r'.client = r.client ++ tail := by
    intro m a h
    obtain rfl := Option.some.inj h
    exact ⟨[], by simp⟩
  have hunq : ∀ cell, unquotedStep (tracer capacity isLast) r cell c = some r' →
      ∃ tail, r'.client = r.client ++ tail := by
    intro cell h
    rw [unquotedStep] at h
    split_ifs at h
    · exact hend cell h
    · exact hkeep _ _ h
  have hcell : cellStep (tracer capacity isLast) r c = some r' →
      ∃ tail, r'.client = r.client ++ tail := by
    intro h
    rw [cellStep] at h
    split_ifs at h
    · exact hkeep _ _ h
    · exact hunq [] h
  cases hm : r.mode <;> simp only [step, hm] at hstep
  case rowStart =>
    split_ifs at hstep
    · exact hkeep _ _ hstep
    · exact hkeep _ _ hstep
    · exact hcell hstep
  case cellStart => exact hcell hstep
  case quoted cell => split_ifs at hstep <;> exact hkeep _ _ hstep
  case afterQuote cell =>
    split_ifs at hstep
    · exact hend cell hstep
    · exact hkeep _ _ hstep
  case unquoted cell => exact hunq cell hstep

theorem scan_extends (s : Text) (hscan : scan (tracer capacity isLast) r s = some r') :
    ∃ tail, r'.client = r.client ++ tail := by
  induction s generalizing r with
  | nil => exact ⟨[], by simp [Option.some.inj hscan]⟩
  | cons c s ih =>
      rw [scan_cons] at hscan
      obtain ⟨q, hq, hscan⟩ := Option.bind_eq_some_iff.mp hscan
      obtain ⟨t, ht⟩ := client_extends hq
      obtain ⟨u, hu⟩ := ih hscan
      exact ⟨t ++ u, by rw [hu, ht, List.append_assoc]⟩

theorem step_begun (h : Begun rows pre r) {c : Char}
    (hstep : step (tracer capacity isLast) r c = some r') : Begun rows pre r' := by
  rcases h with ⟨hc, hm⟩ | ⟨more, tail, hc⟩
  · have hunq : ∀ cell, pre <+: r.argv → unquotedStep (tracer capacity isLast) r cell c = some r' →
        Begun rows pre r' := by
      intro cell hp h
      rw [unquotedStep] at h
      split_ifs at h
      · exact endCell_begun hc (hp.trans (List.prefix_append _ _)) c h
      · obtain rfl := Option.some.inj h
        exact .inl ⟨hc, hp⟩
    cases hmode : r.mode <;> simp only [hmode] at hm <;> simp only [step, hmode] at hstep
    case cellStart =>
      rw [cellStep] at hstep
      split_ifs at hstep
      · obtain rfl := Option.some.inj hstep
        exact .inl ⟨hc, hm⟩
      · exact hunq [] hm hstep
    case quoted cell =>
      split_ifs at hstep <;> obtain rfl := Option.some.inj hstep
      · exact .inl ⟨hc, hm.trans (List.prefix_append _ _)⟩
      · exact .inl ⟨hc, hm⟩
    case afterQuote cell =>
      split_ifs at hstep
      · exact endCell_begun hc hm c hstep
      · obtain rfl := Option.some.inj hstep
        exact .inl ⟨hc, by simpa only [hmode] using hm⟩
    case unquoted cell => exact hunq cell hm hstep
  · obtain ⟨t, ht⟩ := client_extends hstep
    exact .inr ⟨more, tail ++ t, by simp [ht, hc]⟩

theorem scan_begun (h : Begun rows pre r) (s : Text)
    (hscan : scan (tracer capacity isLast) r s = some r') : Begun rows pre r' := by
  induction s generalizing r with
  | nil => exact Option.some.inj hscan ▸ h
  | cons c s ih =>
      rw [scan_cons] at hscan
      obtain ⟨q, hq, hscan⟩ := Option.bind_eq_some_iff.mp hscan
      exact ih (step_begun h hq) hscan

end Begun

theorem exportCell_head (t : Text) (ht : t ≠ []) :
    ∃ c u, exportCell t = c :: u ∧ isLineEnd c = false := by
  cases hq : needsQuotes t with
  | true => exact ⟨quote, escape t ++ [quote], by simp [exportCell, hq], rfl⟩
  | false =>
      cases t with
      | nil => exact absurd rfl ht
      | cons c u =>
          refine ⟨c, u, by simp [exportCell, hq], ?_⟩
          simp only [needsQuotes, List.any_cons, Bool.or_eq_false_iff, isDelimiter] at hq
          exact hq.1.2.2

theorem exportCells_head (row : Row) (hne : row ≠ []) (hblank : row ≠ [[]]) :
    ∃ c u, exportCells row = c :: u ∧ isLineEnd c = false := by
  cases row with
  | nil => exact absurd rfl hne
  | cons t ts =>
      cases ts with
      | nil => exact exportCell_head t (fun h => hblank (by rw [h]))
      | cons u us =>
          by_cases ht : t = []
          · exact ⟨',', exportCells (u :: us), by simp [exportCells, ht, exportCell, needsQuotes], rfl⟩
          · obtain ⟨c, v, hcv, hc⟩ := exportCell_head t ht
            exact ⟨c, v ++ ',' :: exportCells (u :: us), by simp [exportCells, hcv], hc⟩

theorem scan_quotedCell (isLast : Row → Bool) (rows : List Row) (argv : Row)
    (hfit : argv.length < capacity) (u w : Text) (hu : quote ∉ u) :
    ∃ p s, exportCell (u ++ quote :: w) = p ++ s ∧
      scan (tracer capacity isLast) ⟨.cellStart, argv, rows⟩ p = some ⟨.afterQuote u, argv, rows⟩ := by
  have hneeds : needsQuotes (u ++ quote :: w) = true := by simp [needsQuotes]
  have hesc : escape (u ++ quote :: w) = u ++ quote :: quote :: escape w := by
    have h := escape_of_quoteFree hu
    simp only [escape] at h ⊢
    simp [h]
  refine ⟨quote :: (u ++ [quote]), quote :: (escape w ++ [quote]), ?_, ?_⟩
  · simp [exportCell, hneeds, hesc]
  · have hopen : step (tracer capacity isLast) ⟨.cellStart, argv, rows⟩ quote =
        some ⟨.quoted [], argv, rows⟩ := by simp [step, cellStep, tracer, hfit]
    rw [scan_cons, hopen, Option.bind_some, scan_append, scan_quoted _ _ _ _ u hu, Option.bind_some]
    simp [scan_cons, step]

theorem scan_quotedCells (isLast : Row → Bool) (rows : List Row) (argv pre : Row) (u w : Text)
    (post : Row)
    (hfit : argv.length + pre.length < capacity) (hpre : ∀ t ∈ pre, quote ∉ t ∧ NulFree t)
    (hu : quote ∉ u) :
    ∃ p s, exportCells (pre ++ (u ++ quote :: w) :: post) = p ++ s ∧
      scan (tracer capacity isLast) ⟨.cellStart, argv, rows⟩ p =
        some ⟨.afterQuote u, argv ++ pre, rows⟩ := by
  induction pre generalizing argv with
  | nil =>
      obtain ⟨p, s, hps, hscan⟩ := scan_quotedCell isLast rows argv (by simpa using hfit) u w hu
      cases post with
      | nil => exact ⟨p, s, by simpa [exportCells] using hps, by simpa using hscan⟩
      | cons v vs => exact ⟨p, s ++ ',' :: exportCells (v :: vs), by simp [exportCells, hps], by simpa using hscan⟩
  | cons t ts ih =>
      have ht := hpre t (by simp)
      simp only [List.length_cons] at hfit
      obtain ⟨p, s, hps, hscan⟩ := ih (argv ++ [t])
        (by simp only [List.length_append, List.length_singleton]; omega)
        (fun v hv => hpre v (by simp [hv]))
      have hcell := scan_cell (tracer capacity isLast) argv rows
        (show argv.length < capacity by omega) (plainCell t ht.1 ht.2) ',' rfl
      rw [plainCell_write, endCell_comma] at hcell
      refine ⟨exportCell t ++ [','] ++ p, s, ?_, ?_⟩
      · have hne : ∃ y ys, ts ++ (u ++ quote :: w) :: post = y :: ys := by
          cases ts with
          | nil => exact ⟨_, _, rfl⟩
          | cons y ys => exact ⟨_, _, rfl⟩
        obtain ⟨y, ys, hy⟩ := hne
        rw [hy] at hps
        simp [hy, exportCells, hps]
      · rw [scan_append, hcell, Option.bind_some]
        simpa [plainCell] using hscan

theorem nulFree_exportCell {t : Text} (h : NulFree t) : NulFree (exportCell t) := by
  have hesc : nul ∉ escape t := by
    simp only [escape, List.mem_flatMap, not_exists, not_and]
    intro c hc
    have hne : nul ≠ c := fun he => h (he ▸ hc)
    split_ifs
    · decide
    · simpa using hne
  rw [exportCell]
  split_ifs
  · simp only [NulFree, List.mem_cons, List.mem_append, List.not_mem_nil, or_false, not_or]
    exact ⟨by decide, hesc, by decide⟩
  · exact h

theorem nulFree_exportCells {row : Row} (h : ∀ t ∈ row, NulFree t) : NulFree (exportCells row) := by
  induction row with
  | nil => simp [exportCells, NulFree]
  | cons t ts ih =>
      have ht := nulFree_exportCell (h t (by simp))
      have hts := ih (fun u hu => h u (by simp [hu]))
      cases ts with
      | nil => exact ht
      | cons u us =>
          simp only [NulFree, exportCells, List.mem_append, List.mem_cons, not_or]
          exact ⟨ht, by decide, hts⟩

theorem nulFree_exportLine (l : ExportLine capacity) (h : ∀ t ∈ l.row, NulFree t) :
    NulFree l.write := by
  simp only [NulFree, ExportLine.write, List.mem_append, not_or]
  exact ⟨nulFree_exportCells h, fun hm => absurd (l.ending_ends _ hm) (by decide)⟩

theorem first_quote {row : Row} (h : ∃ t ∈ row, quote ∈ t) :
    ∃ pre u w post, row = pre ++ (u ++ quote :: w) :: post ∧ (∀ t ∈ pre, quote ∉ t) ∧ quote ∉ u := by
  induction row with
  | nil => simp at h
  | cons t ts ih =>
      by_cases ht : quote ∈ t
      · obtain ⟨u, w, rfl, hu⟩ := List.eq_append_cons_of_mem ht
        exact ⟨[], u, w, ts, rfl, by simp, hu⟩
      · have hts : ∃ v ∈ ts, quote ∈ v := by simpa [ht] using h
        obtain ⟨pre, u, w, post, rfl, hpre, hu⟩ := ih hts
        refine ⟨t :: pre, u, w, post, rfl, ?_, hu⟩
        simpa [ht] using hpre

theorem quoted_row_cut (rows : List Row) (hrun : (tracer capacity isLast).stopped rows = false)
    (l : ExportLine capacity) (hnul : ∀ t ∈ l.row, NulFree t) (hq : ∃ t ∈ l.row, quote ∈ t)
    (s : Text) (r : Reader (List Row))
    (hscan : scan (tracer capacity isLast) ⟨.rowStart, [], rows⟩ (cstr (l.write ++ s)) = some r) :
    ∃ pre u w post, l.row = pre ++ (u ++ quote :: w) :: post ∧
      (r.client = rows ∨ ∃ more tail, r.client = rows ++ (pre ++ u :: more) :: tail) := by
  obtain ⟨pre, u, w, post, hrow, hpre, hu⟩ := first_quote hq
  have hblank : l.row ≠ [[]] := by
    intro h
    simp [h] at hq
  have hne : l.row ≠ [] := by simp [hrow]
  have hlen := l.fits
  rw [hrow, List.length_append, List.length_cons] at hlen
  have hfit : ([] : Row).length + pre.length < capacity := by
    simp only [List.length_nil]
    omega
  obtain ⟨p, q, hpq, hp⟩ := scan_quotedCells isLast rows [] pre u w post hfit
    (fun t ht => ⟨hpre t ht, hnul t (by simp [hrow, ht])⟩) hu
  rw [← hrow] at hpq
  obtain ⟨c, v, hcv, hc⟩ := exportCells_head l.row hne hblank
  have htext : cstr (l.write ++ s) = p ++ (q ++ l.ending ++ cstr s) := by
    rw [cstr_append (nulFree_exportLine l hnul), ExportLine.write, hpq]
    simp
  have hfirst : p ++ (q ++ l.ending ++ cstr s) = c :: (v ++ l.ending ++ cstr s) := by
    rw [← List.append_assoc, ← List.append_assoc, ← hpq, hcv]
    simp
  rw [htext, hfirst, scan_rowStart _ rows hrun c _ hc, ← hfirst, scan_append, hp,
    Option.bind_some] at hscan
  have hb : Begun rows (pre ++ [u]) ⟨.afterQuote u, [] ++ pre, rows⟩ := .inl ⟨rfl, by simp⟩
  refine ⟨pre, u, w, post, hrow, ?_⟩
  rcases scan_begun hb _ hscan with ⟨h, _⟩ | ⟨more, tail, h⟩
  · exact .inl h
  · exact .inr ⟨more, tail, by simpa using h⟩

theorem takeThrough_cons (row : Row) (rows : List Row) :
    takeThrough isLast (row :: rows) =
      row :: (if isLast row then [] else takeThrough isLast rows) := by
  rw [takeThrough]
  split_ifs <;> rfl

theorem takeThrough_dropLast {rows : List Row} {row : Row}
    (h : row ∈ (takeThrough isLast rows).dropLast) : isLast row = false := by
  induction rows with
  | nil => simp [takeThrough] at h
  | cons r rows ih =>
      rw [takeThrough_cons] at h
      cases hl : isLast r with
      | true => simp [hl] at h
      | false =>
          rw [hl, if_neg Bool.false_ne_true] at h
          cases ht : takeThrough isLast rows with
          | nil => simp [ht] at h
          | cons _ _ =>
              rw [ht, List.dropLast_cons_of_ne_nil (by simp), List.mem_cons, ← ht] at h
              obtain rfl | h := h
              · exact hl
              · exact ih h

theorem takeThrough_congr {isLast' : Row → Bool} {rows : List Row}
    (h : ∀ row ∈ (takeThrough isLast rows).dropLast, isLast' row = false)
    (himp : ∀ row, isLast row = true → isLast' row = true) :
    takeThrough isLast' rows = takeThrough isLast rows := by
  induction rows with
  | nil => rfl
  | cons row rows ih =>
      rw [takeThrough_cons, takeThrough_cons]
      rw [takeThrough_cons] at h
      cases hl : isLast row with
      | true => simp [himp row hl]
      | false =>
          rw [hl, if_neg Bool.false_ne_true] at h
          cases ht : takeThrough isLast rows with
          | nil =>
              -- There is a row behind this one only if the rows end here.
              cases rows with
              | nil => simp [takeThrough]
              | cons r rs => simp [takeThrough_cons] at ht
          | cons r rs =>
              rw [ht, List.dropLast_cons_of_ne_nil (by simp), List.forall_mem_cons] at h
              rw [h.1, ih (by rw [ht]; exact h.2), ht]

/-- If the handed rows are the exported ones, with `n` blank rows skipped before them,
then no row was skipped and all are plain. -/
theorem plain_of_handed (hlast : isLast [[]] = false) (rows : List Row)
    (hrun : (tracer capacity isLast).stopped rows = false) (ls : List (ExportLine capacity))
    (r : Reader (List Row)) (hr : AllHanded r)
    (hscan : scan (tracer capacity isLast) ⟨.rowStart, [], rows⟩ (cstr (exportText ls)) = some r)
    (n : Nat) (hclient : r.client =
      rows ++ (List.replicate n [[]] ++ takeThrough isLast (ls.map ExportLine.row))) :
    n = 0 ∧ ∀ row ∈ takeThrough isLast (ls.map ExportLine.row), Plain row := by
  induction ls generalizing rows n with
  | nil =>
      obtain rfl : _ = r := Option.some.inj hscan
      have hn : List.replicate n ([[]] : Row) = [] := by simpa [takeThrough] using hclient
      exact ⟨by simpa using hn, by simp [takeThrough]⟩
  | cons l ls ih =>
      have hw : exportText (l :: ls) = l.write ++ exportText ls := rfl
      simp only [List.map_cons] at hclient ⊢
      rw [takeThrough_cons] at hclient ⊢
      have hmem : l.row ∈ r.client := by simp [hclient]
      obtain ⟨hne, hcells⟩ := hr.rows l.row hmem
      rw [hw] at hscan
      by_cases hblank : l.row = [[]]
      · -- A blank line is skipped, so its row can only be a later one.
        have hend : l.write = l.ending := by simp [ExportLine.write, hblank, exportCells, exportCell, needsQuotes]
        have hn : NulFree l.ending := fun hm => absurd (l.ending_ends _ hm) (by decide)
        rw [hend, cstr_append hn, scan_append, scan_lineEnds _ rows _ l.ending_ends,
          Option.bind_some] at hscan
        have h := ih rows hrun hscan (n + 1) (by
          rw [hclient, hblank, hlast, List.replicate_succ', List.append_assoc]
          simp)
        exact absurd h.1 (Nat.succ_ne_zero n)
      · by_cases hq : ∃ t ∈ l.row, quote ∈ t
        · obtain ⟨pre, u, w, post, hrow, hcut⟩ :=
            quoted_row_cut rows hrun l (fun t ht => (hcells t ht).1) hq _ r hscan
          exfalso
          rcases hcut with h | ⟨more, tail, h⟩
          · rw [hclient] at h
            simp at h
          · rw [hclient] at h
            have h := List.append_cancel_left h
            cases n with
            | zero =>
                simp only [List.replicate_zero, List.nil_append, List.cons.injEq] at h
                have h := h.1
                rw [hrow] at h
                have h := (List.cons.inj (List.append_cancel_left h)).1
                simp at h
            | succ n =>
                simp only [List.replicate_succ, List.cons_append, List.cons.injEq] at h
                have hu : pre = [] ∧ u = [] := by
                  cases pre with
                  | nil => exact ⟨rfl, (List.cons.inj h.1).1.symm⟩
                  | cons t ts => simp at h
                have hhead := (hcells (u ++ quote :: w) (by simp [hrow])).2
                simp [hu.2] at hhead
        · have hp : Plain l.row := by
            refine ⟨hne, hblank, fun t ht => ⟨fun h => hq ⟨t, ht, h⟩, (hcells t ht).1⟩⟩
          rw [scan_plainLine rows hrun l hp] at hscan
          obtain ⟨tail, htail⟩ := scan_extends _ hscan
          have hn : n = 0 := by
            cases n with
            | zero => rfl
            | succ n =>
                rw [hclient] at htail
                simp only [List.append_assoc] at htail
                have h := List.append_cancel_left htail
                simp only [List.replicate_succ, List.cons_append, List.nil_append,
                  List.cons.injEq] at h
                exact absurd h.1.symm hblank
          refine ⟨hn, ?_⟩
          subst hn
          cases hl : isLast l.row with
          | true => simpa [hl] using hp
          | false =>
              have hrun' := (tracer_stopped_append capacity isLast rows l.row).trans hl
              have h := ih (rows ++ [l.row]) hrun' hscan 0 (by simp [hclient, hl])
              simpa [hl] using And.intro hp h.2

theorem trace_exportText (hlast : isLast [[]] = false) (ls : List (ExportLine capacity)) :
    (trace capacity isLast (exportText ls)).map Reader.client =
        some (takeThrough isLast (ls.map ExportLine.row)) ↔
      ∀ row ∈ takeThrough isLast (ls.map ExportLine.row), Plain row := by
  constructor
  · intro h
    obtain ⟨r, hr, hclient⟩ := Option.map_eq_some_iff.mp h
    obtain ⟨q, hscan, hfin⟩ := Option.bind_eq_some_iff.mp hr
    obtain rfl := finish_eq_some hfin
    have hstart : AllHanded (start []) := ⟨by simp [start], by simp [start], trivial⟩
    have hall := scan_handed hstart _ (nulFree_cstr _) hscan
    exact (plain_of_handed hlast [] rfl ls r hall hscan 0 (by simpa using hclient)).2
  · intro h
    rw [trace, readText, start, scan_exportText [] rfl ls h]
    simp [finish]

end SchemaCodeGen.CsvExport
