import SchemaCodeGen.CsvReader

namespace SchemaCodeGen.CsvTrace

open CString CsvReader

variable {σ : Type}

/-- The client that only records the rows it is handed, up to the first last one. -/
def tracer (capacity : Nat) (isLast : Row → Bool) : Client (List Row) where
  capacity := capacity
  handle rows row := some (rows ++ [row])
  stopped rows := rows.getLast?.any isLast

def trace (capacity : Nat) (isLast : Row → Bool) (s : Text) : Option (Reader (List Row)) :=
  readText (tracer capacity isLast) s []

/-- The state of a client that has handled the recorded rows one by one. -/
def replay (k : Client σ) (init : σ) (r : Reader (List Row)) : Option (Reader σ) :=
  (r.client.foldlM k.handle init).map (fun s => ⟨r.mode, r.argv, s⟩)

/-- A client that stops exactly at the rows `isLast` names. -/
def StopsAt (k : Client σ) (isLast : Row → Bool) : Prop :=
  ∀ s row s', k.stopped s = false → k.handle s row = some s' → k.stopped s' = isLast row

structure InStep (k : Client σ) (isLast : Row → Bool) (init : σ) (r : Reader (List Row)) : Prop where
  agree : ∀ s, r.client.foldlM k.handle init = some s →
    k.stopped s = (tracer k.capacity isLast).stopped r.client
  parked : (tracer k.capacity isLast).stopped r.client = true → r.mode = .rowStart

theorem tracer_stopped_append (capacity : Nat) (isLast : Row → Bool) (rows : List Row) (row : Row) :
    (tracer capacity isLast).stopped (rows ++ [row]) = isLast row := by
  simp [tracer]

theorem foldlM_snoc (k : Client σ) (init : σ) (rows : List Row) (row : Row) :
    (rows ++ [row]).foldlM k.handle init =
      (rows.foldlM k.handle init).bind (fun s => k.handle s row) := by
  simp only [List.foldlM_append, List.foldlM_cons, List.foldlM_nil, bind_pure]
  rfl

section Step

variable {k : Client σ} {isLast : Row → Bool} {init : σ} {r : Reader (List Row)}

theorem endCell_replay (hk : StopsAt k isLast) (h : InStep k isLast init r)
    (hrun : (tracer k.capacity isLast).stopped r.client = false) (cell : Text) (c : Char) :
    (replay k init r).bind (fun q => endCell k q cell c) =
        (endCell (tracer k.capacity isLast) r cell c).bind (replay k init) ∧
      ∀ r', endCell (tracer k.capacity isLast) r cell c = some r' → InStep k isLast init r' := by
  obtain ⟨mode, argv, rows⟩ := r
  by_cases hc : isLineEnd c = true
  · have htrace : endCell (tracer k.capacity isLast) ⟨mode, argv, rows⟩ cell c =
        some ⟨.rowStart, [], rows ++ [argv ++ [cell]]⟩ := by simp [endCell, hc, tracer]
    rw [htrace]
    refine ⟨?_, ?_⟩
    · simp only [replay, Option.bind_some, foldlM_snoc]
      cases rows.foldlM k.handle init with
      | none => rfl
      | some s => simp [endCell, hc]
    · rintro _ ⟨rfl⟩
      refine ⟨fun s hs => ?_, fun _ => rfl⟩
      rw [foldlM_snoc] at hs
      obtain ⟨s₀, hs₀, hh⟩ := Option.bind_eq_some_iff.mp hs
      have hstop : k.stopped s₀ = false := (h.agree s₀ hs₀).trans hrun
      rw [tracer_stopped_append, hk s₀ _ s hstop hh]
  · have htrace : endCell (tracer k.capacity isLast) ⟨mode, argv, rows⟩ cell c =
        some ⟨.cellStart, argv ++ [cell], rows⟩ := by simp [endCell, hc]
    rw [htrace]
    refine ⟨?_, ?_⟩
    · simp only [replay, Option.bind_some]
      cases rows.foldlM k.handle init <;> simp [endCell, hc]
    · rintro _ ⟨rfl⟩
      exact ⟨h.agree, fun hs => absurd hs (by simp [hrun])⟩

theorem setMode_inStep (h : InStep k isLast init r)
    (hrun : (tracer k.capacity isLast).stopped r.client = false) (m : Mode) :
    InStep k isLast init { r with mode := m } :=
  ⟨h.agree, fun hs => absurd hs (by simp [hrun])⟩

theorem unquotedStep_replay (hk : StopsAt k isLast) (h : InStep k isLast init r)
    (hrun : (tracer k.capacity isLast).stopped r.client = false) (cell : Text) (c : Char) :
    (replay k init r).bind (fun q => unquotedStep k q cell c) =
        (unquotedStep (tracer k.capacity isLast) r cell c).bind (replay k init) ∧
      ∀ r', unquotedStep (tracer k.capacity isLast) r cell c = some r' → InStep k isLast init r' := by
  by_cases hd : isDelimiter c = true
  · simpa only [unquotedStep, hd, if_true] using endCell_replay hk h hrun cell c
  · simp only [unquotedStep, hd, Bool.false_eq_true, if_false, Option.bind_some]
    refine ⟨?_, ?_⟩
    · simp only [replay]
      cases r.client.foldlM k.handle init <;> rfl
    · rintro _ ⟨rfl⟩
      exact setMode_inStep h hrun _

theorem cellStep_replay (hk : StopsAt k isLast) (h : InStep k isLast init r)
    (hrun : (tracer k.capacity isLast).stopped r.client = false) (c : Char) :
    (replay k init r).bind (fun q => cellStep k q c) =
        (cellStep (tracer k.capacity isLast) r c).bind (replay k init) ∧
      ∀ r', cellStep (tracer k.capacity isLast) r c = some r' → InStep k isLast init r' := by
  have hcap : (tracer k.capacity isLast).capacity = k.capacity := rfl
  by_cases hc : r.argv.length < k.capacity
  · by_cases hq : (c == quote) = true
    · simp only [cellStep, hcap, hc, hq, if_true, Option.bind_some]
      refine ⟨?_, ?_⟩
      · simp only [replay]
        cases r.client.foldlM k.handle init <;> simp [hc]
      · rintro _ ⟨rfl⟩
        exact setMode_inStep h hrun _
    · have hu := unquotedStep_replay hk h hrun [] c
      simp only [cellStep, hcap, hc, hq, Bool.false_eq_true, if_true, if_false]
      refine ⟨?_, hu.2⟩
      rw [← hu.1]
      simp only [replay]
      cases r.client.foldlM k.handle init <;> simp [hc]
  · simp only [cellStep, hcap, hc, if_false, Option.bind_none, reduceCtorEq, false_implies,
      implies_true, and_true]
    simp only [replay]
    cases r.client.foldlM k.handle init <;> simp [hc]

/-- One character moves the client and the recorded rows alike. -/
theorem step_replay (hk : StopsAt k isLast) (h : InStep k isLast init r) (c : Char) :
    (replay k init r).bind (fun q => step k q c) =
        (step (tracer k.capacity isLast) r c).bind (replay k init) ∧
      ∀ r', step (tracer k.capacity isLast) r c = some r' → InStep k isLast init r' := by
  by_cases hrun : (tracer k.capacity isLast).stopped r.client = true
  · have hm := h.parked hrun
    have htrace : step (tracer k.capacity isLast) r c = some r := by simp [step, hm, hrun]
    rw [htrace]
    refine ⟨?_, by rintro _ ⟨rfl⟩; exact h⟩
    simp only [replay, Option.bind_some]
    cases hf : r.client.foldlM k.handle init with
    | none => rfl
    | some s =>
        have hs : k.stopped s = true := (h.agree s hf).trans hrun
        simp [step, hm, hs]
  · have hrun : (tracer k.capacity isLast).stopped r.client = false := by simpa using hrun
    have hreplay : ∀ f g : Reader σ → Option (Reader σ),
        (∀ s, r.client.foldlM k.handle init = some s →
          f ⟨r.mode, r.argv, s⟩ = g ⟨r.mode, r.argv, s⟩) →
        (replay k init r).bind f = (replay k init r).bind g := by
      intro f g hfg
      simp only [replay]
      cases hf : r.client.foldlM k.handle init with
      | none => rfl
      | some s => exact hfg s hf
    cases hm : r.mode with
    | rowStart =>
        by_cases hl : isLineEnd c = true
        · simp only [step, hm, hrun, hl, Bool.false_eq_true, if_true, if_false, Option.bind_some]
          refine ⟨?_, by rintro _ ⟨rfl⟩; exact h⟩
          rw [hreplay _ some fun s hs => by
            have hs : k.stopped s = false := (h.agree s hs).trans hrun
            simp [hm, hs]]
          simp
        · have hc := cellStep_replay hk h hrun c
          simp only [step, hm, hrun, hl, Bool.false_eq_true, if_false]
          refine ⟨?_, hc.2⟩
          rw [← hc.1]
          apply hreplay _ _
          intro s hs
          have hs : k.stopped s = false := (h.agree s hs).trans hrun
          simp [hm, hs]
    | cellStart =>
        have hc := cellStep_replay hk h hrun c
        simp only [step, hm]
        refine ⟨?_, hc.2⟩
        rw [← hc.1]
        exact hreplay _ _ fun s _ => by simp [hm]
    | quoted cell =>
        by_cases hq : (c == quote) = true
        all_goals
          simp only [step, hm, hq, Bool.false_eq_true, if_true, if_false, Option.bind_some]
          refine ⟨?_, by rintro _ ⟨rfl⟩; exact setMode_inStep h hrun _⟩
          simp only [replay]
          cases r.client.foldlM k.handle init <;> simp [hm]
    | afterQuote cell =>
        by_cases hd : isDelimiter c = true
        · have he := endCell_replay hk h hrun cell c
          simp only [step, hm, hd, if_true]
          refine ⟨?_, he.2⟩
          rw [← he.1]
          exact hreplay _ _ fun s _ => by simp [hm]
        · simp only [step, hm, hd, Bool.false_eq_true, if_false, Option.bind_some]
          refine ⟨?_, by rintro _ ⟨rfl⟩; exact h⟩
          rw [hreplay _ some fun s _ => by simp [hm]]
          simp
    | unquoted cell =>
        have hu := unquotedStep_replay hk h hrun cell c
        simp only [step, hm]
        refine ⟨?_, hu.2⟩
        rw [← hu.1]
        exact hreplay _ _ fun s _ => by simp [hm]

theorem scan_replay (hk : StopsAt k isLast) (h : InStep k isLast init r) (s : Text) :
    (replay k init r).bind (fun q => scan k q s) =
      (scan (tracer k.capacity isLast) r s).bind (replay k init) := by
  induction s generalizing r with
  | nil =>
      simp only [scan_nil, Option.bind_some]
      cases replay k init r <;> rfl
  | cons c s ih =>
      obtain ⟨hstep, hin⟩ := step_replay hk h c
      simp only [scan_cons, ← Option.bind_assoc]
      rw [hstep]
      cases hs : step (tracer k.capacity isLast) r c with
      | none => rfl
      | some r' => exact ih (hin r' hs)

theorem scan_inStep (hk : StopsAt k isLast) (h : InStep k isLast init r) (s : Text)
    {r' : Reader (List Row)} (hscan : scan (tracer k.capacity isLast) r s = some r') :
    InStep k isLast init r' := by
  induction s generalizing r with
  | nil => exact Option.some.inj hscan ▸ h
  | cons c s ih =>
      rw [scan_cons] at hscan
      obtain ⟨q, hq, hscan⟩ := Option.bind_eq_some_iff.mp hscan
      exact ih ((step_replay hk h c).2 q hq) hscan

theorem inStep_start (hinit : k.stopped init = false) : InStep k isLast init (start []) := by
  refine ⟨fun s hs => ?_, fun _ => rfl⟩
  obtain rfl : init = s := Option.some.inj hs
  simpa [tracer, start] using hinit

theorem finish_eq_some {q : Reader σ} {p : Reader σ} (h : finish k q = some p) : p = q := by
  rw [finish] at h
  split at h
  · split_ifs at h
    exact (Option.some.inj h).symm
  · exact (Option.some.inj h).symm

theorem trace_inStep (hk : StopsAt k isLast) (hinit : k.stopped init = false) {s : Text}
    (h : trace k.capacity isLast s = some r) : InStep k isLast init r := by
  obtain ⟨q, hscan, hfin⟩ := Option.bind_eq_some_iff.mp h
  rw [finish_eq_some hfin]
  exact scan_inStep hk (inStep_start hinit) _ hscan

theorem finish_replay (k : Client σ) (isLast : Row → Bool) (init : σ) (r : Reader (List Row)) :
    (replay k init r).bind (finish k) =
      (finish (tracer k.capacity isLast) r).bind (replay k init) := by
  have hcap : (tracer k.capacity isLast).capacity = k.capacity := rfl
  obtain ⟨mode, argv, rows⟩ := r
  cases hf : rows.foldlM k.handle init with
  | none =>
      by_cases hc : argv.length < k.capacity <;> cases mode <;> simp [replay, finish, hf, hcap, hc]
  | some s =>
      by_cases hc : argv.length < k.capacity <;> cases mode <;> simp [replay, finish, hf, hcap, hc]

end Step

theorem readText_eq_replay (k : Client σ) (isLast : Row → Bool) (hk : StopsAt k isLast)
    (init : σ) (hinit : k.stopped init = false) (s : Text) :
    readText k s init = (trace k.capacity isLast s).bind (replay k init) := by
  have hscan := scan_replay hk (inStep_start hinit) (cstr s)
  have hstart : replay k init (start []) = some (start init) := rfl
  rw [hstart, Option.bind_some] at hscan
  rw [readText, trace, readText, hscan, Option.bind_assoc, Option.bind_assoc]
  congr 1
  funext r
  exact finish_replay k isLast init r

theorem tracer_stopsAt (capacity : Nat) (isLast : Row → Bool) :
    StopsAt (tracer capacity isLast) isLast := by
  intro rows row rows' _ h
  obtain rfl := Option.some.inj h
  exact tracer_stopped_append capacity isLast rows row

/-- Only a line end hands a row over, one at a time. -/
theorem step_client {capacity : Nat} {isLast : Row → Bool} {r r' : Reader (List Row)} {c : Char}
    (h : step (tracer capacity isLast) r c = some r') :
    r'.client = r.client ∨ ∃ row, r'.client = r.client ++ [row] := by
  have hend : ∀ cell, endCell (tracer capacity isLast) r cell c = some r' →
      r'.client = r.client ∨ ∃ row, r'.client = r.client ++ [row] := by
    intro cell h
    rw [endCell] at h
    split_ifs at h
    · obtain rfl := Option.some.inj h
      exact Or.inr ⟨_, rfl⟩
    · obtain rfl := Option.some.inj h
      exact Or.inl rfl
  have hun : ∀ cell, unquotedStep (tracer capacity isLast) r cell c = some r' →
      r'.client = r.client ∨ ∃ row, r'.client = r.client ++ [row] := by
    intro cell h
    rw [unquotedStep] at h
    split_ifs at h
    · exact hend cell h
    · obtain rfl := Option.some.inj h
      exact Or.inl rfl
  have hcell : cellStep (tracer capacity isLast) r c = some r' →
      r'.client = r.client ∨ ∃ row, r'.client = r.client ++ [row] := by
    intro h
    rw [cellStep] at h
    split_ifs at h
    · obtain rfl := Option.some.inj h
      exact Or.inl rfl
    · exact hun [] h
  rw [step] at h
  cases hm : r.mode with
  | rowStart =>
      simp only [hm] at h
      split_ifs at h
      · exact Or.inl (by rw [Option.some.inj h])
      · exact Or.inl (by rw [Option.some.inj h])
      · exact hcell h
  | cellStart => exact hcell (by simpa [hm] using h)
  | quoted cell =>
      simp only [hm] at h
      split_ifs at h <;> exact Or.inl (by rw [← Option.some.inj h])
  | afterQuote cell =>
      simp only [hm] at h
      split_ifs at h
      · exact hend cell h
      · exact Or.inl (by rw [Option.some.inj h])
  | unquoted cell => exact hun cell (by simpa [hm] using h)

/-- No row is handed over behind a last one. -/
theorem trace_dropLast {capacity : Nat} {isLast : Row → Bool} {s : Text} {r : Reader (List Row)}
    (h : trace capacity isLast s = some r) : ∀ row ∈ r.client.dropLast, isLast row = false := by
  have hk := tracer_stopsAt capacity isLast
  have hrun : ∀ (s : Text) (r r' : Reader (List Row)),
      InStep (tracer capacity isLast) isLast [] r →
      (∀ row ∈ r.client.dropLast, isLast row = false) →
      scan (tracer capacity isLast) r s = some r' →
      ∀ row ∈ r'.client.dropLast, isLast row = false := by
    intro s
    induction s with
    | nil =>
        intro r r' _ hr h
        exact Option.some.inj h ▸ hr
    | cons c s ih =>
        intro r r' hin hr h
        rw [scan_cons] at h
        obtain ⟨q, hq, h⟩ := Option.bind_eq_some_iff.mp h
        refine ih q r' ((step_replay hk hin c).2 q hq) ?_ h
        by_cases hstop : (tracer capacity isLast).stopped r.client = true
        · have hm := hin.parked hstop
          have hself : step (tracer capacity isLast) r c = some r := by simp [step, hm, hstop]
          obtain rfl : r = q := Option.some.inj (hself.symm.trans hq)
          exact hr
        · obtain hc | ⟨row, hc⟩ := step_client hq
          · rwa [hc]
          · rw [hc, List.dropLast_concat]
            cases hg : r.client.getLast? with
            | none => simp [List.getLast?_eq_none_iff.mp hg]
            | some l =>
                obtain ⟨rows, hrows⟩ := List.getLast?_eq_some_iff.mp hg
                have hl : isLast l = false := by simpa [tracer, hg] using hstop
                rw [hrows, List.dropLast_concat] at hr
                rw [hrows, List.forall_mem_append]
                exact ⟨hr, by simpa using hl⟩
  obtain ⟨q, hscan, hfin⟩ := Option.bind_eq_some_iff.mp h
  rw [finish_eq_some hfin]
  exact hrun _ _ _ (inStep_start rfl) (by simp [start]) hscan

/-- The row a line end after the text would close. Text behind a terminator is never read. -/
def unfinished (capacity : Nat) (isLast : Row → Bool) (s : Text) : Option Row :=
  if nul ∈ s then none else (trace capacity isLast s).bind openRow

theorem cstr_append_of_mem {s t : Text} (h : nul ∈ s) : cstr (s ++ t) = cstr s := by
  induction s with
  | nil => simp at h
  | cons c s ih =>
      by_cases hc : c = nul
      · simp [cstr, hc]
      · have hs : nul ∈ s := (List.mem_cons.mp h).resolve_left (Ne.symm hc)
        have ih := ih hs
        simp only [cstr, List.cons_append] at ih ⊢
        simp [hc, ih]

theorem trace_append_lf (capacity : Nat) (isLast : Row → Bool) (s : Text) :
    (trace capacity isLast (s ++ [lf])).map Reader.client =
      (trace capacity isLast s).map fun r => r.client ++ (unfinished capacity isLast s).toList := by
  by_cases hn : nul ∈ s
  · have htext : cstr (s ++ [lf]) = cstr s := cstr_append_of_mem hn
    simp [trace, readText, htext, unfinished, hn]
  · have htext : cstr (s ++ [lf]) = s ++ [lf] := cstr_of_nulFree (by
      simp only [NulFree, List.mem_append, not_or]
      exact ⟨hn, by decide⟩)
    have hscan : trace capacity isLast (s ++ [lf]) =
        (scan (tracer capacity isLast) (start []) s).bind fun r =>
          (step (tracer capacity isLast) r lf).bind (finish (tracer capacity isLast)) := by
      rw [trace, readText, htext, scan_append, Option.bind_assoc]
      congr 1
      funext r
      rw [scan_cons, Option.bind_assoc]
      simp
    have htrace : trace capacity isLast s =
        (scan (tracer capacity isLast) (start []) s).bind (finish (tracer capacity isLast)) := by
      rw [trace, readText, cstr_of_nulFree hn]
    rw [hscan, unfinished, if_neg hn, htrace]
    cases scan (tracer capacity isLast) (start []) s with
    | none => rfl
    | some r =>
        simp only [Option.bind_some, finish_step_lf]
        cases hf : finish (tracer capacity isLast) r with
        | none => cases openRow r <;> rfl
        | some q =>
            obtain rfl := finish_eq_some hf
            cases ho : openRow q with
            | none => cases hm : q.mode <;> simp [ho, hm]
            | some row => simp [ho, tracer]

end SchemaCodeGen.CsvTrace
