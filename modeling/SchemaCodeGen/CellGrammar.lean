import SchemaCodeGen.CsvReader

namespace SchemaCodeGen.CellGrammar

open CString CsvReader

def notDelimiter (c : Char) : Bool := !isDelimiter c

def notQuote (c : Char) : Bool := c != quote

/-- The first cell of a text, and what is left from its delimiter on. What stands between a
closing quote and the delimiter is lost. -/
def cutCell : Text → Text × Text
  | [] => ([], [])
  | c :: t =>
      if c = quote then
        (t.takeWhile notQuote, ((t.dropWhile notQuote).drop 1).dropWhile notDelimiter)
      else ((c :: t).takeWhile notDelimiter, (c :: t).dropWhile notDelimiter)

theorem length_dropWhile_le (p : Char → Bool) (s : Text) : (s.dropWhile p).length ≤ s.length :=
  (List.dropWhile_sublist p).length_le

theorem length_cutCell_le (s : Text) : (cutCell s).2.length ≤ s.length := by
  cases s with
  | nil => exact le_rfl
  | cons c t =>
      rw [cutCell]
      split_ifs
      · have hrest := length_dropWhile_le notDelimiter ((t.dropWhile notQuote).drop 1)
        have hcell := length_dropWhile_le notQuote t
        rw [List.length_drop] at hrest
        simp only [List.length_cons]
        omega
      · exact length_dropWhile_le notDelimiter (c :: t)

/-- The cells of the first row of a text, and what is left from its line end on. -/
def cutRow (s : Text) : Row × Text :=
  match _ : (cutCell s).2 with
  | ',' :: t => ((cutCell s).1 :: (cutRow t).1, (cutRow t).2)
  | rest => ([(cutCell s).1], rest)
termination_by s.length
decreasing_by
  all_goals
    rename_i h
    have hle := length_cutCell_le s
    rw [h, List.length_cons] at hle
    omega

theorem cutRow_comma {s t : Text} (h : (cutCell s).2 = ',' :: t) :
    cutRow s = ((cutCell s).1 :: (cutRow t).1, (cutRow t).2) := by
  rw [cutRow]
  split
  · rename_i t' h'
    obtain rfl := (List.cons.inj (h.symm.trans h')).2
    rfl
  · rename_i hne
    exact absurd h (hne t)

theorem cutRow_last {s : Text} (h : (cutCell s).2.head? ≠ some ',') :
    cutRow s = ([(cutCell s).1], (cutCell s).2) := by
  rw [cutRow]
  split
  · rename_i t h'
    exact absurd (by rw [h']; rfl) h
  · rfl

theorem length_cutRow_le (s : Text) : (cutRow s).2.length ≤ s.length := by
  induction hn : s.length using Nat.strong_induction_on generalizing s with
  | _ n ih =>
      have hle := length_cutCell_le s
      by_cases hcomma : (cutCell s).2.head? = some ','
      · obtain ⟨t, ht⟩ := List.head?_eq_some_iff.mp hcomma
        rw [ht, List.length_cons] at hle
        have hrest := ih t.length (by omega) t rfl
        rw [cutRow_comma ht]
        dsimp only
        omega
      · rw [cutRow_last hcomma]
        dsimp only
        omega

/-- The rows of a text. Line ends in front of a row are skipped, and the last row needs none. -/
def rows (s : Text) : List Row :=
  match _ : s.dropWhile isLineEnd with
  | [] => []
  | c :: t => (cutRow (c :: t)).1 :: rows ((cutRow (c :: t)).2.drop 1)
termination_by s.length
decreasing_by
  rename_i h
  have hle := length_dropWhile_le isLineEnd s
  have hrow := length_cutRow_le (c :: t)
  rw [h, List.length_cons] at hle
  rw [List.length_cons] at hrow
  rw [List.length_drop]
  omega

theorem rows_nil : rows [] = [] := by
  rw [rows]
  rfl

theorem rows_lineEnd {c : Char} (hc : isLineEnd c = true) (t : Text) : rows (c :: t) = rows t := by
  rw [rows, rows.eq_def t, List.dropWhile_cons_of_pos hc]

theorem rows_cell {c : Char} (hc : isLineEnd c = false) (t : Text) :
    rows (c :: t) = (cutRow (c :: t)).1 :: rows ((cutRow (c :: t)).2.drop 1) := by
  have hkeep : (c :: t).dropWhile isLineEnd = c :: t := List.dropWhile_cons_of_neg (by simp [hc])
  rw [rows]
  split
  · rename_i h
    rw [hkeep] at h
    exact absurd h (by simp)
  · rename_i c' t' h
    rw [hkeep] at h
    obtain ⟨rfl, rfl⟩ := List.cons.inj h
    rfl

theorem cutRow_ne_nil (s : Text) : (cutRow s).1 ≠ [] := by
  by_cases hcomma : (cutCell s).2.head? = some ','
  · obtain ⟨t, ht⟩ := List.head?_eq_some_iff.mp hcomma
    rw [cutRow_comma ht]
    exact List.cons_ne_nil _ _
  · rw [cutRow_last hcomma]
    exact List.cons_ne_nil _ _

def rowFrom (argv : Row) (s : Text) : List Row :=
  (argv ++ (cutRow s).1) :: rows ((cutRow s).2.drop 1)

/-- The same when the next cell is known and its delimiter is the first character. -/
def closeCell (argv : Row) (cell : Text) : Text → List Row
  | ',' :: t => rowFrom (argv ++ [cell]) t
  | rest => (argv ++ [cell]) :: rows (rest.drop 1)

theorem closeCell_last (argv : Row) (cell : Text) {rest : Text} (h : rest.head? ≠ some ',') :
    closeCell argv cell rest = (argv ++ [cell]) :: rows (rest.drop 1) := by
  rw [closeCell.eq_def]
  split
  · exact absurd rfl h
  · rfl

theorem rowFrom_eq (argv : Row) (s : Text) :
    rowFrom argv s = closeCell argv (cutCell s).1 (cutCell s).2 := by
  by_cases hcomma : (cutCell s).2.head? = some ','
  · obtain ⟨t, ht⟩ := List.head?_eq_some_iff.mp hcomma
    rw [ht, closeCell, rowFrom, rowFrom, cutRow_comma ht, List.append_assoc]
    rfl
  · rw [closeCell_last _ _ hcomma, rowFrom, cutRow_last hcomma]

example : rows "a,\"b,c\"d\n\n,e".toList = ["a", "b,c"].map String.toList :: [["", "e"].map String.toList] := by
  decide +kernel

end SchemaCodeGen.CellGrammar
