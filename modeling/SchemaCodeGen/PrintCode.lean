import SchemaCodeGen.Printer
import Mathlib.Algebra.Group.Nat.Defs
import Mathlib.Data.List.DropRight

namespace SchemaCodeGen.PrintCode

open CString Printer

/-- What a reader sees of a buffer of some size that a text was formatted into. -/
def vsnprintf (size : Nat) (text : Text) : Text := text.take (size - 1)

def doPrintf (cp : CodePrinter) (text : Text) : CodePrinter :=
  { cp with mOutput := cp.mOutput ++ vsnprintf 8192 text }

def repeatPrintf (text : Text) : Nat → CodePrinter → CodePrinter
  | 0, cp => cp
  | n + 1, cp => repeatPrintf text n (doPrintf cp text)

def indentLocation (indent : Nat) : Nat := indent * 4 % 2 ^ 32

/-- The blanks in front of an indented text. -/
def pad (cp : CodePrinter) (indent : Nat) : CodePrinter :=
  if indent = 0 then cp
  else
    let currentPos := doTell cp - cp.mLastLineFeed
    if currentPos < indentLocation indent then
      let nextTab := currentPos % 4
      let cp := repeatPrintf " ".toList nextTab cp
      let currentPos := currentPos + nextTab
      if currentPos < indentLocation indent then
        let tabCount := (indentLocation indent - currentPos) / 4
        repeatPrintf "    ".toList tabCount cp
      else cp
    else doPrintf cp " ".toList

def printCode (cp : CodePrinter) (indent : Nat) (text : Text) : CodePrinter :=
  let buffer := vsnprintf 4096 text
  let cp := doPrintf (pad cp indent) buffer
  if '\n' ∈ buffer then { cp with mLastLineFeed := doTell cp } else cp

/-- The printer after some calls, each with an indent and the formatted text. -/
def printCalls (cp : CodePrinter) (calls : List (Nat × Text)) : CodePrinter :=
  calls.foldl (fun cp c => printCode cp c.1 c.2) cp

def blanks (indent currentPos : Nat) : Nat :=
  if indent = 0 then 0
  else if currentPos < indentLocation indent then
    currentPos % 4 + (indentLocation indent - (currentPos + currentPos % 4)) / 4 * 4
  else 1

def spaces (n : Nat) : Text := List.replicate n ' '

/-- The complete texts of calls, each behind the blanks that the printer puts in front of it. -/
def completeText : CodePrinter → List (Nat × Text) → Text
  | _, [] => []
  | cp, c :: calls =>
      spaces (blanks c.1 (currentPos cp)) ++ c.2 ++ completeText (printCode cp c.1 c.2) calls

/-- The number of characters behind the last line feed. -/
def column (output : Text) : Nat := (output.rtakeWhile (· != '\n')).length

/-- The text of a call begins at the column of its indent, or behind one blank when the output
is there already. -/
def ReachesColumn (cp : CodePrinter) (indent : Nat) (text : Text) : Prop :=
  (printCode cp indent text).mOutput =
    cp.mOutput ++ spaces
        (if column cp.mOutput < 4 * indent then 4 * indent - column cp.mOutput else 1) ++
      vsnprintf 4096 text

/-- The column that the printer keeps leads to the right one. It is counted from the end of
the last text with a line feed in it. -/
def InStep (kept real indent : Nat) : Prop :=
  let location := indentLocation indent
  if location ≤ kept then 4 * indent ≤ real + 1
  else if kept % 2 = 0 then real + location = 4 * indent + kept
  else if kept + 3 = location then 4 * indent ≤ real + 1
  else if kept + 1 = location then real + 3 = 4 * indent
  else real + location = 4 * indent + kept + 2

instance (kept real indent : Nat) : Decidable (InStep kept real indent) := by
  unfold InStep
  infer_instance

@[simp] theorem vsnprintf_of_short {size : Nat} {text : Text} (h : text.length < size) :
    vsnprintf size text = text := by
  rw [vsnprintf, List.take_of_length_le (by omega)]

theorem length_vsnprintf (size : Nat) (text : Text) :
    (vsnprintf size text).length = min (size - 1) text.length := by
  rw [vsnprintf, List.length_take]

@[simp] theorem spaces_zero : spaces 0 = [] := rfl

@[simp] theorem length_spaces (n : Nat) : (spaces n).length = n := by
  rw [spaces, List.length_replicate]

theorem spaces_add (m n : Nat) : spaces (m + n) = spaces m ++ spaces n := by
  rw [spaces, spaces, spaces, List.replicate_append_replicate]

theorem repeatPrintf_spaces (width : Nat) (hwidth : width < 8192) (n : Nat) (cp : CodePrinter) :
    repeatPrintf (spaces width) n cp = { cp with mOutput := cp.mOutput ++ spaces (n * width) } := by
  induction n generalizing cp with
  | zero => simp [repeatPrintf]
  | succ n ih =>
      rw [repeatPrintf, ih, doPrintf, vsnprintf_of_short (by simpa using hwidth)]
      simp only [List.append_assoc, ← spaces_add]
      rw [Nat.succ_mul, Nat.add_comm]

theorem pad_eq (cp : CodePrinter) (indent : Nat) :
    pad cp indent = { cp with mOutput := cp.mOutput ++ spaces (blanks indent (currentPos cp)) } := by
  have hone : " ".toList = spaces 1 := rfl
  have htab : "    ".toList = spaces 4 := rfl
  have hcurrent : doTell cp - cp.mLastLineFeed = currentPos cp := rfl
  simp only [pad, blanks, hcurrent, hone, htab, repeatPrintf_spaces 1 (by decide),
    repeatPrintf_spaces 4 (by decide)]
  split_ifs with hindent hbefore htabs
  · simp
  · rw [Nat.mul_one, List.append_assoc, ← spaces_add]
  · rw [Nat.sub_eq_zero_of_le (not_lt.mp htabs), Nat.zero_div, Nat.zero_mul, Nat.mul_one,
      Nat.add_zero]
  · rw [doPrintf, vsnprintf_of_short (by decide)]

theorem printCode_mOutput (cp : CodePrinter) (indent : Nat) (text : Text) :
    (printCode cp indent text).mOutput =
      cp.mOutput ++ spaces (blanks indent (currentPos cp)) ++ vsnprintf 4096 text := by
  have hbuffer : (vsnprintf 4096 text).length < 8192 := by
    rw [length_vsnprintf]
    omega
  rw [printCode, pad_eq]
  dsimp only [doPrintf]
  rw [vsnprintf_of_short hbuffer]
  split_ifs <;> rfl

theorem printCode_eq (cp : CodePrinter) {indent : Nat} (h : indent < 2 ^ 30) (text : Text) :
    printCode cp indent text = Printer.printCode cp indent text := by
  have hlocation : indentLocation indent = indent * 4 := Nat.mod_eq_of_lt (by omega)
  have hblanks : blanks indent (currentPos cp) = padding indent (currentPos cp) := by
    simp only [blanks, padding, hlocation]
    split_ifs with hindent hbefore htabs
    · rfl
    · rfl
    · rw [Nat.sub_eq_zero_of_le (not_lt.mp htabs), Nat.zero_div, Nat.zero_mul, Nat.add_zero]
    · rfl
  have hbuffer : (vsnprintf 4096 text).length < 8192 := by
    rw [length_vsnprintf]
    omega
  rw [printCode, pad_eq, hblanks]
  dsimp only [doPrintf]
  rw [vsnprintf_of_short hbuffer]
  rfl

section Texts

theorem printCalls_mOutput (cp : CodePrinter) (calls : List (Nat × Text)) :
    ∃ added, (printCalls cp calls).mOutput = cp.mOutput ++ added ∧
      added.length ≤ (completeText cp calls).length ∧
      (added = completeText cp calls ↔ ∀ c ∈ calls, c.2.length < 4096) := by
  induction calls generalizing cp with
  | nil => exact ⟨[], by simp [printCalls], le_rfl, by simp [completeText]⟩
  | cons c calls ih =>
      obtain ⟨added, hout, hle, hadded⟩ := ih (printCode cp c.1 c.2)
      have hlength := length_vsnprintf 4096 c.2
      refine ⟨spaces (blanks c.1 (currentPos cp)) ++ vsnprintf 4096 c.2 ++ added, ?_, ?_, ?_⟩
      · rw [printCalls, List.foldl_cons, ← printCalls, hout, printCode_mOutput]
        simp only [List.append_assoc]
      · simp only [completeText, List.length_append, length_spaces]
        omega
      · rw [List.forall_mem_cons, ← hadded, completeText]
        constructor
        · intro heq
          have hlengths := congrArg List.length heq
          simp only [List.length_append, length_spaces] at hlengths
          have hshort : c.2.length < 4096 := by omega
          rw [vsnprintf_of_short hshort] at heq
          exact ⟨hshort, List.append_cancel_left heq⟩
        · rintro ⟨hshort, rfl⟩
          rw [vsnprintf_of_short hshort]

/-- No text is lost exactly when every one of them fits into the buffer. -/
theorem printCalls_complete_iff (calls : List (Nat × Text)) :
    (printCalls {} calls).mOutput = completeText {} calls ↔ ∀ c ∈ calls, c.2.length < 4096 := by
  obtain ⟨added, hout, _, hadded⟩ := printCalls_mOutput {} calls
  rw [hout, ← hadded]
  rfl

def longComment : Text := "// ".toList ++ List.replicate 4092 'x'

theorem vsnprintf_longComment : vsnprintf 4096 (longComment ++ ['\n']) = longComment := by
  have hlength : longComment.length = 4095 := by
    rw [longComment, List.length_append, List.length_replicate]
    rfl
  exact List.take_left' hlength

/-- A comment of 4096 characters loses its line feed, and the next line becomes part of it. -/
theorem printCalls_longComment :
    let calls := [(0, longComment ++ ['\n']), (0, "int x;\n".toList)]
    (printCalls {} calls).mOutput = longComment ++ "int x;\n".toList ∧
      completeText {} calls = longComment ++ '\n' :: "int x;\n".toList ∧
      (printCalls {} calls).mOutput ≠ completeText {} calls := by
  have hout : (printCalls {} [(0, longComment ++ ['\n']), (0, "int x;\n".toList)]).mOutput =
      longComment ++ "int x;\n".toList := by
    rw [printCalls, List.foldl_cons, List.foldl_cons, List.foldl_nil, printCode_mOutput,
      printCode_mOutput, vsnprintf_longComment, vsnprintf_of_short (by decide)]
    simp only [blanks, if_true, spaces_zero, List.append_nil]
    rfl
  have hcomplete : completeText {} [(0, longComment ++ ['\n']), (0, "int x;\n".toList)] =
      longComment ++ '\n' :: "int x;\n".toList := by
    simp only [completeText, blanks, if_true, spaces_zero, List.nil_append, List.append_nil,
      List.append_assoc]
    rfl
  refine ⟨hout, hcomplete, ?_⟩
  rw [hout, hcomplete]
  intro h
  exact absurd (List.append_cancel_left h) (by decide)

end Texts

section Columns

variable {cp : CodePrinter} {indent : Nat} {text : Text}

theorem blanks_eq_iff (hindent : 0 < indent) (kept real : Nat) :
    blanks indent kept = (if real < 4 * indent then 4 * indent - real else 1) ↔
      InStep kept real indent := by
  have hlocation : 4 ∣ indentLocation indent := by
    rw [indentLocation]
    omega
  obtain ⟨tab, htab⟩ := hlocation
  simp only [blanks, InStep, if_neg hindent.ne', htab]
  split_ifs <;> omega

theorem reachesColumn_iff_blanks : ReachesColumn cp indent text ↔ blanks indent (currentPos cp) =
    if column cp.mOutput < 4 * indent then 4 * indent - column cp.mOutput else 1 := by
  rw [ReachesColumn, printCode_mOutput]
  constructor
  · intro h
    have hlengths := congrArg List.length (List.append_cancel_left (List.append_cancel_right h))
    simpa using hlengths
  · intro h
    rw [h]

/-- After any calls, a text that is indented begins at its column exactly when the column that
the printer keeps leads there. -/
theorem reachesColumn_iff (calls : List (Nat × Text)) (indent : Nat) (text : Text)
    (hindent : 0 < indent) :
    ReachesColumn (printCalls {} calls) indent text ↔
      InStep (currentPos (printCalls {} calls)) (column (printCalls {} calls).mOutput) indent :=
  reachesColumn_iff_blanks.trans (blanks_eq_iff hindent _ _)

theorem reachesColumn_iff_zero : ReachesColumn (printCalls {} []) 1 "int x;\n".toList ↔ InStep 0 0 1 :=
  reachesColumn_iff [] 1 "int x;\n".toList (by decide)

/-- A member of type `float` is put at column 14. -/
theorem member_float :
    (printCode (printCalls {} [(1, "float".toList)]) 4 "x".toList).mOutput =
        "    float     x".toList ∧
      ¬ ReachesColumn (printCalls {} [(1, "float".toList)]) 4 "x".toList := by
  have hout : (printCode (printCalls {} [(1, "float".toList)]) 4 "x".toList).mOutput =
      "    float     x".toList := by decide
  refine ⟨hout, fun h => ?_⟩
  rw [ReachesColumn, hout] at h
  exact absurd h (by decide)

/-- The column the printer keeps is the real one. -/
structure Tracks (cp : CodePrinter) : Prop where
  placed : cp.mLastLineFeed ≤ cp.mOutput.length
  real : currentPos cp = column cp.mOutput

theorem column_append {s : Text} (h : '\n' ∉ s) (output : Text) :
    column (output ++ s) = column output + s.length := by
  have hall : ∀ c ∈ s.reverse, (c != '\n') = true := by
    intro c hc
    simpa using fun he : c = '\n' => h (he ▸ List.mem_reverse.mp hc)
  rw [column, column, List.rtakeWhile, List.rtakeWhile, List.reverse_append,
    List.takeWhile_append_of_pos hall]
  simp [Nat.add_comm]

theorem column_lineFeed (output : Text) : column (output ++ ['\n']) = 0 := by
  simp [column, List.rtakeWhile]

theorem lineFeed_not_mem_spaces (n : Nat) : '\n' ∉ spaces n := by
  intro h
  exact absurd (List.eq_of_mem_replicate h) (by decide)

/-- A call whose text has no line feed before its end keeps track. -/
theorem Tracks.printCode (h : Tracks cp) (indent : Nat) (htext : '\n' ∉ text.dropLast) :
    Tracks (printCode cp indent text) := by
  have hout := printCode_mOutput cp indent text
  have hreal := h.real
  have hplaced := h.placed
  simp only [currentPos, doTell] at hreal
  by_cases hfeed : '\n' ∈ vsnprintf 4096 text
  · have hkept : (PrintCode.printCode cp indent text).mLastLineFeed =
        (PrintCode.printCode cp indent text).mOutput.length := by
      rw [PrintCode.printCode]
      simp only [if_pos hfeed]
      rfl
    obtain ⟨line, hline⟩ : ∃ line, vsnprintf 4096 text = line ++ ['\n'] := by
      rw [vsnprintf] at hfeed ⊢
      by_cases hshort : text.length ≤ 4095
      · rw [List.take_of_length_le hshort] at hfeed ⊢
        have hne : text ≠ [] := List.ne_nil_of_mem hfeed
        rw [← List.dropLast_append_getLast hne, List.mem_append, List.mem_singleton] at hfeed
        refine ⟨text.dropLast, ?_⟩
        rw [hfeed.resolve_left htext, List.dropLast_append_getLast hne]
      · refine absurd ?_ htext
        rw [List.dropLast_eq_take]
        exact (List.take_prefix_take_left (by omega)).subset hfeed
    refine ⟨hkept.le, ?_⟩
    rw [currentPos, doTell, hkept, Nat.sub_self, hout, hline, ← List.append_assoc, column_lineFeed]
  · have hkept : (PrintCode.printCode cp indent text).mLastLineFeed = cp.mLastLineFeed := by
      rw [PrintCode.printCode]
      simp only [if_neg hfeed]
      rw [doPrintf, pad_eq]
    constructor
    · rw [hkept, hout]
      simp only [List.length_append]
      omega
    · rw [currentPos, doTell, hkept, hout, column_append hfeed,
        column_append (lineFeed_not_mem_spaces _), ← hreal]
      simp only [List.length_append]
      omega

theorem tracks_printCalls (calls : List (Nat × Text)) (hcalls : ∀ c ∈ calls, '\n' ∉ c.2.dropLast) :
    Tracks (printCalls {} calls) := by
  induction calls using List.reverseRecOn with
  | nil => exact ⟨le_rfl, rfl⟩
  | append_singleton calls c ih =>
      rw [List.forall_mem_append] at hcalls
      rw [printCalls, List.foldl_append, List.foldl_cons, List.foldl_nil]
      exact (ih hcalls.1).printCode c.1 (hcalls.2 c (List.mem_singleton_self c))

theorem reachesColumn_iff_even (calls : List (Nat × Text)) (hcalls : ∀ c ∈ calls, '\n' ∉ c.2.dropLast)
    (hindent : 0 < indent) (hsmall : indent < 2 ^ 30) :
    ReachesColumn (printCalls {} calls) indent text ↔
      4 * indent ≤ column (printCalls {} calls).mOutput ∨
        column (printCalls {} calls).mOutput % 2 = 0 := by
  have hlocation : indentLocation indent = 4 * indent := by
    rw [indentLocation]
    omega
  rw [reachesColumn_iff_blanks, (tracks_printCalls calls hcalls).real, blanks_eq_iff hindent]
  simp only [InStep, hlocation]
  split_ifs <;> omega

end Columns

end SchemaCodeGen.PrintCode
