import SchemaCodeGen.CppComments
import SchemaCodeGen.Erasure

namespace SchemaCodeGen.Descriptions

open CString CsvReader Schema Emit ParseCSV Printer Header Implementation Erasure CppComments
  Transducers

def within (mode : CppComments.Mode) (g : Gap) : State := ((0, (false, none)), ((false, mode), g))

def fresh : State := within .code .newline

/-- Where a line of nothing but a comment leaves the reader. There is no such place for a reader
inside of a literal, behind a backslash or behind a question mark. -/
def behindComment : State → Option State
  | ((0, (false, none)), ((false, .code), _)) | ((0, (false, none)), ((false, .line), _)) => some fresh
  | ((0, (false, none)), ((false, .block), g)) => some (within .block g)
  | _ => none

section Steps

variable (dialect : Dialect)

/-- The call is read as part of a comment or as white space, and ends its line. -/
structure Quiet (s : State) (column : Nat) (c : Call) : Prop where
  leaves : behindComment s = some ((reader dialect).run s (c.text column)).1
  writes : ((reader dialect).run s (c.text column)).2 = []
  ends : c.column column = 0

instance (s : State) (column : Nat) (c : Call) : Decidable (Quiet dialect s column c) :=
  decidable_of_iff (behindComment s = some ((reader dialect).run s (c.text column)).1 ∧
      ((reader dialect).run s (c.text column)).2 = [] ∧ c.column column = 0)
    ⟨fun h => ⟨h.1, h.2.1, h.2.2⟩, fun h => ⟨h.1, h.2, h.3⟩⟩

def describes : Call → Bool
  | .code _ _ => false
  | .remark _ | .note _ _ => true

/-- In two runs of the printer, every description is the same in both, or quiet in both, where the
reader stands before it. -/
def Unread : State → Nat → List Call → List Call → Prop
  | s, column, c :: calls, c' :: calls' =>
      (describes c = true → c = c' ∨ Quiet dialect s column c ∧ Quiet dialect s column c') ∧
        Unread ((reader dialect).run s (c.text column)).1 (c.column column) calls calls'
  | _, _, _, _ => True

instance decidableUnread : ∀ s column calls calls', Decidable (Unread dialect s column calls calls')
  | s, column, c :: calls, _ :: calls' =>
      have := decidableUnread ((reader dialect).run s (c.text column)).1 (c.column column) calls calls'
      inferInstanceAs (Decidable (_ ∧ _))
  | _, _, [], _ => inferInstanceAs (Decidable True)
  | _, _, _ :: _, [] => inferInstanceAs (Decidable True)

variable {dialect}

theorem Quiet.run_eq {s : State} {column : Nat} {c c' : Call} (h : Quiet dialect s column c)
    (h' : Quiet dialect s column c') :
    (reader dialect).run s (c.text column) = (reader dialect).run s (c'.text column) :=
  Prod.ext (Option.some.inj (h.leaves.symm.trans h'.leaves)) (h.writes.trans h'.writes.symm)

theorem eq_of_erase {c c' : Call} (he : eraseCall c = eraseCall c') (hc : describes c = false) : c = c' := by
  cases c with
  | code k t =>
      cases c' with
      | code k' t' => exact he
      | _ => cases he
  | _ => cases hc

theorem run_written_eq {s : State} {column : Nat} {calls calls' : List Call}
    (he : List.Forall₂ (fun c c' => eraseCall c = eraseCall c') calls calls')
    (h : Unread dialect s column calls calls') :
    (reader dialect).run s (written column calls) = (reader dialect).run s (written column calls') := by
  induction he generalizing s column with
  | nil => rfl
  | @cons c c' calls calls' hc _ ih =>
      obtain ⟨hhead, htail⟩ := h
      have hnext := ih htail
      have hstep : (reader dialect).run s (c.text column) = (reader dialect).run s (c'.text column) ∧
          c.column column = c'.column column := by
        cases hd : describes c with
        | false =>
            rw [eq_of_erase hc hd]
            exact ⟨rfl, rfl⟩
        | true =>
            obtain rfl | ⟨hq, hq'⟩ := hhead hd
            · exact ⟨rfl, rfl⟩
            · exact ⟨hq.run_eq hq', hq.ends.trans hq'.ends.symm⟩
      simp only [written, Transducer.run_append, hnext, ← hstep.1, ← hstep.2]

theorem codeOf_printAll {calls calls' : List Call} (he : calls.map eraseCall = calls'.map eraseCall)
    (h : Unread dialect (reader dialect).start 0 calls calls') :
    codeOf dialect (printAll calls) = codeOf dialect (printAll calls') := by
  have he : List.Forall₂ (fun c c' => eraseCall c = eraseCall c') calls calls' := by
    rwa [← List.forall₂_eq_eq_eq, List.forall₂_map_left_iff, List.forall₂_map_right_iff] at he
  rw [printAll_eq_written, printAll_eq_written, codeOf, codeOf, Transducer.output, Transducer.output,
    run_written_eq he h]

end Steps

section Lines

/-- A line that fits the buffer with its end, and in which no backslash, and no trigraph of one,
has but blanks behind it. -/
structure Line (dialect : Dialect) (d : Text) : Prop where
  feed : '\n' ∉ d
  carriage : '\r' ∉ d
  last : ∀ x b, (replaced dialect.trigraphs).output d = x ++ '\\' :: b → ∃ c ∈ b, isSpace c = false
  short : d.length ≤ 4091

theorem site_eq {dialect : Dialect} {d : Text} (h : Line dialect d) :
    (comment d).take bufferRoom = '/' :: '/' :: ' ' :: (d ++ ['\n']) := by
  have hcomment : comment d = '/' :: '/' :: ' ' :: (d ++ ['\n']) := by simp [comment, stringFormat]
  rw [hcomment, List.take_of_length_le]
  have hshort := h.short
  simp only [List.length_cons, List.length_append, List.length_nil, bufferRoom]
  omega

theorem mem_replaced_step {trigraphs : Bool} {k : Nat} {c e : Char}
    (h : e ∈ ((replaced trigraphs).step k c).2) (he : e = '\n' ∨ e = '\r') : e = c := by
  have hmark : e ≠ '?' := by
    rintro rfl
    exact absurd he (by decide)
  simp only [replaced] at h
  split_ifs at h
  · exact absurd h List.not_mem_nil
  · exact List.mem_singleton.mp h
  · split at h
    next d hd =>
      obtain rfl := List.mem_singleton.mp h
      exact absurd he (not_or.mpr (trigraph_ne hd))
    next =>
      obtain h | h := List.mem_append.mp h
      · exact absurd (List.eq_of_mem_replicate h) hmark
      · exact List.mem_singleton.mp h

theorem not_mem_replaced (trigraphs : Bool) {d : Text} {e : Char} (he : e = '\n' ∨ e = '\r')
    (hd : e ∉ d) : e ∉ (replaced trigraphs).output d := by
  intro h
  refine Transducer.forall_mem_output (p := (· ≠ e)) (fun k c hc x hx => ?_) (fun k x hx => ?_) e h rfl
  · rintro rfl
    exact hd (mem_replaced_step hx he ▸ hc)
  · rintro rfl
    rw [List.eq_of_mem_replicate hx] at he
    exact absurd he (by decide)

theorem replaced_line (trigraphs : Bool) (d : Text) :
    (replaced trigraphs).run 0 ('/' :: '/' :: ' ' :: (d ++ ['\n'])) =
      (0, '/' :: '/' :: ' ' :: ((replaced trigraphs).output d ++ ['\n'])) := by
  have hline := replaced_closed trigraphs (c := '\n') (by decide) rfl ('/' :: '/' :: ' ' :: d)
  rw [replaced_open trigraphs (by decide), replaced_open trigraphs (by decide),
    replaced_open trigraphs (by decide)] at hline
  exact hline

theorem trailing_step (blanks : Bool) {held : Text} {c : Char} (hc : c ≠ '\n') :
    (trailing blanks).step (some held) c =
      if blanks && isSpace c then (some (held ++ [c]), [])
      else (if c = '\\' then some [] else none, held ++ [c]) := if_neg hc

theorem trailing_run (blanks : Bool) {d : Text} (h : '\n' ∉ d) : ∃ held out,
    (trailing blanks).run none d = (held, out) ∧ out ++ held.getD [] = d ∧
      ∀ b, held = some b → ∃ x, d = x ++ '\\' :: b ∧ ∀ c ∈ b, isSpace c = true := by
  induction d using List.reverseRecOn with
  | nil => exact ⟨none, [], rfl, rfl, fun b hb => absurd hb (by simp)⟩
  | append_singleton d c ih =>
      rw [List.mem_append, not_or] at h
      obtain ⟨held, out, hrun, hout, hheld⟩ := ih h.1
      have hc : c ≠ '\n' := fun he => h.2 (he ▸ List.mem_singleton_self _)
      rw [Transducer.run_append, hrun, Transducer.run_cons, Transducer.run_nil, List.append_nil]
      cases held with
      | none =>
          refine ⟨_, _, rfl, ?_, fun b hb => ?_⟩
          · rw [Option.getD_none, List.append_nil] at hout
            by_cases hslash : c = '\\' <;> simp [trailing, hslash, hout]
          · simp only [trailing, Option.ite_none_right_eq_some, Option.some.injEq] at hb
            exact ⟨d, by rw [hb.1, ← hb.2], fun c hc => absurd hc (hb.2 ▸ List.not_mem_nil)⟩
      | some held =>
          obtain ⟨x, hx, hspace⟩ := hheld held rfl
          rw [Option.getD_some] at hout
          rw [trailing_step blanks hc]
          by_cases hblank : (blanks && isSpace c) = true
          · rw [if_pos hblank]
            refine ⟨some (held ++ [c]), out ++ [], rfl, by simp [← hout], fun b hb => ?_⟩
            obtain rfl := Option.some.inj hb
            refine ⟨x, by rw [hx]; simp, fun e he => ?_⟩
            obtain he | he := List.mem_append.mp he
            · exact hspace e he
            · rw [List.mem_singleton.mp he]
              exact (Bool.and_eq_true_iff.mp hblank).2
          · rw [if_neg hblank]
            refine ⟨_, _, rfl, ?_, fun b hb => ?_⟩
            · by_cases hslash : c = '\\' <;> simp [hslash, ← hout]
            · rw [Option.ite_none_right_eq_some, Option.some.injEq] at hb
              exact ⟨d, by rw [hb.1, ← hb.2], fun c hc => absurd hc (hb.2 ▸ List.not_mem_nil)⟩

theorem physical_line (dialect : Dialect) {d : Text} (h : Line dialect d) :
    (physical dialect).run (0, (false, none)) ('/' :: '/' :: ' ' :: (d ++ ['\n'])) =
      ((0, (false, none)),
        '/' :: '/' :: ' ' :: ((replaced dialect.trigraphs).output d ++ ['\n'])) := by
  have hlast := h.last
  have hfeed := not_mem_replaced dialect.trigraphs (.inl rfl) h.feed
  have hcarriage := not_mem_replaced dialect.trigraphs (.inr rfl) h.carriage
  rw [physical, Transducer.run_comp, replaced_line]
  generalize (replaced dialect.trigraphs).output d = d at hlast hfeed hcarriage
  have hends : (lineEnds dialect.carriage).run false ('/' :: '/' :: ' ' :: (d ++ ['\n'])) =
      (false, '/' :: '/' :: ' ' :: (d ++ ['\n'])) := by
    refine Transducer.run_copies fun c hc => ?_
    have hne : c ≠ '\r' := by
      rintro rfl
      exact absurd hc (by simp [hcarriage])
    simp only [lineEnds]
    split <;> simp_all
  obtain ⟨held, out, hrun, hout, hheld⟩ := trailing_run dialect.blanks hfeed
  cases held with
  | some b =>
      obtain ⟨x, hx, hspace⟩ := hheld b rfl
      obtain ⟨c, hc, hne⟩ := hlast x b hx
      exact absurd (hspace c hc) (by simp [hne])
  | none =>
      rw [Option.getD_none, List.append_nil] at hout
      have htrailing : (trailing dialect.blanks).run none ('/' :: '/' :: ' ' :: (d ++ ['\n'])) =
          (none, '/' :: '/' :: ' ' :: (d ++ ['\n'])) := by
        rw [Transducer.run_cons, Transducer.run_cons, Transducer.run_cons]
        simp only [trailing, Char.reduceEq, if_false] at hrun ⊢
        rw [Transducer.run_append, hrun, hout]
        rfl
      rw [Transducer.run_comp, hends, htrailing]

theorem squeezed_line {d : Text} (hfeed : '\n' ∉ d)
    (hlast : ∀ x b, d = x ++ '\\' :: b → ∃ c ∈ b, isSpace c = false) (g : Gap) :
    squeezed.run ((false, .line), g) (d ++ ['\n']) = (((false, .code), .newline), []) := by
  have hends : endsInBackslash false d = false := by
    cases d using List.reverseRecOn with
    | nil => rfl
    | append_singleton d c =>
        have hc : c ≠ '\\' := by
          rintro rfl
          obtain ⟨c, hc, _⟩ := hlast d [] rfl
          exact absurd hc List.not_mem_nil
        simpa [endsInBackslash] using hc
  rw [squeezed_run, Transducer.run_append, uncommented_line hfeed, hends]
  cases g <;> rfl

theorem reader_line (dialect : Dialect) {d : Text} (h : Line dialect d) {mode : CppComments.Mode}
    (hmode : mode = .code ∨ mode = .line) (g : Gap) :
    (reader dialect).run (within mode g) ('/' :: '/' :: ' ' :: (d ++ ['\n'])) = (fresh, []) := by
  have hopen : ∀ e : Text, squeezed.run ((false, mode), g) ('/' :: '/' :: ' ' :: (e ++ ['\n'])) =
      squeezed.run ((false, .line), g) (e ++ ['\n']) := by
    obtain rfl | rfl := hmode <;> exact fun _ => rfl
  rw [reader, within, Transducer.run_comp, physical_line dialect h, hopen,
    squeezed_line (not_mem_replaced _ (.inl rfl) h.feed) h.last]
  rfl

theorem reader_blanks (dialect : Dialect) {mode : CppComments.Mode} (hmode : mode = .code ∨ mode = .line)
    (n : Nat) (g : Gap) : ∃ g', (reader dialect).run (within mode g) (List.replicate n ' ') =
      (within mode g', []) := by
  induction n generalizing g with
  | zero => exact ⟨g, rfl⟩
  | succ n ih =>
      obtain ⟨g', hstep⟩ : ∃ g', (reader dialect).step (within mode g) ' ' = (within mode g', []) := by
        obtain rfl | rfl := hmode
        · exact ⟨_, rfl⟩
        · exact ⟨g, rfl⟩
      obtain ⟨g'', hrest⟩ := ih g'
      refine ⟨g'', ?_⟩
      rw [List.replicate_succ, Transducer.run_cons, hstep, hrest]
      rfl

theorem advance_line {dialect : Dialect} {d : Text} (h : Line dialect d) (column k : Nat) : advance column k (comment d) = 0 := by
  rw [advance, site_eq h, if_pos (by simp)]

theorem quiet_note (dialect : Dialect) {d : Text} (h : Line dialect d) {mode : CppComments.Mode}
    (hmode : mode = .code ∨ mode = .line) (g : Gap) (k column : Nat) :
    Quiet dialect (within mode g) column (.note k d) := by
  have hrun : (reader dialect).run (within mode g) ((Call.note k d).text column) = (fresh, []) := by
    obtain ⟨g', hblanks⟩ := reader_blanks dialect hmode (padding k column) g
    rw [Call.text, indented, site_eq h, Transducer.run_append, hblanks, reader_line dialect h hmode]
    rfl
  refine ⟨?_, by rw [hrun], advance_line h column k⟩
  rw [hrun]
  obtain rfl | rfl := hmode <;> rfl

theorem quiet_remark (dialect : Dialect) {d : Text} (h : Line dialect d) :
    Quiet dialect fresh 0 (.remark d) := by
  by_cases hd : d = []
  · rw [hd]
    exact ⟨rfl, rfl, rfl⟩
  · have hrun : (reader dialect).run fresh ((Call.remark d).text 0) = (fresh, []) := by
      rw [Call.text, if_neg hd, indented, site_eq h]
      exact reader_line dialect h (.inl rfl) .newline
    refine ⟨by rw [hrun]; rfl, by rw [hrun], ?_⟩
    rw [Call.column, if_neg hd, advance_line h]

end Lines

/-- The texts of the header and of the implementation generated from a file. -/
def generate (s : Text) : Option (Text × Text) :=
  (parseCSV {} s).bind fun st => Implementation.saveCPP st.mDOM

/-- The rows agree but for the cells of the descriptions. -/
def Agree (row row' : Row) : Prop := ∀ k, k ≠ 9 → k ≠ 10 → row[k]? = row'[k]?

/-- No description of the two files is read by the compiler of their headers. -/
def UnreadText (dialect : Dialect) (s s' : Text) : Prop :=
  ∀ st ∈ parseCSV {} s, ∀ st' ∈ parseCSV {} s', ∀ calls ∈ header st.mDOM,
    ∀ calls' ∈ header st'.mDOM, Unread dialect (reader dialect).start 0 calls calls'

instance (dialect : Dialect) (s s' : Text) : Decidable (UnreadText dialect s s') :=
  inferInstanceAs (Decidable (∀ _ ∈ _, _))

theorem agree_of_eq {row row' : Row} (hbefore : row.take 9 = row'.take 9)
    (hafter : row.drop 11 = row'.drop 11) : Agree row row' := by
  intro k h9 h10
  by_cases hk : k < 9
  · have h := congrArg (·[k]?) hbefore
    simpa [List.getElem?_take, hk] using h
  · have h := congrArg (·[k - 11]?) hafter
    simpa [show 11 + (k - 11) = k by omega] using h

theorem eraseRow_of_agree {row row' : Row} (h : Agree row row') : eraseRow row = eraseRow row' := by
  apply List.ext_getElem?
  intro k
  by_cases hk : k < 9
  · simp only [eraseRow, List.getElem?_take, hk, if_true]
    exact h k (by omega) (by omega)
  · simp only [eraseRow, List.getElem?_take, hk, if_false]

theorem map_eraseRow_of_agree {rows rows' : List Row} (h : List.Forall₂ Agree rows rows') :
    rows.map eraseRow = rows'.map eraseRow := by
  induction h with
  | nil => rfl
  | cons hrow _ ih => rw [List.map_cons, List.map_cons, eraseRow_of_agree hrow, ih]

theorem parseCSV_erase {s : Text} {rows : List Row} (h : calls s = some rows) :
    (parseCSV {} s).map eraseState =
      ((rows.map eraseRow).foldlM processArgs {}).map closeFile := by
  have hopen : openFile {} s = {} := by
    rw [openFile]
    split_ifs <;> rfl
  have hstart : eraseState {} = {} := rfl
  have hrun := foldlM_processArgs_erase {} rows
  rw [hstart] at hrun
  rw [parseCSV_eq_calls, h, hopen, Option.bind_some, hrun, Option.map_map, Option.map_map]
  congr 1
  funext st
  exact (closeFile_erase st).symm

theorem saveCPP_some {d : DOM} {texts : Text × Text} (h : Implementation.saveCPP d = some texts) :
    ∃ l l', header d = some l ∧ implementation d = some l' ∧ texts = (printAll l, printAll l') := by
  rw [Implementation.saveCPP] at h
  split_ifs at h
  obtain ⟨l, hl, hrest⟩ := Option.bind_eq_some_iff.mp h
  obtain ⟨l', hl', rfl⟩ := Option.map_eq_some_iff.mp hrest
  exact ⟨l, l', hl, hl', rfl⟩

theorem saveCPP_isSome_erase (d : DOM) :
    (Implementation.saveCPP (eraseDOM d)).isSome = (Implementation.saveCPP d).isSome := by
  simp only [Implementation.saveCPP, eraseDOM_mNamespace, eraseDOM_mFilename,
    eraseDOM_mPlainOldData, header_erase, implementation_erase]
  split_ifs
  · rfl
  · cases header d <;> cases implementation d <;> rfl

theorem saveCPP_code_eq (dialect : Dialect) {d d' : DOM} (he : eraseDOM d = eraseDOM d') :
    (Implementation.saveCPP d).map Prod.snd = (Implementation.saveCPP d').map Prod.snd ∧
      ((∀ calls ∈ header d, ∀ calls' ∈ header d',
          Unread dialect (reader dialect).start 0 calls calls') →
        (Implementation.saveCPP d).map (fun texts => (codeOf dialect texts.1, codeOf dialect texts.2)) =
          (Implementation.saveCPP d').map fun texts =>
            (codeOf dialect texts.1, codeOf dialect texts.2)) := by
  have hsome : (Implementation.saveCPP d).isSome = (Implementation.saveCPP d').isSome := by
    rw [← saveCPP_isSome_erase d, ← saveCPP_isSome_erase d', he]
  cases h : Implementation.saveCPP d with
  | none =>
      rw [h] at hsome
      have h' : Implementation.saveCPP d' = none := by simpa using hsome.symm
      rw [h']
      exact ⟨rfl, fun _ => rfl⟩
  | some texts =>
      rw [h] at hsome
      obtain ⟨texts', h'⟩ := Option.isSome_iff_exists.mp hsome.symm
      obtain ⟨l, m, hl, hm, rfl⟩ := saveCPP_some h
      obtain ⟨l', m', hl', hm', rfl⟩ := saveCPP_some h'
      have hsame : some m = some m' := by
        rw [← hm, ← hm', ← implementation_erase d, ← implementation_erase d', he]
      obtain rfl := Option.some.inj hsame
      have hcalls : l.map eraseCall = l'.map eraseCall := by
        have herase := header_erase d
        rw [he, header_erase, hl, hl'] at herase
        exact (Option.some.inj herase).symm
      refine ⟨by rw [h']; rfl, fun hunread => ?_⟩
      rw [h', Option.map_some, Option.map_some, codeOf_printAll hcalls (hunread l hl l' hl')]

/-- Files whose rows agree but for the descriptions give the same implementation, and headers
with the same code when no description is read. -/
theorem generate_code_eq (dialect : Dialect) {s s' : Text} {rows rows' : List Row}
    (hrows : calls s = some rows) (hrows' : calls s' = some rows')
    (hagree : List.Forall₂ Agree rows rows') :
    (generate s).map Prod.snd = (generate s').map Prod.snd ∧
      (UnreadText dialect s s' →
        (generate s).map (fun texts => (codeOf dialect texts.1, codeOf dialect texts.2)) =
          (generate s').map fun texts => (codeOf dialect texts.1, codeOf dialect texts.2)) := by
  have hparse : (parseCSV {} s).map eraseState = (parseCSV {} s').map eraseState := by
    rw [parseCSV_erase hrows, parseCSV_erase hrows', map_eraseRow_of_agree hagree]
  rw [generate, generate]
  cases h : parseCSV {} s with
  | none =>
      rw [h] at hparse
      rw [Option.map_eq_none_iff.mp hparse.symm]
      exact ⟨rfl, fun _ => rfl⟩
  | some st =>
      rw [h] at hparse
      obtain ⟨st', h', hst⟩ := Option.map_eq_some_iff.mp hparse.symm
      rw [h']
      have hdom : eraseDOM st.mDOM = eraseDOM st'.mDOM := (congrArg CreateDOMDef.mDOM hst).symm
      obtain ⟨hsnd, hcode⟩ := saveCPP_code_eq dialect hdom
      exact ⟨hsnd, fun hunread => hcode (hunread st h st' h')⟩

theorem saveCPP_eq_written (d : DOM) :
    Implementation.saveCPP d =
      if d.mNamespace = [] ∨ d.mFilename = [] ∨ d.mPlainOldData then none
      else (header d).bind fun l => (implementation d).map fun m => (written 0 l, written 0 m) := by
  simp only [Implementation.saveCPP, printAll_eq_written]

def hueText (description : String) : Text :=
  ("Filename,c\nNamespace,n\nHue,,Enum,,,,,,," ++ description ++ ",\n,red,,,,,,,,,\n").toList

def hueRows (description : String) : List Row :=
  [["Filename".toList, "c".toList], ["Namespace".toList, "n".toList],
    ["Hue".toList, [], "Enum".toList, [], [], [], [], [], [], description.toList, []],
    [[], "red".toList, [], [], [], [], [], [], [], [], []]]

theorem hueRows_agree (d d' : String) : List.Forall₂ Agree (hueRows d) (hueRows d') :=
  .cons (agree_of_eq rfl rfl) (.cons (agree_of_eq rfl rfl) (.cons (agree_of_eq rfl rfl)
    (.cons (agree_of_eq rfl rfl) .nil)))

/-- The standard of 2011, where a carriage return is a line end of its own. -/
def standard : Dialect where
  carriage := true
  blanks := false
  trigraphs := true

theorem generate_code_eq_hue :
    UnreadText standard (hueText "plain") (hueText "two words") ∧
      (generate (hueText "plain")).map (fun texts =>
          (codeOf standard texts.1, codeOf standard texts.2)) =
        (generate (hueText "two words")).map fun texts =>
          (codeOf standard texts.1, codeOf standard texts.2) := by
  have hunread : UnreadText standard (hueText "plain") (hueText "two words") := by decide +kernel
  have hrows : calls (hueText "plain") = some (hueRows "plain") := by decide +kernel
  have hrows' : calls (hueText "two words") = some (hueRows "two words") := by decide +kernel
  exact ⟨hunread, (generate_code_eq standard hrows hrows' (hueRows_agree _ _)).2 hunread⟩

/-- A line break in a description puts the text behind it into the code. -/
theorem generate_hue_code_ne :
    ¬ ∀ (s s' : Text) (rows rows' : List Row), calls s = some rows → calls s' = some rows' →
      List.Forall₂ Agree rows rows' →
      (generate s).map (fun texts => (codeOf standard texts.1, codeOf standard texts.2)) =
        (generate s').map fun texts => (codeOf standard texts.1, codeOf standard texts.2) := by
  intro h
  have hsame := h (hueText "plain") (hueText "\"a\nint b;\"") (hueRows "plain")
    (hueRows "a\nint b;") (by decide +kernel) (by decide +kernel) (hueRows_agree _ _)
  have hne : ((generate (hueText "plain")).map fun texts => codeOf standard texts.1) ≠
      (generate (hueText "\"a\nint b;\"")).map fun texts => codeOf standard texts.1 := by
    simp only [generate, saveCPP_eq_written]
    decide +kernel
  have hfst := congrArg (Option.map Prod.fst) hsame
  simp only [Option.map_map] at hfst
  exact hne hfst

end SchemaCodeGen.Descriptions
