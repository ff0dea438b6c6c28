import SchemaCodeGen.Implementation

namespace SchemaCodeGen.OutputFiles

open CString Schema Printer Header

/-- What a printer has when it is finalized. One without a file has no name. -/
structure FilePrinter where
  mDestFileName : Text
  mOutput : Text
  deriving DecidableEq, Repr

/-- The files by their paths, and the paths that have been opened to write. -/
structure Disk where
  files : Text → Option Text
  saved : List Text := []

def Disk.save (s : Disk) (path content : Text) : Disk where
  files := fun p => if p = path then some content else s.files p
  saved := path :: s.saved

/-- An old file of the same size is read and compared. -/
def needSave (old : Option Text) (output : Text) : Bool :=
  match old with
  | none => true
  | some content => if content.length = output.length then content != output else true

def finalize (s : Disk) (p : FilePrinter) : Disk :=
  if p.mDestFileName = [] then s
  else if p.mOutput = [] then s
  else if needSave (s.files p.mDestFileName) p.mOutput then s.save p.mDestFileName p.mOutput
  else s

def fpout (fname destDir : Text) : Text := destDir ++ '/' :: fname

def fileName (d : DOM) (extension : String) : Text :=
  (stringFormat ('%' :: 's' :: extension.toList) [d.mFilename]).take nameRoom

/-- The texts that have been printed, into the printers of both modes. -/
structure Texts where
  definition : Text
  header : Text
  implementation : Text
  typeScript : Text

/-- The printers in the order in which they are finalized. The name of the definition is never
set. -/
def printers (d : DOM) (destDir : Text) (saveTypeScript : Bool) (t : Texts) : List FilePrinter :=
  let fdom := fpout (fileName d ".h") destDir
  let fpCpp := fpout (fileName d ".cpp") destDir
  if d.mPlainOldData then [⟨[], t.definition⟩, ⟨fdom, t.header⟩]
  else
    [⟨if saveTypeScript then fpout (fileName d ".ts") destDir else [], t.typeScript⟩,
      ⟨fdom, t.header⟩, ⟨fpCpp, t.implementation⟩]

/-- `CreateDOMDef::saveCPP`. -/
def saveCPP (d : DOM) (destDir : Text) (saveTypeScript : Bool) (t : Texts) (s : Disk) : Disk :=
  if d.mNamespace = [] then s
  else if d.mFilename = [] then s
  else (printers d destDir saveTypeScript t).foldl finalize s

/-- The C++ files that are announced, with the text of the printer that is made for each. Plain
old data has none for the implementation. -/
def announced (d : DOM) (t : Texts) : List (Text × Option Text) :=
  if d.mPlainOldData then
    [(fileName d "Def.h", some t.definition), (fileName d ".h", some t.header),
      (fileName d ".cpp", none)]
  else [(fileName d ".h", some t.header), (fileName d ".cpp", some t.implementation)]

/-- Every announced file holds the text of its printer, and is not rewritten when it held it
before. -/
def AllProduced (d : DOM) (destDir : Text) (saveTypeScript : Bool) (t : Texts)
    (files : Text → Option Text) : Prop :=
  let after := saveCPP d destDir saveTypeScript t { files }
  ∀ a ∈ announced d t, ∃ text, a.2 = some text ∧
    after.files (fpout a.1 destDir) = some text ∧
    (files (fpout a.1 destDir) = some text → fpout a.1 destDir ∉ after.saved)

section Finalize

variable {s : Disk} {p : FilePrinter} {path : Text}

theorem needSave_iff {old : Option Text} {output : Text} :
    needSave old output = true ↔ old ≠ some output := by
  cases old with
  | none => simp [needSave]
  | some content =>
      rw [needSave]
      split_ifs with hlen
      · simp
      · have hne : content ≠ output := fun h => hlen (congrArg List.length h)
        simp [hne]

theorem finalize_same (h : s.files p.mDestFileName = some p.mOutput) : finalize s p = s := by
  have hold : needSave (s.files p.mDestFileName) p.mOutput ≠ true := fun hneed =>
    needSave_iff.mp hneed h
  rw [finalize]
  split_ifs <;> rfl

theorem finalize_files (hname : p.mDestFileName ≠ []) (houtput : p.mOutput ≠ []) :
    (finalize s p).files p.mDestFileName = some p.mOutput := by
  by_cases hold : s.files p.mDestFileName = some p.mOutput
  · rw [finalize_same hold, hold]
  · rw [finalize, if_neg hname, if_neg houtput, if_pos (needSave_iff.mpr hold)]
    exact if_pos rfl

theorem finalize_frame (h : path ≠ p.mDestFileName) :
    (finalize s p).files path = s.files path ∧
      (path ∈ (finalize s p).saved ↔ path ∈ s.saved) := by
  rw [finalize]
  split_ifs
  · exact ⟨rfl, Iff.rfl⟩
  · exact ⟨rfl, Iff.rfl⟩
  · exact ⟨if_neg h, by simp [Disk.save, h]⟩
  · exact ⟨rfl, Iff.rfl⟩

theorem foldl_frame {ps : List FilePrinter} (h : ∀ p ∈ ps, path ≠ p.mDestFileName) :
    (ps.foldl finalize s).files path = s.files path ∧
      (path ∈ (ps.foldl finalize s).saved ↔ path ∈ s.saved) := by
  induction ps generalizing s with
  | nil => exact ⟨rfl, Iff.rfl⟩
  | cons p ps ih =>
      rw [List.forall_mem_cons] at h
      obtain ⟨hfiles, hsaved⟩ := finalize_frame (s := s) h.1
      obtain ⟨hfiles', hsaved'⟩ := ih (s := finalize s p) h.2
      exact ⟨hfiles'.trans hfiles, hsaved'.trans hsaved⟩

theorem foldl_finalize {ps : List FilePrinter} (hdistinct : (ps.map FilePrinter.mDestFileName).Nodup)
    (hp : p ∈ ps) (hname : p.mDestFileName ≠ []) (houtput : p.mOutput ≠ []) :
    (ps.foldl finalize s).files p.mDestFileName = some p.mOutput ∧
      (s.files p.mDestFileName = some p.mOutput →
        (p.mDestFileName ∈ (ps.foldl finalize s).saved ↔ p.mDestFileName ∈ s.saved)) := by
  induction ps generalizing s with
  | nil => exact absurd hp (List.not_mem_nil)
  | cons q ps ih =>
      rw [List.map_cons, List.nodup_cons] at hdistinct
      rw [List.foldl_cons]
      obtain rfl | hp := List.mem_cons.mp hp
      · have hrest : ∀ q ∈ ps, p.mDestFileName ≠ q.mDestFileName := fun q hq heq =>
          hdistinct.1 (heq ▸ List.mem_map_of_mem hq)
        obtain ⟨hfiles, hsaved⟩ := foldl_frame (s := finalize s p) hrest
        refine ⟨hfiles.trans (finalize_files hname houtput), fun hold => ?_⟩
        rw [hsaved, finalize_same hold]
      · have hne : p.mDestFileName ≠ q.mDestFileName := fun heq =>
          hdistinct.1 (heq ▸ List.mem_map_of_mem hp)
        obtain ⟨hfiles, hsaved⟩ := finalize_frame (s := s) hne
        obtain ⟨hafter, hkept⟩ := ih (s := finalize s q) hdistinct.2 hp
        exact ⟨hafter, fun hold => (hkept (hfiles.trans hold)).trans hsaved⟩

end Finalize

section Names

variable {d : DOM} {c : Char} {rest : Text} {extension : String}

theorem stringFormat_nil (format : Text) : stringFormat format [] = format := by
  induction format with
  | nil => rfl
  | cons c format ih => rw [stringFormat.eq_2 _ _ _ fun _ _ _ h => absurd h (by simp), ih]

theorem fileName_eq (h : extension.toList = '.' :: c :: rest) :
    fileName d extension = (d.mFilename ++ '.' :: c :: rest).take nameRoom := by
  rw [fileName, h, stringFormat, stringFormat_nil]

theorem fileName_getElem? (h : extension.toList = '.' :: c :: rest)
    (hlen : d.mFilename.length ≤ 509) : (fileName d extension)[d.mFilename.length + 1]? = some c := by
  rw [fileName_eq h, List.getElem?_take, if_pos (by rw [nameRoom]; omega),
    List.getElem?_append_right (by omega)]
  simp

theorem fileName_long (h : extension.toList = '.' :: c :: rest) (hlen : 509 < d.mFilename.length) :
    fileName d extension = (d.mFilename ++ ['.']).take nameRoom := by
  have hdot : d.mFilename ++ '.' :: c :: rest = (d.mFilename ++ ['.']) ++ c :: rest := by simp
  rw [fileName_eq h, hdot, List.take_append_of_le_length]
  rw [List.length_append, List.length_singleton, nameRoom]
  omega

theorem fpout_inj {a b destDir : Text} (h : fpout a destDir = fpout b destDir) : a = b :=
  (List.cons.inj (List.append_cancel_left h)).2

theorem fpout_ne_nil (fname destDir : Text) : fpout fname destDir ≠ [] := by simp [fpout]

theorem printers_distinct (hpod : d.mPlainOldData = false) (hlen : d.mFilename.length ≤ 509)
    (destDir : Text) (saveTypeScript : Bool) (t : Texts) :
    ((printers d destDir saveTypeScript t).map FilePrinter.mDestFileName).Nodup := by
  have hh := @fileName_getElem? d 'h' [] ".h" rfl hlen
  have hcpp := @fileName_getElem? d 'c' ['p', 'p'] ".cpp" rfl hlen
  have hts := @fileName_getElem? d 't' ['s'] ".ts" rfl hlen
  have hne : ∀ {a b : Text} {k : Nat}, a[k]? ≠ b[k]? → fpout a destDir ≠ fpout b destDir :=
    fun h heq => h (by rw [fpout_inj heq])
  have hlast : fpout (fileName d ".h") destDir ≠ fpout (fileName d ".cpp") destDir :=
    hne (by rw [hh, hcpp]; decide)
  have hfirst : ∀ a ∈ [fpout (fileName d ".h") destDir, fpout (fileName d ".cpp") destDir],
      (if saveTypeScript then fpout (fileName d ".ts") destDir else []) ≠ a := by
    rw [List.forall_mem_cons, List.forall_mem_singleton]
    split_ifs
    · exact ⟨hne (by rw [hh, hts]; decide), hne (by rw [hcpp, hts]; decide)⟩
    · exact ⟨(fpout_ne_nil _ _).symm, (fpout_ne_nil _ _).symm⟩
  rw [printers, if_neg (by simp [hpod])]
  refine List.nodup_cons.mpr ⟨fun hmem => hfirst _ hmem rfl, List.nodup_cons.mpr ⟨?_, ?_⟩⟩
  · exact fun hmem => hlast (List.mem_singleton.mp hmem)
  · exact List.nodup_singleton _

end Names

section Texts

/-- What the printers of the C++ files start with. -/
structure Begun (t : Texts) : Prop where
  header : t.header.head? = some '#'
  implementation : t.implementation.head? = some '/'

theorem head?_printAll {c : Char} {text : List Char} {calls : List Call} :
    (printAll (code 0 (String.ofList (c :: text)) :: calls)).head? = some c := by
  have hformat : stringFormat (c :: text) [] = c :: text := stringFormat_nil _
  rw [printAll_eq_written, code, String.toList_ofList, hformat]
  rfl

theorem begun_of_saveCPP {d : DOM} {t : Texts}
    (h : Implementation.saveCPP d = some (t.header, t.implementation)) : Begun t := by
  rw [Implementation.saveCPP] at h
  split_ifs at h
  obtain ⟨hcalls, hh, h⟩ := Option.bind_eq_some_iff.mp h
  obtain ⟨icalls, hi, h⟩ := Option.map_eq_some_iff.mp h
  obtain ⟨hheader, himplementation⟩ := Prod.mk.inj h
  obtain ⟨classes, hclasses, rfl⟩ := Option.map_eq_some_iff.mp hh
  obtain ⟨objects, _, rfl⟩ := Option.map_eq_some_iff.mp hclasses
  obtain ⟨serializers, _, hi⟩ := Option.bind_eq_some_iff.mp hi
  obtain ⟨deserializers, _, rfl⟩ := Option.map_eq_some_iff.mp hi
  refine ⟨?_, ?_⟩
  · rw [← hheader]
    exact head?_printAll
  · rw [← himplementation]
    exact head?_printAll

end Texts

/-- All announced files are produced exactly when the schema is not plain old data and its file
name is short enough to keep the extensions apart. -/
theorem allProduced_iff {d : DOM} (hnamespace : d.mNamespace ≠ []) (hfilename : d.mFilename ≠ [])
    {t : Texts} (ht : d.mPlainOldData = false → Begun t) (destDir : Text) (saveTypeScript : Bool)
    (files : Text → Option Text) : AllProduced d destDir saveTypeScript t files ↔
      d.mPlainOldData = false ∧ d.mFilename.length ≤ 509 := by
  have hrun : saveCPP d destDir saveTypeScript t { files } =
      (printers d destDir saveTypeScript t).foldl finalize { files } := by
    rw [saveCPP, if_neg hnamespace, if_neg hfilename]
  rw [AllProduced, hrun, announced]
  cases hpod : d.mPlainOldData with
  | true =>
      -- The implementation is announced, but no printer is made for it.
      refine iff_of_false (fun h => ?_) (by simp)
      obtain ⟨_, hnone, _⟩ := h (fileName d ".cpp", none) (by simp)
      exact absurd hnone (by simp)
  | false =>
      obtain ⟨hheader, himplementation⟩ := ht hpod
      have hne : t.header ≠ [] ∧ t.implementation ≠ [] := by
        refine ⟨?_, ?_⟩ <;> intro h <;> simp [h] at hheader himplementation
      rw [if_neg (by simp), and_iff_right rfl, List.forall_mem_cons, List.forall_mem_singleton]
      constructor
      · rintro ⟨⟨text, htext, hfile, _⟩, ⟨text', htext', hfile', _⟩⟩
        obtain rfl := Option.some.inj htext
        obtain rfl := Option.some.inj htext'
        by_contra hlen
        have hsame : fileName d ".h" = fileName d ".cpp" := by
          rw [@fileName_long d 'h' [] ".h" rfl (by omega),
            @fileName_long d 'c' ['p', 'p'] ".cpp" rfl (by omega)]
        have htexts : t.header = t.implementation :=
          Option.some.inj ((hsame ▸ hfile).symm.trans hfile')
        rw [htexts, himplementation] at hheader
        exact absurd hheader (by decide)
      · intro hlen
        have hdistinct := printers_distinct hpod hlen destDir saveTypeScript t
        have hfinal : ∀ p ∈ printers d destDir saveTypeScript t, p.mDestFileName ≠ [] →
            p.mOutput ≠ [] → ∃ text, some p.mOutput = some text ∧
              ((printers d destDir saveTypeScript t).foldl finalize { files }).files
                p.mDestFileName = some text ∧ (files p.mDestFileName = some text →
              p.mDestFileName ∉ ((printers d destDir saveTypeScript t).foldl finalize
                { files }).saved) := by
          intro p hp hname houtput
          obtain ⟨hfile, hkept⟩ := foldl_finalize (s := { files }) hdistinct hp hname houtput
          exact ⟨_, rfl, hfile, fun hold => (hkept hold).not.mpr List.not_mem_nil⟩
        refine ⟨hfinal ⟨fpout (fileName d ".h") destDir, t.header⟩ ?_ (fpout_ne_nil _ _) hne.1,
          hfinal ⟨fpout (fileName d ".cpp") destDir, t.implementation⟩ ?_ (fpout_ne_nil _ _) hne.2⟩
        · rw [printers, if_neg (by simp [hpod])]
          exact List.mem_cons_of_mem _ List.mem_cons_self
        · rw [printers, if_neg (by simp [hpod])]
          exact List.mem_cons_of_mem _ (List.mem_cons_of_mem _ List.mem_cons_self)

section Examples

def notes (plainOldData : Bool) : DOM where
  mNamespace := "app".toList
  mFilename := "Notes".toList
  mPlainOldData := plainOldData

def notesTexts : Texts where
  definition := []
  header := ((Implementation.saveCPP (notes false)).getD ([], [])).1
  implementation := ((Implementation.saveCPP (notes false)).getD ([], [])).2
  typeScript := []

theorem notesTexts_begun : Begun notesTexts := by
  have hsome : (Implementation.saveCPP (notes false)).isSome = true := rfl
  obtain ⟨texts, htexts⟩ := Option.isSome_iff_exists.mp hsome
  exact begun_of_saveCPP (by rw [notesTexts, htexts, Option.getD_some])

theorem allProduced_notes :
    AllProduced (notes false) "out".toList false notesTexts (fun _ => none) ↔
      (notes false).mPlainOldData = false ∧ (notes false).mFilename.length ≤ 509 :=
  allProduced_iff (by decide) (by decide) (fun _ => notesTexts_begun) _ _ _

def plainTexts : Texts where
  definition := "#ifndef NOTES_IMPL_H\n".toList
  header := "#ifndef NOTES_H\n".toList
  implementation := []
  typeScript := []

/-- In the mode of plain old data the definition and the implementation stay missing. -/
theorem notes_missing :
    ¬ AllProduced (notes true) "out".toList false plainTexts (fun _ => none) ∧
    ∀ name ∈ ["NotesDef.h", "Notes.cpp"],
      (saveCPP (notes true) "out".toList false plainTexts { files := fun _ => none }).files
        (fpout name.toList "out".toList) = none := by
  refine ⟨fun h => ?_, by decide⟩
  obtain ⟨_, hnone, _⟩ := h (fileName (notes true) ".cpp", none) (by decide)
  exact absurd hnone (by simp)

end Examples

end SchemaCodeGen.OutputFiles
