import SchemaCodeGen.FileSystems
import SchemaCodeGen.OutputFiles
import SchemaCodeGen.ParseCSV
import SchemaCodeGen.PodOutput

namespace SchemaCodeGen.GeneratorRuns

open CString Schema ParseCSV FileSystems LocalArrays Header OutputFiles

section Program

def maxDirPath : Nat := 512

def createDir (s : FileSystem) (pathName : Text) : Bool × FileSystem := s.mkdir pathName

def isSlash (c : Char) : Bool := c == '/' || c == '\\'

def createLoop : Text → Text → FileSystem → Text × FileSystem
  | mpath, [], s => (mpath, s)
  | mpath, c :: dirName, s =>
      if mpath.length < maxDirPath - 1 then
        createLoop (mpath ++ [c]) dirName (if isSlash c then (createDir s mpath).2 else s)
      else (mpath, s)

def recursiveCreatePath (dirName : Text) (s : FileSystem) : FileSystem :=
  let (mpath, s) := createLoop [] dirName s
  (createDir s mpath).2

def finalize (s : FileSystem) (p : FilePrinter) : FileSystem :=
  if p.mDestFileName = [] then s
  else if p.mOutput = [] then s
  else if needSave (s.readFile p.mDestFileName) p.mOutput then s.writeFile p.mDestFileName p.mOutput
  else s

/-- What is printed, when no assertion fails. The stack holds what arrays begin with. -/
def texts (stack : Stack) (d : DOM) : Option Texts :=
  if d.mPlainOldData then
    (result (PodOutput.saveCPP d) stack).map fun t =>
      { definition := t.1, header := t.2, implementation := [], typeScript := [] }
  else
    (Implementation.saveCPP d).map fun t =>
      { definition := [], header := t.1, implementation := t.2, typeScript := [] }

/-- `CreateDOMDef::saveCPP` without TypeScript. Both paths are made before anything is printed. -/
def saveCPP (stack : Stack) (d : DOM) (destDir : Text) (s : FileSystem) : FileSystem :=
  if d.mNamespace = [] then s
  else if d.mFilename = [] then s
  else
    let s := recursiveCreatePath destDir s
    let s := recursiveCreatePath destDir s
    match texts stack d with
    | none => s
    | some t => (printers d destDir false t).foldl finalize s

def parse (s : FileSystem) (xmlName : Text) : Option CreateDOMDef :=
  match s.readFile xmlName with
  | none => some {}
  | some data => parseCSV {} (cstr data)

/-- A program that an assertion stops leaves the files as they are then. -/
def main (stack : Stack) (argv : List Text) (s : FileSystem) : FileSystem :=
  match argv with
  | _ :: csv :: destDir :: _ =>
      match parse s csv with
      | none => s
      | some def_ => saveCPP stack def_.mDOM destDir s
  | _ => s

end Program

section Paths

def created : Text → Text → List Text
  | mpath, [] => [mpath]
  | mpath, c :: dirName =>
      if mpath.length < maxDirPath - 1 then
        (if isSlash c then [mpath] else []) ++ created (mpath ++ [c]) dirName
      else [mpath]

def createAll (paths : List Text) (s : FileSystem) : FileSystem :=
  paths.foldl (fun s path => (createDir s path).2) s

theorem recursiveCreatePath_eq (dirName : Text) (s : FileSystem) :
    recursiveCreatePath dirName s = createAll (created [] dirName) s := by
  rw [recursiveCreatePath]
  generalize ([] : Text) = mpath
  induction dirName generalizing mpath s with
  | nil => rfl
  | cons c dirName ih =>
      rw [createLoop, created]
      by_cases hroom : mpath.length < maxDirPath - 1
      · rw [if_pos hroom, if_pos hroom, ih]
        by_cases hslash : isSlash c = true
        · rw [if_pos hslash, if_pos hslash]
          rfl
        · rw [if_neg hslash, if_neg hslash]
          rfl
      · rw [if_neg hroom, if_neg hroom]
        rfl

variable {s : FileSystem} {paths : List Text}

theorem createAll_cons (path : Text) (paths : List Text) (s : FileSystem) :
    createAll (path :: paths) s = createAll paths (createDir s path).2 := rfl

theorem createAll_frame (paths : List Text) (s : FileSystem) : (createAll paths s).cwd = s.cwd ∧
    (createAll paths s).files = s.files ∧ (createAll paths s).writable = s.writable ∧
      (createAll paths s).saved = s.saved := by
  induction paths generalizing s with
  | nil => exact ⟨rfl, rfl, rfl, rfl⟩
  | cons path paths ih =>
      obtain ⟨h1, h2, h3, h4⟩ := mkdir_frame s path
      obtain ⟨h1', h2', h3', h4'⟩ := ih (createDir s path).2
      exact ⟨h1'.trans h1, h2'.trans h2, h3'.trans h3, h4'.trans h4⟩

theorem settled_createAll {d : Place} {names : List Text} (h : Settled s d names) :
    Settled (createAll paths s) d names := by
  induction paths generalizing s with
  | nil => exact h
  | cons path paths ih => exact ih (settled_mkdir h)

theorem start_front {path path' : Text} (hne : path ≠ []) (h : path <+: path') :
    s.start path = s.start path' := by
  obtain ⟨rest, rfl⟩ := h
  obtain ⟨c, path, rfl⟩ := List.exists_cons_of_ne_nil hne
  rfl

theorem start_mkdir (s : FileSystem) (path path' : Text) : (s.mkdir path).2.start path' = s.start path' := by
  rw [FileSystem.start, FileSystem.start, (mkdir_frame s path).1]

theorem settled_createDir {full mpath rest : Text} (hfull : full = mpath ++ rest)
    (h : Settled s (s.start full) (segments mpath).1) :
    Settled (createDir s mpath).2 (s.start mpath) (components mpath) := by
  by_cases hne : mpath = []
  · rw [hne]
    exact settled_nil _ _
  · have hstart := @start_front s _ _ hne ⟨rest, hfull.symm⟩
    refine mkdir_settles ?_
    rw [hstart]
    exact h.front (dropLast_components mpath)

/-- In front of each slash the path is settled by then, and stays so. -/
theorem settled_created {full mpath dirName : Text} (hfull : full = mpath ++ dirName)
    (h : Settled s (s.start full) (segments mpath).1) :
    ∀ path ∈ created mpath dirName, Settled (createAll (created mpath dirName) s) (s.start path)
      (components path) := by
  induction dirName generalizing mpath s with
  | nil =>
      rw [created]
      intro path hpath
      rw [List.mem_singleton.mp hpath]
      exact settled_createDir hfull h
  | cons c dirName ih =>
      rw [created]
      have hnext : full = (mpath ++ [c]) ++ dirName := by rw [hfull, List.append_assoc]; rfl
      by_cases hroom : mpath.length < maxDirPath - 1
      · rw [if_pos hroom]
        by_cases hslash : isSlash c = true
        · rw [if_pos hslash, List.singleton_append, createAll_cons]
          have hstart : ∀ path, (createDir s mpath).2.start path = s.start path := start_mkdir s mpath
          have hbehind : Settled (createDir s mpath).2 ((createDir s mpath).2.start full)
              (segments (mpath ++ [c])).1 := by
            rw [hstart]
            by_cases hc : c = '/'
            · rw [hc, segments_slash]
              by_cases hne : mpath = []
              · rw [hne]
                exact settled_nil _ _
              · rw [← start_front hne ⟨c :: dirName, hfull.symm⟩]
                exact settled_createDir hfull h
            · rw [segments_other mpath hc]
              exact settled_mkdir h
          intro path hpath
          obtain rfl | hpath := List.mem_cons.mp hpath
          · exact settled_createAll (settled_createDir hfull h)
          · rw [← hstart path]
            exact ih hnext hbehind path hpath
        · rw [if_neg hslash, List.nil_append]
          have hc : c ≠ '/' := fun hc => hslash (by rw [hc]; rfl)
          refine ih hnext ?_
          rwa [segments_other mpath hc]
      · rw [if_neg hroom]
        intro path hpath
        rw [List.mem_singleton.mp hpath]
        exact settled_createDir hfull h

theorem createAll_settled (h : ∀ path ∈ paths, Settled s (s.start path) (components path)) :
    createAll paths s = s := by
  induction paths with
  | nil => rfl
  | cons path paths ih =>
      rw [List.forall_mem_cons] at h
      have hsame : createDir s path = (false, s) := mkdir_settled h.1
      rw [createAll_cons, hsame]
      exact ih h.2

theorem created_front {full mpath dirName : Text} (hfull : full = mpath ++ dirName)
    (hlen : mpath.length ≤ maxDirPath - 1) :
    ∀ path ∈ created mpath dirName, path <+: full ∧ path.length ≤ maxDirPath - 1 := by
  induction dirName generalizing mpath with
  | nil =>
      intro path hpath
      rw [List.mem_singleton.mp hpath]
      exact ⟨⟨[], hfull.symm⟩, hlen⟩
  | cons c dirName ih =>
      rw [created]
      have hnext : full = (mpath ++ [c]) ++ dirName := by rw [hfull, List.append_assoc]; rfl
      intro path hpath
      by_cases hroom : mpath.length < maxDirPath - 1
      · rw [if_pos hroom] at hpath
        obtain hpath | hpath := List.mem_append.mp hpath
        · split_ifs at hpath
          · rw [List.mem_singleton.mp hpath]
            exact ⟨⟨_, hfull.symm⟩, hlen⟩
          · exact absurd hpath List.not_mem_nil
        · refine ih hnext ?_ path hpath
          rw [List.length_append]
          exact hroom
      · rw [if_neg hroom] at hpath
        rw [List.mem_singleton.mp hpath]
        exact ⟨⟨_, hfull.symm⟩, hlen⟩

theorem take_mem_created (mpath dirName : Text) (hlen : mpath.length ≤ maxDirPath - 1) :
    (mpath ++ dirName).take (maxDirPath - 1) ∈ created mpath dirName := by
  induction dirName generalizing mpath with
  | nil =>
      rw [List.append_nil, List.take_of_length_le hlen]
      exact List.mem_singleton_self _
  | cons c dirName ih =>
      rw [created]
      by_cases hroom : mpath.length < maxDirPath - 1
      · have hlen' : (mpath ++ [c]).length ≤ maxDirPath - 1 := by
          rw [List.length_append]
          exact hroom
        have hrest := ih (mpath ++ [c]) hlen'
        rw [← List.append_cons] at hrest
        rw [if_pos hroom]
        exact List.mem_append_right _ hrest
      · rw [if_neg hroom, List.take_append_of_le_length (by omega), List.take_of_length_le hlen]
        exact List.mem_singleton_self _

theorem createAll_dirs {p : Place} (h : s.dirs p = true) : (createAll paths s).dirs p = true := by
  induction paths generalizing s with
  | nil => exact h
  | cons path paths ih => exact ih (mkdir_dirs h)

theorem createAll_new {p : Place} (h : (createAll paths s).dirs p = true) : s.dirs p = true ∨
    s.creatable p = true ∧ ∃ path ∈ paths, (createAll paths s).locate path = some p := by
  induction paths generalizing s with
  | nil => exact .inl h
  | cons path paths ih =>
      have hmono : ∀ q, (s.mkdir path).2.dirs q = true →
          (createAll (path :: paths) s).dirs q = true := fun q hq =>
        @createAll_dirs (s.mkdir path).2 paths q hq
      have hcwd := (createAll_frame (path :: paths) s).1
      obtain hsame | ⟨q, hlocate, hcreate, hmk⟩ := mkdir_cases s path
      · have hskip : createAll (path :: paths) s = createAll paths s := by
          rw [createAll_cons, createDir, hsame]
        rw [hskip] at h ⊢
        obtain hold | ⟨hp, path', hpath', hloc⟩ := ih h
        · exact .inl hold
        · exact .inr ⟨hp, path', List.mem_cons_of_mem _ hpath', hloc⟩
      by_cases hp : p = q
      · rw [hp]
        exact .inr ⟨hcreate, path, List.mem_cons_self,
          locate_mono hcwd (fun q hq => hmono q (mkdir_dirs hq)) hlocate⟩
      · have hother : (s.mkdir path).2.dirs p = s.dirs p := by
          rw [hmk]
          exact Function.update_of_ne hp ..
        obtain hold | ⟨hnew, path', hpath', hloc⟩ := ih h
        · exact .inl (hother.symm.trans hold)
        · refine .inr ⟨?_, path', List.mem_cons_of_mem _ hpath', hloc⟩
          obtain ⟨_, hfiles, hwritable, _⟩ := mkdir_frame s path
          have hnew : (s.mkdir path).2.creatable p = true := hnew
          rwa [FileSystem.creatable, hother, hfiles, hwritable] at hnew

theorem start_congr {s' : FileSystem} (hcwd : s'.cwd = s.cwd) (path : Text) :
    s'.start path = s.start path := by
  rw [FileSystem.start, FileSystem.start, hcwd]

/-- All directories of the path are there, or stopped by a file or a right. -/
def AllSettled (dirName : Text) (s : FileSystem) : Prop :=
  ∀ path ∈ created [] dirName, Settled s (s.start path) (components path)

theorem recursiveCreatePath_settles (dirName : Text) (s : FileSystem) :
    AllSettled dirName (recursiveCreatePath dirName s) := by
  rw [recursiveCreatePath_eq]
  intro path hpath
  rw [start_congr (createAll_frame _ s).1]
  exact @settled_created s dirName [] dirName rfl (settled_nil s _) path hpath

theorem recursiveCreatePath_settled {dirName : Text} (h : AllSettled dirName s) :
    recursiveCreatePath dirName s = s := by
  rw [recursiveCreatePath_eq]
  exact createAll_settled h

/-- What creating a path comes to: `s'` is the file system after it. -/
structure Made (dirName : Text) (s s' : FileSystem) : Prop where
  frame : s'.cwd = s.cwd ∧ s'.files = s.files ∧ s'.writable = s.writable ∧ s'.saved = s.saved
  kept : ∀ p, s.dirs p = true → s'.dirs p = true
  new : ∀ p, s'.dirs p = true → s.dirs p = true ∨ s.creatable p = true ∧
    ∃ path, path <+: dirName ∧ path.length ≤ 511 ∧ s'.locate path = some p
  reached : (∃ d, s'.walk (s.start dirName) (components (dirName.take 511)) = .ok d) ∨
    ∃ p, s'.walk (s.start dirName) (components (dirName.take 511)) = .error p ∧
      s'.creatable p = false
  again : recursiveCreatePath dirName s' = s'

theorem recursiveCreatePath_frame (dirName : Text) (s : FileSystem) :
    (recursiveCreatePath dirName s).cwd = s.cwd ∧ (recursiveCreatePath dirName s).files = s.files ∧
      (recursiveCreatePath dirName s).writable = s.writable ∧
      (recursiveCreatePath dirName s).saved = s.saved := by
  rw [recursiveCreatePath_eq]
  exact createAll_frame _ s

theorem recursiveCreatePath_dirs (dirName : Text) {p : Place} (h : s.dirs p = true) :
    (recursiveCreatePath dirName s).dirs p = true := by
  rw [recursiveCreatePath_eq]
  exact createAll_dirs h

theorem recursiveCreatePath_again (dirName : Text) (s : FileSystem) :
    recursiveCreatePath dirName (recursiveCreatePath dirName s) = recursiveCreatePath dirName s :=
  recursiveCreatePath_settled (recursiveCreatePath_settles dirName s)

/-- All directories of a path are made that can be, and nothing else is touched. -/
theorem recursiveCreatePath_made (dirName : Text) (s : FileSystem) :
    Made dirName s (recursiveCreatePath dirName s) := by
  have hframe := recursiveCreatePath_frame dirName s
  refine ⟨hframe, fun p => recursiveCreatePath_dirs dirName, fun p hp => ?_, ?_,
    recursiveCreatePath_again dirName s⟩
  · rw [recursiveCreatePath_eq] at hp ⊢
    obtain hold | ⟨hcreate, path, hpath, hlocate⟩ := createAll_new hp
    · exact .inl hold
    · obtain ⟨hfront, hlen⟩ := @created_front dirName [] dirName rfl (Nat.zero_le _) path hpath
      exact .inr ⟨hcreate, path, hfront, hlen, hlocate⟩
  · have hlast := recursiveCreatePath_settles dirName s _ (take_mem_created [] dirName (Nat.zero_le _))
    have hsame : s.start (([] ++ dirName).take (maxDirPath - 1)) = s.start dirName := by
      cases dirName <;> rfl
    rw [start_congr hframe.1, hsame] at hlast
    cases hwalk : (recursiveCreatePath dirName s).walk (s.start dirName)
        (components (dirName.take 511)) with
    | ok d => exact .inl ⟨d, rfl⟩
    | error p => exact .inr ⟨p, rfl, hlast p hwalk⟩

end Paths

section Files

variable {s : FileSystem} {p q : FilePrinter} {place : Place} {path content : Text}

def Closed (s : FileSystem) (path : Text) : Prop :=
  ∀ place, s.locate path = some place → s.dirs place = true ∨ s.writable place = false

/-- The file of a printer holds its text, where it has one and the file can be opened. -/
def Placed (s : FileSystem) (p : FilePrinter) : Prop :=
  p.mDestFileName = [] ∨ p.mOutput = [] ∨ s.readFile p.mDestFileName = some p.mOutput ∨
    Closed s p.mDestFileName

theorem writeFile_closed (h : Closed s path) : s.writeFile path content = s := by
  rw [FileSystem.writeFile]
  split
  next place hlocate =>
    have hclosed : (s.dirs place || !s.writable place) = true := by simpa using h place hlocate
    rw [if_pos hclosed]
  next => rfl

theorem writeFile_open (h : ¬ Closed s path) : ∃ place, s.locate path = some place ∧
    s.writeFile path content = { s with
      files := Function.update s.files place (some content)
      saved := place :: s.saved } := by
  rw [Closed] at h
  push Not at h
  obtain ⟨place, hlocate, hdir, hwritable⟩ := h
  have hopen : ¬ (s.dirs place || !s.writable place) = true := by simp [hdir, hwritable]
  refine ⟨place, hlocate, ?_⟩
  rw [FileSystem.writeFile]
  simp only [hlocate]
  rw [if_neg hopen]

theorem finalize_placed (h : Placed s p) : finalize s p = s := by
  rw [finalize]
  by_cases hname : p.mDestFileName = []
  · rw [if_pos hname]
  by_cases houtput : p.mOutput = []
  · rw [if_neg hname, if_pos houtput]
  rw [if_neg hname, if_neg houtput]
  by_cases hsame : s.readFile p.mDestFileName = some p.mOutput
  · rw [if_neg fun hneed => needSave_iff.mp hneed hsame]
  · have hclosed : Closed s p.mDestFileName := by
      rcases h with h | h | h | h
      · exact absurd h hname
      · exact absurd h houtput
      · exact absurd h hsame
      · exact h
    rw [if_pos (needSave_iff.mpr hsame)]
    exact writeFile_closed hclosed

theorem finalize_cases (s : FileSystem) (p : FilePrinter) : (Placed s p ∧ finalize s p = s) ∨
    ∃ place, s.locate p.mDestFileName = some place ∧ s.files place ≠ some p.mOutput ∧
      finalize s p = { s with
        files := Function.update s.files place (some p.mOutput)
        saved := place :: s.saved } := by
  by_cases h : Placed s p
  · exact .inl ⟨h, finalize_placed h⟩
  rw [Placed] at h
  push Not at h
  obtain ⟨hname, houtput, hsame, hclosed⟩ := h
  obtain ⟨place, hlocate, hwrite⟩ := @writeFile_open s p.mDestFileName p.mOutput hclosed
  rw [FileSystem.readFile, hlocate] at hsame
  refine .inr ⟨place, hlocate, hsame, ?_⟩
  rw [finalize, if_neg hname, if_neg houtput, if_pos, hwrite]
  rw [needSave_iff, FileSystem.readFile, hlocate]
  exact hsame

theorem finalize_dirs (s : FileSystem) (p : FilePrinter) : (finalize s p).cwd = s.cwd ∧
    (finalize s p).dirs = s.dirs ∧ (finalize s p).writable = s.writable := by
  obtain ⟨_, h⟩ | ⟨place, _, _, h⟩ := finalize_cases s p <;> rw [h] <;> exact ⟨rfl, rfl, rfl⟩

theorem locate_finalize (s : FileSystem) (p : FilePrinter) (path : Text) :
    (finalize s p).locate path = s.locate path :=
  locate_congr (finalize_dirs s p).1 (finalize_dirs s p).2.1 path

theorem placed_finalize (s : FileSystem) (p : FilePrinter) : Placed (finalize s p) p := by
  obtain ⟨h, hsame⟩ | ⟨place, hlocate, _, hwrite⟩ := finalize_cases s p
  · rwa [hsame]
  · refine .inr (.inr (.inl ?_))
    rw [FileSystem.readFile, locate_finalize, hlocate, hwrite]
    exact Function.update_self ..

def Apart (s : FileSystem) (p q : FilePrinter) : Prop :=
  ∀ place, s.locate p.mDestFileName = some place → s.locate q.mDestFileName ≠ some place

theorem placed_frame (hapart : Apart s p q) (h : Placed s p) : Placed (finalize s q) p := by
  obtain ⟨_, hsame⟩ | ⟨place, hlocate, _, hwrite⟩ := finalize_cases s q
  · rwa [hsame]
  obtain ⟨_, hdirs, hwritable⟩ := finalize_dirs s q
  rcases h with h | h | h | h
  · exact .inl h
  · exact .inr (.inl h)
  · refine .inr (.inr (.inl ?_))
    obtain ⟨place', hlocate', hfile⟩ := Option.bind_eq_some_iff.mp h
    have hne : place' ≠ place := fun heq => hapart _ hlocate' (heq ▸ hlocate)
    rw [FileSystem.readFile, locate_finalize, hlocate', hwrite]
    exact (Function.update_of_ne hne ..).trans hfile
  · refine .inr (.inr (.inr fun place' hlocate' => ?_))
    rw [locate_finalize] at hlocate'
    rw [hdirs, hwritable]
    exact h place' hlocate'

theorem finalize_frame (h : s.locate p.mDestFileName ≠ some place) :
    (finalize s p).files place = s.files place ∧ (place ∈ (finalize s p).saved ↔ place ∈ s.saved) := by
  obtain ⟨_, hsame⟩ | ⟨place', hlocate, _, hwrite⟩ := finalize_cases s p
  · rw [hsame]
    exact ⟨rfl, Iff.rfl⟩
  · have hne : place ≠ place' := fun heq => h (heq ▸ hlocate)
    rw [hwrite]
    exact ⟨Function.update_of_ne hne .., by simp [hne]⟩

theorem settled_finalize {d : Place} {names : List Text} (h : Settled s d names) :
    Settled (finalize s p) d names := by
  obtain ⟨_, hsame⟩ | ⟨place', _, _, hwrite⟩ := finalize_cases s p
  · rwa [hsame]
  intro place hplace
  rw [walk_congr (finalize_dirs s p).2.1] at hplace
  have hstuck := h place hplace
  rw [hwrite, FileSystem.creatable]
  rw [FileSystem.creatable] at hstuck
  simp only
  by_cases heq : place = place'
  · rw [heq, Function.update_self]
    simp
  · rwa [Function.update_of_ne heq]

variable {ps : List FilePrinter}

theorem foldl_dirs (s : FileSystem) (ps : List FilePrinter) : (ps.foldl finalize s).cwd = s.cwd ∧
    (ps.foldl finalize s).dirs = s.dirs ∧ (ps.foldl finalize s).writable = s.writable := by
  induction ps generalizing s with
  | nil => exact ⟨rfl, rfl, rfl⟩
  | cons p ps ih =>
      obtain ⟨h1, h2, h3⟩ := finalize_dirs s p
      obtain ⟨h1', h2', h3'⟩ := ih (finalize s p)
      exact ⟨h1'.trans h1, h2'.trans h2, h3'.trans h3⟩

theorem foldl_frame (h : ∀ p ∈ ps, s.locate p.mDestFileName ≠ some place) :
    (ps.foldl finalize s).files place = s.files place ∧
      (place ∈ (ps.foldl finalize s).saved ↔ place ∈ s.saved) := by
  induction ps generalizing s with
  | nil => exact ⟨rfl, Iff.rfl⟩
  | cons p ps ih =>
      rw [List.forall_mem_cons] at h
      obtain ⟨hfiles, hsaved⟩ := finalize_frame h.1
      have hrest : ∀ q ∈ ps, (finalize s p).locate q.mDestFileName ≠ some place := fun q hq => by
        rw [locate_finalize]
        exact h.2 q hq
      obtain ⟨hfiles', hsaved'⟩ := ih hrest
      exact ⟨hfiles'.trans hfiles, hsaved'.trans hsaved⟩

theorem foldl_settled {d : Place} {names : List Text} (h : Settled s d names) :
    Settled (ps.foldl finalize s) d names := by
  induction ps generalizing s with
  | nil => exact h
  | cons p ps ih => exact ih (settled_finalize h)

theorem apart_finalize {p' : FilePrinter} (h : Apart s p q) : Apart (finalize s p') p q := by
  intro place hplace
  rw [locate_finalize] at hplace ⊢
  exact h place hplace

theorem placed_foldl (hapart : ∀ q ∈ ps, Apart s p q) (h : Placed s p) :
    Placed (ps.foldl finalize s) p := by
  induction ps generalizing s with
  | nil => exact h
  | cons q ps ih =>
      rw [List.forall_mem_cons] at hapart
      exact ih (fun q' hq' => apart_finalize (hapart.2 q' hq')) (placed_frame hapart.1 h)

theorem foldl_placed (hapart : ps.Pairwise (Apart s)) : ∀ p ∈ ps, Placed (ps.foldl finalize s) p := by
  induction ps generalizing s with
  | nil => exact fun p hp => absurd hp List.not_mem_nil
  | cons q ps ih =>
      rw [List.pairwise_cons] at hapart
      rw [List.forall_mem_cons]
      have hafter : ∀ p ∈ ps, Apart (finalize s q) q p := fun p hp => apart_finalize (hapart.1 p hp)
      have hfirst : Placed (ps.foldl finalize (finalize s q)) q :=
        placed_foldl hafter (placed_finalize s q)
      exact ⟨hfirst, ih (hapart.2.imp apart_finalize)⟩

theorem foldl_same (h : ∀ p ∈ ps, Placed s p) : ps.foldl finalize s = s := by
  induction ps with
  | nil => rfl
  | cons p ps ih =>
      rw [List.forall_mem_cons] at h
      rw [List.foldl_cons, finalize_placed h.1]
      exact ih h.2

end Files

section Names

variable {s : FileSystem} {d : DOM}

theorem take_dot {rest : Text} {c : Char} {n : Nat} (hlen : d.mFilename.length ≤ 509)
    (hn : (511 - d.mFilename.length) = n + 2) :
    (d.mFilename ++ '.' :: c :: rest).take nameRoom = d.mFilename ++ '.' :: c :: rest.take n := by
  rw [List.take_append, List.take_of_length_le (by rw [nameRoom]; omega), nameRoom, hn]
  rfl

theorem fileName_last (hlen : d.mFilename.length ≤ 509) :
    (∃ front, fileName d ".h" = front ++ ['h']) ∧
      ∃ front c, (c = 'c' ∨ c = 'p') ∧ fileName d ".cpp" = front ++ [c] := by
  obtain ⟨n, hn⟩ : ∃ n, 511 - d.mFilename.length = n + 2 := ⟨509 - d.mFilename.length, by omega⟩
  rw [@fileName_eq d 'h' [] ".h" rfl, @fileName_eq d 'c' ['p', 'p'] ".cpp" rfl, take_dot hlen hn,
    take_dot hlen hn, List.take_nil]
  refine ⟨⟨d.mFilename ++ ['.'], by simp⟩, ?_⟩
  match n with
  | 0 => exact ⟨d.mFilename ++ ['.'], 'c', .inl rfl, by simp⟩
  | 1 => exact ⟨d.mFilename ++ ['.', 'c'], 'p', .inr rfl, by simp⟩
  | n + 2 => exact ⟨d.mFilename ++ ['.', 'c', 'p'], 'p', .inr rfl, by simp⟩

theorem fpout_append (front : Text) (c : Char) (destDir : Text) :
    fpout (front ++ [c]) destDir = fpout front destDir ++ [c] := by
  simp [fpout]

theorem printers_apart (hlen : d.mFilename.length ≤ 509) (destDir : Text) (t : Texts) :
    (printers d destDir false t).Pairwise (Apart s) := by
  have hnone : ∀ {output} {q : FilePrinter}, Apart s ⟨[], output⟩ q := fun place hplace => by
    cases hplace
  obtain ⟨⟨front, hh⟩, front', c, hc, hcpp⟩ := fileName_last hlen
  have hapart : ∀ header implementation, Apart s ⟨fpout (fileName d ".h") destDir, header⟩
      ⟨fpout (fileName d ".cpp") destDir, implementation⟩ := by
    intro header implementation place hplace
    have hslash : c ≠ '/' := by obtain rfl | rfl := hc <;> decide
    have hne : 'h' ≠ c := by obtain rfl | rfl := hc <;> decide
    simp only [hh, hcpp, fpout_append] at hplace ⊢
    exact locate_ne (by decide) hslash hne hplace
  rw [printers]
  cases d.mPlainOldData with
  | true => exact List.pairwise_pair.mpr hnone
  | false =>
      simp only [Bool.false_eq_true, if_false, List.pairwise_cons, List.mem_cons, List.not_mem_nil,
        or_false, forall_eq_or_imp, forall_eq, false_implies, implies_true, List.Pairwise.nil, and_true]
      exact ⟨⟨hnone, hnone⟩, hapart _ _⟩

theorem printers_last (hlen : d.mFilename.length ≤ 509) (destDir : Text) (t : Texts) :
    ∀ p ∈ printers d destDir false t, p.mDestFileName = [] ∨
      ∃ front c, c ∈ ['h', 'c', 'p'] ∧ p.mDestFileName = front ++ [c] := by
  obtain ⟨⟨front, hh⟩, front', c, hc, hcpp⟩ := fileName_last hlen
  have hheader : ∃ front c, c ∈ ['h', 'c', 'p'] ∧ fpout (fileName d ".h") destDir = front ++ [c] :=
    ⟨_, 'h', by decide, by rw [hh, fpout_append]⟩
  have himplementation : ∃ front c, c ∈ ['h', 'c', 'p'] ∧
      fpout (fileName d ".cpp") destDir = front ++ [c] :=
    ⟨_, c, by obtain rfl | rfl := hc <;> decide, by rw [hcpp, fpout_append]⟩
  intro p hp
  rw [printers] at hp
  cases hpod : d.mPlainOldData with
  | true =>
      simp only [hpod, if_true, List.mem_cons, List.not_mem_nil, or_false] at hp
      obtain rfl | rfl := hp
      · exact .inl rfl
      · exact .inr hheader
  | false =>
      simp only [hpod, Bool.false_eq_true, if_false, List.mem_cons, List.not_mem_nil, or_false] at hp
      obtain rfl | rfl | rfl := hp
      · exact .inl rfl
      · exact .inr hheader
      · exact .inr himplementation

end Names

section Runs

variable {s : FileSystem} {stack : Stack} {d : DOM} {destDir : Text}

def printed (stack : Stack) (d : DOM) (destDir : Text) : List FilePrinter :=
  match texts stack d with
  | none => []
  | some t => printers d destDir false t

theorem saveCPP_eq (hnamespace : d.mNamespace ≠ []) (hfilename : d.mFilename ≠ []) :
    saveCPP stack d destDir s =
      (printed stack d destDir).foldl finalize (recursiveCreatePath destDir s) := by
  rw [saveCPP, if_neg hnamespace, if_neg hfilename, printed]
  simp only [recursiveCreatePath_again]
  cases texts stack d <;> rfl

theorem recursiveCreatePath_foldl (destDir : Text) (ps : List FilePrinter) (s : FileSystem) :
    recursiveCreatePath destDir (ps.foldl finalize (recursiveCreatePath destDir s)) =
      ps.foldl finalize (recursiveCreatePath destDir s) := by
  refine recursiveCreatePath_settled fun path hpath => ?_
  rw [start_congr (foldl_dirs _ ps).1]
  exact foldl_settled (recursiveCreatePath_settles destDir s path hpath)

theorem printed_apart (hlen : d.mFilename.length ≤ 509) (stack : Stack) (destDir : Text) (s : FileSystem) :
    (printed stack d destDir).Pairwise (Apart s) := by
  rw [printed]
  cases texts stack d with
  | none => exact List.Pairwise.nil
  | some t => exact printers_apart hlen destDir t

theorem printed_last (hlen : d.mFilename.length ≤ 509) (stack : Stack) (destDir : Text) :
    ∀ p ∈ printed stack d destDir, p.mDestFileName = [] ∨
      ∃ front c, c ∈ ['h', 'c', 'p'] ∧ p.mDestFileName = front ++ [c] := by
  rw [printed]
  cases texts stack d with
  | none => exact fun p hp => absurd hp List.not_mem_nil
  | some t => exact printers_last hlen destDir t

/-- A run that has come to its end: `s'` is the file system after it. -/
structure Produced (destDir : Text) (ps : List FilePrinter) (s s' : FileSystem) : Prop where
  dirs : s'.cwd = s.cwd ∧ s'.dirs = (recursiveCreatePath destDir s).dirs ∧ s'.writable = s.writable
  placed : ∀ p ∈ ps, Placed s' p
  frame : ∀ place, (∀ p ∈ ps, s'.locate p.mDestFileName ≠ some place) →
    s'.files place = s.files place ∧ (place ∈ s'.saved ↔ place ∈ s.saved)

variable {program csv : Text} {more : List Text} {schema : CreateDOMDef}

theorem main_eq (hparse : parse s csv = some schema) (hnamespace : schema.mDOM.mNamespace ≠ [])
    (hfilename : schema.mDOM.mFilename ≠ []) : main stack (program :: csv :: destDir :: more) s =
      (printed stack schema.mDOM destDir).foldl finalize (recursiveCreatePath destDir s) := by
  rw [main, hparse]
  exact saveCPP_eq hnamespace hfilename

/-- A run puts the files of its printers in their places and leaves all others alone. -/
theorem main_produced (hparse : parse s csv = some schema) (hnamespace : schema.mDOM.mNamespace ≠ [])
    (hfilename : schema.mDOM.mFilename ≠ []) (hlen : schema.mDOM.mFilename.length ≤ 509) :
    Produced destDir (printed stack schema.mDOM destDir) s
      (main stack (program :: csv :: destDir :: more) s) := by
  obtain ⟨hcwd, hfiles, hwritable, hsaved⟩ := recursiveCreatePath_frame destDir s
  obtain ⟨hcwd', hdirs, hwritable'⟩ :=
    foldl_dirs (recursiveCreatePath destDir s) (printed stack schema.mDOM destDir)
  rw [main_eq hparse hnamespace hfilename]
  refine ⟨⟨hcwd'.trans hcwd, hdirs, hwritable'.trans hwritable⟩,
    foldl_placed (printed_apart hlen ..), fun place hplace => ?_⟩
  rw [← hfiles, ← hsaved]
  refine foldl_frame fun p hp => ?_
  rw [← locate_congr hcwd' hdirs]
  exact hplace p hp

theorem main_unnamed (h : ∀ schema, parse s csv = some schema →
    schema.mDOM.mNamespace = [] ∨ schema.mDOM.mFilename = []) :
    main stack (program :: csv :: destDir :: more) s = s := by
  rw [main]
  cases hparse : parse s csv with
  | none => rfl
  | some schema => obtain h | h := h schema hparse <;> simp [saveCPP, h]

theorem texts_congr {stack' : Stack}
    (hpod : d.mPlainOldData = true → texts stack d = texts stack' d) : texts stack d = texts stack' d := by
  cases h : d.mPlainOldData with
  | true => exact hpod h
  | false => rw [texts, texts, h, if_neg Bool.false_ne_true, if_neg Bool.false_ne_true]

/-- A second run on the same schema changes nothing, and opens no file to write. -/
theorem main_again {stack' : Stack}
    (hlen : ∀ schema, parse s csv = some schema → schema.mDOM.mFilename.length ≤ 509)
    (hpod : ∀ schema, parse s csv = some schema → schema.mDOM.mPlainOldData = true →
      texts stack schema.mDOM = texts stack' schema.mDOM)
    (hkept : (main stack (program :: csv :: destDir :: more) s).readFile csv = s.readFile csv) :
    main stack' (program :: csv :: destDir :: more) (main stack (program :: csv :: destDir :: more) s) =
      main stack (program :: csv :: destDir :: more) s := by
  have hparse' : parse (main stack (program :: csv :: destDir :: more) s) csv = parse s csv := by
    rw [parse, parse, hkept]
  by_cases hnone : ∀ schema, parse s csv = some schema →
      schema.mDOM.mNamespace = [] ∨ schema.mDOM.mFilename = []
  · rw [main_unnamed (by rwa [hparse'])]
  push Not at hnone
  obtain ⟨schema, hparse, hnamespace, hfilename⟩ := hnone
  have hprinted : printed stack' schema.mDOM destDir = printed stack schema.mDOM destDir := by
    rw [printed, printed, texts_congr (hpod schema hparse)]
  rw [main_eq (hparse'.trans hparse) hnamespace hfilename, main_eq hparse hnamespace hfilename,
    hprinted, recursiveCreatePath_foldl]
  exact foldl_same (foldl_placed (printed_apart (hlen schema hparse) ..))

theorem readFile_main {front : Text} {c : Char} (hcsv : csv = front ++ [c]) (hslash : c ≠ '/')
    (hc : c ∉ ['h', 'c', 'p'])
    (hlen : ∀ schema, parse s csv = some schema → schema.mDOM.mFilename.length ≤ 509) :
    (main stack (program :: csv :: destDir :: more) s).readFile csv = s.readFile csv := by
  by_cases hnone : ∀ schema, parse s csv = some schema →
      schema.mDOM.mNamespace = [] ∨ schema.mDOM.mFilename = []
  · rw [main_unnamed hnone]
  push Not at hnone
  obtain ⟨schema, hparse, hnamespace, hfilename⟩ := hnone
  cases hread : s.readFile csv with
  | none =>
      rw [parse, hread] at hparse
      cases hparse
      exact absurd rfl hnamespace
  | some data =>
      obtain ⟨place, hplace, hfile⟩ := Option.bind_eq_some_iff.mp hread
      have hframe := recursiveCreatePath_frame destDir s
      have hplace' : (recursiveCreatePath destDir s).locate csv = some place :=
        locate_mono hframe.1 (fun _ => recursiveCreatePath_dirs destDir) hplace
      obtain ⟨hcwd, hdirs, _⟩ :=
        foldl_dirs (recursiveCreatePath destDir s) (printed stack schema.mDOM destDir)
      have hother : ∀ p ∈ printed stack schema.mDOM destDir,
          (recursiveCreatePath destDir s).locate p.mDestFileName ≠ some place := by
        intro p hp hsame
        obtain hnil | ⟨front', c', hc', hname⟩ := printed_last (hlen schema hparse) stack destDir p hp
        · rw [hnil] at hsame
          cases hsame
        · rw [hcsv] at hplace'
          rw [hname] at hsame
          have hslash' : c' ≠ '/' := fun heq => absurd (heq ▸ hc') (by decide)
          have hne : c' ≠ c := fun heq => hc (heq ▸ hc')
          exact locate_ne hslash' hslash hne hsame hplace'
      rw [main_eq hparse hnamespace hfilename, FileSystem.readFile, locate_congr hcwd hdirs, hplace']
      have hkept := (foldl_frame hother).1.trans (congrFun hframe.2.1 place)
      exact hkept.trans hfile

section Examples

def notesFiles : FileSystem where
  cwd := []
  dirs := fun p => p = ["out".toList]
  files := fun p =>
    if p = ["notes.csv".toList] then
      some ("Namespace,app".toList ++ CsvReader.lf :: "Filename,Notes".toList ++ [CsvReader.lf])
    else none
  writable := fun _ => true

theorem parse_notes : ∃ schema, parse notesFiles "notes.csv".toList = some schema ∧
    schema.mDOM.mNamespace = "app".toList ∧ schema.mDOM.mFilename = "Notes".toList ∧
      schema.mDOM.mPlainOldData = false :=
  ⟨_, rfl, rfl, rfl, rfl⟩

def notesArgs : List Text := ["SchemaCodeGen".toList, "notes.csv".toList, "out/app".toList]

def noStack : Stack := fun _ _ => ' '

theorem main_produced_notes : ∃ schema, parse notesFiles "notes.csv".toList = some schema ∧
    Produced "out/app".toList (printed noStack schema.mDOM "out/app".toList) notesFiles
      (main noStack notesArgs notesFiles) := by
  obtain ⟨schema, hparse, hnamespace, hfilename, _⟩ := parse_notes
  refine ⟨schema, hparse, main_produced hparse ?_ ?_ ?_⟩
  · rw [hnamespace]
    decide
  · rw [hfilename]
    decide
  · rw [hfilename]
    decide

theorem main_again_notes : main (fun _ _ => 'A') notesArgs (main noStack notesArgs notesFiles) =
    main noStack notesArgs notesFiles := by
  obtain ⟨schema, hparse, _, hfilename, hpod⟩ := parse_notes
  have hschema : ∀ schema', parse notesFiles "notes.csv".toList = some schema' → schema = schema' :=
    fun schema' h => Option.some.inj (hparse.symm.trans h)
  have hlen : ∀ schema', parse notesFiles "notes.csv".toList = some schema' →
      schema'.mDOM.mFilename.length ≤ 509 := by
    intro schema' h
    rw [← hschema schema' h, hfilename]
    decide
  refine main_again hlen (fun schema' h hp => ?_)
    (@readFile_main _ _ _ _ _ _ "notes.cs".toList 'v' rfl (by decide) (by decide) hlen)
  rw [← hschema schema' h, hpod] at hp
  exact absurd hp (by decide)

end Examples

end Runs

end SchemaCodeGen.GeneratorRuns
