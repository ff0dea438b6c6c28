import Mathlib.Logic.Function.Basic
import SchemaCodeGen.CString

namespace SchemaCodeGen.FileSystems

open CString

abbrev Place := List Text

/-- `saved` are the files that have been opened to write. An entry can be created, and a file
opened to write, where `writable` allows it. -/
structure FileSystem where
  cwd : Place
  dirs : Place → Bool
  files : Place → Option Text
  writable : Place → Bool
  saved : List Place := []

section Paths

def flush (name : Text) : List Text := if name = [] then [] else [name]

def addChar : List Text × Text → Char → List Text × Text
  | (names, name), c => if c = '/' then (names ++ flush name, []) else (names, name ++ [c])

def segments (path : Text) : List Text × Text := path.foldl addChar ([], [])

def components (path : Text) : List Text := (segments path).1 ++ flush (segments path).2

theorem segments_snoc (path : Text) (c : Char) : segments (path ++ [c]) = addChar (segments path) c := by
  rw [segments, List.foldl_append]
  rfl

theorem segments_slash (path : Text) : (segments (path ++ ['/'])).1 = components path := by
  rw [segments_snoc]
  rfl

theorem segments_other (path : Text) {c : Char} (hc : c ≠ '/') :
    (segments (path ++ [c])).1 = (segments path).1 := by
  rw [segments_snoc, addChar, if_neg hc]

theorem dropLast_components (path : Text) : (components path).dropLast <+: (segments path).1 := by
  rw [components, flush]
  split_ifs
  · rw [List.append_nil]
    exact List.dropLast_prefix _
  · exact ⟨[], by rw [List.dropLast_concat, List.append_nil]⟩

end Paths

section Walks

variable (s : FileSystem)

def FileSystem.start (path : Text) : Place := if path.head? = some '/' then [] else s.cwd

/-- Where the names lead, or the first place on the way that is no directory. -/
def FileSystem.walk : Place → List Text → Except Place Place
  | d, [] => .ok d
  | d, name :: names =>
      if name = ".".toList then walk d names
      else if name = "..".toList then walk d.dropLast names
      else if s.dirs (d ++ [name]) then walk (d ++ [name]) names
      else .error (d ++ [name])

/-- The place of the last name of a path. -/
def FileSystem.locate (path : Text) : Option Place :=
  match (components path).getLast? with
  | none => none
  | some name =>
      if name = ".".toList ∨ name = "..".toList then none
      else ((s.walk (s.start path) (components path).dropLast).toOption).map (· ++ [name])

def FileSystem.readFile (path : Text) : Option Text := (s.locate path).bind s.files

def FileSystem.creatable (p : Place) : Bool := !s.dirs p && (s.files p).isNone && s.writable p

def FileSystem.mkdir (path : Text) : Bool × FileSystem :=
  match s.locate path with
  | some p => if s.creatable p then (true, { s with dirs := Function.update s.dirs p true }) else (false, s)
  | none => (false, s)

def FileSystem.writeFile (path content : Text) : FileSystem :=
  match s.locate path with
  | some p =>
      if s.dirs p || !s.writable p then s
      else { s with files := Function.update s.files p (some content), saved := p :: s.saved }
  | none => s

end Walks

section Directories

variable {s : FileSystem} {d : Place} {names : List Text} {path : Text}

theorem walk_append (d : Place) (names names' : List Text) :
    s.walk d (names ++ names') = s.walk d names >>= fun d => s.walk d names' := by
  induction names generalizing d with
  | nil => rfl
  | cons name names ih =>
      simp only [List.cons_append, FileSystem.walk]
      split_ifs
      · exact ih d
      · exact ih _
      · exact ih _
      · rfl

/-- Nothing can be created where the names stop leading on. -/
def Settled (s : FileSystem) (d : Place) (names : List Text) : Prop :=
  ∀ p, s.walk d names = .error p → s.creatable p = false

theorem settled_nil (s : FileSystem) (d : Place) : Settled s d [] := by
  intro p h
  cases h

theorem Settled.front {names' : List Text} (h : Settled s d names) (hle : names' <+: names) :
    Settled s d names' := by
  obtain ⟨rest, rfl⟩ := hle
  intro p hp
  refine h p ?_
  rw [walk_append, hp]
  rfl

theorem mkdir_cases (s : FileSystem) (path : Text) : (s.mkdir path).2 = s ∨
    ∃ p, s.locate path = some p ∧ s.creatable p = true ∧
      s.mkdir path = (true, { s with dirs := Function.update s.dirs p true }) := by
  rw [FileSystem.mkdir]
  split
  next p hlocate =>
    split_ifs with hcreate
    · exact .inr ⟨p, hlocate, hcreate, rfl⟩
    · exact .inl rfl
  next => exact .inl rfl

theorem mkdir_frame (s : FileSystem) (path : Text) : (s.mkdir path).2.cwd = s.cwd ∧
    (s.mkdir path).2.files = s.files ∧ (s.mkdir path).2.writable = s.writable ∧
      (s.mkdir path).2.saved = s.saved := by
  obtain h | ⟨p, _, _, h⟩ := mkdir_cases s path <;> rw [h] <;> exact ⟨rfl, rfl, rfl, rfl⟩

theorem mkdir_dirs {p : Place} (h : s.dirs p = true) : (s.mkdir path).2.dirs p = true := by
  obtain hsame | ⟨q, _, _, hmk⟩ := mkdir_cases s path
  · rwa [hsame]
  · rw [hmk]
    by_cases hp : p = q
    · rw [hp]
      exact Function.update_self ..
    · exact (Function.update_of_ne hp ..).trans h

theorem walk_mono {s' : FileSystem} (hdirs : ∀ p, s.dirs p = true → s'.dirs p = true) {d' : Place}
    (h : s.walk d names = .ok d') : s'.walk d names = .ok d' := by
  induction names generalizing d with
  | nil => exact h
  | cons name names ih =>
      simp only [FileSystem.walk] at h ⊢
      by_cases hdot : name = ".".toList
      · rw [if_pos hdot] at h ⊢
        exact ih h
      by_cases hdots : name = "..".toList
      · rw [if_neg hdot, if_pos hdots] at h ⊢
        exact ih h
      rw [if_neg hdot, if_neg hdots] at h ⊢
      by_cases hdir : s.dirs (d ++ [name]) = true
      · rw [if_pos hdir] at h
        rw [if_pos (hdirs _ hdir)]
        exact ih h
      · rw [if_neg hdir] at h
        cases h

theorem settled_update {q : Place} (hcreate : s.creatable q = true) (h : Settled s d names) :
    Settled { s with dirs := Function.update s.dirs q true } d names := by
  intro p hp
  rw [Settled] at h
  induction names generalizing d with
  | nil => cases hp
  | cons name names ih =>
      simp only [FileSystem.walk] at h hp
      by_cases hdot : name = ".".toList
      · simp only [if_pos hdot] at h hp
        exact ih h hp
      by_cases hdots : name = "..".toList
      · simp only [if_neg hdot, if_pos hdots] at h hp
        exact ih h hp
      simp only [if_neg hdot, if_neg hdots] at h hp
      by_cases hdir : s.dirs (d ++ [name]) = true
      · have hdir' : Function.update s.dirs q true (d ++ [name]) = true := by
          rw [Function.update_apply]
          split_ifs
          · rfl
          · exact hdir
        rw [if_pos hdir'] at hp
        simp only [if_pos hdir] at h
        exact ih h hp
      · -- What is created is not what was missing here.
        simp only [if_neg hdir] at h
        have hstuck := h _ rfl
        have hne : d ++ [name] ≠ q := fun heq => by
          rw [heq, hcreate] at hstuck
          cases hstuck
        have hdir' : ¬ Function.update s.dirs q true (d ++ [name]) = true := by
          rwa [Function.update_of_ne hne]
        rw [if_neg hdir'] at hp
        cases hp
        simpa only [FileSystem.creatable, Function.update_of_ne hne] using hstuck

theorem settled_mkdir (h : Settled s d names) : Settled (s.mkdir path).2 d names := by
  obtain hsame | ⟨q, _, hcreate, hmk⟩ := mkdir_cases s path
  · rwa [hsame]
  · rw [hmk]
    exact settled_update hcreate h

theorem locate_cases (s : FileSystem) (path : Text) :
    (s.locate path = none ∧ ∀ s' : FileSystem, Settled s' (s.start path) (components path).dropLast →
        Settled s' (s.start path) (components path)) ∨
      ∃ name, components path = (components path).dropLast ++ [name] ∧
        name ≠ ".".toList ∧ name ≠ "..".toList ∧ s.locate path =
          ((s.walk (s.start path) (components path).dropLast).toOption).map (· ++ [name]) := by
  rcases List.eq_nil_or_concat (components path) with hnil | ⟨front, name, hcomponents⟩
  · refine .inl ⟨by rw [FileSystem.locate, hnil]; rfl, fun s' _ => ?_⟩
    rw [hnil]
    exact settled_nil s' _
  · rw [List.concat_eq_append] at hcomponents
    rw [FileSystem.locate, hcomponents, List.dropLast_concat, List.getLast?_concat]
    by_cases hdots : name = ".".toList ∨ name = "..".toList
    · refine .inl ⟨if_pos hdots, fun s' h p hp => ?_⟩
      rw [walk_append] at hp
      cases hwalk : s'.walk (s.start path) front with
      | error q =>
          rw [hwalk] at hp
          cases hp
          exact h p hwalk
      | ok d =>
          rw [hwalk] at hp
          have hp : s'.walk d [name] = .error p := hp
          obtain rfl | rfl := hdots <;> cases hp
    · obtain ⟨hdot, hdots'⟩ := not_or.mp hdots
      exact .inr ⟨name, rfl, hdot, hdots', if_neg hdots⟩

theorem locate_mono {s' : FileSystem} (hcwd : s'.cwd = s.cwd)
    (hdirs : ∀ p, s.dirs p = true → s'.dirs p = true) {p : Place}
    (h : s.locate path = some p) : s'.locate path = some p := by
  obtain ⟨hnone, _⟩ | ⟨name, hsplit, hdot, hdots, hlocate⟩ := locate_cases s path
  · rw [hnone] at h
    cases h
  cases hwalk : s.walk (s.start path) (components path).dropLast with
  | error q =>
      rw [hlocate, hwalk] at h
      cases h
  | ok d =>
      have hstart : s'.start path = s.start path := by rw [FileSystem.start, FileSystem.start, hcwd]
      have hname : ¬ (name = ".".toList ∨ name = "..".toList) := not_or.mpr ⟨hdot, hdots⟩
      have hlast : (components path).getLast? = some name := by
        rw [hsplit, List.getLast?_concat]
      rw [hlocate, hwalk] at h
      rw [FileSystem.locate, hlast, hstart, walk_mono hdirs hwalk]
      simp only [if_neg hname]
      exact h

theorem walk_congr {s' : FileSystem} (hdirs : s'.dirs = s.dirs) (d : Place) (names : List Text) :
    s'.walk d names = s.walk d names := by
  induction names generalizing d with
  | nil => rfl
  | cons name names ih => simp only [FileSystem.walk, hdirs, ih]

theorem locate_congr {s' : FileSystem} (hcwd : s'.cwd = s.cwd) (hdirs : s'.dirs = s.dirs) (path : Text) :
    s'.locate path = s.locate path := by
  have hstart : s'.start path = s.start path := by rw [FileSystem.start, FileSystem.start, hcwd]
  simp only [FileSystem.locate, walk_congr hdirs, hstart]

theorem locate_concat {c : Char} (hc : c ≠ '/') {p : Place} (h : s.locate (path ++ [c]) = some p) :
    ∃ d name, p = d ++ [name ++ [c]] := by
  have hlast : (components (path ++ [c])).getLast? = some ((segments path).2 ++ [c]) := by
    rw [components, segments_snoc, addChar, if_neg hc, flush, if_neg (by simp),
      List.getLast?_concat]
  rw [FileSystem.locate, hlast] at h
  simp only at h
  split_ifs at h
  obtain ⟨d, _, rfl⟩ := Option.map_eq_some_iff.mp h
  exact ⟨d, _, rfl⟩

theorem locate_ne {path' : Text} {c c' : Char} (hc : c ≠ '/') (hc' : c' ≠ '/') (hne : c ≠ c') {p : Place}
    (h : s.locate (path ++ [c]) = some p) : s.locate (path' ++ [c']) ≠ some p := by
  intro h'
  obtain ⟨d, name, rfl⟩ := locate_concat hc h
  obtain ⟨d', name', heq⟩ := locate_concat hc' h'
  have hname : name ++ [c] = name' ++ [c'] := List.singleton_inj.mp (List.append_inj' heq rfl).2
  exact hne (List.singleton_inj.mp (List.append_inj' hname rfl).2)

theorem walk_name {name : Text} (hdot : name ≠ ".".toList) (hdots : name ≠ "..".toList) (d : Place) :
    s.walk d [name] = if s.dirs (d ++ [name]) then .ok (d ++ [name]) else .error (d ++ [name]) := by
  simp only [FileSystem.walk, if_neg hdot, if_neg hdots]

theorem mkdir_none (h : s.locate path = none) : s.mkdir path = (false, s) := by
  rw [FileSystem.mkdir]
  simp only [h]

theorem mkdir_some {p : Place} (h : s.locate path = some p) : s.mkdir path =
    if s.creatable p then (true, { s with dirs := Function.update s.dirs p true }) else (false, s) := by
  rw [FileSystem.mkdir]
  simp only [h]

theorem mkdir_settles (h : Settled s (s.start path) (components path).dropLast) :
    Settled (s.mkdir path).2 (s.start path) (components path) := by
  obtain ⟨_, hsettled⟩ | ⟨name, hsplit, hdot, hdots, hlocate⟩ := locate_cases s path
  · exact hsettled _ (settled_mkdir h)
  intro p hp
  rw [hsplit, walk_append] at hp
  cases hwalk : s.walk (s.start path) (components path).dropLast with
  | error q =>
      rw [hwalk] at hlocate
      rw [mkdir_none hlocate] at hp ⊢
      rw [hwalk] at hp
      cases hp
      exact h p hwalk
  | ok d =>
      rw [hwalk] at hlocate
      have hplace : s.locate path = some (d ++ [name]) := hlocate
      have hwalk' := @walk_mono s _ _ (s.mkdir path).2 (fun _ => mkdir_dirs) _ hwalk
      rw [hwalk'] at hp
      have hp : (s.mkdir path).2.walk d [name] = .error p := hp
      rw [walk_name hdot hdots] at hp
      rw [mkdir_some hplace] at hp ⊢
      by_cases hcreate : s.creatable (d ++ [name]) = true
      · have hmade : Function.update s.dirs (d ++ [name]) true (d ++ [name]) = true :=
          Function.update_self ..
        rw [if_pos hcreate, if_pos hmade] at hp
        cases hp
      · rw [if_neg hcreate] at hp ⊢
        split_ifs at hp
        cases hp
        simpa using hcreate

theorem mkdir_settled (h : Settled s (s.start path) (components path)) : s.mkdir path = (false, s) := by
  obtain ⟨hnone, _⟩ | ⟨name, hsplit, hdot, hdots, hlocate⟩ := locate_cases s path
  · exact mkdir_none hnone
  cases hwalk : s.walk (s.start path) (components path).dropLast with
  | error q =>
      rw [hwalk] at hlocate
      exact mkdir_none hlocate
  | ok d =>
      rw [hwalk] at hlocate
      have hplace : s.locate path = some (d ++ [name]) := hlocate
      have hfree : s.creatable (d ++ [name]) = false := by
        by_cases hdir : s.dirs (d ++ [name]) = true
        · rw [FileSystem.creatable, hdir]
          rfl
        · refine h _ ?_
          rw [hsplit, walk_append, hwalk]
          show s.walk d [name] = _
          rw [walk_name hdot hdots, if_neg hdir]
      rw [mkdir_some hplace, hfree]
      rfl

end Directories

end SchemaCodeGen.FileSystems
