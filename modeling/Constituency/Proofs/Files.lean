import Constituency.CommandLine.Directory

/-!
Paths and the files they lead to. Writing only ever adds files, so a path that led somewhere still
leads there. A path that can be written leads to one file of the directory or out of its sight, and
a file keeps its bytes when other files are written.
-/
namespace Constituency.CommandLine.Directory

variable {d : Directory} {name : String} {bytes : Bytes}

/-- Both paths lead to one file. -/
def SameFile (d : Directory) (p q : String) : Prop :=
  ∃ name, d.find p = .ok (.file name) ∧ d.find q = .ok (.file name)

/-- The path can be written. -/
def Writable (d : Directory) (path : String) : Prop := ∃ d', d.write path [] = .ok d'

/-- The path can be written, and what is written can be read from it again. -/
def Keeps (d : Directory) (path : String) : Prop :=
  ∃ d', d.write path [] = .ok d' ∧ d'.read path = .ok []

/-- A chain succeeds when its first part does and the rest does with what that gave. -/
theorem bind_eq_ok_iff {ε α β : Type} {x : Except ε α} {f : α → Except ε β} {b : β} :
    x >>= f = .ok b ↔ ∃ a, x = .ok a ∧ f a = .ok b := by
  cases x <;> simp [bind, Except.bind]

/-- A step leads to a directory, whatever files there are, or to a file that is there. -/
theorem step_cases {place place' : Place} {part : String} (h : d.step place part = .ok place') :
    (∀ e : Directory, e.step place part = .ok place') ∨
      place' = .file part ∧ (d.get? part).isSome = true ∧
        ∀ e : Directory, (e.get? part).isSome = true → e.step place part = .ok place' := by
  cases place with
  | file => cases h
  | above => exact .inl fun _ => h
  | here =>
    by_cases hdot : part = "."
    · simp only [step, if_pos hdot] at h ⊢
      exact .inl fun _ => h
    by_cases hup : part = ".."
    · simp only [step, if_neg hdot, if_pos hup] at h ⊢
      exact .inl fun _ => h
    simp only [step, if_neg hdot, if_neg hup] at h ⊢
    split at h
    · cases h
    · next hlong =>
      split at h
      · next hfound =>
        obtain rfl := Except.ok.inj h
        exact .inr ⟨rfl, hfound, fun e he => by rw [if_neg hlong, if_pos he]⟩
      · cases h

theorem isSome_get?_put {part : String} (h : (d.get? part).isSome = true) :
    ((d.put name bytes).get? part).isSome = true := by
  by_cases heq : part = name
  · rw [heq, get?_put]
    rfl
  · rwa [get?_put_other d bytes heq]

/-- A step that succeeds still does when a file is added. -/
theorem step_put {place place' : Place} {part : String} (h : d.step place part = .ok place') :
    (d.put name bytes).step place part = .ok place' := by
  obtain hall | ⟨-, hfound, hall⟩ := step_cases h
  · exact hall _
  · exact hall _ (isSome_get?_put hfound)

theorem foldlM_step_put {parts : List String} {place place' : Place}
    (h : parts.foldlM d.step place = .ok place') :
    parts.foldlM (d.put name bytes).step place = .ok place' := by
  induction parts generalizing place with
  | nil => exact h
  | cons part parts ih =>
    rw [List.foldlM_cons, bind_eq_ok_iff] at h ⊢
    obtain ⟨next, hstep, hrest⟩ := h
    exact ⟨next, step_put hstep, ih hrest⟩

theorem follow_eq_ok_iff {place place' : Place} {parts : List String} {slashed : Bool} :
    d.follow place parts slashed = .ok place' ↔ ∃ found, parts.foldlM d.step place = .ok found ∧
      (if slashed then d.step found "." else .ok found) = .ok place' := by
  rw [follow, bind_eq_ok_iff]
  rfl

theorem follow_put {place place' : Place} {parts : List String} {slashed : Bool}
    (h : d.follow place parts slashed = .ok place') :
    (d.put name bytes).follow place parts slashed = .ok place' := by
  obtain ⟨found, hfound, hlast⟩ := follow_eq_ok_iff.mp h
  refine follow_eq_ok_iff.mpr ⟨found, foldlM_step_put hfound, ?_⟩
  cases slashed with
  | false => exact hlast
  | true => exact step_put hlast

/-- Only a directory has itself inside. -/
theorem step_dot {place place' : Place} (h : d.step place "." = .ok place') :
    place = place' ∧ ∀ name, place' ≠ .file name := by
  cases place with
  | file => cases h
  | here =>
    obtain rfl : .here = place' := Except.ok.inj h
    exact ⟨rfl, by simp⟩
  | above =>
    obtain rfl : .above = place' := Except.ok.inj h
    exact ⟨rfl, by simp⟩

theorem follow_directory {place place' : Place} {parts : List String}
    (h : d.follow place parts true = .ok place') :
    parts.foldlM d.step place = .ok place' ∧ ∀ name, place' ≠ .file name := by
  obtain ⟨found, hfound, hlast⟩ := follow_eq_ok_iff.mp h
  obtain ⟨rfl, hdirectory⟩ := step_dot hlast
  exact ⟨hfound, hdirectory⟩

theorem find_eq_ok_iff {text : String} {place : Place} : d.find text = .ok place ↔
    ∃ path, pathOf text = .ok path ∧ d.follow (start path) path.parts path.slashed = .ok place := by
  rw [find, bind_eq_ok_iff]

/-- A path leads where it led before. -/
theorem find_put {text : String} {place : Place} (h : d.find text = .ok place) :
    (d.put name bytes).find text = .ok place := by
  obtain ⟨path, hpath, hfollow⟩ := find_eq_ok_iff.mp h
  exact find_eq_ok_iff.mpr ⟨path, hpath, follow_put hfollow⟩

/-- A step that succeeds once a file is added did so before, unless it leads to that file. -/
theorem step_of_put {place place' : Place} {part : String}
    (h : (d.put name bytes).step place part = .ok place')
    (hfile : ∀ file, place' = .file file → (d.get? file).isSome = true) :
    d.step place part = .ok place' := by
  obtain hall | ⟨hplace, -, hall⟩ := step_cases h
  · exact hall d
  · exact hall d (hfile part hplace)

/-- A file leads nowhere. -/
theorem eq_of_foldlM_step_file {file : String} {parts : List String} {place : Place}
    (h : parts.foldlM d.step (.file file) = .ok place) : place = .file file := by
  cases parts with
  | nil => exact (Except.ok.inj h).symm
  | cons part parts => cases h

theorem foldlM_step_of_put {parts : List String} {place : Place} {file : String}
    (hfile : (d.get? file).isSome = true)
    (h : parts.foldlM (d.put name bytes).step place = .ok (.file file)) :
    parts.foldlM d.step place = .ok (.file file) := by
  induction parts generalizing place with
  | nil => exact h
  | cons part parts ih =>
    rw [List.foldlM_cons, bind_eq_ok_iff] at h ⊢
    obtain ⟨next, hstep, hrest⟩ := h
    refine ⟨next, step_of_put hstep ?_, ih hrest⟩
    rintro other rfl
    obtain ⟨rfl⟩ := eq_of_foldlM_step_file hrest
    exact hfile

/-- A path that leads to a file that was there before has always led to it. -/
theorem find_of_put {text file : String} (hfile : (d.get? file).isSome = true)
    (h : (d.put name bytes).find text = .ok (.file file)) : d.find text = .ok (.file file) := by
  obtain ⟨path, hpath, hfollow⟩ := find_eq_ok_iff.mp h
  refine find_eq_ok_iff.mpr ⟨path, hpath, ?_⟩
  cases hslashed : path.slashed with
  | true =>
    rw [hslashed] at hfollow
    exact absurd rfl ((follow_directory hfollow).2 file)
  | false =>
    rw [hslashed] at hfollow
    obtain ⟨found, hfound, hlast⟩ := follow_eq_ok_iff.mp hfollow
    obtain rfl : found = .file file := Except.ok.inj hlast
    exact follow_eq_ok_iff.mpr ⟨.file file, foldlM_step_of_put hfile hfound, rfl⟩

theorem read_eq_ok_iff {text : String} : d.read text = .ok bytes ↔
    ∃ name, d.find text = .ok (.file name) ∧ d.get? name = some bytes := by
  rw [read, bind_eq_ok_iff]
  constructor
  · rintro ⟨place, hfind, hget⟩
    cases place with
    | here | above => cases hget
    | file name =>
      refine ⟨name, hfind, ?_⟩
      cases hbytes : d.get? name with
      | none => simp [hbytes, throw, throwThe, MonadExceptOf.throw] at hget
      | some found =>
        simp only [hbytes] at hget
        rw [Except.ok.inj hget]
  · rintro ⟨name, hfind, hget⟩
    exact ⟨.file name, hfind, by simp only [hget]; rfl⟩

theorem probe_of_read {text : String} (h : d.read text = .ok bytes) : d.probe text = .ok () := by
  obtain ⟨name, hfind, -⟩ := read_eq_ok_iff.mp h
  exact bind_eq_ok_iff.mpr ⟨.file name, hfind, rfl⟩

theorem write_of_parts {text : String} {path : Path} {front : List String} {parent : Place}
    (hpath : pathOf text = .ok path) (hparts : path.parts = front ++ [name])
    (hparent : d.follow (start path) front true = .ok parent) (bytes : Bytes) : d.write text bytes =
      if path.slashed ∨ name = "." ∨ name = ".." then .error .isDirectory
      else if Path.partLimit < name.utf8ByteSize then .error .nameTooLong
      else .ok (if parent = .here then d.put name bytes else d) := by
  have hlast : path.parts.getLast? = some name := by rw [hparts, List.getLast?_concat]
  have hfront : path.parts.dropLast = front := by rw [hparts, List.dropLast_concat]
  simp only [write, hpath, hlast, hfront, hparent, bind, Except.bind, pure, Except.pure, throw,
    throwThe, MonadExceptOf.throw]

/-- A path that can be written is cut into the parts before its last one and a name. -/
theorem exists_parts_of_write {text : String} {d' : Directory} (h : d.write text bytes = .ok d') :
    ∃ path front name parent, pathOf text = .ok path ∧ path.parts = front ++ [name] ∧
      d.follow (start path) front true = .ok parent := by
  rw [write, bind_eq_ok_iff] at h
  obtain ⟨path, hpath, h⟩ := h
  cases hlast : path.parts.getLast? with
  | none =>
    simp only [hlast] at h
    cases h
  | some name =>
    obtain ⟨front, hparts⟩ := List.getLast?_eq_some_iff.mp hlast
    simp only [hlast] at h
    rw [hparts, List.dropLast_concat, bind_eq_ok_iff] at h
    obtain ⟨parent, hparent, -⟩ := h
    exact ⟨path, front, name, parent, hpath, hparts, hparent⟩

/-- The name is one that a file can be written under, with no slash behind it. -/
structure Plain (path : Path) (name : String) : Prop where
  not_slashed : path.slashed = false
  not_here : name ≠ "."
  not_above : name ≠ ".."
  size_le : name.utf8ByteSize ≤ Path.partLimit

/-- The parts of a path before its last one lead to this place, where the last one can name a
file. -/
def Names (d : Directory) (text : String) (parent : Place) (name : String) : Prop :=
  ∃ path front, pathOf text = .ok path ∧ path.parts = front ++ [name] ∧
    d.follow (start path) front true = .ok parent ∧ Plain path name

/-- What can be written has a name. -/
theorem exists_names_of_write {text : String} {d' : Directory} (h : d.write text bytes = .ok d') :
    ∃ parent name, d.Names text parent name := by
  obtain ⟨path, front, name, parent, hpath, hparts, hparent⟩ := exists_parts_of_write h
  rw [write_of_parts hpath hparts hparent] at h
  split at h
  · cases h
  · next hname =>
    split at h
    · cases h
    · next hlong =>
      simp only [not_or, Bool.not_eq_true] at hname
      have hplain : Plain path name := ⟨hname.1, hname.2.1, hname.2.2, Nat.not_lt.mp hlong⟩
      exact ⟨parent, name, path, front, hpath, hparts, hparent, hplain⟩

namespace Names

variable {text : String} {parent : Place}

theorem write_eq (h : d.Names text parent name) (bytes : Bytes) :
    d.write text bytes = .ok (if parent = .here then d.put name bytes else d) := by
  obtain ⟨path, front, hpath, hparts, hparent, hplain⟩ := h
  have hname : ¬ (path.slashed ∨ name = "." ∨ name = "..") := by
    simp [hplain.not_slashed, hplain.not_here, hplain.not_above]
  rw [write_of_parts hpath hparts hparent, if_neg hname, if_neg (Nat.not_lt.mpr hplain.size_le)]

theorem put (h : d.Names text parent name) (other : String) (bytes : Bytes) :
    (d.put other bytes).Names text parent name := by
  obtain ⟨path, front, hpath, hparts, hparent, hplain⟩ := h
  exact ⟨path, front, hpath, hparts, follow_put hparent, hplain⟩

/-- Once the file is there, the path leads to it. -/
theorem find_eq (h : d.Names text .here name) (hfile : (d.get? name).isSome = true) :
    d.find text = .ok (.file name) := by
  obtain ⟨path, front, hpath, hparts, hparent, hplain⟩ := h
  have hlast : d.step .here name = .ok (.file name) := by
    simp [step, hplain.not_here, hplain.not_above, Nat.not_lt.mpr hplain.size_le, hfile]
  refine find_eq_ok_iff.mpr ⟨path, hpath,
    follow_eq_ok_iff.mpr ⟨.file name, ?_, by simp [hplain.not_slashed]⟩⟩
  rw [hparts, List.foldlM_append, bind_eq_ok_iff]
  exact ⟨.here, (follow_directory hparent).1, bind_eq_ok_iff.mpr ⟨.file name, hlast, rfl⟩⟩

/-- Nothing above the directory is known by name. -/
theorem find_ne_file (h : d.Names text .above name) (file : String) :
    d.find text ≠ .ok (.file file) := by
  obtain ⟨path, front, hpath, hparts, hparent, hplain⟩ := h
  intro hfind
  obtain ⟨path', hpath', hfollow⟩ := find_eq_ok_iff.mp hfind
  obtain rfl : path = path' := Except.ok.inj (hpath.symm.trans hpath')
  obtain ⟨found, hfound, -⟩ := follow_eq_ok_iff.mp hfollow
  rw [hparts, List.foldlM_append, (follow_directory hparent).1] at hfound
  change [name].foldlM d.step .above = .ok found at hfound
  obtain ⟨place, hstep, -⟩ := bind_eq_ok_iff.mp hfound
  simp [step, hplain.not_here, hplain.not_above, Nat.not_lt.mpr hplain.size_le] at hstep

theorem read_put (h : d.Names text .here name) (bytes : Bytes) :
    (d.put name bytes).read text = .ok bytes := by
  have hget := get?_put d name bytes
  exact read_eq_ok_iff.mpr ⟨name, (h.put name bytes).find_eq (by rw [hget]; rfl), hget⟩

end Names

/-- Writing either puts a file into the directory or is out of its sight, where the path leads to no
file. -/
theorem write_cases {text : String} {d' : Directory} (h : d.write text bytes = .ok d') :
    (∃ name, d.Names text .here name ∧ d' = d.put name bytes) ∨
      d' = d ∧ ∀ file, d.find text ≠ .ok (.file file) := by
  obtain ⟨parent, name, hnames⟩ := exists_names_of_write h
  obtain rfl := Except.ok.inj (h.symm.trans (hnames.write_eq bytes))
  cases parent with
  | file other =>
    obtain ⟨path, front, -, -, hparent, -⟩ := hnames
    exact absurd rfl ((follow_directory hparent).2 other)
  | here => exact .inl ⟨name, hnames, if_pos rfl⟩
  | above => exact .inr ⟨if_neg (by decide), hnames.find_ne_file⟩

theorem Writable.exists_write {path : String} (h : d.Writable path) (bytes : Bytes) :
    ∃ d', d.write path bytes = .ok d' := by
  obtain ⟨_, hwrite⟩ := h
  obtain ⟨parent, name, hnames⟩ := exists_names_of_write hwrite
  exact ⟨_, hnames.write_eq bytes⟩

theorem keeps_iff {path : String} : d.Keeps path ↔ ∃ name, d.Names path .here name := by
  constructor
  · rintro ⟨d', hwrite, hread⟩
    obtain ⟨name, hnames, -⟩ | ⟨rfl, hnowhere⟩ := write_cases hwrite
    · exact ⟨name, hnames⟩
    · obtain ⟨name, hfind, -⟩ := read_eq_ok_iff.mp hread
      exact absurd hfind (hnowhere name)
  · rintro ⟨name, hnames⟩
    exact ⟨d.put name [], hnames.write_eq [], hnames.read_put []⟩

section AfterWriting

variable {path p q : String} {written : Bytes} {d' : Directory}

theorem Writable.after_write (hq : d.Writable q) (h : d.write path written = .ok d') :
    d'.Writable q := by
  obtain ⟨name, -, rfl⟩ | ⟨rfl, -⟩ := write_cases h
  · obtain ⟨_, hwrite⟩ := hq
    obtain ⟨parent, other, hnames⟩ := exists_names_of_write hwrite
    exact ⟨_, (hnames.put name written).write_eq []⟩
  · exact hq

theorem Keeps.after_write (hq : d.Keeps q) (h : d.write path written = .ok d') : d'.Keeps q := by
  obtain ⟨name, -, rfl⟩ | ⟨rfl, -⟩ := write_cases h
  · obtain ⟨other, hnames⟩ := keeps_iff.mp hq
    exact keeps_iff.mpr ⟨other, hnames.put name written⟩
  · exact hq

theorem Keeps.read_write (hpath : d.Keeps path) (h : d.write path written = .ok d') :
    d'.read path = .ok written := by
  obtain ⟨name, hnames⟩ := keeps_iff.mp hpath
  obtain rfl : d.put name written = d' := by simpa [hnames.write_eq written] using h
  exact hnames.read_put written

/-- Writing a path leaves every other file as it was. -/
theorem read_write_other (hread : d.read p = .ok bytes) (hother : ¬ d.SameFile p path)
    (h : d.write path written = .ok d') : d'.read p = .ok bytes := by
  obtain ⟨name, hnames, rfl⟩ | ⟨rfl, -⟩ := write_cases h
  · obtain ⟨file, hfind, hget⟩ := read_eq_ok_iff.mp hread
    have hne : file ≠ name := by
      rintro rfl
      exact hother ⟨file, hfind, hnames.find_eq (by rw [hget]; rfl)⟩
    exact read_eq_ok_iff.mpr ⟨file, find_put hfind, by rw [get?_put_other d written hne, hget]⟩
  · exact hread

/-- Paths that lead to one file of which one could be read have always led to one file. -/
theorem SameFile.before_write (hsame : d'.SameFile p q) (hread : d.read p = .ok bytes)
    (h : d.write path written = .ok d') : d.SameFile p q := by
  obtain ⟨name, -, rfl⟩ | ⟨rfl, -⟩ := write_cases h
  · obtain ⟨file, hp, hq⟩ := hsame
    obtain ⟨file', hfind, hget⟩ := read_eq_ok_iff.mp hread
    obtain ⟨rfl⟩ := Except.ok.inj (hp.symm.trans (find_put hfind))
    exact ⟨file, hfind, find_of_put (by rw [hget]; rfl) hq⟩
  · exact hsame

/-- What could be written still can be, and so can what could be read again. -/
structure Grows (d d' : Directory) : Prop where
  writable : ∀ path, d.Writable path → d'.Writable path
  keeps : ∀ path, d.Keeps path → d'.Keeps path

theorem Grows.refl (d : Directory) : d.Grows d := ⟨fun _ => id, fun _ => id⟩

theorem Grows.trans {d'' : Directory} (h : d.Grows d') (h' : d'.Grows d'') : d.Grows d'' :=
  ⟨fun path hpath => h'.writable path (h.writable path hpath),
    fun path hpath => h'.keeps path (h.keeps path hpath)⟩

theorem grows_of_write (h : d.write path written = .ok d') : d.Grows d' :=
  ⟨fun _ hq => hq.after_write h, fun _ hq => hq.after_write h⟩

end AfterWriting

end Constituency.CommandLine.Directory
