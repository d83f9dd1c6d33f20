import Constituency.CommandLine.Path
import Constituency.CommandLine.Run

/-!
Runs in a directory. The directory holds files and no other directory, so a path leads to a file of
it, to the directory itself, to one above it, or nowhere; of those above, nothing is known but that
they are there. What a run does is then a function of its arguments, the files, and its input.
-/
namespace Constituency.CommandLine

/-- Files by name, in order of arrival. -/
abbrev Directory := List (String × Bytes)

namespace Directory

def get? (d : Directory) (name : String) : Option Bytes := d.lookup name

/-- The file with this name holds these bytes; a new name goes to the end. -/
def put (d : Directory) (name : String) (bytes : Bytes) : Directory :=
  match d with
  | [] => [(name, bytes)]
  | f :: rest => if f.1 = name then (name, bytes) :: rest else f :: put rest name bytes

@[simp] theorem get?_put (d : Directory) (name : String) (bytes : Bytes) :
    (d.put name bytes).get? name = some bytes := by
  induction d with
  | nil => simp [put, get?]
  | cons f rest ih =>
    by_cases h : f.1 = name
    · simp [put, get?, h]
    · obtain ⟨n, b⟩ := f
      have hn : (name == n) = false := by simpa using fun e => h e.symm
      simp only [get?] at ih
      simp [put, get?, h, List.lookup_cons, hn, ih]

theorem get?_put_other (d : Directory) {name other : String} (bytes : Bytes) (h : other ≠ name) :
    (d.put name bytes).get? other = d.get? other := by
  have hb : (other == name) = false := beq_false_of_ne h
  induction d with
  | nil => simp [put, get?, List.lookup_cons, hb]
  | cons f rest ih =>
    obtain ⟨n, b⟩ := f
    simp only [get?] at ih
    by_cases hn : n = name
    · subst hn
      simp [put, get?, List.lookup_cons, hb]
    · simp [put, get?, List.lookup_cons, hn, ih]

/-- Where a path has led. -/
inductive Place where
  | here
  | above
  | file (name : String)
  deriving DecidableEq, Repr

def start (path : Path) : Place := if path.rooted then .above else .here

/-- The place that a part of a path leads to. A file leads nowhere, not even to itself. -/
def step (d : Directory) (place : Place) (part : String) : Except Fault Place :=
  match place with
  | .file _ => .error .notDirectory
  | .here =>
    if part = "." then .ok .here
    else if part = ".." then .ok .above
    else if Path.partLimit < part.utf8ByteSize then .error .nameTooLong
    else if (d.get? part).isSome then .ok (.file part)
    else .error .notFound
  | .above =>
    if part = "." ∨ part = ".." then .ok .above
    else if Path.partLimit < part.utf8ByteSize then .error .nameTooLong
    else .error .notFound

/-- The place behind some parts, which has to be a directory when a slash follows it. -/
def follow (d : Directory) (place : Place) (parts : List String) (slashed : Bool) :
    Except Fault Place := do
  let found ← parts.foldlM d.step place
  if slashed then d.step found "." else return found

/-- A path that is neither empty nor too long. -/
def pathOf (text : String) : Except Fault Path :=
  if text = "" then .error .notFound
  else if Path.sizeLimit ≤ text.utf8ByteSize then .error .nameTooLong
  else .ok (Path.ofText text)

def find (d : Directory) (text : String) : Except Fault Place := do
  let path ← pathOf text
  d.follow (start path) path.parts path.slashed

def read (d : Directory) (text : String) : Except Fault Bytes := do
  match ← d.find text with
  | .file name =>
    match d.get? name with
    | some bytes => return bytes
    | none => throw .notFound
  | _ => throw .isDirectory

/-- A file that is there can be opened, and so can a directory. -/
def probe (d : Directory) (text : String) : Except Fault Unit := do
  let _ ← d.find text

/-- What a path leads to is written, or made where the parts before the last one lead. A name that a
slash follows could only be made as a directory, so it is refused as one. Files above the directory
are out of its sight. -/
def write (d : Directory) (text : String) (bytes : Bytes) : Except Fault Directory := do
  let path ← pathOf text
  match path.parts.getLast? with
  | none => throw .isDirectory
  | some name =>
    let parent ← d.follow (start path) path.parts.dropLast true
    if path.slashed ∨ name = "." ∨ name = ".." then throw .isDirectory
    if Path.partLimit < name.utf8ByteSize then throw .nameTooLong
    return if parent = .here then d.put name bytes else d

end Directory

/-- A directory with the input and the outputs of a run. -/
structure World where
  files : Directory
  input : Bytes
  stdout : String
  stderr : String
  deriving DecidableEq, Repr

namespace World

def write (name : String) (bytes : Bytes) : StateM World (Except Fault Unit) := fun w =>
  match w.files.write name bytes with
  | .error fault => (.error fault, w)
  | .ok files => (.ok (), { w with files })

def host : Host (StateM World) where
  probe name := fun w => (w.files.probe name, w)
  read name := fun w => (w.files.read name, w)
  write := write
  input := fun w => (w.input, w)
  print text := fun w => ((), { w with stdout := w.stdout ++ text })
  printError text := fun w => ((), { w with stderr := w.stderr ++ text })

/-- The exit code of a run, and the world after it. -/
def run (files : Directory) (input : Bytes) (arguments : List String) : Nat × World :=
  CommandLine.run host arguments ⟨files, input, "", ""⟩

end World

end Constituency.CommandLine
