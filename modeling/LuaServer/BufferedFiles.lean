import LuaServer.ByteStrings
import Mathlib.Logic.Function.Basic

/-!
# Files behind a buffer

A process writes to the file it has opened through a buffer.  Opening a file
for writing empties it at once, while written data reaches the file when the
buffer is flushed or the file is closed.  A crash closes nothing: any front
part of the buffered data may have reached the file by then.
-/

namespace LuaServer

/-- The contents of the files, and the open file with the data in its buffer. -/
structure Files (Path : Type*) where
  disk : Path → Option ByteString
  opened : Option (Path × ByteString)

inductive FileOperation (Path : Type*) where
  | openWrite (path : Path)
  | openAppend (path : Path)
  | write (data : ByteString)
  | flush
  | close

namespace Files

variable {Path : Type*} [DecidableEq Path]

/-- Append data to a file. -/
def append (disk : Path → Option ByteString) (path : Path) (data : ByteString) :
    Path → Option ByteString :=
  Function.update disk path (some ((disk path).getD [] ++ data))

/-- One operation of a running process. -/
def perform (files : Files Path) : FileOperation Path → Files Path
  | .openWrite path => ⟨Function.update files.disk path (some []), some (path, [])⟩
  | .openAppend path => ⟨append files.disk path [], some (path, [])⟩
  | .write data =>
      { files with opened := files.opened.map fun (path, buffer) => (path, buffer ++ data) }
  | .flush =>
      match files.opened with
      | none => files
      | some (path, buffer) => ⟨append files.disk path buffer, some (path, [])⟩
  | .close =>
      match files.opened with
      | none => files
      | some (path, buffer) => ⟨append files.disk path buffer, none⟩

def performAll (files : Files Path) (operations : List (FileOperation Path)) : Files Path :=
  operations.foldl perform files

/-- The files after a crash that saved the first `left` bytes of the buffer. -/
def crash (files : Files Path) (left : Nat) : Files Path :=
  match files.opened with
  | none => files
  | some (path, buffer) => ⟨append files.disk path (buffer.take left), none⟩

section Rules

variable {files : Files Path} {path : Path}

@[simp]
theorem append_self (disk : Path → Option ByteString) (path : Path) (data : ByteString) :
    append disk path data path = some ((disk path).getD [] ++ data) :=
  Function.update_self path _ disk

theorem append_of_ne (disk : Path → Option ByteString) {other : Path} (data : ByteString)
    (apart : other ≠ path) : append disk other data path = disk path :=
  Function.update_of_ne apart.symm _ disk

@[simp]
theorem performAll_nil : files.performAll [] = files :=
  rfl

@[simp]
theorem performAll_cons (operation : FileOperation Path)
    (operations : List (FileOperation Path)) :
    files.performAll (operation :: operations) =
      (files.perform operation).performAll operations :=
  rfl

theorem performAll_append (first second : List (FileOperation Path)) :
    files.performAll (first ++ second) = (files.performAll first).performAll second :=
  List.foldl_append

@[simp]
theorem crash_opened (left : Nat) : (files.crash left).opened = none := by
  rw [crash]
  split
  next nothing => exact nothing
  next => rfl

theorem crash_disk_of_opened {buffer : ByteString} (opened : files.opened = some (path, buffer))
    (left : Nat) : (files.crash left).disk path =
      some ((files.disk path).getD [] ++ buffer.take left) := by
  simp only [crash, opened]
  exact append_self files.disk path (buffer.take left)

/-- The open file, if there is one, is another one. -/
def Elsewhere (path : Path) (files : Files Path) : Prop :=
  ∀ opened ∈ files.opened, opened.1 ≠ path

/-- An operation that does not open the file. -/
def Avoids (path : Path) : FileOperation Path → Prop
  | .openWrite other => other ≠ path
  | .openAppend other => other ≠ path
  | _ => True

omit [DecidableEq Path] in
theorem elsewhere_of_closed (closed : files.opened = none) : Elsewhere path files := by
  simp [Elsewhere, closed]

theorem Elsewhere.perform (elsewhere : Elsewhere path files)
    {operation : FileOperation Path} (avoids : Avoids path operation) :
    Elsewhere path (files.perform operation) ∧
      (files.perform operation).disk path = files.disk path := by
  cases operation with
  | openWrite other =>
      refine ⟨?_, Function.update_of_ne (Ne.symm avoids) _ _⟩
      rintro opened ⟨⟩
      exact avoids
  | openAppend other =>
      refine ⟨?_, append_of_ne files.disk [] avoids⟩
      rintro opened ⟨⟩
      exact avoids
  | write data =>
      refine ⟨?_, rfl⟩
      intro opened isOpened
      obtain ⟨before, wasOpened, rfl⟩ := Option.map_eq_some_iff.mp isOpened
      exact elsewhere before wasOpened
  | flush =>
      cases opened : files.opened with
      | none => simpa [Files.perform, opened] using elsewhere
      | some before =>
          have apart := elsewhere before opened
          simp only [Files.perform, opened]
          refine ⟨?_, append_of_ne files.disk before.2 apart⟩
          rintro _ ⟨⟩
          exact apart
  | close =>
      cases opened : files.opened with
      | none => simpa [Files.perform, opened] using elsewhere
      | some before =>
          simp only [Files.perform, opened]
          exact ⟨elsewhere_of_closed rfl,
            append_of_ne files.disk before.2 (elsewhere before opened)⟩

/-- Work on other files leaves a file as it is. -/
theorem Elsewhere.performAll (elsewhere : Elsewhere path files)
    {operations : List (FileOperation Path)}
    (avoid : ∀ operation ∈ operations, Avoids path operation) :
    Elsewhere path (files.performAll operations) ∧
      (files.performAll operations).disk path = files.disk path := by
  induction operations generalizing files with
  | nil => exact ⟨elsewhere, rfl⟩
  | cons operation operations ih =>
      obtain ⟨next, same⟩ := elsewhere.perform (avoid operation List.mem_cons_self)
      obtain ⟨last, later⟩ := ih next fun other member =>
        avoid other (List.mem_cons_of_mem operation member)
      exact ⟨last, later.trans same⟩

theorem Elsewhere.crash (elsewhere : Elsewhere path files) (left : Nat) :
    (files.crash left).disk path = files.disk path := by
  cases opened : files.opened with
  | none => simp [Files.crash, opened]
  | some before =>
      simp only [Files.crash, opened]
      exact append_of_ne files.disk (before.2.take left) (elsewhere before opened)

end Rules

end Files

end LuaServer
