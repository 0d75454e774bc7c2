import ProcLang.Command

/-!
The command in a working folder of its own, which has files but no folders in it.
-/

namespace ProcLang

/-- The files of a folder: their bytes by their names. -/
structure Folder where
  files : Table String (List UInt8) := .empty

namespace Folder

/-- The name of a file in the folder that a path leads to, if it leads to one: the last part of the
path, of at most 255 bytes, with nothing before it but the folder itself. -/
def fileName? (path : String) : Option String :=
  match (path.splitOn "/").reverse with
  | [] => none
  | name :: before =>
    if name = "" ∨ name = "." ∨ name = ".." ∨ name.utf8ByteSize > 255 then none
    else if path.startsWith "/" ∨ before.any (fun part => part ≠ "" ∧ part ≠ ".") then none
    else some name

/-- The text of a file; there is none if the bytes are not UTF-8. -/
def read? (folder : Folder) (path : String) : Option String := do
  let name ← fileName? path
  let bytes ← folder.files.get? name
  String.fromUTF8? ⟨bytes.toArray⟩

/-- The folder with a file of some bytes, in place of the file that was there. -/
def put? (folder : Folder) (path : String) (bytes : List UInt8) : Option Folder := do
  let name ← fileName? path
  return { files := folder.files.insert name bytes }

/-- The folder with a file of some text. -/
def write? (folder : Folder) (path text : String) : Option Folder :=
  folder.put? path text.toUTF8.toList

end Folder

/-- The command in a folder: what it does, and the folder afterwards. -/
def Invocation.runIn (inv : Invocation) (folder : Folder) : Report × Folder :=
  let report := inv.run (folder.read? inv.input)
  match report.output with
  | none => (report, folder)
  | some text =>
    match folder.write? inv.output text with
    | some written => (report, written)
    | none => (report.failCreate inv.output, folder)

end ProcLang
