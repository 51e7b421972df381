import Specializer.CommandLine.Run

set_option autoImplicit false

open Specializer

def readWorkingTree : IO FileTree := do
  let here ← IO.currentDir
  let home := Path.ofString here.toString
  let mut tree : FileTree := ⟨home, []⟩
  for path in ← here.walkDir do
    let entry ← if ← path.isDir then pure FileEntry.directory
      else do pure (FileEntry.file (← IO.FS.readBinFile path).toList)
    tree := tree.put (Path.ofString path.toString).parts entry
  return tree

def writeChanges (before after : FileTree) : IO Unit := do
  for path in FileTree.newDirectories before after do
    IO.FS.createDirAll (String.ofList path)
  for (path, bytes) in FileTree.changes before after do
    IO.FS.writeBinFile (String.ofList path) ⟨bytes.toArray⟩

def main (arguments : List String) : IO UInt32 := do
  let tree ← readWorkingTree
  match CommandLine.run tree (arguments.map String.toList) with
  | .error _ =>
    IO.eprintln "error: the command cannot be completed"
    return 1
  | .ok outcome =>
    writeChanges tree outcome.tree
    IO.print outcome.output
    IO.eprint outcome.errors
    return outcome.exitCode.toUInt32
