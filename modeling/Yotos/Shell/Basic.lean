import Yotos.Library.Buffer
import Yotos.Vfs.Basic

/-!
# Paths in the shell

`shell/builtins.c` keeps the directory the user is in as a text, `current_path`, and
builds the path of every argument from it. Strings are the lists of their bytes before
the terminating zero, but `current_path`, which outlives the commands, is the array that
it is. Names that do not fit their buffer are cut off.
-/

namespace Yotos

namespace Shell

open Bytes Fat16 Vfs

/-- The string in an array of `n` bytes. -/
def text (buf : Bytes) (n : ℕ) : List UInt8 := cString (bytesAt buf 0 n)

/-- `strlcpy` to an array. -/
def strlcpy (dst : Bytes) (src : List UInt8) (size : ℕ) : Bytes :=
  if size = 0 then dst
  else store8 (put dst 0 (src.take (size - 1))) (src.take (size - 1)).length 0

/-- `path_resolve`: the string in `out`. -/
def pathResolve (currentPath arg : List UInt8) (size : ℕ) : List UInt8 :=
  if arg = [] then currentPath.take (size - 1)
  else if arg.head? = some 0x2F then arg.take (size - 1)
  else
    let out := currentPath.take (size - 1)
    let out :=
      if out ≠ [] ∧ out.getLast? ≠ some 0x2F ∧ out.length < size - 1 then out ++ [0x2F] else out
    out ++ arg.take (size - out.length - 1)

/-- The loop that looks for the last slash, from index `i` on. -/
def lastSlashFrom : (i last : ℕ) → List UInt8 → ℕ
  | _, last, [] => last
  | i, last, c :: s => lastSlashFrom (i + 1) (if c = 0x2F then i else last) s

/-- The index of the last slash, or 0. -/
def lastSlash (s : List UInt8) : ℕ := lastSlashFrom 0 0 s

/-- `path_parent_and_name`: the strings in `parent` and `base`. -/
def pathParentAndName (resolved : List UInt8) (psz bsz : ℕ) : List UInt8 × List UInt8 :=
  let last := lastSlash resolved
  if last = 0 then (([0x2F] : List UInt8).take (psz - 1), (resolved.drop 1).take (bsz - 1))
  else ((resolved.take last).take (psz - 1), (resolved.drop (last + 1)).take (bsz - 1))

/-- `sizeof(current_path)`. -/
def pathSize : ℕ := 256

/-- The shell's variable and the file system it works on. -/
structure Session where
  currentPath : Bytes
  fs : Fs

/-- The string in `current_path`. -/
def Session.path (s : Session) : List UInt8 := text s.currentPath pathSize

/-- The characters of a message. -/
def ascii (s : String) : List UInt8 := s.toList.map fun c => c.toNat.toUInt8

/-- `cmd_cd`: what is printed, and the session. -/
def cmdCd (fuel : ℕ) (mounts : List Mountpoint) (arg : List UInt8) (s : Session) :
    Option (List UInt8 × Session) :=
  if arg = [] ∨ arg = [0x2F] then
    some ([], { s with currentPath := strlcpy s.currentPath [0x2F] pathSize })
  else if arg = [0x2E, 0x2E] then
    if s.currentPath 0 = 0x2F ∧ s.currentPath 1 = 0 then some ([], s)
    else
      let last := lastSlash s.path
      some ([], { s with currentPath := store8 s.currentPath (if last = 0 then 1 else last) 0 })
  else
    let resolved := pathResolve s.path arg pathSize
    (vfsOpen fuel mounts resolved s.fs).map fun
      | (none, fs) => (ascii "cd: " ++ resolved ++ ascii ": not found\n", { s with fs := fs })
      | (some node, fs) =>
          if node.flags &&& vfsDir = 0 then
            (ascii "cd: " ++ resolved ++ ascii ": not a directory\n",
              { s with fs := vfsClose node fs })
          else
            ([], { currentPath := strlcpy s.currentPath resolved pathSize, fs := vfsClose node fs })

end Shell

end Yotos
