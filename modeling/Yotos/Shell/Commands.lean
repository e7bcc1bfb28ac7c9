import Yotos.Fat16.Making
import Yotos.Shell.Split

/-!
# The commands on files

`touch`, `mkdir`, `echo` and `cat` of `shell/builtins.c`. Beside them stands what a
command does with entries of the volume: it opens one, or makes one, and `Act` keeps the
text by which it does so. `exec` is here as far as it opens the program.
-/

namespace Yotos

namespace Shell

open Bytes Fat16 Kheap Library Vfs

/-! ## The commands -/

/-- `cmd_touch` and `cmd_mkdir`, which differ in their messages and in the kind of entry. -/
def cmdMake (verb usage : String) (flags : UInt32) (fuel : ℕ) (mounts : List Mountpoint)
    (arg : List UInt8) (s : Session) : Option (List UInt8 × Session) :=
  if arg = [] then some (ascii usage, s)
  else
    let resolved := pathResolve s.path arg pathSize
    let (parent, base) := pathParentAndName resolved pathSize 128
    if base = [] then some (ascii (verb ++ ": invalid path\n"), s)
    else
      (vfsOpen fuel mounts parent s.fs).bind fun
        | (none, fs) =>
            some (ascii (verb ++ ": ") ++ parent ++ ascii ": not found\n", { s with fs := fs })
        | (some dir, fs) =>
            if dir.flags &&& vfsDir = 0 then
              some (ascii (verb ++ ": ") ++ parent ++ ascii ": not a directory\n",
                { s with fs := vfsClose dir fs })
            else
              (vfsCreate fuel dir base flags fs).map fun
                | (none, fs) =>
                    (ascii (verb ++ ": failed to create ") ++ base ++ ascii "\n",
                      { s with fs := vfsClose dir fs })
                | (some node, fs) => ([], { s with fs := vfsClose dir (vfsClose node fs) })

/-- `cmd_touch`. -/
def cmdTouch : (fuel : ℕ) → List Mountpoint → (arg : List UInt8) → Session →
    Option (List UInt8 × Session) :=
  cmdMake "touch" "touch: missing filename\n" vfsFile

/-- `cmd_mkdir`. -/
def cmdMkdir : (fuel : ℕ) → List Mountpoint → (arg : List UInt8) → Session →
    Option (List UInt8 × Session) :=
  cmdMake "mkdir" "mkdir: missing name\n" vfsDir

/-- The file that `cmd_echo` writes: the one that is there, or a new one. Or the message
of a failure. -/
def echoOpen (fuel : ℕ) (mounts : List Mountpoint) (resolved filename : List UInt8) (fs : Fs) :
    Option ((List UInt8 ⊕ VfsNode) × Fs) :=
  (vfsOpen fuel mounts resolved fs).bind fun
    | (some file, fs) => some (.inr file, fs)
    | (none, fs) =>
        let (parent, base) := pathParentAndName resolved pathSize 128
        (vfsOpen fuel mounts parent fs).bind fun
          | (none, fs) => some (.inl (ascii "echo: " ++ parent ++ ascii ": not found\n"), fs)
          | (some dir, fs) =>
              (vfsCreate fuel dir base vfsFile fs).map fun
                | (none, fs) =>
                    (.inl (ascii "echo: failed to create " ++ filename ++ ascii "\n"),
                      vfsClose dir fs)
                | (some file, fs) => (.inr file, vfsClose dir fs)

/-- The text that `cmd_echo` writes, without the spaces at its end. -/
def echoText (arg : List UInt8) : List UInt8 := trimEnd (arg.takeWhile (· ≠ 0x3E))

/-- The name behind the first `>`. -/
def echoFile (arg : List UInt8) : List UInt8 :=
  ((arg.dropWhile (· ≠ 0x3E)).drop 1).dropWhile (· = 0x20)

/-- `cmd_echo`. -/
def cmdEcho (fuel : ℕ) (mounts : List Mountpoint) (arg : List UInt8) (s : Session) :
    Option (List UInt8 × Session) :=
  if arg = [] then some (ascii "\n", s)
  else if 0x3E ∉ arg then some (arg ++ ascii "\n", s)
  else if echoFile arg = [] then some (ascii "echo: missing filename after >\n", s)
  else
    (echoOpen fuel mounts (pathResolve s.path (echoFile arg) pathSize) (echoFile arg) s.fs).bind fun
      | (.inl message, fs) => some (message, { s with fs := fs })
      | (.inr file, fs) =>
          if file.flags &&& vfsFile = 0 then
            some (ascii "echo: " ++ echoFile arg ++ ascii ": is a directory\n",
              { s with fs := vfsClose file fs })
          else
            let len := (echoText arg).length
            (vfsWrite file 0 len (put (fun _ => 0) 0 (echoText arg)) fs).bind fun (_, file, fs) =>
              (vfsWrite file len 1 (fun _ => 0x0A) fs).map fun (_, file, fs) =>
                ([], { s with fs := vfsClose file fs })

/-- The loop of `cmd_cat`: what it prints, until nothing more is read. -/
def catLoop (file : VfsNode) : (fuel offset : ℕ) → (buf : Bytes) → Fs → Option (List UInt8 × Fs)
  | 0, _, _, _ => none
  | fuel + 1, offset, buf, fs =>
      (Loader.vfsRead file offset 512 buf fs).bind fun (bytes, buf, fs) =>
        if 0 < bytes then
          (catLoop file fuel ((offset + bytes.toNat) % 2 ^ 32) buf fs).map fun (out, fs) =>
            (bytesAt buf 0 bytes.toNat ++ out, fs)
        else some ([], fs)

/-- `cmd_cat`. What the buffer on the stack holds before is not printed. -/
def cmdCat (fuel : ℕ) (mounts : List Mountpoint) (arg : List UInt8) (s : Session) :
    Option (List UInt8 × Session) :=
  if arg = [] then some (ascii "cat: missing filename\n", s)
  else
    let path := pathResolve s.path arg pathSize
    (vfsOpen fuel mounts path s.fs).bind fun
      | (none, fs) => some (ascii "cat: " ++ path ++ ascii ": not found\n", { s with fs := fs })
      | (some file, fs) =>
          if file.flags &&& vfsFile = 0 then
            some (ascii "cat: " ++ path ++ ascii ": is a directory\n",
              { s with fs := vfsClose file fs })
          else
            (catLoop file fuel 0 (fun _ => 0) fs).map fun (out, fs) =>
              (out ++ ascii "\n", { s with fs := vfsClose file fs })

/-! ## Acts -/

/-- An entry is opened by a path, or made in the directory of a path. -/
inductive Act where
  | opened (path : List UInt8)
  | made (parent base : List UInt8)

/-- The commands that take a path. For `echo` it is what follows the `>`. -/
inductive Command where
  | cd
  | touch
  | mkdir
  | echo
  | cat
  | exec

/-- What opening a path does. -/
def openActs (fuel : ℕ) (mounts : List Mountpoint) (path : List UInt8) (fs : Fs) :
    Option (List Act) :=
  (vfsOpen fuel mounts path fs).map fun x => x.1.elim [] fun _ => [.opened path]

/-- Whether `vfs_create` writes an entry. -/
def vfsCreateMakes (fuel : ℕ) (node : VfsNode) (name : List UInt8) (flags : UInt32) (fs : Fs) :
    Option Bool :=
  if node.flags &&& vfsDir = 0 then some false
  else
    match node.ops with
    | .file => some false
    | .dir => fat16VfsCreateMakes fuel node name flags fs
    | .root => fat16VfsCreateMakes fuel node name flags fs

/-- What making an entry for a path does. -/
def makeActs (fuel : ℕ) (mounts : List Mountpoint) (flags : UInt32) (resolved : List UInt8)
    (fs : Fs) : Option (List Act) :=
  let (parent, base) := pathParentAndName resolved pathSize 128
  (vfsOpen fuel mounts parent fs).bind fun
    | (none, _) => some []
    | (some dir, fs) =>
        (vfsCreateMakes fuel dir base flags fs).map fun made =>
          if made then [.made parent base] else []

/-- What a command does with the entry that its argument is about. -/
def Command.acts (fuel : ℕ) (mounts : List Mountpoint) (arg : List UInt8) (s : Session) :
    Command → Option (List Act)
  | .cd =>
      if arg = dotdotName then some []
      else openActs fuel mounts (pathResolve s.path arg pathSize) s.fs
  | .touch => makeActs fuel mounts vfsFile (pathResolve s.path arg pathSize) s.fs
  | .mkdir => makeActs fuel mounts vfsDir (pathResolve s.path arg pathSize) s.fs
  | .echo =>
      (vfsOpen fuel mounts (pathResolve s.path arg pathSize) s.fs).bind fun
        | (some _, _) => some [.opened (pathResolve s.path arg pathSize)]
        | (none, fs) => makeActs fuel mounts vfsFile (pathResolve s.path arg pathSize) fs
  | .cat => openActs fuel mounts (pathResolve s.path arg pathSize) s.fs
  | .exec => openActs fuel mounts (pathResolve s.path arg pathSize) s.fs

/-- What it does with nodes before that. -/
def Command.log (fuel : ℕ) (mounts : List Mountpoint) (arg : List UInt8) (s : Session) :
    Command → List (Event ℕ)
  | .cd =>
      if arg = dotdotName then []
      else vfsOpenLog fuel mounts (pathResolve s.path arg pathSize) s.fs
  | .touch => vfsOpenLog fuel mounts
      (pathParentAndName (pathResolve s.path arg pathSize) pathSize 128).1 s.fs
  | .mkdir => vfsOpenLog fuel mounts
      (pathParentAndName (pathResolve s.path arg pathSize) pathSize 128).1 s.fs
  | .echo =>
      vfsOpenLog fuel mounts (pathResolve s.path arg pathSize) s.fs ++
        match vfsOpen fuel mounts (pathResolve s.path arg pathSize) s.fs with
        | some (none, fs) => vfsOpenLog fuel mounts
            (pathParentAndName (pathResolve s.path arg pathSize) pathSize 128).1 fs
        | _ => []
  | .cat => vfsOpenLog fuel mounts (pathResolve s.path arg pathSize) s.fs
  | .exec => vfsOpenLog fuel mounts (pathResolve s.path arg pathSize) s.fs

end Shell

end Yotos
