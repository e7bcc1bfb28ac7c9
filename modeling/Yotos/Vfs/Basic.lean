import Yotos.Loader.Basic

/-!
# The virtual file system

`fs/vfs.c`: the calls that go through the dispatch table of a node, and `vfs_open`,
which looks the components of a path up one in the other, from the root of the file
system that is mounted at `/`. Paths are C strings. FAT16 is the only file system.
-/

namespace Yotos

namespace Vfs

open Fat16

/-- `vfs_mountpoint_t`. -/
structure Mountpoint where
  path : List UInt8
  root : VfsNode

/-- `vfs_get_root`. -/
def vfsGetRoot (mounts : List Mountpoint) : Option VfsNode :=
  (mounts.find? fun m => m.path = [0x2F]).map Mountpoint.root

/-- `vfs_finddir`. -/
def vfsFinddir (fuel : ℕ) (node : VfsNode) (name : List UInt8) (fs : Fs) :
    Option (Option VfsNode × Fs) :=
  if node.flags &&& vfsDir = 0 then some (none, fs)
  else
    match node.ops with
    | .file => some (none, fs)
    | .dir => fat16VfsFinddir fuel node name fs
    | .root => fat16VfsFinddir fuel node name fs

/-- `vfs_create`. -/
def vfsCreate (fuel : ℕ) (node : VfsNode) (name : List UInt8) (flags : UInt32) (fs : Fs) :
    Option (Option VfsNode × Fs) :=
  if node.flags &&& vfsDir = 0 then some (none, fs)
  else
    match node.ops with
    | .file => some (none, fs)
    | .dir => fat16VfsCreate fuel node name flags fs
    | .root => fat16VfsCreate fuel node name flags fs

/-- `vfs_write`. -/
def vfsWrite (node : VfsNode) (offset size : ℕ) (buf : Bytes) (fs : Fs) :
    Option (ℤ × VfsNode × Fs) :=
  if node.flags &&& vfsFile = 0 then some (-1, node, fs)
  else
    match node.ops with
    | .file => fat16VfsWrite node offset size buf fs
    | .dir => some (-1, node, fs)
    | .root => some (-1, node, fs)

/-- `vfs_close`. The root node is static and has no `close`. -/
def vfsClose (node : VfsNode) (fs : Fs) : Fs :=
  match node.ops with
  | .file => fat16VfsClose node fs
  | .dir => fat16VfsClose node fs
  | .root => fs

/-- The next component of a path, of at most 127 characters, and the path after it and
one slash. -/
def nextComponent (p : List UInt8) : List UInt8 × List UInt8 :=
  let component := (p.take 127).takeWhile (· ≠ 0x2F)
  let rest := p.drop component.length
  (component, if rest.head? = some 0x2F then rest.tail else rest)

def componentsLoop : (fuel : ℕ) → List UInt8 → List (List UInt8)
  | 0, _ => []
  | fuel + 1, p =>
      if p = [] then [] else (nextComponent p).1 :: componentsLoop fuel (nextComponent p).2

/-- The components that the loop of `vfs_open` takes off a path. Each of its turns takes
at least one character. -/
def components (p : List UInt8) : List (List UInt8) := componentsLoop p.length p

/-- The loop of `vfs_open`, over the components that are left. -/
def openLoop (fuel : ℕ) (root : VfsNode) :
    List (List UInt8) → (current : VfsNode) → Fs → Option (Option VfsNode × Fs)
  | [], current, fs => some (some current, fs)
  | component :: names, current, fs =>
      (vfsFinddir fuel current component fs).bind fun (next, fs) =>
        let fs := if current.addr ≠ root.addr then vfsClose current fs else fs
        match next with
        | none => some (none, fs)
        | some next => openLoop fuel root names next fs

/-- The path without its leading slash. -/
def stripSlash (path : List UInt8) : List UInt8 :=
  if path.head? = some 0x2F then path.tail else path

/-- `vfs_open`. -/
def vfsOpen (fuel : ℕ) (mounts : List Mountpoint) (path : List UInt8) (fs : Fs) :
    Option (Option VfsNode × Fs) :=
  match vfsGetRoot mounts with
  | none => some (none, fs)
  | some root =>
      let name := stripSlash path
      if name = [] then some (some root, fs) else openLoop fuel root (components name) root fs

end Vfs

end Yotos
