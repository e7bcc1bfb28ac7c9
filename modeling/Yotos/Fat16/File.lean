import Yotos.Fat16.Dir

/-!
# Files

`fat16_vfs_read` and `fat16_vfs_write`. Both work on one cluster at a time through
a buffer of the heap; the buffer's bytes are a value here and the heap holds the
allocator's headers only. The loops move at least one byte each time round, so
`size` bounds their number.
-/

namespace Yotos

namespace Fat16

open Bytes Kheap

/-- `read_cluster`. -/
def readCluster (b : Bpb) (d : Disk) (cluster : ℕ) (buf : Bytes) : Bytes :=
  (List.range b.spc).foldl
    (fun buf i => copy buf (512 * i) (readSector d (b.clusterLba cluster + i)) 0 512) buf

/-- The loop that writes a cluster back in `fat16_vfs_write`. -/
def writeCluster (b : Bpb) (d : Disk) (cluster : ℕ) (cbuf : Bytes) : Disk :=
  (List.range b.spc).foldl
    (fun d s => writeSector d (b.clusterLba cluster + s) fun x => cbuf (512 * s + x)) d

/-- The loop of `fat16_vfs_read`: the bytes read and the caller's buffer. -/
def readLoop (b : Bpb) (d : Disk) (innerOff size : ℕ) :
    (fuel bytesRead cluster : ℕ) → (first : Bool) → (cbuf buf : Bytes) → Option (ℕ × Bytes)
  | 0, bytesRead, cluster, _, _, buf =>
      if bytesRead < size ∧ isCluster cluster then none else some (bytesRead, buf)
  | fuel + 1, bytesRead, cluster, first, cbuf, buf =>
      if bytesRead < size ∧ isCluster cluster then
        let cbuf := readCluster b d cluster cbuf
        let start := if first then innerOff else 0
        let avail := b.clusterBytes - start
        let n := if size < (bytesRead + avail) % 2 ^ 32 then size - bytesRead else avail
        readLoop b d innerOff size fuel ((bytesRead + n) % 2 ^ 32) (fatEntry b d cluster) false
          cbuf (copy buf bytesRead cbuf start n)
      else some (bytesRead, buf)

/-- `fat16_vfs_read`: the result, the caller's buffer and the heap. -/
def fat16VfsRead (node : VfsNode) (offset size : ℕ) (buf : Bytes) (fs : Fs) :
    Option (ℤ × Bytes × Fs) :=
  if fs.mounted then
    if node.size ≤ offset then some (0, buf, fs)
    else
      let size := min size (node.size - offset)
      let clusterBytes := fs.bpb.clusterBytes
      match skipClusters fs.bpb fs.disk (offset / clusterBytes) (node.inode % 65536) with
      | none => some (0, buf, fs)
      | some cluster =>
          (kmalloc fs.heapStart clusterBytes fs.heap).bind fun (cbuf, heap) =>
            if cbuf = 0 then some (-1, buf, { fs with heap := heap })
            else
              (readLoop fs.bpb fs.disk (offset % clusterBytes) size size 0 cluster true
                (fun x => heap (cbuf + x)) buf).map fun (bytesRead, buf) =>
                  (toInt bytesRead, buf, { fs with heap := kfree cbuf heap })
  else some (-1, buf, fs)

/-- The walk of `fat16_vfs_write` to a cluster of the chain, which is extended where it
ends: whether the cluster was reached, the cluster and the disk. -/
def extendWalk (b : Bpb) : (n cluster : ℕ) → Disk → Bool × ℕ × Disk
  | 0, cluster, d => (true, cluster, d)
  | n + 1, cluster, d =>
      let next := fatEntry b d cluster
      if isCluster next then extendWalk b n next d
      else
        let (nc, d) := fatAllocCluster b d
        if nc = 0 then (false, cluster, d)
        else extendWalk b n nc (fatSetEntry b d cluster nc)

/-- The loop of `fat16_vfs_write`: the bytes written and the disk. -/
def writeLoop (b : Bpb) (inode offset size : ℕ) (buf : Bytes) :
    (fuel bytesWritten : ℕ) → (cbuf : Bytes) → Disk → Option (ℕ × Disk)
  | 0, bytesWritten, _, d => if bytesWritten < size then none else some (bytesWritten, d)
  | fuel + 1, bytesWritten, cbuf, d =>
      if bytesWritten < size then
        let curOff := (offset + bytesWritten) % 2 ^ 32
        let innerOff := curOff % b.clusterBytes
        match extendWalk b (curOff / b.clusterBytes) (inode % 65536) d with
        | (false, _, d) => some (bytesWritten, d)
        | (true, cluster, d) =>
            let cbuf := readCluster b d cluster cbuf
            let n := min (size - bytesWritten) (b.clusterBytes - innerOff)
            let cbuf := copy cbuf innerOff buf bytesWritten n
            writeLoop b inode offset size buf fuel (bytesWritten + n) cbuf
              (writeCluster b d cluster cbuf)
      else some (bytesWritten, d)

/-- The last step of `fat16_vfs_write`: first cluster and size into the directory
entry. -/
def updateEntry (d : Disk) (node : VfsNode) : Disk :=
  let dsec := readSector d node.dirLba
  let dsec := store16 dsec (32 * node.dirIndex + 26) node.inode
  let dsec := store32 dsec (32 * node.dirIndex + 28) node.size
  writeSector d node.dirLba dsec

/-- `fat16_vfs_write`: the result, the node and the file system. -/
def fat16VfsWrite (node : VfsNode) (offset size : ℕ) (buf : Bytes) (fs : Fs) :
    Option (ℤ × VfsNode × Fs) :=
  if fs.mounted = false ∨ size = 0 then some (0, node, fs)
  else
    let (inode, d) :=
      if node.inode % 65536 < 2 then fatAllocCluster fs.bpb fs.disk else (node.inode, fs.disk)
    if inode = 0 then some (-1, node, { fs with disk := d })
    else
      let node := { node with inode := inode }
      (kmalloc fs.heapStart fs.bpb.clusterBytes fs.heap).bind fun (cbuf, heap) =>
        if cbuf = 0 then some (-1, node, { fs with disk := d, heap := heap })
        else
          (writeLoop fs.bpb node.inode offset size buf size 0 (fun x => heap (cbuf + x)) d).map
            fun (bytesWritten, d) =>
              let newSize := (offset + bytesWritten) % 2 ^ 32
              let node := { node with size := max node.size newSize }
              (toInt bytesWritten, node,
                { fs with disk := updateEntry d node, heap := kfree cbuf heap })

end Fat16

end Yotos
