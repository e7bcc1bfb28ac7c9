import Yotos.Library.Store

/-!
# File systems

What a file system is for. A directory is a list of names with what they stand for, and a
file is a list that is written and read in pieces. `FileSystem.Step` says what each call
may do and return.
-/

namespace Yotos

namespace Library

variable {κ ν α : Type*}

/-- What a name stands for. -/
inductive Item (κ : Type*)
  | file (k : κ)
  | dir (k : κ)
  deriving DecidableEq

def Item.isDir : Item κ → Bool
  | .file _ => false
  | .dir _ => true

structure FileSystem (κ ν α : Type*) where
  dirs : Store κ (ν × Item κ)
  files : Store κ α

/-- A call, with what it returned. -/
inductive FsCall (κ ν α : Type*)
  | write (k : κ) (offset : ℕ) (data : List α)
  | read (k : κ) (offset size : ℕ) (data : List α)
  | create (q : κ) (name : ν) (result : Option (Item κ))
  | mkdir (q : κ) (name : ν) (result : Option (Item κ))
  | lookup (q : κ) (name : ν) (result : Option (Item κ))
  /-- the entry number `index` of directory `q`, with its kind -/
  | list (q : κ) (index : ℕ) (entry : Option (ν × Bool))
  | other

namespace FileSystem

/-- What a lookup may return: the first entry whose name agrees. It may also fail. -/
def Finds (agrees : ν → ν → Bool) (entries : List (ν × Item κ)) (name : ν)
    (result : Option (Item κ)) : Prop :=
  ∀ i, result = some i →
    ∃ e, entries.find? (fun e => agrees name e.1) = some e ∧ e.2 = i

variable [DecidableEq κ]

/-- A new entry in directory `q`, somewhere. -/
def insert (dirs : Store κ (ν × Item κ)) (q : κ) (before after : List (ν × Item κ))
    (entry : ν × Item κ) : Store κ (ν × Item κ) :=
  Function.update dirs q (some (before ++ entry :: after))

/-- The steps of a file system in which a new name is changed by `stored`, and looked up by
`agrees`. A creation makes one entry and returns what a lookup of the name finds then, or
makes none. -/
inductive Step (stored : ν → ν) (agrees : ν → ν → Bool) :
    FileSystem κ ν α → FsCall κ ν α → FileSystem κ ν α → Prop
  | write {fs : FileSystem κ ν α} {k : κ} {content : List α} {offset : ℕ} (data : List α)
      (hk : fs.files k = some content) (h : offset ≤ content.length) :
      Step stored agrees fs (.write k offset data)
        { fs with files := fs.files.write k offset data }
  | read {fs : FileSystem κ ν α} {k : κ} {content : List α} (offset size : ℕ)
      (hk : fs.files k = some content) :
      Step stored agrees fs (.read k offset size ((content.drop offset).take size)) fs
  | create {fs : FileSystem κ ν α} {q k : κ} {before after : List (ν × Item κ)} {name : ν}
      {result : Option (Item κ)} (hq : fs.dirs q = some (before ++ after))
      (hk : fs.files k = none)
      (hresult : Finds agrees (before ++ (stored name, .file k) :: after) name result) :
      Step stored agrees fs (.create q name result)
        ⟨insert fs.dirs q before after (stored name, .file k), fs.files.create k⟩
  | notCreated {fs : FileSystem κ ν α} (q : κ) (name : ν) :
      Step stored agrees fs (.create q name none) fs
  | mkdir {fs : FileSystem κ ν α} {q k : κ} {before after : List (ν × Item κ)} {name : ν}
      {result : Option (Item κ)} (hq : fs.dirs q = some (before ++ after))
      (hk : fs.dirs k = none)
      (hresult : Finds agrees (before ++ (stored name, .dir k) :: after) name result) :
      Step stored agrees fs (.mkdir q name result)
        { fs with dirs := insert (fs.dirs.create k) q before after (stored name, .dir k) }
  | notMade {fs : FileSystem κ ν α} (q : κ) (name : ν) :
      Step stored agrees fs (.mkdir q name none) fs
  | lookup {fs : FileSystem κ ν α} {q : κ} {entries : List (ν × Item κ)} {name : ν}
      {result : Option (Item κ)} (hq : fs.dirs q = some entries)
      (hresult : Finds agrees entries name result) :
      Step stored agrees fs (.lookup q name result) fs
  | list {fs : FileSystem κ ν α} {q : κ} {entries : List (ν × Item κ)} (index : ℕ)
      (hq : fs.dirs q = some entries) :
      Step stored agrees fs (.list q index (entries[index]?.map fun e => (e.1, e.2.isDir))) fs
  | other {fs : FileSystem κ ν α} : Step stored agrees fs .other fs

theorem insert_self (dirs : Store κ (ν × Item κ)) (q : κ) (before after : List (ν × Item κ))
    (entry : ν × Item κ) : insert dirs q before after entry q = some (before ++ entry :: after) :=
  Function.update_self ..

theorem insert_of_ne (dirs : Store κ (ν × Item κ)) {q p : κ} (h : p ≠ q)
    (before after : List (ν × Item κ)) (entry : ν × Item κ) :
    insert dirs q before after entry p = dirs p :=
  Function.update_of_ne h _ _

end FileSystem

end Library

end Yotos
