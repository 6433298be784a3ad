import MemoryLayer.Local.Files
import MemoryLayer.Local.Version
import Mathlib.Data.List.Sort

namespace MemoryLayer.Local

/-! # The local store

Snapshots as directories: a version of a key is a directory with the blob and the metadata in it.

- `writeSnapshot`, `put`, `putWithMeta`, `delete`: what changes the store.
- `get`, `listVersionDirs`, `getLatest`, `getLatestMetadata`, `list`: what reads it.
- `pruneByAge`, `pruneOldVersions`: the two ways to thin out the versions of a key.
-/

/-- Why an operation fails. -/
inductive LocalErr where
  | noSnapshot
  | mkdir
  | writeBlob
  | renameBlob
  | writeMetadata
  | readMetadata
  | openBlob
  deriving DecidableEq, Repr

section

variable (rootDir : GoString)

/-- Write a snapshot under the key and the version of its metadata: the blob goes to a temporary file
    that is then renamed, and the metadata is written last.  Without data the reader fails. -/
def writeSnapshot (md : SnapshotMetadata) (data : Option (List UInt8)) (now : Int) (fs : Fs) :
    Except LocalErr SnapshotMetadata × Fs :=
  let versionDir := keyPath rootDir md.key md.version
  match fs.mkdirAll versionDir with
  | (fs, false) => (.error .mkdir, fs)
  | (fs, true) =>
    match data with
    | none => (.error .writeBlob, fs.removeEmpty versionDir)
    | some bytes =>
      -- a file cannot take the place of a directory
      if fs.node (blobPath versionDir) = some .dir then (.error .renameBlob, fs)
      else
        let fs := fs.write (blobPath versionDir) (.blob bytes)
        if fs.node (metaPath versionDir) = some .dir then
          (.error .writeMetadata, fs.removeWhere fun p => p = blobPath versionDir)
        else
          let createdAt := if md.createdAt = 0 then now else md.createdAt
          let md := { md with sizeBytes := bytes.length, createdAt := createdAt }
          (.ok md, fs.write (metaPath versionDir) (.metadata md))

/-- Put under a new version. -/
def put (key : SnapshotKey) (md : SnapshotMetadata) (t : Instant) (suffix : Suffix)
    (data : Option (List UInt8)) (now : Int) (fs : Fs) : Except LocalErr SnapshotMetadata × Fs :=
  writeSnapshot rootDir { md with key := key, version := newVersion t suffix } data now fs

/-- Put under the version that the metadata has. -/
def putWithMeta (md : SnapshotMetadata) (data : Option (List UInt8)) (now : Int) (fs : Fs) :
    Except LocalErr SnapshotMetadata × Fs :=
  writeSnapshot rootDir md data now fs

/-- Delete a version. -/
def delete (key : SnapshotKey) (version : GoString) (fs : Fs) : Fs :=
  fs.removeAll (keyPath rootDir key version)

/-! ### Reading -/

variable (fs : Fs)

def readMetadata (versionDir : FilePath) : Except LocalErr SnapshotMetadata :=
  match fs.node (metaPath versionDir) with
  | none => .error .noSnapshot
  | some (.metadata md) => .ok md
  | some _ => .error .readMetadata

/-- The blob and the metadata of a version. -/
def get (key : SnapshotKey) (version : GoString) : Except LocalErr (List UInt8 × SnapshotMetadata) :=
  let versionDir := keyPath rootDir key version
  match readMetadata fs versionDir with
  | .error err => .error err
  | .ok md =>
    match fs.node (blobPath versionDir) with
    | none => .error .noSnapshot
    | some (.blob bytes) => .ok (bytes, md)
    | some _ => .error .openBlob

/-- The versions of a key, the highest first. -/
def listVersionDirs (key : SnapshotKey) : List GoString :=
  (fs.readDir (keyPath rootDir key [])).insertionSort (· ≥ ·)

def getLatest (key : SnapshotKey) : Except LocalErr (List UInt8 × SnapshotMetadata) :=
  match listVersionDirs rootDir fs key with
  | [] => .error .noSnapshot
  | version :: _ => get rootDir fs key version

def getLatestMetadata (key : SnapshotKey) : Except LocalErr SnapshotMetadata :=
  match listVersionDirs rootDir fs key with
  | [] => .error .noSnapshot
  | version :: _ => readMetadata fs (keyPath rootDir key version)

/-- The metadata of all versions; what cannot be read is skipped. -/
def list (key : SnapshotKey) : List SnapshotMetadata :=
  (listVersionDirs rootDir fs key).filterMap fun version =>
    (readMetadata fs (keyPath rootDir key version)).toOption

/-! ### Pruning -/

/-- Delete some versions of a key. -/
def deleteAll (key : SnapshotKey) (mds : List SnapshotMetadata) : Fs :=
  mds.foldl (fun fs md => delete rootDir key md.version fs) fs

/-- Delete what was made long ago, but never the first of the list. -/
def pruneByAge (key : SnapshotKey) (maxAge now : Int) : Nat × Fs :=
  if maxAge ≤ 0 then (0, fs)
  else
    let mds := list rootDir fs key
    if mds.length ≤ 1 then (0, fs)
    else
      let old := mds.tail.filter fun md => md.createdAt < now - maxAge
      (old.length, deleteAll rootDir fs key old)

/-- Delete all but the first of the list. -/
def pruneOldVersions (key : SnapshotKey) (keepLatest : Int) : Nat × Fs :=
  if keepLatest ≤ 0 then (0, fs)
  else
    let mds := list rootDir fs key
    if mds.length ≤ keepLatest then (0, fs)
    else
      let old := mds.drop keepLatest.toNat
      (old.length, deleteAll rootDir fs key old)

end

end MemoryLayer.Local
