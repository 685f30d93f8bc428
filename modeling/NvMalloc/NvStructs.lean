/-
# The records of the object store and its state

The persistent records of `nv_structs.h` (process header, region record, chunk
record), the files they live in, the volatile indexes a program run builds over
them, and the writes that the functions of `nv_map.cc` make.

* A process `p` has one header file.  It holds the `proc_s` header followed by
  an array of `mmapobj_s` records, so a region record is addressed by its file
  and its byte offset (`MmapPtr`).
* A region has a metadata file, an array of `chunkobj_s` records (`ChunkPtr`),
  and a data file with the bytes of its objects (`DataFile`).
* Tree pointers inside persistent records point to trees that live in the
  memory of the run that made them.  They are kept together with the number of
  that run, and following one in another run is undefined (`TreeRef.deref`).

Counters and offsets are natural numbers: the capacity of the metadata files
(`PROC_METADAT_SZ`, `MMAP_METADATA_SZ`) is reached long before 32 bits are.
Fields that no modelled function reads (`start_addr`, `size`, `mmapobjname`,
`mmap_offset`, ...) are left out.
-/
import NvMalloc.Rbtree
import NvMalloc.Bytes
import NvMalloc.ObjName
import NvMalloc.WriteM

open Function

/-! ## Constants -/

/-- `sizeof(proc_s)`. -/
def sizeofProc : ℕ := 80

/-- `sizeof(mmapobj_s)`. -/
def sizeofMmapobj : ℕ := 336

/-- `sizeof(chunkobj_s)`. -/
def sizeofChunkobj : ℕ := 288

/-- `PROC_METADAT_SZ`, the size of a process header file. -/
def procMetadatSz : ℕ := 5 * 1024 * 1024

/-- `MMAP_METADATA_SZ`, the size of a region's metadata file. -/
def mmapMetadataSz : ℕ := 10 * 1024 * 1024

/-- `BASE_METADATA_NVID`: metadata file ids are region ids shifted by this. -/
def baseMetadataNvid : ℕ := 2777

/-- Conversion to `unsigned int`. -/
def toUint (n : ℕ) : ℕ := n % 2 ^ 32

theorem toUint_le (n : ℕ) : toUint n ≤ n := Nat.mod_le _ _

theorem toUint_lt (n : ℕ) : toUint n < 2 ^ 32 := Nat.mod_lt _ (by decide)

theorem toUint_of_lt {n : ℕ} (h : n < 2 ^ 32) : toUint n = n := Nat.mod_eq_of_lt h

theorem toUint_eq_iff {n : ℕ} : toUint n = n ↔ n < 2 ^ 32 := by
  constructor
  · intro h
    rw [← h]
    exact toUint_lt n
  · exact toUint_of_lt

/-! ## Pointers into persistent files -/

/-- The address of a region record: header file of process `pid`, byte `off`. -/
structure MmapPtr where
  pid : ℕ
  off : ℕ
  deriving DecidableEq, Repr

/-- The start of a metadata file: process `pid`, file id `id`. -/
structure MetaFile where
  pid : ℕ
  id : ℕ
  deriving DecidableEq, Repr

/-- The address of a chunk record: a metadata file and a byte offset in it. -/
structure ChunkPtr where
  file : MetaFile
  off : ℕ
  deriving DecidableEq, Repr

/-- The data file of region `vma` of process `pid`. -/
structure DataFile where
  pid : ℕ
  vma : ℕ
  deriving DecidableEq, Repr

/-- A pointer to a tree in the memory of run `run`. -/
structure TreeRef (α : Type) where
  run : ℕ
  tree : Rbtree α

namespace TreeRef

variable {α : Type}

/-- Follow a tree pointer in run `run`. -/
def deref (r : TreeRef α) (run : ℕ) : Option (Rbtree α) :=
  if r.run = run then some r.tree else none

/-- `rbtree_create` in run `run`. -/
def create (run : ℕ) : TreeRef α := ⟨run, .empty⟩

/-- `rbtree_insert` through a pointer. -/
def insert (r : TreeRef α) (key : ℕ) (value : α) : TreeRef α := ⟨r.run, r.tree.insert key value⟩

/-- `rbtree_delete` through a pointer. -/
def delete (r : TreeRef α) (key : ℕ) : TreeRef α := ⟨r.run, r.tree.delete key⟩

end TreeRef

/-! ## Persistent records -/

/-- The `valid` byte of a chunk record.  `VALID` is `0`, so a zero-filled record
counts as valid. -/
inductive Validity : Type where
  | VALID : Validity
  | INVALID : Validity
  deriving DecidableEq, Repr, Inhabited

/-- `chunkobj_s`. -/
structure Chunkobj where
  length : ℕ := 0
  offset : ℕ := 0
  chunkid : ℕ := 0
  pid : ℕ := 0
  vmaId : ℕ := 0
  commitsz : ℕ := 0
  nvPtr : ℕ := 0
  valid : Validity := .VALID
  objname : ObjName := ObjName.empty
  deriving DecidableEq

/-- `mmapobj_s`, the record of a region.  `strtAddr` is the metadata file mapped
for it, `dataAddr` the address its data file is mapped at. -/
structure Mmapobj where
  strtAddr : Option MetaFile := none
  dataAddr : ℕ := 0
  vmaId : ℕ := 0
  length : ℕ := 0
  chunkobjTree : Option (TreeRef ChunkPtr) := none
  chunkTreeInit : Bool := false
  procId : ℕ := 0
  numchunks : ℕ := 0
  metaOffset : ℕ := 0

/-- `proc_s`, the header of a process. -/
structure ProcObj where
  pid : ℕ
  mmapobjTree : Option (TreeRef MmapPtr) := none
  mmapobjInitialized : Bool := false
  pesistMmaps : ℕ := 0
  numMmaps : ℕ := 0
  metaOffset : ℕ := sizeofProc

/-- `rbtree_insert` into the chunk tree of a region. -/
def Mmapobj.insertEntry (m : Mmapobj) (key : ℕ) (c : ChunkPtr) : Mmapobj :=
  { m with chunkobjTree := m.chunkobjTree.map (·.insert key c) }

/-- `rbtree_delete` from the chunk tree of a region. -/
def Mmapobj.deleteEntry (m : Mmapobj) (key : ℕ) : Mmapobj :=
  { m with chunkobjTree := m.chunkobjTree.map (·.delete key) }

/-- `rbtree_insert` into the region tree of a process. -/
def ProcObj.insertMmapobj (h : ProcObj) (key : ℕ) (q : MmapPtr) : ProcObj :=
  { h with mmapobjTree := h.mmapobjTree.map (·.insert key q) }

/-- The contents of a data file. -/
structure DataContent where
  size : ℕ
  bytes : ℕ → UInt8

/-- Overwrite one byte. -/
def DataContent.setByte (x : DataContent) (o : ℕ) (b : UInt8) : DataContent :=
  { x with bytes := update x.bytes o b }

/-- What survives a restart.  A file that was never created reads as zeros. -/
structure Disk where
  proc : ℕ → Option ProcObj := fun _ => none
  mmapobj : MmapPtr → Mmapobj := fun _ => {}
  chunk : ChunkPtr → Chunkobj := fun _ => {}
  data : DataFile → Option DataContent := fun _ => none

/-! ## The memory of a run -/

/-- `struct mmapobj_nodes`: one entry of the address-range tree. -/
structure MmapobjNode where
  startAddr : ℕ
  endAddr : ℕ
  mapId : ℕ
  procId : ℕ
  deriving DecidableEq

/-- A data file mapped into the address space. -/
structure Mapping where
  base : ℕ
  size : ℕ
  file : DataFile
  deriving DecidableEq, Repr

/-- The globals of a run.  `run` numbers the runs; `procMapStart` is the process
whose header file `proc_map_start` points to. -/
structure Ram where
  run : ℕ := 0
  gInitialized : Bool := false
  procTree : Rbtree ℕ := .empty
  procMapStart : Option ℕ := none
  mapTree : Rbtree MmapobjNode := .empty
  procVmas : ℕ → ℕ := fun _ => 0
  chunkmap : ℕ → Option ChunkPtr := fun _ => none
  objnamemap : Finset ObjName := ∅
  maps : List Mapping := []

/-- The state of the store: the files and the memory of the current run. -/
structure Store where
  disk : Disk := {}
  ram : Ram := {}

/-! ## Writes -/

/-- One write of the program, to a file or to the memory of the run. -/
inductive Write where
  /-- A new process header file, initialised by `intialize_proc_obj`. -/
  | procFile (pid : ℕ)
  /-- A field of a process header. -/
  | proc (pid : ℕ) (f : ProcObj → ProcObj)
  /-- A field of a region record. -/
  | mmapobj (q : MmapPtr) (f : Mmapobj → Mmapobj)
  /-- `setup_map_file` on a metadata file, which truncates and zero-fills it. -/
  | metaFile (file : MetaFile)
  /-- A field of a chunk record. -/
  | chunk (c : ChunkPtr) (f : Chunkobj → Chunkobj)
  /-- `setup_map_file` on a data file. -/
  | dataFile (file : DataFile) (size : ℕ)
  /-- A byte of a data file. -/
  | byte (file : DataFile) (off : ℕ) (b : UInt8)
  /-- A change of the memory of the run. -/
  | ram (f : Ram → Ram)

namespace Disk

/-- The effect of a write on the files. -/
def apply (d : Disk) : Write → Disk
  | .procFile p =>
    { d with
      proc := update d.proc p (some { pid := p })
      mmapobj := fun q => if q.pid = p then {} else d.mmapobj q }
  | .proc p f => { d with proc := update d.proc p ((d.proc p).map f) }
  | .mmapobj q f => { d with mmapobj := update d.mmapobj q (f (d.mmapobj q)) }
  | .metaFile m => { d with chunk := fun c => if c.file = m then {} else d.chunk c }
  | .chunk c f => { d with chunk := update d.chunk c (f (d.chunk c)) }
  | .dataFile f n => { d with data := update d.data f (some ⟨n, fun _ => 0⟩) }
  | .byte f o b => { d with data := update d.data f ((d.data f).map (·.setByte o b)) }
  | .ram _ => d

end Disk

namespace Ram

/-- The effect of a write on the memory of the run. -/
def apply (r : Ram) : Write → Ram
  | .ram f => f r
  | _ => r

end Ram

namespace Store

/-- The effect of a write. -/
def apply (st : Store) (w : Write) : Store := ⟨st.disk.apply w, st.ram.apply w⟩

end Store

instance : WriteEffect Store Write := ⟨Store.apply⟩

/-- The functions of `nv_map.cc`: they read the store and write to it. -/
abbrev NvM := WriteM Store Write
