import XanaduOS.Slibc

/-!
# The initial ramdisk

An archive in memory is parsed into a list of entries, the list is copied into
an array in archive order, and a file system node is built for each. Entries
come from a slab and nodes from the heap, so a field that is not written keeps
the contents its memory had. An entry is named by its place in the order of
allocation. Loops that run through the archive or a directory take a bound on
their iterations.
-/

namespace XanaduOS.InitialRamdisk

open Word32 Slibc

/-- Bytes of an archive record without data. -/
abbrev HEADER_SIZE : ℕ := 512

/-- Type of an entry. -/
inductive FsType
  /-- `FS_FILE`. -/
  | file
  /-- `FS_DIR`. -/
  | dir
  deriving DecidableEq

/-- `struct initrd_node`. -/
structure InitrdNode where
  /-- Address of the archive record. -/
  header : ℕ
  /-- Address of the contents. -/
  data : ℕ
  /-- Bytes of the contents. -/
  size : ℕ
  /-- Entries counted by the parser. -/
  subEntNum : ℕ
  /-- Permission bits. -/
  mode : ℕ
  /-- Owner. -/
  uid : ℕ
  /-- Group. -/
  gid : ℕ
  /-- File or directory. -/
  type : FsType

/-- State of the parser. -/
structure ParseState where
  /-- Entries in the order of their allocation; the list links the last one
  allocated to the one before. -/
  entries : List InitrdNode
  /-- Address of the next record. -/
  nextAddr : ℕ
  /-- Records seen, counted from two. -/
  i : ℕ

/-! ## The archive -/

/-- Bytes of a record's field. -/
def field (mem : ℕ → Char) (header offset width : ℕ) : List Char :=
  (List.range width).map fun k => mem (header+offset+k)

/-- Name field of a record. -/
def nameField (mem : ℕ → Char) (header : ℕ) : List Char := field mem header 0 100

/-- Size of a record's contents, in octal. -/
def fileSize (mem : ℕ → Char) (header : ℕ) : ℕ := atoi (field mem header 124 12) 8

/-- Address of the record behind another. -/
def nextHeader (mem : ℕ → Char) (header nextAddr : ℕ) : ℕ :=
  wadd nextAddr (roundUp (wadd HEADER_SIZE (fileSize mem header)) HEADER_SIZE)

/-- Depth of a path: one more than its slashes, the last character apart. -/
def getFileDepth (fname : List Char) (nlen : ℕ) : ℕ :=
  1+((fname.take (nlen-1)).takeWhile (· ≠ NUL)).count '/'

/-- The entry made for a record. A directory's counter is not written. -/
def newEntry (mem : ℕ → Char) (stale : InitrdNode) (header fnameLen : ℕ) : InitrdNode :=
  let type := if charAt (nameField mem header) (fnameLen-1)= '/' then .dir else .file
  {header := header
   data := wadd header HEADER_SIZE
   size := fileSize mem header
   subEntNum := if type=.dir then stale.subEntNum else 0
   mode := atoi (field mem header 100 12) 8
   uid := atoi (field mem header 108 12) 8
   gid := atoi (field mem header 116 12) 8
   type := type}

/-- Store the counter of a parsed directory. -/
def finishParent (st : ParseState) (parentEnt subEntNum : ℕ) : ParseState :=
  {st with entries := st.entries.modify parentEnt fun e => {e with subEntNum := subEntNum}}

/-- Parse the records at one depth. Every other record carries attributes of
the one behind it and is skipped. -/
def tarParseRec (mem : ℕ → Char) (stale : ℕ → InitrdNode) :
    ℕ → ℕ → ℕ → ℕ → ℕ → ParseState → Option ParseState
  | 0,_,_,_,_,_ => none
  | fuel+1,parentEnt,header,depth,subEntNum,st =>
    if charAt (nameField mem header) 0=NUL then some (finishParent st parentEnt subEntNum)
    else
      let nextAddr := nextHeader mem header st.nextAddr
      if st.i%2=1 then
        let fnameLen := strnlen (nameField mem header) 100
        let fileDepth := getFileDepth (nameField mem header) fnameLen
        if depth<fileDepth then do
          let st ← tarParseRec mem stale fuel (st.entries.length-1) header fileDepth 0 st
          tarParseRec mem stale fuel parentEnt st.nextAddr depth subEntNum st
        else if fileDepth<depth then some (finishParent st parentEnt subEntNum)
        else
          let entry := newEntry mem (stale st.entries.length) header fnameLen
          tarParseRec mem stale fuel parentEnt nextAddr depth (subEntNum+1)
            ⟨st.entries++[entry],nextAddr,st.i+1⟩
      else
        tarParseRec mem stale fuel parentEnt nextAddr depth subEntNum
          {st with nextAddr := nextAddr,i := st.i+1}

/-- Parse an archive behind a root entry whose record has been set up. -/
def tarParse (mem : ℕ → Char) (stale : ℕ → InitrdNode) (rootHeader initrdAddr fuel : ℕ) :
    Option (List InitrdNode×ℕ) := do
  let root := {stale 0 with type := .dir,header := rootHeader}
  let st ← tarParseRec mem stale fuel 0 initrdAddr 1 0 ⟨[root],initrdAddr,2⟩
  return (st.entries,st.i/2)

/-! ## Nodes -/

/-- `struct initrd`. -/
structure Initrd where
  /-- Entries in archive order. -/
  nodes : ℕ → InitrdNode
  /-- Number of entries. -/
  entryNum : ℕ

/-- Copy a list of entries into the array from its end. -/
def copyNodes : List InitrdNode → ℕ → (ℕ → InitrdNode) → ℕ → InitrdNode
  | [],_,nodes => nodes
  | ent::rest,i,nodes =>
    if i=1 then Function.update nodes (i-1) ent
    else copyNodes rest (i-1) (Function.update nodes (i-1) ent)

/-- Copy the entries, last one first. -/
def initrdBuildTree (junk : ℕ → InitrdNode) (entries : List InitrdNode) (rdLen : ℕ) : Initrd :=
  ⟨copyNodes entries.reverse rdLen junk,rdLen⟩

/-- A pointer to an operation of a node. -/
inductive OpPointer
  /-- Null. -/
  | null
  /-- The operation of this file system. -/
  | initrd
  /-- Another address. -/
  | wild
  deriving DecidableEq

/-- `struct fs_node`, with the operation that lookup calls first. -/
structure FsNode where
  /-- Name up to its terminator. -/
  name : List Char
  /-- Place in the array of entries. -/
  inode : ℕ
  /-- Permission bits. -/
  mode : ℕ
  /-- Owner. -/
  uid : ℕ
  /-- Group. -/
  gid : ℕ
  /-- File or directory. -/
  type : FsType
  /-- Bytes of the contents. -/
  size : ℕ
  /-- `opendir`. -/
  opendir : OpPointer

/-- Start of the last path component, searched from an offset down. -/
def basenameOffset (fname : List Char) : ℕ → ℕ
  | 0 => 0
  | offset+1 => if charAt fname offset= '/' then offset+1 else basenameOffset fname offset

/-- Start of the last component and length of the path without the slash that
closes it. -/
def parseFileBasename (fname : List Char) (len : ℕ) : ℕ×ℕ :=
  let offset := basenameOffset fname (len-1)
  (offset,if offset≠len-1 ∧ charAt fname (len-1)= '/' then len-1 else len)

/-- The node of an entry. A file's operations on directories are not written. -/
def buildNode (mem : ℕ → Char) (stale : FsNode) (ent : InitrdNode) (i : ℕ) : FsNode :=
  let fname := nameField mem ent.header
  let base := parseFileBasename fname (strnlen fname 100)
  {name := (field mem ent.header base.1 100).take (base.2-base.1)
   inode := i
   mode := ent.mode
   uid := ent.uid
   gid := ent.gid
   type := ent.type
   size := ent.size
   opendir := if ent.type=.dir then .initrd else stale.opendir}

/-- Nodes for all entries. -/
def initrdBuildFs (mem : ℕ → Char) (junk : ℕ → FsNode) (rd : Initrd) (i : ℕ) : FsNode :=
  if i < rd.entryNum then buildNode mem (junk i) (rd.nodes i) i else junk i

/-! ## Directories -/

/-- `struct DIR`. -/
structure Dir where
  /-- Distance of the next entry from the directory. -/
  offset : ℕ
  /-- The directory's place. -/
  inode : ℕ

/-- Open a directory. -/
def initrdOpendir (node : FsNode) : Dir := ⟨1,node.inode⟩

/-- Place of the next entry of a directory. -/
def initrdReaddir (rd : Initrd) (dir : Dir) : Option (ℕ×Dir) :=
  if wsub (wsub rd.entryNum dir.inode) 1<dir.offset then none
  else
    let entInode := wadd dir.inode dir.offset
    let ent := rd.nodes entInode
    some (entInode,{dir with offset := wadd dir.offset (wadd ent.subEntNum 1)})

/-- Read a directory until it ends. -/
def readdirAll (rd : Initrd) : ℕ → Dir → Option (List ℕ)
  | 0,_ => none
  | fuel+1,dir =>
    (initrdReaddir rd dir).elim (some []) fun r => (readdirAll rd fuel r.2).map (r.1 :: ·)

/-! ## Path lookup -/

/-- Compare a node's name with a path component. -/
def entNameEq (node : FsNode) (name : List Char) (nlen : ℕ) : Prop :=
  let nlen := if node.type=.dir ∧ charAt name (nlen-1)= '/' then nlen-1 else nlen
  strneq node.name name nlen=0

instance (node : FsNode) (name : List Char) (nlen : ℕ) : Decidable (entNameEq node name nlen) :=
  inferInstanceAs (Decidable (_=_))

/-- Length of the first component of a path with its slash. -/
def parseFileDirName : List Char → ℕ → ℕ
  | _,0 => 0
  | fullName,fullLen+1 =>
    if fullName.headD NUL= '/' then 1 else parseFileDirName fullName.tail fullLen+1

/-- Entries that a reader of a node sees. A null operation opens nothing; a
jump through any other address than the operation's has no result. -/
def listNode (listing : ℕ → List ℕ) (fs : ℕ → FsNode) (n : ℕ) : Option (List ℕ) :=
  match (fs n).opendir with
  | .null => some []
  | .initrd => some (listing n)
  | .wild => none

/-- The component loop of `initrd_get_node`. -/
def getNodeFrom (listing : ℕ → List ℕ) (fs : ℕ → FsNode) :
    ℕ → List Char → ℕ → Option ℕ → Option (Option ℕ)
  | 0,_,_,_ => none
  | fuel+1,curName,fnameLen,curRoot =>
    let curNameLen := parseFileDirName curName fnameLen
    if curNameLen=0 then some curRoot
    else
      match curRoot with
      | none => some none
      | some n => do
        let ents ← listNode listing fs n
        let found := ents.find? fun ent => entNameEq (fs ent) curName curNameLen
        getNodeFrom listing fs fuel (curName.drop curNameLen) (fnameLen-curNameLen) found

/-- Find the node of an absolute path; a null result is `some none`. -/
def initrdGetNode (listing : ℕ → List ℕ) (fs : ℕ → FsNode) (fuel root : ℕ) (name : List Char) :
    Option (Option ℕ) :=
  if charAt name 0≠ '/' then some none
  else getNodeFrom listing fs fuel (name.drop 1) (strnlen (name.drop 1) 256) (some root)

end XanaduOS.InitialRamdisk
