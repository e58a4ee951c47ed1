import MkfsUbifs.Media

/-! # The host side

What mkfs.ubifs reads from the host through lstat, readdir, read, readlink, llistxattr,
lgetxattr and FS_IOC_GETFLAGS. A source tree is a host object with its directory entries in
the order readdir yields them; a hard link is a second entry whose stat names the same
(st_dev, st_ino). The host does not change while mkfs runs. -/

namespace MkfsUbifs

/-- struct stat, the fields mkfs.ubifs reads. Times are the whole seconds st_atime and friends. -/
structure Stat where
  stMode : Nat
  stUid : Nat
  stGid : Nat
  stNlink : Nat
  stSize : Nat
  stAtime : Int
  stMtime : Int
  stCtime : Int
  stRdev : Nat
  stDev : Nat
  stIno : Nat
  deriving DecidableEq, Repr

def sIFMT : Nat := 0o170000
def sIFSOCK : Nat := 0o140000
def sIFLNK : Nat := 0o120000
def sIFREG : Nat := 0o100000
def sIFBLK : Nat := 0o060000
def sIFDIR : Nat := 0o040000
def sIFCHR : Nat := 0o020000
def sIFIFO : Nat := 0o010000

def sIsreg (m : Nat) : Bool := m &&& sIFMT == sIFREG
def sIsdir (m : Nat) : Bool := m &&& sIFMT == sIFDIR
def sIschr (m : Nat) : Bool := m &&& sIFMT == sIFCHR
def sIsblk (m : Nat) : Bool := m &&& sIFMT == sIFBLK
def sIslnk (m : Nat) : Bool := m &&& sIFMT == sIFLNK
def sIssock (m : Nat) : Bool := m &&& sIFMT == sIFSOCK
def sIsfifo (m : Nat) : Bool := m &&& sIFMT == sIFIFO

/-- A host object: its lstat, its inode flags, its extended attributes (names as llistxattr
lists them, with their values), its contents (file data, or the target readlink returns), the
most each successive read() returns, and its directory entries in readdir order. -/
structure HostFile where
  st : Stat
  flags : Nat
  xattrs : List (Bytes × Bytes)
  data : Bytes
  reads : List Nat
  entries : List (Bytes × HostFile)

/-! ### Reading a file -/

/-- An open file: the bytes not yet read, and the caps of the reads to come (read() returns as
many bytes as asked once they run out). -/
structure Cursor where
  rest : Bytes
  caps : List Nat

/-- read(fd, buf, n): at most n bytes, at most the next cap, at most what is left. -/
def Cursor.read (cur : Cursor) (n : Nat) : Bytes × Cursor :=
  let r := min n (cur.caps.headD n)
  (cur.rest.take r, ⟨cur.rest.drop r, cur.caps.tail⟩)

/-- A read takes its bytes from the front of what is left. -/
theorem Cursor.read_rest_length (cur : Cursor) (n : Nat) :
    (cur.read n).2.rest.length + (cur.read n).1.length = cur.rest.length := by
  simp only [Cursor.read, List.length_drop, List.length_take]
  omega

end MkfsUbifs
