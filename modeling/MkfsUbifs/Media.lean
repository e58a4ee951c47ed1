import Mathlib.Data.Nat.Bitwise
import Mathlib.Data.List.Basic

/-! # The on-flash vocabulary of mkfs.ubifs

Sizes, node and key types, inode flags and the simple key format, as mkfs.ubifs.c uses them.
They come from the UBIFS media headers (ubifs-media.h, key.h), which are not among the sources:
the numeric values are the on-flash format's. Nodes are kept as records of the fields the builder
writes, not as bytes; a LEB image is the list of nodes at their offsets plus its padding. -/

namespace MkfsUbifs

/-- Byte strings: names, file contents, xattr values, inline inode data. -/
abbrev Bytes := List UInt8

/-- A C string literal as bytes. -/
def ascii (s : String) : Bytes := s.toList.map fun ch => ch.toNat.toUInt8

/-- The kernel's ALIGN for a power-of-two alignment, written as a round-up. -/
def align (x a : Nat) : Nat := (x + a - 1) / a * a

/-! ### Sizes -/

def ubifsBlockSize : Nat := 4096
def ubifsMaxInoData : Nat := ubifsBlockSize
def ubifsMaxNlen : Nat := 255
def ubifsMinComprLen : Nat := 128
def ubifsInoNodeSz : Nat := 160
def ubifsDentNodeSz : Nat := 56
def ubifsXentNodeSz : Nat := 56
def ubifsDataNodeSz : Nat := 48
/-- UBIFS_IDX_NODE_SZ, an index node without branches. -/
def ubifsIdxNodeSzBase : Nat := 28
def ubifsBranchSz : Nat := 12
def ubifsMaxKeyLen : Nat := 16
def ubifsSkLen : Nat := 8
def ubifsMstNodeSz : Nat := 512
def ubifsCsNodeSz : Nat := 32
def ubifsSbNodeSz : Nat := 4096
def ubifsSigNodeSz : Nat := 64
def ubifsRefNodeSz : Nat := 64
def ubifsMaxDataNodeSz : Nat := ubifsDataNodeSz + ubifsBlockSize
def ubifsMaxNodeSz : Nat := ubifsInoNodeSz + ubifsMaxInoData
def minWriteSz : Nat := ubifsDataNodeSz + 8
def worstComprFactor : Nat := 2
def ubifsMinLebSz : Nat := 15 * 1024
def ubifsMaxLebSz : Nat := 2 * 1024 * 1024
def ubifsMinFanout : Nat := 3

/-! ### Layout -/

def ubifsSbLebs : Nat := 1
def ubifsMstLebs : Nat := 2
def ubifsMinLogLebs : Nat := 2
def ubifsMinLptLebs : Nat := 2
def ubifsMinOrphLebs : Nat := 1
def ubifsMinMainLebs : Nat := 9
def ubifsMinLebCnt : Nat :=
  ubifsSbLebs + ubifsMstLebs + ubifsMinLogLebs + ubifsMinLptLebs + ubifsMinOrphLebs + ubifsMinMainLebs
def ubifsSbLnum : Nat := 0
def ubifsMstLnum : Nat := 1
def ubifsLogLnum : Nat := 3
def ubifsRootIno : Nat := 1
def ubifsFirstIno : Nat := 64

/-! ### Types and flags -/

/-- Key types, in the top three bits of the second key word. -/
def ubifsInoKey : Nat := 0
def ubifsDataKey : Nat := 1
def ubifsDentKey : Nat := 2
def ubifsXentKey : Nat := 3

/-- Inode types of a directory entry. -/
def ubifsItypeReg : Nat := 0
def ubifsItypeDir : Nat := 1
def ubifsItypeLnk : Nat := 2
def ubifsItypeBlk : Nat := 3
def ubifsItypeChr : Nat := 4
def ubifsItypeFifo : Nat := 5
def ubifsItypeSock : Nat := 6

def ubifsComprNone : Nat := 0
def ubifsComprLzo : Nat := 1
def ubifsComprZlib : Nat := 2
def ubifsComprZstd : Nat := 3

/-- Inode node flags. -/
def ubifsComprFl : Nat := 0x1
def ubifsSyncFl : Nat := 0x2
def ubifsImmutableFl : Nat := 0x4
def ubifsAppendFl : Nat := 0x8
def ubifsDirsyncFl : Nat := 0x10
def ubifsXattrFl : Nat := 0x20
def ubifsCryptFl : Nat := 0x40

/-- Host inode flags as FS_IOC_GETFLAGS reports them. -/
def fsComprFl : Nat := 0x4
def fsSyncFl : Nat := 0x8
def fsImmutableFl : Nat := 0x10
def fsAppendFl : Nat := 0x20
def fsDirsyncFl : Nat := 0x10000

def lpropsIndex : Nat := 32
def ubifsMstNoOrphs : Nat := 2

/-- Superblock flags. -/
def ubifsFlgBiglpt : Nat := 0x02
def ubifsFlgSpaceFixup : Nat := 0x04
def ubifsFlgDoubleHash : Nat := 0x08
def ubifsFlgEncryption : Nat := 0x10
def ubifsFlgAuthentication : Nat := 0x20

/-- DEFAULT_TIME_GRAN, one second in nanoseconds. -/
def defaultTimeGran : Nat := 1000000000

/-! ### Keys -/

def ubifsSKeyBlockBits : Nat := 29

/-- A simple key: the 32-bit inode number, then a word holding the key type in its top three
bits and a block number or a name hash in the low 29. -/
structure Key where
  ino : Nat
  val : Nat
  deriving DecidableEq, Repr, Inhabited

/-- key_type: the second word shifted down by the block bits. -/
def keyType (k : Key) : Nat := k.val >>> ubifsSKeyBlockBits

/-- keys_cmp: the two words compared in turn. -/
def keysCmp (a b : Key) : Int :=
  if a.ino < b.ino then -1 else if b.ino < a.ino then 1
  else if a.val < b.val then -1 else if b.val < a.val then 1 else 0

/-- A key hash (r5 or test) as key_r5_hash and key_test_hash return it: masked to 29 bits. -/
structure KeyHash where
  hash : Bytes → Nat
  lt : ∀ s, hash s < 2 ^ ubifsSKeyBlockBits

/-- Modelled from the spec: ino_key_init, the inode number stored as a 32-bit word. -/
def inoKeyInit (inum : Nat) : Key := ⟨inum % 2 ^ 32, ubifsInoKey <<< ubifsSKeyBlockBits⟩

/-- Modelled from the spec: data_key_init, the unsigned block number OR-ed under the type. -/
def dataKeyInit (inum block : Nat) : Key :=
  ⟨inum % 2 ^ 32, (block % 2 ^ 32) ||| (ubifsDataKey <<< ubifsSKeyBlockBits)⟩

/-- Modelled from the spec: dent_key_init, the name hash under the dentry type. -/
def dentKeyInit (h : KeyHash) (inum : Nat) (name : Bytes) : Key :=
  ⟨inum % 2 ^ 32, h.hash name ||| (ubifsDentKey <<< ubifsSKeyBlockBits)⟩

/-- Modelled from the spec: xent_key_init, the name hash under the xattr-entry type. -/
def xentKeyInit (h : KeyHash) (inum : Nat) (name : Bytes) : Key :=
  ⟨inum % 2 ^ 32, h.hash name ||| (ubifsXentKey <<< ubifsSKeyBlockBits)⟩

/-! ### Nodes -/

/-- struct ubifs_ino_node, the fields mkfs writes (the nsec time fields are always 0). -/
structure InoNode where
  key : Key
  creatSqnum : Nat
  size : Nat
  nlink : Nat
  atimeSec : Int
  ctimeSec : Int
  mtimeSec : Int
  uid : Nat
  gid : Nat
  mode : Nat
  flags : Nat
  comprType : Nat
  dataLen : Nat
  xattrCnt : Nat
  xattrSize : Nat
  xattrNames : Nat
  data : Bytes
  deriving DecidableEq, Repr

/-- struct ubifs_dent_node, for a directory entry and for an xattr entry. -/
structure DentNode where
  key : Key
  inum : Nat
  type : Nat
  nlen : Nat
  name : Bytes
  deriving DecidableEq, Repr

/-- struct ubifs_data_node. -/
structure DataNode where
  key : Key
  size : Nat
  comprType : Nat
  comprSize : Nat
  data : Bytes
  deriving DecidableEq, Repr

/-- struct ubifs_branch, with the node hash that follows the key. -/
structure Branch where
  key : Key
  lnum : Nat
  offs : Nat
  len : Nat
  hash : Bytes
  deriving DecidableEq, Repr

/-- struct ubifs_idx_node. -/
structure IdxNode where
  childCnt : Nat
  level : Nat
  branches : List Branch
  deriving DecidableEq, Repr

/-- struct ubifs_mst_node, the fields write_master sets. -/
structure MstNode where
  highestInum : Nat
  cmtNo : Nat
  flags : Nat
  logLnum : Nat
  rootLnum : Nat
  rootOffs : Nat
  rootLen : Nat
  gcLnum : Nat
  iheadLnum : Nat
  iheadOffs : Nat
  indexSize : Nat
  lptLnum : Nat
  lptOffs : Nat
  nheadLnum : Nat
  nheadOffs : Nat
  ltabLnum : Nat
  ltabOffs : Nat
  lsaveLnum : Nat
  lsaveOffs : Nat
  lscanLnum : Nat
  emptyLebs : Nat
  idxLebs : Nat
  totalFree : Int
  totalDirty : Int
  totalUsed : Int
  totalDead : Int
  totalDark : Int
  lebCnt : Nat
  hashRootIdx : Bytes
  hashLpt : Bytes
  deriving DecidableEq, Repr

/-- struct ubifs_sb_node, the fields write_super sets. -/
structure SbNode where
  keyHash : Nat
  minIoSize : Nat
  lebSize : Nat
  lebCnt : Nat
  maxLebCnt : Nat
  maxBudBytes : Nat
  logLebs : Nat
  lptLebs : Nat
  orphLebs : Nat
  jheadCnt : Nat
  fanout : Nat
  lsaveCnt : Nat
  fmtVersion : Nat
  defaultCompr : Nat
  rpSize : Nat
  timeGran : Nat
  hashAlgo : Nat
  uuid : Bytes
  flags : Nat
  hashMst : Bytes
  deriving DecidableEq, Repr

/-- The body of a node, by node type. -/
inductive NodeBody where
  | ino (n : InoNode)
  | dent (n : DentNode)
  | xent (n : DentNode)
  | data (n : DataNode)
  | idx (n : IdxNode)
  | mst (n : MstNode)
  | cs (cmtNo : Nat)
  | sb (n : SbNode)
  | sig (sig : Bytes)
  deriving DecidableEq, Repr

/-- A node after ubifs_prepare_node: its common header's sequence number and length. -/
structure Node where
  sqnum : Nat
  len : Nat
  body : NodeBody
  deriving DecidableEq, Repr

/-- The image of one LEB handed to the sink: all 0xFF; or nodes at their offsets, a padding
node or 0xFF bytes from padFrom to padTo, and 0xFF to the end; or the superblock LEB, nodes on a
zeroed buffer with 0xFF from ffFrom on; or an LPT LEB as ubifs_create_lpt writes it. -/
inductive Leb where
  | empty
  | nodes (placed : List (Nat × Node)) (padFrom padTo : Nat)
  | super (placed : List (Nat × Node)) (ffFrom : Nat)
  | lpt
  deriving DecidableEq, Repr

end MkfsUbifs
