import MkfsUbifs.Host

/-! # The builder's state

The globals of mkfs.ubifs.c and the ubifs_info fields the image assembly writes, threaded
through the builder as one record, and the state-and-error monad the C functions become. -/

namespace MkfsUbifs

/-- The ubifs_info fields the write head, the index builder and the ledger read once init and
ubifs_init_authentication have run. lptLebs and mainLebs are what ubifs_calc_dflt_lpt_geom
computed; calcHash is ubifs_node_calc_hash, which hashes nothing when hashLen is 0. -/
structure Info where
  minIoSize : Nat
  lebSize : Nat
  maxLebCnt : Nat
  fanout : Nat
  fanout_ge : ubifsMinFanout ≤ fanout
  keyLen : Nat
  hashLen : Nat
  logLebs : Nat
  lptLebs : Nat
  orphLebs : Nat
  mainLebs : Nat
  calcHash : Node → Bytes

/-- The first LEB of the main area, as init computes it. -/
def Info.mainFirst (c : Info) : Nat := ubifsLogLnum + c.logLebs + c.lptLebs + c.orphLebs

def Info.deadWm (c : Info) : Nat := align minWriteSz c.minIoSize
def Info.darkWm (c : Info) : Nat := align ubifsMaxNodeSz c.minIoSize

/-- ubifs_idx_node_sz: an index node with childCnt branches. -/
def ubifsIdxNodeSz (c : Info) (childCnt : Nat) : Nat :=
  ubifsIdxNodeSzBase + (ubifsBranchSz + c.keyLen + c.hashLen) * childCnt

/-- struct ubifs_lprops as set_lprops fills it. -/
structure Lprops where
  free : Int
  dirty : Int
  flags : Nat
  deriving DecidableEq, Repr

/-- struct ubifs_lp_stats, the totals set_lprops and set_gc_lnum accumulate. -/
structure Lst where
  emptyLebs : Nat
  idxLebs : Nat
  totalFree : Int
  totalDirty : Int
  totalUsed : Int
  totalDead : Int
  totalDark : Int
  deriving DecidableEq, Repr

/-- struct idx_entry: a leaf's key, its name for ordering colliding keys, its place and hash. -/
structure IdxEntry where
  key : Key
  name : Option Bytes
  lnum : Nat
  offs : Nat
  len : Nat
  hash : Bytes
  deriving DecidableEq, Repr, Inhabited

/-- struct inum_mapping. src is the host object that pathName names, read again when
add_multi_linked_files creates the inode. -/
structure InumMapping where
  dev : Nat
  inum : Nat
  useInum : Nat
  useNlink : Nat
  pathName : Bytes
  st : Stat
  src : HostFile

/-- What the write head touches: head_lnum, head_offs and head_flags, the nodes copied into
leb_buf since the last flush (with their offsets), the ubifs_leb_change calls in order, and the
LEB properties c->lpt and c->lst. lpropsCalls records the arguments of each set_lprops call, so
that a run can be said to account for each LEB once. -/
structure Flash where
  headLnum : Nat
  headOffs : Nat
  headFlags : Nat
  lebBuf : List (Nat × Node)
  sink : List (Nat × Leb)
  lpt : Nat → Lprops
  lst : Lst
  lpropsCalls : List (Nat × Nat × Nat)

/-- The head position. -/
def Flash.head (fl : Flash) : Nat × Nat := (fl.headLnum, fl.headOffs)

/-- What ubifs_create_lpt leaves in ubifs_info for the master node: where the LPT root, the
LPT head, the lprops table and the lsave table are, and the LPT hash. -/
structure LptPos where
  lptLnum : Nat
  lptOffs : Nat
  nheadLnum : Nat
  nheadOffs : Nat
  ltabLnum : Nat
  ltabOffs : Nat
  lsaveLnum : Nat
  lsaveOffs : Nat
  lptHash : Bytes

/-- The builder state: the flash side, the index list, the counters (c->max_sqnum,
c->highest_inum and the global creat_sqnum), the link-counting hash table as its chains by
bucket, and what write_index and the finalizer record for the master node. -/
structure Mkfs where
  flash : Flash
  idxList : List IdxEntry
  maxSqnum : Nat
  highestInum : Nat
  creatSqnum : Nat
  hashTable : Nat → List InumMapping
  oldIdxSz : Nat
  zroot : Nat × Nat × Nat
  rootIdxHash : Bytes
  iheadLnum : Nat
  iheadOffs : Nat
  gcLnum : Nat
  lebCnt : Nat
  lscanLnum : Nat
  lptPos : LptPos
  mstHash : Bytes

/-- The builder state after init: the head at the first main LEB, the inode counter at
UBIFS_FIRST_INO, everything else as the zeroed globals leave it. init allocates c->lpt without
clearing it; the ledger starts from zero entries here, and every main LEB gets its own set_lprops
call before the LPT is written. -/
def Mkfs.init (c : Info) : Mkfs where
  flash := ⟨c.mainFirst, 0, 0, [], [], fun _ => ⟨0, 0, 0⟩, ⟨0, 0, 0, 0, 0, 0, 0⟩, []⟩
  idxList := []
  maxSqnum := 0
  highestInum := ubifsFirstIno
  creatSqnum := 0
  hashTable := fun _ => []
  oldIdxSz := 0
  zroot := (0, 0, 0)
  rootIdxHash := []
  iheadLnum := 0
  iheadOffs := 0
  gcLnum := 0
  lebCnt := 0
  lscanLnum := 0
  lptPos := ⟨0, 0, 0, 0, 0, 0, 0, 0, []⟩
  mstHash := []

/-- What can stop the builder. Host I/O and the sink are taken to succeed; the errors left are
the ones the data itself can cause, and overrun, a copy past the end of leb_buf, which in C is
undefined behaviour rather than an error return. -/
inductive Error where
  | overrun
  | dentWithoutName
  | nameForNonDent
  | unknownInodeType (path : Bytes)
  | fileSizeChanged (path : Bytes)
  | readlinkFailed (path : Bytes)
  | symlinkTooLong (path : Bytes)
  | lgetxattrFailed (path : Bytes)
  | inumMismatch (path : Bytes)
  | expectedSymlink
  | encryptFailed
  | indexTooBig (cnt : Nat)
  | maxLebCntTooLow (needed : Nat)
  | lptFailed
  | signFailed
  deriving DecidableEq, Repr

/-- The C functions of the builder: state passing with an error exit. -/
abbrev M := StateT Mkfs (Except Error)

/-! ### Running a computation -/

section Run
variable {α β : Type} {m : M α} {f : α → M β} {s s' : Mkfs} {b : β}

theorem run_bind_ok :
    (m >>= f).run s = .ok (b, s') ↔ ∃ a s₁, m.run s = .ok (a, s₁) ∧ (f a).run s₁ = .ok (b, s') := by
  simp only [StateT.run, bind, StateT.bind, Except.bind]
  constructor
  · intro h
    split at h
    · cases h
    · exact ⟨_, _, by assumption, h⟩
  · rintro ⟨a, s₁, h₁, h₂⟩
    rw [h₁]
    exact h₂

theorem run_bind_of_ok {a : α} {s₁ : Mkfs} (h : m.run s = .ok (a, s₁)) :
    (m >>= f).run s = (f a).run s₁ := by
  simp only [StateT.run, bind, StateT.bind, Except.bind] at h ⊢
  rw [h]

theorem run_bind_of_error {e : Error} (h : m.run s = .error e) : (m >>= f).run s = .error e := by
  simp only [StateT.run, bind, StateT.bind, Except.bind] at h ⊢
  rw [h]

@[simp] theorem run_pure {a : α} : (pure a : M α).run s = .ok (a, s) := rfl

@[simp] theorem except_pure {a : α} : (pure a : Except Error α) = .ok a := rfl

@[simp] theorem run_get : (get : M Mkfs).run s = .ok (s, s) := rfl

@[simp] theorem run_set : (set s' : M PUnit).run s = .ok (⟨⟩, s') := rfl

@[simp] theorem run_modifyGet {g : Mkfs → α × Mkfs} : (modifyGet g : M α).run s = .ok (g s) := rfl

@[simp] theorem run_modify {g : Mkfs → Mkfs} : (modify g : M PUnit).run s = .ok (⟨⟩, g s) := rfl

@[simp] theorem run_throw {e : Error} : (throw e : M α).run s = .error e := rfl

end Run

end MkfsUbifs
