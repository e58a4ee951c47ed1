import MkfsUbifs.Head
import MkfsUbifs.Compr

/-! # The leaf emitter

write_data and everything below it: the walk over the source tree (add_directory and its
readdir loop), the non-directories (add_non_dir, add_file, add_dev_inode, add_symlink_inode),
inodes and their extended attributes (add_inode, inode_add_xattr, inode_add_selinux_xattr,
add_xattr), directory entries (add_dent_node), and the link-counting table that defers every
host inode with more than one link to add_multi_linked_files. Every node goes through
add_node, so the emitter's whole effect on the image is the sequence of leaves it hands the
write head, in order, and the index list beside it.

The device table (-D) and the -a option (create_inum_attr) are not modelled: the walk is the
one a build without them makes. Each loop of the C code is one recursive function. -/

namespace MkfsUbifs

/-! ### What the emitter reads besides the tree -/

/-- The fscrypt functions the builder calls but the sources do not define. A context is the
bytes set_fscrypt_context stores. inherit is inherit_fscrypt_context; encryptPath is
encrypt_path (none for an error); fnameEncryptedSize is fscrypt_fname_encrypted_size;
encryptDataNode is encrypt_data_node on the node with its compressed payload, returning the
node it leaves in node_buf; symlinkDataSz is sizeof(struct fscrypt_symlink_data); and
xattrNameEncryptionContext is UBIFS_XATTR_NAME_ENCRYPTION_CONTEXT. -/
structure Crypto where
  inherit : Bytes → Bytes
  encryptPath : Bytes → Bytes → Nat → Option Bytes
  fnameEncryptedSize : Bytes → Nat → Nat
  encryptDataNode : Bytes → Nat → DataNode → Option DataNode
  symlinkDataSz : Nat
  xattrNameEncryptionContext : Bytes

/-- The options and library functions mkfs reads after init. selabel is selabel_lookup on the
label file when one is in use (context and sehnd both set), returning none where the lookup
fails; xattrNameSelinux is XATTR_NAME_SELINUX; strtoull parses a value as base 10;
calcDentSize and calcXattrBytes are CALC_DENT_SIZE and CALC_XATTR_BYTES; rootPath is root as
get_options stores it, with its trailing slash; rootFctx is root_fctx, the context of an
encrypted image. createLpt is ubifs_create_lpt over the lprops of the given number of main
LEBs, none for its error return; masterCalcHash is ubifs_master_node_calc_hash; signSb is
ubifs_sign_superblock_node, the signature it stores after the superblock (none for an error).
The rest are the ubifs_info fields write_super copies. -/
structure Env where
  info : Info
  keyHash : KeyHash
  defaultCompr : Nat
  encrypted : Bool
  squashOwner : Bool
  codecs : Codecs
  crypto : Crypto
  selabel : Option (Bytes → Nat → Option Bytes)
  xattrNameSelinux : Bytes
  strtoull : Bytes → Nat
  calcDentSize : Nat → Nat
  calcXattrBytes : Nat → Nat
  rootPath : Bytes
  rootFctx : Option Bytes
  createLpt : (Nat → Lprops) → Nat → Option LptPos
  masterCalcHash : MstNode → Bytes
  signSb : SbNode → Option Bytes
  keyHashType : Nat
  maxBudBytes : Nat
  jheadCnt : Nat
  lsaveCnt : Nat
  rpSize : Nat
  hashAlgo : Nat
  bigLpt : Bool
  spaceFixup : Bool
  doubleHash : Bool

/-! ### Names and counters -/

/-- make_path: the directory, a slash unless it ends with one, and the name. -/
def makePath (dir name : Bytes) : Bytes :=
  dir ++ (if dir.getLast? = some 47 then [] else [47]) ++ name

/-- The eight bytes of a 64-bit value, least significant first, as cpu_to_le64 stores it. -/
def le64 (x : Nat) : Bytes := (List.range 8).map fun i => (x >>> (8 * i)).toUInt8

/-- ++c->highest_inum. -/
def nextInum : M Nat :=
  modifyGet fun s => (s.highestInum + 1, { s with highestInum := s.highestInum + 1 })

/-- ++c->max_sqnum. -/
def nextSqnum : M Nat :=
  modifyGet fun s => (s.maxSqnum + 1, { s with maxSqnum := s.maxSqnum + 1 })

/-- The assignment to the global creat_sqnum. -/
def setCreatSqnum (n : Nat) : M Unit := modify fun s => { s with creatSqnum := n }

/-! ### Extended attributes -/

/-- add_xattr: an xattr entry keyed under the host inode, naming a new inode that holds the
value. The host inode's xattr counters grow; the new inode takes the next inode number and a
creation sqnum of its own, which also becomes the global creat_sqnum. -/
def addXattr (e : Env) (host : InoNode) (st : Stat) (inum : Nat) (name data : Bytes) :
    M InoNode := do
  let host := { host with
    xattrCnt := host.xattrCnt + 1
    xattrSize := host.xattrSize + e.calcDentSize name.length + e.calcXattrBytes data.length
    xattrNames := host.xattrNames + name.length }
  let xkey := xentKeyInit e.keyHash inum name
  let len := ubifsXentNodeSz + name.length + 1
  let xinum ← nextInum
  setCreatSqnum (← nextSqnum)
  addNode e.info xkey (some name) (.xent ⟨xkey, xinum, ubifsItypeReg, name.length, name⟩) len
  let creat := (← get).creatSqnum
  let nkey := inoKeyInit xinum
  addNode e.info nkey none
    (.ino ⟨nkey, creat, data.length, 1, st.stAtime, st.stCtime, st.stMtime, st.stUid, st.stGid,
      sIFREG, ubifsXattrFl, e.defaultCompr, data.length, 0, 0, 0, data⟩)
    (ubifsInoNodeSz + data.length)
  pure host

/-- The loop of inode_add_xattr over the names llistxattr returned. A value longer than the
1023 bytes lgetxattr may return fails; user.image-inode-number is checked against the inode
number and not copied; security.selinux is not copied while a label file is in use. -/
def inodeAddXattrs (e : Env) (path : Bytes) (st : Stat) (inum : Nat) :
    List (Bytes × Bytes) → InoNode → M InoNode
  | [], host => pure host
  | (name, value) :: rest, host => do
    if 1023 < value.length then throw (.lgetxattrFailed path)
    if name = ascii "user.image-inode-number" then
      if inum ≠ e.strtoull value then throw (.inumMismatch path)
      inodeAddXattrs e path st inum rest host
    else if name = e.xattrNameSelinux ∧ e.selabel.isSome then
      inodeAddXattrs e path st inum rest host
    else do
      let host ← addXattr e host st inum name value
      inodeAddXattrs e path st inum rest host

/-- inode_add_selinux_xattr: with a label file in use, the label of the path below the root,
or the unlabeled context when the lookup fails, stored with its terminating NUL. -/
def inodeAddSelinuxXattr (e : Env) (host : InoNode) (path : Bytes) (st : Stat) (inum : Nat) :
    M InoNode :=
  match e.selabel with
  | none => pure host
  | some lookup =>
    let rest := path.drop e.rootPath.length
    let sepath := if rest.head? = some 47 then rest else 47 :: rest
    let secontext := (lookup sepath st.stMode).getD (ascii "system_u:object_r:unlabeled_t:s0")
    addXattr e host st inum e.xattrNameSelinux (secontext ++ [0])

/-- set_fscrypt_context: the context as an xattr of the inode. -/
def setFscryptContext (e : Env) (host : InoNode) (inum : Nat) (st : Stat) (fctx : Bytes) :
    M InoNode :=
  addXattr e host st inum e.crypto.xattrNameEncryptionContext fctx

/-- encrypt_symlink: a zeroed struct fscrypt_symlink_data of link_disk_len bytes holding the
16-bit length and the encrypted target, its last byte NUL. -/
def encryptSymlink (k : Crypto) (data fctx : Bytes) : Option Bytes :=
  let linkDiskLen := k.symlinkDataSz + k.fnameEncryptedSize fctx data.length
  (k.encryptPath fctx data ubifsMaxInoData).map fun out =>
    let sd := [out.length.toUInt8, (out.length >>> 8).toUInt8] ++ out
    let sd := (sd ++ List.replicate linkDiskLen 0).take linkDiskLen
    sd.set (linkDiskLen - 1) 0

/-! ### Inodes -/

/-- The use_flags of add_inode: compression when a default compressor is set or the host asks
for it, the host's sync, immutable and append flags, dirsync for directories, and crypt for an
encrypted inode. -/
def inodeFlags (e : Env) (st : Stat) (flags : Nat) (fctx : Option Bytes) : Nat :=
  let f := if e.defaultCompr ≠ ubifsComprNone then ubifsComprFl else 0
  let f := if flags &&& fsComprFl ≠ 0 then f ||| ubifsComprFl else f
  let f := if flags &&& fsSyncFl ≠ 0 then f ||| ubifsSyncFl else f
  let f := if flags &&& fsImmutableFl ≠ 0 then f ||| ubifsImmutableFl else f
  let f := if flags &&& fsAppendFl ≠ 0 then f ||| ubifsAppendFl else f
  let f := if flags &&& fsDirsyncFl ≠ 0 ∧ sIsdir st.stMode then f ||| ubifsDirsyncFl else f
  if fctx.isSome then f ||| ubifsCryptFl else f

/-- The inline data of add_inode: the data as given, or, for an encrypted inode with data,
which must be a symlink, what encrypt_symlink makes of it. -/
def inodeDataStep (e : Env) (st : Stat) (data : Bytes) (fctx : Option Bytes) : M Bytes :=
  if data.length = 0 then pure data else
  match fctx with
  | none => pure data
  | some f =>
    if !sIslnk st.stMode then throw .expectedSymlink
    else match encryptSymlink e.crypto data f with
      | none => throw .encryptFailed
      | some d => pure d

/-- The attributes add_inode copies when it has an xattr path: the label, then the host's. -/
def inodeAddXattrPath (e : Env) (ino : InoNode) (xattrPath : Option (Bytes × List (Bytes × Bytes)))
    (st : Stat) (inum : Nat) : M InoNode :=
  match xattrPath with
  | none => pure ino
  | some (path, xattrs) => do
    let ino ← inodeAddSelinuxXattr e ino path st inum
    inodeAddXattrs e path st inum xattrs ino

/-- The encryption context add_inode stores as an attribute of an encrypted inode. -/
def inodeAddFscrypt (e : Env) (ino : InoNode) (inum : Nat) (st : Stat) (fctx : Option Bytes) :
    M InoNode :=
  match fctx with
  | none => pure ino
  | some f => setFscryptContext e ino inum st f

/-- add_inode: the inode node, after the nodes of its extended attributes. xattrPath is the
path whose xattrs are copied with what llistxattr lists there, none where the C passes NULL.
The creation sqnum is the global creat_sqnum as it stands on entry. -/
def addInode (e : Env) (st : Stat) (inum : Nat) (data : Bytes) (flags : Nat)
    (xattrPath : Option (Bytes × List (Bytes × Bytes))) (fctx : Option Bytes) : M Unit := do
  let creat := (← get).creatSqnum
  let data ← inodeDataStep e st data fctx
  let ino : InoNode := ⟨inoKeyInit inum, creat, st.stSize, st.stNlink, st.stAtime, st.stCtime,
    st.stMtime, st.stUid, st.stGid, st.stMode, inodeFlags e st flags fctx, e.defaultCompr,
    data.length, 0, 0, 0, data⟩
  let ino ← inodeAddXattrPath e ino xattrPath st inum
  let ino ← inodeAddFscrypt e ino inum st fctx
  addNode e.info (inoKeyInit inum) none (.ino ino) (ubifsInoNodeSz + data.length)

/-- add_dir_inode: the directory's inode with the size and link count its walk computed. dir is
the directory opened on the host, none for a directory that does not exist there. -/
def addDirInode (e : Env) (dir : Option (Bytes × HostFile)) (inum size nlink : Nat) (st : Stat)
    (fctx : Option Bytes) : M Unit :=
  let st := { st with stSize := size, stNlink := nlink }
  let flags := match dir with | some (_, hf) => hf.flags | none => 0
  addInode e st inum [] flags (dir.map fun (path, hf) => (path, hf.xattrs)) fctx

/-- add_dev_inode: the device number as eight little-endian bytes of inline data
(makedev(major(d), minor(d)) is d). Devices are never encrypted. -/
def addDevInode (e : Env) (path : Bytes) (hf : HostFile) (st : Stat) (inum flags : Nat) :
    M Unit :=
  addInode e st inum (le64 st.stRdev) flags (some (path, hf.xattrs)) none

/-- add_symlink_inode: the target as readlink returns it into a buffer of
UBIFS_MAX_INO_DATA + 1 bytes. -/
def addSymlinkInode (e : Env) (path : Bytes) (hf : HostFile) (st : Stat) (inum flags : Nat)
    (fctx : Option Bytes) : M Unit := do
  let buf := hf.data.take (ubifsMaxInoData + 1)
  if buf.length = 0 then throw (.readlinkFailed path)
  if ubifsMaxInoData < buf.length then throw (.symlinkTooLong path)
  addInode e st inum buf flags (some (path, hf.xattrs)) fctx

/-- The name add_dent_node stores: the name, or in an encrypted directory the encrypted name,
at most UBIFS_MAX_NLEN bytes long (UBIFS_MAX_INO_DATA for a symlink). -/
def dentName (e : Env) (name : Bytes) (type : Nat) (fctx : Option Bytes) : M Bytes :=
  match fctx with
  | none => pure name
  | some f =>
    let maxNamelen := if type = ubifsItypeLnk then ubifsMaxInoData else ubifsMaxNlen
    match e.crypto.encryptPath f name maxNamelen with
    | none => throw .encryptFailed
    | some k => pure k

/-- add_dent_node: the entry under the parent directory, keyed and stored with the name it
stores. It returns that name's length. -/
def addDentNode (e : Env) (dirInum : Nat) (name : Bytes) (inum type : Nat) (fctx : Option Bytes) :
    M Nat := do
  let kname ← dentName e name type fctx
  let key := dentKeyInit e.keyHash dirInum kname
  addNode e.info key (some kname) (.dent ⟨key, inum, type, kname.length, kname⟩)
    (ubifsDentNodeSz + kname.length + 1)
  pure kname.length

/-! ### Files -/

/-- all_zero. -/
def allZero (buf : Bytes) : Bool := buf.all (· == 0)

theorem Cursor.read_length_le (cur : Cursor) (n : Nat) : (cur.read n).1.length ≤ n := by
  simp only [Cursor.read, List.length_take]
  omega

/-- The read loop of add_file: read into the block until it is full or a read returns 0. It
returns the block, what the last read returned, and the file left. -/
def readBlock (cur : Cursor) (buf : Bytes) : Bytes × Nat × Cursor :=
  match _hr : cur.read (ubifsBlockSize - buf.length) with
  | (got, cur') =>
    if _h : got.length ≠ 0 ∧ buf.length + got.length ≠ ubifsBlockSize then
      readBlock cur' (buf ++ got)
    else (buf ++ got, got.length, cur')
termination_by ubifsBlockSize - buf.length
decreasing_by
  have := Cursor.read_length_le cur (ubifsBlockSize - buf.length)
  rw [_hr] at this
  dsimp only at this
  simp only [List.length_append]
  omega


/-- What the read loop takes from the file is the block's new bytes. -/
theorem readBlock_rest (cur : Cursor) (buf : Bytes) :
    (readBlock cur buf).2.2.rest.length + (readBlock cur buf).1.length =
      cur.rest.length + buf.length := by
  induction cur, buf using readBlock.induct with
  | case1 cur buf got cur' h hc ih =>
    have := Cursor.read_rest_length cur (ubifsBlockSize - buf.length)
    rw [h] at this
    rw [readBlock]
    simp only [h, dif_pos hc]
    simp only [List.length_append] at ih this ⊢
    omega
  | case2 cur buf got cur' h hc =>
    have := Cursor.read_rest_length cur (ubifsBlockSize - buf.length)
    rw [h] at this
    rw [readBlock]
    simp only [h, dif_neg hc]
    simp only [List.length_append] at this ⊢
    omega

/-- The compressor add_file asks for: the default, or the fallback for a file with
FS_COMPR_FL in an unencrypted image without a default. -/
def useCompr (e : Env) (flags : Nat) : Nat :=
  if e.defaultCompr = ubifsComprNone ∧ !e.encrypted ∧ flags &&& fsComprFl ≠ 0 then
    e.codecs.fallback
  else e.defaultCompr

/-- The encryption of a data node in an encrypted file: the node encrypt_data_node leaves, and
its length as the new value of ret. -/
def encryptDataStep (e : Env) (fctx : Option Bytes) (blockNo : Nat) (dn : DataNode) (ret : Nat) :
    M (DataNode × Nat) :=
  match fctx with
  | none => pure (dn, ret)
  | some f =>
    match e.crypto.encryptDataNode f (blockNo % 2 ^ 32) dn with
    | none => throw .encryptFailed
    | some dn => pure (dn, dn.data.length)

/-- The block loop of add_file from block blockNo on, fileSize the bytes read so far: a data
node for every block that is not all zero, keyed by the 32-bit block number. It returns the
file size. The loop goes on while the last value assigned to ret, the read's or
encrypt_data_node's, is not 0. -/
def addFileBlocks (e : Env) (inum flags : Nat) (fctx : Option Bytes) (cur : Cursor)
    (blockNo fileSize : Nat) : M Nat :=
  match _hr : readBlock cur [] with
  | (buf, ret, cur') =>
  if _hb : buf.length = 0 then pure fileSize
  else
    let fileSize := fileSize + buf.length
    if allZero buf then
      if ret ≠ 0 then addFileBlocks e inum flags fctx cur' (blockNo + 1) fileSize
      else pure fileSize
    else do
      let key := dataKeyInit inum blockNo
      let (comprType, out) := compressData e.codecs buf (useCompr e flags)
      let dn : DataNode := ⟨key, buf.length, comprType, 0, out⟩
      let r ← encryptDataStep e fctx blockNo dn ret
      addNode e.info key none (.data r.1) (ubifsDataNodeSz + r.1.data.length)
      if r.2 ≠ 0 then addFileBlocks e inum flags fctx cur' (blockNo + 1) fileSize
      else pure fileSize
termination_by cur.rest.length
decreasing_by
  all_goals
    have := readBlock_rest cur []
    rw [_hr] at this
    simp only [List.length_nil] at this
    omega

/-- add_file: the data nodes, a check that the bytes read are the size lstat reported, then the
inode. -/
def addFile (e : Env) (path : Bytes) (hf : HostFile) (st : Stat) (inum flags : Nat)
    (fctx : Option Bytes) : M Unit := do
  let fileSize ← addFileBlocks e inum flags fctx ⟨hf.data, hf.reads⟩ 0 0
  if fileSize ≠ st.stSize then throw (.fileSizeChanged path)
  addInode e st inum [] flags (some (path, hf.xattrs)) fctx

/-! ### Hard links -/

/-- HASH_TABLE_SIZE. -/
def hashTableSize : Nat := 10099

/-- Whether a table entry is the one of (dev, ino). -/
def InumMapping.isOf (dev ino : Nat) (im : InumMapping) : Bool := im.dev == dev && im.inum == ino

/-- The link-counting branch of add_non_dir, with lookup_inum_mapping. The entry of
(st_dev, st_ino) is searched in chain st_ino % HASH_TABLE_SIZE. Without one, a new entry goes
at the head of the chain with the inode number just taken, one link, this path and this host
object (lookup_inum_mapping creates it with use_nlink 0, which sends add_non_dir down its
new-entry branch). With one, this link takes the entry's inode number, counts itself, and
gives back the number just taken. Either way the entry's stat becomes this link's. -/
def linkInumMapping (path : Bytes) (hf : HostFile) (st : Stat) (inum : Nat) : M Nat := do
  let s ← get
  let k := st.stIno % hashTableSize
  let chain := s.hashTable k
  match chain.find? (InumMapping.isOf st.stDev st.stIno) with
  | none =>
    set { s with hashTable :=
      Function.update s.hashTable k (⟨st.stDev, st.stIno, inum, 1, path, st, hf⟩ :: chain) }
    pure inum
  | some im =>
    set { s with
      hashTable := Function.update s.hashTable k (chain.map fun (im' : InumMapping) =>
        if im'.isOf st.stDev st.stIno then { im' with useNlink := im'.useNlink + 1, st := st }
        else im')
      highestInum := s.highestInum - 1 }
    pure im.useInum

/-! ### The walk -/

/-- The UBIFS type add_non_dir gives a host mode, or its error for a mode of no known type. -/
def nonDirType (path : Bytes) (m : Nat) : M Nat :=
  if sIsreg m then pure ubifsItypeReg else if sIschr m then pure ubifsItypeChr
  else if sIsblk m then pure ubifsItypeBlk else if sIslnk m then pure ubifsItypeLnk
  else if sIssock m then pure ubifsItypeSock else if sIsfifo m then pure ubifsItypeFifo
  else throw (.unknownInodeType path)

/-- The writing part of add_non_dir, by file type. Sockets and FIFOs get neither an xattr
path nor an encryption context, devices no encryption context. -/
def addNonDirNodes (e : Env) (path : Bytes) (hf : HostFile) (st : Stat) (inum flags : Nat)
    (fctx : Option Bytes) : M Unit :=
  let m := st.stMode
  if sIsreg m then addFile e path hf st inum flags fctx
  else if sIschr m then addDevInode e path hf st inum flags
  else if sIsblk m then addDevInode e path hf st inum flags
  else if sIslnk m then addSymlinkInode e path hf st inum flags fctx
  else if sIssock m then addInode e st inum [] flags none none
  else if sIsfifo m then addInode e st inum [] flags none none
  else throw (.unknownInodeType path)

/-- add_non_dir: the UBIFS type of a non-directory, then either its deferral to the
link-counting table (no link count given and more than one host link), or its nodes, with the
link count given or 1 and a creation sqnum of its own. It returns the inode number the
directory entry names and the type. -/
def addNonDir (e : Env) (path : Bytes) (hf : HostFile) (inum nlink : Nat) (st : Stat)
    (fctx : Option Bytes) : M (Nat × Nat) := do
  let flags := if sIsreg st.stMode then hf.flags else 0
  let type ← nonDirType path st.stMode
  if nlink = 0 ∧ 1 < st.stNlink then do
    let inum ← linkInumMapping path hf st inum
    pure (inum, type)
  else do
    let st := { st with stNlink := if nlink ≠ 0 then nlink else 1 }
    setCreatSqnum (← nextSqnum)
    addNonDirNodes e path hf st inum flags fctx
    pure (inum, type)

/-- The stat of a directory entry as add_directory uses it: lstat, with uid and gid squashed
under squash_owner. -/
def entryStat (e : Env) (hf : HostFile) : Stat :=
  if e.squashOwner then { hf.st with stUid := 0, stGid := 0 } else hf.st

mutual

/-- add_directory for a directory dirName with host object hf: the readdir loop when the
directory exists on the host, then the directory's inode with the creation sqnum taken on
entry, which the children overwrite in the global creat_sqnum. -/
def addDirectory (e : Env) (dirName : Bytes) :
    HostFile → Nat → Stat → Bool → Option Bytes → M Unit
  | hf@⟨_, _, _, _, _, entries⟩, dirInum, st, existing, fctx => do
    let dirCreatSqnum ← nextSqnum
    let r ← (if existing then addEntries e dirName dirInum fctx entries ubifsInoNodeSz 2
      else pure (ubifsInoNodeSz, 2))
    setCreatSqnum dirCreatSqnum
    addDirInode e (if existing then some (dirName, hf) else none) dirInum r.1 r.2 st fctx

/-- The readdir loop of add_directory from one entry on, with the directory size and link
count so far. "." and ".." are skipped; every other entry takes the next inode number, is
written, and gets its directory entry, named in the directory's encryption context. -/
def addEntries (e : Env) (dirName : Bytes) (dirInum : Nat) (fctx : Option Bytes) :
    List (Bytes × HostFile) → Nat → Nat → M (Nat × Nat)
  | [], size, nlink => pure (size, nlink)
  | (name, child) :: rest, size, nlink =>
    if name = ascii "." ∨ name = ascii ".." then addEntries e dirName dirInum fctx rest size nlink
    else do
      let path := makePath dirName name
      let st := entryStat e child
      let inum ← nextInum
      let newFctx := fctx.map e.crypto.inherit
      let r ← (if sIsdir st.stMode then do
          addDirectory e path child inum st true newFctx
          pure (inum, ubifsItypeDir, nlink + 1)
        else do
          let r ← addNonDir e path child inum 0 st newFctx
          pure (r.1, r.2, nlink))
      let klen ← addDentNode e dirInum name r.1 r.2.1 fctx
      addEntries e dirName dirInum fctx rest (size + align (ubifsDentNodeSz + klen + 1) 8) r.2.2

end

/-- The walk of one chain of add_multi_linked_files: each entry's inode, with the link count
it counted, from the path and stat it recorded, and no encryption context. -/
def addMultiLinkedChain (e : Env) : List InumMapping → M Unit
  | [] => pure ()
  | im :: rest => do
    let _ ← addNonDir e im.pathName im.src im.useInum im.useNlink im.st none
    addMultiLinkedChain e rest

/-- add_multi_linked_files: the chains bucket by bucket. -/
def addMultiLinkedFiles (e : Env) : M Unit :=
  (List.range hashTableSize).forM fun i => do addMultiLinkedChain e ((← get).hashTable i)

/-- The stat write_data gives the root when no root directory was given: a 0755 directory
stamped with time(NULL), the rest of the static root_st zero. -/
def defaultRootStat (now : Int) : Stat :=
  ⟨sIFDIR ||| 0o755, 0, 0, 0, 0, now, now, now, 0, 0, 0⟩

/-- The add_directory call of write_data: the root from the host when a root was given (its
stat, owner squashed under squash_owner), else a root of the default stat that does not exist
on the host. -/
def addRootDirectory (e : Env) (root : Option HostFile) (now : Int) : M Unit :=
  match root with
  | some hf => addDirectory e e.rootPath hf ubifsRootIno (entryStat e hf) true e.rootFctx
  | none =>
    let st := defaultRootStat now
    addDirectory e [] ⟨st, 0, [], [], [], []⟩ ubifsRootIno st false e.rootFctx

/-- write_data: the root directory, then the deferred hard-linked files, then the last flush.
The head writes leaves (head_flags 0). -/
def writeData (e : Env) (root : Option HostFile) (now : Int) : M Unit := do
  onFlash fun fl => ((), { fl with headFlags := 0 })
  addRootDirectory e root now
  addMultiLinkedFiles e
  onFlash fun fl => ((), flushNodes e.info fl)

end MkfsUbifs
