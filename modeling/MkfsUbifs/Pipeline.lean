import MkfsUbifs.Emit
import MkfsUbifs.Index

/-! # From the leaves to the image

mkfs once init and ubifs_init_authentication have fixed the geometry and the hashes:
write_data, then set_gc_lnum, write_index, finalize_leb_cnt, write_lpt, write_master,
write_super, write_log and write_orphan_area, each stopping the build on its error. -/

namespace MkfsUbifs

/-- The first and the last LEB of the LPT area, as init lays the areas out. -/
def Info.lptFirst (c : Info) : Nat := ubifsLogLnum + c.logLebs
def Info.lptLast (c : Info) : Nat := c.lptFirst + c.lptLebs - 1

/-- count calls of write_empty_leb from lnum on. -/
def writeEmptyLebs (lnum : Nat) : Nat → M Unit
  | 0 => pure ()
  | k + 1 => do
    onFlash fun fl => ((), writeEmptyLeb lnum fl)
    writeEmptyLebs (lnum + 1) k

/-- set_gc_lnum: the head LEB is erased and reserved for the garbage collector, the one empty
LEB of the ledger. -/
def setGcLnum (c : Info) : M Unit := do
  let gc := (← get).flash.headLnum
  modify fun s => { s with gcLnum := gc, flash := { s.flash with headLnum := gc + 1 } }
  onFlash fun fl => ((), writeEmptyLeb gc fl)
  onFlash fun fl => ((), setLprops c gc 0 0 fl)
  onFlash fun fl => ((), { fl with lst := { fl.lst with emptyLebs := fl.lst.emptyLebs + 1 } })

/-- finalize_leb_cnt: the image is the LEBs below the head. -/
def finalizeLebCnt (c : Info) : M Unit := do
  let lebCnt := (← get).flash.headLnum
  modify fun s => { s with lebCnt := lebCnt }
  if c.maxLebCnt < lebCnt then throw (.maxLebCntTooLow lebCnt)

/-- Modelled from the spec: the LEBs ubifs_create_lpt writes, each once, from lpt_first to the
LEB of the LPT head it leaves. -/
def createLptWrites (c : Info) (pos : LptPos) : List (Nat × Leb) :=
  (List.range' c.lptFirst (pos.nheadLnum + 1 - c.lptFirst)).map fun l => (l, .lpt)

/-- write_lpt: the LPT over the main LEBs' lprops (finalize_leb_cnt set main_lebs to
leb_cnt - main_first), then the LPT LEBs after the LPT head's erased. -/
def writeLpt (e : Env) : M Unit := do
  let c := e.info
  modify fun s => { s with lscanLnum := c.mainFirst }
  let s ← get
  match e.createLpt s.flash.lpt (s.lebCnt - c.mainFirst) with
  | none => throw .lptFailed
  | some pos =>
    set { s with lptPos := pos }
    onFlash fun fl => ((), { fl with sink := fl.sink ++ createLptWrites c pos })
    writeEmptyLebs (pos.nheadLnum + 1) (c.lptLast - pos.nheadLnum)

/-- The master node write_master fills from what the build recorded. The hashes are copied only
in an authenticated image (hash_len not 0). -/
def masterNode (e : Env) (s : Mkfs) : MstNode :=
  let auth := e.info.hashLen ≠ 0
  { highestInum := s.highestInum, cmtNo := 0, flags := ubifsMstNoOrphs, logLnum := ubifsLogLnum
    rootLnum := s.zroot.1, rootOffs := s.zroot.2.1, rootLen := s.zroot.2.2, gcLnum := s.gcLnum
    iheadLnum := s.iheadLnum, iheadOffs := s.iheadOffs, indexSize := s.oldIdxSz
    lptLnum := s.lptPos.lptLnum, lptOffs := s.lptPos.lptOffs
    nheadLnum := s.lptPos.nheadLnum, nheadOffs := s.lptPos.nheadOffs
    ltabLnum := s.lptPos.ltabLnum, ltabOffs := s.lptPos.ltabOffs
    lsaveLnum := s.lptPos.lsaveLnum, lsaveOffs := s.lptPos.lsaveOffs, lscanLnum := s.lscanLnum
    emptyLebs := s.flash.lst.emptyLebs, idxLebs := s.flash.lst.idxLebs
    totalFree := s.flash.lst.totalFree, totalDirty := s.flash.lst.totalDirty
    totalUsed := s.flash.lst.totalUsed, totalDead := s.flash.lst.totalDead
    totalDark := s.flash.lst.totalDark, lebCnt := s.lebCnt
    hashRootIdx := if auth then s.rootIdxHash else []
    hashLpt := if auth then s.lptPos.lptHash else [] }

/-- write_master: the master node written to both master LEBs (each write_node prepares it
again, with a new sqnum), then its hash for the superblock. -/
def writeMaster (e : Env) : M Unit := do
  let mst := masterNode e (← get)
  writeNode e.info (.mst mst) ubifsMstNodeSz ubifsMstLnum
  writeNode e.info (.mst mst) ubifsMstNodeSz (ubifsMstLnum + 1)
  modify fun s => { s with mstHash := e.masterCalcHash mst }

/-- ubifs_format_version. -/
def ubifsFormatVersion (e : Env) : Nat := if e.doubleHash ∨ e.encrypted then 5 else 4

/-- The superblock write_super fills. uuid is what uuid_generate_random produced; the master
hash is copied only in an authenticated image. -/
def superNode (e : Env) (s : Mkfs) (uuid : Bytes) : SbNode :=
  let c := e.info
  let auth := c.hashLen ≠ 0
  let flags := (if e.bigLpt then ubifsFlgBiglpt else 0) |||
    (if e.spaceFixup then ubifsFlgSpaceFixup else 0) |||
    (if e.doubleHash then ubifsFlgDoubleHash else 0) |||
    (if e.encrypted then ubifsFlgEncryption else 0) |||
    (if auth then ubifsFlgAuthentication else 0)
  ⟨e.keyHashType, c.minIoSize, c.lebSize, s.lebCnt, c.maxLebCnt,
    e.maxBudBytes, c.logLebs, c.lptLebs, c.orphLebs, e.jheadCnt, c.fanout, e.lsaveCnt,
    ubifsFormatVersion e, e.defaultCompr, e.rpSize, defaultTimeGran, e.hashAlgo, uuid, flags,
    if auth then s.mstHash else []⟩

/-- write_super: the superblock node and the signature node after it on a zeroed buffer, 0xFF
from the end of the signature's I/O unit on. -/
def writeSuper (e : Env) (uuid : Bytes) : M Unit := do
  let sup := superNode e (← get) uuid
  let sb ← prepareNode (.sb sup) ubifsSbNodeSz
  match e.signSb sup with
  | none => throw .signFailed
  | some sig =>
    let sigNode ← prepareNode (.sig sig) (ubifsSigNodeSz + sig.length)
    let len := align (align (ubifsSigNodeSz + sig.length) 8) e.info.minIoSize
    onFlash fun fl =>
      ((), { fl with sink := fl.sink ++
        [(ubifsSbLnum, .super [(0, sb), (ubifsSbNodeSz, sigNode)] (ubifsSbNodeSz + len))] })

/-- write_log: the commit start node, then the other log LEBs erased. -/
def writeLog (c : Info) : M Unit := do
  writeNode c (.cs 0) ubifsCsNodeSz ubifsLogLnum
  writeEmptyLebs (ubifsLogLnum + 1) (c.logLebs - 1)

/-- write_orphan_area: the orphan LEBs erased. -/
def writeOrphanArea (c : Info) : M Unit :=
  writeEmptyLebs (ubifsLogLnum + c.logLebs + c.lptLebs) c.orphLebs

/-- mkfs after init: the source tree root (none without -r), the time write_data stamps a
default root with, and the superblock's UUID. It runs from Mkfs.init. -/
def mkfs (e : Env) (root : Option HostFile) (now : Int) (uuid : Bytes) : M Unit := do
  writeData e root now
  setGcLnum e.info
  writeIndex e.info
  finalizeLebCnt e.info
  writeLpt e
  writeMaster e
  writeSuper e uuid
  writeLog e.info
  writeOrphanArea e.info

end MkfsUbifs
