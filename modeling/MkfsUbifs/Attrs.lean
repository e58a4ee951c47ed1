import MkfsUbifs.Nodes
import MkfsUbifs.IndexTree

/-! # Which inodes get their attributes and their encryption

add_inode copies the host's extended attributes and the SELinux label only when its caller
passes an xattr path, and marks an inode encrypted (UBIFS_CRYPT_FL, the encryption context
attribute, encrypted data) only when its caller passes an encryption context. Which of the two
each call site passes decides it: add_non_dir passes sockets and FIFOs no xattr path, and
add_multi_linked_files passes the files it writes no context. -/

namespace MkfsUbifs

/-! ### Flags -/

@[simp] theorem xattrHost_flags {e : Env} {host : InoNode} {name data : Bytes} :
    (xattrHost e host name data).flags = host.flags := rfl

@[simp] theorem xattrHosts_flags {e : Env} {host : InoNode} {xs : List (Bytes × Bytes)} :
    (xattrHosts e host xs).flags = host.flags := by
  induction xs generalizing host with
  | nil => rfl
  | cons x rest ih => exact ih

@[simp] theorem xattrHost_xattrCnt {e : Env} {host : InoNode} {name data : Bytes} :
    (xattrHost e host name data).xattrCnt = host.xattrCnt + 1 := rfl

/-- Without an encryption context every flag add_inode sets is one of the five below
UBIFS_XATTR_FL. -/
theorem inodeFlags_none_lt {e : Env} {st : Stat} {flags : Nat} : inodeFlags e st flags none < 2 ^ 5 := by
  have step : ∀ {p : Prop} [Decidable p] {f g : Nat}, f < 2 ^ 5 → g < 2 ^ 5 →
      (if p then f ||| g else f) < 2 ^ 5 := fun hf hg => by
    split
    · exact Nat.or_lt_two_pow hf hg
    · exact hf
  unfold inodeFlags
  simp only [Option.isSome_none, Bool.false_eq_true, if_false]
  refine step (step (step (step (step ?_ (by decide)) (by decide)) (by decide)) (by decide)) (by decide)
  split <;> decide

theorem crypt_clear_of_lt {x : Nat} (h : x < 2 ^ 5) : x &&& ubifsCryptFl = 0 := by
  have hx : x &&& (2 ^ 6 - 1) = x := Nat.and_pow_two_sub_one_of_lt_two_pow (by omega)
  calc x &&& ubifsCryptFl = (x &&& (2 ^ 6 - 1)) &&& ubifsCryptFl := by rw [hx]
    _ = x &&& ((2 ^ 6 - 1) &&& ubifsCryptFl) := Nat.land_assoc ..
    _ = 0 := Nat.and_zero x

/-- The inode nodes add_inode writes without an encryption context, its own and its attribute
inodes, carry no UBIFS_CRYPT_FL. -/
theorem inodeNodes_crypt_clear {e : Env} {st : Stat} {inum flags h m creat : Nat} {d : Bytes}
    {xattrPath : Option (Bytes × List (Bytes × Bytes))} :
    ∀ n ∈ inodeNodes e st inum d flags xattrPath none h m creat, ∀ ino, n.body = .ino ino →
      ino.flags &&& ubifsCryptFl = 0 := by
  have hx : ∀ xs h m, ∀ n ∈ xattrNodes e st inum xs h m, ∀ ino, n.body = .ino ino →
      ino.flags &&& ubifsCryptFl = 0 := by
    intro xs
    induction xs with
    | nil => simp [xattrNodes]
    | cons x rest ih =>
      intro h m n hn ino hb
      simp only [xattrNodes, List.mem_cons] at hn
      rcases hn with rfl | rfl | hn
      · cases hb
      · cases hb
        exact (by decide : ubifsXattrFl &&& ubifsCryptFl = 0)
      · exact ih _ _ n hn ino hb
  intro n hn ino hb
  simp only [inodeNodes, List.mem_append, List.mem_singleton] at hn
  rcases hn with hn | rfl
  · exact hx _ _ _ n hn ino hb
  · cases hb
    rw [xattrHosts_flags]
    exact crypt_clear_of_lt inodeFlags_none_lt

/-! ### Sockets and FIFOs -/

section Special
variable {e : Env} {path : Bytes} {hf : HostFile} {st : Stat} {inum flags : Nat}
  {fctx : Option Bytes} {s s' : Mkfs}

theorem nonDirArgs_fctx_none : (nonDirArgs path hf st none).2.2 = none := by
  unfold nonDirArgs
  dsimp only
  split_ifs <;> rfl

theorem nonDirArgs_special (hm : sIssock st.stMode ∨ sIsfifo st.stMode) :
    nonDirArgs path hf st fctx = ([], none, none) := by
  unfold nonDirArgs
  unfold sIssock sIsfifo at hm
  rcases hm with hm | hm <;>
    simp only [beq_iff_eq] at hm <;>
    simp [sIsreg, sIschr, sIsblk, sIslnk, hm, sIFSOCK, sIFIFO, sIFREG, sIFCHR, sIFBLK, sIFLNK]

/-- A socket or a FIFO is written as its inode node alone, recording no attribute: add_non_dir
gives add_inode no xattr path for them, so neither the host's extended attributes nor a
security label is copied, whatever the host holds. -/
theorem addNonDirNodes_special_inode_only (hm : sIssock st.stMode ∨ sIsfifo st.stMode)
    (h : (addNonDirNodes e path hf st inum flags fctx).run s = .ok ((), s')) :
    ∃ ino, s'.nodes = s.nodes ++ [⟨s.maxSqnum + 1, ubifsInoNodeSz, .ino ino⟩] ∧ ino.xattrCnt = 0 := by
  obtain ⟨-, ls, d, -, hr, hd, hn, -, -⟩ := addNonDirNodes_nodes h
  have hreg : ¬sIsreg st.stMode := by
    unfold sIssock sIsfifo at hm
    rcases hm with hm | hm <;> simp only [beq_iff_eq] at hm <;> simp [sIsreg, hm, sIFSOCK, sIFIFO, sIFREG]
  obtain rfl : ls = [] := hr.resolve_left hreg
  rw [nonDirArgs_special hm] at hd hn
  obtain rfl : d = [] := by simpa [inodeData] using hd.symm
  exact ⟨_, by simpa [leafNodes, inodeNodes, inodeXattrs, pathXattrs, fscryptXattrs, xattrNodes] using hn,
    rfl⟩

end Special

/-- A sample build: the smallest LEB geometry, no compression, no encryption, no label file,
a key hash that is always 0, and an LPT that fits its first LEB (LEB 5, lpt_first here). -/
def smallEnv : Env where
  info := smallInfo
  keyHash := ⟨fun _ => 0, fun _ => Nat.two_pow_pos _⟩
  defaultCompr := ubifsComprNone
  encrypted := false
  squashOwner := false
  codecs := ⟨none, none, none, false, 20⟩
  crypto := ⟨id, fun _ n _ => some n, fun _ n => n, fun _ _ d => some d, 3, ascii "c"⟩
  selabel := none
  xattrNameSelinux := ascii "security.selinux"
  strtoull := fun _ => 0
  calcDentSize := fun n => align (ubifsDentNodeSz + n + 1) 8
  calcXattrBytes := fun n => align (ubifsInoNodeSz + n + 1) 8
  rootPath := ascii "/r/"
  rootFctx := none
  createLpt := fun _ _ => some ⟨5, 0, 5, 0, 5, 0, 5, 0, []⟩
  masterCalcHash := fun _ => []
  signSb := fun _ => some []
  keyHashType := 0
  maxBudBytes := 15360
  jheadCnt := 1
  lsaveCnt := 256
  rpSize := 0
  hashAlgo := 0
  bigLpt := false
  spaceFixup := false
  doubleHash := false

/-- A FIFO with the extended attribute trusted.a = "1". -/
def xattrFifo : HostFile :=
  ⟨⟨sIFIFO ||| 0o644, 0, 0, 1, 0, 0, 0, 0, 0, 1, 3⟩, 0, [(ascii "trusted.a", ascii "1")], [], [], []⟩

theorem xattrFifo_inode_only :
    ∃ s', (addNonDirNodes smallEnv (ascii "/r/p") xattrFifo xattrFifo.st 65 0 none).run
        (Mkfs.init smallInfo) = .ok ((), s') ∧
      ∃ ino, s'.nodes = (Mkfs.init smallInfo).nodes ++
        [⟨(Mkfs.init smallInfo).maxSqnum + 1, ubifsInoNodeSz, .ino ino⟩] ∧ ino.xattrCnt = 0 :=
  let ⟨s', h⟩ : ∃ s', (addNonDirNodes smallEnv (ascii "/r/p") xattrFifo xattrFifo.st 65 0 none).run
      (Mkfs.init smallInfo) = .ok ((), s') := ⟨_, rfl⟩
  ⟨s', h, addNonDirNodes_special_inode_only (.inr (by decide)) h⟩

/-! ### The deferred files -/

section Deferred
variable {e : Env} {s s' : Mkfs}

/-- add_non_dir without an encryption context writes no inode with UBIFS_CRYPT_FL. -/
theorem addNonDir_crypt_clear {path : Bytes} {hf : HostFile} {inum nlink : Nat} {st : Stat}
    {r : Nat × Nat} (h : (addNonDir e path hf inum nlink st none).run s = .ok (r, s')) :
    ∃ new, s'.nodes = s.nodes ++ new ∧
      ∀ n ∈ new, ∀ ino, n.body = .ino ino → ino.flags &&& ubifsCryptFl = 0 := by
  rcases (addNonDir_ok h).2 with ⟨-, -, h₁⟩ | ⟨-, -, h₁⟩
  · exact ⟨[], by simp [(linkInumMapping_nodes h₁).1], by simp⟩
  · obtain ⟨-, ls, d, hl, -, -, hn, -, -⟩ := addNonDirNodes_nodes h₁
    refine ⟨_, by rw [hn, List.append_assoc]; rfl, fun n hm ino hb => ?_⟩
    rcases List.mem_append.mp hm with hm | hm
    · obtain ⟨dn, hd⟩ := leafNodes_data hl _ n hm
      rw [hd] at hb
      cases hb
    · rw [nonDirArgs_fctx_none] at hm
      exact inodeNodes_crypt_clear n hm ino hb

/-- add_multi_linked_files writes the files of several host links without their encryption
context: no inode it writes, whatever the image's key, carries UBIFS_CRYPT_FL. -/
theorem addMultiLinkedChain_unencrypted {chain : List InumMapping}
    (h : (addMultiLinkedChain e chain).run s = .ok ((), s')) :
    ∃ new, s'.nodes = s.nodes ++ new ∧
      ∀ n ∈ new, ∀ ino, n.body = .ino ino → ino.flags &&& ubifsCryptFl = 0 := by
  have hr := addMultiLinkedChain_ok h
  clear h
  induction hr with
  | nil => exact ⟨[], by simp, by simp⟩
  | cons h₁ _ ih =>
    obtain ⟨n₁, e₁, c₁⟩ := addNonDir_crypt_clear h₁
    obtain ⟨n₂, e₂, c₂⟩ := ih
    refine ⟨n₁ ++ n₂, by rw [e₂, e₁, List.append_assoc], fun n hn => ?_⟩
    rcases List.mem_append.mp hn with hn | hn
    · exact c₁ n hn
    · exact c₂ n hn

/-- The sample build with an encryption key. -/
def encryptedEnv : Env := { smallEnv with encrypted := true, rootFctx := some (ascii "k") }

/-- A table entry for a symlink with two host links, both counted. -/
def linkedSymlink : InumMapping :=
  let st : Stat := ⟨sIFLNK ||| 0o777, 0, 0, 2, 1, 0, 0, 0, 0, 1, 7⟩
  ⟨1, 7, 65, 2, ascii "/r/l", st, ⟨st, 0, [], ascii "t", [], []⟩⟩

theorem linkedSymlink_unencrypted :
    ∃ s', (addMultiLinkedChain encryptedEnv [linkedSymlink]).run (Mkfs.init smallInfo) = .ok ((), s') ∧
      ∃ new, s'.nodes = (Mkfs.init smallInfo).nodes ++ new ∧
        ∀ n ∈ new, ∀ ino, n.body = .ino ino → ino.flags &&& ubifsCryptFl = 0 :=
  let ⟨s', h⟩ : ∃ s', (addMultiLinkedChain encryptedEnv [linkedSymlink]).run (Mkfs.init smallInfo) =
      .ok ((), s') := ⟨_, rfl⟩
  ⟨s', h, addMultiLinkedChain_unencrypted h⟩

end Deferred

/-! ### The counters in either byte order

add_xattr counts an attribute into the host inode with host_ino->xattr_cnt++ and += on the
__le32 fields of the node add_inode zeroed, that is with the host's own arithmetic: the counters
reach the image in the host's byte order, where every other field went through cpu_to_le*. -/

/-- The byte order of the host mkfs.ubifs runs on. -/
inductive ByteOrder
  | little
  | big
  deriving DecidableEq, Repr

/-- The four bytes a 32-bit field holding v occupies in the host's memory, lowest address
first. -/
def ByteOrder.store32 (o : ByteOrder) (v : Nat) : Bytes :=
  let bs := [v % 256, v / 2 ^ 8 % 256, v / 2 ^ 16 % 256, v / 2 ^ 24 % 256].map Nat.toUInt8
  match o with
  | .little => bs
  | .big => bs.reverse

/-- le32_to_cpu as a reader of the image applies it: the bytes as a little-endian number. -/
def le32 (bs : Bytes) : Nat := bs.foldr (fun b acc => b.toNat + 2 ^ 8 * acc) 0

@[simp] theorem toNat_toUInt8_mod (x : Nat) : (x % 256).toUInt8.toNat = x % 256 :=
  UInt8.toNat_ofNat_of_lt (Nat.mod_lt _ (by decide))

theorem le32_store32_little (v : Nat) : le32 (ByteOrder.little.store32 v) = v % 2 ^ 32 := by
  simp only [ByteOrder.store32, le32, List.map_cons, List.map_nil, List.foldr_cons, List.foldr_nil,
    toNat_toUInt8_mod]
  omega

/-- A big-endian host stores a count below 256 in the last byte, which a little-endian reader
takes for the most significant. -/
theorem le32_store32_big_of_lt {v : Nat} (h : v < 2 ^ 8) : le32 (ByteOrder.big.store32 v) = v * 2 ^ 24 := by
  simp only [ByteOrder.store32, le32, List.map_cons, List.map_nil, List.reverse_cons, List.reverse_nil,
    List.nil_append, List.cons_append, List.singleton_append, List.foldr_cons, List.foldr_nil, toNat_toUInt8_mod]
  omega

/-- The name lengths of the xattr-entry nodes among ns keyed under inum (as the key's 32-bit
inode word stores it). -/
def xentNlens (inum : Nat) (ns : List Node) : List Nat :=
  ns.filterMap fun n => match n.body with
    | .xent x => if x.key.ino = inum % 2 ^ 32 then some x.nlen else none
    | _ => none

section Counters
variable {e : Env} {st : Stat} {inum flags : Nat} {data : Bytes}
  {xattrPath : Option (Bytes × List (Bytes × Bytes))} {fctx : Option Bytes} {s s' : Mkfs} {u : Unit}

@[simp] theorem xattrHosts_xattrCnt {host : InoNode} {xs : List (Bytes × Bytes)} :
    (xattrHosts e host xs).xattrCnt = host.xattrCnt + xs.length := by
  induction xs generalizing host with
  | nil => rfl
  | cons x rest ih =>
    show (xattrHosts e (xattrHost e host x.1 x.2) rest).xattrCnt = _
    rw [ih, xattrHost_xattrCnt, List.length_cons]
    omega

/-- Each attribute adds one entry keyed under the host's number. -/
theorem xentNlens_xattrNodes (xs : List (Bytes × Bytes)) (h m : Nat) :
    xentNlens inum (xattrNodes e st inum xs h m) = xs.map fun x => x.1.length := by
  induction xs generalizing h m with
  | nil => rfl
  | cons x rest ih =>
    simp only [xattrNodes, xentNlens, List.filterMap_cons, xentKeyInit, if_true, List.map_cons] at ih ⊢
    rw [ih]

/-- add_inode's xattr_cnt as the image holds it: on a little-endian host the number of
attribute entries written under the inode, on a big-endian host, for fewer than 256 of them,
that number times 2^24. -/
theorem addInode_xattrCnt_on_flash (h : (addInode e st inum data flags xattrPath fctx).run s = .ok (u, s'))
    (hn : (inodeXattrs e st xattrPath fctx).length < 2 ^ 8) :
    ∃ ns n ino, s'.nodes = s.nodes ++ ns ++ [n] ∧ n.body = .ino ino ∧ ino.key = inoKeyInit inum ∧
      (xentNlens inum ns).length = (inodeXattrs e st xattrPath fctx).length ∧
      le32 (ByteOrder.little.store32 ino.xattrCnt) = (xentNlens inum ns).length ∧
      le32 (ByteOrder.big.store32 ino.xattrCnt) = (xentNlens inum ns).length * 2 ^ 24 := by
  obtain ⟨d, -, hs, -, -⟩ := addInode_nodes h
  have hx : xentNlens inum (xattrNodes e st inum (inodeXattrs e st xattrPath fctx) s.highestInum
      s.maxSqnum) = _ := xentNlens_xattrNodes _ _ _
  have hc : (xattrHosts e (inodeBase e st inum d flags fctx s.creatSqnum)
      (inodeXattrs e st xattrPath fctx)).xattrCnt = (inodeXattrs e st xattrPath fctx).length := by
    simp [inodeBase]
  refine ⟨_, _, _, by rw [hs, inodeNodes, List.append_assoc], rfl, xattrHosts_key, by simp [hx], ?_, ?_⟩
  · rw [le32_store32_little, hc, hx, List.length_map]
    omega
  · rw [hc, hx, List.length_map, le32_store32_big_of_lt hn]

end Counters

/-- A character device with the extended attribute trusted.a = "1". -/
def xattrDev : HostFile :=
  ⟨⟨sIFCHR ||| 0o644, 0, 0, 1, 0, 0, 0, 0, 0, 1, 4⟩, 0, [(ascii "trusted.a", ascii "1")], [], [], []⟩

/-- add_dev_inode on that device writes its one xattr entry, the xattr inode and the device
inode. -/
theorem addDevInode_xattrDev_ok : ∃ s', (addDevInode smallEnv (ascii "/r/d") xattrDev xattrDev.st
    65 0).run (Mkfs.init smallInfo) = .ok ((), s') := by
  let host := inodeBase smallEnv xattrDev.st 65 (le64 0) 0 none 0
  obtain ⟨s₁, h₁, hh₁⟩ : ∃ s₁, (addXattr smallEnv host xattrDev.st 65 (ascii "trusted.a")
      (ascii "1")).run (Mkfs.init smallInfo) =
      .ok (xattrHost smallEnv host (ascii "trusted.a") (ascii "1"), s₁) ∧ HeadOk smallInfo s₁.flash.head :=
    addXattr_succeeds (by decide) ⟨by decide, by decide⟩ (by decide) (by decide)
  obtain ⟨s₂, h₂, -⟩ := addNode_succeeds (.ino (xattrHost smallEnv host (ascii "trusted.a") (ascii "1")))
    (inoKey_nameOk : NameOk (inoKeyInit 65) none) (by decide) hh₁
    (show ubifsInoNodeSz + (le64 0).length ≤ smallInfo.lebSize by decide)
  refine ⟨s₂, ?_⟩
  have hd : (inodeDataStep smallEnv xattrDev.st (le64 xattrDev.st.stRdev) none).run
      (Mkfs.init smallInfo) = .ok (le64 0, Mkfs.init smallInfo) := rfl
  unfold addDevInode addInode inodeAddXattrPath inodeAddSelinuxXattr
  rw [run_bind_of_ok run_get]
  dsimp only
  rw [run_bind_of_ok hd]
  simp only [show smallEnv.selabel = none from rfl, pure_bind, bind_assoc,
    show xattrDev.xattrs = [(ascii "trusted.a", ascii "1")] from rfl]
  rw [inodeAddXattrs, if_neg (by decide), if_neg (by decide),
    if_neg (by simp [show smallEnv.selabel = none from rfl])]
  simp only [pure_bind, bind_assoc, inodeAddXattrs, inodeAddFscrypt]
  exact (run_bind_of_ok h₁).trans h₂

theorem xattrDev_count_swapped :
    ∃ s', (addDevInode smallEnv (ascii "/r/d") xattrDev xattrDev.st 65 0).run (Mkfs.init smallInfo) =
        .ok ((), s') ∧
      (inodeXattrs smallEnv xattrDev.st (some (ascii "/r/d", xattrDev.xattrs)) none).length < 2 ^ 8 ∧
      ∃ ns n ino, s'.nodes = (Mkfs.init smallInfo).nodes ++ ns ++ [n] ∧ n.body = .ino ino ∧
        ino.key = inoKeyInit 65 ∧
        (xentNlens 65 ns).length = (inodeXattrs smallEnv xattrDev.st (some (ascii "/r/d", xattrDev.xattrs)) none).length ∧
        le32 (ByteOrder.little.store32 ino.xattrCnt) = (xentNlens 65 ns).length ∧
        le32 (ByteOrder.big.store32 ino.xattrCnt) = (xentNlens 65 ns).length * 2 ^ 24 :=
  let ⟨s', h⟩ := addDevInode_xattrDev_ok
  ⟨s', h, by decide, addInode_xattrCnt_on_flash h (by decide)⟩

end MkfsUbifs
