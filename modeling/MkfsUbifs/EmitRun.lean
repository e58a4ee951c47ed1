import MkfsUbifs.Emit

/-! # What a successful emitter call does

One inversion lemma per function of the emitter: from a successful run, the state it leaves,
written with the runs of the functions it calls. Later files never unfold the emitter; they
take these lemmas apart with obtain. -/

namespace MkfsUbifs

section Leaf
variable {c : Info} {key : Key} {name : Option Bytes} {body : NodeBody} {len : Nat} {s s' : Mkfs}
  {u : Unit}

theorem run_ite_throw {p : Prop} [Decidable p] {e : Error}
    (h : (if p then throw e else pure () : M Unit).run s = .ok (u, s')) : ¬p ∧ s' = s := by
  split at h
  · simp at h
  · simp only [run_pure, Except.ok.injEq, Prod.mk.injEq] at h
    exact ⟨‹_›, h.2.symm⟩

/-- A guard of a do block, "if p then throw e" followed by more code, passed. -/
theorem run_guard {α : Type} {p : Prop} [Decidable p] {e : Error} {f g : PUnit → M α} {a : α}
    (h : (if p then throw e >>= f else pure PUnit.unit >>= g).run s = .ok (a, s')) :
    ¬p ∧ (g PUnit.unit).run s = .ok (a, s') := by
  split at h
  · simp [run_bind_of_error run_throw] at h
  · exact ⟨‹_›, by rwa [run_bind_of_ok run_pure] at h⟩

/-- Which nodes carry a name: directory and xattr entries, and they alone. -/
def NameOk (key : Key) (name : Option Bytes) : Prop :=
  (keyType key = ubifsDentKey ∨ keyType key = ubifsXentKey) ↔ name.isSome

theorem checkName_ok (h : (checkName key name).run s = .ok (u, s')) : NameOk key name ∧ s' = s := by
  unfold checkName at h
  split at h
  all_goals
    obtain ⟨hn, rfl⟩ := run_ite_throw h
    exact ⟨by simp_all [NameOk, Option.isSome_iff_ne_none], rfl⟩

@[simp] theorem prepareNode_run :
    (prepareNode body len).run s = .ok (⟨s.maxSqnum + 1, len, body⟩, { s with maxSqnum := s.maxSqnum + 1 }) :=
  rfl

theorem copyNode_run {offs : Nat} {n : Node} : (copyNode c offs n).run s =
    if c.lebSize < offs + align n.len 8 then .error .overrun
    else .ok ((), { s with flash := { s.flash with lebBuf := s.flash.lebBuf ++ [(offs, n)] } }) := by
  unfold copyNode
  split <;> rfl

/-- The leaf node add_node writes. -/
def leafNode (s : Mkfs) (len : Nat) (body : NodeBody) : Node := ⟨s.maxSqnum + 1, len, body⟩

/-- The flash after add_node puts a node of length len where reserve_space says. -/
def pushLeaf (c : Info) (len : Nat) (n : Node) (fl : Flash) : Flash :=
  { (reserveSpace c len fl).2 with
    lebBuf := (reserveSpace c len fl).2.lebBuf ++ [((reserveSpace c len fl).1.2, n)] }

/-- add_node: the name fits the key, the node went where reserve_space put it and fits its
LEB, its header took the next sqnum, and the index list gained its entry. -/
theorem addNode_ok (h : (addNode c key name body len).run s = .ok (u, s')) :
    NameOk key name ∧ (reserveSpace c len s.flash).1.2 + align len 8 ≤ c.lebSize ∧
    s' = { s with
      flash := pushLeaf c len (leafNode s len body) s.flash
      maxSqnum := s.maxSqnum + 1
      idxList := s.idxList ++ [⟨key, name, (reserveSpace c len s.flash).1.1,
        (reserveSpace c len s.flash).1.2, len, c.calcHash (leafNode s len body)⟩] } := by
  obtain ⟨_, s₁, h₁, h₂⟩ := run_bind_ok.mp h
  obtain ⟨hn, rfl⟩ := checkName_ok h₁
  rw [run_bind_of_ok prepareNode_run, run_bind_of_ok run_onFlash] at h₂
  obtain ⟨_, s₃, h₃, h₄⟩ := run_bind_ok.mp h₂
  rw [copyNode_run] at h₃
  split at h₃
  · simp at h₃
  · simp only [Except.ok.injEq, Prod.mk.injEq] at h₃
    obtain ⟨-, rfl⟩ := h₃
    dsimp only at *
    refine ⟨hn, by omega, ?_⟩
    simp only [addToIndex, run_modify, Except.ok.injEq, Prod.mk.injEq] at h₄
    rw [← h₄.2]
    rfl

end Leaf

section Counters
variable {s : Mkfs} {n : Nat}

@[simp] theorem nextInum_run :
    nextInum.run s = .ok (s.highestInum + 1, { s with highestInum := s.highestInum + 1 }) := rfl

@[simp] theorem nextSqnum_run :
    nextSqnum.run s = .ok (s.maxSqnum + 1, { s with maxSqnum := s.maxSqnum + 1 }) := rfl

@[simp] theorem setCreatSqnum_run :
    (setCreatSqnum n).run s = .ok ((), { s with creatSqnum := n }) := rfl

end Counters

section Xattr
variable {e : Env} {host host' : InoNode} {st : Stat} {inum : Nat} {name data : Bytes} {s s' : Mkfs}

/-- The host inode after add_xattr counted one more attribute. -/
def xattrHost (e : Env) (host : InoNode) (name data : Bytes) : InoNode :=
  { host with
    xattrCnt := host.xattrCnt + 1
    xattrSize := host.xattrSize + e.calcDentSize name.length + e.calcXattrBytes data.length
    xattrNames := host.xattrNames + name.length }

/-- The inode add_xattr writes for a value: number xinum, creation sqnum creat. -/
def xattrInode (e : Env) (st : Stat) (xinum creat : Nat) (data : Bytes) : InoNode :=
  ⟨inoKeyInit xinum, creat, data.length, 1, st.stAtime, st.stCtime, st.stMtime, st.stUid,
    st.stGid, sIFREG, ubifsXattrFl, e.defaultCompr, data.length, 0, 0, 0, data⟩

/-- The state once add_xattr has taken an inode number and a creation sqnum. -/
def xattrStart (s : Mkfs) : Mkfs :=
  { s with highestInum := s.highestInum + 1, maxSqnum := s.maxSqnum + 1, creatSqnum := s.maxSqnum + 1 }

/-- add_xattr: the next inode number and the next sqnum (as creat_sqnum) are taken, then the
entry and the inode are added. -/
theorem addXattr_ok (h : (addXattr e host st inum name data).run s = .ok (host', s')) :
    host' = xattrHost e host name data ∧ ∃ s₁,
      (addNode e.info (xentKeyInit e.keyHash inum name) (some name)
        (.xent ⟨xentKeyInit e.keyHash inum name, s.highestInum + 1, ubifsItypeReg, name.length, name⟩)
        (ubifsXentNodeSz + name.length + 1)).run (xattrStart s) = .ok ((), s₁) ∧
      (addNode e.info (inoKeyInit (s.highestInum + 1)) none
        (.ino (xattrInode e st (s.highestInum + 1) (s.maxSqnum + 1) data))
        (ubifsInoNodeSz + data.length)).run s₁ = .ok ((), s') := by
  unfold addXattr at h
  rw [run_bind_of_ok nextInum_run, run_bind_of_ok nextSqnum_run,
    run_bind_of_ok setCreatSqnum_run] at h
  obtain ⟨_, s₁, h₁, h₂⟩ := run_bind_ok.mp h
  have hc : s₁.creatSqnum = s.maxSqnum + 1 := by rw [(addNode_ok h₁).2.2]
  rw [run_bind_of_ok run_get, hc] at h₂
  obtain ⟨_, s₂, h₃, h₄⟩ := run_bind_ok.mp h₂
  simp only [run_pure, Except.ok.injEq, Prod.mk.injEq] at h₄
  obtain ⟨rfl, rfl⟩ := h₄
  exact ⟨rfl, s₁, h₁, h₃⟩

end Xattr

/-! ### Extended attributes as a sequence of add_xattr calls -/

/-- A run of add_xattr calls over attributes in order: from the host inode and state on the
left to those on the right. -/
inductive AddXattrs (e : Env) (st : Stat) (inum : Nat) :
    List (Bytes × Bytes) → InoNode → Mkfs → InoNode → Mkfs → Prop
  | nil {host : InoNode} {s : Mkfs} : AddXattrs e st inum [] host s host s
  | cons {name value : Bytes} {rest : List (Bytes × Bytes)} {host h₁ host' : InoNode}
      {s s₁ s' : Mkfs} :
      (addXattr e host st inum name value).run s = .ok (h₁, s₁) →
      AddXattrs e st inum rest h₁ s₁ host' s' →
      AddXattrs e st inum ((name, value) :: rest) host s host' s'

theorem AddXattrs.append {e : Env} {st : Stat} {inum : Nat} {xs ys : List (Bytes × Bytes)}
    {h₀ h₁ h₂ : InoNode} {s₀ s₁ s₂ : Mkfs} (hx : AddXattrs e st inum xs h₀ s₀ h₁ s₁)
    (hy : AddXattrs e st inum ys h₁ s₁ h₂ s₂) : AddXattrs e st inum (xs ++ ys) h₀ s₀ h₂ s₂ := by
  induction hx with
  | nil => exact hy
  | cons hr _ ih => exact .cons hr (ih hy)

/-- The host attributes inode_add_xattr copies: all but user.image-inode-number, and
security.selinux while a label file is in use. -/
def copiedXattrs (e : Env) (xs : List (Bytes × Bytes)) : List (Bytes × Bytes) :=
  xs.filter fun p => !(p.1 = ascii "user.image-inode-number" ∨
    p.1 = e.xattrNameSelinux ∧ e.selabel.isSome)

section Xattrs
variable {e : Env} {path : Bytes} {st : Stat} {inum : Nat} {host host' : InoNode} {s s' : Mkfs}

theorem inodeAddXattrs_ok {xs : List (Bytes × Bytes)}
    (h : (inodeAddXattrs e path st inum xs host).run s = .ok (host', s')) :
    AddXattrs e st inum (copiedXattrs e xs) host s host' s' := by
  induction xs generalizing host s with
  | nil =>
    simp only [inodeAddXattrs, run_pure, Except.ok.injEq, Prod.mk.injEq] at h
    obtain ⟨rfl, rfl⟩ := h
    exact .nil
  | cons x rest ih =>
    obtain ⟨name, value⟩ := x
    unfold inodeAddXattrs at h
    dsimp only at h
    obtain ⟨-, h₂⟩ := run_guard h
    by_cases hn : name = ascii "user.image-inode-number"
    · rw [if_pos hn] at h₂
      obtain ⟨-, h₄⟩ := run_guard h₂
      simpa [copiedXattrs, hn] using ih h₄
    rw [if_neg hn] at h₂
    by_cases hs : name = e.xattrNameSelinux ∧ e.selabel.isSome
    · rw [if_pos hs] at h₂
      simpa [copiedXattrs, hs] using ih h₂
    rw [if_neg hs] at h₂
    obtain ⟨h₁, s₂, h₃, h₄⟩ := run_bind_ok.mp h₂
    have hk : (!decide (name = ascii "user.image-inode-number" ∨
        name = e.xattrNameSelinux ∧ e.selabel.isSome)) = true := by simp only [hn, hs]; decide
    simp only [copiedXattrs, List.filter_cons, hk, if_true]
    exact .cons h₃ (ih h₄)

/-- The label attribute inode_add_selinux_xattr adds: none without a label file, else the
looked-up context (or the unlabeled one) with its NUL. -/
def selinuxXattrs (e : Env) (path : Bytes) (st : Stat) : List (Bytes × Bytes) :=
  match e.selabel with
  | none => []
  | some lookup =>
    let rest := path.drop e.rootPath.length
    let sepath := if rest.head? = some 47 then rest else 47 :: rest
    [(e.xattrNameSelinux,
      (lookup sepath st.stMode).getD (ascii "system_u:object_r:unlabeled_t:s0") ++ [0])]

theorem inodeAddSelinuxXattr_ok (h : (inodeAddSelinuxXattr e host path st inum).run s = .ok (host', s')) :
    AddXattrs e st inum (selinuxXattrs e path st) host s host' s' := by
  unfold inodeAddSelinuxXattr at h
  unfold selinuxXattrs
  cases hsel : e.selabel with
  | none =>
    simp only [hsel, run_pure, Except.ok.injEq, Prod.mk.injEq] at h
    obtain ⟨rfl, rfl⟩ := h
    exact .nil
  | some lookup =>
    simp only [hsel] at h
    exact .cons h .nil

end Xattrs

/-! ### Inodes -/

/-- The inline data add_inode stores: the data as given, or for an encrypted inode with data
(a symlink, or add_inode fails) what encrypt_symlink makes of it. none where add_inode fails. -/
def inodeData (e : Env) (st : Stat) (data : Bytes) (fctx : Option Bytes) : Option Bytes :=
  if data.length = 0 then some data else
  match fctx with
  | none => some data
  | some f => if !sIslnk st.stMode then none else encryptSymlink e.crypto data f

/-- The attributes add_inode copies for an xattr path: the label, then the host's. -/
def pathXattrs (e : Env) (st : Stat) : Option (Bytes × List (Bytes × Bytes)) → List (Bytes × Bytes)
  | none => []
  | some (path, xattrs) => selinuxXattrs e path st ++ copiedXattrs e xattrs

/-- The encryption context attribute of an encrypted inode. -/
def fscryptXattrs (e : Env) : Option Bytes → List (Bytes × Bytes)
  | none => []
  | some f => [(e.crypto.xattrNameEncryptionContext, f)]

/-- The attributes add_inode adds, in order: the label, the copied host attributes, then the
encryption context. -/
def inodeXattrs (e : Env) (st : Stat) (xattrPath : Option (Bytes × List (Bytes × Bytes)))
    (fctx : Option Bytes) : List (Bytes × Bytes) :=
  pathXattrs e st xattrPath ++ fscryptXattrs e fctx

/-- The inode node add_inode fills before its attributes are counted. -/
def inodeBase (e : Env) (st : Stat) (inum : Nat) (data : Bytes) (flags : Nat)
    (fctx : Option Bytes) (creat : Nat) : InoNode :=
  ⟨inoKeyInit inum, creat, st.stSize, st.stNlink, st.stAtime, st.stCtime, st.stMtime, st.stUid,
    st.stGid, st.stMode, inodeFlags e st flags fctx, e.defaultCompr, data.length, 0, 0, 0, data⟩

section Inode
variable {e : Env} {st : Stat} {inum flags : Nat} {data : Bytes}
  {xattrPath : Option (Bytes × List (Bytes × Bytes))} {fctx : Option Bytes} {s s' : Mkfs} {u : Unit}

theorem inodeDataStep_ok {d : Bytes} (h : (inodeDataStep e st data fctx).run s = .ok (d, s')) :
    inodeData e st data fctx = some d ∧ s' = s := by
  unfold inodeDataStep at h
  unfold inodeData
  split at h
  · simp_all
  · split at h
    · simp_all
    · split at h
      · simp at h
      · split at h <;> simp_all

theorem inodeAddXattrPath_ok {ino ino' : InoNode}
    (h : (inodeAddXattrPath e ino xattrPath st inum).run s = .ok (ino', s')) :
    AddXattrs e st inum (pathXattrs e st xattrPath) ino s ino' s' := by
  unfold inodeAddXattrPath at h
  split at h
  · simp only [run_pure, Except.ok.injEq, Prod.mk.injEq] at h
    obtain ⟨rfl, rfl⟩ := h
    exact .nil
  · obtain ⟨ino₀, s₀, h₁, h₂⟩ := run_bind_ok.mp h
    exact (inodeAddSelinuxXattr_ok h₁).append (inodeAddXattrs_ok h₂)

theorem inodeAddFscrypt_ok {ino ino' : InoNode}
    (h : (inodeAddFscrypt e ino inum st fctx).run s = .ok (ino', s')) :
    AddXattrs e st inum (fscryptXattrs e fctx) ino s ino' s' := by
  unfold inodeAddFscrypt at h
  split at h
  · simp only [run_pure, Except.ok.injEq, Prod.mk.injEq] at h
    obtain ⟨rfl, rfl⟩ := h
    exact .nil
  · exact .cons h .nil

/-- add_inode: its inline data came out, its attributes were added in order starting from the
inode with the creation sqnum standing on entry, then the inode itself. -/
theorem addInode_ok (h : (addInode e st inum data flags xattrPath fctx).run s = .ok (u, s')) :
    ∃ d ino s₁, inodeData e st data fctx = some d ∧
      AddXattrs e st inum (inodeXattrs e st xattrPath fctx)
        (inodeBase e st inum d flags fctx s.creatSqnum) s ino s₁ ∧
      (addNode e.info (inoKeyInit inum) none (.ino ino) (ubifsInoNodeSz + d.length)).run s₁ =
        .ok ((), s') := by
  unfold addInode at h
  rw [run_bind_of_ok run_get] at h
  obtain ⟨d, s₁, h₁, h₂⟩ := run_bind_ok.mp h
  obtain ⟨hd, rfl⟩ := inodeDataStep_ok h₁
  obtain ⟨ino₁, s₂, h₃, h₄⟩ := run_bind_ok.mp h₂
  obtain ⟨ino₂, s₃, h₅, h₆⟩ := run_bind_ok.mp h₄
  exact ⟨d, ino₂, s₃, hd, (inodeAddXattrPath_ok h₃).append (inodeAddFscrypt_ok h₅), h₆⟩

end Inode

/-! ### Leaves added one after another -/

/-- A run of add_node calls over leaves (key, name, body, length) in order. -/
inductive Leaves (c : Info) : List (Key × Option Bytes × NodeBody × Nat) → Mkfs → Mkfs → Prop
  | nil {s : Mkfs} : Leaves c [] s s
  | cons {key : Key} {name : Option Bytes} {body : NodeBody} {len : Nat}
      {rest : List (Key × Option Bytes × NodeBody × Nat)} {s s₁ s' : Mkfs} :
      (addNode c key name body len).run s = .ok ((), s₁) → Leaves c rest s₁ s' →
      Leaves c ((key, name, body, len) :: rest) s s'

theorem Leaves.append {c : Info} {xs ys : List (Key × Option Bytes × NodeBody × Nat)}
    {s₀ s₁ s₂ : Mkfs} (hx : Leaves c xs s₀ s₁) (hy : Leaves c ys s₁ s₂) :
    Leaves c (xs ++ ys) s₀ s₂ := by
  induction hx with
  | nil => exact hy
  | cons hr _ ih => exact .cons hr (ih hy)

/-- A data leaf of inode inum: a data node under a data key of inum, without a name, at least
as long as a data node's header. -/
def DataLeaf (inum : Nat) (l : Key × Option Bytes × NodeBody × Nat) : Prop :=
  l.2.1 = none ∧ ∃ b dn, l.1 = dataKeyInit inum b ∧ l.2.2.1 = .data dn ∧ ubifsDataNodeSz ≤ l.2.2.2

section Files
variable {e : Env} {path : Bytes} {hf : HostFile} {st : Stat} {inum flags : Nat}
  {fctx : Option Bytes} {s s' : Mkfs} {u : Unit}

theorem encryptDataStep_ok {blockNo ret : Nat} {dn : DataNode} {r : DataNode × Nat}
    (h : (encryptDataStep e fctx blockNo dn ret).run s = .ok (r, s')) : s' = s := by
  unfold encryptDataStep at h
  split at h
  · simp_all
  · split at h <;> simp_all

/-- The block loop of add_file adds data leaves of the file's inode and nothing else. -/
theorem addFileBlocks_ok {cur : Cursor} {blockNo fileSize n : Nat}
    (h : (addFileBlocks e inum flags fctx cur blockNo fileSize).run s = .ok (n, s')) :
    ∃ ls, Leaves e.info ls s s' ∧ ∀ l ∈ ls, DataLeaf inum l := by
  induction cur, blockNo, fileSize using addFileBlocks.induct e inum flags fctx generalizing s with
  | case1 cur blockNo fileSize buf ret cur' hr hb =>
    rw [addFileBlocks] at h
    simp only [hr, hb, dite_true, run_pure, Except.ok.injEq, Prod.mk.injEq] at h
    exact ⟨[], by rw [h.2]; exact .nil, by simp⟩
  | case2 cur blockNo fileSize buf ret cur' hr hb _ hz hret =>
    rename_i ih
    rw [addFileBlocks] at h
    simp only [hr, hb, dite_false, hz, if_true, hret, if_true, ne_eq, not_false_eq_true] at h
    exact ih h
  | case3 cur blockNo fileSize buf ret cur' hr hb hz hret =>
    rw [addFileBlocks] at h
    simp only [hr, hb, dite_false, hz, if_true, hret, if_false, run_pure, Except.ok.injEq,
      Prod.mk.injEq] at h
    exact ⟨[], by rw [h.2]; exact .nil, by simp⟩
  | case4 cur blockNo fileSize buf ret cur' hr hb _ hz comprType out hc =>
    rename_i ih
    rw [addFileBlocks] at h
    simp only [hr, hb, dite_false, hz, if_false, hc] at h
    obtain ⟨r, s₁, h₁, h₂⟩ := run_bind_ok.mp h
    obtain rfl := encryptDataStep_ok h₁
    obtain ⟨_, s₂, h₃, h₄⟩ := run_bind_ok.mp h₂
    have tail : ∃ ls, Leaves e.info ls s₂ s' ∧ ∀ l ∈ ls, DataLeaf inum l := by
      split at h₄
      · exact ih h₄
      · simp only [run_pure, Except.ok.injEq, Prod.mk.injEq] at h₄
        exact ⟨[], by rw [h₄.2]; exact .nil, by simp⟩
    obtain ⟨ls, hls, hd⟩ := tail
    refine ⟨_ :: ls, .cons h₃ hls, ?_⟩
    simp only [List.mem_cons, forall_eq_or_imp]
    exact ⟨⟨rfl, blockNo, r.1, rfl, rfl, Nat.le_add_right _ _⟩, hd⟩

end Files

/-! ### Non-directories -/

/-- What add_non_dir passes add_inode, by file type: the inline data, the xattr path and the
encryption context. -/
def nonDirArgs (path : Bytes) (hf : HostFile) (st : Stat) (fctx : Option Bytes) :
    Bytes × Option (Bytes × List (Bytes × Bytes)) × Option Bytes :=
  let m := st.stMode
  if sIsreg m then ([], some (path, hf.xattrs), fctx)
  else if sIschr m ∨ sIsblk m then (le64 st.stRdev, some (path, hf.xattrs), none)
  else if sIslnk m then (hf.data.take (ubifsMaxInoData + 1), some (path, hf.xattrs), fctx)
  else ([], none, none)

/-- The UBIFS type of a host mode, as add_non_dir computes it. -/
def nonDirTypeOf (m : Nat) : Option Nat :=
  if sIsreg m then some ubifsItypeReg else if sIschr m then some ubifsItypeChr
  else if sIsblk m then some ubifsItypeBlk else if sIslnk m then some ubifsItypeLnk
  else if sIssock m then some ubifsItypeSock else if sIsfifo m then some ubifsItypeFifo
  else none

/-- A type add_non_dir knows, so that its dispatch reaches add_inode. -/
def KnownNonDir (m : Nat) : Prop :=
  sIsreg m ∨ sIschr m ∨ sIsblk m ∨ sIslnk m ∨ sIssock m ∨ sIsfifo m

section NonDir
variable {e : Env} {path : Bytes} {hf : HostFile} {st : Stat} {inum flags nlink : Nat}
  {fctx : Option Bytes} {s s' : Mkfs} {u : Unit}

theorem addFile_ok (h : (addFile e path hf st inum flags fctx).run s = .ok (u, s')) :
    ∃ n s₁, (addFileBlocks e inum flags fctx ⟨hf.data, hf.reads⟩ 0 0).run s = .ok (n, s₁) ∧
      n = st.stSize ∧ (addInode e st inum [] flags (some (path, hf.xattrs)) fctx).run s₁ = .ok ((), s') := by
  unfold addFile at h
  obtain ⟨n, s₁, h₁, h₂⟩ := run_bind_ok.mp h
  dsimp only at h₂
  obtain ⟨hn, h₃⟩ := run_guard h₂
  exact ⟨n, s₁, h₁, by simpa using hn, h₃⟩

/-- The converse of addFile_ok: the block loop read st_size bytes, then add_inode. -/
theorem addFile_run {s₁ : Mkfs}
    (h : (addFileBlocks e inum flags fctx ⟨hf.data, hf.reads⟩ 0 0).run s = .ok (st.stSize, s₁))
    (h' : (addInode e st inum [] flags (some (path, hf.xattrs)) fctx).run s₁ = .ok ((), s')) :
    (addFile e path hf st inum flags fctx).run s = .ok ((), s') := by
  unfold addFile
  rw [run_bind_of_ok h, if_neg (fun h => h rfl)]
  exact h'

theorem addSymlinkInode_ok (h : (addSymlinkInode e path hf st inum flags fctx).run s = .ok (u, s')) :
    0 < (hf.data.take (ubifsMaxInoData + 1)).length ∧
      (hf.data.take (ubifsMaxInoData + 1)).length ≤ ubifsMaxInoData ∧
      (addInode e st inum (hf.data.take (ubifsMaxInoData + 1)) flags (some (path, hf.xattrs)) fctx).run s =
        .ok ((), s') := by
  unfold addSymlinkInode at h
  dsimp only at h
  obtain ⟨h₁, h₂⟩ := run_guard h
  obtain ⟨h₃, h₄⟩ := run_guard h₂
  exact ⟨by omega, by omega, h₄⟩

/-- The writing part of add_non_dir: the data leaves of a regular file, then add_inode with the
arguments its type gets. -/
theorem addNonDirNodes_ok (h : (addNonDirNodes e path hf st inum flags fctx).run s = .ok (u, s')) :
    KnownNonDir st.stMode ∧ ∃ ls s₁, Leaves e.info ls s s₁ ∧ (∀ l ∈ ls, DataLeaf inum l) ∧
      (sIsreg st.stMode ∨ ls = []) ∧
      (addInode e st inum (nonDirArgs path hf st fctx).1 flags (nonDirArgs path hf st fctx).2.1
        (nonDirArgs path hf st fctx).2.2).run s₁ = .ok ((), s') := by
  unfold addNonDirNodes at h
  unfold nonDirArgs KnownNonDir
  by_cases hr : sIsreg st.stMode
  · simp only [hr, if_true] at h ⊢
    obtain ⟨n, s₁, h₁, -, h₂⟩ := addFile_ok h
    obtain ⟨ls, hls, hd⟩ := addFileBlocks_ok h₁
    exact ⟨by simp, ls, s₁, hls, hd, .inl trivial, h₂⟩
  simp only [hr, if_false] at h ⊢
  by_cases hc : sIschr st.stMode
  · simp only [hc, if_true] at h
    exact ⟨by simp [hc], [], s, .nil, by simp, .inr rfl, by simpa [hc] using h⟩
  by_cases hb : sIsblk st.stMode
  · simp only [hc, hb, if_true, if_false] at h
    exact ⟨by simp [hb], [], s, .nil, by simp, .inr rfl, by simpa [hc, hb] using h⟩
  by_cases hl : sIslnk st.stMode
  · simp only [hc, hb, hl, if_true, if_false] at h
    exact ⟨by simp [hl], [], s, .nil, by simp, .inr rfl, by simpa [hc, hb, hl] using (addSymlinkInode_ok h).2.2⟩
  by_cases hs : sIssock st.stMode
  · simp only [hc, hb, hl, hs, if_true, if_false] at h
    exact ⟨by simp [hs], [], s, .nil, by simp, .inr rfl, by simpa [hc, hb, hl] using h⟩
  by_cases hfi : sIsfifo st.stMode
  · simp only [hc, hb, hl, hs, hfi, if_true, if_false] at h
    exact ⟨by simp [hfi], [], s, .nil, by simp, .inr rfl, by simpa [hc, hb, hl] using h⟩
  simp [hc, hb, hl, hs, hfi] at h

/-- The entry of the link-counting table after one more link of st's host inode was counted. -/
def bumpLink (st : Stat) (im : InumMapping) : InumMapping :=
  if im.isOf st.stDev st.stIno then { im with useNlink := im.useNlink + 1, st := st } else im

/-- The state after link counting saw st's host inode for the first time, with inum. -/
def linkFirst (path : Bytes) (hf : HostFile) (st : Stat) (inum : Nat) (s : Mkfs) : Mkfs :=
  { s with
    hashTable := Function.update s.hashTable (st.stIno % hashTableSize)
      (⟨st.stDev, st.stIno, inum, 1, path, st, hf⟩ :: s.hashTable (st.stIno % hashTableSize)) }

/-- The state after link counting saw st's host inode again: the inode number taken for this
link is given back. -/
def linkAgain (st : Stat) (s : Mkfs) : Mkfs :=
  { s with
    hashTable := Function.update s.hashTable (st.stIno % hashTableSize)
      ((s.hashTable (st.stIno % hashTableSize)).map (bumpLink st))
    highestInum := s.highestInum - 1 }

theorem linkInumMapping_ok {r : Nat} (h : (linkInumMapping path hf st inum).run s = .ok (r, s')) :
    ((s.hashTable (st.stIno % hashTableSize)).find? (InumMapping.isOf st.stDev st.stIno) = none ∧
      r = inum ∧ s' = linkFirst path hf st inum s) ∨
    ∃ im, (s.hashTable (st.stIno % hashTableSize)).find? (InumMapping.isOf st.stDev st.stIno) = some im ∧
      r = im.useInum ∧ s' = linkAgain st s := by
  unfold linkInumMapping at h
  rw [run_bind_of_ok run_get] at h
  dsimp only at h
  split at h
  · rename_i hf₀
    simp only [run_bind_of_ok run_set, run_pure, Except.ok.injEq, Prod.mk.injEq] at h
    exact .inl ⟨hf₀, h.1.symm, h.2.symm⟩
  · rename_i im hf₀
    simp only [run_bind_of_ok run_set, run_pure, Except.ok.injEq, Prod.mk.injEq] at h
    exact .inr ⟨im, hf₀, h.1.symm, h.2.symm⟩

theorem nonDirType_ok {m type : Nat} (h : (nonDirType path m).run s = .ok (type, s')) :
    nonDirTypeOf m = some type ∧ s' = s := by
  unfold nonDirType at h
  unfold nonDirTypeOf
  repeat' split at h
  all_goals simp_all

/-- add_non_dir: either the link-counting branch, or a creation sqnum then the nodes, with the
link count given or 1. -/
theorem addNonDir_ok {r : Nat × Nat} (h : (addNonDir e path hf inum nlink st fctx).run s = .ok (r, s')) :
    nonDirTypeOf st.stMode = some r.2 ∧
    ((nlink = 0 ∧ 1 < st.stNlink ∧ (linkInumMapping path hf st inum).run s = .ok (r.1, s')) ∨
      (¬(nlink = 0 ∧ 1 < st.stNlink) ∧ r.1 = inum ∧
        (addNonDirNodes e path hf { st with stNlink := if nlink ≠ 0 then nlink else 1 } inum
          (if sIsreg st.stMode then hf.flags else 0) fctx).run
          { s with maxSqnum := s.maxSqnum + 1, creatSqnum := s.maxSqnum + 1 } = .ok ((), s'))) := by
  unfold addNonDir at h
  obtain ⟨type, s₁, h₁, h₂⟩ := run_bind_ok.mp h
  obtain ⟨ht, rfl⟩ := nonDirType_ok h₁
  split at h₂
  · rename_i hl
    obtain ⟨i, s₂, h₃, h₄⟩ := run_bind_ok.mp h₂
    simp only [run_pure, Except.ok.injEq, Prod.mk.injEq] at h₄
    obtain ⟨rfl, rfl⟩ := h₄
    exact ⟨ht, .inl ⟨hl.1, hl.2, h₃⟩⟩
  · rename_i hl
    rw [run_bind_of_ok nextSqnum_run, run_bind_of_ok setCreatSqnum_run] at h₂
    obtain ⟨_, s₂, h₃, h₄⟩ := run_bind_ok.mp h₂
    simp only [run_pure, Except.ok.injEq, Prod.mk.injEq] at h₄
    obtain ⟨rfl, rfl⟩ := h₄
    exact ⟨ht, .inr ⟨hl, rfl, h₃⟩⟩

theorem nonDirType_run {m type : Nat} (h : nonDirTypeOf m = some type) :
    (nonDirType path m).run s = .ok (type, s) := by
  unfold nonDirTypeOf at h
  unfold nonDirType
  split_ifs at h ⊢ <;> cases h <;> rfl

/-- The converse of addNonDir_ok on the branch that writes the file at once. -/
theorem addNonDir_run {type : Nat} (hl : ¬(nlink = 0 ∧ 1 < st.stNlink)) (ht : nonDirTypeOf st.stMode = some type)
    (h : (addNonDirNodes e path hf { st with stNlink := if nlink ≠ 0 then nlink else 1 } inum
      (if sIsreg st.stMode then hf.flags else 0) fctx).run
      { s with maxSqnum := s.maxSqnum + 1, creatSqnum := s.maxSqnum + 1 } = .ok ((), s')) :
    (addNonDir e path hf inum nlink st fctx).run s = .ok ((inum, type), s') := by
  unfold addNonDir
  rw [run_bind_of_ok (nonDirType_run ht), if_neg hl, run_bind_of_ok nextSqnum_run,
    run_bind_of_ok setCreatSqnum_run, run_bind_of_ok h]
  rfl

end NonDir

/-! ### Directory entries and the walk -/

section Walk
variable {e : Env} {dirName name : Bytes} {child : HostFile} {rest : List (Bytes × HostFile)}
  {dirInum size nlink : Nat} {fctx : Option Bytes} {s s' : Mkfs}

/-- The name add_dent_node stores, as a value: none where encrypt_path fails. -/
def dentNameOf (e : Env) (name : Bytes) (type : Nat) : Option Bytes → Option Bytes
  | none => some name
  | some f => e.crypto.encryptPath f name (if type = ubifsItypeLnk then ubifsMaxInoData else ubifsMaxNlen)

theorem dentName_ok {type : Nat} {kname : Bytes}
    (h : (dentName e name type fctx).run s = .ok (kname, s')) :
    dentNameOf e name type fctx = some kname ∧ s' = s := by
  unfold dentName at h
  cases fctx with
  | none => simp_all [dentNameOf]
  | some f =>
    dsimp only [dentNameOf] at h ⊢
    revert h
    cases e.crypto.encryptPath f name (if type = ubifsItypeLnk then ubifsMaxInoData else ubifsMaxNlen)
      <;> simp [eq_comm]

theorem addDentNode_ok {inum type klen : Nat}
    (h : (addDentNode e dirInum name inum type fctx).run s = .ok (klen, s')) :
    ∃ kname, dentNameOf e name type fctx = some kname ∧ klen = kname.length ∧
      (addNode e.info (dentKeyInit e.keyHash dirInum kname) (some kname)
        (.dent ⟨dentKeyInit e.keyHash dirInum kname, inum, type, kname.length, kname⟩)
        (ubifsDentNodeSz + kname.length + 1)).run s = .ok ((), s') := by
  unfold addDentNode at h
  obtain ⟨kname, s₁, h₁, h₂⟩ := run_bind_ok.mp h
  obtain ⟨hk, rfl⟩ := dentName_ok h₁
  obtain ⟨_, s₂, h₃, h₄⟩ := run_bind_ok.mp h₂
  simp only [run_pure, Except.ok.injEq, Prod.mk.injEq] at h₄
  obtain ⟨rfl, rfl⟩ := h₄
  exact ⟨kname, hk, rfl, h₃⟩

/-- add_directory: a sqnum for its creation, the readdir loop if the directory exists on the
host, then its inode with that creation sqnum. -/
theorem addDirectory_ok {hf : HostFile} {st : Stat} {existing : Bool} {u : Unit}
    (h : (addDirectory e dirName hf dirInum st existing fctx).run s = .ok (u, s')) :
    ∃ r s₁, (if existing then (addEntries e dirName dirInum fctx hf.entries ubifsInoNodeSz 2).run
          { s with maxSqnum := s.maxSqnum + 1 } = .ok (r, s₁)
        else r = (ubifsInoNodeSz, 2) ∧ s₁ = { s with maxSqnum := s.maxSqnum + 1 }) ∧
      (addDirInode e (if existing then some (dirName, hf) else none) dirInum r.1 r.2 st fctx).run
        { s₁ with creatSqnum := s.maxSqnum + 1 } = .ok ((), s') := by
  obtain ⟨hst, flags, xattrs, data, reads, entries⟩ := hf
  rw [addDirectory, run_bind_of_ok nextSqnum_run] at h
  obtain ⟨r, s₁, h₁, h₂⟩ := run_bind_ok.mp h
  rw [run_bind_of_ok setCreatSqnum_run] at h₂
  refine ⟨r, s₁, ?_, h₂⟩
  cases existing
  · simp only [if_false, Bool.false_eq_true, run_pure, Except.ok.injEq, Prod.mk.injEq] at h₁ ⊢
    exact ⟨h₁.1.symm, h₁.2.symm⟩
  · simpa using h₁

theorem addEntries_dot (hn : name = ascii "." ∨ name = ascii "..") :
    addEntries e dirName dirInum fctx ((name, child) :: rest) size nlink =
      addEntries e dirName dirInum fctx rest size nlink := by
  rw [addEntries, if_pos hn]

/-- One entry of the readdir loop: the next inode number, the child (a directory walked
recursively, or a non-directory), its directory entry, then the rest. -/
theorem addEntries_cons_ok {res : Nat × Nat} (hn : ¬(name = ascii "." ∨ name = ascii ".."))
    (h : (addEntries e dirName dirInum fctx ((name, child) :: rest) size nlink).run s = .ok (res, s')) :
    ∃ r klen s₁ s₂,
      ((sIsdir (entryStat e child).stMode ∧ r = (s.highestInum + 1, ubifsItypeDir, nlink + 1) ∧
          (addDirectory e (makePath dirName name) child (s.highestInum + 1) (entryStat e child) true
            (fctx.map e.crypto.inherit)).run { s with highestInum := s.highestInum + 1 } = .ok ((), s₁)) ∨
        (¬sIsdir (entryStat e child).stMode ∧ r.2.2 = nlink ∧
          (addNonDir e (makePath dirName name) child (s.highestInum + 1) 0 (entryStat e child)
            (fctx.map e.crypto.inherit)).run { s with highestInum := s.highestInum + 1 } =
            .ok ((r.1, r.2.1), s₁))) ∧
      (addDentNode e dirInum name r.1 r.2.1 fctx).run s₁ = .ok (klen, s₂) ∧
      (addEntries e dirName dirInum fctx rest (size + align (ubifsDentNodeSz + klen + 1) 8) r.2.2).run s₂ =
        .ok (res, s') := by
  rw [addEntries, if_neg hn, run_bind_of_ok nextInum_run] at h
  obtain ⟨r, s₁, h₁, h₂⟩ := run_bind_ok.mp h
  obtain ⟨klen, s₂, h₃, h₄⟩ := run_bind_ok.mp h₂
  refine ⟨r, klen, s₁, s₂, ?_, h₃, h₄⟩
  split at h₁
  · rename_i hd
    obtain ⟨_, s₃, h₅, h₆⟩ := run_bind_ok.mp h₁
    simp only [run_pure, Except.ok.injEq, Prod.mk.injEq] at h₆
    obtain ⟨rfl, rfl⟩ := h₆
    exact .inl ⟨hd, rfl, h₅⟩
  · rename_i hd
    obtain ⟨r', s₃, h₅, h₆⟩ := run_bind_ok.mp h₁
    simp only [run_pure, Except.ok.injEq, Prod.mk.injEq] at h₆
    obtain ⟨rfl, rfl⟩ := h₆
    exact .inr ⟨hd, rfl, h₅⟩

/-! The converses of the walk's inversion lemmas, one per shape of step, to run the walk forward
on a given tree. -/

theorem addEntries_nil_run : (addEntries e dirName dirInum fctx [] size nlink).run s = .ok ((size, nlink), s) := by
  rw [addEntries]
  rfl

theorem addEntries_dir_run {klen : Nat} {res : Nat × Nat} {s₁ s₂ : Mkfs}
    (hn : ¬(name = ascii "." ∨ name = ascii "..")) (hd : sIsdir (entryStat e child).stMode)
    (h₁ : (addDirectory e (makePath dirName name) child (s.highestInum + 1) (entryStat e child) true
      (fctx.map e.crypto.inherit)).run { s with highestInum := s.highestInum + 1 } = .ok ((), s₁))
    (h₂ : (addDentNode e dirInum name (s.highestInum + 1) ubifsItypeDir fctx).run s₁ = .ok (klen, s₂))
    (h₃ : (addEntries e dirName dirInum fctx rest (size + align (ubifsDentNodeSz + klen + 1) 8) (nlink + 1)).run
      s₂ = .ok (res, s')) :
    (addEntries e dirName dirInum fctx ((name, child) :: rest) size nlink).run s = .ok (res, s') := by
  rw [addEntries, if_neg hn, run_bind_of_ok nextInum_run]
  dsimp only
  rw [if_pos hd, bind_assoc, run_bind_of_ok h₁, pure_bind, run_bind_of_ok h₂]
  exact h₃

theorem addEntries_nonDir_run {klen : Nat} {r res : Nat × Nat} {s₁ s₂ : Mkfs}
    (hn : ¬(name = ascii "." ∨ name = ascii "..")) (hd : ¬sIsdir (entryStat e child).stMode)
    (h₁ : (addNonDir e (makePath dirName name) child (s.highestInum + 1) 0 (entryStat e child)
      (fctx.map e.crypto.inherit)).run { s with highestInum := s.highestInum + 1 } = .ok (r, s₁))
    (h₂ : (addDentNode e dirInum name r.1 r.2 fctx).run s₁ = .ok (klen, s₂))
    (h₃ : (addEntries e dirName dirInum fctx rest (size + align (ubifsDentNodeSz + klen + 1) 8) nlink).run s₂ =
      .ok (res, s')) :
    (addEntries e dirName dirInum fctx ((name, child) :: rest) size nlink).run s = .ok (res, s') := by
  rw [addEntries, if_neg hn, run_bind_of_ok nextInum_run]
  dsimp only
  rw [if_neg hd, bind_assoc, run_bind_of_ok h₁, pure_bind, run_bind_of_ok h₂]
  exact h₃

theorem addDirectory_run {hf : HostFile} {st : Stat} {r : Nat × Nat} {s₁ : Mkfs}
    (h : (addEntries e dirName dirInum fctx hf.entries ubifsInoNodeSz 2).run
      { s with maxSqnum := s.maxSqnum + 1 } = .ok (r, s₁))
    (h' : (addDirInode e (some (dirName, hf)) dirInum r.1 r.2 st fctx).run
      { s₁ with creatSqnum := s.maxSqnum + 1 } = .ok ((), s')) :
    (addDirectory e dirName hf dirInum st true fctx).run s = .ok ((), s') := by
  obtain ⟨hst, flags, xattrs, data, reads, entries⟩ := hf
  rw [addDirectory, run_bind_of_ok nextSqnum_run, if_pos rfl, run_bind_of_ok h,
    run_bind_of_ok setCreatSqnum_run]
  exact h'

end Walk

end MkfsUbifs
