import MkfsUbifs.Walk

/-! # The nodes each call writes

The main-area nodes a run has written, in the order it wrote them, whether handed to the sink
or still in leb_buf. For each function below the walk, the nodes it adds as an explicit list,
with the counters it moves: every property of the walk's leaves starts from these. -/

namespace MkfsUbifs

/-- The nodes written so far, in order. -/
def Mkfs.nodes (s : Mkfs) : List Node := s.flash.placed.map fun p => p.2.2

theorem pushLeaf_placed {c : Info} {len : Nat} {n : Node} {fl : Flash} :
    (pushLeaf c len n fl).placed =
      fl.placed ++ [((reserveSpace c len fl).1.1, (reserveSpace c len fl).1.2, n)] := by
  have hp : (reserveSpace c len fl).2.placed = fl.placed := reserveSpace_placed
  have hl : (reserveSpace c len fl).2.headLnum = (reserveSpace c len fl).1.1 := rfl
  simp only [pushLeaf, Flash.placed, List.map_append, List.map_cons, List.map_nil] at hp ⊢
  rw [← List.append_assoc, hp, hl]

/-! ### Leaves -/

/-- The nodes of add_node calls over leaves in order, from sqnum m on. -/
def leafNodes (m : Nat) : List (Key × Option Bytes × NodeBody × Nat) → List Node
  | [] => []
  | (_, _, body, len) :: rest => ⟨m + 1, len, body⟩ :: leafNodes (m + 1) rest

section Leaf
variable {c : Info} {s s' : Mkfs}

/-- add_node writes one node, with the next sqnum; the inode counter and the creation sqnum
stay. -/
theorem addNode_nodes {key : Key} {name : Option Bytes} {body : NodeBody} {len : Nat} {u : Unit}
    (h : (addNode c key name body len).run s = .ok (u, s')) :
    s'.nodes = s.nodes ++ [⟨s.maxSqnum + 1, len, body⟩] ∧ s'.maxSqnum = s.maxSqnum + 1 ∧
      s'.highestInum = s.highestInum ∧ s'.creatSqnum = s.creatSqnum := by
  obtain ⟨-, -, rfl⟩ := addNode_ok h
  refine ⟨?_, rfl, rfl, rfl⟩
  simp only [Mkfs.nodes, pushLeaf_placed, List.map_append, List.map_cons, List.map_nil]
  rfl

theorem Leaves.nodes {ls : List (Key × Option Bytes × NodeBody × Nat)} (h : Leaves c ls s s') :
    s'.nodes = s.nodes ++ leafNodes s.maxSqnum ls ∧ s'.maxSqnum = s.maxSqnum + ls.length ∧
      s'.highestInum = s.highestInum ∧ s'.creatSqnum = s.creatSqnum := by
  induction h with
  | nil => simp [leafNodes]
  | cons h₁ _ ih =>
    obtain ⟨n₁, m₁, h₁', c₁⟩ := addNode_nodes h₁
    obtain ⟨n₂, m₂, h₂, c₂⟩ := ih
    refine ⟨by rw [n₂, n₁, m₁]; simp [leafNodes], by simp only [m₂, m₁, List.length_cons]; omega,
      h₂.trans h₁', c₂.trans c₁⟩

theorem mem_leafNodes {ls : List (Key × Option Bytes × NodeBody × Nat)} {l : Key × Option Bytes × NodeBody × Nat}
    (hl : l ∈ ls) (m : Nat) : ∃ q, (⟨q, l.2.2.2, l.2.2.1⟩ : Node) ∈ leafNodes m ls := by
  induction ls generalizing m with
  | nil => cases hl
  | cons l' rest ih =>
    rcases List.mem_cons.mp hl with rfl | hl
    · exact ⟨m + 1, by simp [leafNodes]⟩
    · obtain ⟨q, hq⟩ := ih hl (m + 1)
      exact ⟨q, by simp only [leafNodes, List.mem_cons]; exact .inr hq⟩

theorem leafNodes_data {inum : Nat} {ls : List (Key × Option Bytes × NodeBody × Nat)}
    (hl : ∀ l ∈ ls, DataLeaf inum l) (m : Nat) : ∀ n ∈ leafNodes m ls, ∃ dn, n.body = .data dn := by
  induction ls generalizing m with
  | nil => simp [leafNodes]
  | cons l rest ih =>
    intro n hn
    obtain ⟨-, b, dn, -, hb, -⟩ := hl l (List.mem_cons_self _ _)
    simp only [leafNodes, List.mem_cons] at hn
    rcases hn with rfl | hn
    · exact ⟨dn, hb⟩
    · exact ih (fun l' h' => hl l' (List.mem_cons_of_mem _ h')) _ n hn

theorem addNode_idxKeys {key : Key} {name : Option Bytes} {body : NodeBody} {len : Nat} {u : Unit}
    (h : (addNode c key name body len).run s = .ok (u, s')) :
    s'.idxList.map (fun x => (x.key, x.name)) = s.idxList.map (fun x => (x.key, x.name)) ++ [(key, name)] := by
  obtain ⟨-, -, rfl⟩ := addNode_ok h
  simp

theorem Leaves.idxKeys {ls : List (Key × Option Bytes × NodeBody × Nat)} (h : Leaves c ls s s') :
    s'.idxList.map (fun x => (x.key, x.name)) =
      s.idxList.map (fun x => (x.key, x.name)) ++ ls.map fun l => (l.1, l.2.1) := by
  induction h with
  | nil => simp
  | cons h₁ _ ih => rw [ih, addNode_idxKeys h₁]; simp

theorem checkName_run {key : Key} {name : Option Bytes} (hn : NameOk key name) :
    (checkName key name).run s = .ok ((), s) := by
  unfold NameOk at hn
  cases name <;> by_cases hk : keyType key = ubifsDentKey ∨ keyType key = ubifsXentKey <;>
    simp_all [checkName]

/-- add_node succeeds on a head the write head can hold, for a node no longer than a LEB whose
name fits its key; the head stays one it can hold. -/
theorem addNode_succeeds {key : Key} {name : Option Bytes} (body : NodeBody) {len : Nat}
    (hn : NameOk key name) (h8 : c.lebSize % 8 = 0) (hh : HeadOk c s.flash.head) (hl : len ≤ c.lebSize) :
    ∃ s', (addNode c key name body len).run s = .ok ((), s') ∧ HeadOk c s'.flash.head := by
  have hfit : (reserveSpace c len s.flash).1.2 + align len 8 ≤ c.lebSize := by
    rw [reserveSpace_fst hl]
    exact place_fits h8 hh hl
  obtain ⟨s', h⟩ : ∃ s', (addNode c key name body len).run s = .ok ((), s') := by
    refine ⟨_, by
      unfold addNode
      rw [run_bind_of_ok (checkName_run hn), run_bind_of_ok prepareNode_run, run_bind_of_ok run_onFlash]
      dsimp only
      rw [run_bind_of_ok (by rw [copyNode_run, if_neg (by dsimp only; omega)])]
      rfl⟩
  refine ⟨s', h, ?_⟩
  obtain ⟨-, -, rfl⟩ := addNode_ok h
  show HeadOk c (reserveSpace c len s.flash).2.head
  rw [reserveSpace_head hl]
  exact hh.advance h8 hl

end Leaf

/-! ### Keys add_node accepts -/

theorem inoKey_nameOk {inum : Nat} : NameOk (inoKeyInit inum) none := by
  unfold NameOk keyType
  simp only [inoKeyInit]
  decide

/-- A name hash under the type bits of a key: the type reads back whatever the hash. -/
theorem keyType_hashed {x t : Nat} (hx : x < 2 ^ ubifsSKeyBlockBits) :
    (x ||| t <<< ubifsSKeyBlockBits) >>> ubifsSKeyBlockBits = t := by
  rw [Nat.or_comm, Nat.shiftLeft_eq, Nat.mul_comm, ← Nat.mul_add_lt_is_or hx, Nat.shiftRight_eq_div_pow,
    Nat.mul_add_div (Nat.two_pow_pos _), Nat.div_eq_of_lt hx, Nat.add_zero]

/-- An xattr entry's key is of the entry type whatever its name hashes to, so add_node takes it
with its name. -/
theorem xentKey_nameOk {h : KeyHash} {inum : Nat} {name : Bytes} :
    NameOk (xentKeyInit h inum name) (some name) := by
  unfold NameOk keyType
  simp only [xentKeyInit]
  rw [keyType_hashed (h.lt name)]
  simp

/-- So is a directory entry's, of the entry type. -/
theorem dentKey_nameOk {h : KeyHash} {inum : Nat} {name : Bytes} :
    NameOk (dentKeyInit h inum name) (some name) := by
  unfold NameOk keyType
  simp only [dentKeyInit]
  rw [keyType_hashed (h.lt name)]
  simp

/-- add_xattr succeeds when its entry and its inode each fit a LEB. -/
theorem addXattr_succeeds {e : Env} {host : InoNode} {st : Stat} {inum : Nat} {name data : Bytes}
    {s : Mkfs} (h8 : e.info.lebSize % 8 = 0) (hh : HeadOk e.info s.flash.head)
    (hx : ubifsXentNodeSz + name.length + 1 ≤ e.info.lebSize) (hi : ubifsInoNodeSz + data.length ≤ e.info.lebSize) :
    ∃ s', (addXattr e host st inum name data).run s = .ok (xattrHost e host name data, s') ∧
      HeadOk e.info s'.flash.head := by
  obtain ⟨s₁, h₁, hh₁⟩ := addNode_succeeds (s := xattrStart s)
    (.xent ⟨xentKeyInit e.keyHash inum name, s.highestInum + 1, ubifsItypeReg, name.length, name⟩)
    (xentKey_nameOk : NameOk (xentKeyInit e.keyHash inum name) (some name)) h8 hh hx
  obtain ⟨s₂, h₂, hh₂⟩ := addNode_succeeds (s := s₁)
    (.ino (xattrInode e st (s.highestInum + 1) (s.maxSqnum + 1) data))
    (inoKey_nameOk : NameOk (inoKeyInit (s.highestInum + 1)) none) h8 hh₁ hi
  have hc : s₁.creatSqnum = s.maxSqnum + 1 := by rw [(addNode_ok h₁).2.2]; rfl
  refine ⟨s₂, ?_, hh₂⟩
  unfold addXattr
  rw [run_bind_of_ok nextInum_run, run_bind_of_ok nextSqnum_run, run_bind_of_ok setCreatSqnum_run]
  refine (run_bind_of_ok h₁).trans ?_
  rw [run_bind_of_ok run_get, hc]
  exact (run_bind_of_ok h₂).trans rfl

/-- add_dent_node without encryption succeeds when its entry fits a LEB. -/
theorem addDentNode_succeeds {e : Env} {s : Mkfs} (dirInum : Nat) (name : Bytes) (inum type : Nat)
    (h8 : e.info.lebSize % 8 = 0) (hh : HeadOk e.info s.flash.head)
    (hl : ubifsDentNodeSz + name.length + 1 ≤ e.info.lebSize) :
    ∃ s', (addDentNode e dirInum name inum type none).run s = .ok (name.length, s') ∧
      HeadOk e.info s'.flash.head := by
  obtain ⟨s', h, hh'⟩ := addNode_succeeds (.dent ⟨dentKeyInit e.keyHash dirInum name, inum, type, name.length, name⟩)
    (dentKey_nameOk : NameOk (dentKeyInit e.keyHash dirInum name) (some name)) h8 hh hl
  refine ⟨s', ?_, hh'⟩
  unfold addDentNode dentName
  rw [run_bind_of_ok run_pure]
  exact (run_bind_of_ok h).trans rfl

/-! ### Extended attributes -/

/-- The nodes add_xattr writes for attributes in order, from inode number h and sqnum m on:
for each, its entry then its inode, whose creation sqnum is the one taken before both. -/
def xattrNodes (e : Env) (st : Stat) (inum : Nat) : List (Bytes × Bytes) → Nat → Nat → List Node
  | [], _, _ => []
  | (name, data) :: rest, h, m =>
    ⟨m + 2, ubifsXentNodeSz + name.length + 1,
      .xent ⟨xentKeyInit e.keyHash inum name, h + 1, ubifsItypeReg, name.length, name⟩⟩ ::
    ⟨m + 3, ubifsInoNodeSz + data.length, .ino (xattrInode e st (h + 1) (m + 1) data)⟩ ::
    xattrNodes e st inum rest (h + 1) (m + 3)

/-- The host inode once its attributes were counted. -/
def xattrHosts (e : Env) (host : InoNode) (xs : List (Bytes × Bytes)) : InoNode :=
  xs.foldl (fun h p => xattrHost e h p.1 p.2) host

section Xattrs
variable {e : Env} {st : Stat} {inum : Nat} {s s' : Mkfs}

theorem xattrHosts_key {host : InoNode} {xs : List (Bytes × Bytes)} : (xattrHosts e host xs).key = host.key := by
  induction xs generalizing host with
  | nil => rfl
  | cons x rest ih => exact ih

theorem AddXattrs.nodes {xs : List (Bytes × Bytes)} {host host' : InoNode}
    (h : AddXattrs e st inum xs host s host' s') :
    s'.nodes = s.nodes ++ xattrNodes e st inum xs s.highestInum s.maxSqnum ∧
      s'.maxSqnum = s.maxSqnum + 3 * xs.length ∧ s'.highestInum = s.highestInum + xs.length ∧
      host' = xattrHosts e host xs := by
  induction h with
  | nil => simp [xattrNodes, xattrHosts]
  | @cons name value rest host h₁ host' s s₁ s' hx _ ih =>
    obtain ⟨rfl, s₂, hx₁, hx₂⟩ := addXattr_ok hx
    obtain ⟨n₁, m₁, i₁, -⟩ := addNode_nodes hx₁
    obtain ⟨n₂, m₂, i₂, -⟩ := addNode_nodes hx₂
    obtain ⟨n₃, m₃, i₃, rfl⟩ := ih
    simp only [xattrStart] at n₁ m₁ i₁
    refine ⟨?_, by simp only [m₃, m₂, m₁, List.length_cons]; omega,
      by simp only [i₃, i₂, i₁, List.length_cons]; omega, rfl⟩
    rw [n₃, n₂, n₁, m₂, m₁, i₂, i₁]
    simp [xattrNodes, Mkfs.nodes]

@[simp] theorem length_xattrNodes (xs : List (Bytes × Bytes)) (h m : Nat) :
    (xattrNodes e st inum xs h m).length = 2 * xs.length := by
  induction xs generalizing h m with
  | nil => rfl
  | cons x rest ih => simp only [xattrNodes, List.length_cons, ih]; omega

end Xattrs

/-! ### Inodes -/

/-- The nodes add_inode writes from inode number h and sqnum m on, with inline data d and the
creation sqnum standing on entry: its attributes, then the inode counting them. -/
def inodeNodes (e : Env) (st : Stat) (inum : Nat) (d : Bytes) (flags : Nat)
    (xattrPath : Option (Bytes × List (Bytes × Bytes))) (fctx : Option Bytes) (h m creat : Nat) :
    List Node :=
  xattrNodes e st inum (inodeXattrs e st xattrPath fctx) h m ++
    [⟨m + 3 * (inodeXattrs e st xattrPath fctx).length + 1, ubifsInoNodeSz + d.length,
      .ino (xattrHosts e (inodeBase e st inum d flags fctx creat) (inodeXattrs e st xattrPath fctx))⟩]

section Inode
variable {e : Env} {st : Stat} {inum flags : Nat} {data : Bytes}
  {xattrPath : Option (Bytes × List (Bytes × Bytes))} {fctx : Option Bytes} {s s' : Mkfs} {u : Unit}

theorem addInode_nodes (h : (addInode e st inum data flags xattrPath fctx).run s = .ok (u, s')) :
    ∃ d, inodeData e st data fctx = some d ∧
      s'.nodes = s.nodes ++
        inodeNodes e st inum d flags xattrPath fctx s.highestInum s.maxSqnum s.creatSqnum ∧
      s'.maxSqnum = s.maxSqnum + 3 * (inodeXattrs e st xattrPath fctx).length + 1 ∧
      s'.highestInum = s.highestInum + (inodeXattrs e st xattrPath fctx).length := by
  obtain ⟨d, ino, s₁, hd, hx, hn⟩ := addInode_ok h
  obtain ⟨n₁, m₁, i₁, rfl⟩ := hx.nodes
  obtain ⟨n₂, m₂, i₂, -⟩ := addNode_nodes hn
  refine ⟨d, hd, ?_, by rw [m₂, m₁], by rw [i₂, i₁]⟩
  rw [n₂, n₁, m₁, List.append_assoc]
  rfl

/-- add_inode only adds entries to the index list. -/
theorem addInode_idxKeys {e : Env} {st : Stat} {inum flags : Nat} {data : Bytes}
    {xattrPath : Option (Bytes × List (Bytes × Bytes))} {fctx : Option Bytes} {s s' : Mkfs} {u : Unit}
    (h : (addInode e st inum data flags xattrPath fctx).run s = .ok (u, s')) :
    ∃ t, s'.idxList.map (fun x => (x.key, x.name)) = s.idxList.map (fun x => (x.key, x.name)) ++ t := by
  have hx : ∀ {xs host host' s s'}, AddXattrs e st inum xs host s host' s' →
      ∃ t, s'.idxList.map (fun x => (x.key, x.name)) = s.idxList.map (fun x => (x.key, x.name)) ++ t := by
    intro xs host host' s s' hx
    induction hx with
    | nil => exact ⟨[], by simp⟩
    | @cons name value rest host h₁ host' s s₁ s' hx _ ih =>
      obtain ⟨-, s₂, h₂, h₃⟩ := addXattr_ok hx
      obtain ⟨t, ht⟩ := ih
      rw [ht, addNode_idxKeys h₃, addNode_idxKeys h₂]
      exact ⟨[(xentKeyInit e.keyHash inum name, some name), (inoKeyInit (s.highestInum + 1), none)] ++ t,
        by simp [xattrStart]⟩
  obtain ⟨_, _, _, _, hxs, hn⟩ := addInode_ok h
  obtain ⟨t, ht⟩ := hx hxs
  exact ⟨t ++ [_], by rw [addNode_idxKeys hn, ht, List.append_assoc]⟩

end Inode

/-! ### Non-directories, entries and deferral -/

section NonDir
variable {e : Env} {path : Bytes} {hf : HostFile} {st : Stat} {inum flags : Nat}
  {fctx : Option Bytes} {s s' : Mkfs} {u : Unit}

/-- The writing part of add_non_dir: a regular file's data nodes, then its inode's nodes. -/
theorem addNonDirNodes_nodes (h : (addNonDirNodes e path hf st inum flags fctx).run s = .ok (u, s')) :
    KnownNonDir st.stMode ∧ ∃ ls d, (∀ l ∈ ls, DataLeaf inum l) ∧ (sIsreg st.stMode ∨ ls = []) ∧
      inodeData e st (nonDirArgs path hf st fctx).1 (nonDirArgs path hf st fctx).2.2 = some d ∧
      s'.nodes = s.nodes ++ leafNodes s.maxSqnum ls ++
        inodeNodes e st inum d flags (nonDirArgs path hf st fctx).2.1 (nonDirArgs path hf st fctx).2.2
          s.highestInum (s.maxSqnum + ls.length) s.creatSqnum ∧
      s'.maxSqnum = s.maxSqnum + ls.length + 3 * (inodeXattrs e st (nonDirArgs path hf st fctx).2.1
        (nonDirArgs path hf st fctx).2.2).length + 1 ∧
      s'.highestInum = s.highestInum + (inodeXattrs e st (nonDirArgs path hf st fctx).2.1
        (nonDirArgs path hf st fctx).2.2).length := by
  obtain ⟨hk, ls, s₁, hl, hd, hr, hi⟩ := addNonDirNodes_ok h
  obtain ⟨n₁, m₁, i₁, c₁⟩ := hl.nodes
  obtain ⟨d, hd', n₂, m₂, i₂⟩ := addInode_nodes hi
  rw [m₁, i₁, c₁] at n₂
  exact ⟨hk, ls, d, hd, hr, hd', by rw [n₂, n₁], by rw [m₂, m₁], by rw [i₂, i₁]⟩

theorem linkInumMapping_nodes {r : Nat} (h : (linkInumMapping path hf st inum).run s = .ok (r, s')) :
    s'.nodes = s.nodes ∧ s'.maxSqnum = s.maxSqnum := by
  rcases linkInumMapping_ok h with ⟨-, -, rfl⟩ | ⟨_, -, -, rfl⟩ <;> exact ⟨rfl, rfl⟩

theorem addDentNode_nodes {dirInum type klen : Nat} {name : Bytes}
    (h : (addDentNode e dirInum name inum type fctx).run s = .ok (klen, s')) :
    ∃ kname, dentNameOf e name type fctx = some kname ∧ klen = kname.length ∧
      s'.nodes = s.nodes ++ [⟨s.maxSqnum + 1, ubifsDentNodeSz + kname.length + 1,
        .dent ⟨dentKeyInit e.keyHash dirInum kname, inum, type, kname.length, kname⟩⟩] ∧
      s'.maxSqnum = s.maxSqnum + 1 ∧ s'.highestInum = s.highestInum ∧ s'.creatSqnum = s.creatSqnum := by
  obtain ⟨kname, hk, rfl, hn⟩ := addDentNode_ok h
  exact ⟨kname, hk, rfl, addNode_nodes hn⟩

end NonDir

end MkfsUbifs
