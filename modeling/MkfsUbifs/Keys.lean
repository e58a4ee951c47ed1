import MkfsUbifs.Leaves

/-! # The keys of the index

add_node files a node in the index list under the key and name its caller gives it, and each
caller writes the same key into the node's header (key_write into ino->key, dent->key, xent->key
or dn->key) and, for an entry, the same name after it. write_index sorts the index list and
builds the tree from it, so each of its entries has to describe the node it points at. This
file follows that through every emitter, the walk, the deferred hard links and write_data: every
entry of the finished image's index carries the key and name stored in the leaf it points at.

encrypt_data_node belongs to the fscrypt sources, which are not part of this tree. It rewrites
the payload of a data node in place, and the results below assume that it leaves the node's key
as it found it. -/

namespace MkfsUbifs

/-- The key a leaf stores in its header, and the name an entry stores after it. -/
def NodeBody.entry? : NodeBody → Option (Key × Option Bytes)
  | .ino n => some (n.key, none)
  | .dent n | .xent n => some (n.key, some n.name)
  | .data n => some (n.key, none)
  | _ => none

/-- encrypt_data_node keeps the key of the data node it encrypts. -/
def Env.KeepsKeys (e : Env) : Prop :=
  ∀ f b dn dn', e.crypto.encryptDataNode f b dn = some dn' → dn'.key = dn.key

/-- The index list, entry by entry, is the position of each node written so far together with
the key and name that node stores. -/
def KeysOk (s : Mkfs) : Prop :=
  s.idxList.map (fun x => (x.lnum, x.offs, some (x.key, x.name))) =
    s.flash.placed.map fun p => (p.1, p.2.1, p.2.2.body.entry?)

/-! ### The emitters -/

section Emitters
variable {e : Env} {st : Stat} {inum flags : Nat} {fctx : Option Bytes} {s s' : Mkfs} {u : Unit}

/-- add_node keeps the index in step with the flash when the node stores the key and name it is
filed under. -/
theorem addNode_keysOk {c : Info} {key : Key} {name : Option Bytes} {body : NodeBody} {len : Nat}
    (h : (addNode c key name body len).run s = .ok (u, s')) (hb : body.entry? = some (key, name))
    (hs : KeysOk s) : KeysOk s' := by
  obtain ⟨-, -, rfl⟩ := addNode_ok h
  simp only [KeysOk, pushLeaf_placed, List.map_append, List.map_cons, List.map_nil] at hs ⊢
  rw [hs]
  simp only [leafNode, hb]

theorem addXattr_keysOk {host host' : InoNode} {name data : Bytes}
    (h : (addXattr e host st inum name data).run s = .ok (host', s')) (hs : KeysOk s) : KeysOk s' := by
  obtain ⟨-, s₁, h₁, h₂⟩ := addXattr_ok h
  exact addNode_keysOk h₂ rfl (addNode_keysOk h₁ rfl hs)

theorem AddXattrs.keysOk {xs : List (Bytes × Bytes)} {host host' : InoNode}
    (h : AddXattrs e st inum xs host s host' s') (hs : KeysOk s) : KeysOk s' := by
  induction h with
  | nil => exact hs
  | cons hx _ ih => exact ih (addXattr_keysOk hx hs)

/-- add_inode files its inode under the inode key it stores, after its attributes. -/
theorem addInode_keysOk {data : Bytes} {xattrPath : Option (Bytes × List (Bytes × Bytes))}
    (h : (addInode e st inum data flags xattrPath fctx).run s = .ok (u, s')) (hs : KeysOk s) :
    KeysOk s' := by
  obtain ⟨d, ino, s₁, -, hx, hn⟩ := addInode_ok h
  have hk : ino.key = inoKeyInit inum := by rw [hx.nodes.2.2.2, xattrHosts_key]; rfl
  exact addNode_keysOk hn (by rw [NodeBody.entry?, hk]) (hx.keysOk hs)

/-- The node encrypt_data_node leaves has the key of the node add_file built. -/
theorem encryptDataStep_key (hk : e.KeepsKeys) {blockNo ret : Nat} {dn : DataNode} {r : DataNode × Nat}
    (h : (encryptDataStep e fctx blockNo dn ret).run s = .ok (r, s')) : r.1.key = dn.key := by
  unfold encryptDataStep at h
  split at h
  · simp only [run_pure, Except.ok.injEq, Prod.mk.injEq] at h
    rw [← h.1]
  · split at h
    · simp at h
    · rename_i dn' he
      simp only [run_pure, Except.ok.injEq, Prod.mk.injEq] at h
      rw [← h.1]
      exact hk _ _ _ _ he

/-- The block loop of add_file files each data node under the data key add_file wrote into it. -/
theorem addFileBlocks_keysOk (hk : e.KeepsKeys) {cur : Cursor} {blockNo fileSize n : Nat}
    (h : (addFileBlocks e inum flags fctx cur blockNo fileSize).run s = .ok (n, s')) (hs : KeysOk s) :
    KeysOk s' := by
  induction cur, blockNo, fileSize using addFileBlocks.induct e inum flags fctx generalizing s with
  | case1 cur blockNo fileSize buf ret cur' hr hb =>
    rw [addFileBlocks] at h
    simp only [hr, hb, dite_true, run_pure, Except.ok.injEq, Prod.mk.injEq] at h
    exact h.2 ▸ hs
  | case2 cur blockNo fileSize buf ret cur' hr hb _ hz hret =>
    rename_i ih
    rw [addFileBlocks] at h
    simp only [hr, hb, dite_false, hz, if_true, hret, ne_eq, not_false_eq_true] at h
    exact ih h hs
  | case3 cur blockNo fileSize buf ret cur' hr hb hz hret =>
    rw [addFileBlocks] at h
    simp only [hr, hb, dite_false, hz, if_true, hret, if_false, run_pure, Except.ok.injEq,
      Prod.mk.injEq] at h
    exact h.2 ▸ hs
  | case4 cur blockNo fileSize buf ret cur' hr hb _ hz comprType out hco =>
    rename_i ih
    rw [addFileBlocks] at h
    simp only [hr, hb, dite_false, hz, if_false, hco] at h
    obtain ⟨r, s₁, h₁, h₂⟩ := run_bind_ok.mp h
    have hkey := encryptDataStep_key hk h₁
    obtain rfl := encryptDataStep_ok h₁
    obtain ⟨_, s₂, h₃, h₄⟩ := run_bind_ok.mp h₂
    have hs₂ := addNode_keysOk h₃ (by rw [NodeBody.entry?, hkey]) hs
    split at h₄
    · exact ih h₄ hs₂
    · simp only [run_pure, Except.ok.injEq, Prod.mk.injEq] at h₄
      exact h₄.2 ▸ hs₂

theorem addNonDirNodes_keysOk (hk : e.KeepsKeys) {path : Bytes} {hf : HostFile}
    (h : (addNonDirNodes e path hf st inum flags fctx).run s = .ok (u, s')) (hs : KeysOk s) : KeysOk s' := by
  by_cases hreg : sIsreg st.stMode
  · unfold addNonDirNodes at h
    simp only [hreg, if_true] at h
    obtain ⟨n, s₁, h₁, -, h₂⟩ := addFile_ok h
    exact addInode_keysOk h₂ (addFileBlocks_keysOk hk h₁ hs)
  · obtain ⟨-, ls, s₁, hl, -, hr, hi⟩ := addNonDirNodes_ok h
    obtain rfl := hr.resolve_left hreg
    cases hl
    exact addInode_keysOk hi hs

theorem addNonDir_keysOk (hk : e.KeepsKeys) {path : Bytes} {hf : HostFile} {nlink : Nat} {r : Nat × Nat}
    (h : (addNonDir e path hf inum nlink st fctx).run s = .ok (r, s')) (hs : KeysOk s) : KeysOk s' := by
  rcases (addNonDir_ok h).2 with ⟨-, -, h₁⟩ | ⟨-, -, h₁⟩
  · rcases linkInumMapping_ok h₁ with ⟨-, -, rfl⟩ | ⟨_, -, -, rfl⟩ <;> exact hs
  · exact addNonDirNodes_keysOk hk h₁ hs

theorem addDentNode_keysOk {dirInum type klen : Nat} {name : Bytes}
    (h : (addDentNode e dirInum name inum type fctx).run s = .ok (klen, s')) (hs : KeysOk s) : KeysOk s' := by
  obtain ⟨kname, -, -, hn⟩ := addDentNode_ok h
  exact addNode_keysOk hn rfl hs

end Emitters

/-! ### The walk and write_data -/

section Walk
variable {e : Env} {s s' : Mkfs}

theorem walk_keysOk (hk : e.KeepsKeys) :
    (∀ dirName hf dirInum st existing fctx s s',
      (addDirectory e dirName hf dirInum st existing fctx).run s = .ok ((), s') → KeysOk s → KeysOk s') ∧
    (∀ dirName dirInum fctx entries size nlink res s s',
      (addEntries e dirName dirInum fctx entries size nlink).run s = .ok (res, s') →
      KeysOk s → KeysOk s') := by
  have hc : WalkCases e (fun _ _ _ _ _ _ s s' => KeysOk s → KeysOk s')
      (fun _ _ _ _ _ _ _ s s' => KeysOk s → KeysOk s') := by
    refine ⟨?_, id, fun _ h => h, ?_, ?_⟩
    · intro dirName hf dirInum st existing fctx s s₁ s' r hr h₁ hs
      have hs₁ : KeysOk s₁ := by
        cases existing
        · simp only [Bool.false_eq_true, if_false] at hr
          exact hr.2 ▸ hs
        · exact (hr : KeysOk _ → KeysOk s₁) hs
      unfold addDirInode at h₁
      exact addInode_keysOk h₁ hs₁
    · intro _ _ _ _ _ _ _ _ _ _ _ _ _ _ _ _ h₁ h₂ h₃ hs
      exact h₃ (addDentNode_keysOk h₂ (h₁ hs))
    · intro _ _ _ _ _ _ _ _ _ _ _ _ _ _ _ _ _ h₁ h₂ h₃ hs
      exact h₃ (addDentNode_keysOk h₂ (addNonDir_keysOk hk h₁ hs))
  exact hc.sound

theorem LinkedRuns.keysOk (hk : e.KeepsKeys) {chain : List InumMapping} (h : LinkedRuns e chain s s')
    (hs : KeysOk s) : KeysOk s' := by
  induction h with
  | nil => exact hs
  | cons h₁ _ ih => exact ih (addNonDir_keysOk hk h₁ hs)

theorem writeData_keysOk (hk : e.KeepsKeys) {root : Option HostFile} {now : Int}
    (h : (writeData e root now).run (Mkfs.init e.info) = .ok ((), s')) : KeysOk s' := by
  obtain ⟨s₁, s₂, h₁, h₂, rfl⟩ := writeData_ok h
  rw [addRootDirectory_run] at h₁
  have hl := addMultiLinkedFiles_ok (addDirectory_tableOk h₁ fun _ _ hi => by simp [Mkfs.init] at hi) h₂
  have k₂ := hl.1.keysOk hk ((walk_keysOk hk).1 _ _ _ _ _ _ _ _ h₁ (by simp [KeysOk, Mkfs.init, Flash.placed]))
  simpa only [KeysOk, flushNodes_placed] using k₂

end Walk

section Mkfs
variable {e : Env} {root : Option HostFile} {now : Int} {uuid : Bytes} {s' : Mkfs}

/-- Every entry of the index a successful mkfs builds its tree from names a leaf of the image by
its LEB and offset, and carries the key and name stored in that leaf; the entries come in the
order the leaves were written. -/
theorem mkfs_idxKeys (hk : e.KeepsKeys) (h : (mkfs e root now uuid).run (Mkfs.init e.info) = .ok ((), s')) :
    s'.idxList.map (fun x => (x.lnum, x.offs, some (x.key, x.name))) =
      s'.flash.leaves.map fun p => (p.1, p.2.1, p.2.2.body.entry?) := by
  obtain ⟨s₁, h₁, hi, hl⟩ := mkfs_leaves h
  rw [hi, hl, (writeData_indexed h₁).2]
  exact writeData_keysOk hk h₁

/-- The sample tree's encrypt_data_node returns the node it is given. -/
theorem treeEnv_keepsKeys : treeEnv.KeepsKeys := fun _ _ dn dn' h => by
  obtain rfl : dn = dn' := Option.some.inj h
  rfl

theorem mkfs_idxKeys_sampleRoot : treeEnv.KeepsKeys ∧
    ∃ s', (mkfs treeEnv (some sampleRoot) 0 []).run (Mkfs.init treeEnv.info) = .ok ((), s') ∧
      s'.idxList.map (fun x => (x.lnum, x.offs, some (x.key, x.name))) =
        s'.flash.leaves.map fun p => (p.1, p.2.1, p.2.2.body.entry?) := by
  obtain ⟨s', h, -⟩ := mkfs_sampleRoot
  exact ⟨treeEnv_keepsKeys, s', h, mkfs_idxKeys treeEnv_keepsKeys h⟩

end Mkfs

end MkfsUbifs
