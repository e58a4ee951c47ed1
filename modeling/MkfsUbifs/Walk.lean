import MkfsUbifs.EmitRun

/-! # The walk of write_data

write_data walks the source tree with add_directory and its readdir loop, parks the files of
several host links in the link-counting table, and writes those last with
add_multi_linked_files. This file packages the walk's recursion once (`WalkCases`), so that each
property of the walk is proved by its cases alone, and takes the deferred phase apart into the
add_non_dir runs it makes. -/

namespace MkfsUbifs

/-! ### The link-counting table is left alone by the writing functions -/

section Frame
variable {e : Env} {c : Info} {s s' : Mkfs}

theorem addNode_hashTable {key : Key} {name : Option Bytes} {body : NodeBody} {len : Nat} {u : Unit}
    (h : (addNode c key name body len).run s = .ok (u, s')) : s'.hashTable = s.hashTable := by
  rw [(addNode_ok h).2.2]

theorem Leaves.hashTable {ls : List (Key × Option Bytes × NodeBody × Nat)} (h : Leaves c ls s s') :
    s'.hashTable = s.hashTable := by
  induction h with
  | nil => rfl
  | cons h₁ _ ih => rw [ih, addNode_hashTable h₁]

theorem AddXattrs.hashTable {st : Stat} {inum : Nat} {xs : List (Bytes × Bytes)} {host host' : InoNode}
    (h : AddXattrs e st inum xs host s host' s') : s'.hashTable = s.hashTable := by
  induction h with
  | nil => rfl
  | cons h₁ _ ih =>
    obtain ⟨-, s₁, h₂, h₃⟩ := addXattr_ok h₁
    rw [ih, addNode_hashTable h₃, addNode_hashTable h₂]
    rfl

theorem addInode_hashTable {st : Stat} {inum flags : Nat} {data : Bytes}
    {xattrPath : Option (Bytes × List (Bytes × Bytes))} {fctx : Option Bytes} {u : Unit}
    (h : (addInode e st inum data flags xattrPath fctx).run s = .ok (u, s')) :
    s'.hashTable = s.hashTable := by
  obtain ⟨_, _, _, _, hx, hn⟩ := addInode_ok h
  rw [addNode_hashTable hn, hx.hashTable]

theorem addNonDirNodes_hashTable {path : Bytes} {hf : HostFile} {st : Stat} {inum flags : Nat}
    {fctx : Option Bytes} {u : Unit} (h : (addNonDirNodes e path hf st inum flags fctx).run s = .ok (u, s')) :
    s'.hashTable = s.hashTable := by
  obtain ⟨-, _, _, hl, -, -, hi⟩ := addNonDirNodes_ok h
  rw [addInode_hashTable hi, hl.hashTable]

theorem addDentNode_hashTable {dirInum inum type klen : Nat} {name : Bytes} {fctx : Option Bytes}
    (h : (addDentNode e dirInum name inum type fctx).run s = .ok (klen, s')) :
    s'.hashTable = s.hashTable := by
  obtain ⟨_, -, -, hn⟩ := addDentNode_ok h
  exact addNode_hashTable hn

end Frame

/-! ### One induction for the whole walk -/

section WalkInduction
variable (e : Env)
  (D : Bytes → HostFile → Nat → Stat → Bool → Option Bytes → Mkfs → Mkfs → Prop)
  (E : Bytes → Nat → Option Bytes → List (Bytes × HostFile) → Nat → Nat → Nat × Nat → Mkfs → Mkfs →
    Prop)

/-- The cases of a property of the walk, D for add_directory and E for its readdir loop (from
an entry list, size and link count to the result): one per branch, each given the runs the
inversion lemmas name, and the property for the recursive calls. -/
structure WalkCases : Prop where
  dir : ∀ {dirName hf dirInum st existing fctx s s₁ s'} {r : Nat × Nat},
    (if existing then E dirName dirInum fctx hf.entries ubifsInoNodeSz 2 r
        { s with maxSqnum := s.maxSqnum + 1 } s₁
      else r = (ubifsInoNodeSz, 2) ∧ s₁ = { s with maxSqnum := s.maxSqnum + 1 }) →
    (addDirInode e (if existing then some (dirName, hf) else none) dirInum r.1 r.2 st fctx).run
      { s₁ with creatSqnum := s.maxSqnum + 1 } = .ok ((), s') →
    D dirName hf dirInum st existing fctx s s'
  nil : ∀ {dirName dirInum fctx size nlink s}, E dirName dirInum fctx [] size nlink (size, nlink) s s
  dot : ∀ {dirName dirInum fctx name child rest size nlink res s s'},
    (name = ascii "." ∨ name = ascii "..") → E dirName dirInum fctx rest size nlink res s s' →
    E dirName dirInum fctx ((name, child) :: rest) size nlink res s s'
  subdir : ∀ {dirName dirInum fctx name child rest size nlink res klen s s₁ s₂ s'},
    ¬(name = ascii "." ∨ name = ascii "..") → sIsdir (entryStat e child).stMode →
    D (makePath dirName name) child (s.highestInum + 1) (entryStat e child) true
      (fctx.map e.crypto.inherit) { s with highestInum := s.highestInum + 1 } s₁ →
    (addDentNode e dirInum name (s.highestInum + 1) ubifsItypeDir fctx).run s₁ = .ok (klen, s₂) →
    E dirName dirInum fctx rest (size + align (ubifsDentNodeSz + klen + 1) 8) (nlink + 1) res s₂ s' →
    E dirName dirInum fctx ((name, child) :: rest) size nlink res s s'
  nondir : ∀ {dirName dirInum fctx name child rest size nlink res klen s s₁ s₂ s'} {r : Nat × Nat},
    ¬(name = ascii "." ∨ name = ascii "..") → ¬sIsdir (entryStat e child).stMode →
    (addNonDir e (makePath dirName name) child (s.highestInum + 1) 0 (entryStat e child)
      (fctx.map e.crypto.inherit)).run { s with highestInum := s.highestInum + 1 } = .ok (r, s₁) →
    (addDentNode e dirInum name r.1 r.2 fctx).run s₁ = .ok (klen, s₂) →
    E dirName dirInum fctx rest (size + align (ubifsDentNodeSz + klen + 1) 8) nlink res s₂ s' →
    E dirName dirInum fctx ((name, child) :: rest) size nlink res s s'

variable {e D E}

/-- A property given by its cases holds of every successful run of add_directory and of its
readdir loop. -/
theorem WalkCases.sound (hc : WalkCases e D E) :
    (∀ dirName hf dirInum st existing fctx s s',
      (addDirectory e dirName hf dirInum st existing fctx).run s = .ok ((), s') →
      D dirName hf dirInum st existing fctx s s') ∧
    (∀ dirName dirInum fctx entries size nlink res s s',
      (addEntries e dirName dirInum fctx entries size nlink).run s = .ok (res, s') →
      E dirName dirInum fctx entries size nlink res s s') := by
  let M₁ := fun dirName hf dirInum st existing fctx => ∀ s s',
    (addDirectory e dirName hf dirInum st existing fctx).run s = .ok ((), s') →
    D dirName hf dirInum st existing fctx s s'
  let M₂ := fun dirName dirInum fctx entries size nlink => ∀ res s s',
    (addEntries e dirName dirInum fctx entries size nlink).run s = .ok (res, s') →
    E dirName dirInum fctx entries size nlink res s s'
  have dir : ∀ dirName st₀ flags xattrs data reads entries dirInum st existing fctx,
      M₂ dirName dirInum fctx entries ubifsInoNodeSz 2 →
      M₁ dirName ⟨st₀, flags, xattrs, data, reads, entries⟩ dirInum st existing fctx := by
    intro dirName st₀ flags xattrs data reads entries dirInum st existing fctx ih s s' h
    obtain ⟨r, s₁, h₁, h₂⟩ := addDirectory_ok h
    refine hc.dir ?_ h₂
    cases existing
    · simpa using h₁
    · simpa using ih _ _ _ (by simpa using h₁)
  have nil : ∀ dirName dirInum fctx size nlink, M₂ dirName dirInum fctx [] size nlink := by
    intro dirName dirInum fctx size nlink res s s' h
    simp only [addEntries, run_pure, Except.ok.injEq, Prod.mk.injEq] at h
    obtain ⟨rfl, rfl⟩ := h
    exact hc.nil
  have dot : ∀ dirName dirInum fctx name child rest size nlink,
      (name = ascii "." ∨ name = ascii "..") → M₂ dirName dirInum fctx rest size nlink →
      M₂ dirName dirInum fctx ((name, child) :: rest) size nlink := by
    intro dirName dirInum fctx name child rest size nlink hn ih res s s' h
    rw [addEntries_dot hn] at h
    exact hc.dot hn (ih _ _ _ h)
  have cons : ∀ dirName dirInum fctx name child rest size nlink,
      ¬(name = ascii "." ∨ name = ascii "..") →
      (∀ inum, M₁ (makePath dirName name) child inum (entryStat e child) true
        (fctx.map e.crypto.inherit)) →
      (∀ (r : Nat × Nat × Nat) klen,
        M₂ dirName dirInum fctx rest (size + align (ubifsDentNodeSz + klen + 1) 8) r.2.2) →
      M₂ dirName dirInum fctx ((name, child) :: rest) size nlink := by
    intro dirName dirInum fctx name child rest size nlink hn ihd ihe res s s' h
    obtain ⟨r, klen, s₁, s₂, hr, h₂, h₃⟩ := addEntries_cons_ok hn h
    rcases hr with ⟨hd, rfl, h₁⟩ | ⟨hd, hl, h₁⟩
    · exact hc.subdir hn hd (ihd _ _ _ h₁) h₂ (ihe _ _ _ _ _ h₃)
    · exact hc.nondir hn hd h₁ h₂ (hl ▸ ihe r klen _ _ _ h₃)
  exact ⟨fun dirName hf dirInum st existing fctx =>
      addDirectory.induct e M₁ M₂ dir nil dot cons dirName hf dirInum st existing fctx,
    fun dirName dirInum fctx entries size nlink =>
      addEntries.induct e M₁ M₂ dir nil dot cons dirName dirInum fctx entries size nlink⟩

end WalkInduction

/-! ### The link-counting table -/

/-- Every entry of the table counted at least one link. -/
def TableOk (s : Mkfs) : Prop := ∀ i, ∀ im ∈ s.hashTable i, 0 < im.useNlink

section Table
variable {e : Env} {path : Bytes} {hf : HostFile} {st : Stat} {inum : Nat} {s s' : Mkfs}

theorem linkInumMapping_tableOk {r : Nat} (h : (linkInumMapping path hf st inum).run s = .ok (r, s'))
    (hs : TableOk s) : TableOk s' := by
  intro i im hi
  rcases linkInumMapping_ok h with ⟨-, -, rfl⟩ | ⟨_, -, -, rfl⟩
  · by_cases hk : i = st.stIno % hashTableSize
    · subst hk
      simp only [linkFirst, Function.update_same, List.mem_cons] at hi
      rcases hi with rfl | hi
      · exact Nat.one_pos
      · exact hs _ _ hi
    · simp only [linkFirst, Function.update_noteq hk] at hi
      exact hs _ _ hi
  · by_cases hk : i = st.stIno % hashTableSize
    · subst hk
      simp only [linkAgain, Function.update_same, List.mem_map] at hi
      obtain ⟨im₀, h₀, rfl⟩ := hi
      unfold bumpLink
      split
      · exact Nat.succ_pos _
      · exact hs _ _ h₀
    · simp only [linkAgain, Function.update_noteq hk] at hi
      exact hs _ _ hi

theorem addNonDir_tableOk {nlink : Nat} {fctx : Option Bytes} {r : Nat × Nat}
    (h : (addNonDir e path hf inum nlink st fctx).run s = .ok (r, s')) (hs : TableOk s) :
    TableOk s' := by
  rcases (addNonDir_ok h).2 with ⟨-, -, h₁⟩ | ⟨-, -, h₁⟩
  · exact linkInumMapping_tableOk h₁ hs
  · intro i im hi
    rw [addNonDirNodes_hashTable h₁] at hi
    exact hs i im hi

/-- The walk keeps the table's link counts positive. -/
theorem addDirectory_tableOk {dirName : Bytes} {dirInum : Nat} {existing : Bool} {fctx : Option Bytes}
    (h : (addDirectory e dirName hf dirInum st existing fctx).run s = .ok ((), s')) (hs : TableOk s) :
    TableOk s' := by
  have hc : WalkCases e (fun _ _ _ _ _ _ s s' => TableOk s → TableOk s')
      (fun _ _ _ _ _ _ _ s s' => TableOk s → TableOk s') := by
    refine ⟨?_, ?_, ?_, ?_, ?_⟩
    · intro dirName hf dirInum st existing fctx s s₁ s' r hr h₁ hs i im hi
      rw [addInode_hashTable h₁] at hi
      cases existing
      · simp only [if_false, Bool.false_eq_true] at hr
        rw [hr.2] at hi
        exact hs i im hi
      · simp only [if_true] at hr
        exact hr hs i im hi
    · exact fun h => h
    · exact fun _ h => h
    · intro _ _ _ _ _ _ _ _ _ _ _ _ _ _ _ _ h₁ h₂ h₃ hs
      refine h₃ fun i im hi => ?_
      rw [addDentNode_hashTable h₂] at hi
      exact h₁ hs i im hi
    · intro _ _ _ _ _ _ _ _ _ _ _ _ _ _ _ _ _ h₁ h₂ h₃ hs
      refine h₃ fun i im hi => ?_
      rw [addDentNode_hashTable h₂] at hi
      exact addNonDir_tableOk h₁ hs i im hi
  exact hc.sound.1 _ _ _ _ _ _ _ _ h hs

end Table

/-! ### The deferred files -/

/-- The runs of add_non_dir that add_multi_linked_files makes over table entries in order: each
entry's inode number and link count, its recorded path, stat and host object, no encryption
context. -/
inductive LinkedRuns (e : Env) : List InumMapping → Mkfs → Mkfs → Prop
  | nil {s : Mkfs} : LinkedRuns e [] s s
  | cons {im : InumMapping} {rest : List InumMapping} {s s₁ s' : Mkfs} {r : Nat × Nat} :
      (addNonDir e im.pathName im.src im.useInum im.useNlink im.st none).run s = .ok (r, s₁) →
      LinkedRuns e rest s₁ s' → LinkedRuns e (im :: rest) s s'

/-- The table entries in the order add_multi_linked_files visits them: bucket by bucket. -/
def deferred (s : Mkfs) : List InumMapping := (List.range hashTableSize).flatMap s.hashTable

section Linked
variable {e : Env} {s s' : Mkfs}

theorem LinkedRuns.append {xs ys : List InumMapping} {s₀ s₁ s₂ : Mkfs} (hx : LinkedRuns e xs s₀ s₁)
    (hy : LinkedRuns e ys s₁ s₂) : LinkedRuns e (xs ++ ys) s₀ s₂ := by
  induction hx with
  | nil => exact hy
  | cons hr _ ih => exact .cons hr (ih hy)

theorem LinkedRuns.split {xs ys : List InumMapping} (h : LinkedRuns e (xs ++ ys) s s') :
    ∃ t, LinkedRuns e xs s t ∧ LinkedRuns e ys t s' := by
  induction xs generalizing s with
  | nil => exact ⟨s, .nil, h⟩
  | cons im rest ih =>
    cases h with
    | cons h₁ h₂ =>
      obtain ⟨t, ht, ht'⟩ := ih h₂
      exact ⟨t, .cons h₁ ht, ht'⟩

/-- A deferred file is written with the link count it counted, which is not 0: it is never
parked again, and the table stays as it is. -/
theorem LinkedRuns.hashTable {chain : List InumMapping} (h : LinkedRuns e chain s s')
    (hc : ∀ im ∈ chain, 0 < im.useNlink) : s'.hashTable = s.hashTable := by
  induction h with
  | nil => rfl
  | @cons im rest s s₁ s' r h₁ _ ih =>
    rw [ih fun im' hm => hc im' (List.mem_cons_of_mem _ hm)]
    rcases (addNonDir_ok h₁).2 with ⟨hz, -⟩ | ⟨-, -, h₂⟩
    · exact absurd hz (Nat.pos_iff_ne_zero.mp (hc im (List.mem_cons_self _ _)))
    · rw [addNonDirNodes_hashTable h₂]

theorem addMultiLinkedChain_ok {chain : List InumMapping} {u : Unit}
    (h : (addMultiLinkedChain e chain).run s = .ok (u, s')) : LinkedRuns e chain s s' := by
  induction chain generalizing s with
  | nil =>
    simp only [addMultiLinkedChain, run_pure, Except.ok.injEq, Prod.mk.injEq] at h
    rw [h.2]
    exact .nil
  | cons im rest ih =>
    rw [addMultiLinkedChain] at h
    obtain ⟨_, s₁, h₁, h₂⟩ := run_bind_ok.mp h
    exact .cons h₁ (ih h₂)

theorem addMultiLinkedChain_run {chain : List InumMapping} (h : LinkedRuns e chain s s') :
    (addMultiLinkedChain e chain).run s = .ok ((), s') := by
  induction h with
  | nil => rfl
  | cons h₁ _ ih =>
    rw [addMultiLinkedChain, run_bind_of_ok h₁]
    exact ih

/-- add_multi_linked_files writes the table's entries bucket by bucket, reading each bucket
from a table the writes before it left unchanged. -/
theorem addMultiLinkedFiles_ok {u : Unit} (hs : TableOk s)
    (h : (addMultiLinkedFiles e).run s = .ok (u, s')) :
    LinkedRuns e (deferred s) s s' ∧ s'.hashTable = s.hashTable := by
  unfold addMultiLinkedFiles deferred at *
  generalize List.range hashTableSize = l at h ⊢
  induction l generalizing s with
  | nil =>
    simp only [List.forM, run_pure, Except.ok.injEq, Prod.mk.injEq] at h
    rw [← h.2]
    exact ⟨.nil, rfl⟩
  | cons i rest ih =>
    simp only [List.forM] at h
    obtain ⟨_, s₁, h₁, h₂⟩ := run_bind_ok.mp h
    rw [run_bind_of_ok run_get] at h₁
    have hr := addMultiLinkedChain_ok h₁
    have ht := hr.hashTable fun im hm => hs i im hm
    obtain ⟨hr', ht'⟩ := ih (fun j im hm => hs j im (ht ▸ hm)) h₂
    rw [ht] at hr'
    exact ⟨List.flatMap_cons .. ▸ hr.append hr', ht'.trans ht⟩

/-- The converse of addMultiLinkedFiles_ok. -/
theorem addMultiLinkedFiles_run (hs : TableOk s) (h : LinkedRuns e (deferred s) s s') :
    (addMultiLinkedFiles e).run s = .ok ((), s') := by
  unfold addMultiLinkedFiles deferred at *
  generalize List.range hashTableSize = l at h ⊢
  induction l generalizing s with
  | nil =>
    cases h
    rfl
  | cons i rest ih =>
    rw [List.flatMap_cons] at h
    obtain ⟨t, h₁, h₂⟩ := h.split
    have ht := h₁.hashTable fun im hm => hs i im hm
    rw [← ht] at h₂
    simp only [List.forM]
    rw [run_bind_of_ok (by rw [run_bind_of_ok run_get]; exact addMultiLinkedChain_run h₁)]
    exact ih (fun j im hm => hs j im (ht ▸ hm)) h₂

/-- A table whose only non-empty bucket is b is visited as that bucket. -/
theorem deferred_of_bucket {b : Nat} (hb : b < hashTableSize) (h : ∀ i, i ≠ b → s.hashTable i = []) :
    deferred s = s.hashTable b := by
  suffices ∀ n, (List.range n).flatMap s.hashTable = if b < n then s.hashTable b else [] by
    rw [deferred, this, if_pos hb]
  intro n
  induction n with
  | zero => rfl
  | succ n ih =>
    rw [List.range_succ, List.flatMap_append, List.flatMap_singleton, ih]
    by_cases hn : n = b
    · subst hn
      simp
    · rw [h n hn, List.append_nil]
      exact if_congr (by omega) rfl rfl

theorem LinkedRuns.of_bucket {b : Nat} {l : List InumMapping} (hb : b < hashTableSize)
    (h : s.hashTable = Function.update (fun _ => []) b l) (hl : LinkedRuns e l s s') :
    LinkedRuns e (deferred s) s s' := by
  rwa [deferred_of_bucket hb fun i hi => by rw [h, Function.update_noteq hi], h, Function.update_same]

/-- With no file parked in the table, add_multi_linked_files writes nothing. -/
theorem addMultiLinkedFiles_empty (h : ∀ i, s.hashTable i = []) :
    (addMultiLinkedFiles e).run s = .ok ((), s) := by
  unfold addMultiLinkedFiles
  generalize List.range hashTableSize = l
  induction l with
  | nil => rfl
  | cons i rest ih =>
    simp only [List.forM]
    rw [run_bind_of_ok (by rw [run_bind_of_ok run_get, h]; rfl), ih]

end Linked

/-! ### write_data -/

section WriteData
variable {e : Env} {root : Option HostFile} {now : Int} {s s' : Mkfs} {u : Unit}

/-- The root write_data walks: the host root, or a default directory that does not exist on
the host. -/
def rootArgs (e : Env) (root : Option HostFile) (now : Int) : Bytes × HostFile × Stat × Bool :=
  match root with
  | some hf => (e.rootPath, hf, entryStat e hf, true)
  | none => ([], ⟨defaultRootStat now, 0, [], [], [], []⟩, defaultRootStat now, false)

theorem addRootDirectory_run :
    addRootDirectory e root now = addDirectory e (rootArgs e root now).1 (rootArgs e root now).2.1
      ubifsRootIno (rootArgs e root now).2.2.1 (rootArgs e root now).2.2.2 e.rootFctx := by
  cases root <;> rfl

/-- write_data: the root walk on a head that writes leaves, the deferred files, the last
flush. -/
theorem writeData_ok (h : (writeData e root now).run s = .ok (u, s')) :
    ∃ s₁ s₂, (addRootDirectory e root now).run { s with flash := { s.flash with headFlags := 0 } } =
        .ok ((), s₁) ∧ (addMultiLinkedFiles e).run s₁ = .ok ((), s₂) ∧
      s' = { s₂ with flash := flushNodes e.info s₂.flash } := by
  unfold writeData at h
  rw [run_bind_of_ok run_onFlash] at h
  obtain ⟨_, s₁, h₁, h₂⟩ := run_bind_ok.mp h
  obtain ⟨_, s₂, h₃, h₄⟩ := run_bind_ok.mp h₂
  simp only [run_onFlash, Except.ok.injEq, Prod.mk.injEq] at h₄
  exact ⟨s₁, s₂, h₁, h₃, h₄.2.symm⟩

/-- The converse of writeData_ok, from a table that holds only counted entries. -/
theorem writeData_run {s₁ s₂ : Mkfs} (hs : TableOk s)
    (h₁ : (addRootDirectory e root now).run { s with flash := { s.flash with headFlags := 0 } } = .ok ((), s₁))
    (h₂ : LinkedRuns e (deferred s₁) s₁ s₂) :
    (writeData e root now).run s = .ok ((), { s₂ with flash := flushNodes e.info s₂.flash }) := by
  rw [addRootDirectory_run] at h₁
  unfold writeData
  rw [run_bind_of_ok run_onFlash, addRootDirectory_run, run_bind_of_ok h₁,
    run_bind_of_ok (addMultiLinkedFiles_run (addDirectory_tableOk h₁ hs) h₂)]
  rfl

end WriteData

end MkfsUbifs
