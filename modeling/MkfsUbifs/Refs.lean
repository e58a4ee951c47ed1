import MkfsUbifs.Links

/-! # Entries and the inodes they name

Every directory entry and every xattr entry of the image names an inode number and records a
type. add_directory writes a subdirectory's entry once the subdirectory's inode is written,
add_non_dir a file's entry once the file's inode is written or the file is parked in the
link-counting table, and add_xattr an attribute's entry just before the attribute's inode. So
while the walk runs, the inode an entry names is written or still pending in the table, and
add_multi_linked_files then writes what is pending; every inode but the root's is named by the
entry written right after it, or by entries written before. The type an entry records comes from
the stat of its own host object, and a deferred file's inode takes the stat of the last link seen:
the two agree when the links of one host inode share its mode, as they do on any host. -/

namespace MkfsUbifs

/-! ### The host tree -/

/-- x is an object of the tree of hf: hf itself, or an object under one of its entries. -/
inductive InTree : HostFile → HostFile → Prop
  | self (hf : HostFile) : InTree hf hf
  | entry {hf c x : HostFile} {name : Bytes} : (name, c) ∈ hf.entries → InTree x c → InTree x hf

/-- Objects of the tree of hf with the same (st_dev, st_ino), the links of one host inode, have
the same st_mode. -/
def ModesAgree (hf : HostFile) : Prop :=
  ∀ x y, InTree x hf → InTree y hf → x.st.stDev = y.st.stDev → x.st.stIno = y.st.stIno →
    x.st.stMode = y.st.stMode

/-- Every object under the entries has the mode T gives its (st_dev, st_ino). -/
def TypedEntries (T : Nat → Nat → Nat) (entries : List (Bytes × HostFile)) : Prop :=
  ∀ p ∈ entries, ∀ x, InTree x p.2 → x.st.stMode = T x.st.stDev x.st.stIno

/-- When the modes agree, one function of (st_dev, st_ino) gives every object's mode. -/
theorem ModesAgree.typed {hf : HostFile} (h : ModesAgree hf) : ∃ T, TypedEntries T hf.entries := by
  classical
  refine ⟨fun d i => if hx : ∃ x, InTree x hf ∧ x.st.stDev = d ∧ x.st.stIno = i then hx.choose.st.stMode
    else 0, fun p hp x hx => ?_⟩
  have hx' : InTree x hf := .entry hp hx
  have he : ∃ y, InTree y hf ∧ y.st.stDev = x.st.stDev ∧ y.st.stIno = x.st.stIno := ⟨x, hx', rfl, rfl⟩
  dsimp only
  rw [dif_pos he]
  obtain ⟨hy, hd, hi⟩ := he.choose_spec
  exact h x _ hx' hy hd.symm hi.symm

/-- An object of a tree whose root has no entries is the root itself. -/
theorem InTree.eq_of_entries_nil {x hf : HostFile} (h : InTree x hf) (he : hf.entries = []) : x = hf := by
  cases h with
  | self => rfl
  | entry hp _ => exact absurd (he ▸ hp) (List.not_mem_nil _)

/-- In the sample tree only the two links h and k share (st_dev, st_ino), and they have one mode. -/
theorem sampleRoot_modesAgree : ModesAgree sampleRoot := by
  have hm : ∀ x, InTree x sampleRoot → x.st ∈ [sampleRoot.st, sampleSubdir.st, sampleFile.st, sampleLink.st] := by
    intro x h
    cases h with
    | self => exact List.mem_cons_self _ _
    | entry hp hc =>
      simp only [sampleRoot, List.mem_cons, Prod.mk.injEq, List.not_mem_nil, or_false] at hp
      rcases hp with ⟨-, rfl⟩ | ⟨-, rfl⟩ | ⟨-, rfl⟩ | ⟨-, rfl⟩ <;> rw [hc.eq_of_entries_nil rfl] <;> decide
  intro x y hx hy
  exact (by decide : ∀ a ∈ [sampleRoot.st, sampleSubdir.st, sampleFile.st, sampleLink.st],
    ∀ b ∈ [sampleRoot.st, sampleSubdir.st, sampleFile.st, sampleLink.st],
      a.stDev = b.stDev → a.stIno = b.stIno → a.stMode = b.stMode) _ (hm x hx) _ (hm y hy)

theorem TypedEntries.tail {T : Nat → Nat → Nat} {p : Bytes × HostFile} {rest : List (Bytes × HostFile)}
    (h : TypedEntries T (p :: rest)) : TypedEntries T rest :=
  fun q hq => h q (List.mem_cons_of_mem _ hq)

theorem TypedEntries.child {T : Nat → Nat → Nat} {name : Bytes} {child : HostFile}
    {rest : List (Bytes × HostFile)} (h : TypedEntries T ((name, child) :: rest)) :
    TypedEntries T child.entries :=
  fun _ hq x hx => h _ (List.mem_cons_self _ _) x (.entry hq hx)

@[simp] theorem entryStat_stMode {e : Env} {hf : HostFile} : (entryStat e hf).stMode = hf.st.stMode := by
  unfold entryStat
  split <;> rfl

@[simp] theorem entryStat_stDev {e : Env} {hf : HostFile} : (entryStat e hf).stDev = hf.st.stDev := by
  unfold entryStat
  split <;> rfl

@[simp] theorem entryStat_stIno {e : Env} {hf : HostFile} : (entryStat e hf).stIno = hf.st.stIno := by
  unfold entryStat
  split <;> rfl

/-! ### Entries and inodes among nodes -/

/-- The inode number an entry node names, as the key word of an inode key, and the type it
records: for a directory entry and for an xattr entry. -/
def Node.target? (n : Node) : Option (Nat × Nat) :=
  match n.body with
  | .dent x => some (x.inum % 2 ^ 32, x.type)
  | .xent x => some (x.inum % 2 ^ 32, x.type)
  | _ => none

/-- The inode a node holds. -/
def Node.ino? (n : Node) : Option InoNode :=
  match n.body with
  | .ino i => some i
  | _ => none

/-- The targets of the entries among ns. -/
def targetsOf (ns : List Node) : List (Nat × Nat) := ns.filterMap Node.target?

/-- The inodes among ns. -/
def inodesOf (ns : List Node) : List InoNode := ns.filterMap Node.ino?

/-- The type add_directory and add_non_dir record in the entry of an inode of mode m. -/
def modeType (m : Nat) : Option Nat := if sIsdir m then some ubifsItypeDir else nonDirTypeOf m

/-- An entry among ns names the inode number k. -/
def Named (ns : List Node) (k : Nat) : Prop := ∃ ty, (k, ty) ∈ targetsOf ns

/-- An inode among ns has the number and the type of the target t. -/
def Found (ns : List Node) (t : Nat × Nat) : Prop :=
  ∃ i ∈ inodesOf ns, i.key.ino = t.1 ∧ modeType i.mode = some t.2

@[simp] theorem targetsOf_append {l₁ l₂ : List Node} : targetsOf (l₁ ++ l₂) = targetsOf l₁ ++ targetsOf l₂ :=
  List.filterMap_append _ _ _

@[simp] theorem inodesOf_append {l₁ l₂ : List Node} : inodesOf (l₁ ++ l₂) = inodesOf l₁ ++ inodesOf l₂ :=
  List.filterMap_append _ _ _

theorem inoInums_eq_map (ns : List Node) : inoInums ns = (inodesOf ns).map fun i => i.key.ino := by
  unfold inoInums inodesOf
  rw [List.map_filterMap]
  congr
  funext ⟨q, len, body⟩
  cases body <;> rfl

theorem Named.append_right {l₁ l₂ : List Node} {k : Nat} (h : Named l₁ k) : Named (l₁ ++ l₂) k :=
  let ⟨ty, ht⟩ := h
  ⟨ty, by rw [targetsOf_append]; exact List.mem_append_left _ ht⟩

theorem Named.append_left {l₁ l₂ : List Node} {k : Nat} (h : Named l₂ k) : Named (l₁ ++ l₂) k :=
  let ⟨ty, ht⟩ := h
  ⟨ty, by rw [targetsOf_append]; exact List.mem_append_right _ ht⟩

theorem Found.append_right {l₁ l₂ : List Node} {t : Nat × Nat} (h : Found l₁ t) : Found (l₁ ++ l₂) t :=
  let ⟨i, hi, hk, hm⟩ := h
  ⟨i, by rw [inodesOf_append]; exact List.mem_append_left _ hi, hk, hm⟩

theorem Found.append_left {l₁ l₂ : List Node} {t : Nat × Nat} (h : Found l₂ t) : Found (l₁ ++ l₂) t :=
  let ⟨i, hi, hk, hm⟩ := h
  ⟨i, by rw [inodesOf_append]; exact List.mem_append_right _ hi, hk, hm⟩

theorem nonDirTypeOf_of_dir {m : Nat} (hd : sIsdir m = true) : nonDirTypeOf m = none := by
  simp only [sIsdir, beq_iff_eq] at hd
  simp only [nonDirTypeOf, sIsreg, sIschr, sIsblk, sIslnk, sIssock, sIsfifo, hd]
  decide

theorem modeType_of_nonDirTypeOf {m ty : Nat} (h : nonDirTypeOf m = some ty) : modeType m = some ty := by
  unfold modeType
  split
  · rw [nonDirTypeOf_of_dir ‹_›] at h
    cases h
  · exact h

theorem modeType_of_dir {m : Nat} (hd : sIsdir m = true) : modeType m = some ubifsItypeDir := by
  simp [modeType, hd]

/-! ### The nodes of the emitters -/

/-- The nodes N write the inode of inum with mode m, and otherwise entries and inodes that match
among themselves: each entry of N names an inode of N of its type, and each other inode of N is
named by an entry of N. -/
structure Emits (inum m : Nat) (N : List Node) : Prop where
  found : ∀ t ∈ targetsOf N, Found N t
  host : ∃ i ∈ inodesOf N, i.key.ino = inum % 2 ^ 32 ∧ i.mode = m
  named : ∀ i ∈ inodesOf N, i.key.ino = inum % 2 ^ 32 ∨ Named N i.key.ino

/-- Nodes without entries and inodes in front keep what N emits. -/
theorem Emits.leaves {inum m : Nat} {L N : List Node} (hl : targetsOf L = [] ∧ inodesOf L = [])
    (h : Emits inum m N) : Emits inum m (L ++ N) where
  found t ht := by
    rw [targetsOf_append, hl.1, List.nil_append] at ht
    exact (h.found t ht).append_left
  host := by
    rw [inodesOf_append, hl.2, List.nil_append]
    exact h.host
  named i hi := by
    rw [inodesOf_append, hl.2, List.nil_append] at hi
    exact (h.named i hi).imp_right Named.append_left

section Emitters
variable {e : Env} {st : Stat} {inum flags : Nat} {s s' : Mkfs} {u : Unit}

theorem modeType_sIFREG : modeType sIFREG = some ubifsItypeReg := by decide

/-- Each attribute is an entry naming the attribute's inode, a regular file, written right after
it. -/
theorem xattrNodes_refs (e : Env) (st : Stat) (inum : Nat) (xs : List (Bytes × Bytes)) (h m : Nat) :
    (∀ t ∈ targetsOf (xattrNodes e st inum xs h m), Found (xattrNodes e st inum xs h m) t) ∧
      ∀ i ∈ inodesOf (xattrNodes e st inum xs h m), Named (xattrNodes e st inum xs h m) i.key.ino := by
  induction xs generalizing h m with
  | nil => exact ⟨fun _ ht => (nomatch ht), fun _ hi => (nomatch hi)⟩
  | cons x rest ih =>
    obtain ⟨name, data⟩ := x
    obtain ⟨ihf, ihn⟩ := ih (h + 1) (m + 3)
    have ht : targetsOf (xattrNodes e st inum ((name, data) :: rest) h m) =
        ((h + 1) % 2 ^ 32, ubifsItypeReg) :: targetsOf (xattrNodes e st inum rest (h + 1) (m + 3)) := rfl
    have hi : inodesOf (xattrNodes e st inum ((name, data) :: rest) h m) =
        xattrInode e st (h + 1) (m + 1) data :: inodesOf (xattrNodes e st inum rest (h + 1) (m + 3)) := rfl
    have hk : (xattrInode e st (h + 1) (m + 1) data).key.ino = (h + 1) % 2 ^ 32 := rfl
    have hm : (xattrInode e st (h + 1) (m + 1) data).mode = sIFREG := rfl
    refine ⟨fun t htm => ?_, fun i him => ?_⟩
    · rw [ht, List.mem_cons] at htm
      rcases htm with rfl | htm
      · exact ⟨_, by rw [hi]; exact List.mem_cons_self _ _, hk, by rw [hm]; exact modeType_sIFREG⟩
      · obtain ⟨i, him, hk', hm'⟩ := ihf t htm
        exact ⟨i, by rw [hi]; exact List.mem_cons_of_mem _ him, hk', hm'⟩
    · rw [hi, List.mem_cons] at him
      rcases him with rfl | him
      · exact ⟨ubifsItypeReg, by rw [ht, hk]; exact List.mem_cons_self _ _⟩
      · obtain ⟨ty, hty⟩ := ihn i him
        exact ⟨ty, by rw [ht]; exact List.mem_cons_of_mem _ hty⟩

/-- The nodes of add_inode: its attributes, then the inode of inum with st's mode. -/
theorem inodeNodes_refs {d : Bytes} {xattrPath : Option (Bytes × List (Bytes × Bytes))}
    {fctx : Option Bytes} {h m c : Nat} :
    Emits inum st.stMode (inodeNodes e st inum d flags xattrPath fctx h m c) := by
  obtain ⟨hx, hxn⟩ := xattrNodes_refs e st inum (inodeXattrs e st xattrPath fctx) h m
  obtain ⟨hm, -, -⟩ := xattrHosts_dir (e := e) (inodeBase e st inum d flags fctx c) (inodeXattrs e st xattrPath fctx)
  have hk : (xattrHosts e (inodeBase e st inum d flags fctx c) (inodeXattrs e st xattrPath fctx)).key.ino =
      inum % 2 ^ 32 := by rw [xattrHosts_key]; rfl
  unfold inodeNodes
  refine ⟨fun t ht => ?_, ⟨_, ?_, hk, hm⟩, fun i hi => ?_⟩
  · rw [targetsOf_append] at ht
    exact (hx t ((List.mem_append.mp ht).resolve_right nofun)).append_right
  · rw [inodesOf_append]
    exact List.mem_append_right _ (List.mem_singleton_self _)
  · rw [inodesOf_append, List.mem_append] at hi
    rcases hi with hi | hi
    · exact .inr (hxn i hi).append_right
    · rw [List.mem_singleton.mp hi]
      exact .inl hk

theorem addInode_refs {data : Bytes} {xattrPath : Option (Bytes × List (Bytes × Bytes))}
    {fctx : Option Bytes} (h : (addInode e st inum data flags xattrPath fctx).run s = .ok (u, s')) :
    ∃ N, s'.nodes = s.nodes ++ N ∧ Emits inum st.stMode N :=
  let ⟨_, _, hn, _⟩ := addInode_nodes h
  ⟨_, hn, inodeNodes_refs⟩

theorem leafNodes_refs {ls : List (Key × Option Bytes × NodeBody × Nat)} (hl : ∀ l ∈ ls, DataLeaf inum l)
    (m : Nat) : targetsOf (leafNodes m ls) = [] ∧ inodesOf (leafNodes m ls) = [] := by
  have hd := leafNodes_data hl m
  refine ⟨List.filterMap_eq_nil_iff.mpr fun n hn => ?_, List.filterMap_eq_nil_iff.mpr fun n hn => ?_⟩ <;>
    obtain ⟨dn, hb⟩ := hd n hn <;> simp [Node.target?, Node.ino?, hb]

/-- The writing part of add_non_dir: the data leaves, then what add_inode writes. -/
theorem addNonDirNodes_refs {path : Bytes} {hf : HostFile} {fctx : Option Bytes}
    (h : (addNonDirNodes e path hf st inum flags fctx).run s = .ok (u, s')) :
    ∃ N, s'.nodes = s.nodes ++ N ∧ Emits inum st.stMode N := by
  obtain ⟨-, ls, s₁, hls, hd, -, hi⟩ := addNonDirNodes_ok h
  obtain ⟨hn₁, -⟩ := hls.nodes
  obtain ⟨M, hM, he⟩ := addInode_refs hi
  exact ⟨_, by rw [hM, hn₁, List.append_assoc], he.leaves (leafNodes_refs hd s.maxSqnum)⟩

/-- add_dent_node writes one entry, naming inum with the type it is given. -/
theorem addDentNode_refs {dirInum type klen : Nat} {name : Bytes} {fctx : Option Bytes}
    (h : (addDentNode e dirInum name inum type fctx).run s = .ok (klen, s')) :
    ∃ n, s'.nodes = s.nodes ++ [n] ∧ targetsOf [n] = [(inum % 2 ^ 32, type)] ∧ inodesOf [n] = [] :=
  let ⟨_, _, _, hn, _⟩ := addDentNode_nodes h
  ⟨_, hn, rfl, rfl⟩

end Emitters

/-! ### The link-counting table -/

section Table
variable {T : Nat → Nat → Nat} {path : Bytes} {hf : HostFile} {st : Stat} {inum : Nat} {s s' : Mkfs}

theorem deferred_of_hashTable (h : s'.hashTable = s.hashTable) : deferred s' = deferred s := by
  unfold deferred
  rw [h]

theorem mem_deferred_linkFirst {im : InumMapping} :
    im ∈ deferred (linkFirst path hf st inum s) ↔ im = ⟨st.stDev, st.stIno, inum, 1, path, st, hf⟩ ∨ im ∈ deferred s :=
  deferred_linkFirst.mem_iff.trans List.mem_cons

theorem mem_deferred_linkAgain {x : InumMapping} (h : x ∈ deferred (linkAgain st s)) :
    ∃ y ∈ deferred s, x = y ∨ x = bumpLink st y := by
  obtain ⟨j, hj, hx⟩ := List.mem_flatMap.mp h
  by_cases hb : j = st.stIno % hashTableSize
  · subst hb
    obtain ⟨y, hy, rfl⟩ := List.mem_map.mp (by simpa only [linkAgain, Function.update_same] using hx)
    exact ⟨y, List.mem_flatMap.mpr ⟨_, hj, hy⟩, .inr rfl⟩
  · exact ⟨x, List.mem_flatMap.mpr ⟨j, hj, by simpa only [linkAgain, Function.update_noteq hb] using hx⟩, .inl rfl⟩

theorem bumpLink_mem_deferred {y : InumMapping} (hy : y ∈ s.hashTable (st.stIno % hashTableSize)) :
    bumpLink st y ∈ deferred (linkAgain st s) :=
  List.mem_flatMap.mpr ⟨_, List.mem_range.mpr (Nat.mod_lt _ (by decide)), by
    show _ ∈ Function.update s.hashTable _ _ _
    rw [Function.update_same]
    exact List.mem_map_of_mem (bumpLink st) hy⟩

theorem deferred_linkAgain_of_mem {y : InumMapping} (h : y ∈ deferred s) :
    y ∈ deferred (linkAgain st s) ∨ bumpLink st y ∈ deferred (linkAgain st s) := by
  obtain ⟨j, hj, hy⟩ := List.mem_flatMap.mp h
  by_cases hb : j = st.stIno % hashTableSize
  · subst hb
    exact .inr (bumpLink_mem_deferred hy)
  · exact .inl (List.mem_flatMap.mpr ⟨j, hj, by simpa only [linkAgain, Function.update_noteq hb] using hy⟩)

theorem bumpLink_st {y : InumMapping} (hq : y.isOf st.stDev st.stIno = true) : (bumpLink st y).st = st := by
  unfold bumpLink
  rw [if_pos hq]

theorem bumpLink_useInum (y : InumMapping) : (bumpLink st y).useInum = y.useInum := by
  unfold bumpLink
  split <;> rfl

theorem bumpLink_mode {y : InumMapping} (hT : st.stMode = T st.stDev st.stIno)
    (hy : y.st.stMode = T y.dev y.inum) : (bumpLink st y).st.stMode = y.st.stMode := by
  unfold bumpLink
  split
  · obtain ⟨hd, hi⟩ := Prod.mk.inj (isOf_key ‹_›)
    show st.stMode = _
    rw [hT, hy, hd, hi]
  · rfl

theorem bumpLink_typed {y : InumMapping} (hT : st.stMode = T st.stDev st.stIno)
    (hy : y.st.stMode = T y.dev y.inum) :
    (bumpLink st y).st.stMode = T (bumpLink st y).dev (bumpLink st y).inum := by
  have hk : ((bumpLink st y).dev, (bumpLink st y).inum) = (y.dev, y.inum) := bumpLink_key y
  obtain ⟨hd, hi⟩ := Prod.mk.inj hk
  rw [bumpLink_mode hT hy, hy, hd, hi]

end Table

/-! ### The walk -/

/-- Where the inode a target names is: written, of the target's type, or the file of an entry of
the link-counting table whose stat has that type. -/
def Resolved (s : Mkfs) (t : Nat × Nat) : Prop :=
  Found s.nodes t ∨ ∃ im ∈ deferred s, im.useInum % 2 ^ 32 = t.1 ∧ modeType im.st.stMode = some t.2

/-- The invariant of the walk: every entry written is resolved; each entry of the table has the
mode T gives its host inode, and is named by an entry written. -/
structure RefInv (T : Nat → Nat → Nat) (s : Mkfs) : Prop where
  resolved : ∀ t ∈ targetsOf s.nodes, Resolved s t
  typed : ∀ im ∈ deferred s, im.st.stMode = T im.dev im.inum
  named : ∀ im ∈ deferred s, Named s.nodes (im.useInum % 2 ^ 32)

section Walk
variable {e : Env} {T : Nat → Nat → Nat} {s s' : Mkfs}

theorem refInv_init (c : Info) : RefInv T (Mkfs.init c) := by
  have hd : deferred (Mkfs.init c) = [] := List.flatMap_eq_nil_iff.mpr fun _ _ => rfl
  exact ⟨fun _ ht => (nomatch ht), by rw [hd]; exact nofun, by rw [hd]; exact nofun⟩

/-- A target stays resolved when nodes are added and the table's entries stay, raised or not. -/
theorem Resolved.transfer {t : Nat × Nat} {N : List Node} (h : Resolved s t) (hN : s'.nodes = s.nodes ++ N)
    (hd : ∀ y ∈ deferred s, ∃ x ∈ deferred s', x.useInum = y.useInum ∧ x.st.stMode = y.st.stMode) :
    Resolved s' t := by
  rcases h with hf | ⟨y, hy, hk, hm⟩
  · exact .inl (by rw [hN]; exact hf.append_right)
  · obtain ⟨x, hx, hu, hxm⟩ := hd y hy
    exact .inr ⟨x, hx, hu ▸ hk, hxm ▸ hm⟩

/-- Nodes whose entries name written inodes keep the invariant, the table staying. -/
theorem RefInv.append {N : List Node} (h : RefInv T s) (hN : s'.nodes = s.nodes ++ N)
    (ht : s'.hashTable = s.hashTable) (hr : ∀ t ∈ targetsOf N, Found s'.nodes t) : RefInv T s' := by
  have hd := deferred_of_hashTable ht
  refine ⟨fun t htm => ?_, fun im him => h.typed im (by rwa [hd] at him), fun im him => ?_⟩
  · rw [hN, targetsOf_append, List.mem_append] at htm
    rcases htm with htm | htm
    · exact (h.resolved t htm).transfer hN fun y hy => ⟨y, by rwa [hd], rfl, rfl⟩
    · exact .inl (hr t htm)
  · rw [hd] at him
    rw [hN]
    exact (h.named im him).append_right

theorem RefInv.of_eq (h : RefInv T s) (hn : s'.nodes = s.nodes) (ht : s'.hashTable = s.hashTable) :
    RefInv T s' :=
  h.append (N := []) (by rw [hn, List.append_nil]) ht nofun

/-- A link the link-counting table takes keeps the invariant once its entry is written: the
table's entry for its host inode, new or raised, resolves the entry and keeps the host inode's
mode. -/
theorem linkEntry_refs {path : Bytes} {hf : HostFile} {st : Stat} {inum r₁ ty : Nat} {n : Node} {s₁ : Mkfs}
    (h : (linkInumMapping path hf st inum).run s = .ok (r₁, s₁)) (hs : RefInv T s)
    (hT : st.stMode = T st.stDev st.stIno) (hty : modeType st.stMode = some ty)
    (hn : s'.nodes = s.nodes ++ [n]) (htn : targetsOf [n] = [(r₁ % 2 ^ 32, ty)]) (hd : deferred s' = deferred s₁) :
    RefInv T s' := by
  have hnew : Named s'.nodes (r₁ % 2 ^ 32) := ⟨ty, by rw [hn, targetsOf_append, htn]; simp⟩
  have hold : ∀ k, Named s.nodes k → Named s'.nodes k := fun k hk => by rw [hn]; exact hk.append_right
  have hts : ∀ t ∈ targetsOf s'.nodes, t ∈ targetsOf s.nodes ∨ t = (r₁ % 2 ^ 32, ty) := fun t htm => by
    rwa [hn, targetsOf_append, htn, List.mem_append, List.mem_singleton] at htm
  rcases linkInumMapping_ok h with ⟨-, hr₁, rfl⟩ | ⟨im, hf₀, hr₁, rfl⟩
  · -- first link: a new entry of the table resolves this entry
    refine ⟨fun t htm => ?_, fun x hx => ?_, fun x hx => ?_⟩
    · rcases hts t htm with htm | rfl
      · refine (hs.resolved t htm).transfer hn fun y hy => ⟨y, ?_, rfl, rfl⟩
        rw [hd]
        exact mem_deferred_linkFirst.mpr (.inr hy)
      · refine .inr ⟨⟨st.stDev, st.stIno, inum, 1, path, st, hf⟩, ?_, by rw [hr₁], hty⟩
        rw [hd]
        exact mem_deferred_linkFirst.mpr (.inl rfl)
    · rw [hd] at hx
      rcases mem_deferred_linkFirst.mp hx with rfl | hx
      · exact hT
      · exact hs.typed x hx
    · rw [hd] at hx
      rcases mem_deferred_linkFirst.mp hx with rfl | hx
      · rw [← hr₁]
        exact hnew
      · exact hold _ (hs.named x hx)
  · -- a further link: the raised entry of its host inode resolves this entry
    refine ⟨fun t htm => ?_, fun x hx => ?_, fun x hx => ?_⟩
    · rcases hts t htm with htm | rfl
      · refine (hs.resolved t htm).transfer hn fun y hy => ?_
        rw [hd]
        rcases (deferred_linkAgain_of_mem hy : y ∈ deferred (linkAgain st s) ∨ _) with hx | hx
        · exact ⟨y, hx, rfl, rfl⟩
        · exact ⟨_, hx, bumpLink_useInum y, bumpLink_mode hT (hs.typed y hy)⟩
      · refine .inr ⟨bumpLink st im, ?_, by rw [bumpLink_useInum, hr₁],
          by rw [bumpLink_st (List.find?_some hf₀)]; exact hty⟩
        rw [hd]
        exact bumpLink_mem_deferred (List.mem_of_find?_eq_some hf₀)
    · rw [hd] at hx
      obtain ⟨y, hy, rfl | rfl⟩ := mem_deferred_linkAgain hx
      · exact hs.typed _ hy
      · exact bumpLink_typed hT (hs.typed y hy)
    · rw [hd] at hx
      obtain ⟨y, hy, rfl | rfl⟩ := mem_deferred_linkAgain hx
      · exact hold _ (hs.named _ hy)
      · rw [bumpLink_useInum]
        exact hold _ (hs.named y hy)

/-- A non-directory entry of the walk keeps the invariant: the file's inode is written before its
entry, or its entry is resolved by the table's entry for its host inode. The inodes it writes
are named. -/
theorem nondirEntry_refs {dirInum klen : Nat} {name path : Bytes} {hf : HostFile} {st : Stat}
    {fctx fctx' : Option Bytes} {r : Nat × Nat} {s₁ : Mkfs} (hs : RefInv T s)
    (hT : st.stMode = T st.stDev st.stIno)
    (h₁ : (addNonDir e path hf (s.highestInum + 1) 0 st fctx').run { s with highestInum := s.highestInum + 1 } =
      .ok (r, s₁))
    (h₂ : (addDentNode e dirInum name r.1 r.2 fctx).run s₁ = .ok (klen, s')) :
    RefInv T s' ∧ ∃ N, s'.nodes = s.nodes ++ N ∧ ∀ i ∈ inodesOf N, Named s'.nodes i.key.ino := by
  obtain ⟨ht, hb⟩ := addNonDir_ok h₁
  have hty := modeType_of_nonDirTypeOf ht
  obtain ⟨n, hn, htn, hin⟩ := addDentNode_refs h₂
  rcases hb with ⟨-, -, h₃⟩ | ⟨-, hr, h₃⟩
  · -- the host inode has further links: the table takes this one
    have hs₁ : s₁.nodes = s.nodes := by
      rcases linkInumMapping_ok h₃ with ⟨-, -, rfl⟩ | ⟨_, -, -, rfl⟩ <;> rfl
    rw [hs₁] at hn
    exact ⟨linkEntry_refs h₃ (hs.of_eq rfl rfl) hT hty hn htn (deferred_of_hashTable (addDentNode_hashTable h₂)),
      [n], hn, fun i hi => by rw [hin] at hi; cases hi⟩
  · -- one host link: the inode is written, then its entry
    obtain ⟨N, hN, he⟩ := addNonDirNodes_refs h₃
    have hd₃ := addNonDirNodes_hashTable h₃
    have hnodes : s'.nodes = s.nodes ++ (N ++ [n]) := by rw [hn, hN, List.append_assoc]; rfl
    obtain ⟨i₀, hi₀, hk₀, hm₀⟩ := he.host
    refine ⟨hs.append hnodes ((addDentNode_hashTable h₂).trans hd₃) fun t htm => ?_,
      N ++ [n], hnodes, fun i hi => ?_⟩
    · rw [hnodes]
      rw [targetsOf_append, htn, List.mem_append, List.mem_singleton] at htm
      rcases htm with htm | rfl
      · exact (he.found t htm).append_right.append_left
      · exact Found.append_left (Found.append_right ⟨i₀, hi₀, by rw [hk₀, hr], by rw [hm₀]; exact hty⟩)
    · rw [inodesOf_append, hin, List.append_nil] at hi
      rw [hnodes]
      rcases he.named i hi with hk | hk
      · exact ⟨r.2, by rw [targetsOf_append, targetsOf_append, htn, hk, ← hr]; simp⟩
      · exact hk.append_right.append_left

theorem named_append {s₂ : Mkfs} {N₁ N₂ : List Node} (hN₂ : s'.nodes = s₂.nodes ++ N₂)
    (h₁ : ∀ i ∈ inodesOf N₁, Named s₂.nodes i.key.ino) (h₂ : ∀ i ∈ inodesOf N₂, Named s'.nodes i.key.ino) :
    ∀ i ∈ inodesOf (N₁ ++ N₂), Named s'.nodes i.key.ino := fun i hi => by
  rw [inodesOf_append, List.mem_append] at hi
  rcases hi with hi | hi
  · rw [hN₂]
    exact (h₁ i hi).append_right
  · exact h₂ i hi

/-- The walk keeps the invariant. add_directory writes the inode of its directory, with the
directory's mode, and every other inode it writes is named by an entry; so is every inode the
readdir loop writes. -/
theorem walk_refs :
    (∀ dirName hf dirInum st existing fctx s s',
      (addDirectory e dirName hf dirInum st existing fctx).run s = .ok ((), s') →
      TypedEntries T hf.entries → RefInv T s → RefInv T s' ∧ ∃ N, s'.nodes = s.nodes ++ N ∧
        (∃ i ∈ inodesOf N, i.key.ino = dirInum % 2 ^ 32 ∧ i.mode = st.stMode) ∧
        ∀ i ∈ inodesOf N, i.key.ino = dirInum % 2 ^ 32 ∨ Named s'.nodes i.key.ino) ∧
    (∀ dirName dirInum fctx entries size nlink res s s',
      (addEntries e dirName dirInum fctx entries size nlink).run s = .ok (res, s') →
      TypedEntries T entries → RefInv T s → RefInv T s' ∧ ∃ N, s'.nodes = s.nodes ++ N ∧
        ∀ i ∈ inodesOf N, Named s'.nodes i.key.ino) := by
  have hc : WalkCases e
      (fun _ hf dirInum st _ _ s s' => TypedEntries T hf.entries → RefInv T s → RefInv T s' ∧
        ∃ N, s'.nodes = s.nodes ++ N ∧ (∃ i ∈ inodesOf N, i.key.ino = dirInum % 2 ^ 32 ∧ i.mode = st.stMode) ∧
          ∀ i ∈ inodesOf N, i.key.ino = dirInum % 2 ^ 32 ∨ Named s'.nodes i.key.ino)
      (fun _ _ _ entries _ _ _ s s' => TypedEntries T entries → RefInv T s → RefInv T s' ∧
        ∃ N, s'.nodes = s.nodes ++ N ∧ ∀ i ∈ inodesOf N, Named s'.nodes i.key.ino) := by
    refine ⟨?_, fun _ hs => ⟨hs, [], by simp, nofun⟩, fun _ h hT hs => h hT.tail hs, ?_, ?_⟩
    · -- the directory: its entries, then its inode
      intro dirName hf dirInum st existing fctx s s₁ s' r hr h₁ hT hs
      obtain ⟨hs₁, N₁, hN₁, hc₁⟩ : RefInv T s₁ ∧ ∃ N, s₁.nodes = s.nodes ++ N ∧
          ∀ i ∈ inodesOf N, Named s₁.nodes i.key.ino := by
        cases existing
        · simp only [Bool.false_eq_true, if_false] at hr
          obtain ⟨-, rfl⟩ := hr
          exact ⟨hs.of_eq rfl rfl, [], by simp; rfl, nofun⟩
        · exact hr hT (hs.of_eq rfl rfl)
      unfold addDirInode at h₁
      obtain ⟨M, hM, he⟩ := addInode_refs h₁
      have ht := addInode_hashTable h₁
      have hM' : s'.nodes = s₁.nodes ++ M := hM
      obtain ⟨i₀, hi₀, hk₀, hm₀⟩ := he.host
      refine ⟨hs₁.append hM' ht fun t htm => by rw [hM']; exact (he.found t htm).append_left,
        N₁ ++ M, by rw [hM', hN₁, List.append_assoc],
        ⟨i₀, by rw [inodesOf_append]; exact List.mem_append_right _ hi₀, hk₀, hm₀⟩, fun i hi => ?_⟩
      rw [inodesOf_append, List.mem_append] at hi
      rcases hi with hi | hi
      · exact .inr (by rw [hM']; exact (hc₁ i hi).append_right)
      · exact (he.named i hi).imp_right fun hk => by rw [hM']; exact hk.append_left
    · -- a subdirectory: its walk, which writes its inode, then its entry
      intro _ _ _ name child _ _ _ _ _ s s₁ s₂ s' _ hd h₁ h₂ h₃ hT hs
      obtain ⟨hs₁, N₁, hN₁, ⟨i₀, hi₀, hk₀, hm₀⟩, hc₁⟩ := h₁ hT.child (hs.of_eq rfl rfl)
      obtain ⟨n, hn, htn, hin⟩ := addDentNode_refs h₂
      have hs₂ : RefInv T s₂ := hs₁.append hn (addDentNode_hashTable h₂) fun t htm => by
        rw [htn, List.mem_singleton] at htm
        subst htm
        rw [hn, hN₁, List.append_assoc]
        exact Found.append_left (Found.append_right ⟨i₀, hi₀, hk₀, by rw [hm₀]; exact modeType_of_dir hd⟩)
      have hc₁' : ∀ i ∈ inodesOf (N₁ ++ [n]), Named s₂.nodes i.key.ino := fun i hi => by
        rw [inodesOf_append, hin, List.append_nil] at hi
        rw [hn]
        rcases hc₁ i hi with hk | hk
        · exact ⟨ubifsItypeDir, by rw [targetsOf_append, htn, hk]; simp⟩
        · exact hk.append_right
      obtain ⟨hs', N₂, hN₂, hc₂⟩ := h₃ hT.tail hs₂
      exact ⟨hs', N₁ ++ [n] ++ N₂, by rw [hN₂, hn, hN₁]; simp only [List.append_assoc]; rfl,
        named_append hN₂ hc₁' hc₂⟩
    · -- a non-directory
      intro _ _ _ _ child _ _ _ _ _ s s₁ s₂ s' r _ _ h₁ h₂ h₃ hT hs
      have hTc : (entryStat e child).stMode = T (entryStat e child).stDev (entryStat e child).stIno := by
        simp only [entryStat_stMode, entryStat_stDev, entryStat_stIno]
        exact hT _ (List.mem_cons_self _ _) child (.self _)
      obtain ⟨hs₂, N₁, hN₁, hc₁⟩ := nondirEntry_refs hs hTc h₁ h₂
      obtain ⟨hs', N₂, hN₂, hc₂⟩ := h₃ hT.tail hs₂
      exact ⟨hs', N₁ ++ N₂, by rw [hN₂, hN₁, List.append_assoc], named_append hN₂ hc₁ hc₂⟩
  exact hc.sound

/-- The deferred files: each writes the inode of its table entry, with the entry's mode, and
entries and inodes that match among themselves. -/
theorem LinkedRuns.refs {chain : List InumMapping} (h : LinkedRuns e chain s s')
    (hc : ∀ im ∈ chain, 0 < im.useNlink) :
    ∃ N, s'.nodes = s.nodes ++ N ∧ (∀ t ∈ targetsOf N, Found N t) ∧
      (∀ im ∈ chain, ∃ i ∈ inodesOf N, i.key.ino = im.useInum % 2 ^ 32 ∧ i.mode = im.st.stMode) ∧
      ∀ i ∈ inodesOf N, (∃ im ∈ chain, i.key.ino = im.useInum % 2 ^ 32) ∨ Named N i.key.ino := by
  induction h with
  | nil => exact ⟨[], by simp, nofun, nofun, nofun⟩
  | @cons im rest s s₁ s' r h₁ _ ih =>
    obtain ⟨N₂, hN₂, hf₂, hh₂, hc₂⟩ := ih fun im' hm => hc im' (List.mem_cons_of_mem _ hm)
    rcases (addNonDir_ok h₁).2 with ⟨hz, -⟩ | ⟨-, -, h₂⟩
    · exact absurd hz (Nat.pos_iff_ne_zero.mp (hc im (List.mem_cons_self _ _)))
    obtain ⟨N₁, hN₁, he⟩ := addNonDirNodes_refs h₂
    obtain ⟨i₀, hi₀, hk₀, hm₀⟩ := he.host
    refine ⟨N₁ ++ N₂, by rw [hN₂, hN₁, List.append_assoc]; rfl, fun t ht => ?_, fun im' hm => ?_, fun i hi => ?_⟩
    · rw [targetsOf_append, List.mem_append] at ht
      exact ht.elim (fun ht => (he.found t ht).append_right) fun ht => (hf₂ t ht).append_left
    · rcases List.mem_cons.mp hm with rfl | hm
      · exact ⟨i₀, by rw [inodesOf_append]; exact List.mem_append_left _ hi₀, hk₀, hm₀⟩
      · obtain ⟨i, hi, hk, hmo⟩ := hh₂ im' hm
        exact ⟨i, by rw [inodesOf_append]; exact List.mem_append_right _ hi, hk, hmo⟩
    · rw [inodesOf_append, List.mem_append] at hi
      rcases hi with hi | hi
      · exact (he.named i hi).elim (fun hk => .inl ⟨im, List.mem_cons_self _ _, hk⟩)
          fun hk => .inr hk.append_right
      · exact (hc₂ i hi).elim (fun ⟨im', hm, hk⟩ => .inl ⟨im', List.mem_cons_of_mem _ hm, hk⟩)
          fun hk => .inr hk.append_left

/-- write_data from init: every entry names an inode of its type, and every inode but the root's
is named by an entry. -/
theorem writeData_refs {root : Option HostFile} {now : Int}
    (hT : TypedEntries T (rootArgs e root now).2.1.entries)
    (h : (writeData e root now).run (Mkfs.init e.info) = .ok ((), s')) :
    (∀ t ∈ targetsOf s'.nodes, Found s'.nodes t) ∧
      ∀ i ∈ inodesOf s'.nodes, i.key.ino = ubifsRootIno ∨ Named s'.nodes i.key.ino := by
  obtain ⟨s₁, s₂, h₁, h₂, rfl⟩ := writeData_ok h
  rw [addRootDirectory_run] at h₁
  obtain ⟨hs₁, N, hN, -, hc⟩ := walk_refs.1 _ _ _ _ _ _ _ _ h₁ hT (refInv_init _)
  have ht₁ : TableOk s₁ := addDirectory_tableOk h₁ fun _ _ hi => by simp [Mkfs.init] at hi
  obtain ⟨hr, -⟩ := addMultiLinkedFiles_ok ht₁ h₂
  obtain ⟨M, hM, hfM, hhM, hcM⟩ := hr.refs fun im hm => by
    obtain ⟨i, -, hi⟩ := List.mem_flatMap.mp hm
    exact ht₁ i im hi
  have hnodes : ({ s₂ with flash := flushNodes e.info s₂.flash } : Mkfs).nodes = s₁.nodes ++ M := by
    simp only [Mkfs.nodes, flushNodes_placed]
    exact hM
  rw [hnodes]
  refine ⟨fun t ht => ?_, fun i hi => ?_⟩
  · rw [targetsOf_append, List.mem_append] at ht
    rcases ht with ht | ht
    · rcases hs₁.resolved t ht with hf | ⟨im, him, hk, hm⟩
      · exact hf.append_right
      · obtain ⟨i, hi, hk', hm'⟩ := hhM im him
        exact Found.append_left ⟨i, hi, hk'.trans hk, by rw [hm']; exact hm⟩
    · exact (hfM t ht).append_left
  · rw [inodesOf_append, List.mem_append] at hi
    rcases hi with hi | hi
    · rw [hN] at hi
      exact (hc i hi).elim (fun hk => .inl (hk.trans (Nat.mod_eq_of_lt (by decide))))
        fun hk => .inr hk.append_right
    · rcases hcM i hi with ⟨im, him, hk⟩ | hk
      · exact .inr (by rw [hk]; exact (hs₁.named im him).append_right)
      · exact .inr hk.append_left

end Walk

/-! ### The image -/

section Mkfs
variable {e : Env} {root : Option HostFile} {now : Int} {uuid : Bytes} {s' : Mkfs}

/-- In the image of a successful mkfs whose inode numbers stay below 2^32, from a host tree whose
links of one host inode share its mode: every directory entry and xattr entry names the number of
exactly one inode node, and that inode has the type the entry records; and every inode but the
root's is named by some entry. -/
theorem mkfs_refs (hhost : ∀ hf, root = some hf → ModesAgree hf)
    (h : (mkfs e root now uuid).run (Mkfs.init e.info) = .ok ((), s')) (hlt : s'.highestInum < 2 ^ 32) :
    (∀ t ∈ targetsOf s'.nodes, (inoInums s'.nodes).count t.1 = 1 ∧
        ∀ i ∈ inodesOf s'.nodes, i.key.ino = t.1 → modeType i.mode = some t.2) ∧
      ∀ i ∈ inodesOf s'.nodes, i.key.ino ≠ ubifsRootIno → Named s'.nodes i.key.ino := by
  obtain ⟨T, hT⟩ : ∃ T, TypedEntries T (rootArgs e root now).2.1.entries := by
    cases root with
    | none => exact ⟨fun _ _ => 0, fun _ hp => absurd hp (List.not_mem_nil _)⟩
    | some hf => exact (hhost hf rfl).typed
  obtain ⟨s₁, W, mst, sup, sig, h₁, -, hW, -, -, hh, hn⟩ := mkfs_image h
  have hWt : targetsOf W = [] := List.filterMap_eq_nil_iff.mpr fun n hn => by
    obtain ⟨x, hx⟩ := hW n hn
    simp [Node.target?, hx]
  have hWi : inodesOf W = [] := List.filterMap_eq_nil_iff.mpr fun n hn => by
    obtain ⟨x, hx⟩ := hW n hn
    simp [Node.ino?, hx]
  have ht : targetsOf s'.nodes = targetsOf s₁.nodes := by
    rw [hn, targetsOf_append, targetsOf_append, hWt, List.append_nil]
    exact List.append_nil _
  have hi : inodesOf s'.nodes = inodesOf s₁.nodes := by
    rw [hn, inodesOf_append, inodesOf_append, hWi, List.append_nil]
    exact List.append_nil _
  have hnd : ((inodesOf s₁.nodes).map fun i => i.key.ino).Nodup := by
    rw [← inoInums_eq_map]
    exact writeData_inoNums_nodup h₁ (hh ▸ hlt)
  obtain ⟨hf, hnm⟩ := writeData_refs hT h₁
  rw [ht, hi, inoInums_eq_map, hi]
  refine ⟨fun t htm => ?_, fun i hi' hr => ?_⟩
  · obtain ⟨i, hi', hk, hm⟩ := hf t htm
    refine ⟨List.count_eq_one_of_mem hnd (hk ▸ List.mem_map_of_mem _ hi'), fun j hj hjk => ?_⟩
    rw [List.inj_on_of_nodup_map hnd hj hi' (hjk.trans hk.symm)]
    exact hm
  · obtain ⟨ty, hty⟩ := (hnm i hi').resolve_left hr
    exact ⟨ty, by rw [ht]; exact hty⟩

theorem mkfs_refs_sampleRoot :
    (∀ hf, some sampleRoot = some hf → ModesAgree hf) ∧
      ∃ s', (mkfs treeEnv (some sampleRoot) 0 []).run (Mkfs.init treeEnv.info) = .ok ((), s') ∧
        s'.highestInum < 2 ^ 32 ∧
        (∀ t ∈ targetsOf s'.nodes, (inoInums s'.nodes).count t.1 = 1 ∧
          ∀ i ∈ inodesOf s'.nodes, i.key.ino = t.1 → modeType i.mode = some t.2) ∧
        ∀ i ∈ inodesOf s'.nodes, i.key.ino ≠ ubifsRootIno → Named s'.nodes i.key.ino := by
  have hhost : ∀ hf, some sampleRoot = some hf → ModesAgree hf := fun _ h => by
    cases h
    exact sampleRoot_modesAgree
  obtain ⟨s', h, hi⟩ := mkfs_sampleRoot
  have hlt : s'.highestInum < 2 ^ 32 := hi ▸ by decide
  exact ⟨hhost, s', h, hlt, mkfs_refs hhost h hlt⟩

end Mkfs

end MkfsUbifs
