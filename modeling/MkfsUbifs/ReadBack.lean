import MkfsUbifs.Blocks

/-! # Reading a file back

add_file stores a regular file as data nodes, one for each block that is not all zero, keyed by
data_key_init with the block number and holding the block as compress_data returned it. This
file states what a reader of the image gets back. Block b of inode inum is the payload of the
data node under its key, decompressed under the node's compression type, checked against the
node's size field and padded with zeros to a block, or a block of zeros where there is no data
node; the file is its blocks up to the inode's size. When every compressor of the build has an
inverse, the nodes add_file writes for a file without encryption read back to the file's bytes,
however the reads were chunked, as long as the file has at most 2^29 blocks: from block 2^29 on,
data_key_init gives the keys of earlier blocks. -/

namespace MkfsUbifs

/-! ### Decompression -/

/-- dec inverts the compressors of k: UBIFS_COMPR_NONE stands for the bytes as they are, and
each compressor the build has is undone by dec under its type. -/
structure Decodes (k : Codecs) (dec : Nat → Bytes → Option Bytes) : Prop where
  none : ∀ b, dec ubifsComprNone b = some b
  lzo : ∀ f, k.lzo = some f → ∀ b o, f b = some o → dec ubifsComprLzo o = some b
  zlib : ∀ f, k.zlib = some f → ∀ b o, f b = some o → dec ubifsComprZlib o = some b
  zstd : ∀ f, k.zstd = some f → ∀ b o, f b = some o → dec ubifsComprZstd o = some b

section Decode
variable {k : Codecs} {dec : Nat → Bytes → Option Bytes}

theorem Decodes.decodes_runCompressor (hk : Decodes k dec) {t : Nat} {b o : Bytes} (h : runCompressor k t b = some o) :
    dec t o = some b := by
  unfold runCompressor at h
  dsimp only at h
  split_ifs at h with h₁ h₂ h₃
  · obtain ⟨f, hf, ho⟩ := Option.bind_eq_some.mp h
    exact h₁ ▸ hk.lzo f hf b o ho
  · obtain ⟨f, hf, ho⟩ := Option.bind_eq_some.mp h
    exact h₂ ▸ hk.zlib f hf b o ho
  · obtain ⟨f, hf, ho⟩ := Option.bind_eq_some.mp h
    exact h₃ ▸ hk.zstd f hf b o ho
  · cases h

theorem decodes_stored {b : Bytes} {r : Option (Nat × Bytes)} (hn : dec ubifsComprNone b = some b)
    (hr : ∀ t o, r = some (t, o) → dec t o = some b) :
    dec (match r with
        | some (t, out) => if out.length ≥ b.length then (ubifsComprNone, b) else (t, out)
        | none => (ubifsComprNone, b)).1
      (match r with
        | some (t, out) => if out.length ≥ b.length then (ubifsComprNone, b) else (t, out)
        | none => (ubifsComprNone, b)).2 = some b := by
  rcases r with _ | ⟨t, o⟩
  · exact hn
  · dsimp only
    split
    · exact hn
    · exact hr t o rfl

/-- What compress_data stores decodes back to the block. -/
theorem Decodes.decodes_compressData (hk : Decodes k dec) (b : Bytes) (t : Nat) :
    dec (compressData k b t).1 (compressData k b t).2 = some b := by
  unfold compressData
  split
  · exact hk.none b
  refine decodes_stored (hk.none b) fun t' o h => ?_
  split at h
  · rename_i lzo zlib _ hl hz
    rcases favorLzoCompress_some h with ⟨rfl, ho⟩ | ⟨rfl, ho, -⟩
    · exact hk.lzo lzo hl b o ho
    · exact hk.zlib zlib hz b o ho
  · obtain ⟨o', ho, he⟩ := Option.map_eq_some'.mp h
    cases he
    exact hk.decodes_runCompressor ho

end Decode

/-! ### The reader -/

/-- The data node of block b of inode inum among ns, found by its key. -/
def dataAt (ns : List Node) (inum b : Nat) : Option DataNode :=
  ns.findSome? fun n =>
    match n.body with
    | .data dn => if dn.key = dataKeyInit inum b then some dn else none
    | _ => none

/-- A block's bytes padded with zeros to UBIFS_BLOCK_SIZE. -/
def padBlock (buf : Bytes) : Bytes := buf ++ List.replicate (ubifsBlockSize - buf.length) 0

/-- Block b of inode inum as a reader of the image gets it: the payload of its data node
decompressed under the node's compression type, if that gives as many bytes as the node's size
field says, padded to a block; a block of zeros where there is no data node. -/
def readBlockAt (dec : Nat → Bytes → Option Bytes) (ns : List Node) (inum b : Nat) : Option Bytes :=
  match dataAt ns inum b with
  | some dn =>
    (dec dn.comprType dn.data).bind fun buf => if buf.length = dn.size then some (padBlock buf) else none
  | none => some (List.replicate ubifsBlockSize 0)

/-- The first size bytes of inode inum, read block by block. -/
def readFile (dec : Nat → Bytes → Option Bytes) (ns : List Node) (inum size : Nat) : Option Bytes :=
  ((List.range ((size + ubifsBlockSize - 1) / ubifsBlockSize)).mapM (readBlockAt dec ns inum)).map
    fun blocks => blocks.flatten.take size

theorem dataAt_append {l₁ l₂ : List Node} {inum b : Nat} :
    dataAt (l₁ ++ l₂) inum b = (dataAt l₁ inum b).or (dataAt l₂ inum b) :=
  List.findSome?_append

/-! ### Lists -/

theorem findSome?_of_unique {α β : Type} {f : α → Option β} {x : β} :
    ∀ {l : List α}, (∀ y ∈ l, f y = none ∨ f y = some x) → (∃ y ∈ l, f y = some x) → l.findSome? f = some x
  | [], _, ⟨_, hy, _⟩ => absurd hy (List.not_mem_nil _)
  | y :: l, hu, ⟨z, hz, hzx⟩ => by
    rw [List.findSome?_cons]
    rcases hu y (List.mem_cons_self _ _) with hy | hy
    · rw [hy]
      refine findSome?_of_unique (fun w hw => hu w (List.mem_cons_of_mem _ hw)) ⟨z, ?_, hzx⟩
      rcases List.mem_cons.mp hz with rfl | hz
      · rw [hy] at hzx
        cases hzx
      · exact hz
    · rw [hy]

theorem mapM_eq_some_map {α β : Type} {f : α → Option β} {g : α → β} :
    ∀ {l : List α}, (∀ x ∈ l, f x = some (g x)) → l.mapM f = some (l.map g)
  | [], _ => rfl
  | x :: l, h => by
    rw [List.mapM_cons, h x (List.mem_cons_self _ _),
      mapM_eq_some_map fun y hy => h y (List.mem_cons_of_mem _ hy)]
    rfl

/-! ### Blocks -/

theorem dataKeyInit_val_mod (inum : Nat) {b : Nat} (hb : b < 2 ^ 29) : (dataKeyInit inum b).val % 2 ^ 29 = b := by
  simp only [dataKeyInit, Nat.mod_eq_of_lt (show b < 2 ^ 32 by omega)]
  apply Nat.eq_of_testBit_eq
  intro i
  simp only [Nat.testBit_mod_two_pow, Nat.testBit_or, ubifsDataKey, ubifsSKeyBlockBits, Nat.shiftLeft_eq,
    Nat.one_mul, Nat.testBit_two_pow]
  by_cases hi : i < 29
  · simp [hi, show 29 ≠ i by omega]
  · have h29 : 2 ^ 29 ≤ 2 ^ i := Nat.pow_le_pow_right (by decide) (by omega)
    simp [hi, Nat.testBit_eq_false_of_lt (lt_of_lt_of_le hb h29)]

/-- Below 2^29, distinct blocks of an inode have distinct keys. -/
theorem dataKeyInit_inj {inum b b' : Nat} (hb : b < 2 ^ 29) (hb' : b' < 2 ^ 29)
    (h : dataKeyInit inum b = dataKeyInit inum b') : b = b' := by
  rw [← dataKeyInit_val_mod inum hb, ← dataKeyInit_val_mod inum hb', h]

theorem body_of_mem_leafNodes {m : Nat} {n : Node} :
    ∀ {ls : List (Key × Option Bytes × NodeBody × Nat)}, n ∈ leafNodes m ls → ∃ l ∈ ls, n.body = l.2.2.1
  | [], h => absurd h (List.not_mem_nil _)
  | l :: rest, h => by
    simp only [leafNodes, List.mem_cons] at h
    rcases h with rfl | h
    · exact ⟨l, List.mem_cons_self _ _, rfl⟩
    · obtain ⟨l', hl', hb⟩ := body_of_mem_leafNodes h
      exact ⟨l', List.mem_cons_of_mem _ hl', hb⟩

theorem eq_replicate_of_allZero {buf : Bytes} (h : allZero buf = true) : buf = List.replicate buf.length 0 :=
  List.eq_replicate_iff.mpr ⟨rfl, fun x hx => by simpa using List.all_eq_true.mp h x hx⟩

theorem chunk_length_le (d : Bytes) (i : Nat) : (chunk d i).length ≤ ubifsBlockSize :=
  List.length_take_le _ _

section File
variable {e : Env} {inum flags : Nat} {dec : Nat → Bytes → Option Bytes} {d : Bytes}

/-- Among the nodes of a file's data leaves, the data node of a block below 2^29 is the one
add_file wrote for it, when the block is not all zero, and there is none otherwise. -/
theorem dataAt_plainLeaves (hc : chunkCount d ≤ 2 ^ 29) {b : Nat} (hb : b < chunkCount d) (m : Nat) :
    dataAt (leafNodes m (plainLeaves e inum flags 0 d)) inum b =
      if allZero (chunk d b) then none
      else some ⟨dataKeyInit inum b, (chunk d b).length, (compressData e.codecs (chunk d b) (useCompr e flags)).1, 0,
        (compressData e.codecs (chunk d b) (useCompr e flags)).2⟩ := by
  -- each node is the leaf of a block i, which answers for b only when i = b
  have hnode : ∀ n ∈ leafNodes m (plainLeaves e inum flags 0 d), ∃ i < chunkCount d, allZero (chunk d i) = false ∧
      n.body = (plainLeaf e inum flags i (chunk d i)).2.2.1 := fun n hn => by
    obtain ⟨l, hl, hbody⟩ := body_of_mem_leafNodes hn
    obtain ⟨i, hi, rfl⟩ := List.mem_map.mp hl
    obtain ⟨hi, hz⟩ := List.mem_filter.mp hi
    exact ⟨i, List.mem_range.mp hi, by simpa using hz, by rw [hbody, Nat.zero_add]⟩
  unfold dataAt
  split
  · rename_i hz
    refine List.findSome?_eq_none_iff.mpr fun n hn => ?_
    obtain ⟨i, hi, hiz, hbody⟩ := hnode n hn
    have hib : i ≠ b := fun h => by rw [h, hz] at hiz; cases hiz
    rw [hbody]
    dsimp only [plainLeaf]
    rw [if_neg fun h => hib (dataKeyInit_inj (by omega) (by omega) h)]
  · rename_i hz
    refine findSome?_of_unique (fun n hn => ?_) ?_
    · obtain ⟨i, hi, -, hbody⟩ := hnode n hn
      rw [hbody]
      dsimp only [plainLeaf]
      by_cases hib : i = b
      · subst hib
        exact .inr (if_pos rfl)
      · exact .inl (if_neg fun h => hib (dataKeyInit_inj (by omega) (by omega) h))
    · obtain ⟨q, hq⟩ := mem_leafNodes (List.mem_map_of_mem (fun i => plainLeaf e inum flags (0 + i) (chunk d i))
        (mem_dataBlocks (Bool.eq_false_iff.mpr hz))) m
      refine ⟨_, hq, ?_⟩
      dsimp only [plainLeaf]
      rw [Nat.zero_add, if_pos rfl]

/-- Each block of a file below 2^29 reads back from its data leaves as the block, padded:
decompressed from its data node, or zeros for a block that is all zero. -/
theorem readBlockAt_plainLeaves (hk : Decodes e.codecs dec) (hc : chunkCount d ≤ 2 ^ 29) {b : Nat}
    (hb : b < chunkCount d) (m : Nat) {M : List Node} (hM : ∀ n ∈ M, ∀ dn, n.body ≠ .data dn) :
    readBlockAt dec (leafNodes m (plainLeaves e inum flags 0 d) ++ M) inum b = some (padBlock (chunk d b)) := by
  have hMn : dataAt M inum b = none := List.findSome?_eq_none_iff.mpr fun n hn => by
    split
    · rename_i dn hdn
      exact absurd hdn (hM n hn dn)
    · rfl
  unfold readBlockAt
  rw [dataAt_append, hMn, Option.or_none, dataAt_plainLeaves hc hb]
  by_cases hz : allZero (chunk d b)
  · rw [if_pos hz, padBlock, eq_replicate_of_allZero hz, List.length_replicate, ← List.replicate_add,
      Nat.add_sub_cancel' (by simpa using chunk_length_le d b)]
  · rw [if_neg hz]
    dsimp only
    rw [hk.decodes_compressData]
    exact if_pos rfl

/-- The blocks of a file, each padded to a block, hold the file and then zeros. -/
theorem flatten_padBlock_chunks (d : Bytes) :
    ∃ z, ((List.range (chunkCount d)).map fun i => padBlock (chunk d i)).flatten = d ++ z := by
  by_cases hd : d = []
  · subst hd
    exact ⟨[], rfl⟩
  obtain ⟨z, hz⟩ := flatten_padBlock_chunks (d.drop ubifsBlockSize)
  rw [chunkCount_drop hd, List.range_succ_eq_map, List.map_cons, List.flatten_cons, List.map_map]
  have hrest : ((fun i => padBlock (chunk d i)) ∘ Nat.succ) = fun i => padBlock (chunk (d.drop ubifsBlockSize) i) :=
    funext fun i => by simp only [Function.comp, chunk_succ]
  rw [hrest, hz, chunk_zero]
  by_cases hl : ubifsBlockSize ≤ d.length
  · -- a full block: no padding, then the rest of the file
    refine ⟨z, ?_⟩
    rw [padBlock, List.length_take, min_eq_left hl, Nat.sub_self, List.replicate_zero, List.append_nil,
      ← List.append_assoc, List.take_append_drop]
  · -- the last block: the file, then zeros
    rw [List.drop_eq_nil_of_le (by omega)] at hz ⊢
    rw [List.take_of_length_le (by omega)]
    exact ⟨_, by rw [padBlock, List.append_assoc]⟩
termination_by d.length
decreasing_by
  simp only [List.length_drop, ubifsBlockSize]
  have := List.length_pos.mpr hd
  omega

/-- A file of at most 2^29 blocks reads back from its data leaves, with any nodes after them that
are not data nodes. -/
theorem readFile_plainLeaves (hk : Decodes e.codecs dec) (hc : chunkCount d ≤ 2 ^ 29) (m : Nat) {M : List Node}
    (hM : ∀ n ∈ M, ∀ dn, n.body ≠ .data dn) :
    readFile dec (leafNodes m (plainLeaves e inum flags 0 d) ++ M) inum d.length = some d := by
  unfold readFile
  rw [show (d.length + ubifsBlockSize - 1) / ubifsBlockSize = chunkCount d from rfl,
    mapM_eq_some_map fun b hb => readBlockAt_plainLeaves hk hc (List.mem_range.mp hb) m hM]
  obtain ⟨z, hz⟩ := flatten_padBlock_chunks d
  rw [Option.map_some', hz, List.take_left]

end File

/-! ### add_file -/

section AddFile
variable {e : Env} {path : Bytes} {hf : HostFile} {st : Stat} {inum flags : Nat} {dec : Nat → Bytes → Option Bytes}
  {s s' : Mkfs} {u : Unit}

/-- A successful block loop of add_file without encryption, on a file read in full blocks,
returns the file size and wrote exactly the file's data leaves. -/
theorem addFileBlocks_leaves {d : Bytes} {blockNo fs n : Nat} {t : Mkfs}
    (h : (addFileBlocks e inum flags none ⟨d, []⟩ blockNo fs).run t = .ok (n, s')) :
    n = fs + d.length ∧ Leaves e.info (plainLeaves e inum flags blockNo d) t s' := by
  rw [addFileBlocks] at h
  split at h
  rename_i buf ret cur' hr
  rw [readBlock_full] at hr
  simp only [Prod.mk.injEq] at hr
  obtain ⟨rfl, rfl, rfl⟩ := hr
  by_cases hd : d = []
  · subst hd
    simp only [List.take_nil, List.length_nil, dite_true, run_pure, Except.ok.injEq, Prod.mk.injEq] at h
    obtain ⟨rfl, rfl⟩ := h
    exact ⟨rfl, .nil⟩
  have hpos := List.length_pos.mpr hd
  have htl : (d.take ubifsBlockSize).length = min ubifsBlockSize d.length := List.length_take ..
  rw [dif_neg (by simp only [htl, ubifsBlockSize] at *; omega)] at h
  rw [plainLeaves_cons hd]
  -- the loop goes on exactly when the block was full, with the bytes after it
  have next : ∀ s₁, (if (if ubifsBlockSize ≤ d.length then ubifsBlockSize else 0) ≠ 0 then
        addFileBlocks e inum flags none ⟨d.drop ubifsBlockSize, []⟩ (blockNo + 1) (fs + (d.take ubifsBlockSize).length)
      else pure (fs + (d.take ubifsBlockSize).length)).run s₁ = .ok (n, s') →
      n = fs + d.length ∧ Leaves e.info (plainLeaves e inum flags (blockNo + 1) (d.drop ubifsBlockSize)) s₁ s' := by
    intro s₁ h₁
    by_cases hr : ubifsBlockSize ≤ d.length
    · rw [if_pos hr, if_pos (by decide)] at h₁
      obtain ⟨hn, hl⟩ := addFileBlocks_leaves h₁
      exact ⟨by rw [hn, htl, List.length_drop, min_eq_left hr]; omega, hl⟩
    · rw [if_neg hr, if_neg (by decide)] at h₁
      simp only [run_pure, Except.ok.injEq, Prod.mk.injEq] at h₁
      obtain ⟨rfl, rfl⟩ := h₁
      rw [List.drop_eq_nil_of_le (by omega), plainLeaves_nil, htl, min_eq_right (by omega)]
      exact ⟨rfl, .nil⟩
  by_cases hz : allZero (d.take ubifsBlockSize)
  · simp only [hz, if_true, List.nil_append] at h ⊢
    exact next t h
  · simp only [hz, if_false, Bool.false_eq_true, plainLeaf, encryptDataStep, pure_bind, List.singleton_append] at h ⊢
    generalize compressData e.codecs (d.take ubifsBlockSize) (useCompr e flags) = cd at h ⊢
    obtain ⟨ct, out⟩ := cd
    obtain ⟨_, s₁, h₁, h₂⟩ := run_bind_ok.mp h
    obtain ⟨hn, hl⟩ := next s₁ h₂
    exact ⟨hn, .cons h₁ hl⟩
termination_by d.length
decreasing_by
  simp only [List.length_drop, ubifsBlockSize]
  omega

/-- add_file reads a file whose reads return something as if read in full blocks. -/
theorem addFile_reads {fctx : Option Bytes} (hc : ∀ c ∈ hf.reads, 0 < c) :
    addFile e path hf st inum flags fctx = addFile e path { hf with reads := [] } st inum flags fctx := by
  unfold addFile
  rw [addFileBlocks_positive ⟨hf.data, hf.reads⟩ ⟨hf.data, []⟩ hc (fun _ h => nomatch h) rfl]

theorem xattrNodes_no_data (xs : List (Bytes × Bytes)) (h m : Nat) :
    ∀ n ∈ xattrNodes e st inum xs h m, ∀ dn, n.body ≠ .data dn := by
  induction xs generalizing h m with
  | nil => exact fun _ hn => absurd hn (List.not_mem_nil _)
  | cons x rest ih =>
    intro n hn dn hb
    rw [xattrNodes, List.mem_cons, List.mem_cons] at hn
    rcases hn with rfl | rfl | hn
    · cases hb
    · cases hb
    · exact ih _ _ n hn dn hb

/-- add_inode writes no data node. -/
theorem inodeNodes_no_data {d : Bytes} {xattrPath : Option (Bytes × List (Bytes × Bytes))} {fctx : Option Bytes}
    {h m c : Nat} : ∀ n ∈ inodeNodes e st inum d flags xattrPath fctx h m c, ∀ dn, n.body ≠ .data dn := by
  intro n hn dn hb
  rcases List.mem_append.mp hn with hn | hn
  · exact xattrNodes_no_data _ _ _ n hn dn hb
  · rw [List.mem_singleton.mp hn] at hb
    cases hb

/-- Whatever the chunking of its reads, a regular file of at most 2^29 blocks that add_file
writes without encryption reads back from the nodes it wrote: block by block, each data node
decompressed and each block that is all zero read as zeros, up to st_size. -/
theorem addFile_readBack (hk : Decodes e.codecs dec) (hc : ∀ c ∈ hf.reads, 0 < c)
    (hb : chunkCount hf.data ≤ 2 ^ 29) (h : (addFile e path hf st inum flags none).run s = .ok (u, s')) :
    ∃ N, s'.nodes = s.nodes ++ N ∧ readFile dec N inum st.stSize = some hf.data := by
  rw [addFile_reads hc] at h
  obtain ⟨n, s₁, h₁, hn, h₂⟩ := addFile_ok h
  obtain ⟨hn', hl⟩ := addFileBlocks_leaves h₁
  obtain ⟨hN₁, -⟩ := hl.nodes
  obtain ⟨d', -, hN₂, -⟩ := addInode_nodes h₂
  refine ⟨_, by rw [hN₂, hN₁, List.append_assoc], ?_⟩
  rw [← hn, hn', Nat.zero_add]
  exact readFile_plainLeaves hk hb _ inodeNodes_no_data

/-- The decompressor of a build without compressors: the bytes stored under UBIFS_COMPR_NONE. -/
def storedBytes (t : Nat) (o : Bytes) : Option Bytes := if t = ubifsComprNone then some o else none

theorem decodes_smallEnv : Decodes smallEnv.codecs storedBytes :=
  ⟨fun _ => rfl, fun _ h => (by cases h), fun _ h => (by cases h), fun _ h => (by cases h)⟩

theorem addFile_readBack_chunkedFile :
    Decodes smallEnv.codecs storedBytes ∧ (∀ c ∈ chunkedFile.reads, 0 < c) ∧ chunkCount chunkedFile.data ≤ 2 ^ 29 ∧
      ∃ s', (addFile smallEnv (ascii "/r/f") chunkedFile chunkedFile.st 65 0 none).run (Mkfs.init smallInfo) =
          .ok ((), s') ∧
        ∃ N, s'.nodes = (Mkfs.init smallInfo).nodes ++ N ∧
          readFile storedBytes N 65 chunkedFile.st.stSize = some chunkedFile.data := by
  have hc : ∀ c ∈ chunkedFile.reads, 0 < c := by decide
  have hrun : ∃ s₁ s', (addFile smallEnv (ascii "/r/f") { chunkedFile with reads := [] } chunkedFile.st 65 0 none).run
        (Mkfs.init smallInfo) = .ok ((), s') ∧
      Leaves smallInfo (plainLeaves smallEnv 65 0 0 chunkedFile.data) (Mkfs.init smallInfo) s₁ ∧
      (addInode smallEnv chunkedFile.st 65 [] 0 (some (ascii "/r/f", [])) none).run s₁ = .ok ((), s') ∧
      HeadOk smallInfo s'.flash.head :=
    addFile_plain rfl (by decide) (by decide) ⟨by decide, by decide⟩ rfl rfl rfl (by decide)
  obtain ⟨-, s', h, -, -, -⟩ := hrun
  rw [← addFile_reads hc] at h
  exact ⟨decodes_smallEnv, hc, by decide, s', h, addFile_readBack decodes_smallEnv hc (by decide) h⟩

end AddFile

end MkfsUbifs
