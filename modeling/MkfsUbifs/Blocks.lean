import MkfsUbifs.Attrs

/-! # The blocks of a file

add_file reads a file block by block and writes a data node for every block that is not all
zero, keyed by data_key_init with the block number. For a file whose reads return all they are
asked for, the blocks are the file's 4096-byte slices and the loop's nodes follow from the data
alone (`addFileBlocks_plain`). Reads that return fewer bytes change nothing: the loop fills the
same blocks whatever the chunking (`addFileBlocks_positive`). data_key_init ORs the block number
into the word whose top three bits hold the key type, so the key of block 2^29 is the key of
block 0. -/

namespace MkfsUbifs

/-! ### Reading in full blocks -/

/-- The read loop on a file whose reads return all they are asked for: the next 4096 bytes, and
a last read that returned 0 unless the block is full. -/
theorem readBlock_full (d : Bytes) :
    readBlock ⟨d, []⟩ [] = (d.take ubifsBlockSize,
      if ubifsBlockSize ≤ d.length then ubifsBlockSize else 0, ⟨d.drop ubifsBlockSize, []⟩) := by
  rw [readBlock]
  simp only [Cursor.read, List.length_nil, Nat.sub_zero, List.headD_nil, min_self, List.tail_nil,
    List.length_take, List.nil_append]
  by_cases hl : ubifsBlockSize ≤ d.length
  · rw [dif_neg (by omega), if_pos hl, min_eq_left hl]
  · rw [if_neg hl]
    by_cases h0 : d.length = 0
    · rw [dif_neg (by omega)]
      simp [List.length_eq_zero.mp h0]
    · rw [dif_pos (by omega), readBlock]
      have hd : d.drop ubifsBlockSize = [] := List.drop_eq_nil_of_le (by omega)
      have ht : d.take ubifsBlockSize = d := List.take_of_length_le (by omega)
      simp [Cursor.read, hd, ht]

section Short
variable {e : Env} {inum flags : Nat} {fctx : Option Bytes}

theorem addFileBlocks_empty {n fs : Nat} : addFileBlocks e inum flags fctx ⟨[], []⟩ n fs = pure fs := by
  rw [addFileBlocks, readBlock_full]
  rfl

/-- A file shorter than a block and not all zero is one data node, keyed by block 0, encrypted
or not; the loop's last read returned 0, and encrypt_data_node's length only decides whether an
empty read follows. -/
theorem addFileBlocks_short {d : Bytes} (h0 : d ≠ []) (hl : d.length < ubifsBlockSize)
    (hz : allZero d = false) :
    addFileBlocks e inum flags fctx ⟨d, []⟩ 0 0 = (do
      let r ← encryptDataStep e fctx 0 ⟨dataKeyInit inum 0, d.length,
        (compressData e.codecs d (useCompr e flags)).1, 0, (compressData e.codecs d (useCompr e flags)).2⟩ 0
      addNode e.info (dataKeyInit inum 0) none (.data r.1) (ubifsDataNodeSz + r.1.data.length)
      pure d.length) := by
  rw [addFileBlocks]
  simp only [readBlock_full, List.take_of_length_le hl.le, List.drop_eq_nil_of_le hl.le,
    if_neg (Nat.not_le.mpr hl), addFileBlocks_empty, ite_self, dif_neg (List.length_pos.mpr h0).ne', hz,
    Bool.false_eq_true, if_false, Nat.zero_add]

end Short

/-- Block i of a file's data: its 4096 bytes from i * 4096 on, fewer at the end. -/
def chunk (d : Bytes) (i : Nat) : Bytes := (d.drop (i * ubifsBlockSize)).take ubifsBlockSize

/-- The number of blocks of a file. -/
def chunkCount (d : Bytes) : Nat := (d.length + ubifsBlockSize - 1) / ubifsBlockSize

/-! ### The data leaves of a file -/

/-- The data leaf add_file writes for block b with contents buf, without encryption. -/
def plainLeaf (e : Env) (inum flags b : Nat) (buf : Bytes) : Key × Option Bytes × NodeBody × Nat :=
  (dataKeyInit inum b, none,
    .data ⟨dataKeyInit inum b, buf.length, (compressData e.codecs buf (useCompr e flags)).1, 0,
      (compressData e.codecs buf (useCompr e flags)).2⟩,
    ubifsDataNodeSz + (compressData e.codecs buf (useCompr e flags)).2.length)

/-- The leaves add_file writes for a file read in full blocks, from block blockNo on, without
encryption: one for each block that is not all zero, in order. -/
def plainLeaves (e : Env) (inum flags blockNo : Nat) (d : Bytes) :
    List (Key × Option Bytes × NodeBody × Nat) :=
  ((List.range (chunkCount d)).filter fun i => !allZero (chunk d i)).map fun i =>
    plainLeaf e inum flags (blockNo + i) (chunk d i)

/-- What add_file stores for a data node: the node itself without an encryption context, else
the node encrypt_data_node returns (the node unchanged where it fails, which add_file does not
survive). -/
def encryptedNode (e : Env) (fctx : Option Bytes) (b : Nat) (dn : DataNode) : DataNode :=
  match fctx with
  | none => dn
  | some f => (e.crypto.encryptDataNode f (b % 2 ^ 32) dn).getD dn

/-- The data leaf add_file writes for block b with contents buf under the encryption context
fctx. -/
def fileLeaf (e : Env) (fctx : Option Bytes) (inum flags b : Nat) (buf : Bytes) :
    Key × Option Bytes × NodeBody × Nat :=
  let dn := encryptedNode e fctx b ⟨dataKeyInit inum b, buf.length,
    (compressData e.codecs buf (useCompr e flags)).1, 0, (compressData e.codecs buf (useCompr e flags)).2⟩
  (dataKeyInit inum b, none, .data dn, ubifsDataNodeSz + dn.data.length)

/-- The leaves add_file writes for a file read in full blocks, from block blockNo on, under the
encryption context fctx: one for each block that is not all zero, in order. -/
def fileLeaves (e : Env) (fctx : Option Bytes) (inum flags blockNo : Nat) (d : Bytes) :
    List (Key × Option Bytes × NodeBody × Nat) :=
  ((List.range (chunkCount d)).filter fun i => !allZero (chunk d i)).map fun i =>
    fileLeaf e fctx inum flags (blockNo + i) (chunk d i)

/-- encrypt_data_node, outside these sources, succeeds under fctx on a node of at most a block,
and the payload it returns is not empty and at most a block long. -/
def EncryptsBlocks (e : Env) (fctx : Option Bytes) : Prop :=
  ∀ f, fctx = some f → ∀ b (dn : DataNode), dn.data.length ≤ ubifsBlockSize →
    ∃ dn', e.crypto.encryptDataNode f b dn = some dn' ∧ dn'.data ≠ [] ∧ dn'.data.length ≤ ubifsBlockSize

theorem encryptsBlocks_none {e : Env} : EncryptsBlocks e none := fun _ h => nomatch h

section Chunks
variable {e : Env} {inum flags blockNo : Nat} {d : Bytes}

theorem chunk_zero : chunk d 0 = d.take ubifsBlockSize := by simp [chunk]

theorem chunk_succ (i : Nat) : chunk d (i + 1) = chunk (d.drop ubifsBlockSize) i := by
  simp only [chunk, List.drop_drop, Nat.succ_mul, Nat.add_comm]

theorem chunkCount_drop (hd : d ≠ []) : chunkCount d = chunkCount (d.drop ubifsBlockSize) + 1 := by
  have := List.length_pos.mpr hd
  simp only [chunkCount, List.length_drop, ubifsBlockSize]
  omega

theorem plainLeaves_nil : plainLeaves e inum flags blockNo [] = [] := rfl

theorem fileLeaves_nil {fctx : Option Bytes} : fileLeaves e fctx inum flags blockNo [] = [] := rfl

theorem fileLeaves_none : fileLeaves e none inum flags blockNo d = plainLeaves e inum flags blockNo d := rfl

theorem fileLeaves_cons {fctx : Option Bytes} (hd : d ≠ []) : fileLeaves e fctx inum flags blockNo d =
    (if allZero (d.take ubifsBlockSize) then []
      else [fileLeaf e fctx inum flags blockNo (d.take ubifsBlockSize)]) ++
      fileLeaves e fctx inum flags (blockNo + 1) (d.drop ubifsBlockSize) := by
  rw [fileLeaves, fileLeaves, chunkCount_drop hd, List.range_succ_eq_map, List.filter_cons,
    List.filter_map, chunk_zero]
  have hm : ((fun i => fileLeaf e fctx inum flags (blockNo + i) (chunk d i)) ∘ Nat.succ) =
      fun i => fileLeaf e fctx inum flags (blockNo + 1 + i) (chunk (d.drop ubifsBlockSize) i) := by
    funext i
    simp only [Function.comp, chunk_succ, Nat.succ_eq_add_one, Nat.add_assoc, Nat.add_comm 1]
  have hf : ((fun i => !allZero (chunk d i)) ∘ Nat.succ) = fun i => !allZero (chunk (d.drop ubifsBlockSize) i) := by
    funext i
    simp only [Function.comp, chunk_succ, Nat.succ_eq_add_one]
  cases hz : allZero (d.take ubifsBlockSize) <;> simp [hm, hf, List.map_map, chunk_zero]

theorem plainLeaves_cons (hd : d ≠ []) : plainLeaves e inum flags blockNo d =
    (if allZero (d.take ubifsBlockSize) then [] else [plainLeaf e inum flags blockNo (d.take ubifsBlockSize)]) ++
      plainLeaves e inum flags (blockNo + 1) (d.drop ubifsBlockSize) :=
  (fileLeaves_cons hd : fileLeaves e none inum flags blockNo d = _)

end Chunks

/-! ### Keys and sizes of data nodes -/

/-- A data key of a block below 2^30 has the data type in its top bits, so add_node takes it
without a name. -/
theorem dataKey_nameOk {inum b : Nat} (hb : b < 2 ^ 30) : NameOk (dataKeyInit inum b) none := by
  have hv : ((b % 2 ^ 32) ||| ubifsDataKey <<< ubifsSKeyBlockBits) >>> ubifsSKeyBlockBits = 1 := by
    simp only [ubifsDataKey, ubifsSKeyBlockBits, Nat.shiftLeft_eq, Nat.one_mul, Nat.shiftRight_eq_div_pow,
      Nat.mod_eq_of_lt (show b < 2 ^ 32 by omega)]
    apply Nat.div_eq_of_lt_le
    · rw [Nat.one_mul]
      exact Nat.le_of_testBit fun i h => by simp [Nat.testBit_or, h]
    · exact Nat.or_lt_two_pow hb (by decide)
  unfold NameOk keyType
  simp only [dataKeyInit]
  rw [hv]
  decide

/-- data_key_init keeps 29 bits of the block number apart from the type: block 2^29 gets the key
of block 0. -/
theorem dataKeyInit_wrap (inum : Nat) : dataKeyInit inum (2 ^ 29) = dataKeyInit inum 0 := by
  simp only [dataKeyInit, Key.mk.injEq, true_and]
  decide

theorem compressData_length_le {k : Codecs} {inBuf : Bytes} {type : Nat} :
    (compressData k inBuf type).2.length ≤ inBuf.length := by
  have stored : ∀ r : Option (Nat × Bytes), (match r with
      | some (t, out) => if out.length ≥ inBuf.length then (ubifsComprNone, inBuf) else (t, out)
      | none => (ubifsComprNone, inBuf)).2.length ≤ inBuf.length := by
    rintro (_ | ⟨t, out⟩)
    · exact le_rfl
    · dsimp only
      split
      · exact le_rfl
      · dsimp only
        omega
  unfold compressData
  split
  · exact le_rfl
  · exact stored _

/-! ### The block loop -/

section Loop
variable {e : Env} {inum flags : Nat} {fctx : Option Bytes}

theorem encryptDataStep_spec (henc : EncryptsBlocks e fctx) {dn : DataNode}
    (hl : dn.data.length ≤ ubifsBlockSize) (b ret : Nat) (s : Mkfs) :
    ∃ r, (encryptDataStep e fctx b dn ret).run s = .ok (r, s) ∧ r.1 = encryptedNode e fctx b dn ∧
      (r.2 = 0 → ret = 0) ∧ r.1.data.length ≤ ubifsBlockSize := by
  cases fctx with
  | none => exact ⟨(dn, ret), rfl, rfl, id, hl⟩
  | some f =>
    obtain ⟨dn', he, hne, hl'⟩ := henc f rfl (b % 2 ^ 32) dn hl
    refine ⟨(dn', dn'.data.length), ?_, by rw [encryptedNode, he]; rfl,
      fun h => absurd (List.length_eq_zero.mp h) hne, hl'⟩
    simp only [encryptDataStep, he]
    rfl

/-- The block loop of add_file on a file read in full blocks, on a head the write head can hold,
under an encryption context whose encrypt_data_node returns a payload: it succeeds, returns the
file size, and writes the file's data leaves. -/
theorem addFileBlocks_fileLeaves (h8 : e.info.lebSize % 8 = 0)
    (hsz : ubifsDataNodeSz + ubifsBlockSize ≤ e.info.lebSize) (henc : EncryptsBlocks e fctx) (d : Bytes)
    (blockNo fs : Nat) (s : Mkfs) (hh : HeadOk e.info s.flash.head) (hb : blockNo + chunkCount d ≤ 2 ^ 30) :
    ∃ s', (addFileBlocks e inum flags fctx ⟨d, []⟩ blockNo fs).run s = .ok (fs + d.length, s') ∧
      Leaves e.info (fileLeaves e fctx inum flags blockNo d) s s' ∧ HeadOk e.info s'.flash.head := by
  -- by induction on a bound of the bytes left, which each block lowers
  generalize hn : d.length = n
  induction n using Nat.strong_induction_on generalizing d blockNo fs s with
  | _ n ih =>
  subst hn
  rw [addFileBlocks]
  split
  rename_i buf ret cur' hr
  rw [readBlock_full] at hr
  simp only [Prod.mk.injEq] at hr
  obtain ⟨rfl, rfl, rfl⟩ := hr
  by_cases hd : d = []
  · subst hd
    exact ⟨s, by simp, .nil, hh⟩
  have hpos := List.length_pos.mpr hd
  have htl : (d.take ubifsBlockSize).length = min ubifsBlockSize d.length := List.length_take ..
  have hc := chunkCount_drop hd
  rw [dif_neg (by simp only [htl, ubifsBlockSize] at *; omega), fileLeaves_cons hd]
  have hdl := List.length_drop ubifsBlockSize d
  -- the loop goes on with the bytes after the block unless the last ret was 0, which only a
  -- block that is not full leaves
  have next : ∀ s₁ r, (r = 0 → d.length < ubifsBlockSize) → HeadOk e.info s₁.flash.head →
      ∃ s', (if r ≠ 0 then
          addFileBlocks e inum flags fctx ⟨d.drop ubifsBlockSize, []⟩ (blockNo + 1)
            (fs + (d.take ubifsBlockSize).length)
        else pure (fs + (d.take ubifsBlockSize).length)).run s₁ = .ok (fs + d.length, s') ∧
        Leaves e.info (fileLeaves e fctx inum flags (blockNo + 1) (d.drop ubifsBlockSize)) s₁ s' ∧
        HeadOk e.info s'.flash.head := by
    intro s₁ r hr hh₁
    by_cases h0 : r = 0
    · have hl := hr h0
      rw [if_neg (not_not.mpr h0), List.drop_eq_nil_of_le (by omega), fileLeaves_nil,
        List.take_of_length_le (by omega)]
      exact ⟨s₁, rfl, .nil, hh₁⟩
    · rw [if_pos h0]
      obtain ⟨s', h, hl, hh'⟩ := ih _ (by rw [hdl]; simp only [ubifsBlockSize]; omega) (d.drop ubifsBlockSize)
        (blockNo + 1) (fs + (d.take ubifsBlockSize).length) s₁ hh₁ (by omega) rfl
      refine ⟨s', ?_, hl, hh'⟩
      rw [h, Nat.add_assoc, ← List.length_append, List.take_append_drop]
  have hret : (if ubifsBlockSize ≤ d.length then ubifsBlockSize else 0) = 0 → d.length < ubifsBlockSize :=
    fun h => Nat.lt_of_not_le fun hle => absurd (if_pos hle ▸ h) (by decide)
  by_cases hz : allZero (d.take ubifsBlockSize)
  · simp only [hz, if_true, List.nil_append]
    exact next s _ hret hh
  · simp only [hz, if_false, Bool.false_eq_true, fileLeaf, List.singleton_append]
    generalize hcd : compressData e.codecs (d.take ubifsBlockSize) (useCompr e flags) = cd
    obtain ⟨ct, out⟩ := cd
    have hout : out.length ≤ ubifsBlockSize := by
      have := hcd ▸ (compressData_length_le :
        (compressData e.codecs (d.take ubifsBlockSize) (useCompr e flags)).2.length ≤ _)
      simp only [htl] at this
      omega
    obtain ⟨⟨dn, r⟩, he, hq, hr, hdn⟩ := encryptDataStep_spec henc
      (show (DataNode.mk (dataKeyInit inum blockNo) (d.take ubifsBlockSize).length ct 0 out).data.length ≤
        ubifsBlockSize from hout) blockNo (if ubifsBlockSize ≤ d.length then ubifsBlockSize else 0) s
    obtain ⟨s₁, h₁, hh₁⟩ := addNode_succeeds (.data dn) (dataKey_nameOk (by omega) :
      NameOk (dataKeyInit inum blockNo) none) h8 hh
      (show ubifsDataNodeSz + dn.data.length ≤ e.info.lebSize from le_trans (Nat.add_le_add_left hdn _) hsz)
    obtain ⟨s', h, hl, hh'⟩ := next s₁ r (fun h => hret (hr h)) hh₁
    rw [← show dn = _ from hq]
    exact ⟨s', by rw [run_bind_of_ok he, run_bind_of_ok h₁]; exact h, .cons h₁ hl, hh'⟩

theorem addFileBlocks_plain (h8 : e.info.lebSize % 8 = 0)
    (hsz : ubifsDataNodeSz + ubifsBlockSize ≤ e.info.lebSize) (d : Bytes) (blockNo fs : Nat) (s : Mkfs)
    (hh : HeadOk e.info s.flash.head) (hb : blockNo + chunkCount d ≤ 2 ^ 30) :
    ∃ s', (addFileBlocks e inum flags none ⟨d, []⟩ blockNo fs).run s = .ok (fs + d.length, s') ∧
      Leaves e.info (plainLeaves e inum flags blockNo d) s s' ∧ HeadOk e.info s'.flash.head :=
  addFileBlocks_fileLeaves h8 hsz encryptsBlocks_none d blockNo fs s hh hb

end Loop

/-! ### Reading in any chunks -/

/-- A reader whose reads return something while the file has bytes left: every cap is positive. -/
def Cursor.Positive (cur : Cursor) : Prop := ∀ c ∈ cur.caps, 0 < c

theorem Cursor.Positive.read {cur : Cursor} (hc : cur.Positive) (n : Nat) :
    (cur.read n).2.Positive :=
  fun c hm => hc c (List.mem_of_mem_tail hm)

theorem Cursor.Positive.read_eq_nil {cur : Cursor} (hc : cur.Positive) {n : Nat} (hn : 0 < n)
    (h : (cur.read n).1.length = 0) : cur.rest = [] := by
  have hcap : 0 < cur.caps.headD n := by
    cases hcs : cur.caps with
    | nil => simpa [hcs] using hn
    | cons c cs => simpa [hcs] using hc c (by simp [hcs])
  simp only [Cursor.read, List.length_take] at h
  exact List.length_eq_zero.mp (by omega)

theorem Cursor.read_append (cur : Cursor) (n : Nat) : (cur.read n).1 ++ (cur.read n).2.rest = cur.rest :=
  List.take_append_drop _ _

theorem Cursor.Positive.read_spec {cur cur' : Cursor} {got : Bytes} {n : Nat} (hc : cur.Positive)
    (hn : 0 < n) (h : cur.read n = (got, cur')) :
    got ++ cur'.rest = cur.rest ∧ got.length ≤ n ∧ (got.length = 0 → cur.rest = []) ∧ cur'.Positive := by
  have hl := cur.read_length_le n
  have ha := cur.read_append n
  have hp := hc.read n
  have he := hc.read_eq_nil hn
  rw [h] at hl ha hp he
  exact ⟨ha, hl, he, hp⟩

/-- The read loop with reads that return something while bytes are left: it takes
min(4096, what buf and the file hold) bytes from the front of the file after buf, its last read
returned 0 exactly when the file ran out first, and the reader left keeps positive caps. -/
theorem readBlock_positive (cur : Cursor) (buf : Bytes) (hc : cur.Positive)
    (hb : buf.length < ubifsBlockSize) :
    (readBlock cur buf).1 ++ (readBlock cur buf).2.2.rest = buf ++ cur.rest ∧
    (readBlock cur buf).1.length = min ubifsBlockSize (buf.length + cur.rest.length) ∧
    ((readBlock cur buf).2.1 = 0 ↔ buf.length + cur.rest.length < ubifsBlockSize) ∧
    (readBlock cur buf).2.2.Positive := by
  induction cur, buf using readBlock.induct with
  | case1 cur buf got cur' h hg ih =>
    obtain ⟨ha, hl, -, hp⟩ := hc.read_spec (by omega) h
    have hr := congrArg List.length ha
    obtain ⟨ih₁, ih₂, ih₃, ih₄⟩ := ih hp (by rw [List.length_append]; omega)
    rw [readBlock]
    simp only [h, dif_pos hg]
    simp only [List.length_append] at ih₂ ih₃ hr
    exact ⟨by rw [ih₁, List.append_assoc, ha], by rw [ih₂]; omega, by rw [ih₃]; omega, ih₄⟩
  | case2 cur buf got cur' h hg =>
    obtain ⟨ha, hl, he, hp⟩ := hc.read_spec (by omega) h
    have hr := congrArg List.length ha
    have h0 : got.length = 0 → cur.rest.length = 0 := fun h => by rw [he h]; rfl
    rw [readBlock]
    simp only [h, dif_neg hg]
    simp only [List.length_append] at hr ⊢
    exact ⟨by rw [List.append_assoc, ha], by omega, by omega, hp⟩

theorem readBlock_same {cur₁ cur₂ : Cursor} (h₁ : cur₁.Positive) (h₂ : cur₂.Positive)
    (hr : cur₁.rest = cur₂.rest) :
    (readBlock cur₁ []).1 = (readBlock cur₂ []).1 ∧
      (readBlock cur₁ []).2.2.rest = (readBlock cur₂ []).2.2.rest ∧
      ((readBlock cur₁ []).2.1 = 0 ↔ (readBlock cur₂ []).2.1 = 0) := by
  obtain ⟨ha₁, hl₁, hz₁, -⟩ := readBlock_positive cur₁ [] h₁ (by decide)
  obtain ⟨ha₂, hl₂, hz₂, -⟩ := readBlock_positive cur₂ [] h₂ (by decide)
  rw [hr] at ha₁ hl₁ hz₁
  obtain ⟨hb, hrest⟩ := List.append_inj (ha₁.trans ha₂.symm) (hl₁.trans hl₂.symm)
  exact ⟨hb, hrest, hz₁.trans hz₂.symm⟩

section Chunking
variable {e : Env} {inum flags : Nat} {fctx : Option Bytes}

/-- add_file's block loop does the same with any two positive readers of the same file: the
data nodes, the failures and the final state do not depend on how the reads were chunked. -/
theorem addFileBlocks_positive (cur₁ cur₂ : Cursor) (h₁ : cur₁.Positive) (h₂ : cur₂.Positive)
    (hr : cur₁.rest = cur₂.rest) (blockNo fileSize : Nat) :
    addFileBlocks e inum flags fctx cur₁ blockNo fileSize =
      addFileBlocks e inum flags fctx cur₂ blockNo fileSize := by
  generalize hn : cur₁.rest.length = n
  induction n using Nat.strong_induction_on generalizing cur₁ cur₂ blockNo fileSize with
  | _ n ih =>
  obtain ⟨hb, hrest, hz⟩ := readBlock_same h₁ h₂ hr
  have hlen := readBlock_rest cur₁ []
  obtain ⟨-, -, -, hp₁⟩ := readBlock_positive cur₁ [] h₁ (by decide)
  obtain ⟨-, -, -, hp₂⟩ := readBlock_positive cur₂ [] h₂ (by decide)
  conv_lhs => rw [addFileBlocks]
  conv_rhs => rw [addFileBlocks]
  rcases hx₁ : readBlock cur₁ [] with ⟨buf₁, ret₁, c₁⟩
  rcases hx₂ : readBlock cur₂ [] with ⟨buf₂, ret₂, c₂⟩
  simp only [hx₁, hx₂] at hb hrest hz hlen hp₁ hp₂
  subst hb
  dsimp only
  by_cases hb0 : buf₁.length = 0
  · simp only [dif_pos hb0]
  rw [List.length_nil] at hlen
  rw [dif_neg hb0, dif_neg hb0, ih c₁.rest.length (by omega) c₁ c₂ hp₁ hp₂ hrest _ _ rfl]
  by_cases h0 : ret₁ = 0
  · obtain rfl := h0
    obtain rfl := hz.mp rfl
    rfl
  · have h0' : ret₂ ≠ 0 := fun h => h0 (hz.mpr h)
    cases fctx with
    | none => simp only [ne_eq, h0, h0', not_false_eq_true, if_true, encryptDataStep, pure_bind]
    | some f =>
      simp only [ne_eq, h0, h0', not_false_eq_true, if_true]
      rfl
end Chunking


/-! ### add_file -/

section File
variable {e : Env} {path : Bytes} {hf : HostFile} {st : Stat} {inum flags : Nat} {s : Mkfs}

theorem addInode_bare_succeeds (hsel : e.selabel = none) (h8 : e.info.lebSize % 8 = 0)
    (hh : HeadOk e.info s.flash.head) (hl : ubifsInoNodeSz ≤ e.info.lebSize) :
    ∃ s', (addInode e st inum [] flags (some (path, [])) none).run s = .ok ((), s') ∧
      HeadOk e.info s'.flash.head := by
  obtain ⟨s', h, hh'⟩ := addNode_succeeds (.ino (inodeBase e st inum [] flags none s.creatSqnum))
    inoKey_nameOk h8 hh (show ubifsInoNodeSz + ([] : Bytes).length ≤ e.info.lebSize by simpa using hl)
  exact ⟨s', by simpa [addInode, inodeDataStep, inodeAddXattrPath, inodeAddSelinuxXattr, hsel,
    inodeAddXattrs, inodeAddFscrypt, inodeBase] using h, hh'⟩

/-- add_file on a regular file without attributes, read in full blocks, in an image without
encryption or label file: its data leaves, then its inode. -/
theorem addFile_plain (hsel : e.selabel = none) (h8 : e.info.lebSize % 8 = 0)
    (hsz : ubifsDataNodeSz + ubifsBlockSize ≤ e.info.lebSize) (hh : HeadOk e.info s.flash.head)
    (hr : hf.reads = []) (hx : hf.xattrs = []) (hs : st.stSize = hf.data.length)
    (hb : chunkCount hf.data ≤ 2 ^ 30) :
    ∃ s₁ s', (addFile e path hf st inum flags none).run s = .ok ((), s') ∧
      Leaves e.info (plainLeaves e inum flags 0 hf.data) s s₁ ∧
      (addInode e st inum [] flags (some (path, [])) none).run s₁ = .ok ((), s') ∧
      HeadOk e.info s'.flash.head := by
  obtain ⟨s₁, h₁, hl, hh₁⟩ := addFileBlocks_plain h8 hsz hf.data 0 0 s hh (by omega)
  obtain ⟨s', h₂, hh'⟩ := addInode_bare_succeeds hsel h8 hh₁
    (by simp only [ubifsInoNodeSz, ubifsDataNodeSz, ubifsBlockSize] at hsz ⊢; omega)
  refine ⟨s₁, s', ?_, hl, h₂, hh'⟩
  unfold addFile
  rw [hr, run_bind_of_ok h₁, hx]
  simpa [hs] using h₂

end File

/-- A three-byte regular file whose reads return a byte at a time. -/
def chunkedFile : HostFile :=
  ⟨⟨sIFREG ||| 0o644, 0, 0, 1, 3, 0, 0, 0, 0, 1, 5⟩, 0, [], [1, 0, 2], [1, 1, 1], []⟩

section Past
variable {e : Env} {path : Bytes} {hf : HostFile} {st : Stat} {inum flags : Nat} {fctx : Option Bytes}

end Past

section Sparse
variable {e : Env} {path : Bytes} {hf : HostFile} {st : Stat} {inum flags : Nat} {s : Mkfs}

theorem lt_chunkCount {d : Bytes} {i : Nat} (h : allZero (chunk d i) = false) : i < chunkCount d := by
  have hne : d.drop (i * ubifsBlockSize) ≠ [] := by
    intro h0
    simp [chunk, h0, allZero] at h
  have := List.length_pos.mpr hne
  simp only [List.length_drop, chunkCount, ubifsBlockSize] at this ⊢
  omega

theorem mem_dataBlocks {d : Bytes} {i : Nat} (h : allZero (chunk d i) = false) :
    i ∈ (List.range (chunkCount d)).filter fun i => !allZero (chunk d i) :=
  List.mem_filter.mpr ⟨List.mem_range.mpr (lt_chunkCount h), by simp [h]⟩

/-- A regular file of more than 2 TiB whose first block and block 2^29 are not all zero: add_file
succeeds, and the index list ends up holding two entries with the same key and no name, the
data nodes of blocks 0 and 2^29. -/
theorem addFile_sparse_keys_collide (hsel : e.selabel = none) (h8 : e.info.lebSize % 8 = 0)
    (hsz : ubifsDataNodeSz + ubifsBlockSize ≤ e.info.lebSize) (hh : HeadOk e.info s.flash.head)
    (hr : hf.reads = []) (hx : hf.xattrs = []) (hs : st.stSize = hf.data.length)
    (hlen : hf.data.length ≤ 2 ^ 30 * ubifsBlockSize)
    (h0 : allZero (chunk hf.data 0) = false) (h1 : allZero (chunk hf.data (2 ^ 29)) = false) :
    ∃ s', (addFile e path hf st inum flags none).run s = .ok ((), s') ∧
      ¬(s'.idxList.map fun x => (x.key, x.name)).Nodup := by
  obtain ⟨s₁, s', h, hl, hi, -⟩ := addFile_plain hsel h8 hsz hh hr hx hs
    (by simp only [chunkCount, ubifsBlockSize] at hlen ⊢; omega)
  refine ⟨s', h, fun hnd => ?_⟩
  obtain ⟨t, ht⟩ := addInode_idxKeys hi
  rw [ht, hl.idxKeys, List.append_assoc] at hnd
  -- the data leaves' keys are those of their block numbers, and blocks 0 and 2^29 share one
  have hd := (List.nodup_append.mp (List.nodup_append.mp hnd).2.1).1
  rw [plainLeaves, List.map_map] at hd
  have := List.inj_on_of_nodup_map hd (mem_dataBlocks h0) (mem_dataBlocks h1)
    (by simp only [Function.comp, plainLeaf, Nat.zero_add, dataKeyInit_wrap])
  exact absurd this (by decide)

/-- A sparse file of 2 TiB and one byte: a 1 at its start and at its end, zeros between. -/
def sparseData : Bytes := (1 :: List.replicate (2 ^ 29 * ubifsBlockSize - 1) 0) ++ [1]

theorem sparseData_length : sparseData.length = 2 ^ 29 * ubifsBlockSize + 1 := by
  rw [sparseData, List.length_append, List.length_cons, List.length_replicate, List.length_singleton]
  decide

theorem sparseData_chunk_zero : allZero (chunk sparseData 0) = false := by
  rw [chunk_zero, sparseData, List.cons_append, show ubifsBlockSize = 4095 + 1 from rfl,
    List.take_succ_cons]
  rfl

theorem sparseData_chunk_last : chunk sparseData (2 ^ 29) = [1] := by
  unfold chunk sparseData
  rw [List.drop_left' (by rw [List.length_cons, List.length_replicate]; decide)]
  rfl

/-- The sparse file as the host shows it, read in full blocks, without attributes. -/
def sparseFile : HostFile :=
  ⟨⟨sIFREG ||| 0o644, 0, 0, 1, 2 ^ 29 * ubifsBlockSize + 1, 0, 0, 0, 0, 1, 9⟩, 0, [], sparseData, [], []⟩

/-- The failing build's root: the sparse file f alone. -/
def sparseRoot : HostFile :=
  ⟨⟨sIFDIR ||| 0o755, 0, 0, 2, 0, 0, 0, 0, 0, 1, 1⟩, 0, [], [], [], [(ascii "f", sparseFile)]⟩

theorem sparseFile_keys_collide :
    ∃ s', (addFile smallEnv (ascii "/r/f") sparseFile sparseFile.st 65 0 none).run (Mkfs.init smallInfo) =
      .ok ((), s') ∧ ¬(s'.idxList.map fun x => (x.key, x.name)).Nodup :=
  addFile_sparse_keys_collide rfl (by decide) (by decide) ⟨by decide, by decide⟩ rfl rfl
    sparseData_length.symm (by rw [show sparseFile.data = sparseData from rfl, sparseData_length]; decide)
    sparseData_chunk_zero (by rw [show sparseFile.data = sparseData from rfl, sparseData_chunk_last]; rfl)

theorem smallEnv_compressData (a : Bytes) (t : Nat) : compressData smallEnv.codecs a t = (ubifsComprNone, a) := by
  unfold compressData runCompressor
  split <;> simp [smallEnv]

theorem sparseData_chunks_differ : chunk sparseData 0 ≠ chunk sparseData (2 ^ 29) := by
  rw [sparseData_chunk_last, chunk_zero]
  intro h
  have := congrArg List.length h
  rw [List.length_take, sparseData_length] at this
  simp [ubifsBlockSize] at this

/-- The same file with its two blocks different, and compression that decompression inverts:
add_file succeeds and writes two different data nodes under one key, so no reader that looks a
block up by its key gets both back. -/
theorem addFile_sparse_blocks_share_key
    (hinj : ∀ a b, compressData e.codecs a (useCompr e flags) = compressData e.codecs b (useCompr e flags) →
      a = b)
    (hsel : e.selabel = none) (h8 : e.info.lebSize % 8 = 0)
    (hsz : ubifsDataNodeSz + ubifsBlockSize ≤ e.info.lebSize) (hh : HeadOk e.info s.flash.head)
    (hr : hf.reads = []) (hx : hf.xattrs = []) (hs : st.stSize = hf.data.length)
    (hlen : hf.data.length ≤ 2 ^ 30 * ubifsBlockSize)
    (h0 : allZero (chunk hf.data 0) = false) (h1 : allZero (chunk hf.data (2 ^ 29)) = false)
    (hne : chunk hf.data 0 ≠ chunk hf.data (2 ^ 29)) :
    ∃ s', (addFile e path hf st inum flags none).run s = .ok ((), s') ∧
      ∃ n₁ ∈ s'.nodes, ∃ n₂ ∈ s'.nodes, ∃ dn₁ dn₂, n₁.body = .data dn₁ ∧ n₂.body = .data dn₂ ∧
        dn₁.key = dn₂.key ∧ dn₁ ≠ dn₂ := by
  obtain ⟨s₁, s', h, hl, hi, -⟩ := addFile_plain hsel h8 hsz hh hr hx hs
    (by simp only [chunkCount, ubifsBlockSize] at hlen ⊢; omega)
  refine ⟨s', h, ?_⟩
  obtain ⟨d, -, hn, -, -⟩ := addInode_nodes hi
  have hsub : ∀ n ∈ leafNodes s.maxSqnum (plainLeaves e inum flags 0 hf.data), n ∈ s'.nodes := by
    intro n hm
    rw [hn, (hl.nodes).1]
    simp [hm]
  obtain ⟨q₀, hq₀⟩ := mem_leafNodes (List.mem_map.mpr ⟨0, mem_dataBlocks h0, rfl⟩) s.maxSqnum
  obtain ⟨q₁, hq₁⟩ := mem_leafNodes (List.mem_map.mpr ⟨2 ^ 29, mem_dataBlocks h1, rfl⟩) s.maxSqnum
  refine ⟨_, hsub _ hq₀, _, hsub _ hq₁, _, _, rfl, rfl,
    by simp only [plainLeaf, Nat.zero_add, dataKeyInit_wrap], fun heq => hne (hinj _ _ ?_)⟩
  simp only [plainLeaf, DataNode.mk.injEq] at heq
  exact Prod.ext heq.2.2.1 heq.2.2.2.2

/-- write_data on that root: add_file writes f where the walk reaches it, then come f's entry and
the root's inode, and the two data nodes under one key stay in the image. -/
theorem sparseRoot_blocks_share_key :
    ∃ s', (writeData smallEnv (some sparseRoot) 0).run (Mkfs.init smallInfo) = .ok ((), s') ∧
      ∃ n₁ ∈ s'.nodes, ∃ n₂ ∈ s'.nodes, ∃ dn₁ dn₂, n₁.body = .data dn₁ ∧ n₂.body = .data dn₂ ∧
        dn₁.key = dn₂.key ∧ dn₁ ≠ dn₂ := by
  have hd : sparseFile.data = sparseData := rfl
  have hs : ({ entryStat smallEnv sparseFile with stNlink := 1 } : Stat).stSize = sparseFile.data.length :=
    sparseData_length.symm
  have hlen : sparseFile.data.length ≤ 2 ^ 30 * ubifsBlockSize := by
    rw [hd, sparseData_length]
    decide
  -- add_file on f: the root's and f's sqnums taken, f numbered 65
  let S : Mkfs := { Mkfs.init smallInfo with maxSqnum := 2, creatSqnum := 2, highestInum := 65 }
  have hS : HeadOk smallInfo S.flash.head := ⟨by decide, by decide⟩
  obtain ⟨s₁, hf₁, n₁, hn₁, n₂, hn₂, dn₁, dn₂, hb₁, hb₂, hk, hne⟩ :
      ∃ s₁, (addFile smallEnv (makePath smallEnv.rootPath (ascii "f")) sparseFile
        { entryStat smallEnv sparseFile with stNlink := 1 } 65 0 none).run S = .ok ((), s₁) ∧ _ :=
    addFile_sparse_blocks_share_key
      (fun a b h => by rw [smallEnv_compressData, smallEnv_compressData] at h; exact (Prod.mk.inj h).2)
      rfl (by decide) (by decide) hS rfl rfl hs hlen (by rw [hd]; exact sparseData_chunk_zero)
      (by rw [hd, sparseData_chunk_last]; rfl) (by rw [hd]; exact sparseData_chunks_differ)
  obtain ⟨s₀, s₁', hf₁', hl, hi, hh₁⟩ :
      ∃ s₀ s₁', (addFile smallEnv (makePath smallEnv.rootPath (ascii "f")) sparseFile
        { entryStat smallEnv sparseFile with stNlink := 1 } 65 0 none).run S = .ok ((), s₁') ∧ _ :=
    addFile_plain rfl (by decide) (by decide) hS rfl rfl hs (by
      rw [chunkCount, hd, sparseData_length]
      decide)
  obtain rfl : s₁ = s₁' := (Prod.mk.inj (Except.ok.inj (hf₁.symm.trans hf₁'))).2
  -- f's entry, then the root's inode
  obtain ⟨s₂, hd₂, hh₂⟩ := addDentNode_succeeds ubifsRootIno (ascii "f") 65 ubifsItypeReg (by decide) hh₁
    (by decide)
  obtain ⟨s₃, hi₃, -⟩ : ∃ s₃, (addDirInode smallEnv (some (smallEnv.rootPath, sparseRoot)) ubifsRootIno
      (ubifsInoNodeSz + align (ubifsDentNodeSz + 1 + 1) 8) 2 (entryStat smallEnv sparseRoot) none).run
        { s₂ with creatSqnum := 1 } = .ok ((), s₃) ∧ _ :=
    addInode_bare_succeeds rfl (by decide) hh₂ (by decide)
  -- nothing was deferred
  have ht : s₃.hashTable = fun _ => [] := by
    rw [addInode_hashTable hi₃]
    change s₂.hashTable = _
    rw [addDentNode_hashTable hd₂, addInode_hashTable hi, hl.hashTable]
    rfl
  have hdef : deferred s₃ = [] := by
    rw [deferred_of_bucket (b := 0) (by decide) fun i _ => by rw [ht], ht]
  -- the nodes of f stay: the flush places, the entry and the inode come after
  have hsub : ∀ n ∈ s₁.nodes, n ∈ ({ s₃ with flash := flushNodes smallEnv.info s₃.flash } : Mkfs).nodes := by
    obtain ⟨_, -, -, hn₂, -⟩ := addDentNode_nodes hd₂
    obtain ⟨_, -, hn₃, -⟩ := addInode_nodes hi₃
    intro n hn
    rw [show ({ s₃ with flash := flushNodes smallEnv.info s₃.flash } : Mkfs).nodes = s₃.nodes by
      simp only [Mkfs.nodes, flushNodes_placed], hn₃, show ({ s₂ with creatSqnum := 1 } : Mkfs).nodes = s₂.nodes
      from rfl, hn₂]
    simp [hn]
  exact ⟨_, writeData_run (fun _ _ h => nomatch h)
    ((congrArg (StateT.run · _) addRootDirectory_run).trans <| addDirectory_run
      (addEntries_nonDir_run (by decide) (by decide) (addNonDir_run (by decide) (by rfl) (by exact hf₁))
        (by exact hd₂) addEntries_nil_run) (by exact hi₃))
    (by rw [hdef]; exact .nil), n₁, hsub _ hn₁, n₂, hsub _ hn₂, dn₁, dn₂, hb₁, hb₂, hk, hne⟩

end Sparse

end MkfsUbifs
