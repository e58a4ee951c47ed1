import MkfsUbifs.Media

/-! # Compression of a data block

compress_data as the builder calls it for each block of a file. The compressors themselves
(lzo1x_999_compress, deflate, ZSTD_compressCCtx) are library code: a compressor is a function
that either fails or returns its output. A compressor the build was configured without is
absent. favor_lzo_compress compares the two outputs in double arithmetic, which Float is. -/

namespace MkfsUbifs

/-- The compressors of the build and the favor-LZO options. Each compressor returns its output,
or none where the C wrapper returns an error. -/
structure Codecs where
  lzo : Option (Bytes → Option Bytes)
  zlib : Option (Bytes → Option Bytes)
  zstd : Option (Bytes → Option Bytes)
  favorLzo : Bool
  favorPercent : Nat

/-- The compressor add_file falls back to for a file with FS_COMPR_FL when the default is none:
LZO if built in, else zlib, else none. -/
def Codecs.fallback (k : Codecs) : Nat :=
  if k.lzo.isSome then ubifsComprLzo else if k.zlib.isSome then ubifsComprZlib else ubifsComprNone

/-- favor_lzo_compress: LZO unless zlib succeeded and beat LZO by more than favor_percent
percent, the percentage computed as a double. -/
def favorLzoCompress (lzo zlib : Bytes → Option Bytes) (favorPercent : Nat) (inBuf : Bytes) :
    Option (Nat × Bytes) :=
  match lzo inBuf, zlib inBuf with
  | none, none => none
  | some l, none => some (ubifsComprLzo, l)
  | none, some z => some (ubifsComprZlib, z)
  | some l, some z =>
    if l.length ≤ z.length then some (ubifsComprLzo, l)
    else
      let percent := Float.ofNat z.length / Float.ofNat l.length * 100
      if percent > Float.ofInt (100 - (favorPercent : Int)) then some (ubifsComprLzo, l)
      else some (ubifsComprZlib, z)

/-- The compressor a request names, run on the block: none for a failure, for a type the build
lacks, and for UBIFS_COMPR_NONE. -/
def runCompressor (k : Codecs) (type : Nat) (inBuf : Bytes) : Option Bytes :=
  let codec := if type = ubifsComprLzo then k.lzo else if type = ubifsComprZlib then k.zlib
    else if type = ubifsComprZstd then k.zstd else none
  codec.bind fun f => f inBuf

/-- compress_data: the type stored and the bytes stored. A block shorter than
UBIFS_MIN_COMPR_LEN, a failed compressor, and an output no shorter than the block are stored
as they are. -/
def compressData (k : Codecs) (inBuf : Bytes) (type : Nat) : Nat × Bytes :=
  if inBuf.length < ubifsMinComprLen then (ubifsComprNone, inBuf)
  else
    let r : Option (Nat × Bytes) :=
      match k.favorLzo, k.lzo, k.zlib with
      | true, some lzo, some zlib => favorLzoCompress lzo zlib k.favorPercent inBuf
      | _, _, _ => (runCompressor k type inBuf).map fun out => (type, out)
    match r with
    | some (t, out) => if out.length ≥ inBuf.length then (ubifsComprNone, inBuf) else (t, out)
    | none => (ubifsComprNone, inBuf)

/-! ### What compress_data returns -/

section Spec
variable {lzo zlib : Bytes → Option Bytes} {p : Nat} {inBuf out : Bytes} {t : Nat}

/-- favor_lzo_compress hands back LZO's output, or zlib's when LZO failed or was longer. -/
theorem favorLzoCompress_some (h : favorLzoCompress lzo zlib p inBuf = some (t, out)) :
    (t = ubifsComprLzo ∧ lzo inBuf = some out) ∨
      (t = ubifsComprZlib ∧ zlib inBuf = some out ∧ ∀ l, lzo inBuf = some l → out.length < l.length) := by
  unfold favorLzoCompress at h
  split at h
  · cases h
  · cases h
    exact .inl ⟨rfl, ‹_›⟩
  · cases h
    rename_i hl hz
    exact .inr ⟨rfl, hz, fun l h => by rw [hl] at h; cases h⟩
  · rename_i l z hl hz
    split at h
    · cases h
      exact .inl ⟨rfl, hl⟩
    · dsimp only at h
      split at h <;> cases h
      · exact .inl ⟨rfl, hl⟩
      · exact .inr ⟨rfl, hz, fun l' h' => by rw [hl] at h'; cases h'; omega⟩

theorem runCompressor_lzo {k : Codecs} (h : k.lzo = some lzo) : runCompressor k ubifsComprLzo inBuf = lzo inBuf := by
  simp [runCompressor, h]

theorem runCompressor_zlib {k : Codecs} (h : k.zlib = some zlib) :
    runCompressor k ubifsComprZlib inBuf = zlib inBuf := by
  simp [runCompressor, h, ubifsComprZlib, ubifsComprLzo]

/-- compress_data stores the block as it is, or the output of the compressor whose type it
returns, which succeeded on a block of at least UBIFS_MIN_COMPR_LEN bytes and is shorter than
it. In favor mode zlib's output is stored only when LZO failed or gave a longer one. -/
theorem compressData_codec (k : Codecs) (inBuf : Bytes) (type : Nat) :
    compressData k inBuf type = (ubifsComprNone, inBuf) ∨
      (ubifsMinComprLen ≤ inBuf.length ∧
        runCompressor k (compressData k inBuf type).1 inBuf = some (compressData k inBuf type).2 ∧
        (compressData k inBuf type).2.length < inBuf.length ∧
        ∀ lzo zlib, k.favorLzo = true → k.lzo = some lzo → k.zlib = some zlib →
          (compressData k inBuf type).1 = ubifsComprZlib →
            ∀ l, lzo inBuf = some l → (compressData k inBuf type).2.length < l.length) := by
  unfold compressData
  split
  · exact .inl rfl
  rename_i hmin
  -- the compressor's result, before the length test
  obtain ⟨r, hr⟩ : ∃ r, (match k.favorLzo, k.lzo, k.zlib with
      | true, some lzo, some zlib => favorLzoCompress lzo zlib k.favorPercent inBuf
      | _, _, _ => (runCompressor k type inBuf).map fun out => (type, out)) = r := ⟨_, rfl⟩
  have hspec : ∀ t out, r = some (t, out) → runCompressor k t inBuf = some out ∧
      ∀ lzo zlib, k.favorLzo = true → k.lzo = some lzo → k.zlib = some zlib → t = ubifsComprZlib →
        ∀ l, lzo inBuf = some l → out.length < l.length := by
    intro t out ht
    subst hr
    split at ht
    · rename_i lzo zlib hf hl hz
      refine ⟨?_, fun lzo' zlib' _ hl' hz' htz => ?_⟩
      · rcases favorLzoCompress_some ht with ⟨rfl, h⟩ | ⟨rfl, h, -⟩
        · rw [runCompressor_lzo hl, h]
        · rw [runCompressor_zlib hz, h]
      · cases hl.symm.trans hl'
        cases hz.symm.trans hz'
        rcases favorLzoCompress_some ht with ⟨rfl, -⟩ | ⟨-, -, h⟩
        · cases htz
        · exact h
    · rename_i hn
      obtain ⟨out', ho, he⟩ := Option.map_eq_some'.mp ht
      cases he
      exact ⟨ho, fun lzo zlib hf hl hz _ => (hn lzo zlib hf hl hz).elim⟩
  rw [hr]
  rcases r with _ | ⟨t, out⟩
  · exact .inl rfl
  · dsimp only
    split
    · exact .inl rfl
    · obtain ⟨hrun, hz⟩ := hspec t out rfl
      exact .inr ⟨Nat.le_of_not_lt hmin, hrun, Nat.lt_of_not_le ‹_›, hz⟩

end Spec

end MkfsUbifs
