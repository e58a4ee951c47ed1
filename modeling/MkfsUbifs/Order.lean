import Mathlib
import MkfsUbifs.Index

/-! # The order of the index

write_index sorts the index list with qsort and cmp_idx before it packs the leaves into level-0
nodes, and the TNC looks keys up in that order. cmp_idx compares keys the way keys_cmp does, the
inode number first, and falls back to namecmp, which compares names byte by byte with a proper
prefix first and never returns 0. This file states the order cmp_idx stands for, as a
lexicographic order, and shows that cmp_idx computes it exactly. What namecmp gets wrong is the
comparison of an entry with one of the same key and name, itself included: it reports "greater"
both ways. So qsort gives the order only on a list without such pairs, which C's qsort and the
merge sort of the model both need. -/

namespace MkfsUbifs

/-! ### Lists -/

theorem merge_congr {α : Type} {r s : α → α → Bool} {xs ys : List α}
    (h : ∀ a ∈ xs, ∀ b ∈ ys, r a b = s a b) : xs.merge ys r = xs.merge ys s := by
  induction xs generalizing ys with
  | nil => simp
  | cons x xs ihx =>
    induction ys with
    | nil => simp
    | cons y ys ihy =>
      rw [List.cons_merge_cons, List.cons_merge_cons, h x (.head _) y (.head _)]
      split
      · rw [ihx fun a ha b hb => h a (.tail _ ha) b hb]
      · rw [ihy fun a ha b hb => h a ha b (.tail _ hb)]

/-- Merge sort compares two elements of the list only where they stand at different places: two
comparisons that agree on distinct elements of a list without duplicates sort it alike. -/
theorem mergeSort_congr {α : Type} {r s : α → α → Bool} :
    ∀ (n : Nat) {l : List α}, l.length ≤ n → l.Nodup → (∀ a ∈ l, ∀ b ∈ l, a ≠ b → r a b = s a b) →
      l.mergeSort r = l.mergeSort s
  | 0, l, hn, _, _ => by rw [List.eq_nil_of_length_eq_zero (Nat.le_zero.mp hn)]; simp
  | _ + 1, [], _, _, _ => by simp
  | _ + 1, [_], _, _, _ => by simp
  | n + 1, a :: b :: l, hn, hd, h => by
    rw [List.mergeSort, List.mergeSort]
    simp only [List.splitInTwo_fst, List.splitInTwo_snd]
    have hk : ∀ {xs}, List.Sublist xs (a :: b :: l) → ∀ a ∈ xs, ∀ b ∈ xs, a ≠ b → r a b = s a b :=
      fun hs a ha b hb => h a (hs.subset ha) b (hs.subset hb)
    rw [mergeSort_congr n (by simp only [List.length_take, List.length_cons] at *; omega)
        (hd.sublist (List.take_sublist _ _)) (hk (List.take_sublist _ _)),
      mergeSort_congr n (by simp only [List.length_drop, List.length_cons] at *; omega)
        (hd.sublist (List.drop_sublist _ _)) (hk (List.drop_sublist _ _))]
    refine merge_congr fun x hx y hy => ?_
    rw [List.mem_mergeSort] at hx hy
    exact h x (List.mem_of_mem_take hx) y (List.mem_of_mem_drop hy)
      fun hxy => List.disjoint_take_drop hd le_rfl hx (hxy ▸ hy)

/-! ### What cmp_idx stands for -/

/-- The name of an entry as namecmp reads it, byte values in order: none reads as no bytes. -/
def IdxEntry.nameBytes (x : IdxEntry) : List Nat := (x.name.getD []).map UInt8.toNat

/-- The place of an entry in the order of the index: by key, the inode number first, then by
name bytes, a proper prefix first. -/
def IdxEntry.sortKey (x : IdxEntry) : Nat ×ₗ Nat ×ₗ List Nat :=
  toLex (x.key.ino, toLex (x.key.val, x.nameBytes))

theorem uint8_lt_iff {a b : UInt8} : a < b ↔ a.toNat < b.toNat := Iff.rfl

/-- The body of namecmp over two names, against the lexicographic order on their bytes. -/
theorem namecmp_body : ∀ n1 n2 : Bytes,
    (if memcmp (n1.take (min n1.length n2.length)) (n2.take (min n1.length n2.length)) ≠ 0 then
        memcmp (n1.take (min n1.length n2.length)) (n2.take (min n1.length n2.length))
      else if n1.length < n2.length then -1 else 1) =
      if n1.map UInt8.toNat < n2.map UInt8.toNat then -1 else 1
  | [], [] => by simp [memcmp]
  | [], _ :: _ => by simp [memcmp, List.nil_lt_cons]
  | a :: as, [] => by
    have hn : ¬ (a.toNat :: as.map UInt8.toNat) < [] := List.Lex.not_nil_right _ _
    simp [memcmp, hn]
  | a :: as, b :: bs => by
    simp only [List.length_cons, Nat.add_min_add_right, List.take_succ_cons, memcmp, List.map_cons,
      Nat.add_lt_add_iff_right]
    by_cases hab : a < b
    · have hl : (a.toNat :: as.map UInt8.toNat) < b.toNat :: bs.map UInt8.toNat :=
        List.Lex.rel (uint8_lt_iff.mp hab)
      simp [hab, hl]
    by_cases hba : b < a
    · have hl : (b.toNat :: bs.map UInt8.toNat) < a.toNat :: as.map UInt8.toNat :=
        List.Lex.rel (uint8_lt_iff.mp hba)
      simp [hab, hba, not_lt_of_lt hl]
    have he : a.toNat = b.toNat := by rw [uint8_lt_iff] at hab hba; omega
    simp only [hab, hba, if_false, he]
    rw [namecmp_body as bs]
    exact if_congr (List.Lex.cons_iff (r := (· < ·))).symm rfl rfl

theorem namecmp_eq (e1 e2 : IdxEntry) : namecmp e1 e2 = if e1.nameBytes < e2.nameBytes then -1 else 1 :=
  namecmp_body _ _

/-- cmp_idx never returns 0: it is negative where the first entry comes first in the order of
the index, and positive otherwise, also on an entry of the same key and name. -/
theorem cmpIdx_sign (e1 e2 : IdxEntry) :
    (cmpIdx e1 e2 < 0 ↔ e1.sortKey < e2.sortKey) ∧ cmpIdx e1 e2 ≠ 0 := by
  have h : cmpIdx e1 e2 = if e1.sortKey < e2.sortKey then -1 else 1 := by
    simp only [cmpIdx, keysCmp, namecmp_eq, IdxEntry.sortKey, Prod.Lex.lt_iff]
    rcases Nat.lt_trichotomy e1.key.ino e2.key.ino with h | h | h
    · simp [h]
    · rcases Nat.lt_trichotomy e1.key.val e2.key.val with h' | h' | h'
      · simp [h, h']
      · simp [h, h']
      · simp [h, h', Nat.lt_asymm h', h'.ne']
    · simp [h, Nat.lt_asymm h, h.ne']
  rw [h]
  split_ifs with hlt <;> simp [hlt]

/-- qsort with cmp_idx sorts by the strict order of the index. -/
theorem qsortIdx_eq (l : List IdxEntry) : qsortIdx l = l.mergeSort fun a b => a.sortKey < b.sortKey := by
  unfold qsortIdx
  congr
  funext a b
  obtain ⟨hn, h0⟩ := cmpIdx_sign a b
  rw [decide_eq_decide, ← hn]
  omega

/-- When no two entries of the index list share both key and name, the qsort of write_index
only reorders the list, and puts it in strictly increasing order: by key, the inode number
first, then by name bytes with a proper prefix first. -/
theorem qsortIdx_sorted {l : List IdxEntry} (hd : (l.map IdxEntry.sortKey).Nodup) :
    (qsortIdx l).Perm l ∧ ((qsortIdx l).map IdxEntry.sortKey).Sorted (· < ·) := by
  have hp : (qsortIdx l).Perm l := List.mergeSort_perm _ _
  refine ⟨hp, ?_⟩
  have hle : qsortIdx l = l.mergeSort fun a b => a.sortKey ≤ b.sortKey := by
    rw [qsortIdx_eq]
    refine mergeSort_congr _ le_rfl (List.Nodup.of_map _ hd) fun a ha b hb hab => ?_
    have hne : a.sortKey ≠ b.sortKey := fun h => hab (List.inj_on_of_nodup_map hd ha hb h)
    simp [lt_iff_le_and_ne, hne]
  have hs : ((qsortIdx l).map IdxEntry.sortKey).Sorted (· ≤ ·) := by
    rw [hle, List.Sorted, List.pairwise_map]
    refine (List.sorted_mergeSort (fun a b c h₁ h₂ => ?_) (fun a b => ?_) l).imp of_decide_eq_true
    · simp only [decide_eq_true_eq] at h₁ h₂ ⊢
      exact h₁.trans h₂
    · simpa using le_total a.sortKey b.sortKey
  exact hs.lt_of_le ((hp.map _).nodup_iff.mpr hd)

/-- Two entries under different keys. -/
theorem qsortIdx_sorted_pair :
    ([(⟨⟨2, 0⟩, none, 0, 0, 0, []⟩ : IdxEntry), ⟨⟨1, 0⟩, none, 0, 0, 0, []⟩].map IdxEntry.sortKey).Nodup ∧
      (qsortIdx [⟨⟨2, 0⟩, none, 0, 0, 0, []⟩, ⟨⟨1, 0⟩, none, 0, 0, 0, []⟩]).Perm
        [⟨⟨2, 0⟩, none, 0, 0, 0, []⟩, ⟨⟨1, 0⟩, none, 0, 0, 0, []⟩] ∧
      ((qsortIdx [⟨⟨2, 0⟩, none, 0, 0, 0, []⟩, ⟨⟨1, 0⟩, none, 0, 0, 0, []⟩]).map IdxEntry.sortKey).Sorted (· < ·) :=
  ⟨by decide, qsortIdx_sorted (by decide)⟩

end MkfsUbifs
