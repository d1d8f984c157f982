import Hilti.Maps.Rehash

/-!
# What hash tables hold

The invariant of a table, and what its functions do to the list of its entries.  There is always an
empty bucket, so the loops end; each entry is found from its key, since what is looked at before it
is not empty.
-/

namespace Hilti.Maps

open Hilti.Lib

set_option autoImplicit false

variable {κ ν : Type} {hash : κ → UInt64} {equal : κ → κ → Bool}

/-- What is assumed of the key type's functions for hashing and comparing. -/
structure Coherent (hash : κ → UInt64) (equal : κ → κ → Bool) : Prop extends
    Assoc.Equality equal where
  hash_eq : ∀ a b, equal a b = true → hash a = hash b

def KhTable.cell (h : KhTable κ ν) (i : ℕ) : Option (κ × ν) :=
  if h.flags i = .full then some (h.keys i, h.vals i) else none

/-- The entries in the order of their buckets. -/
def KhTable.entries (h : KhTable κ ν) : List (κ × ν) :=
  (List.range h.nBuckets).filterMap h.cell

def occupied (flags : ℕ → Flag) (n : ℕ) : ℕ :=
  ((List.range n).filterMap fun i => if flags i = .empty then none else some i).length

structure Sound (hash : κ → UInt64) (equal : κ → κ → Bool) (h : KhTable κ ν) : Prop where
  buckets : h.nBuckets ∈ acPrimeList
  lt_of_flag : ∀ i, h.flags i ≠ .empty → i < h.nBuckets
  upper_eq : h.upperBound = hashUpper h.nBuckets
  size_eq : h.size = h.entries.length
  occupied_eq : h.nOccupied = occupied h.flags h.nBuckets
  occupied_le : h.nOccupied ≤ h.upperBound
  distinct : Assoc.Distinct equal h.entries
  reach : ∀ i, h.flags i = .full → Reached hash h.flags h.nBuckets (h.keys i) i

section

variable {h : KhTable κ ν}

theorem ne_empty_of_full {flag : Flag} (hfull : flag = .full) : flag ≠ .empty := by
  rw [hfull]
  decide

theorem mem_entries {e : κ × ν} : e ∈ h.entries ↔ ∃ i < h.nBuckets, h.cell i = some e := by
  simp only [KhTable.entries, List.mem_filterMap, List.mem_range]

theorem cell_eq_some {i : ℕ} {e : κ × ν} :
    h.cell i = some e ↔ h.flags i = .full ∧ (h.keys i, h.vals i) = e := by
  unfold KhTable.cell
  split
  · rename_i hfull
    rw [and_iff_right hfull, Option.some.injEq]
  · rename_i hnot
    exact iff_of_false (fun hcon => nomatch hcon) fun hcon => hnot hcon.1

theorem cell_eq_none {i : ℕ} : h.cell i = none ↔ h.flags i ≠ .full := by
  unfold KhTable.cell
  split
  · rename_i hfull
    exact iff_of_false (fun hcon => nomatch hcon) fun hcon => hcon hfull
  · rename_i hnot
    exact iff_of_true rfl hnot

theorem Sound.mem_of_full (hs : Sound hash equal h) {i : ℕ} (hfull : h.flags i = .full) :
    (h.keys i, h.vals i) ∈ h.entries :=
  mem_entries.mpr ⟨i, hs.lt_of_flag i (ne_empty_of_full hfull), cell_eq_some.mpr ⟨hfull, rfl⟩⟩

theorem Sound.bucket_unique (hc : Coherent hash equal) (hs : Sound hash equal h) {i j : ℕ}
    (hi : h.flags i = .full) (hj : h.flags j = .full)
    (hkeys : equal (h.keys i) (h.keys j) = true) : i = j := by
  by_contra hne
  have hlt := hs.lt_of_flag i (ne_empty_of_full hi)
  have hlt' := hs.lt_of_flag j (ne_empty_of_full hj)
  have hsplit := Assoc.filterMap_split h.cell hlt
  rw [cell_eq_some.mpr ⟨hi, rfl⟩, Option.toList_some] at hsplit
  have hdistinct := hs.distinct.perm hc.toEquality hsplit
  have hmem : (h.keys j, h.vals j) ∈ (List.range h.nBuckets).filterMap
      (Function.update h.cell i none) := by
    refine List.mem_filterMap.mpr ⟨j, List.mem_range.mpr hlt', ?_⟩
    rw [Function.update_of_ne (Ne.symm hne)]
    exact cell_eq_some.mpr ⟨hj, rfl⟩
  have hdiffer := (Assoc.distinct_cons.mp hdistinct).1 _ hmem
  rw [hkeys] at hdiffer
  cases hdiffer

/-! ## Occupied buckets -/

theorem occupied_update (flags : ℕ → Flag) {n x : ℕ} (hx : x < n) {flag : Flag}
    (hflag : flag ≠ .empty) : occupied (Function.update flags x flag) n =
      occupied flags n + if flags x = .empty then 1 else 0 := by
  have hsplit := (Assoc.filterMap_split
    (fun i => if flags i = .empty then none else some i) hx).length_eq
  have hsplit' := (Assoc.filterMap_split
    (fun i => if Function.update flags x flag i = .empty then none else some i) hx).length_eq
  have hsame : Function.update
      (fun i => if Function.update flags x flag i = .empty then none else some i) x none =
      Function.update (fun i => if flags i = .empty then none else some i) x none := by
    funext i
    by_cases heq : i = x
    · rw [heq, Function.update_self, Function.update_self]
    · rw [Function.update_of_ne heq, Function.update_of_ne heq, Function.update_of_ne heq]
  rw [hsame, Function.update_self, if_neg hflag, List.length_append, Option.toList_some,
    List.length_singleton] at hsplit'
  rw [List.length_append] at hsplit
  unfold occupied
  rw [hsplit', hsplit]
  by_cases hempty : flags x = .empty
  · rw [if_pos hempty, if_pos hempty, Option.toList_none, List.length_nil]
    omega
  · rw [if_neg hempty, if_neg hempty, Option.toList_some, List.length_singleton]
    omega

theorem exists_empty_of_occupied (flags : ℕ → Flag) {n : ℕ} (h : occupied flags n < n) :
    ∃ i < n, flags i = .empty := by
  obtain ⟨i, hi, hnone⟩ := Assoc.exists_eq_none _ h
  refine ⟨i, hi, ?_⟩
  by_contra hne
  rw [if_neg hne] at hnone
  cases hnone

theorem entries_length_le (h : KhTable κ ν) : h.entries.length ≤ occupied h.flags h.nBuckets := by
  have hall : ∀ n, ((List.range n).filterMap h.cell).length ≤ occupied h.flags n := by
    intro n
    induction n with
    | zero => exact Nat.le_refl 0
    | succ n ih =>
      unfold occupied at ih ⊢
      rw [List.range_succ, List.filterMap_append, List.filterMap_append, List.length_append,
        List.length_append]
      apply Nat.add_le_add ih
      cases hflag : h.flags n <;> simp [KhTable.cell, hflag]
  exact hall _

theorem Sound.size_le (hs : Sound hash equal h) : h.size ≤ h.nOccupied := by
  rw [hs.size_eq, hs.occupied_eq]
  exact entries_length_le h

/-! ## New tables -/

theorem sound_khInit (keys : ℕ → κ) (vals : ℕ → ν) : Sound hash equal (khInit keys vals) where
  buckets := by
    change 0 ∈ acPrimeList
    decide
  lt_of_flag _ hi := absurd rfl hi
  upper_eq := by
    change 0 = hashUpper 0
    decide
  size_eq := rfl
  occupied_eq := rfl
  occupied_le := le_rfl
  distinct := List.Pairwise.nil
  reach _ hi := nomatch hi

theorem filterMap_eq_nil_of_none {α : Type} (f : ℕ → Option α) (n : ℕ) (hnone : ∀ i, f i = none) :
    (List.range n).filterMap f = [] :=
  List.filterMap_eq_nil_iff.mpr fun i _ => hnone i

theorem khClear_spec (hs : Sound hash equal h) :
    Sound hash equal (khClear h) ∧ (khClear h).entries = [] := by
  unfold khClear
  split
  · rename_i hzero
    refine ⟨hs, ?_⟩
    rw [KhTable.entries, hzero]
    rfl
  · have hnil : (KhTable.entries { h with flags := fun _ => .empty, size := 0, nOccupied := 0 }) = [] :=
      filterMap_eq_nil_of_none _ _ fun i => cell_eq_none.mpr fun hcon => nomatch hcon
    have hocc : occupied (fun _ => .empty) h.nBuckets = 0 :=
      congrArg List.length (filterMap_eq_nil_of_none _ _ fun i => if_pos rfl)
    refine ⟨⟨hs.buckets, fun i hi => absurd rfl hi, hs.upper_eq, ?_, hocc.symm, Nat.zero_le _, ?_,
      fun i hi => nomatch hi⟩, hnil⟩
    · rw [hnil]
      rfl
    · rw [hnil]
      exact List.Pairwise.nil

/-! ## Resizing -/

theorem khResize_spec (hc : Coherent hash equal) (hs : Sound hash equal h) {newNBuckets n : ℕ}
    (hnext : acPrimeList[primeIndex newNBuckets 31 + 1]? = some n) (hpos : n ≠ 0)
    (hroom : h.size < hashUpper n) : ∃ h', khResize hash h newNBuckets = some h' ∧
      Sound hash equal h' ∧ h'.entries.Perm h.entries ∧ h'.nBuckets = n ∧ h'.nOccupied = h.size := by
  have hn : n ∈ acPrimeList := List.mem_of_getElem? hnext
  obtain ⟨-, -, hupper⟩ := acPrimeList_prime hn hpos
  have hlength : h.entries.length ≤ n := by
    rw [← hs.size_eq]
    omega
  have hstart : Rehashing hash h.nBuckets n h.entries []
      ⟨h.flags, fun _ => .empty, h.keys, h.vals⟩ := by
    refine ⟨fun i hi => absurd rfl hi, fun i hi => hs.lt_of_flag i (ne_empty_of_full hi),
      fun i hi => absurd rfl hi, fun i hi => (nomatch hi), fun i hi => (nomatch hi), ?_⟩
    have hcell : Rehash.cell ⟨h.flags, fun _ => .empty, h.keys, h.vals⟩ = h.cell := by
      funext i
      simp only [Rehash.cell, KhTable.cell, reduceCtorEq, or_false]
    have hbeyond : ∀ i ≥ h.nBuckets, h.cell i = none := by
      intro i hi
      rw [cell_eq_none]
      intro hfull
      have hlt := hs.lt_of_flag i (ne_empty_of_full hfull)
      omega
    rw [List.nil_append, hcell, Assoc.filterMap_range_add _ hbeyond]
    exact List.Perm.refl _
  obtain ⟨r, hr, hdone, hmoved⟩ := rehashBucket_spec hn hpos hlength hstart h.nBuckets
  have hold : ∀ i, r.flags i ≠ .full := fun i hfull => hmoved i (hdone.old_lt i hfull) hfull
  set h' : KhTable κ ν := ⟨n, h.size, h.size, hashUpper n, r.newFlags, r.keys, r.vals⟩ with hh'
  have hcell : r.cell = h'.cell := by
    funext i
    simp only [Rehash.cell, KhTable.cell, hold i, false_or, hh']
  have hentries : h'.entries.Perm h.entries := by
    have hbeyond : ∀ i ≥ n, h'.cell i = none := by
      intro i hi
      rw [cell_eq_none]
      intro hfull
      have hlt := hdone.new_lt i (ne_empty_of_full hfull)
      omega
    have hperm := hdone.entries
    rw [List.nil_append, hcell, Nat.add_comm, Assoc.filterMap_range_add _ hbeyond] at hperm
    exact hperm
  have hocc : occupied r.newFlags n = h'.entries.length := by
    have hsame : ∀ m, occupied r.newFlags m = ((List.range m).filterMap h'.cell).length := by
      intro m
      induction m with
      | zero => rfl
      | succ m ih =>
        unfold occupied at ih ⊢
        rw [List.range_succ, List.filterMap_append, List.filterMap_append, List.length_append,
          List.length_append, ih]
        congr 1
        cases hflag : r.newFlags m with
        | full => simp [KhTable.cell, hh', hflag]
        | deleted => exact absurd hflag (hdone.new_full m)
        | empty => simp [KhTable.cell, hh', hflag]
    exact hsame n
  refine ⟨h', ?_, ⟨hn, hdone.new_lt, rfl, ?_, ?_, ?_, ?_, hdone.reach⟩, hentries, rfl, rfl⟩
  · rw [khResize, hnext, Option.bind_some, if_neg (not_le.mpr hroom), hr, Option.map_some]
  · rw [hentries.length_eq]
    exact hs.size_eq
  · change h.size = occupied r.newFlags n
    rw [hocc, hentries.length_eq]
    exact hs.size_eq
  · exact hroom.le
  · exact hs.distinct.perm hc.toEquality hentries.symm

end

end Hilti.Maps
