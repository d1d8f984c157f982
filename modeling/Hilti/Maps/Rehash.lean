import Hilti.Maps.Khash

/-!
# Resizing hash tables

Entries are moved to their new buckets in place.  At any time an entry is in a bucket that has not
been moved yet, in one that has been filled, or in the hands of the loop; and each one that is in a
new bucket is found from there, for what is filled is not emptied again.
-/

namespace Hilti.Maps

open Hilti.Lib

set_option autoImplicit false

variable {κ ν : Type} {hash : κ → UInt64} {equal : κ → κ → Bool}

/-! ## The buckets looked at for a key -/

/-- The `j`-th bucket that is looked at. -/
def khPlace (hash : κ → UInt64) (n : ℕ) (key : κ) (j : ℕ) : ℕ :=
  Probing.place n (khStart hash n key) (khInc hash n key) j

def Reached (hash : κ → UInt64) (flags : ℕ → Flag) (n : ℕ) (key : κ) (i : ℕ) : Prop :=
  ∃ j < n, khPlace hash n key j = i ∧ ∀ k < j, flags (khPlace hash n key k) ≠ .empty

section

variable (hash) {n : ℕ} (hn : n ∈ acPrimeList) (hpos : n ≠ 0) (key : κ)
include hn hpos

theorem khInc_lt : khInc hash n key < n := by
  obtain ⟨-, hthree, -⟩ := acPrimeList_prime hn hpos
  have hmod := Nat.mod_lt (hash key).toNat (show 0 < n - 1 by omega)
  unfold khInc
  omega

theorem khInc_coprime : Nat.Coprime (khInc hash n key) n := by
  obtain ⟨hprime, -, -⟩ := acPrimeList_prime hn hpos
  have hlt := khInc_lt hash hn hpos key
  have hne : khInc hash n key ≠ 0 := by
    unfold khInc
    omega
  exact (Nat.coprime_of_lt_prime hne hlt hprime).symm

omit hn in
theorem khPlace_zero : khPlace hash n key 0 = khStart hash n key :=
  Probing.place_zero (Nat.mod_lt _ (Nat.pos_of_ne_zero hpos))

omit hn in
theorem khPlace_lt (j : ℕ) : khPlace hash n key j < n :=
  Probing.place_lt (Nat.pos_of_ne_zero hpos) j

theorem khNext_khPlace (j : ℕ) :
    khNext n (khInc hash n key) (khPlace hash n key j) = khPlace hash n key (j + 1) :=
  Probing.place_succ (Nat.pos_of_ne_zero hpos) (khInc_lt hash hn hpos key) j

theorem khPlace_inj {j k : ℕ} (hj : j < n) (hk : k < n)
    (h : khPlace hash n key j = khPlace hash n key k) : j = k :=
  Probing.place_inj (khInc_coprime hash hn hpos key) hj hk h

theorem exists_first_place (stop : ℕ → Prop) {i : ℕ} (hi : i < n) (hstop : stop i) :
    ∃ j < n, stop (khPlace hash n key j) ∧ ∀ k < j, ¬stop (khPlace hash n key k) :=
  Probing.exists_first (khInc_coprime hash hn hpos key) hi hstop

end

theorem Reached.mono {flags flags' : ℕ → Flag} {n : ℕ} {key : κ} {i : ℕ}
    (h : Reached hash flags n key i) (hmono : ∀ i, flags i ≠ .empty → flags' i ≠ .empty) :
    Reached hash flags' n key i := by
  obtain ⟨j, hj, hplace, hbefore⟩ := h
  exact ⟨j, hj, hplace, fun k hk => hmono _ (hbefore k hk)⟩

theorem update_ne_empty (flags : ℕ → Flag) (x : ℕ) {flag : Flag} (hflag : flag ≠ .empty) (i : ℕ)
    (h : flags i ≠ .empty) : Function.update flags x flag i ≠ .empty := by
  by_cases heq : i = x
  · rw [heq, Function.update_self]
    exact hflag
  · rw [Function.update_of_ne heq]
    exact h

theorem update_deleted_eq_full (flags : ℕ → Flag) (x i : ℕ) :
    Function.update flags x .deleted i = .full ↔ flags i = .full ∧ i ≠ x := by
  by_cases heq : i = x
  · rw [heq, Function.update_self]
    exact iff_of_false (by decide) fun hcon => hcon.2 rfl
  · rw [Function.update_of_ne heq, and_iff_left heq]

theorem probeEmpty_spec {n : ℕ} (hn : n ∈ acPrimeList) (hpos : n ≠ 0) {newFlags : ℕ → Flag}
    (key : κ) {i : ℕ} (hi : i < n) (hempty : newFlags i = .empty) :
    ∃ x < n, probeEmpty newFlags n (khInc hash n key) n (khStart hash n key) = some x ∧
      newFlags x = .empty ∧ Reached hash newFlags n key x := by
  obtain ⟨j, hj, hstop, hbefore⟩ :=
    exists_first_place hash hn hpos key (fun i => newFlags i = .empty) hi hempty
  have hloop : ∀ m fuel, m ≤ j → j - m < fuel →
      probeEmpty newFlags n (khInc hash n key) fuel (khPlace hash n key m) =
        some (khPlace hash n key j) := by
    intro m fuel
    induction fuel generalizing m with
    | zero => intro _ hfuel; omega
    | succ fuel ih =>
      intro hm hfuel
      unfold probeEmpty
      by_cases heq : m = j
      · subst heq
        rw [if_neg (not_not.mpr hstop)]
      · rw [if_pos (hbefore m (by omega)), khNext_khPlace hash hn hpos]
        exact ih (m + 1) (by omega) (by omega)
  refine ⟨khPlace hash n key j, khPlace_lt hash hpos key j, ?_, hstop, j, hj, rfl, hbefore⟩
  have hrun := hloop 0 n (Nat.zero_le j) (by omega)
  rwa [khPlace_zero hash hpos] at hrun

/-! ## Moving entries -/

def Rehash.cell (r : Rehash κ ν) (i : ℕ) : Option (κ × ν) :=
  if r.flags i = .full ∨ r.newFlags i = .full then some (r.keys i, r.vals i) else none

/-- The invariant.  `pending` is in the hands of the loop, `all` are the entries of the table. -/
structure Rehashing (hash : κ → UInt64) (nOld n : ℕ) (all pending : List (κ × ν))
    (r : Rehash κ ν) : Prop where
  apart : ∀ i, r.newFlags i ≠ .empty → r.flags i ≠ .full
  old_lt : ∀ i, r.flags i = .full → i < nOld
  new_lt : ∀ i, r.newFlags i ≠ .empty → i < n
  new_full : ∀ i, r.newFlags i ≠ .deleted
  reach : ∀ i, r.newFlags i = .full → Reached hash r.newFlags n (r.keys i) i
  entries : (pending ++ (List.range (nOld + n)).filterMap r.cell).Perm all

section

variable {nOld n : ℕ} {all rest : List (κ × ν)} {r : Rehash κ ν} {key : κ} {val : ν}

theorem Rehashing.exists_empty (h : Rehashing hash nOld n all ((key, val) :: rest) r)
    (hlt : all.length ≤ n) : ∃ i < n, r.newFlags i = .empty := by
  by_contra hcon
  have hfull : ∀ i < n, r.newFlags i = .full := by
    intro i hi
    cases hflag : r.newFlags i with
    | full => rfl
    | deleted => exact absurd hflag (h.new_full i)
    | empty => exact absurd ⟨i, hi, hflag⟩ hcon
  have hlength : ((List.range n).filterMap r.cell).length = n := by
    rw [List.filterMap_length_eq_length.mpr, List.length_range]
    intro i hi
    rw [Rehash.cell, if_pos (.inr (hfull i (List.mem_range.mp hi)))]
    rfl
  have hsub : ((List.range n).filterMap r.cell).length ≤
      ((List.range (nOld + n)).filterMap r.cell).length :=
    ((List.range_sublist.mpr (Nat.le_add_left n nOld)).filterMap r.cell).length_le
  have hall := h.entries.length_eq
  rw [List.length_append, List.length_cons] at hall
  omega

theorem Rehashing.fill (h : Rehashing hash nOld n all [(key, val)] r) {x : ℕ} (hx : x < n)
    (hempty : r.newFlags x = .empty) (hreach : Reached hash r.newFlags n key x)
    (flags : ℕ → Flag) (moved : List (κ × ν))
    (hflags : ∀ i, flags i = .full ↔ r.flags i = .full ∧ i ≠ x)
    (hmoved : moved = (r.cell x).toList) :
    Rehashing hash nOld n all moved
      ⟨flags, Function.update r.newFlags x .full, Function.update r.keys x key,
        Function.update r.vals x val⟩ := by
  have hgrow := update_ne_empty r.newFlags x (show Flag.full ≠ .empty by decide)
  refine ⟨fun i hi hfull => ?_, fun i hi => h.old_lt i ((hflags i).mp hi).1, fun i hi => ?_,
    fun i => ?_, fun i hi => ?_, ?_⟩
  · obtain ⟨hold, hne⟩ := (hflags i).mp hfull
    change Function.update r.newFlags x .full i ≠ .empty at hi
    rw [Function.update_of_ne hne] at hi
    exact h.apart i hi hold
  · change Function.update r.newFlags x .full i ≠ .empty at hi
    by_cases heq : i = x
    · exact heq ▸ hx
    · rw [Function.update_of_ne heq] at hi
      exact h.new_lt i hi
  · change Function.update r.newFlags x .full i ≠ .deleted
    by_cases heq : i = x
    · rw [heq, Function.update_self]
      decide
    · rw [Function.update_of_ne heq]
      exact h.new_full i
  · change Function.update r.newFlags x .full i = .full at hi
    change Reached hash (Function.update r.newFlags x .full) n (Function.update r.keys x key i) i
    by_cases heq : i = x
    · subst heq
      rw [Function.update_self]
      exact hreach.mono hgrow
    · rw [Function.update_of_ne heq] at hi
      rw [Function.update_of_ne heq]
      exact (h.reach i hi).mono hgrow
  · have hcell : ∀ i, i ≠ x → Rehash.cell ⟨flags, Function.update r.newFlags x .full,
        Function.update r.keys x key, Function.update r.vals x val⟩ i = r.cell i := by
      intro i hne
      simp only [Rehash.cell, Function.update_of_ne hne, hflags, and_iff_left hne]
    have hself : Rehash.cell ⟨flags, Function.update r.newFlags x .full,
        Function.update r.keys x key, Function.update r.vals x val⟩ x = some (key, val) := by
      simp only [Rehash.cell, Function.update_self, or_true, if_true]
    set r' : Rehash κ ν := ⟨flags, Function.update r.newFlags x .full,
      Function.update r.keys x key, Function.update r.vals x val⟩ with hr'
    have hothers : Function.update r'.cell x none = Function.update r.cell x none := by
      funext i
      by_cases heq : i = x
      · rw [heq, Function.update_self, Function.update_self]
      · rw [Function.update_of_ne heq, Function.update_of_ne heq, hcell i heq]
    have hx' : x < nOld + n := by omega
    have hbefore := Assoc.filterMap_split r.cell hx'
    have hafter := Assoc.filterMap_split r'.cell hx'
    rw [hself, hothers] at hafter
    set others := (List.range (nOld + n)).filterMap (Function.update r.cell x none) with hothers
    have hswap : (moved ++ ([(key, val)] ++ others)).Perm ([(key, val)] ++ (moved ++ others)) := by
      rw [← List.append_assoc, ← List.append_assoc]
      exact List.perm_append_comm.append_right _
    have hback : (moved ++ others).Perm ((List.range (nOld + n)).filterMap r.cell) :=
      hmoved ▸ hbefore.symm
    exact ((hafter.append_left moved).trans hswap).trans ((hback.append_left _).trans h.entries)

def waiting (flags : ℕ → Flag) (nOld : ℕ) : ℕ :=
  ((List.range nOld).filterMap fun i => if flags i = .full then some i else none).length

theorem waiting_le (flags : ℕ → Flag) (nOld : ℕ) : waiting flags nOld ≤ nOld :=
  (List.length_filterMap_le _ _).trans List.length_range.le

theorem waiting_update (flags : ℕ → Flag) {x : ℕ} (hx : x < nOld) (hfull : flags x = .full) :
    waiting flags nOld = waiting (Function.update flags x .deleted) nOld + 1 := by
  have hsplit := (Assoc.filterMap_split
    (fun i => if flags i = .full then some i else none) hx).length_eq
  have hsame : Function.update (fun i => if flags i = .full then some i else none) x none =
      fun i => if Function.update flags x .deleted i = .full then some i else none := by
    funext i
    by_cases heq : i = x
    · rw [heq, Function.update_self, Function.update_self, if_neg (by decide)]
    · rw [Function.update_of_ne heq, Function.update_of_ne heq]
  rw [hsame, if_pos hfull, List.length_append, Option.toList_some, List.length_singleton] at hsplit
  rw [waiting, waiting, hsplit, Nat.add_comm]

theorem kickOut_spec (hn : n ∈ acPrimeList) (hpos : n ≠ 0) (hlt : all.length ≤ n) :
    ∀ fuel key val (r : Rehash κ ν), Rehashing hash nOld n all [(key, val)] r →
      waiting r.flags nOld < fuel →
      ∃ r', kickOut hash nOld n fuel key val r = some r' ∧ Rehashing hash nOld n all [] r' ∧
        ∀ i, r'.flags i = .full → r.flags i = .full := by
  intro fuel
  induction fuel with
  | zero => intro _ _ _ _ hfuel; omega
  | succ fuel ih =>
    intro key val r h hfuel
    obtain ⟨i, hi, hempty⟩ := h.exists_empty hlt
    obtain ⟨x, hx, hprobe, hxempty, hreach⟩ := probeEmpty_spec hn hpos key hi hempty
    unfold kickOut
    rw [hprobe, Option.bind_some]
    split
    · rename_i hold
      obtain ⟨hxold, hfull⟩ := hold
      have hcell : r.cell x = some (r.keys x, r.vals x) := if_pos (.inl hfull)
      have hflags := update_deleted_eq_full r.flags x
      have hfill := h.fill hx hxempty hreach (Function.update r.flags x .deleted)
        [(r.keys x, r.vals x)] hflags (by rw [hcell, Option.toList_some])
      have hless := waiting_update r.flags hxold hfull
      obtain ⟨r', hr', hdone, hsub⟩ := ih _ _ _ hfill (by dsimp only; omega)
      exact ⟨r', hr', hdone, fun i hi => ((hflags i).mp (hsub i hi)).1⟩
    · rename_i hold
      have hnot : r.flags x ≠ .full := fun hfull => hold ⟨h.old_lt x hfull, hfull⟩
      have hcell : r.cell x = none := by
        rw [Rehash.cell, if_neg]
        rw [hxempty]
        exact not_or.mpr ⟨hnot, by decide⟩
      have hflags : ∀ i, r.flags i = .full ↔ r.flags i = .full ∧ i ≠ x := by
        intro i
        exact ⟨fun hfull => ⟨hfull, fun heq => hnot (heq ▸ hfull)⟩, And.left⟩
      exact ⟨_, rfl, h.fill hx hxempty hreach r.flags [] hflags (by rw [hcell, Option.toList_none]),
        fun i hi => hi⟩

theorem rehashBucket_spec (hn : n ∈ acPrimeList) (hpos : n ≠ 0) (hlt : all.length ≤ n)
    (h : Rehashing hash nOld n all [] r) (m : ℕ) :
    ∃ r', (List.range m).foldlM (rehashBucket hash nOld n) r = some r' ∧
      Rehashing hash nOld n all [] r' ∧ ∀ i < m, r'.flags i ≠ .full := by
  induction m with
  | zero => exact ⟨r, rfl, h, fun i hi => absurd hi (Nat.not_lt_zero i)⟩
  | succ m ih =>
    obtain ⟨r₁, hr₁, h₁, hdone⟩ := ih
    rw [List.range_succ, List.foldlM_append, hr₁, Option.bind_eq_bind, Option.bind_some,
      List.foldlM_cons, rehashBucket]
    by_cases hfull : r₁.flags m = .full
    · rw [if_pos hfull]
      have hm := h₁.old_lt m hfull
      have hcell : r₁.cell m = some (r₁.keys m, r₁.vals m) := if_pos (.inl hfull)
      have hnew : r₁.newFlags m ≠ .full := fun hcon =>
        h₁.apart m (by rw [hcon]; decide) hfull
      have hflags := update_deleted_eq_full r₁.flags m
      have htaken : Rehashing hash nOld n all [(r₁.keys m, r₁.vals m)]
          { r₁ with flags := Function.update r₁.flags m .deleted } := by
        refine ⟨fun i hi hcon => h₁.apart i hi ((hflags i).mp hcon).1,
          fun i hi => h₁.old_lt i ((hflags i).mp hi).1, h₁.new_lt, h₁.new_full, h₁.reach, ?_⟩
        have hsame : Rehash.cell { r₁ with flags := Function.update r₁.flags m .deleted } =
            Function.update r₁.cell m none := by
          funext i
          by_cases heq : i = m
          · rw [heq, Function.update_self, Rehash.cell, if_neg]
            exact not_or.mpr ⟨fun hcon => ((hflags m).mp hcon).2 rfl, hnew⟩
          · rw [Function.update_of_ne heq]
            simp only [Rehash.cell, hflags, and_iff_left heq]
        have hsplit := Assoc.filterMap_split r₁.cell (show m < nOld + n by omega)
        rw [hcell, Option.toList_some] at hsplit
        rw [hsame]
        exact hsplit.symm.trans h₁.entries
      have hfuel := waiting_le (Function.update r₁.flags m .deleted) nOld
      obtain ⟨r', hr', h', hsub⟩ := kickOut_spec hn hpos hlt (nOld + 1) _ _ _ htaken
        (by dsimp only; omega)
      rw [hr', Option.bind_eq_bind, Option.bind_some]
      refine ⟨r', rfl, h', fun i hi hcon => ?_⟩
      obtain ⟨hold, hne⟩ := (hflags i).mp (hsub i hcon)
      exact hdone i (by omega) hold
    · rw [if_neg hfull, Option.bind_eq_bind, Option.bind_some]
      refine ⟨r₁, rfl, h₁, fun i hi => ?_⟩
      by_cases heq : i = m
      · exact heq ▸ hfull
      · exact hdone i (by omega)

end

end Hilti.Maps
