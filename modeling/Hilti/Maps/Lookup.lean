import Hilti.Maps.Table

/-!
# Looking up, inserting and deleting

The loops of `kh_get` and `kh_put` stop at the first bucket that is empty or has the key.  An
insertion uses a bucket on the way there, so the entry is found later.
-/

namespace Hilti.Maps

open Hilti.Lib

set_option autoImplicit false

variable {κ ν : Type} {hash : κ → UInt64} {equal : κ → κ → Bool} {h : KhTable κ ν}

/-! ## The search -/

theorem not_passes_iff {key : κ} {i : ℕ} : h.passes equal key i = false ↔
    h.flags i = .empty ∨ h.flags i = .full ∧ equal (h.keys i) key = true := by
  unfold KhTable.passes
  cases h.flags i <;> simp

theorem khPlace_congr {n : ℕ} {a b : κ} (hab : hash a = hash b) (j : ℕ) :
    khPlace hash n a j = khPlace hash n b j := by
  rw [khPlace, khPlace, khStart, khStart, khInc, khInc, hab]

theorem exists_stop (hc : Coherent hash equal) (hs : Sound hash equal h) (hpos : h.nBuckets ≠ 0)
    (key : κ) : ∃ j < h.nBuckets,
      (∀ k < j, h.passes equal key (khPlace hash h.nBuckets key k) = true) ∧
      h.passes equal key (khPlace hash h.nBuckets key j) = false ∧
      (h.flags (khPlace hash h.nBuckets key j) = .empty ↔
        Assoc.find equal h.entries key = none) := by
  obtain ⟨-, -, hupper⟩ := acPrimeList_prime hs.buckets hpos
  have hle := hs.occupied_le
  rw [hs.occupied_eq, hs.upper_eq] at hle
  obtain ⟨i, hi, hempty⟩ := exists_empty_of_occupied h.flags (show _ < h.nBuckets by omega)
  obtain ⟨j, hj, hstop, hbefore⟩ := exists_first_place hash hs.buckets hpos key
    (fun i => h.passes equal key i = false) hi (not_passes_iff.mpr (.inl hempty))
  refine ⟨j, hj, fun k hk => Bool.not_eq_false _ ▸ hbefore k hk, hstop, ?_⟩
  constructor
  · intro hend
    by_contra hsome
    obtain ⟨e, he⟩ := Option.ne_none_iff_exists'.mp hsome
    obtain ⟨hmem, hkey⟩ := Assoc.find_mem he
    obtain ⟨i, -, hcell⟩ := mem_entries.mp hmem
    obtain ⟨hfull, rfl⟩ := cell_eq_some.mp hcell
    obtain ⟨j', hj', hplace, hway⟩ := hs.reach i hfull
    rw [khPlace_congr (hc.hash_eq _ _ hkey)] at hplace
    have hnot : h.passes equal key (khPlace hash h.nBuckets key j') = false :=
      not_passes_iff.mpr (.inr (hplace.symm ▸ ⟨hfull, hkey⟩))
    have hle : j ≤ j' := not_lt.mp fun hlt => hbefore j' hlt hnot
    cases Nat.lt_or_eq_of_le hle with
    | inl hlt =>
      apply hway j hlt
      rw [khPlace_congr (hc.hash_eq _ _ hkey)]
      exact hend
    | inr heq =>
      rw [heq, hplace, hfull] at hend
      cases hend
  · intro hnone
    cases not_passes_iff.mp hstop with
    | inl hend => exact hend
    | inr hfound =>
      have hdiffer := Assoc.find_eq_none.mp hnone _ (hs.mem_of_full hfound.1)
      rw [hfound.2] at hdiffer
      cases hdiffer

theorem khPlace_succ_ne (hs : Sound hash equal h) (hpos : h.nBuckets ≠ 0) (key : κ) {m : ℕ}
    (hm : m + 1 < h.nBuckets) :
    khNext h.nBuckets (khInc hash h.nBuckets key) (khPlace hash h.nBuckets key m) ≠
      khStart hash h.nBuckets key := by
  rw [khNext_khPlace hash hs.buckets hpos, ← khPlace_zero hash hpos]
  intro hcon
  have hzero := khPlace_inj hash hs.buckets hpos key hm (Nat.pos_of_ne_zero hpos) hcon
  omega

section

variable (hs : Sound hash equal h) (hpos : h.nBuckets ≠ 0) (key : κ) {j : ℕ} (hj : j < h.nBuckets)
  (hpasses : ∀ k < j, h.passes equal key (khPlace hash h.nBuckets key k) = true)
  (hstop : h.passes equal key (khPlace hash h.nBuckets key j) = false)
include hs hpos hj hpasses hstop

theorem khGetLoop_eq : ∀ fuel m, m ≤ j → j - m < fuel →
    khGetLoop equal h key (khInc hash h.nBuckets key) (khStart hash h.nBuckets key) fuel
        (khPlace hash h.nBuckets key m) =
      some (if h.flags (khPlace hash h.nBuckets key j) ≠ .full then h.nBuckets
        else khPlace hash h.nBuckets key j) := by
  intro fuel
  induction fuel with
  | zero => intro _ _ hfuel; omega
  | succ fuel ih =>
    intro m hm hfuel
    unfold khGetLoop
    by_cases heq : m = j
    · subst heq
      rw [if_neg (by rw [hstop]; decide)]
    · rw [if_pos (hpasses m (by omega)), if_neg (khPlace_succ_ne hs hpos key (by omega)),
        khNext_khPlace hash hs.buckets hpos]
      exact ih (m + 1) (by omega) (by omega)

theorem khPutLoop_eq : ∀ fuel m site, m ≤ j → j - m < fuel →
    ∃ site', khPutLoop equal h key (khInc hash h.nBuckets key) (khStart hash h.nBuckets key) fuel
        (khPlace hash h.nBuckets key m) site =
      some (h.nBuckets, khPlace hash h.nBuckets key j, site') ∧
      (site' = site ∨ ∃ k < j, site' = khPlace hash h.nBuckets key k ∧ h.flags site' = .deleted) := by
  intro fuel
  induction fuel with
  | zero => intro _ _ _ hfuel; omega
  | succ fuel ih =>
    intro m site hm hfuel
    unfold khPutLoop
    by_cases heq : m = j
    · subst heq
      rw [if_neg (by rw [hstop]; decide)]
      exact ⟨site, rfl, .inl rfl⟩
    · rw [if_pos (hpasses m (by omega)), if_neg (khPlace_succ_ne hs hpos key (by omega)),
        khNext_khPlace hash hs.buckets hpos]
      obtain ⟨site', hrun, hsite⟩ := ih (m + 1)
        (if h.flags (khPlace hash h.nBuckets key m) = .deleted then khPlace hash h.nBuckets key m
          else site) (by omega) (by omega)
      refine ⟨site', hrun, ?_⟩
      cases hsite with
      | inr hsite => exact .inr hsite
      | inl hsite =>
        by_cases hdeleted : h.flags (khPlace hash h.nBuckets key m) = .deleted
        · rw [if_pos hdeleted] at hsite
          exact .inr ⟨m, by omega, hsite, hsite ▸ hdeleted⟩
        · rw [if_neg hdeleted] at hsite
          exact .inl hsite

end

/-! ## Looking up -/

theorem khGet_spec (hc : Coherent hash equal) (hs : Sound hash equal h) (key : κ) :
    ∃ i, khGet hash equal h key = some i ∧
      ((i = h.nBuckets ∧ Assoc.find equal h.entries key = none) ∨
        ∃ e, i < h.nBuckets ∧ h.cell i = some e ∧ Assoc.find equal h.entries key = some e) := by
  by_cases hpos : h.nBuckets = 0
  · refine ⟨0, if_pos hpos, .inl ⟨hpos.symm, ?_⟩⟩
    rw [KhTable.entries, hpos]
    rfl
  · obtain ⟨j, hj, hpasses, hstop, hend⟩ := exists_stop hc hs hpos key
    have hrun := khGetLoop_eq hs hpos key hj hpasses hstop h.nBuckets 0 (Nat.zero_le j) (by omega)
    rw [khPlace_zero hash hpos] at hrun
    refine ⟨_, (if_neg hpos).trans hrun, ?_⟩
    by_cases hempty : h.flags (khPlace hash h.nBuckets key j) = .empty
    · rw [if_pos (by rw [hempty]; decide)]
      exact .inl ⟨rfl, hend.mp hempty⟩
    · obtain ⟨hfull, hkey⟩ := (not_passes_iff.mp hstop).resolve_left hempty
      rw [if_neg (not_not.mpr hfull)]
      exact .inr ⟨_, khPlace_lt hash hpos key j, cell_eq_some.mpr ⟨hfull, rfl⟩,
        Assoc.find_of_mem hc.toEquality hs.distinct (hs.mem_of_full hfull) hkey⟩

/-! ## Inserting -/

theorem khPutBucket_spec (hc : Coherent hash equal) (hs : Sound hash equal h)
    (hpos : h.nBuckets ≠ 0) (key : κ) : ∃ x < h.nBuckets,
      khPutBucket hash equal h key = some x ∧
      (h.flags x = .full ∧ equal (h.keys x) key = true ∨
        h.flags x ≠ .full ∧ Assoc.find equal h.entries key = none ∧
          Reached hash h.flags h.nBuckets key x) := by
  obtain ⟨j, hj, hpasses, hstop, hend⟩ := exists_stop hc hs hpos key
  have hnonempty : ∀ k < j, h.flags (khPlace hash h.nBuckets key k) ≠ .empty := by
    intro k hk hempty
    have hnot : h.passes equal key (khPlace hash h.nBuckets key k) = false :=
      not_passes_iff.mpr (.inl hempty)
    rw [hpasses k hk] at hnot
    cases hnot
  have hreach : ∀ k ≤ j, Reached hash h.flags h.nBuckets key (khPlace hash h.nBuckets key k) :=
    fun k hk => ⟨k, by omega, rfl, fun l hl => hnonempty l (by omega)⟩
  unfold khPutBucket
  by_cases hfirst : h.flags (khStart hash h.nBuckets key) = .empty
  · rw [if_pos hfirst]
    have hzero : j = 0 := by
      by_contra hne
      apply hnonempty 0 (Nat.pos_of_ne_zero hne)
      rw [khPlace_zero hash hpos]
      exact hfirst
    subst hzero
    rw [khPlace_zero hash hpos] at hend
    refine ⟨_, khPlace_zero hash hpos key ▸ khPlace_lt hash hpos key 0, rfl, .inr ⟨?_, hend.mp hfirst, ?_⟩⟩
    · rw [hfirst]
      decide
    · exact khPlace_zero hash hpos key ▸ hreach 0 (Nat.le_refl 0)
  · obtain ⟨site, hrun, hsite⟩ := khPutLoop_eq hs hpos key hj hpasses hstop h.nBuckets 0 h.nBuckets
      (Nat.zero_le j) (by omega)
    rw [khPlace_zero hash hpos] at hrun
    rw [if_neg hfirst, hrun, Option.map_some, if_pos rfl]
    by_cases hempty : h.flags (khPlace hash h.nBuckets key j) = .empty
    · have hnone := hend.mp hempty
      by_cases hfree : site = h.nBuckets
      · rw [if_neg (fun hcon => hcon.2 hfree)]
        refine ⟨_, khPlace_lt hash hpos key j, rfl, .inr ⟨?_, hnone, hreach j le_rfl⟩⟩
        rw [hempty]
        decide
      · obtain ⟨k, hk, hplace, hdeleted⟩ := hsite.resolve_left hfree
        rw [if_pos ⟨hempty, hfree⟩]
        refine ⟨site, hplace ▸ khPlace_lt hash hpos key k, rfl, .inr ⟨?_, hnone, ?_⟩⟩
        · rw [hdeleted]
          decide
        · exact hplace ▸ hreach k hk.le
    · rw [if_neg (fun hcon => hempty hcon.1)]
      exact ⟨_, khPlace_lt hash hpos key j, rfl, .inl ((not_passes_iff.mp hstop).resolve_left hempty)⟩

theorem Sound.insert (hc : Coherent hash equal) (hs : Sound hash equal h) {key : κ} {x : ℕ}
    (hx : x < h.nBuckets) (hfree : h.flags x ≠ .full)
    (hnone : Assoc.find equal h.entries key = none) (hreach : Reached hash h.flags h.nBuckets key x)
    (hroom : h.nOccupied < h.upperBound) {h' : KhTable κ ν}
    (heq : h' = { h with
      keys := Function.update h.keys x key
      flags := Function.update h.flags x .full
      size := h.size + 1
      nOccupied := h.nOccupied + if h.flags x = .empty then 1 else 0 }) :
    Sound hash equal h' ∧ h'.entries.Perm ((key, h.vals x) :: h.entries) := by
  subst heq
  set h' : KhTable κ ν := { h with
    keys := Function.update h.keys x key
    flags := Function.update h.flags x .full
    size := h.size + 1
    nOccupied := h.nOccupied + if h.flags x = .empty then 1 else 0 } with hh'
  have hgrow := update_ne_empty h.flags x (show Flag.full ≠ .empty by decide)
  have hself : h'.cell x = some (key, h.vals x) := by
    simp only [KhTable.cell, hh', Function.update_self, if_true]
  have hothers : Function.update h'.cell x none = h.cell := by
    funext i
    by_cases hi : i = x
    · rw [hi, Function.update_self]
      exact (cell_eq_none.mpr hfree).symm
    · rw [Function.update_of_ne hi]
      simp only [KhTable.cell, hh', Function.update_of_ne hi]
  have hentries : h'.entries.Perm ((key, h.vals x) :: h.entries) := by
    have hsplit := Assoc.filterMap_split h'.cell hx
    rw [hself, hothers] at hsplit
    exact hsplit
  refine ⟨⟨hs.buckets, fun i hi => ?_, hs.upper_eq, ?_, ?_, ?_, ?_, fun i hi => ?_⟩, hentries⟩
  · by_cases heq : i = x
    · exact heq ▸ hx
    · change Function.update h.flags x .full i ≠ .empty at hi
      rw [Function.update_of_ne heq] at hi
      exact hs.lt_of_flag i hi
  · rw [hentries.length_eq, List.length_cons, ← hs.size_eq]
  · change h.nOccupied + _ = occupied (Function.update h.flags x .full) h.nBuckets
    rw [occupied_update h.flags hx (by decide), hs.occupied_eq]
  · change h.nOccupied + _ ≤ h.upperBound
    split <;> omega
  · refine Assoc.Distinct.perm hc.toEquality ?_ hentries.symm
    refine Assoc.distinct_cons.mpr ⟨fun a ha => ?_, hs.distinct⟩
    rw [hc.toEquality.comm]
    exact Assoc.find_eq_none.mp hnone a ha
  · change Reached hash (Function.update h.flags x .full) h.nBuckets (Function.update h.keys x key i) i
    change Function.update h.flags x .full i = .full at hi
    by_cases heq : i = x
    · subst heq
      rw [Function.update_self]
      exact hreach.mono hgrow
    · rw [Function.update_of_ne heq] at hi
      rw [Function.update_of_ne heq]
      exact (hs.reach i hi).mono hgrow

theorem khMakeRoom_spec (hc : Coherent hash equal) (hs : Sound hash equal h)
    (hroom : h.size * 2 < 4294967291) : ∃ h', khMakeRoom hash h = some h' ∧ Sound hash equal h' ∧
      h'.entries.Perm h.entries ∧ h'.nBuckets ≠ 0 ∧ h'.nOccupied < h'.upperBound := by
  unfold khMakeRoom
  have hsize := hs.size_le
  have hocc := hs.occupied_le
  by_cases hfull : h.nOccupied ≥ h.upperBound
  · rw [if_pos hfull]
    by_cases hdeleted : h.nBuckets > h.size * 2
    · -- enough buckets are deleted ones: as many are enough for what is left
      have hpos : h.nBuckets ≠ 0 := by omega
      have hroom' : h.size < hashUpper h.nBuckets := by
        unfold hashUpper
        omega
      obtain ⟨h', hh', hs', hperm, hn, hocc'⟩ := khResize_spec hc hs
        (acPrimeList_same _ hs.buckets hpos) hpos hroom'
      refine ⟨h', (if_pos hdeleted).trans hh', hs', hperm, hn ▸ hpos, ?_⟩
      rw [hocc', hs'.upper_eq, hn]
      exact hroom'
    · have hne : h.nBuckets ≠ 4294967291 := by omega
      obtain ⟨n, -, hnext, hpos, hupper⟩ := acPrimeList_grow _ hs.buckets hne
      rw [hs.upper_eq] at hocc
      have hroom' : h.size < hashUpper n := by omega
      obtain ⟨h', hh', hs', hperm, hn, hocc'⟩ := khResize_spec hc hs hnext hpos hroom'
      refine ⟨h', (if_neg hdeleted).trans hh', hs', hperm, hn ▸ hpos, ?_⟩
      rw [hocc', hs'.upper_eq, hn]
      exact hroom'
  · rw [if_neg hfull]
    refine ⟨h, rfl, hs, List.Perm.refl _, fun hzero => ?_, not_le.mp hfull⟩
    have hupper := hs.upper_eq
    rw [hzero, show hashUpper 0 = 0 by decide] at hupper
    omega

theorem khPut_spec (hc : Coherent hash equal) (hs : Sound hash equal h) (key : κ)
    (hroom : h.size * 2 < 4294967291) : ∃ r, khPut hash equal h key = some r ∧
      Sound hash equal r.table ∧ r.x < r.table.nBuckets ∧
      ∃ e, r.table.cell r.x = some e ∧
        (r.ret = 0 ∧ Assoc.find equal h.entries key = some e ∧ r.table.entries.Perm h.entries ∨
          r.ret ≠ 0 ∧ Assoc.find equal h.entries key = none ∧ e.1 = key ∧
            r.table.entries.Perm (e :: h.entries)) := by
  obtain ⟨h₁, hroom₁, hs₁, hperm, hpos, hocc⟩ := khMakeRoom_spec hc hs hroom
  obtain ⟨x, hx, hbucket, hcase⟩ := khPutBucket_spec hc hs₁ hpos key
  have hfind := Assoc.find_perm hc.toEquality hs₁.distinct hperm key
  refine ⟨⟨(khPutAt h₁ key x).1, x, (khPutAt h₁ key x).2⟩, ?_, ?_⟩
  · rw [khPut, hroom₁, Option.bind_some, if_neg hpos, hbucket]
    rfl
  · cases hcase with
    | inl hcase =>
      obtain ⟨hfull, hkey⟩ := hcase
      have hat : khPutAt h₁ key x = (h₁, 0) := by
        unfold khPutAt
        rw [hfull]
      rw [hat]
      refine ⟨hs₁, hx, (h₁.keys x, h₁.vals x), cell_eq_some.mpr ⟨hfull, rfl⟩, .inl ⟨rfl, ?_, hperm⟩⟩
      rw [← hfind]
      exact Assoc.find_of_mem hc.toEquality hs₁.distinct (hs₁.mem_of_full hfull) hkey
    | inr hcase =>
      obtain ⟨hfree, hnone, hreach⟩ := hcase
      have hat : (khPutAt h₁ key x).2 ≠ 0 ∧ (khPutAt h₁ key x).1 = { h₁ with
          keys := Function.update h₁.keys x key
          flags := Function.update h₁.flags x .full
          size := h₁.size + 1
          nOccupied := h₁.nOccupied + if h₁.flags x = .empty then 1 else 0 } := by
        unfold khPutAt
        cases hflag : h₁.flags x with
        | full => exact absurd hflag hfree
        | deleted => exact ⟨Nat.succ_ne_zero 1, rfl⟩
        | empty => exact ⟨Nat.succ_ne_zero 0, rfl⟩
      obtain ⟨hs', hentries⟩ := hs₁.insert hc hx hfree hnone hreach hocc hat.2
      refine ⟨hs', ?_, (key, h₁.vals x), ?_, .inr ⟨hat.1, hfind ▸ hnone, rfl, ?_⟩⟩
      · rw [hat.2]
        exact hx
      · rw [hat.2]
        simp only [KhTable.cell, Function.update_self, if_true]
      · exact hentries.trans (hperm.cons _)

/-! ## Changing and deleting -/

/-- The value in a bucket is set. -/
def KhTable.setVal (h : KhTable κ ν) (x : ℕ) (val : ν) : KhTable κ ν :=
  { h with vals := Function.update h.vals x val }

theorem setVal_spec (hc : Coherent hash equal) (hs : Sound hash equal h) {x : ℕ} {e : κ × ν}
    (hcell : h.cell x = some e) (val : ν) : Sound hash equal (h.setVal x val) ∧
      ∃ rest, h.entries.Perm (e :: rest) ∧ (h.setVal x val).entries.Perm ((e.1, val) :: rest) := by
  obtain ⟨hfull, rfl⟩ := cell_eq_some.mp hcell
  have hx := hs.lt_of_flag x (ne_empty_of_full hfull)
  have hself : (h.setVal x val).cell x = some (h.keys x, val) := by
    have hval : (h.setVal x val).vals x = val := by
      simp only [KhTable.setVal, Function.update_self]
    exact cell_eq_some.mpr ⟨hfull, Prod.ext rfl hval⟩
  have hothers : Function.update (h.setVal x val).cell x none = Function.update h.cell x none := by
    funext i
    by_cases hi : i = x
    · rw [hi, Function.update_self, Function.update_self]
    · rw [Function.update_of_ne hi, Function.update_of_ne hi]
      simp only [KhTable.cell, KhTable.setVal, Function.update_of_ne hi]
  have hbefore := Assoc.filterMap_split h.cell hx
  have hafter := Assoc.filterMap_split (h.setVal x val).cell hx
  rw [hcell] at hbefore
  rw [hself, hothers] at hafter
  have hdistinct := hs.distinct.perm hc.toEquality hbefore
  refine ⟨⟨hs.buckets, hs.lt_of_flag, hs.upper_eq, ?_, hs.occupied_eq, hs.occupied_le, ?_,
    hs.reach⟩, _, hbefore, hafter⟩
  · have hlength := hafter.length_eq
    have hlength' := hbefore.length_eq
    rw [Option.toList_some, List.length_append, List.length_singleton] at hlength hlength'
    exact hs.size_eq.trans (hlength'.trans hlength.symm)
  · refine Assoc.Distinct.perm hc.toEquality ?_ hafter.symm
    obtain ⟨hall, hrest⟩ := Assoc.distinct_cons.mp hdistinct
    exact Assoc.distinct_cons.mpr ⟨hall, hrest⟩

theorem khDel_spec (hc : Coherent hash equal) (hs : Sound hash equal h) {x : ℕ} {e : κ × ν}
    (hcell : h.cell x = some e) : Sound hash equal (khDel h x) ∧
      h.entries.Perm (e :: (khDel h x).entries) ∧ (khDel h x).nBuckets = h.nBuckets ∧
      ∀ i, (khDel h x).cell i = if i = x then none else h.cell i := by
  obtain ⟨hfull, rfl⟩ := cell_eq_some.mp hcell
  have hx := hs.lt_of_flag x (ne_empty_of_full hfull)
  have hdel : khDel h x =
      { h with flags := Function.update h.flags x .deleted, size := h.size - 1 } :=
    if_pos ⟨hx.ne, hfull⟩
  rw [hdel]
  set h' : KhTable κ ν :=
    { h with flags := Function.update h.flags x .deleted, size := h.size - 1 } with hh'
  have hcells : ∀ i, h'.cell i = if i = x then none else h.cell i := by
    intro i
    by_cases hi : i = x
    · rw [if_pos hi, hi, cell_eq_none]
      intro hcon
      exact ((update_deleted_eq_full h.flags x x).mp hcon).2 rfl
    · rw [if_neg hi]
      simp only [KhTable.cell, hh', Function.update_of_ne hi]
  have hsame : h'.cell = Function.update h.cell x none := by
    funext i
    rw [hcells]
    by_cases hi : i = x
    · rw [if_pos hi, hi, Function.update_self]
    · rw [if_neg hi, Function.update_of_ne hi]
  have hsplit := Assoc.filterMap_split h.cell hx
  rw [hcell, Option.toList_some, ← hsame] at hsplit
  have hdistinct := hs.distinct.perm hc.toEquality hsplit
  have hflags : ∀ i, Function.update h.flags x .deleted i ≠ .empty → h.flags i ≠ .empty := by
    intro i hi
    by_cases heq : i = x
    · rw [heq, hfull]
      decide
    · rwa [Function.update_of_ne heq] at hi
  refine ⟨⟨hs.buckets, fun i hi => hs.lt_of_flag i (hflags i hi), hs.upper_eq, ?_, ?_,
    hs.occupied_le, (Assoc.distinct_cons.mp hdistinct).2, fun i hi => ?_⟩, hsplit, rfl, hcells⟩
  · have hlength := hsplit.length_eq
    rw [List.length_append, List.length_singleton, ← KhTable.entries, ← hs.size_eq] at hlength
    change h.size - 1 = ((List.range h.nBuckets).filterMap h'.cell).length
    omega
  · change h.nOccupied = occupied (Function.update h.flags x .deleted) h.nBuckets
    rw [occupied_update h.flags hx (by decide), if_neg (ne_empty_of_full hfull), hs.occupied_eq]
    rfl
  · exact (hs.reach i ((update_deleted_eq_full h.flags x i).mp hi).1).mono
      (update_ne_empty h.flags x (by decide))

end Hilti.Maps
