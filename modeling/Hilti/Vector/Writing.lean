import Hilti.Vector.Growth

/-!
# Writing elements

What `hlt_vector_set` and `hlt_vector_push_back` do, and when they go through.  An index has to
be one of an `int`, there has to be memory for the arrays, and a vector with a manager has to have
room for the timers.
-/

namespace Hilti.Vector

open Hilti.Lib

set_option autoImplicit false

variable {α : Type}

/-! ## New elements -/

section

variable {v v' : Vec α}

def Vec.initialized (v : Vec α) (j : ℕ) : Vec α :=
  { v with elems := v.elems.set j v.defElem }

theorem Vec.Sound.initialized (h : v.Sound) (j : ℕ) : (v.initialized j).Sound where
  last_ge := h.last_ge
  last_lt := h.last_lt
  capacity_pos := h.capacity_pos
  elems_length := by
    rw [Vec.initialized, List.length_set]
    exact h.elems_length
  occupied_length := h.occupied_length
  timers_length := h.timers_length
  fits := h.fits

def Vec.unsetTimer (v : Vec α) (j : ℤ) : Option (Vec α) :=
  if v.tmgr.isSome then v.setTimer j none else some v

theorem fillLoop_succ (k : ℕ) (j : ℤ) (v : Vec α) : fillLoop (k + 1) j v =
    (store v.elems j v.defElem).bind fun elems =>
      (Vec.unsetTimer { v with elems := elems } j).bind fun v =>
        if j + 1 < 2 ^ 31 then fillLoop k (j + 1) v else none := by
  rw [fillLoop, Option.bind_eq_bind]
  congr 1
  funext elems
  rw [Vec.unsetTimer]
  dsimp only
  split <;> rfl

theorem Vec.setTimer_none {j : ℕ} (hj : v.slot j = none)
    (hlt : ∀ l, v.timers = some l → j < l.length) (harmed : v.tmgr.isSome → v.timers.isSome) :
    v.unsetTimer j = some v := by
  rw [Vec.unsetTimer]
  split
  · rename_i hm
    obtain ⟨l, hl⟩ := Option.isSome_iff_exists.mp (harmed hm)
    have hget : l[j]? = some none := by
      simpa [Vec.slot, hl, List.getElem?_eq_getElem (hlt l hl)] using hj
    rw [(Vec.setTimer_spec hl (hlt l hl) none).1, set_eq_self hget, ← hl]
  · rfl

theorem fillLoop_ready (k m : ℕ) (h : v.Sound) (hk : ((m + k : ℕ) : ℤ) ≤ v.capacity)
    (hint : k = 0 ∨ m + k < 2 ^ 31) (harmed : k = 0 ∨ (v.tmgr.isSome → v.timers.isSome))
    (hslot : ∀ j, m ≤ j → v.slot j = none) :
    ∃ v', fillLoop k m v = some v' ∧ v'.Sound ∧ v'.frame = v.frame ∧ v'.occupied = v.occupied ∧
      v'.timers = v.timers ∧
      ∀ j, v'.elems[j]? = if m ≤ j ∧ j < m + k then some v.defElem else v.elems[j]? := by
  induction k generalizing v m with
  | zero =>
    refine ⟨v, rfl, h, rfl, rfl, rfl, fun j => ?_⟩
    rw [if_neg (by omega)]
  | succ k ih =>
    have hm : m < v.elems.length := by
      have hlen := h.elems_length
      omega
    have hmt : ∀ l, v.timers = some l → m < l.length := by
      intro l hl
      have hlen := h.timers_length l hl
      omega
    have harmed' := harmed.resolve_left (by omega)
    have hclear := Vec.setTimer_none (v := v.initialized m) (hslot m le_rfl) hmt harmed'
    obtain ⟨v', heq, hsound, hframe, hoccupied, htimers, helems⟩ :=
      ih (v := v.initialized m) (m + 1) (h.initialized m)
        (by rw [show m + 1 + k = m + (k + 1) by omega]; exact hk) (by omega) (.inr harmed')
        (fun j hj => hslot j (by omega))
    refine ⟨v', ?_, hsound, hframe, hoccupied, htimers, fun j => ?_⟩
    · rw [fillLoop_succ, store_natCast hm, Option.bind_some,
        show (⟨_, _, _, _, _, _, _, _, _, _⟩ : Vec α) = v.initialized m from rfl, hclear,
        Option.bind_some, if_pos (by omega)]
      exact_mod_cast heq
    · rw [helems j]
      by_cases hj : j = m
      · subst hj
        rw [if_neg (by omega), if_pos (by omega)]
        exact List.getElem?_set_self hm
      · have hset : (v.initialized m).elems[j]? = v.elems[j]? := List.getElem?_set_ne (Ne.symm hj)
        rw [hset]
        by_cases hin : m + 1 ≤ j ∧ j < m + 1 + k
        · rw [if_pos hin, if_pos (by omega)]
          rfl
        · rw [if_neg hin, if_neg (by omega)]

theorem fillLoop_eq_some {k : ℕ} {j : ℤ} (h : fillLoop k j v = some v') (hk : 0 < k) :
    j + k < 2 ^ 31 ∧ (v.tmgr.isSome → v.timers.isSome) := by
  induction k generalizing j v with
  | zero => exact absurd hk (lt_irrefl 0)
  | succ k ih =>
    rw [fillLoop_succ] at h
    obtain ⟨elems, -, h⟩ := Option.bind_eq_some_iff.mp h
    obtain ⟨v₁, hv₁, h⟩ := Option.bind_eq_some_iff.mp h
    split at h
    · rename_i hj
      constructor
      · by_cases hk : 0 < k
        · have hrec := (ih h hk).1
          push_cast
          omega
        · obtain rfl : k = 0 := by omega
          push_cast
          omega
      · intro hm
        rw [Vec.unsetTimer, if_pos hm] at hv₁
        obtain ⟨l, hl, -⟩ := Option.bind_eq_some_iff.mp hv₁
        rw [show v.timers = some l from hl]
        rfl
    · cases h

end

variable [Inhabited α]

/-! ## Setting -/

section

variable {v v' : Vec α} {i : ℤ}

/-- The vector after `hlt_vector_set` has allocated memory. -/
def Vec.roomFor (v : Vec α) (i : ℤ) : Option (Vec α) :=
  if i ≥ v.capacity then (growTo i v.capacity).bind fun c => reserve v c else some v

/-- `i` is in use. -/
def Vec.extended (v : Vec α) (i : ℤ) : Vec α :=
  if i > v.last then { v with last := i } else v

theorem vectorSet_eq {w : World α} {n : ℕ} (hv : w.vecs[n]? = some v) (i : ℤ) (val : α) :
    vectorSet w n i val = (v.roomFor i).bind fun v =>
      if v.last + 1 < 2 ^ 31 then
        (fillLoop (i - v.last).toNat (v.last + 1) v).bind fun v =>
          (setEntry (w.setVec n (v.extended i)) n i val).bind fun w => some (w, none)
      else none := by
  simp only [vectorSet, hv, Option.bind_eq_bind, Option.bind_some, Vec.roomFor]
  split
  · rw [Option.bind_assoc]
    rfl
  · rfl

/-- There is memory for the arrays that an index needs. -/
def Vec.RoomFits (v : Vec α) (i : ℤ) : Prop :=
  v.capacity ≤ i → ∀ c ∈ growTo i v.capacity, v.Fits c

instance (v : Vec α) (i : ℤ) : Decidable (v.RoomFits i) :=
  inferInstanceAs (Decidable (_ → _))

theorem Vec.Sound.roomFor (h : v.Sound) (hi : i < 2 ^ 31 - 1) (hfits : v.RoomFits i) :
    ∃ v', v.roomFor i = some v' ∧ v'.Sound ∧ i < v'.capacity ∧
      v'.last = v.last ∧ v'.kind = v.kind ∧
      (∀ j, v'.slot j = v.slot j) ∧ ∀ (j : ℕ) (x : α), v.elems[j]? = some x → v'.elems[j]? = some x := by
  by_cases hc : i ≥ v.capacity
  · obtain ⟨c, hgrow⟩ := growTo_some h.capacity_pos hi
    have hgt := growLoop_gt hgrow
    have hfit := hfits hc c hgrow
    refine ⟨v.grown c, ?_, h.grown (by omega) hfit, hgt, rfl, v.grown_kind c, v.grown_slot c,
      fun j x hx => getElem?_grown hx _ _⟩
    rw [Vec.roomFor, if_pos hc, hgrow, Option.bind_some, reserve_eq, if_neg (by omega),
      if_pos hfit]
  · exact ⟨v, if_neg hc, h, not_le.mp hc, rfl, rfl, fun _ => rfl, fun _ _ hx => hx⟩

theorem Vec.roomFor_eq_some (hroom : v.roomFor i = some v') :
    v.RoomFits i ∧ v'.last = v.last ∧ v'.tmgr = v.tmgr ∧ v'.timers.isSome = v.timers.isSome ∧
      (i < v.capacity → v' = v) := by
  rw [Vec.roomFor] at hroom
  split at hroom
  · rename_i hc
    obtain ⟨c, hgrow, hroom⟩ := Option.bind_eq_some_iff.mp hroom
    have hgt := growLoop_gt hgrow
    rw [reserve_eq, if_neg (by omega)] at hroom
    split at hroom
    · rename_i hfit
      cases hroom
      refine ⟨fun _ c' hc' => ?_, rfl, rfl, Option.isSome_map, fun hlt => absurd hc (not_le.mpr hlt)⟩
      rw [hgrow, Option.mem_some] at hc'
      cases hc'
      exact hfit
    · cases hroom
  · rename_i hc
    cases hroom
    exact ⟨fun hle => absurd hle hc, rfl, rfl, rfl, fun _ => rfl⟩

/-- When `hlt_vector_set` goes through. -/
structure Vec.SetReady (v : Vec α) (i : ℤ) : Prop where
  nonneg : 0 ≤ i
  last_lt : v.last < 2 ^ 31 - 1
  index_lt : i < 2 ^ 31 - 1
  fits : v.RoomFits i
  armed : v.tmgr.isSome → v.last < i ∨ v.timeout ≠ 0 → v.timers.isSome

theorem vectorSet_filled {w : World α} {n : ℕ} (h : w.Linked) (hv : w.vecs[n]? = some v) {i : ℕ}
    (hlast : v.last < 2 ^ 31 - 1) (hi : (i : ℤ) < 2 ^ 31 - 1) (hfits : v.RoomFits i)
    (harmed : v.last < i → v.tmgr.isSome → v.timers.isSome) (val : α) :
    ∃ v', (w.setVec n v').Linked ∧
      vectorSet w n i val = (setEntry (w.setVec n v') n i val).bind (fun w => some (w, none)) ∧
      v'.last = max v.last i ∧ v'.kind = v.kind ∧
      (∀ k : ℕ, (k : ℤ) ≤ v.last → v'.elems[k]? = v.elems[k]?) ∧
      ∀ k : ℕ, v.last < k → (k : ℤ) ≤ i → v'.elems[k]? = some v.defElem := by
  have hsound := h.sound n v hv
  have hge := hsound.last_ge
  obtain ⟨v₁, hroom, hsound₁, hlt₁, hlast₁, hkind₁, hslot₁, helems₁⟩ :=
    hsound.roomFor hi hfits
  have hslots : ∀ j : ℕ, v.last < j → v.slot j = none := by
    intro j hj
    by_contra hne
    obtain ⟨x, hx⟩ := Option.ne_none_iff_exists'.mp hne
    have hle := (h.slot n v j x hv hx).1
    omega
  obtain ⟨-, hdef, htmgr, -, -, htimers⟩ := Vec.kind_eq.mp hkind₁
  have hlast_lt := hsound₁.last_lt
  obtain ⟨m, hm⟩ : ∃ m : ℕ, (m : ℤ) = v.last + 1 := ⟨(v.last + 1).toNat, by omega⟩
  have hcount : (i - v₁.last).toNat = i + 1 - m := by omega
  obtain ⟨v₂, hfill, hsound₂, hframe₂, hoccupied₂, htimers₂, helems₂⟩ :=
    fillLoop_ready (i + 1 - m) m hsound₁ (by omega) (by omega)
      (by
        rw [htmgr, htimers]
        by_cases hlt : v.last < i
        · exact .inr (harmed hlt)
        · exact .inl (by omega))
      (fun j hj => (hslot₁ j).trans (hslots j (by omega)))
  obtain ⟨-, hlast₂, hcap₂, -⟩ := Vec.frame_eq.mp hframe₂
  have hkind₂ : v₂.kind = v.kind := (Vec.kind_of_frame hframe₂).trans hkind₁
  have hslot₂ : ∀ j, v₂.slot j = v.slot j := by
    intro j
    rw [Vec.slot, htimers₂]
    exact hslot₁ j
  have hold : ∀ k : ℕ, (k : ℤ) ≤ v.last → v₂.elems[k]? = v.elems[k]? := by
    intro k hk
    have hlt := (hsound.index hk).1
    rw [helems₂ k, if_neg (by omega), List.getElem?_eq_getElem hlt]
    exact helems₁ k _ (List.getElem?_eq_getElem hlt)
  have hnew : ∀ k : ℕ, v.last < k → (k : ℤ) ≤ i → v₂.elems[k]? = some v.defElem := by
    intro k hk hki
    rw [helems₂ k, if_pos (by omega), hdef]
  have hext : (v₂.extended i).Sound ∧ (v₂.extended i).last = max v.last i ∧
      (v₂.extended i).kind = v₂.kind ∧ (v₂.extended i).elems = v₂.elems ∧
      (v₂.extended i).slot = v₂.slot := by
    rw [Vec.extended]
    split
    · rename_i hgt
      refine ⟨⟨show -1 ≤ (i : ℤ) by omega, ?_, hsound₂.capacity_pos, hsound₂.elems_length,
        hsound₂.occupied_length, hsound₂.timers_length, hsound₂.fits⟩,
        show (i : ℤ) = max v.last i by omega, rfl, rfl, rfl⟩
      rw [hcap₂]
      exact hlt₁
    · exact ⟨hsound₂, by omega, rfl, rfl, rfl⟩
  obtain ⟨hsound₃, hlast₃, hkind₃, helems₃, hslot₃⟩ := hext
  refine ⟨v₂.extended i, ?_, ?_, hlast₃, hkind₃.trans hkind₂, ?_, ?_⟩
  · refine h.update hv hsound₃ (fun j => ?_) (by omega) (.inl ?_)
    · rw [hslot₃]
      exact hslot₂ j
    · exact (Vec.kind_eq.mp (hkind₃.trans hkind₂)).2.2.1
  · rw [vectorSet_eq hv, hroom, Option.bind_some, if_pos (by omega), hcount, hlast₁, ← hm, hfill,
      Option.bind_some]
  · rw [helems₃]
    exact hold
  · rw [helems₃]
    exact hnew

omit [Inhabited α] in
theorem World.expired_setVec {w : World α} {n : ℕ} (hkind : v'.kind = v.kind) :
    (w.setVec n v').Expired v' ↔ w.Expired v := by
  obtain ⟨-, -, htmgr, htimeout, -⟩ := Vec.kind_eq.mp hkind
  exact ⟨fun h => h.congr rfl htmgr.symm htimeout.symm, fun h => h.congr rfl htmgr htimeout⟩

omit [Inhabited α] in
theorem Vec.timersReady_of_kind (hkind : v'.kind = v.kind) : v'.TimersReady ↔ v.TimersReady := by
  obtain ⟨-, -, htmgr, htimeout, -, htimers⟩ := Vec.kind_eq.mp hkind
  rw [Vec.TimersReady, Vec.TimersReady, htmgr, htimeout, htimers]

theorem vectorSet_ready {w : World α} {n : ℕ} (h : w.Linked) (hv : w.vecs[n]? = some v) {i : ℕ}
    (hready : v.SetReady i) (val : α) :
    ∃ w' v', vectorSet w n i val = some (w', none) ∧ w'.Linked ∧ w'.vecs = w.vecs.set n v' ∧
      w'.mgrs.map Mgr.time = w.mgrs.map Mgr.time ∧ v'.last = max v.last i ∧ v'.kind = v.kind ∧
      (w.Expired v → v'.elems[i]? = some v.defElem) ∧ (¬ w.Expired v → v'.elems[i]? = some val) ∧
      (∀ k : ℕ, (k : ℤ) ≤ v.last → k ≠ i → v'.elems[k]? = v.elems[k]?) ∧
      ∀ k : ℕ, v.last < k → k < i → v'.elems[k]? = some v.defElem := by
  obtain ⟨v₁, hlinked, heq, hlast, hkind, hold, hnew⟩ :=
    vectorSet_filled h hv hready.last_lt hready.index_lt hready.fits
      (fun hlt hm => hready.armed hm (.inl hlt)) val
  have hv₁ : (w.setVec n v₁).vecs[n]? = some v₁ := getElem?_set_of_some hv v₁
  have hi : (i : ℤ) ≤ v₁.last := by omega
  obtain ⟨w', v', hset, hlinked', hframe', htimes', hvecs', hyes, hno⟩ :=
    setEntry_ready hlinked hv₁ hi
      ((Vec.timersReady_of_kind hkind).mpr fun hm ht => hready.armed hm (.inr ht)) val
  have hvecs : w'.vecs = w.vecs.set n v' := by
    rw [hvecs', World.setVec, List.set_set]
  have hv' : w'.vecs[n]? = some v' := by
    rw [hvecs]
    exact getElem?_set_of_some hv v'
  obtain ⟨v'', hv'', hframe''⟩ := World.frame_vec hframe' hv'
  obtain rfl : v'' = v₁ := Option.some.inj (hv''.symm.trans hv₁)
  have hlt : i < v''.elems.length := ((hlinked.sound n v'' hv₁).index hi).1
  have hother : ∀ k : ℕ, k ≠ i → v'.elems[k]? = v''.elems[k]? := by
    intro k hk
    by_cases hexp : (w.setVec n v'').Expired v''
    · rw [hyes hexp, List.getElem?_set_ne (Ne.symm hk)]
    · rw [(hno hexp).1, List.getElem?_set_ne (Ne.symm hk)]
  refine ⟨w', v', ?_, hlinked', hvecs, htimes', ?_, (Vec.kind_of_frame hframe'').trans hkind, ?_,
    ?_, ?_, ?_⟩
  · rw [heq, hset, Option.bind_some]
  · rw [(Vec.frame_eq.mp hframe'').2.1, hlast]
  · intro hexp
    rw [hyes ((World.expired_setVec hkind).mpr hexp), List.getElem?_set_self hlt,
      (Vec.kind_eq.mp hkind).2.1]
  · intro hexp
    rw [(hno fun h => hexp ((World.expired_setVec hkind).mp h)).1, List.getElem?_set_self hlt]
  · intro k hk hne
    rw [hother k hne, hold k hk]
  · intro k hk hki
    rw [hother k (by omega), hnew k hk (by omega)]

omit [Inhabited α] in
theorem setEntry_nonneg {w w' : World α} {n : ℕ} {val : α} (h : setEntry w n i val = some w') :
    0 ≤ i := by
  obtain ⟨w₁, -, h⟩ := Option.bind_eq_some_iff.mp h
  obtain ⟨v₁, -, h⟩ := Option.bind_eq_some_iff.mp h
  obtain ⟨elems, helems, -⟩ := Option.bind_eq_some_iff.mp h
  obtain ⟨k, rfl, -⟩ := store_eq_some helems
  omega

theorem setReady_of_some {w : World α} {n : ℕ} (h : w.Linked) (hv : w.vecs[n]? = some v)
    {val : α} {r : World α × Option Excpt} (hset : vectorSet w n i val = some r) :
    v.SetReady i := by
  rw [vectorSet_eq hv] at hset
  obtain ⟨v₁, hroom, hset⟩ := Option.bind_eq_some_iff.mp hset
  obtain ⟨hfits, hlast₁, htmgr₁, htimers₁, hsame⟩ := Vec.roomFor_eq_some hroom
  split at hset
  · rename_i hlast
    obtain ⟨v₂, hfill, hset⟩ := Option.bind_eq_some_iff.mp hset
    obtain ⟨w', hentry, -⟩ := Option.bind_eq_some_iff.mp hset
    have hnonneg := setEntry_nonneg hentry
    by_cases hi : v.last < i
    · obtain ⟨hint, harmed⟩ := fillLoop_eq_some hfill (by omega)
      rw [htmgr₁, htimers₁] at harmed
      exact ⟨hnonneg, by omega, by omega, hfits, fun hm _ => harmed hm⟩
    · refine ⟨hnonneg, by omega, by omega, hfits, fun hm hcase => ?_⟩
      by_contra htimers
      -- nothing is filled in, and the vector is the one there was
      have hlt := (h.sound n v hv).last_lt
      obtain rfl : v₁ = v := hsame (by omega)
      rw [show (i - v₁.last).toNat = 0 by omega] at hfill
      obtain rfl : v₁ = v₂ := Option.some.inj hfill
      rw [Vec.extended, if_neg hi, World.setVec, set_eq_self hv] at hentry
      lift i to ℕ using hnonneg
      have hnone := setEntry_not_ready h hv (not_lt.mp hi)
        (fun hready => htimers (hready hm (hcase.resolve_left hi))) val
      rw [hnone] at hentry
      cases hentry
  · cases hset

end

/-! ## Appending -/

section

variable {v v' : Vec α} {w w' : World α} {n : ℕ} {val : α}

/-- The vector after `hlt_vector_push_back` has allocated memory. -/
def Vec.roomNext (v : Vec α) : Option (Vec α) :=
  if v.last + 1 ≥ v.capacity then
    (growNext v.capacity).bind fun c => reserve { v with last := v.last + 1 } c
  else some { v with last := v.last + 1 }

theorem vectorPushBack_eq (hv : w.vecs[n]? = some v) (val : α) :
    vectorPushBack w n val = v.roomNext.bind fun v =>
      if v.last < v.capacity then
        (v.unsetTimer v.last).bind fun v => setEntry (w.setVec n v) n v.last val
      else none := by
  simp only [vectorPushBack, hv, Option.bind_eq_bind, Option.bind_some, Vec.roomNext,
    Vec.unsetTimer]
  split
  · rw [Option.bind_assoc]
    congr 1
    funext c
    congr 1
    funext v
    split
    · split <;> rfl
    · rfl
  · rw [Option.bind_some]
    split
    · split <;> rfl
    · rfl

/-- When `hlt_vector_push_back` goes through. -/
structure Vec.PushReady (v : Vec α) : Prop where
  fits : v.capacity ≤ v.last + 1 → ∃ c ∈ growNext v.capacity, v.Fits c
  armed : v.tmgr.isSome → v.timers.isSome

theorem Vec.Sound.roomNext (h : v.Sound) (hready : v.PushReady) :
    ∃ v', v.roomNext = some v' ∧ v'.Sound ∧ v'.last = v.last + 1 ∧ v'.kind = v.kind ∧
      ∀ j, v'.slot j = v.slot j := by
  have hge := h.last_ge
  by_cases hc : v.last + 1 ≥ v.capacity
  · obtain ⟨c, hgrow, hfit⟩ := hready.fits hc
    have hgt := growNext_gt h.capacity_pos hgrow
    have hlt := h.last_lt
    have hgrown := h.grown (le_of_lt hgt) hfit
    refine ⟨{ v.grown c with last := v.last + 1 }, ?_, ?_, rfl, v.grown_kind c, v.grown_slot c⟩
    · rw [Vec.roomNext, if_pos hc, hgrow, Option.bind_some, reserve_eq, if_neg (not_le.mpr hgt)]
      exact if_pos hfit
    · exact ⟨show -1 ≤ v.last + 1 by omega, show v.last + 1 < c by omega, hgrown.capacity_pos,
        hgrown.elems_length, hgrown.occupied_length, hgrown.timers_length, hgrown.fits⟩
  · refine ⟨{ v with last := v.last + 1 }, if_neg hc, ?_, rfl, rfl, fun _ => rfl⟩
    exact ⟨show -1 ≤ v.last + 1 by omega, not_le.mp hc, h.capacity_pos, h.elems_length,
      h.occupied_length, h.timers_length, h.fits⟩

theorem vectorPushBack_ready (h : w.Linked) (hv : w.vecs[n]? = some v) (hready : v.PushReady)
    (val : α) :
    ∃ w' v', vectorPushBack w n val = some w' ∧ w'.Linked ∧ w'.vecs = w.vecs.set n v' ∧
      v'.kind = v.kind := by
  have hsound := h.sound n v hv
  have hge := hsound.last_ge
  obtain ⟨v₁, hroom, hsound₁, hlast₁, hkind₁, hslot₁⟩ := hsound.roomNext hready
  obtain ⟨-, -, htmgr, -, -, htimers⟩ := Vec.kind_eq.mp hkind₁
  obtain ⟨i, hi⟩ : ∃ i : ℕ, v₁.last = i := ⟨v₁.last.toNat, by omega⟩
  have hempty : v₁.slot i = none := by
    rw [hslot₁]
    by_contra hne
    obtain ⟨x, hx⟩ := Option.ne_none_iff_exists'.mp hne
    have hle := (h.slot n v i x hv hx).1
    omega
  have hunset : v₁.unsetTimer i = some v₁ :=
    Vec.setTimer_none hempty (hsound₁.index hi.symm.le).2.2
      (by rw [htmgr, htimers]; exact hready.armed)
  have hlinked : (w.setVec n v₁).Linked :=
    h.update hv hsound₁ hslot₁ (by omega) (.inl htmgr)
  have hv₁ : (w.setVec n v₁).vecs[n]? = some v₁ := getElem?_set_of_some hv v₁
  obtain ⟨w', v', hset, hlinked', hframe', -, hvecs', -⟩ :=
    setEntry_ready hlinked hv₁ hi.symm.le
      ((Vec.timersReady_of_kind hkind₁).mpr fun hm _ => hready.armed hm) val
  have hvecs : w'.vecs = w.vecs.set n v' := by
    rw [hvecs', World.setVec, List.set_set]
  have hv' : w'.vecs[n]? = some v' := by
    rw [hvecs]
    exact getElem?_set_of_some hv v'
  obtain ⟨v'', hv'', hframe''⟩ := World.frame_vec hframe' hv'
  obtain rfl : v'' = v₁ := Option.some.inj (hv''.symm.trans hv₁)
  refine ⟨w', v', ?_, hlinked', hvecs, (Vec.kind_of_frame hframe'').trans hkind₁⟩
  rw [vectorPushBack_eq hv, hroom, Option.bind_some, if_pos hsound₁.last_lt, hi, hunset,
    Option.bind_some, hi, hset]

theorem pushReady_of_some (h : w.Linked) (hv : w.vecs[n]? = some v)
    (hpush : vectorPushBack w n val = some w') : v.PushReady := by
  rw [vectorPushBack_eq hv] at hpush
  obtain ⟨v₁, hroom, hpush⟩ := Option.bind_eq_some_iff.mp hpush
  split at hpush
  · obtain ⟨v₂, hunset, -⟩ := Option.bind_eq_some_iff.mp hpush
    have harmed : v₁.tmgr.isSome → v₁.timers.isSome := by
      intro hm
      rw [Vec.unsetTimer, if_pos hm] at hunset
      obtain ⟨l, hl, -⟩ := Option.bind_eq_some_iff.mp hunset
      rw [hl]
      rfl
    rw [Vec.roomNext] at hroom
    split at hroom
    · obtain ⟨c, hgrow, hroom⟩ := Option.bind_eq_some_iff.mp hroom
      have hgt := growNext_gt (h.sound n v hv).capacity_pos hgrow
      rw [reserve_eq, if_neg (not_le.mpr hgt)] at hroom
      split at hroom
      · rename_i hfit
        cases hroom
        refine ⟨fun _ => ⟨c, hgrow, hfit⟩, fun hm => ?_⟩
        have hl := harmed hm
        rwa [Vec.grown, Option.isSome_map] at hl
      · cases hroom
    · rename_i hc
      cases hroom
      exact ⟨fun hle => absurd hle hc, harmed⟩
  · cases hpush

end

end Hilti.Vector
