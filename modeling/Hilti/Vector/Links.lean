import Hilti.Vector.Model

/-!
# Vectors and their timers

An entry of a vector that is to expire has a timer, which in turn has the entry as its cookie and
is in the queue of the manager of the vector.  What links the two is kept by everything that
starts, stops and fires timers.
-/

namespace Hilti.Vector

open Hilti.Lib

set_option autoImplicit false

variable {α β : Type}

/-! ## Arrays -/

theorem load_natCast (l : List β) (i : ℕ) : load l i = l[i]? := by
  simp [load]

theorem store_natCast {l : List β} {i : ℕ} (h : i < l.length) (x : β) :
    store l i x = some (l.set i x) := by
  simp [store, h]

theorem store_eq_some {l l' : List β} {i : ℤ} {x : β} (h : store l i x = some l') :
    ∃ k : ℕ, i = k ∧ k < l.length ∧ l' = l.set k x := by
  unfold store at h
  split at h
  · rename_i hi
    cases h
    exact ⟨i.toNat, (Int.toNat_of_nonneg hi.1).symm, hi.2, rfl⟩
  · cases h

/-! ## The invariants -/

def Vec.slot (v : Vec α) (i : ℕ) : Option ℕ :=
  (v.timers.bind fun l => l[i]?).join

/-- The arrays of a vector with capacity `c` have sizes that fit into 64 bits. -/
def Vec.Fits (v : Vec α) (c : ℤ) : Prop :=
  v.size * c.toNat < 2 ^ 64 ∧ c.toNat < 2 ^ 64 ∧ (v.timers.isSome → 8 * c.toNat < 2 ^ 64)

instance (v : Vec α) (c : ℤ) : Decidable (v.Fits c) :=
  inferInstanceAs (Decidable (_ ∧ _ ∧ (_ → _)))

/-- The arrays have as many entries as there is capacity for, and there are more than are used. -/
structure Vec.Sound (v : Vec α) : Prop where
  last_ge : -1 ≤ v.last
  last_lt : v.last < v.capacity
  capacity_pos : 0 < v.capacity
  elems_length : (v.elems.length : ℤ) = v.capacity
  occupied_length : (v.occupied.length : ℤ) = v.capacity
  timers_length : ∀ l ∈ v.timers, (l.length : ℤ) = v.capacity
  fits : v.Fits v.capacity

/-- Entries and timers know each other.  The timers in `P` have been made, but not yet scheduled. -/
structure World.Inv (P : ℕ → Prop) (w : World α) : Prop where
  sound : ∀ (n : ℕ) (v : Vec α), w.vecs[n]? = some v → v.Sound
  slot : ∀ (n : ℕ) (v : Vec α) (i x : ℕ), w.vecs[n]? = some v → v.slot i = some x →
    (i : ℤ) ≤ v.last ∧ ∃ t, w.timers[x]? = some t ∧ t.vec = n ∧ t.idx = i ∧
      (P x → t.mgr = none) ∧ (¬ P x → v.tmgr.isSome ∧ t.mgr = v.tmgr)
  timer : ∀ (x : ℕ) (t : Timer), w.timers[x]? = some t → t.mgr.isSome →
    ∃ (v : Vec α) (i : ℕ), w.vecs[t.vec]? = some v ∧ t.idx = i ∧ v.slot i = some x
  queue : ∀ (m : ℕ) (M : Mgr) (x : ℕ), w.mgrs[m]? = some M → x ∈ M.queue →
    ∃ t, w.timers[x]? = some t ∧ t.mgr = some m
  nodup : ∀ (m : ℕ) (M : Mgr), w.mgrs[m]? = some M → M.queue.Nodup
  mgr : ∀ (n : ℕ) (v : Vec α) (m : ℕ), w.vecs[n]? = some v → v.tmgr = some m → m < w.mgrs.length
  ctx : ctxTmgr < w.mgrs.length

section

variable {v v' : Vec α} {i x : ℕ}

theorem Vec.slot_eq_some : v.slot i = some x ↔ ∃ l, v.timers = some l ∧ l[i]? = some (some x) := by
  unfold Vec.slot
  cases v.timers with
  | none => simp
  | some l => simp [Option.join_eq_some_iff]

theorem Vec.setTimer_spec {l : List (Option ℕ)} (hl : v.timers = some l) (hi : i < l.length)
    (x : Option ℕ) : v.setTimer i x = some { v with timers := some (l.set i x) } ∧
      ∀ j, ({ v with timers := some (l.set i x) } : Vec α).slot j = if j = i then x else v.slot j := by
  constructor
  · simp only [Vec.setTimer, hl, Option.bind_eq_bind, Option.bind_some, store_natCast hi]
  · intro j
    simp only [Vec.slot, hl, Option.bind_some]
    by_cases hj : j = i
    · rw [if_pos hj, hj, List.getElem?_set_self hi]
      rfl
    · rw [if_neg hj, List.getElem?_set_ne (Ne.symm hj)]

theorem Vec.Sound.setTimers (h : v.Sound) {l : List (Option ℕ)} (hl : v.timers = some l)
    (x : Option ℕ) : ({ v with timers := some (l.set i x) } : Vec α).Sound where
  last_ge := h.last_ge
  last_lt := h.last_lt
  capacity_pos := h.capacity_pos
  elems_length := h.elems_length
  occupied_length := h.occupied_length
  timers_length := by
    rintro l' ⟨⟩
    rw [List.length_set]
    exact h.timers_length l hl
  fits := ⟨h.fits.1, h.fits.2.1, fun _ => h.fits.2.2 (by rw [hl]; rfl)⟩

end

theorem getElem?_set_cases {l : List β} {n k : ℕ} {x y : β} (h : (l.set n x)[k]? = some y) :
    (k = n ∧ y = x) ∨ (k ≠ n ∧ l[k]? = some y) := by
  by_cases hk : k = n
  · subst hk
    have hlt : k < l.length := by
      have hlt := (List.getElem?_eq_some_iff.mp h).1
      rwa [List.length_set] at hlt
    rw [List.getElem?_set_self hlt] at h
    exact .inl ⟨rfl, (Option.some.inj h).symm⟩
  · rw [List.getElem?_set_ne (Ne.symm hk)] at h
    exact .inr ⟨hk, h⟩

theorem getElem?_set_of_some {l : List β} {n : ℕ} {x : β} (h : l[n]? = some x) (y : β) :
    (l.set n y)[n]? = some y :=
  List.getElem?_set_self (List.getElem?_eq_some_iff.mp h).1

namespace World.Inv

variable {P : ℕ → Prop} {w : World α} {n m i x : ℕ} {v v' : Vec α} {t : Timer}

/-! ## Changing an entry and a timer -/

theorem slot_unique (h : w.Inv P) {k j : ℕ} {u : Vec α} (hv : w.vecs[n]? = some v)
    (hx : v.slot i = some x) (hu : w.vecs[k]? = some u) (hx' : u.slot j = some x) :
    k = n ∧ j = i := by
  obtain ⟨-, t, ht, hvec, hidx, -⟩ := h.slot n v i x hv hx
  obtain ⟨-, t', ht', hvec', hidx', -⟩ := h.slot k u j x hu hx'
  rw [ht] at ht'
  cases ht'
  exact ⟨hvec'.symm.trans hvec, by exact_mod_cast hidx'.symm.trans hidx⟩

theorem update (h : w.Inv P) (hv : w.vecs[n]? = some v) (hsound : v'.Sound)
    (hslot : ∀ i, v'.slot i = v.slot i) (hlast : v.last ≤ v'.last)
    (htmgr : v'.tmgr = v.tmgr ∨
      (∀ i x, v.slot i = some x → P x) ∧ ∀ m, v'.tmgr = some m → m < w.mgrs.length) :
    (w.setVec n v').Inv P where
  sound k u hu := by
    rcases getElem?_set_cases hu with ⟨-, rfl⟩ | ⟨-, hu⟩
    · exact hsound
    · exact h.sound k u hu
  slot k u i x hu hx := by
    rcases getElem?_set_cases hu with ⟨rfl, rfl⟩ | ⟨-, hu⟩
    · rw [hslot] at hx
      obtain ⟨hle, t, ht, hvec, hidx, hP, hnP⟩ := h.slot k v i x hv hx
      refine ⟨hle.trans hlast, t, ht, hvec, hidx, hP, ?_⟩
      rcases htmgr with htmgr | ⟨hpending, -⟩
      · rwa [htmgr]
      · exact fun hnP => absurd (hpending i x hx) hnP
    · exact h.slot k u i x hu hx
  timer x t ht hmgr := by
    obtain ⟨u, j, hu, hidx, hx⟩ := h.timer x t ht hmgr
    by_cases hk : t.vec = n
    · rw [hk] at hu
      rw [hv] at hu
      cases hu
      exact ⟨v', j, by rw [hk]; exact getElem?_set_of_some hv v', hidx, by rw [hslot]; exact hx⟩
    · exact ⟨u, j, by rw [World.setVec, List.getElem?_set_ne (Ne.symm hk)]; exact hu, hidx, hx⟩
  queue := h.queue
  nodup := h.nodup
  mgr k u m hu hm := by
    rcases getElem?_set_cases hu with ⟨rfl, rfl⟩ | ⟨-, hu⟩
    · rcases htmgr with htmgr | ⟨-, hlt⟩
      · exact h.mgr k v m hv (htmgr ▸ hm)
      · exact hlt m hm
    · exact h.mgr k u m hu hm
  ctx := h.ctx

theorem detach (h : w.Inv P) (hv : w.vecs[n]? = some v) (hx : v.slot i = some x)
    (ht : w.timers[x]? = some t) (hsound : v'.Sound) (htmgr : v'.tmgr = v.tmgr)
    (hlast : v'.last = v.last) (hslot : ∀ j, v'.slot j = if j = i then none else v.slot j)
    {t' : Timer} (ht' : t'.mgr = none) {mgrs : List Mgr} (hmgrs : mgrs.length = w.mgrs.length)
    (hqueue : ∀ (m : ℕ) (M' : Mgr), mgrs[m]? = some M' →
      ∃ M, w.mgrs[m]? = some M ∧ M'.queue.Sublist M.queue ∧ x ∉ M'.queue) :
    World.Inv P ⟨w.vecs.set n v', w.timers.set x t', mgrs⟩ where
  sound k u hu := by
    rcases getElem?_set_cases hu with ⟨-, rfl⟩ | ⟨-, hu⟩
    · exact hsound
    · exact h.sound k u hu
  slot k u j y hu hy := by
    -- no slot but the one that is cleared holds the timer
    have hother : ∃ u', w.vecs[k]? = some u' ∧ u'.slot j = some y ∧ u'.tmgr = u.tmgr ∧
        u'.last = u.last ∧ y ≠ x := by
      rcases getElem?_set_cases hu with ⟨rfl, rfl⟩ | ⟨hk, hu⟩
      · rw [hslot] at hy
        split at hy
        · cases hy
        · rename_i hj
          refine ⟨v, hv, hy, htmgr.symm, hlast.symm, ?_⟩
          rintro rfl
          exact hj (h.slot_unique hv hx hv hy).2
      · have hu' : w.vecs[k]? = some u := hu
        refine ⟨u, hu', hy, rfl, rfl, ?_⟩
        rintro rfl
        exact hk (h.slot_unique hv hx hu' hy).1
    obtain ⟨u', hu', hy', htm, hl, hne⟩ := hother
    obtain ⟨hle, t₁, ht₁, hrest⟩ := h.slot k u' j y hu' hy'
    rw [hl] at hle
    rw [htm] at hrest
    exact ⟨hle, t₁, by rw [List.getElem?_set_ne (Ne.symm hne)]; exact ht₁, hrest⟩
  timer y t₁ ht₁ hmgr := by
    rcases getElem?_set_cases ht₁ with ⟨-, rfl⟩ | ⟨hne, ht₁⟩
    · rw [ht'] at hmgr
      cases hmgr
    · obtain ⟨u, j, hu, hidx, hy⟩ := h.timer y t₁ ht₁ hmgr
      by_cases hk : t₁.vec = n
      · rw [hk, hv] at hu
        cases hu
        refine ⟨v', j, by rw [hk]; exact getElem?_set_of_some hv v', hidx, ?_⟩
        rw [hslot, if_neg]
        · exact hy
        · rintro rfl
          rw [hx] at hy
          exact hne (Option.some.inj hy).symm
      · exact ⟨u, j, by rw [List.getElem?_set_ne (Ne.symm hk)]; exact hu, hidx, hy⟩
  queue m M' y hM' hy := by
    obtain ⟨M, hM, hsub, hnot⟩ := hqueue m M' hM'
    obtain ⟨t₁, ht₁, hmgr⟩ := h.queue m M y hM (hsub.mem hy)
    refine ⟨t₁, ?_, hmgr⟩
    rw [List.getElem?_set_ne]
    · exact ht₁
    · rintro rfl
      exact hnot hy
  nodup m M' hM' := by
    obtain ⟨M, hM, hsub, -⟩ := hqueue m M' hM'
    exact (h.nodup m M hM).sublist hsub
  mgr k u m hu hm := by
    rw [show (⟨w.vecs.set n v', w.timers.set x t', mgrs⟩ : World α).mgrs.length = w.mgrs.length
      from hmgrs]
    rcases getElem?_set_cases hu with ⟨rfl, rfl⟩ | ⟨-, hu⟩
    · exact h.mgr k v m hv (htmgr ▸ hm)
    · exact h.mgr k u m hu hm
  ctx := by
    rw [show (⟨w.vecs.set n v', w.timers.set x t', mgrs⟩ : World α).mgrs.length = w.mgrs.length
      from hmgrs]
    exact h.ctx

theorem attach (h : w.Inv P) (hv : w.vecs[n]? = some v) (hnone : v.slot i = none)
    (hle : (i : ℤ) ≤ v.last) (hsound : v'.Sound) (htmgr : v'.tmgr = v.tmgr)
    (hlast : v'.last = v.last)
    (hslot : ∀ j, v'.slot j = if j = i then some w.timers.length else v.slot j) (time : ℕ) :
    World.Inv (fun x => x = w.timers.length ∨ P x)
      ⟨w.vecs.set n v', w.timers ++ [⟨none, time, n, i⟩], w.mgrs⟩ where
  sound k u hu := by
    rcases getElem?_set_cases hu with ⟨-, rfl⟩ | ⟨-, hu⟩
    · exact hsound
    · exact h.sound k u hu
  slot k u j y hu hy := by
    have hold : ∀ u' : Vec α, w.vecs[k]? = some u' → u'.slot j = some y → u'.tmgr = u.tmgr →
        u'.last = u.last → (j : ℤ) ≤ u.last ∧
          ∃ t₁, (w.timers ++ [(⟨none, time, n, (i : ℤ)⟩ : Timer)])[y]? = some t₁ ∧
            t₁.vec = k ∧ t₁.idx = (j : ℤ) ∧ (y = w.timers.length ∨ P y → t₁.mgr = none) ∧
            (¬ (y = w.timers.length ∨ P y) → u.tmgr.isSome ∧ t₁.mgr = u.tmgr) := by
      intro u' hu' hy' htm hl
      obtain ⟨hj, t₁, ht₁, hvec, hidx, hP, hnP⟩ := h.slot k u' j y hu' hy'
      have hlt : y < w.timers.length := (List.getElem?_eq_some_iff.mp ht₁).1
      refine ⟨hl ▸ hj, t₁, by rw [List.getElem?_append_left hlt]; exact ht₁, hvec, hidx, ?_, ?_⟩
      · intro hcase
        exact hP (hcase.resolve_left (ne_of_lt hlt))
      · intro hnot
        rw [← htm]
        exact hnP fun hy => hnot (.inr hy)
    rcases getElem?_set_cases hu with ⟨rfl, rfl⟩ | ⟨-, hu⟩
    · rw [hslot] at hy
      split at hy
      · rename_i hj
        cases hy
        refine ⟨by rw [hj, hlast]; exact hle, ⟨none, time, k, i⟩, ?_, rfl, by rw [hj], fun _ => rfl,
          fun hnot => absurd (.inl rfl) hnot⟩
        rw [List.getElem?_concat_length]
      · exact hold v hv hy htmgr.symm hlast.symm
    · exact hold u hu hy rfl rfl
  timer y t₁ ht₁ hmgr := by
    by_cases hy : y < w.timers.length
    · rw [List.getElem?_append_left hy] at ht₁
      obtain ⟨u, j, hu, hidx, hyj⟩ := h.timer y t₁ ht₁ hmgr
      by_cases hk : t₁.vec = n
      · rw [hk, hv] at hu
        cases hu
        refine ⟨v', j, by rw [hk]; exact getElem?_set_of_some hv v', hidx, ?_⟩
        rw [hslot, if_neg]
        · exact hyj
        · rintro rfl
          rw [hnone] at hyj
          cases hyj
      · exact ⟨u, j, by rw [List.getElem?_set_ne (Ne.symm hk)]; exact hu, hidx, hyj⟩
    · rw [List.getElem?_append_right (not_lt.mp hy)] at ht₁
      have hmem := List.mem_of_getElem? ht₁
      rw [List.mem_singleton] at hmem
      rw [hmem] at hmgr
      cases hmgr
  queue m M y hM hy := by
    obtain ⟨t₁, ht₁, hmgr⟩ := h.queue m M y hM hy
    exact ⟨t₁, by rw [List.getElem?_append_left (List.getElem?_eq_some_iff.mp ht₁).1]; exact ht₁, hmgr⟩
  nodup := h.nodup
  mgr k u m hu hm := by
    rcases getElem?_set_cases hu with ⟨rfl, rfl⟩ | ⟨-, hu⟩
    · exact h.mgr k v m hv (htmgr ▸ hm)
    · exact h.mgr k u m hu hm
  ctx := h.ctx

theorem assign (h : w.Inv P) (hx : P x) (ht : w.timers[x]? = some t)
    (hv : w.vecs[t.vec]? = some v) (hidx : t.idx = i) (hslot : v.slot i = some x)
    (hm : v.tmgr = some m) (time : ℕ) :
    (w.setTimer x { t with mgr := some m, time := time }).Inv (fun y => P y ∧ y ≠ x) where
  sound := h.sound
  slot k u j y hu hy := by
    obtain ⟨hle, t₁, ht₁, hvec, hidx₁, hP, hnP⟩ := h.slot k u j y hu hy
    by_cases hne : y = x
    · subst hne
      rw [ht] at ht₁
      cases ht₁
      obtain ⟨rfl, rfl⟩ := h.slot_unique hv hslot hu hy
      have huv : u = v := Option.some.inj (hu.symm.trans hv)
      refine ⟨hle, _, getElem?_set_of_some ht _, rfl, hidx, fun hcase => absurd rfl hcase.2, ?_⟩
      intro _
      rw [huv, hm]
      exact ⟨rfl, rfl⟩
    · refine ⟨hle, t₁, ?_, hvec, hidx₁, fun hcase => hP hcase.1, fun hcase => ?_⟩
      · rw [World.setTimer, List.getElem?_set_ne (Ne.symm hne)]
        exact ht₁
      · exact hnP fun hy => hcase ⟨hy, hne⟩
  timer y t₁ ht₁ hmgr := by
    rcases getElem?_set_cases ht₁ with ⟨rfl, rfl⟩ | ⟨-, ht₁⟩
    · exact ⟨v, i, hv, hidx, hslot⟩
    · exact h.timer y t₁ ht₁ hmgr
  queue k M y hM hy := by
    obtain ⟨t₁, ht₁, hmgr⟩ := h.queue k M y hM hy
    refine ⟨t₁, ?_, hmgr⟩
    rw [World.setTimer, List.getElem?_set_ne]
    · exact ht₁
    · -- what is in a queue is scheduled already
      rintro rfl
      have hnone := (h.slot _ v i x hv hslot).2
      rw [ht] at hnone ht₁
      obtain ⟨t₂, ht₂, -, -, hP, -⟩ := hnone
      cases ht₁
      cases ht₂
      rw [hP hx] at hmgr
      cases hmgr
  nodup := h.nodup
  mgr := h.mgr
  ctx := h.ctx

theorem setQueue (h : w.Inv P) {M M' : Mgr} (hM : w.mgrs[m]? = some M) (hnodup : M'.queue.Nodup)
    (hmem : ∀ y ∈ M'.queue, y ∈ M.queue ∨ ∃ t, w.timers[y]? = some t ∧ t.mgr = some m) :
    (w.setMgr m M').Inv P where
  sound := h.sound
  slot := h.slot
  timer := h.timer
  queue k M₁ y hM₁ hy := by
    rcases getElem?_set_cases hM₁ with ⟨rfl, rfl⟩ | ⟨-, hM₁⟩
    · rcases hmem y hy with hy | hy
      · exact h.queue k M y hM hy
      · exact hy
    · exact h.queue k M₁ y hM₁ hy
  nodup k M₁ hM₁ := by
    rcases getElem?_set_cases hM₁ with ⟨-, rfl⟩ | ⟨-, hM₁⟩
    · exact hnodup
    · exact h.nodup k M₁ hM₁
  mgr k u j hu hj := by
    rw [World.setMgr, List.length_set]
    exact h.mgr k u j hu hj
  ctx := by
    rw [World.setMgr, List.length_set]
    exact h.ctx

theorem setTime (h : w.Inv P) (ht : w.timers[x]? = some t) (time : ℕ) :
    (w.setTimer x { t with time := time }).Inv P where
  sound := h.sound
  slot k u j y hu hy := by
    obtain ⟨hle, t₁, ht₁, hrest⟩ := h.slot k u j y hu hy
    by_cases hne : y = x
    · subst hne
      rw [ht] at ht₁
      cases ht₁
      exact ⟨hle, _, getElem?_set_of_some ht _, hrest⟩
    · refine ⟨hle, t₁, ?_, hrest⟩
      rw [World.setTimer, List.getElem?_set_ne (Ne.symm hne)]
      exact ht₁
  timer y t₁ ht₁ hmgr := by
    rcases getElem?_set_cases ht₁ with ⟨rfl, rfl⟩ | ⟨-, ht₁⟩
    · exact h.timer y t ht hmgr
    · exact h.timer y t₁ ht₁ hmgr
  queue k M y hM hy := by
    obtain ⟨t₁, ht₁, hmgr⟩ := h.queue k M y hM hy
    by_cases hne : y = x
    · subst hne
      rw [ht] at ht₁
      cases ht₁
      exact ⟨_, getElem?_set_of_some ht _, hmgr⟩
    · refine ⟨t₁, ?_, hmgr⟩
      rw [World.setTimer, List.getElem?_set_ne (Ne.symm hne)]
      exact ht₁
  nodup := h.nodup
  mgr := h.mgr
  ctx := h.ctx

end World.Inv

end Hilti.Vector
