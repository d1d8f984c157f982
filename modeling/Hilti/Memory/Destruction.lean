import Hilti.Memory.NullBuffer

/-! # What a flush destroys

Releasing a reference, calling a destructor and a round of the loop are all parts of a flush that
`Settles` describes. Each nested destructor is for an object whose count has just dropped to zero, so
their depth is bounded by the number of objects with references. -/

namespace Hilti.Memory
open Hilti.Lib
set_option autoImplicit false

variable {pos : ℕ} {s s' : Heap}

theorem nullbufferIndex_eq_some {o i : ℕ} (h : nullbufferIndex s o = some i) : s.Entry i o := by
  obtain ⟨hi, heq, -⟩ := List.idxOf?_eq_some_iff.mp h
  unfold Heap.Entry
  rw [List.getElem?_eq_getElem hi, heq]

theorem nullbufferIndex_eq_none {o : ℕ} (h : nullbufferIndex s o = none) (i : ℕ) :
    ¬ s.Entry i o :=
  fun he => List.idxOf?_eq_none_iff.mp h (List.mem_of_getElem? he)

theorem map_eq_ok {α β : Type} {x : Except Fault α} {f : α → β} {b : β} (h : x.map f = .ok b) :
    ∃ a, x = .ok a ∧ b = f a := by
  cases x with
  | error e => cases h
  | ok a =>
    cases h
    exact ⟨a, rfl, rfl⟩

theorem bind_eq_ok {α β : Type} {x : Except Fault α} {f : α → Except Fault β} {b : β}
    (h : x.bind f = .ok b) : ∃ a, x = .ok a ∧ f a = .ok b := by
  cases x with
  | error e => cases h
  | ok a => exact ⟨a, rfl, h⟩

/-! ## Releasing references -/

def begun (s : Heap) (o : ℕ) : Heap := { s with destroyed := s.destroyed ++ [(o, s.refCnt o)] }

def DtorSettles (dtor : Heap → ℕ → Except Fault Heap) : Prop :=
  ∀ pos s o s', s.flushPos = some pos → Distinct s → dtor s o = .ok s' →
    ∃ l, Settles pos (begun s o) s' l

theorem destroyed_settles {d : Heap} {o : ℕ} (halloc : s.allocated o = true)
    (hcnt : s.refCnt o = 1) (hnot : ∀ i, pos ≤ i → ¬ s.Entry i o)
    (hd : d = { s with refCnt := Function.update s.refCnt o 0 }) {t : Heap} {l : List (ℕ × ℤ)}
    (h : Settles pos (begun d o) t l) {objs : List (Option ℕ)}
    (hobjs : ∀ i, objs[i]? = t.objs[i]? ∨ (i < pos ∧ objs[i]? = some none))
    (hlen : objs.length = t.objs.length) :
    Settles pos s (hltFree { t with objs := objs } o) ((o, 0) :: l) := by
  have hentry : ∀ i x, (hltFree { t with objs := objs } o).Entry i x → t.Entry i x := by
    intro i x he
    rcases hobjs i with heq | ⟨-, heq⟩
    · exact heq.symm.trans he
    · cases heq.symm.trans he
  have hd_refCnt : ∀ x, x ≠ o → d.refCnt x = s.refCnt x := by
    intro x hx
    rw [hd]
    exact Function.update_of_ne hx _ _
  have hzero : d.refCnt o = 0 := by
    rw [hd]
    exact Function.update_self ..
  -- the object has no references left, so the destructor does not come across it again
  have hl : ∀ p ∈ l, p.1 ≠ o := by
    intro p hp he
    have hpos := (h.dropped p hp).1
    change 0 < d.refCnt p.1 at hpos
    rw [he, hzero] at hpos
    exact absurd hpos (lt_irrefl 0)
  have hd_le : ∀ x, d.refCnt x ≤ s.refCnt x := by
    intro x
    by_cases hx : x = o
    · rw [hx, hzero, hcnt]
      decide
    · exact (hd_refCnt x hx).le
  have hd_entry : ∀ i x, d.Entry i x ↔ s.Entry i x := by
    intro i x
    rw [hd]
    rfl
  refine
    { created_eq := ?_
      flushPos_eq := ?_
      length_eq := ?_
      later := fun i hi => ?_
      entry := fun i x he => (hd_entry i x).mp (h.entry i x (hentry i x he))
      refCnt_le := fun x => (h.refCnt_le x).trans (hd_le x)
      destroyed_eq := ?_
      nodup := ?_
      dropped := fun p hp => ?_
      passed := fun p hp i hi he => ?_
      allocated_iff := fun x => ?_
      settled := fun x hpos hle => ?_ }
  · exact h.created_eq.trans (by rw [hd]; rfl)
  · exact h.flushPos_eq.trans (by rw [hd]; rfl)
  · exact (hlen.trans h.length_eq).trans (by rw [hd]; rfl)
  · rcases hobjs i with heq | ⟨hlt, -⟩
    · exact (heq.trans (h.later i hi)).trans (by rw [hd]; rfl)
    · omega
  · have hlog : (begun d o).destroyed = s.destroyed ++ [(o, 0)] := by
      unfold begun
      dsimp only
      rw [hzero, hd]
    change t.destroyed = _
    rw [h.destroyed_eq, hlog, List.append_assoc]
    rfl
  · rw [List.map_cons, List.nodup_cons]
    refine ⟨fun hmem => ?_, h.nodup⟩
    obtain ⟨p, hp, he⟩ := List.mem_map.mp hmem
    exact hl p hp he
  · rcases List.mem_cons.mp hp with rfl | hp
    · refine ⟨by rw [hcnt]; decide, ?_, le_rfl, halloc⟩
      exact (h.refCnt_le o).trans hzero.le
    · obtain ⟨hpos, hle, hcnt', halloc'⟩ := h.dropped p hp
      refine ⟨hpos.trans_le (hd_le p.1), hle, hcnt', ?_⟩
      rw [← halloc', hd]
      rfl
  · rcases List.mem_cons.mp hp with rfl | hp
    · exact hnot i hi he
    · exact h.passed p hp i hi ((hd_entry i p.1).mpr he)
  · change Function.update t.allocated o false x = true ↔ _
    rw [List.map_cons, List.mem_cons, not_or]
    by_cases hx : x = o
    · rw [hx, Function.update_self]
      simp
    · rw [Function.update_of_ne hx, h.allocated_iff x, show (begun d o).allocated = s.allocated by
        rw [hd]; rfl]
      simp [hx]
  · rw [List.map_cons, List.mem_cons]
    by_cases hx : x = o
    · exact .inl (.inl hx)
    · have hpos' : 0 < (begun d o).refCnt x := by
        change 0 < d.refCnt x
        rw [hd_refCnt x hx]
        exact hpos
      rcases h.settled x hpos' hle with hmem | ⟨i, hi, he⟩
      · exact .inl (.inr hmem)
      · exact .inr ⟨i, hi, (hd_entry i x).mp he⟩

theorem released_settles {o : ℕ}
    (h : s.refCnt o - 1 ≤ 0 → 0 < s.refCnt o → ∃ i, pos ≤ i ∧ s.Entry i o) :
    Settles pos s { s with refCnt := Function.update s.refCnt o (s.refCnt o - 1) } [] := by
  have hle : ∀ x, Function.update s.refCnt o (s.refCnt o - 1) x ≤ s.refCnt x := by
    intro x
    by_cases hx : x = o
    · rw [hx, Function.update_self]
      omega
    · rw [Function.update_of_ne hx]
  refine { Settles.refl pos s with refCnt_le := hle, settled := fun x hpos hx => .inr ?_, dropped := nofun }
  by_cases he : x = o
  · rw [he] at hpos ⊢
    change Function.update s.refCnt o (s.refCnt o - 1) x ≤ 0 at hx
    rw [he, Function.update_self] at hx
    exact h hx hpos
  · change Function.update s.refCnt o (s.refCnt o - 1) x ≤ 0 at hx
    rw [Function.update_of_ne he] at hx
    omega

theorem hltObjectUnref_settles {dtor : Heap → ℕ → Except Fault Heap} (hdtor : DtorSettles dtor)
    (hpos : s.flushPos = some pos) (hd : Distinct s) {o : ℕ}
    (h : hltObjectUnref dtor s o = .ok s') : ∃ l, Settles pos s s' l := by
  unfold hltObjectUnref at h
  split at h
  · rename_i halloc
    simp only [Function.update_self] at h
    split at h
    · rename_i hzero
      have hcnt : s.refCnt o = 1 := by omega
      rw [hzero] at h
      set d : Heap := { s with refCnt := Function.update s.refCnt o 0 } with hddef
      unfold hltMemoryNullbufferAdd at h
      split at h
      · rename_i pos' nbpos hpos' hindex
        cases hpos.symm.trans hpos'
        have hentry : s.Entry nbpos o := nullbufferIndex_eq_some hindex
        split at h
        · rename_i hle
          rw [← Except.ok.inj h]
          refine ⟨[], ?_⟩
          have hrel : Settles pos s _ [] := released_settles fun _ _ => ⟨nbpos, hle, hentry⟩
          rw [hzero] at hrel
          exact hrel
        · rename_i hlt
          obtain ⟨t, ht, rfl⟩ := map_eq_ok h
          obtain ⟨l, hl⟩ := hdtor pos d o t hpos hd ht
          refine ⟨_, destroyed_settles halloc hcnt (fun i hi he => ?_) hddef hl (fun i => ?_)
            (List.length_set ..)⟩
          · have heq := hd nbpos i o hentry he
            omega
          · rw [List.getElem?_set]
            by_cases hi : nbpos = i
            · by_cases hlen : i < t.objs.length
              · rw [if_pos hi, hi, if_pos hlen]
                exact .inr ⟨by omega, rfl⟩
              · rw [if_pos hi, hi, if_neg hlen, List.getElem?_eq_none (by omega)]
                exact .inl rfl
            · rw [if_neg hi]
              exact .inl rfl
      · rename_i pos' hpos' hindex
        obtain ⟨t, ht, rfl⟩ := map_eq_ok h
        obtain ⟨l, hl⟩ := hdtor pos d o t hpos hd ht
        exact ⟨_, destroyed_settles halloc hcnt (fun i _ => nullbufferIndex_eq_none hindex i) hddef hl
          (fun i => .inl rfl) rfl⟩
      · rename_i hnone _
        cases hpos.symm.trans hnone
      · rename_i hnone _
        cases hpos.symm.trans hnone
    · rename_i hne
      cases h
      exact ⟨[], released_settles fun hle hgt => absurd (by omega) hne⟩
  · cases h

theorem unrefAll_settles {dtor : Heap → ℕ → Except Fault Heap} (hdtor : DtorSettles dtor)
    (os : List ℕ) : ∀ {s : Heap}, s.flushPos = some pos → Distinct s →
      unrefAll dtor os s = .ok s' → ∃ l, Settles pos s s' l := by
  induction os with
  | nil =>
    intro s _ _ h
    cases h
    exact ⟨[], Settles.refl pos _⟩
  | cons o os ih =>
    intro s hpos hd h
    obtain ⟨t, ht, h⟩ := bind_eq_ok h
    obtain ⟨l, hl⟩ := hltObjectUnref_settles hdtor hpos hd ht
    obtain ⟨l', hl'⟩ := ih (hl.flushPos_eq.trans hpos) (hl.distinct hd) h
    exact ⟨l ++ l', hl.trans hl'⟩

theorem objDtor_settles (fuel : ℕ) : DtorSettles (objDtor fuel) := by
  induction fuel with
  | zero =>
    intro pos s o s' _ _ h
    cases h
  | succ fuel ih =>
    intro pos s o s' hpos hd h
    exact unrefAll_settles (s := begun s o) ih (s.fields o) hpos hd h

end Hilti.Memory
