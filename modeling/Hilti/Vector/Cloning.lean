import Hilti.Vector.Reading

/-!
# New vectors and copies

A copy gets timers of its own, which are scheduled only when all of them have been made.
-/

namespace Hilti.Vector

open Hilti.Lib

set_option autoImplicit false

variable {α : Type}

theorem getElem?_concat_cases {β : Type} {l : List β} {n : ℕ} {x y : β}
    (h : (l ++ [x])[n]? = some y) : l[n]? = some y ∨ (n = l.length ∧ y = x) := by
  by_cases hn : n < l.length
  · rw [List.getElem?_append_left hn] at h
    exact .inl h
  · have hlt := (List.getElem?_eq_some_iff.mp h).1
    rw [List.length_append, List.length_singleton] at hlt
    obtain rfl : n = l.length := by omega
    rw [List.getElem?_concat_length] at h
    exact .inr ⟨rfl, (Option.some.inj h).symm⟩

namespace World.Inv

variable {P Q : ℕ → Prop} {w : World α}

theorem congr_slots (h : w.Inv P)
    (hPQ : ∀ (n : ℕ) (v : Vec α) (i x : ℕ), w.vecs[n]? = some v → v.slot i = some x → (P x ↔ Q x)) :
    w.Inv Q where
  sound := h.sound
  slot n v i x hv hx := by
    rw [← hPQ n v i x hv hx]
    exact h.slot n v i x hv hx
  timer := h.timer
  queue := h.queue
  nodup := h.nodup
  mgr := h.mgr
  ctx := h.ctx

theorem append_vec (h : w.Inv P) {d : Vec α} (hsound : d.Sound) (hslot : ∀ i, d.slot i = none)
    (hm : ∀ m, d.tmgr = some m → m < w.mgrs.length) :
    World.Inv P { w with vecs := w.vecs ++ [d] } where
  sound n v hv := by
    rcases getElem?_concat_cases hv with hv | ⟨-, rfl⟩
    · exact h.sound n v hv
    · exact hsound
  slot n v i x hv hx := by
    rcases getElem?_concat_cases hv with hv | ⟨-, rfl⟩
    · exact h.slot n v i x hv hx
    · rw [hslot] at hx
      cases hx
  timer x t ht hmgr := by
    obtain ⟨v, i, hv, hrest⟩ := h.timer x t ht hmgr
    refine ⟨v, i, ?_, hrest⟩
    exact (List.getElem?_append_left (List.getElem?_eq_some_iff.mp hv).1).trans hv
  queue := h.queue
  nodup := h.nodup
  mgr n v m hv hmgr := by
    rcases getElem?_concat_cases hv with hv | ⟨-, rfl⟩
    · exact h.mgr n v m hv hmgr
    · exact hm m hmgr
  ctx := h.ctx

end World.Inv

variable {w : World α} {src d : Vec α} {vec dst base : ℕ}

/-! ## Copying the entries -/

theorem Vec.Sound.setElem (h : d.Sound) (i : ℕ) (x : α) :
    ({ d with elems := d.elems.set i x } : Vec α).Sound where
  last_ge := h.last_ge
  last_lt := h.last_lt
  capacity_pos := h.capacity_pos
  elems_length := by
    rw [List.length_set]
    exact h.elems_length
  occupied_length := h.occupied_length
  timers_length := h.timers_length
  fits := h.fits

theorem cloneTimer_ready (h : w.Inv (base ≤ ·)) (hbase : base ≤ w.timers.length)
    (hsrc : w.vecs[vec]? = some src) (hd : w.vecs[dst]? = some d) {i : ℕ}
    (hi : (i : ℤ) ≤ src.last) (hlast : d.last = src.last) (htimers : src.timers.isSome)
    (htimers' : d.timers.isSome) (hempty : d.slot i = none) :
    ∃ w' d', cloneTimer w src dst i = some w' ∧ w'.Inv (base ≤ ·) ∧ w'.vecs = w.vecs.set dst d' ∧
      d'.frame = d.frame ∧ w'.mgrs = w.mgrs ∧ base ≤ w'.timers.length ∧
      (∀ j, j ≠ i → d'.slot j = d.slot j) ∧
      ∀ x, d'.slot i = some x → base ≤ x ∧ (src.slot i).isSome := by
  obtain ⟨l, hl⟩ := Option.isSome_iff_exists.mp htimers
  obtain ⟨l', hl'⟩ := Option.isSome_iff_exists.mp htimers'
  have hlt := ((h.sound _ src hsrc).index hi).2.2 l hl
  have hdsound := h.sound _ d hd
  have hid : (i : ℤ) ≤ d.last := by rw [hlast]; exact hi
  have hlt' := (hdsound.index hid).2.2 l' hl'
  have hload : load l i = some l[i] := by rw [load_natCast, List.getElem?_eq_getElem hlt]
  have hframe (x : Option ℕ) : ({ d with timers := some (l'.set i x) } : Vec α).frame = d.frame := by
    simp only [Vec.frame, hl', Option.isSome_some]
  cases hx : l[i] with
  | none =>
    obtain ⟨hset, hslot⟩ := Vec.setTimer_spec hl' hlt' none
    have hslots : ∀ j, ({ d with timers := some (l'.set i none) } : Vec α).slot j = d.slot j := by
      intro j
      rw [hslot]
      split
      · rename_i hj
        rw [hj, hempty]
      · rfl
    refine ⟨w.setVec dst { d with timers := some (l'.set i none) }, _, ?_, ?_, rfl, hframe none,
      rfl, hbase, fun j _ => hslots j, fun x hx => ?_⟩
    · simp only [cloneTimer, hl, hd, Option.bind_eq_bind, Option.bind_some, hload, hx, hset]
    · exact h.update hd (hdsound.setTimers hl' none) hslots le_rfl (.inl rfl)
    · rw [hslots, hempty] at hx
      cases hx
  | some x =>
    obtain ⟨hset, hslot⟩ := Vec.setTimer_spec hl' hlt' (some w.timers.length)
    have hget : l[i]? = some (some x) := by rw [List.getElem?_eq_getElem hlt, hx]
    have hslot' : src.slot i = some x := Vec.slot_eq_some.mpr ⟨l, hl, hget⟩
    obtain ⟨-, t, ht, -⟩ := h.slot _ src i x hsrc hslot'
    have hattached := h.attach hd hempty hid (hdsound.setTimers hl' (some w.timers.length)) rfl rfl
      hslot t.time
    refine ⟨_, { d with timers := some (l'.set i (some w.timers.length)) }, ?_,
      hattached.congr_pending fun y => ?_, rfl, hframe _, rfl, ?_, fun j hj => ?_, fun y hy => ?_⟩
    · simp only [cloneTimer, hl, hd, Option.bind_eq_bind, Option.bind_some, hload, hx, ht, hset]
      rfl
    · constructor
      · rintro (rfl | hy)
        · exact hbase
        · exact hy
      · exact .inr
    · rw [List.length_append]
      omega
    · rw [hslot, if_neg hj]
    · rw [hslot, if_pos rfl] at hy
      cases hy
      exact ⟨hbase, by rw [hslot']; rfl⟩

theorem cloneLoop_succ (src : Vec α) (dst k : ℕ) (i : ℤ) (w : World α) :
    cloneLoop src dst (k + 1) i w = (load src.elems i).bind fun selem =>
      (w.vecs[dst]?).bind fun d => (store d.elems i selem).bind fun elems =>
        (if src.timers.isSome ∧ src.timeout ≠ 0 then
            cloneTimer (w.setVec dst { d with elems := elems }) src dst i
          else some (w.setVec dst { d with elems := elems })).bind fun w =>
          cloneLoop src dst k (i + 1) w := by
  rw [cloneLoop]
  simp only [Option.bind_eq_bind]
  congr 1
  funext selem
  congr 1
  funext d
  congr 1
  funext elems
  split <;> rfl

theorem cloneLoop_ready (k i : ℕ) (h : w.Inv (base ≤ ·)) (hbase : base ≤ w.timers.length)
    (hsrc : w.vecs[vec]? = some src) (hne : vec ≠ dst) (hd : w.vecs[dst]? = some d)
    (hlast : d.last = src.last) (htimers : src.timers.isSome ∧ src.timeout ≠ 0 → d.timers.isSome)
    (hk : (i + k : ℤ) = src.last + 1) (hempty : ∀ j, i ≤ j → d.slot j = none)
    (hpending : ∀ j x, d.slot j = some x → base ≤ x ∧ (src.slot j).isSome) :
    ∃ w' d', cloneLoop src dst k i w = some w' ∧ w'.Inv (base ≤ ·) ∧
      w'.vecs = w.vecs.set dst d' ∧ d'.frame = d.frame ∧ w'.mgrs = w.mgrs ∧
      ∀ j x, d'.slot j = some x → base ≤ x ∧ (src.slot j).isSome := by
  induction k generalizing w d i with
  | zero => exact ⟨w, d, rfl, h, (set_eq_self hd).symm, rfl, rfl, hpending⟩
  | succ k ih =>
    have hi : (i : ℤ) ≤ src.last := by omega
    have hlt := ((h.sound _ src hsrc).index hi).1
    have hdsound := h.sound _ d hd
    have hlt' := (hdsound.index (by rw [hlast]; exact hi)).1
    set d₁ : Vec α := { d with elems := d.elems.set i src.elems[i] } with hd₁
    have hinv₁ : (w.setVec dst d₁).Inv (base ≤ ·) :=
      h.update hd (hdsound.setElem i _) (fun _ => rfl) le_rfl (.inl rfl)
    have hsrc₁ : (w.setVec dst d₁).vecs[vec]? = some src := by
      rw [World.setVec, List.getElem?_set_ne (Ne.symm hne)]
      exact hsrc
    have hd₁' : (w.setVec dst d₁).vecs[dst]? = some d₁ := getElem?_set_of_some hd d₁
    -- the entry is copied, with its timer
    obtain ⟨w₂, d₂, heq, hinv₂, hvecs₂, hframe₂, hmgrs₂, hbase₂, hslot₂, hslot₂'⟩ :
        ∃ w₂ d₂, (if src.timers.isSome ∧ src.timeout ≠ 0 then
            cloneTimer (w.setVec dst d₁) src dst i
          else some (w.setVec dst d₁)) = some w₂ ∧ w₂.Inv (base ≤ ·) ∧
          w₂.vecs = w.vecs.set dst d₂ ∧ d₂.frame = d.frame ∧ w₂.mgrs = w.mgrs ∧
          base ≤ w₂.timers.length ∧ (∀ j, j ≠ i → d₂.slot j = d.slot j) ∧
          ∀ x, d₂.slot i = some x → base ≤ x ∧ (src.slot i).isSome := by
      by_cases hc : src.timers.isSome ∧ src.timeout ≠ 0
      · rw [if_pos hc]
        obtain ⟨w₂, d₂, heq, hinv₂, hvecs₂, hrest⟩ :=
          cloneTimer_ready hinv₁ hbase hsrc₁ hd₁' hi hlast hc.1 (htimers hc) (hempty i le_rfl)
        refine ⟨w₂, d₂, heq, hinv₂, ?_, hrest⟩
        rw [hvecs₂, World.setVec, List.set_set]
      · rw [if_neg hc]
        refine ⟨_, d₁, rfl, hinv₁, rfl, rfl, rfl, hbase, fun _ _ => rfl, fun x hx => ?_⟩
        rw [show d₁.slot i = d.slot i from rfl, hempty i le_rfl] at hx
        cases hx
    obtain ⟨-, hlast₂, -, -, -, -, -, htimers₂⟩ := Vec.frame_eq.mp hframe₂
    obtain ⟨w', d', hloop, hinv', hvecs', hframe', hmgrs', hpending'⟩ :=
      ih (w := w₂) (d := d₂) (i + 1) hinv₂ hbase₂
        (by rw [hvecs₂, List.getElem?_set_ne (Ne.symm hne)]; exact hsrc)
        (by rw [hvecs₂]; exact getElem?_set_of_some hd d₂) (hlast₂.trans hlast)
        (fun hc => by rw [htimers₂]; exact htimers hc) (by push_cast at hk ⊢; omega)
        (fun j hj => by rw [hslot₂ j (by omega)]; exact hempty j (by omega))
        (fun j x hx => by
          by_cases hj : j = i
          · rw [hj] at hx
            rw [hj]
            exact hslot₂' x hx
          · rw [hslot₂ j hj] at hx
            exact hpending j x hx)
    refine ⟨w', d', ?_, hinv', ?_, hframe'.trans hframe₂, hmgrs'.trans hmgrs₂, hpending'⟩
    · rw [cloneLoop_succ, load_natCast, List.getElem?_eq_getElem hlt, Option.bind_some, hd,
        Option.bind_some, store_natCast hlt', Option.bind_some, ← hd₁, heq, Option.bind_some]
      exact_mod_cast hloop
    · rw [hvecs', hvecs₂, List.set_set]

/-! ## Scheduling the timers of the copy -/

theorem initLoop_ready {P : ℕ → Prop} (k i : ℕ) (h : w.Inv P) (hd : w.vecs[dst]? = some d)
    (hm : d.tmgr = some ctxTmgr) (hl : d.timers.isSome) (hk : (i + k : ℤ) = d.last + 1)
    (hall : ∀ (n : ℕ) (v : Vec α) (j x : ℕ), w.vecs[n]? = some v → v.slot j = some x → P x →
      n = dst ∧ i ≤ j)
    (hpending : ∀ j x, d.slot j = some x → i ≤ j → P x) :
    ∃ w', initLoop dst k i w = some w' ∧ w'.Linked ∧ w'.frame = w.frame := by
  induction k generalizing w d i P with
  | zero =>
    refine ⟨w, rfl, h.congr_slots fun n v j x hv hx => ⟨fun hP => ?_, False.elim⟩, rfl⟩
    obtain ⟨rfl, hj⟩ := hall n v j x hv hx hP
    obtain rfl : d = v := Option.some.inj (hd.symm.trans hv)
    have hle := (h.slot n d j x hv hx).1
    omega
  | succ k ih =>
    have hi : (i : ℤ) ≤ d.last := by omega
    have hdsound := h.sound _ d hd
    obtain ⟨l, hl'⟩ := Option.isSome_iff_exists.mp hl
    have hlt := (hdsound.index hi).2.2 l hl'
    have hload : load l i = some l[i] := by rw [load_natCast, List.getElem?_eq_getElem hlt]
    cases hx : l[i] with
    | none =>
      have hempty : d.slot i = none := by
        rw [Vec.slot, hl', Option.bind_some, List.getElem?_eq_getElem hlt, hx]
        rfl
      obtain ⟨w', hloop, hlinked, hframe⟩ := ih (i + 1) h hd hm hl (by push_cast at hk ⊢; omega)
        (fun n v j x hv hx hP => by
          obtain ⟨rfl, hj⟩ := hall n v j x hv hx hP
          refine ⟨rfl, ?_⟩
          by_contra hlt
          obtain rfl : j = i := by omega
          obtain rfl : d = v := Option.some.inj (hd.symm.trans hv)
          rw [hempty] at hx
          cases hx)
        (fun j x hx hj => hpending j x hx (by omega))
      refine ⟨w', ?_, hlinked, hframe⟩
      simp only [initLoop, hd, hl', Option.bind_eq_bind, Option.bind_some, hload, hx]
      exact_mod_cast hloop
    | some x =>
      have hslot : d.slot i = some x := by
        rw [Vec.slot, hl', Option.bind_some, List.getElem?_eq_getElem hlt, hx]
        rfl
      obtain ⟨t, M, w₁, ht, hM, hschedule, hinv₁, hframe₁, -, hvecs₁⟩ :=
        h.schedule (hpending i x hslot le_rfl) hd hslot hm ((w.timers[x]?).map Timer.time |>.getD 0)
      rw [ht, Option.map_some, Option.getD_some] at hschedule hvecs₁
      -- the slots that are left
      obtain ⟨d₁, hd₁, hd₁frame, hslots, hother⟩ : ∃ d₁, w₁.vecs[dst]? = some d₁ ∧
          d₁.frame = d.frame ∧ (∀ j y, d₁.slot j = some y → d.slot j = some y) ∧
          ∀ n, n ≠ dst → w₁.vecs[n]? = w.vecs[n]? := by
        by_cases htime : t.time ≤ M.time
        · rw [if_pos htime] at hvecs₁
          rw [hvecs₁]
          refine ⟨d.cleared i, getElem?_set_of_some hd _, d.cleared_frame i, fun j y hy => ?_,
            fun n hn => List.getElem?_set_ne (Ne.symm hn)⟩
          rw [hdsound.cleared_slot hi] at hy
          split at hy
          · cases hy
          · exact hy
        · rw [if_neg htime] at hvecs₁
          rw [hvecs₁]
          exact ⟨d, hd, rfl, fun _ _ hy => hy, fun _ _ => rfl⟩
      obtain ⟨-, hlast₁, -, -, hm₁, -, -, hl₁⟩ := Vec.frame_eq.mp hd₁frame
      obtain ⟨w', hloop, hlinked, hframe⟩ := ih (d := d₁) (i + 1) hinv₁ hd₁ (hm₁.trans hm)
        (hl₁.trans hl) (by rw [hlast₁]; push_cast at hk ⊢; omega)
        (fun n v j y hv hy hP => by
          by_cases hn : n = dst
          · obtain rfl : d₁ = v := Option.some.inj (hd₁.symm.trans (hn ▸ hv))
            obtain ⟨-, hj⟩ := hall dst d j y hd (hslots j y hy) hP.1
            refine ⟨hn, ?_⟩
            by_contra hlt
            obtain rfl : j = i := by omega
            have heq := hslots j y hy
            rw [hslot] at heq
            cases heq
            exact hP.2 rfl
          · rw [hother n hn] at hv
            exact absurd (hall n v j y hv hy hP.1).1 hn)
        (fun j y hy hj => by
          refine ⟨hpending j y (hslots j y hy) (by omega), ?_⟩
          rintro rfl
          have heq := (h.slot_unique hd hslot hd (hslots j y hy)).2
          omega)
      refine ⟨w', ?_, hlinked, hframe.trans hframe₁⟩
      simp only [initLoop, hd, hl', Option.bind_eq_bind, Option.bind_some, hload, hx, ht, hschedule]
      exact_mod_cast hloop

/-! ## The operations -/

variable [Inhabited α]

def Vec.copy (src : Vec α) : Vec α :=
  { src with
    elems := [] ++ List.replicate (src.capacity.toNat - [].length (α := α)) default
    timers := if src.timers.isSome ∧ src.timeout ≠ 0 then
        some ([] ++ List.replicate (src.capacity.toNat - [].length (α := Option ℕ)) none)
      else none
    tmgr := none }

theorem Vec.copy_slot (src : Vec α) (i : ℕ) : src.copy.slot i = none := by
  rw [Vec.slot, Vec.copy]
  dsimp only
  split
  · rw [Option.bind_some, List.nil_append, List.getElem?_replicate]
    split <;> rfl
  · rfl

theorem Vec.Sound.copy (h : src.Sound) : src.copy.Sound where
  last_ge := h.last_ge
  last_lt := h.last_lt
  capacity_pos := h.capacity_pos
  elems_length := realloc_length (l := []) (le_of_lt h.capacity_pos) default
  occupied_length := h.occupied_length
  timers_length l hl := by
    rw [Vec.copy] at hl
    dsimp only at hl
    split at hl
    · cases hl
      exact realloc_length (l := []) (le_of_lt h.capacity_pos) none
    · cases hl
  fits := by
    refine ⟨h.fits.1, h.fits.2.1, fun hs => ?_⟩
    rw [Vec.copy] at hs
    dsimp only at hs
    split at hs
    · rename_i hc
      exact h.fits.2.2 hc.1
    · cases hs

theorem vectorClone_eq (hv : w.vecs[vec]? = some src) (hsound : src.Sound)
    (hctx : ¬ (src.tmgr.isSome ∧ src.tmgr ≠ some ctxTmgr)) :
    vectorClone w vec =
      (cloneLoop src w.vecs.length (src.last + 1).toNat 0
          { w with vecs := w.vecs ++ [src.copy] }).bind fun w' =>
        (if src.tmgr.isSome then cloneInitInThread w' w.vecs.length else some w').bind fun w =>
          some (w, none) := by
  have helems : realloc [] default src.size src.capacity = some src.copy.elems :=
    if_pos hsound.fits.1
  simp only [vectorClone, hv, Option.bind_eq_bind, Option.bind_some, if_neg hctx, helems]
  by_cases hc : src.timers.isSome ∧ src.timeout ≠ 0
  · have htimers : realloc [] (none : Option ℕ) 8 src.capacity =
        some ([] ++ List.replicate (src.capacity.toNat - [].length (α := Option ℕ)) none) :=
      if_pos (hsound.fits.2.2 hc.1)
    have hcopy : src.copy.timers =
        some ([] ++ List.replicate (src.capacity.toNat - [].length (α := Option ℕ)) none) :=
      if_pos hc
    rw [if_pos hc, htimers, Option.map_some, Option.bind_some, ← hcopy]
    congr 1
    funext w'
    split <;> rfl
  · have hcopy : src.copy.timers = none := if_neg hc
    rw [if_neg hc, ← hcopy]
    congr 1
    funext w'
    split <;> rfl

theorem vectorClone_copied (h : w.Linked) (hv : w.vecs[vec]? = some src) :
    ∃ w' d', cloneLoop src w.vecs.length (src.last + 1).toNat 0
        { w with vecs := w.vecs ++ [src.copy] } = some w' ∧
      w'.Inv (w.timers.length ≤ ·) ∧ w'.vecs = w.vecs ++ [d'] ∧ d'.frame = src.copy.frame ∧
      w'.mgrs = w.mgrs ∧
      ∀ j x, d'.slot j = some x → w.timers.length ≤ x ∧ (src.slot j).isSome := by
  have hsound := h.sound _ src hv
  have hge := hsound.last_ge
  have happend := World.Inv.append_vec h hsound.copy src.copy_slot (fun m hm => by cases hm)
  have hpending : World.Inv (w.timers.length ≤ ·) { w with vecs := w.vecs ++ [src.copy] } := by
    refine happend.congr_slots fun n v i x hv hx => ⟨False.elim, fun hle => ?_⟩
    obtain ⟨-, t, ht, -⟩ := happend.slot n v i x hv hx
    have hlt := (List.getElem?_eq_some_iff.mp ht).1
    dsimp only at hle hlt
    omega
  have hlt := (List.getElem?_eq_some_iff.mp hv).1
  obtain ⟨w', d', heq, hinv, hvecs, hrest⟩ :=
    cloneLoop_ready (src.last + 1).toNat 0 hpending le_rfl
      ((List.getElem?_append_left hlt).trans hv) (ne_of_lt hlt) List.getElem?_concat_length rfl
      (fun hc => by rw [Vec.copy]; dsimp only; rw [if_pos hc]; rfl) (by push_cast; omega)
      (fun j _ => src.copy_slot j) (fun j x hx => by rw [src.copy_slot] at hx; cases hx)
  refine ⟨w', d', heq, hinv, ?_, hrest⟩
  rw [hvecs, List.set_append_right _ _ le_rfl, Nat.sub_self]
  rfl

def Vec.CloneReady (v : Vec α) : Prop :=
  v.tmgr = some ctxTmgr → v.timers.isSome ∧ v.timeout ≠ 0

theorem vectorClone_ready (h : w.Linked) (hv : w.vecs[vec]? = some src) (hready : src.CloneReady) :
    ∃ r, vectorClone w vec = some r ∧ r.1.Linked ∧ r.1.mgrs.length = w.mgrs.length ∧
      ∀ (n : ℕ) (v' : Vec α), r.1.vecs[n]? = some v' →
        (∃ v, w.vecs[n]? = some v ∧ v'.kind = v.kind) ∨ (v'.tmgr.isSome → v'.timers.isSome) := by
  by_cases hctx : src.tmgr.isSome ∧ src.tmgr ≠ some ctxTmgr
  · refine ⟨(w, some .cloningNotSupported), ?_, h, rfl, fun n v' hv' => .inl ⟨v', hv', rfl⟩⟩
    simp only [vectorClone, hv, Option.bind_eq_bind, Option.bind_some, if_pos hctx]
  · obtain ⟨w', d', heq, hinv, hvecs, hframe, hmgrs, hpending⟩ := vectorClone_copied h hv
    obtain ⟨-, hlast, -, -, htmgr, -, -, htimers⟩ := Vec.frame_eq.mp hframe
    have hlen : w'.mgrs.length = w.mgrs.length := by rw [hmgrs]
    have hd' : w'.vecs[w.vecs.length]? = some d' := by
      rw [hvecs]
      exact List.getElem?_concat_length
    have hold : ∀ (n : ℕ) (v : Vec α) (j x : ℕ), w.vecs[n]? = some v → v.slot j = some x →
        ¬ w.timers.length ≤ x := by
      intro n v j x hv hx
      obtain ⟨-, t, ht, -⟩ := h.slot n v j x hv hx
      exact not_le.mpr (List.getElem?_eq_some_iff.mp ht).1
    rw [vectorClone_eq hv (h.sound _ src hv) hctx, heq, Option.bind_some]
    by_cases hm : src.tmgr.isSome
    · -- the timers are scheduled with the manager of the thread
      have hm' : src.tmgr = some ctxTmgr := by
        by_contra hne
        exact hctx ⟨hm, hne⟩
      have hl : d'.timers.isSome := by
        rw [htimers, Vec.copy]
        dsimp only
        rw [if_pos (hready hm')]
        rfl
      set d₁ : Vec α := { d' with tmgr := some ctxTmgr } with hd₁
      have hinv₁ : (w'.setVec w.vecs.length d₁).Inv (w.timers.length ≤ ·) := by
        have hsound := hinv.sound _ d' hd'
        refine hinv.update hd' ⟨hsound.last_ge, hsound.last_lt, hsound.capacity_pos,
          hsound.elems_length, hsound.occupied_length, hsound.timers_length, hsound.fits⟩
          (fun _ => rfl) le_rfl (.inr ⟨fun j x hx => (hpending j x hx).1, fun m hm => ?_⟩)
        cases hm
        rw [hlen]
        exact h.ctx
      have hd₁' : (w'.setVec w.vecs.length d₁).vecs[w.vecs.length]? = some d₁ :=
        getElem?_set_of_some hd' d₁
      have hge := (h.sound _ src hv).last_ge
      obtain ⟨w'', hloop, hlinked, hframe''⟩ :=
        initLoop_ready (d₁.last + 1).toNat 0 hinv₁ hd₁' rfl hl
          (by rw [show d₁.last = src.last from hlast]; push_cast; omega)
          (fun n v j x hv hx hle => by
            refine ⟨?_, Nat.zero_le _⟩
            by_contra hne
            rw [World.setVec, List.getElem?_set_ne (Ne.symm hne), hvecs] at hv
            rcases getElem?_concat_cases hv with hv | ⟨hn, -⟩
            · exact hold n v j x hv hx hle
            · exact hne hn)
          (fun j x hx _ => (hpending j x hx).1)
      have hinit : cloneInitInThread w' w.vecs.length = some w'' := by
        simp only [cloneInitInThread, hd', Option.bind_eq_bind, Option.bind_some, if_pos hl]
        exact hloop
      refine ⟨(w'', none), ?_, hlinked, ?_, fun n v' hv' => ?_⟩
      · rw [if_pos hm, hinit, Option.bind_some]
      · exact (congrArg Prod.snd hframe'').trans (by rw [World.setVec]; exact hlen)
      · obtain ⟨v, hv, hframe'⟩ := World.frame_vec hframe'' hv'
        have hkind := Vec.kind_of_frame hframe'
        rcases getElem?_set_cases hv with ⟨-, rfl⟩ | ⟨-, hv⟩
        · refine .inr fun _ => ?_
          rw [(Vec.kind_eq.mp hkind).2.2.2.2.2]
          exact hl
        · rw [hvecs] at hv
          rcases getElem?_concat_cases hv with hv | ⟨-, rfl⟩
          · exact .inl ⟨v, hv, hkind⟩
          · refine .inr fun _ => ?_
            rw [(Vec.kind_eq.mp hkind).2.2.2.2.2]
            exact hl
    · rw [if_neg hm]
      refine ⟨(w', none), rfl, hinv.congr_slots fun n v j x hv' hx => ⟨fun hle => ?_, False.elim⟩,
        hlen, fun n v' hv' => ?_⟩
      · rw [hvecs] at hv'
        rcases getElem?_concat_cases hv' with hv' | ⟨-, rfl⟩
        · exact hold n v j x hv' hx hle
        · -- a vector without a manager has no timers to be copied
          obtain ⟨y, hy⟩ := Option.isSome_iff_exists.mp (hpending j x hx).2
          obtain ⟨-, t, -, -, -, -, hmgr⟩ := h.slot _ src j y hv hy
          exact hm (hmgr not_false).1
      · rw [hvecs] at hv'
        rcases getElem?_concat_cases hv' with hv' | ⟨-, rfl⟩
        · exact .inl ⟨v', hv', rfl⟩
        · refine .inr fun hm' => ?_
          rw [htmgr] at hm'
          cases hm'

theorem vectorClone_not_ready (h : w.Linked) (hv : w.vecs[vec]? = some src)
    (hready : ¬ src.CloneReady) : vectorClone w vec = none := by
  rw [Vec.CloneReady, Classical.not_imp] at hready
  obtain ⟨hm, hc⟩ := hready
  obtain ⟨w', d', heq, -, hvecs, hframe, -⟩ := vectorClone_copied h hv
  have hd' : w'.vecs[w.vecs.length]? = some d' := by
    rw [hvecs]
    exact List.getElem?_concat_length
  have hl : ¬ d'.timers.isSome := by
    rw [(Vec.frame_eq.mp hframe).2.2.2.2.2.2.2, Vec.copy]
    dsimp only
    rw [if_neg hc]
    exact Bool.false_ne_true
  rw [vectorClone_eq hv (h.sound _ src hv) (fun hctx => hctx.2 hm), heq, Option.bind_some,
    if_pos (by rw [hm]; rfl)]
  simp only [cloneInitInThread, hd', Option.bind_eq_bind, Option.bind_some, if_neg hl,
    Option.bind_none]

end Hilti.Vector
