import Hilti.Vector.Cloning

/-!
# Consistency of vectors

`hlt_vector_timeout` attaches the manager of the thread to a vector that has none, but allocates
no room for timers, as `hlt_vector_new` does for a vector with a manager.  Where no vector gets
its manager that way, and indexes and sizes stay within bounds, every run goes through and leaves
consistent vectors behind.
-/

namespace Hilti.Vector

open Hilti.Lib

set_option autoImplicit false

variable {α : Type}

/-- Room for all elements, and for their timers if there is a manager. -/
def World.Consistent (w : World α) : Prop :=
  ∀ (n : ℕ) (v : Vec α), w.vecs[n]? = some v →
    v.last < v.capacity ∧ (v.elems.length : ℤ) = v.capacity ∧
      (v.occupied.length : ℤ) = v.capacity ∧
      (v.tmgr.isSome → ∃ l, v.timers = some l ∧ (l.length : ℤ) = v.capacity)

def World.Armed (w : World α) : Prop :=
  ∀ (n : ℕ) (v : Vec α), w.vecs[n]? = some v → v.tmgr.isSome → v.timers.isSome

theorem World.Linked.consistent {w : World α} (h : w.Linked) (harmed : w.Armed) :
    w.Consistent := by
  intro n v hv
  have hsound := h.sound n v hv
  refine ⟨hsound.last_lt, hsound.elems_length, hsound.occupied_length, fun hm => ?_⟩
  obtain ⟨l, hl⟩ := Option.isSome_iff_exists.mp (harmed n v hv hm)
  exact ⟨l, hl, hsound.timers_length l hl⟩

section

variable {w w' : World α}

theorem Vec.armed_of_kind {v v' : Vec α} (hkind : v'.kind = v.kind)
    (h : v.tmgr.isSome → v.timers.isSome) (hm : v'.tmgr.isSome) : v'.timers.isSome := by
  obtain ⟨-, -, htmgr, -, -, htimers⟩ := Vec.kind_eq.mp hkind
  rw [htimers]
  exact h (by rwa [htmgr] at hm)

theorem World.Armed.of_frame (h : w.Armed) (hframe : w'.frame = w.frame) : w'.Armed := by
  intro n v' hv'
  obtain ⟨v, hv, hvframe⟩ := World.frame_vec hframe hv'
  exact Vec.armed_of_kind (Vec.kind_of_frame hvframe) (h n v hv)

theorem World.Armed.set (h : w.Armed) {n : ℕ} {v v' : Vec α} (hv : w.vecs[n]? = some v)
    (hkind : v'.kind = v.kind) (hvecs : w'.vecs = w.vecs.set n v') : w'.Armed := by
  intro k u hu
  rw [hvecs] at hu
  rcases getElem?_set_cases hu with ⟨-, rfl⟩ | ⟨-, hu⟩
  · exact Vec.armed_of_kind hkind (h n v hv)
  · exact h k u hu

end

variable [Inhabited α]

/-! ## One step -/

/-- What an operation needs.  `hlt_vector_timeout` must not have to attach a manager. -/
def StepOk (w : World α) : Op α → Prop
  | .newMgr => True
  | .new size _ tmgr => (∀ m ∈ tmgr, m < w.mgrs.length) ∧ size < 2 ^ 64
  | .timeout vec _ _ => ∃ v ∈ w.vecs[vec]?, v.tmgr.isSome
  | .set vec i _ =>
    ∃ v ∈ w.vecs[vec]?, 0 ≤ i ∧ v.last < 2 ^ 31 - 1 ∧ i < 2 ^ 31 - 1 ∧ v.RoomFits i
  | .pushBack vec _ =>
    ∃ v ∈ w.vecs[vec]?, v.capacity ≤ v.last + 1 → ∃ c ∈ growNext v.capacity, v.Fits c
  | .reserve vec n => ∃ v ∈ w.vecs[vec]?, v.capacity < n → v.Fits n
  | .clone vec => ∃ v ∈ w.vecs[vec]?, v.tmgr = some ctxTmgr → v.timeout ≠ 0
  | .get vec i => vec < w.vecs.length ∧ 0 ≤ i
  | .advance m _ => m < w.mgrs.length

instance (w : World α) : (op : Op α) → Decidable (StepOk w op)
  | .newMgr => isTrue trivial
  | .new .. => inferInstanceAs (Decidable (_ ∧ _))
  | .timeout .. => inferInstanceAs (Decidable (∃ v ∈ _, _))
  | .set .. => inferInstanceAs (Decidable (∃ v ∈ _, _))
  | .pushBack .. => inferInstanceAs (Decidable (∃ v ∈ _, _))
  | .reserve .. => inferInstanceAs (Decidable (∃ v ∈ _, _))
  | .clone .. => inferInstanceAs (Decidable (∃ v ∈ _, _))
  | .get .. => inferInstanceAs (Decidable (_ ∧ _))
  | .advance .. => inferInstanceAs (Decidable (_ < _))

section

variable {w : World α}

omit [Inhabited α] in
theorem newMgr_linked (h : w.Linked) (M : Mgr) (hM : M.queue = []) :
    World.Linked { w with mgrs := w.mgrs ++ [M] } where
  sound := h.sound
  slot := h.slot
  timer := h.timer
  queue m N x hN hx := by
    rcases getElem?_concat_cases hN with hN | ⟨-, rfl⟩
    · exact h.queue m N x hN hx
    · rw [hM] at hx
      cases hx
  nodup m N hN := by
    rcases getElem?_concat_cases hN with hN | ⟨-, rfl⟩
    · exact h.nodup m N hN
    · rw [hM]
      exact List.nodup_nil
  mgr n v m hv hm := by
    rw [List.length_append]
    exact Nat.lt_add_right _ (h.mgr n v m hv hm)
  ctx := by
    rw [List.length_append]
    exact Nat.lt_add_right _ h.ctx

/-- The vector that `hlt_vector_new` makes. -/
def newVec (size : ℕ) (d : α) (tmgr : Option ℕ) : Vec α :=
  ⟨size, [default], [false], tmgr.map fun _ => [none], -1, 1, d, tmgr, 0, none⟩

theorem vectorNew_eq (w : World α) (size : ℕ) (d : α) (tmgr : Option ℕ) :
    vectorNew w size d tmgr =
      if size < 2 ^ 64 then some { w with vecs := w.vecs ++ [newVec size d tmgr] } else none := by
  have helems : realloc [] (default : α) size 1 =
      if size < 2 ^ 64 then some [default] else none := by
    rw [realloc]
    congr 1
    exact propext (by rw [Int.toNat_one, mul_one])
  rw [vectorNew, helems]
  split <;> rfl

theorem newVec_sound {size : ℕ} (hsize : size < 2 ^ 64) (d : α) (tmgr : Option ℕ) :
    (newVec size d tmgr).Sound where
  last_ge := le_rfl
  last_lt := show (-1 : ℤ) < 1 by decide
  capacity_pos := show (0 : ℤ) < 1 by decide
  elems_length := rfl
  occupied_length := rfl
  timers_length l hl := by
    obtain ⟨m, -, rfl⟩ := Option.map_eq_some_iff.mp hl
    rfl
  fits := ⟨by rw [show (newVec size d tmgr).capacity.toNat = 1 from rfl, mul_one]; exact hsize,
    show (1 : ℤ).toNat < 2 ^ 64 by decide, fun _ => show 8 * (1 : ℤ).toNat < 2 ^ 64 by decide⟩

theorem newVec_slot (size : ℕ) (d : α) (tmgr : Option ℕ) (i : ℕ) :
    (newVec size d tmgr).slot i = none := by
  cases tmgr with
  | none => rfl
  | some m => cases i <;> rfl

theorem newVec_armed (size : ℕ) (d : α) (tmgr : Option ℕ) :
    (newVec size d tmgr).tmgr.isSome → (newVec size d tmgr).timers.isSome := by
  intro hm
  rwa [newVec, Option.isSome_map]

omit [Inhabited α] in
theorem vectorTimeout_linked (h : w.Linked) {n : ℕ} {v : Vec α} (hv : w.vecs[n]? = some v)
    (strategy : ExpireStrategy) (timeout : ℕ) :
    ∃ v', vectorTimeout w n strategy timeout = some (w.setVec n v') ∧
      (w.setVec n v').Linked ∧ v'.tmgr = some (v.tmgr.getD ctxTmgr) ∧ v'.timers = v.timers := by
  have hsound := h.sound n v hv
  refine ⟨{ v with
    timeout := timeout, strategy := some strategy, tmgr := some (v.tmgr.getD ctxTmgr) },
    by rw [vectorTimeout, hv]; rfl, ?_, rfl, rfl⟩
  refine h.update hv ⟨hsound.last_ge, hsound.last_lt, hsound.capacity_pos, hsound.elems_length,
    hsound.occupied_length, hsound.timers_length, hsound.fits⟩ (fun _ => rfl) le_rfl ?_
  cases hm : v.tmgr with
  | some m => exact .inl rfl
  | none =>
    refine .inr ⟨fun i x hx => ?_, fun m hm' => ?_⟩
    · -- without a manager there are no timers
      obtain ⟨-, t, -, -, -, -, hmgr⟩ := h.slot n v i x hv hx
      have hsome := (hmgr not_false).1
      rw [hm] at hsome
      cases hsome
    · cases hm'
      exact h.ctx

theorem vectorReserve_linked (h : w.Linked) {n : ℕ} {v : Vec α} (hv : w.vecs[n]? = some v) {c : ℤ}
    (hfits : v.capacity < c → v.Fits c) :
    ∃ v', vectorReserve w n c = some (w.setVec n v') ∧ (w.setVec n v').Linked ∧
      v'.kind = v.kind := by
  have hsound := h.sound n v hv
  by_cases hc : v.capacity ≥ c
  · refine ⟨v, ?_, ?_, rfl⟩
    · rw [vectorReserve, hv, Option.bind_eq_bind, Option.bind_some, reserve_eq, if_pos hc]
      rfl
    · rw [World.setVec, set_eq_self hv]
      exact h
  · have hlt : v.capacity < c := not_le.mp hc
    refine ⟨v.grown c, ?_, ?_, v.grown_kind c⟩
    · rw [vectorReserve, hv, Option.bind_eq_bind, Option.bind_some, reserve_eq, if_neg hc,
        if_pos (hfits hlt)]
      rfl
    · exact h.update hv (hsound.grown hlt.le (hfits hlt)) (v.grown_slot c) le_rfl (.inl rfl)

theorem step_consistent (h : w.Linked ∧ w.Armed) (op : Op α) (hok : StepOk w op) :
    ∃ w', (machine α).next w op = some w' ∧ w'.Linked ∧ w'.Armed := by
  obtain ⟨hlinked, harmed⟩ := h
  cases op with
  | newMgr => exact ⟨_, rfl, newMgr_linked hlinked _ rfl, harmed⟩
  | new size d tmgr =>
    obtain ⟨hm, hsize⟩ := hok
    refine ⟨{ w with vecs := w.vecs ++ [newVec size d tmgr] }, ?_,
      hlinked.append_vec (newVec_sound hsize d tmgr) (newVec_slot size d tmgr) hm, fun n v hv => ?_⟩
    · change (if ∀ m ∈ tmgr, m < w.mgrs.length then vectorNew w size d tmgr else none) = _
      rw [if_pos hm, vectorNew_eq, if_pos hsize]
    · rcases getElem?_concat_cases hv with hv | ⟨-, rfl⟩
      · exact harmed n v hv
      · exact newVec_armed size d tmgr
  | timeout vec strategy timeout =>
    obtain ⟨v, hv, hm⟩ := hok
    obtain ⟨v', heq, hlinked', -, htimers⟩ := vectorTimeout_linked hlinked hv strategy timeout
    refine ⟨_, heq, hlinked', fun n u hu => ?_⟩
    rcases getElem?_set_cases hu with ⟨-, rfl⟩ | ⟨-, hu⟩
    · intro _
      rw [htimers]
      exact harmed vec v hv hm
    · exact harmed n u hu
  | set vec i val =>
    obtain ⟨v, hv, hi, hlast, hint, hfits⟩ := hok
    lift i to ℕ using hi
    obtain ⟨w', v', heq, hlinked', hvecs, -, -, hkind, -⟩ := vectorSet_ready hlinked hv
      ⟨Int.natCast_nonneg i, hlast, hint, hfits, fun hm _ => harmed vec v hv hm⟩ val
    exact ⟨w', congrArg (Option.map Prod.fst) heq, hlinked', harmed.set hv hkind hvecs⟩
  | pushBack vec val =>
    obtain ⟨v, hv, hfits⟩ := hok
    obtain ⟨w', v', heq, hlinked', hvecs, hkind⟩ :=
      vectorPushBack_ready hlinked hv ⟨hfits, harmed vec v hv⟩ val
    exact ⟨w', heq, hlinked', harmed.set hv hkind hvecs⟩
  | reserve vec n =>
    obtain ⟨v, hv, hfits⟩ := hok
    obtain ⟨v', heq, hlinked', hkind⟩ := vectorReserve_linked hlinked hv hfits
    exact ⟨_, heq, hlinked', harmed.set hv hkind rfl⟩
  | clone vec =>
    obtain ⟨v, hv, htimeout⟩ := hok
    obtain ⟨r, heq, hlinked', -, hvecs⟩ := vectorClone_ready hlinked hv
      fun hm => ⟨harmed vec v hv (by rw [hm]; rfl), htimeout hm⟩
    refine ⟨r.1, congrArg (Option.map Prod.fst) heq, hlinked', fun n v' hv' => ?_⟩
    rcases hvecs n v' hv' with ⟨v, hv, hkind⟩ | harmed'
    · exact Vec.armed_of_kind hkind (harmed n v hv)
    · exact harmed'
  | get vec i =>
    obtain ⟨hlt, hi⟩ := hok
    obtain ⟨v, hv⟩ : ∃ v, w.vecs[vec]? = some v := ⟨_, List.getElem?_eq_getElem hlt⟩
    by_cases hlast : v.last < i
    · exact ⟨w, congrArg (Option.map Prod.fst) (vectorGet_of_gt hv hlast), hlinked, harmed⟩
    · lift i to ℕ using hi
      obtain ⟨w', v', x, heq, hlinked', hframe, -⟩ := vectorGet_ready hlinked hv (not_lt.mp hlast)
        fun _ hm _ => harmed vec v hv hm
      exact ⟨w', congrArg (Option.map Prod.fst) heq, hlinked', harmed.of_frame hframe⟩
  | advance m time =>
    obtain ⟨w', heq, hlinked', hframe⟩ := hlinked.advance hok time
    exact ⟨w', heq, hlinked', harmed.of_frame hframe⟩

end

/-! ## Runs -/

theorem start_linked : (machine α).start.Linked where
  sound n v hv := by cases hv
  slot n v i x hv := by cases hv
  timer x t ht := by cases ht
  queue m M x hM hx := by
    obtain ⟨rfl, rfl⟩ : m = 0 ∧ M = ⟨0, []⟩ := by
      cases m with
      | zero => exact ⟨rfl, (Option.some.inj hM).symm⟩
      | succ m => cases hM
    cases hx
  nodup m M hM := by
    cases m with
    | zero =>
      cases hM
      exact List.nodup_nil
    | succ m => cases hM
  mgr n v m hv := by cases hv
  ctx := Nat.one_pos

end Hilti.Vector
