import Hilti.Lists.Queues

/-!
# Well-formed lists

What holds of the lists, timers and timer managers of a run, and the sequences that the lists stand
for.  Nodes and timers know each other, and nodes that have been taken out are invalid and linked
to nothing.
-/

namespace Hilti.Lists

open Hilti.Lib
open Hilti.TimerMgr (HeapOf)

set_option autoImplicit false

variable {α : Type}

/-- The nodes of a list in order. -/
def HltList.entries (l : HltList α) : List (ℕ × Node α) := l.cells.entries

/-! ## The sequences -/

def itemOf (timers : ℕ → Option Timer) (e : ℕ × Node α) : Item α :=
  ⟨e.1, e.2.data, e.2.timer.map (timeOf timers)⟩

def seqOf (timers : ℕ → Option Timer) (l : HltList α) : Sequence α :=
  ⟨l.entries.map (itemOf timers), l.cells.fresh, l.tmgr, l.timeout, l.strategy⟩

def specOf (w : World α) : Spec α where
  seqs n := (w.lists n).map (seqOf w.timers)
  times m := (w.mgrs m).map Mgr.time
  listCount := w.listCount
  mgrCount := w.mgrCount

/-! ## Well-formedness -/

/-- The list with the number `n`. -/
structure ListOk (timers : ℕ → Option Timer) (n : ℕ) (l : HltList α) : Prop where
  cells : l.cells.Represents l.entries
  size : l.size = l.entries.length
  valid : ∀ e ∈ l.entries, e.2.invalid = false
  timer : ∀ e ∈ l.entries, ∀ x, e.2.timer = some x →
    ∃ t m, timers x = some t ∧ t.mgr = some m ∧ l.tmgr = some m ∧ t.list = n ∧ t.node = e.1
  gone : ∀ a, a < l.cells.fresh → a ∉ l.entries.map Prod.fst →
    ∃ d, l.cells.heap a = some ⟨none, none, ⟨none, true, d⟩⟩
  timeout : l.timeout < 2 ^ 64

structure Good (w : World α) : Prop where
  lists : ∀ n l, w.lists n = some l → ListOk w.timers n l
  managed : ∀ n l m, w.lists n = some l → l.tmgr = some m → (w.mgrs m).isSome
  owned : ∀ x t m, w.timers x = some t → t.mgr = some m →
    ∃ l v, w.lists t.list = some l ∧ (t.node, v) ∈ l.entries ∧ v.timer = some x
  queued : Queued w.timers w.mgrs
  times : ∀ m M, w.mgrs m = some M → M.time < 2 ^ 64
  timerCount : ∀ x t, w.timers x = some t → x < w.timerCount
  listCount : ∀ n, w.listCount ≤ n → w.lists n = none
  mgrCount : ∀ m, w.mgrCount ≤ m → w.mgrs m = none
  main : (w.mgrs ctxTmgr).isSome

theorem initWorld_good : Good (initWorld : World α) where
  lists _ _ h := nomatch h
  managed _ _ _ h := nomatch h
  owned _ _ _ h := nomatch h
  queued m M hM := by
    have hM' : M = newMgr := by
      simp only [initWorld] at hM
      split at hM
      · exact (Option.some.inj hM).symm
      · cases hM
    subst hM'
    exact newMgr_heapOf _ fun y ⟨t, ht, _⟩ => nomatch ht
  times m M hM := by
    simp only [initWorld] at hM
    split at hM
    · cases hM
      exact Nat.two_pow_pos 64
    · cases hM
  timerCount _ _ h := nomatch h
  listCount _ _ := rfl
  mgrCount m hm := if_neg fun he => by
    rw [he] at hm
    exact absurd hm (Nat.not_succ_le_zero _)
  main := rfl

theorem initWorld_spec : specOf (initWorld : World α) = initSpec := by
  have htimes : (fun m => ((initWorld : World α).mgrs m).map Mgr.time) =
      fun m => if m = ctxTmgr then some 0 else none := by
    funext m
    by_cases hm : m = ctxTmgr
    · subst hm
      rfl
    · simp [initWorld, hm]
  rw [specOf, htimes]
  rfl

namespace ListOk

variable {timers : ℕ → Option Timer} {n : ℕ} {l : HltList α}

theorem of_timers (h : ListOk timers n l) {timers' : ℕ → Option Timer}
    (hkept : ∀ x t, t.list = n → timers x = some t → timers' x = some t) : ListOk timers' n l where
  cells := h.cells
  size := h.size
  valid := h.valid
  timer e he x hx := by
    obtain ⟨t, m, ht, hm, hl, hn, ha⟩ := h.timer e he x hx
    exact ⟨t, m, hkept x t hn ht, hm, hl, hn, ha⟩
  gone := h.gone
  timeout := h.timeout

theorem seqOf_congr (h : ListOk timers n l) {timers' : ℕ → Option Timer}
    (hkept : ∀ x t, t.list = n → timers x = some t → timers' x = some t) :
    seqOf timers' l = seqOf timers l := by
  have hitems : l.entries.map (itemOf timers') = l.entries.map (itemOf timers) := by
    refine List.map_congr_left fun e he => ?_
    cases hx : e.2.timer with
    | none => simp [itemOf, hx]
    | some x =>
      obtain ⟨t, m, ht, -, -, hn, -⟩ := h.timer e he x hx
      simp [itemOf, hx, timeOf_eq ht, timeOf_eq (hkept x t hn ht)]
  rw [seqOf, hitems]
  rfl

theorem known (h : ListOk timers n l) {a : ℕ} (ha : a < l.cells.fresh) :
    (∃ l₁ v l₂, l.entries = l₁ ++ (a, v) :: l₂) ∨
      ∃ d, l.cells.heap a = some ⟨none, none, ⟨none, true, d⟩⟩ ∧ a ∉ l.entries.map Prod.fst := by
  by_cases hmem : a ∈ l.entries.map Prod.fst
  · obtain ⟨⟨b, v⟩, he, rfl⟩ := List.mem_map.mp hmem
    obtain ⟨l₁, l₂, hl⟩ := List.append_of_mem he
    exact .inl ⟨l₁, v, l₂, hl⟩
  · obtain ⟨d, hd⟩ := h.gone a ha hmem
    exact .inr ⟨d, hd, hmem⟩

end ListOk

/-! ## One list changes -/

theorem Good.spec_seqs {w : World α} {n : ℕ} {l : HltList α} (hl : w.lists n = some l) :
    (specOf w).seqs n = some (seqOf w.timers l) := by
  simp [specOf, hl]

theorem Good.update {w : World α} (h : Good w) (w' : World α) {n : ℕ} {l' : HltList α}
    (hn : n < w.listCount)
    (hlists : w'.lists = Function.update w.lists n (some l')) (hlc : w'.listCount = w.listCount)
    (hmc : w'.mgrCount = w.mgrCount) (hqueued : Queued w'.timers w'.mgrs)
    (htimes : ∀ m, (w'.mgrs m).map Mgr.time = (w.mgrs m).map Mgr.time)
    (hok : ListOk w'.timers n l') (hmanaged : ∀ m, l'.tmgr = some m → (w.mgrs m).isSome)
    (hkept : ∀ x t, t.list ≠ n → (w'.timers x = some t ↔ w.timers x = some t))
    (howned : ∀ x t m, w'.timers x = some t → t.mgr = some m → t.list = n →
      ∃ v, (t.node, v) ∈ l'.entries ∧ v.timer = some x)
    (hcount : ∀ x t, w'.timers x = some t → x < w'.timerCount) :
    Good w' ∧ specOf w' = (specOf w).setSeq n (seqOf w'.timers l') := by
  have hsome : ∀ m, (w'.mgrs m).isSome = (w.mgrs m).isSome := fun m => by
    have := congrArg Option.isSome (htimes m)
    rwa [Option.isSome_map, Option.isSome_map] at this
  have hself : w'.lists n = some l' := by rw [hlists, Function.update_self]
  have hne : ∀ k, k ≠ n → w'.lists k = w.lists k := fun k hk => by
    rw [hlists, Function.update_of_ne hk]
  refine ⟨⟨fun k l hl => ?_, fun k l m hl hm => ?_, fun x t m ht hm => ?_, hqueued, fun m M hM => ?_,
    hcount, fun k hk => ?_, fun m hm => ?_, (hsome _).trans h.main⟩, ?_⟩
  · by_cases hk : k = n
    · subst hk
      cases hself.symm.trans hl
      exact hok
    · rw [hne k hk] at hl
      exact (h.lists k l hl).of_timers fun x t hlist ht => (hkept x t (hlist ▸ hk)).mpr ht
  · rw [hsome]
    by_cases hk : k = n
    · subst hk
      cases hself.symm.trans hl
      exact hmanaged m hm
    · rw [hne k hk] at hl
      exact h.managed k l m hl hm
  · by_cases hk : t.list = n
    · obtain ⟨v, hv, hx⟩ := howned x t m ht hm hk
      exact ⟨l', v, hk ▸ hself, hv, hx⟩
    · rw [hne t.list hk]
      exact h.owned x t m ((hkept x t hk).mp ht) hm
  · have hmap := htimes m
    rw [hM, Option.map_some] at hmap
    obtain ⟨K, hK, hKM⟩ := Option.map_eq_some_iff.mp hmap.symm
    exact hKM ▸ h.times m K hK
  · rw [hlc] at hk
    rw [hne k (by omega)]
    exact h.listCount k hk
  · rw [hmc] at hm
    have hnone := hsome m
    rw [h.mgrCount m hm] at hnone
    exact Option.isNone_iff_eq_none.mp (by simpa using hnone)
  · have hseqs : (fun k => (w'.lists k).map (seqOf w'.timers)) =
        Function.update (fun k => (w.lists k).map (seqOf w.timers)) n (some (seqOf w'.timers l')) := by
      funext k
      by_cases hk : k = n
      · subst hk
        rw [hself, Function.update_self]
        rfl
      · rw [hne k hk, Function.update_of_ne hk]
        cases hl : w.lists k with
        | none => rfl
        | some l =>
          exact congrArg some ((h.lists k l hl).seqOf_congr fun x t hlist ht =>
            (hkept x t (hlist ▸ hk)).mpr ht)
    rw [specOf, hseqs, funext htimes, hlc, hmc]
    rfl

end Hilti.Lists
