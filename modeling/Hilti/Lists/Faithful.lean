import Hilti.Lists.Operations

/-!
# Lists are sequences

Along every run in which deadlines do not overflow, and in which no access puts a timer ahead of
its parent in the heap, the lists are well formed and stand for the sequences that the operations
yield, with the same results.
-/

namespace Hilti.Lists

open Hilti.Lib

set_option autoImplicit false

variable {α : Type} {w : World α}

/-- What an operation must meet: its lists, managers and iterators are there, times are those of
64 bits, lists are not appended to themselves, new nodes get deadlines that do not overflow, and
accesses put timers off. -/
def fine (w : World α) : Op α → Bool
  | .newMgr => true
  | .new tmgr => tmgr.all fun m => (w.mgrs m).isSome
  | .timeout n _ timeout => (w.lists n).isSome && timeout < 2 ^ 64
  | .pushFront n _ => pushFits w n
  | .pushBack n _ => pushFits w n
  | .popFront n => (w.lists n).isSome
  | .popBack n => (w.lists n).isSome
  | .front n => (w.lists n).any fun l => l.cells.first.all (accessFits w n)
  | .back n => (w.lists n).any fun l => l.cells.last.all (accessFits w n)
  | .size n => (w.lists n).isSome
  | .append n1 n2 => n1 ≠ n2 && (w.lists n1).isSome &&
      (w.lists n2).any fun l => l.cells.first.isNone || pushFits w n1
  | .erase i => known w i
  | .insert _ i => known w i &&
      i.list.all fun n => invalidNode w n i.node = some true || pushFits w n
  | .begin n => (w.lists n).isSome
  | .stop n => (w.lists n).isSome
  | .incr i => known w i
  | .deref i => known w i && iterFits w i
  | .eq i1 i2 => known w i1 && known w i2 && iterFits w i1 &&
      (accessIter w i1).all fun r => iterFits r.1 i2
  | .advance m time => (w.mgrs m).isSome && time < 2 ^ 64
  | .expire m => (w.mgrs m).isSome

/-! ## One operation -/

theorem timerMgrNew_good (h : Good w) :
    Agrees (some (timerMgrNew w, .done)) (specStep (specOf w) .newMgr) := by
  have hself : (timerMgrNew w).mgrs w.mgrCount = some newMgr := Function.update_self _ _ _
  have hne : ∀ k, k ≠ w.mgrCount → (timerMgrNew w).mgrs k = w.mgrs k :=
    fun k hk => Function.update_of_ne hk _ _
  have hold : ∀ k, (w.mgrs k).isSome → k ≠ w.mgrCount := by
    rintro k hk rfl
    rw [h.mgrCount _ le_rfl] at hk
    cases hk
  have hwait : ∀ x, ¬ Waits w.timers w.mgrCount x := by
    rintro x ⟨t, ht, hm⟩
    obtain ⟨l, v, hl, hv, hx⟩ := h.owned x t _ ht hm
    obtain ⟨t', m, ht', hm', htm, -⟩ := (h.lists _ l hl).timer _ hv x hx
    cases ht.symm.trans ht'
    cases hm.symm.trans hm'
    exact hold _ (h.managed _ l _ hl htm) rfl
  refine ⟨timerMgrNew w, .done, rfl, ?_, ⟨h.lists, fun n l m hl hm => ?_, h.owned, fun k K hK => ?_,
    fun k K hK => ?_, h.timerCount, h.listCount, fun k hk => ?_, ?_⟩⟩
  · refine congrArg some (Prod.ext ?_ rfl)
    refine congrArg (fun times => (⟨_, times, _, _⟩ : Spec α)) (funext fun k => ?_)
    by_cases hk : k = w.mgrCount
    · subst hk
      rw [hself]
      exact Function.update_self _ _ _
    · rw [hne k hk]
      exact Function.update_of_ne hk _ _
  · have hsome := h.managed n l m hl hm
    rw [hne m (hold m hsome)]
    exact hsome
  · by_cases hk : k = w.mgrCount
    · subst hk
      cases hself.symm.trans hK
      exact newMgr_heapOf _ hwait
    · exact h.queued k K ((hne k hk).symm.trans hK)
  · by_cases hk : k = w.mgrCount
    · subst hk
      cases hself.symm.trans hK
      exact Nat.two_pow_pos 64
    · exact h.times k K ((hne k hk).symm.trans hK)
  · have hk' : w.mgrCount + 1 ≤ k := hk
    rw [hne k (by omega)]
    exact h.mgrCount k (by omega)
  · rw [hne _ (hold _ h.main)]
    exact h.main

theorem listNew_good (h : Good w) (tmgr : Option ℕ)
    (hm : tmgr.all (fun m => (w.mgrs m).isSome) = true) :
    Agrees (some (listNew w tmgr, .done)) (specStep (specOf w) (.new tmgr)) := by
  have hself : (listNew w tmgr).lists w.listCount = some ⟨LinkedList.empty, 0, tmgr, 0, none⟩ :=
    Function.update_self _ _ _
  have hne : ∀ k, k ≠ w.listCount → (listNew w tmgr).lists k = w.lists k :=
    fun k hk => Function.update_of_ne hk _ _
  refine ⟨listNew w tmgr, .done, rfl, ?_, ⟨fun n l hl => ?_, fun n l m hl htm => ?_,
    fun x t m ht hm => ?_, h.queued, h.times, h.timerCount, fun n hn => ?_, h.mgrCount, h.main⟩⟩
  · refine congrArg some (Prod.ext ?_ rfl)
    refine congrArg (fun seqs => (⟨seqs, _, _, _⟩ : Spec α)) (funext fun k => ?_)
    by_cases hk : k = w.listCount
    · subst hk
      rw [hself]
      exact Function.update_self _ _ _
    · rw [hne k hk]
      exact Function.update_of_ne hk _ _
  · by_cases hn : n = w.listCount
    · subst hn
      cases hself.symm.trans hl
      exact ⟨LinkedList.empty_represents, rfl, fun e he => (nomatch he), fun e he => (nomatch he),
        fun a ha => absurd ha (Nat.not_lt_zero a), Nat.two_pow_pos 64⟩
    · exact h.lists n l ((hne n hn).symm.trans hl)
  · by_cases hn : n = w.listCount
    · subst hn
      cases hself.symm.trans hl
      have htm' : tmgr = some m := htm
      rw [htm'] at hm
      exact hm
    · exact h.managed n l m ((hne n hn).symm.trans hl) htm
  · obtain ⟨l, v, hl, hrest⟩ := h.owned x t m ht hm
    exact ⟨l, v, (hne _ (Nat.ne_of_lt (h.list_lt hl))).trans hl, hrest⟩
  · have hn' : w.listCount + 1 ≤ n := hn
    rw [hne n (by omega)]
    exact h.listCount n (by omega)

theorem listTimeout_good (h : Good w) {n : ℕ} {l : HltList α} (hl : w.lists n = some l)
    (strategy : Option ExpireStrategy) {timeout : ℕ} (ht : timeout < 2 ^ 64) :
    Agrees (done (listTimeout w n strategy timeout))
      (specStep (specOf w) (.timeout n strategy timeout)) := by
  have hok := h.lists n l hl
  have htmgr : ∀ m, l.tmgr = some m → l.tmgr.getD ctxTmgr = m := fun m hm => by rw [hm]; rfl
  have hok' : ListOk w.timers n { l with
      timeout := timeout, strategy := strategy, tmgr := some (l.tmgr.getD ctxTmgr) } := by
    refine ⟨hok.cells, hok.size, hok.valid, fun e he x hx => ?_, hok.gone, ht⟩
    obtain ⟨t, m, ht, hm, htm, hrest⟩ := hok.timer e he x hx
    exact ⟨t, m, ht, hm, congrArg some (htmgr m htm), hrest⟩
  obtain ⟨hgood, hspec⟩ := h.update (w.setList n { l with
      timeout := timeout, strategy := strategy, tmgr := some (l.tmgr.getD ctxTmgr) })
    (h.list_lt hl) rfl rfl rfl h.queued (fun _ => rfl) hok'
    (fun m hm => by
      cases hm
      cases hcase : l.tmgr with
      | none => exact h.main
      | some m => exact h.managed n l m hl hcase)
    (fun _ _ _ => Iff.rfl) (fun x t m ht hm hlist => h.owner hl ht hm hlist) h.timerCount
  refine ⟨_, .done, ?_, ?_, hgood⟩
  · simp [done, listTimeout, hl]
  · rw [specStep, Good.spec_seqs hl, hspec]
    rfl

theorem listAppend_good (h : Good w) {n1 n2 : ℕ} {l1 l2 : HltList α} (hne : n1 ≠ n2)
    (hl1 : w.lists n1 = some l1) (hl2 : w.lists n2 = some l2)
    (hfits : l2.cells.first = none ∨ deadlineFits w l1 (2 ^ 64) = true) :
    Agrees (step w (.append n1 n2)) (specStep (specOf w) (.append n1 n2)) := by
  have hcells := (h.lists n2 l2 hl2).cells
  have hempty : l2.entries = [] ∨ deadlineFits w l1 (2 ^ 64) = true := by
    refine hfits.imp_left fun hfirst => ?_
    rw [hcells.first_eq] at hfirst
    cases hentries : l2.entries with
    | nil => rfl
    | cons e es =>
      rw [hentries] at hfirst
      cases hfirst
  obtain ⟨w', -, hrun, hspec, hgood, -, -⟩ := appendLoop_good hne l2.cells.fresh h hl1 hl2
    [] l2.entries rfl hcells.length_le hempty
  rw [← hcells.first_eq] at hrun
  refine ⟨w', .done, ?_, ?_, hgood⟩
  · simp [step, done, listAppend, hl2, hrun]
  · have hitems : (seqOf w.timers l2).items.foldlM (fun S it => S.pushBack n1 it.value) (specOf w) =
        some (specOf w') := by
      rw [seqOf, List.foldlM_map]
      exact hspec
    rw [specStep, Good.spec_seqs hl2]
    dsimp only [Option.bind_eq_bind, Option.bind_some]
    rw [hitems]
    rfl

theorem expire_good (h : Good w) {m : ℕ} {M : Mgr} (hM : w.mgrs m = some M) :
    Agrees (done (timerMgrExpire w m)) (specStep (specOf w) (.expire m)) := by
  obtain ⟨w', hrun, hgood, hspec⟩ := advanceLoop_good m none M.queue.size h hM le_rfl
  refine ⟨w', .done, ?_, ?_, hgood⟩
  · simp [done, timerMgrExpire, hM, hrun]
  · rw [specStep, hspec]

theorem advance_good (h : Good w) {m time : ℕ} {M : Mgr} (hM : w.mgrs m = some M)
    (htime : time < 2 ^ 64) :
    Agrees (done (timerMgrAdvance w m time)) (specStep (specOf w) (.advance m time)) := by
  obtain ⟨hset, htimes⟩ := h.setTime hM htime
  have hself : (w.setMgr m { M with time := time }).mgrs m = some { M with time := time } :=
    Function.update_self _ _ _
  obtain ⟨w', hrun, hgood, hspec⟩ := advanceLoop_good m (some time) M.queue.size hset hself le_rfl
  have hknown : (specOf w).times m = some M.time := by
    simp [specOf, hM]
  refine ⟨w', .done, ?_, ?_, hgood⟩
  · simp [done, timerMgrAdvance, hM, hrun]
  · rw [specStep, hknown, hspec, htimes]
    rfl

theorem step_good (h : Good w) {op : Op α} (hfine : fine w op = true) :
    Agrees (step w op) (specStep (specOf w) op) := by
  cases op with
  | newMgr => exact timerMgrNew_good h
  | new tmgr => exact listNew_good h tmgr hfine
  | timeout n strategy timeout =>
    obtain ⟨hl, ht⟩ : (w.lists n).isSome ∧ timeout < 2 ^ 64 := by simpa [fine] using hfine
    obtain ⟨l, hl⟩ := Option.isSome_iff_exists.mp hl
    exact listTimeout_good h hl strategy ht
  | pushFront n val =>
    obtain ⟨l, hl, hfits⟩ := (Option.any_eq_true _ _).mp hfine
    obtain ⟨w', hrun, hspec, hgood⟩ := pushFront_good h hl hfits val
    exact .done hrun hspec hgood
  | pushBack n val =>
    obtain ⟨l, hl, hfits⟩ := (Option.any_eq_true _ _).mp hfine
    obtain ⟨w', -, -, hrun, hspec, hgood, -⟩ := pushBack_good h hl hfits val
    exact .done hrun hspec hgood
  | popFront n =>
    obtain ⟨l, hl⟩ := Option.isSome_iff_exists.mp hfine
    exact popAt_good h hl (h.first hl)
  | popBack n =>
    obtain ⟨l, hl⟩ := Option.isSome_iff_exists.mp hfine
    exact popAt_good h hl (h.last hl)
  | front n =>
    obtain ⟨l, hl, hfits⟩ := (Option.any_eq_true _ _).mp hfine
    exact readAt_good h hl (h.first hl) hfits
  | back n =>
    obtain ⟨l, hl, hfits⟩ := (Option.any_eq_true _ _).mp hfine
    exact readAt_good h hl (h.last hl) hfits
  | size n =>
    obtain ⟨l, hl⟩ := Option.isSome_iff_exists.mp hfine
    refine ⟨w, .size l.size, by simp [step, listSize, hl], ?_, h⟩
    simp [specStep, Good.spec_seqs hl, seqOf, (h.lists n l hl).size]
  | append n1 n2 =>
    obtain ⟨⟨hne, hl1⟩, l2, hl2, hfits⟩ : (n1 ≠ n2 ∧ (w.lists n1).isSome) ∧ ∃ l2, w.lists n2 = some l2 ∧
        (l2.cells.first.isNone || pushFits w n1) = true := by
      simpa [fine, Option.any_eq_true] using hfine
    obtain ⟨l1, hl1⟩ := Option.isSome_iff_exists.mp hl1
    refine listAppend_good h hne hl1 hl2 ?_
    rw [Bool.or_eq_true, Option.isNone_iff_eq_none] at hfits
    exact hfits.imp_right (pushFits_list hl1)
  | erase i => exact listErase_good h hfine
  | insert val i =>
    obtain ⟨hi, hfits⟩ := (Bool.and_eq_true _ _).mp hfine
    exact listInsert_good h val hi hfits
  | begin n =>
    obtain ⟨l, hl⟩ := Option.isSome_iff_exists.mp hfine
    refine ⟨w, .iter ⟨some n, l.cells.first⟩, by simp [step, listBegin, hl], ?_, h⟩
    have hfirst : (seqOf w.timers l).items.head?.map Item.id = l.cells.first := by
      obtain ⟨hnone, hitem⟩ | ⟨l₁, a, v, l₂, -, hsome, hitem⟩ := h.first hl
      · rw [hnone, hitem]
        rfl
      · rw [hsome, hitem]
        rfl
    simp [specStep, Good.spec_seqs hl, hfirst]
  | stop n => exact .same h _
  | incr i => exact iteratorIncr_good h hfine
  | deref i =>
    obtain ⟨hi, hfits⟩ := (Bool.and_eq_true _ _).mp hfine
    exact iteratorDeref_good h hi hfits
  | eq i1 i2 =>
    obtain ⟨⟨⟨hi1, hi2⟩, hfits1⟩, hfits2⟩ : ((known w i1 = true ∧ known w i2 = true) ∧
        iterFits w i1 = true) ∧ (accessIter w i1).all (fun r => iterFits r.1 i2) = true := by
      simpa only [fine, Bool.and_eq_true] using hfine
    exact iteratorEq_good h hi1 hi2 hfits1 hfits2
  | advance m time =>
    obtain ⟨hM, ht⟩ : (w.mgrs m).isSome ∧ time < 2 ^ 64 := by simpa [fine] using hfine
    obtain ⟨M, hM⟩ := Option.isSome_iff_exists.mp hM
    exact advance_good h hM ht
  | expire m =>
    obtain ⟨M, hM⟩ := Option.isSome_iff_exists.mp hfine
    exact expire_good h hM

/-! ## Runs -/

/-- The run comes to its end with well-formed lists that stand for the sequences that the
operations yield, and all its results are theirs. -/
def Faithful (ops : List (Op α)) : Prop :=
  ∃ w log, (machine α).run (machine α).start ops = some (w, log) ∧
    (specMachine α).run (specMachine α).start ops = some (specOf w, log) ∧ Good w

/-- A run with timers, in which nodes are accessed, erased and expire. -/
def sampleRun : List (Op ℕ) :=
  [.new none, .timeout 0 (some .access) 10, .pushBack 0 1, .pushBack 0 2, .pushFront 0 3,
    .advance 0 5, .begin 0, .incr ⟨some 0, some 2⟩, .deref ⟨some 0, some 0⟩, .insert 4 ⟨some 0, some 1⟩,
    .erase ⟨some 0, some 2⟩, .advance 0 12, .deref ⟨some 0, some 1⟩, .new none, .append 1 0, .back 1]

/-- The timer of the second element fires while its node is made, and unlinks a node that is not
linked yet. -/
def overflowRun : List (Op ℕ) :=
  [.new (some 0), .pushBack 0 1, .advance 0 5, .timeout 0 (some .create) (2 ^ 64 - 1),
    .pushBack 0 2, .size 0]

/-- The second element is put forward, ahead of the first in the heap, and does not expire. -/
def putForwardRun : List (Op ℕ) :=
  [.new (some 0), .timeout 0 (some .access) 10, .pushBack 0 1, .pushBack 0 2,
    .timeout 0 (some .access) 5, .back 0, .advance 0 7, .size 0]

def results (ops : List (Op ℕ)) : Option (List (Result ℕ)) :=
  ((machine ℕ).run (machine ℕ).start ops).map Prod.snd

def specResults (ops : List (Op ℕ)) : Option (List (Result ℕ)) :=
  ((specMachine ℕ).run (specMachine ℕ).start ops).map Prod.snd

theorem Faithful.results_eq {ops : List (Op ℕ)} (h : Faithful ops) :
    results ops = specResults ops := by
  obtain ⟨w, log, hrun, hspec, -⟩ := h
  rw [results, specResults, hrun, hspec]
  rfl

end Hilti.Lists
