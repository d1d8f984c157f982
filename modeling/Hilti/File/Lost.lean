import Mathlib.Algebra.Order.Group.Int
import Hilti.File.Writes

/-!
# Which writes are lost

Every step appends to what has been called for and to what is in the queue, or takes a write out of
the queue, which reaches the file or does not.  A run loses no write if and only if each non-empty
one is processed when the descriptor is open.
-/

namespace Hilti.File

open Hilti.Lib

set_option autoImplicit false

/-- What a thread has written to a file, without the writes of no bytes, which need no call of the
operating system. -/
def dataOf (thread : ThreadId) (i : InfoId) (log : Log) : List Data :=
  log.filterMap fun e => if e.1 = thread ∧ e.2.1 = i ∧ e.2.2 ≠ [] then some e.2.2 else none

/-- The data that a command will write to the file. -/
def Cmd.dataFor (i : InfoId) : Cmd → Option Data
  | .write j data => if j = i ∧ data ≠ [] then some data else none
  | _ => none

/-- What a thread is going to write to a file. -/
def pendingOf (thread : ThreadId) (i : InfoId) (queue : Queue) : List Data :=
  (cmdsOf thread queue).filterMap (Cmd.dataFor i)

/-- Every write called for an open object has reached the file once, in the order of its thread, or
is going to; and a file that has been closed has nothing to come. -/
structure Kept (s : State) : Prop where
  all : ∀ t i, dataOf t i s.issued = dataOf t i s.reached ++ pendingOf t i s.queue
  closed : ∀ t i, s.infos i = none → pendingOf t i s.queue = []

/-- If the step processes a write of some bytes, the descriptor of the file is open. -/
def Delivers (s : State) : Action → Prop
  | .process thread => ∀ i data queue, takeFirst thread s.queue = some (.write i data, queue) →
      data ≠ [] → ∃ info, s.infos i = some info ∧ info.fdOpen = true
  | _ => True

theorem dataOf_append (thread : ThreadId) (i : InfoId) (log log' : Log) :
    dataOf thread i (log ++ log') = dataOf thread i log ++ dataOf thread i log' :=
  List.filterMap_append

theorem dataOf_singleton (thread t : ThreadId) (i j : InfoId) (data : Data) :
    dataOf thread i [(t, j, data)] =
      if t = thread then ((Cmd.write j data).dataFor i).toList else [] := by
  by_cases ht : t = thread
  · by_cases hj : j = i ∧ data ≠ []
    · simp [dataOf, Cmd.dataFor, ht, hj.1, hj.2]
    · simp only [dataOf, Cmd.dataFor, ht, true_and, if_neg hj, List.filterMap_cons,
        List.filterMap_nil]
      rfl
  · simp [dataOf, ht]

theorem pendingOf_push (thread t : ThreadId) (i : InfoId) (queue : Queue) (cmd : Cmd) :
    pendingOf thread i (queue ++ [(t, cmd)]) =
      pendingOf thread i queue ++ if t = thread then (cmd.dataFor i).toList else [] := by
  rw [pendingOf, cmdsOf_push, List.filterMap_append]
  by_cases ht : t = thread
  · rw [if_pos ht, if_pos ht]
    cases hd : cmd.dataFor i <;> simp [pendingOf, hd]
  · rw [if_neg ht, if_neg ht]
    rfl

theorem pendingOf_take {thread : ThreadId} {queue queue' : Queue} {cmd : Cmd}
    (h : takeFirst thread queue = some (cmd, queue')) (t : ThreadId) (i : InfoId) :
    pendingOf t i queue =
      (if t = thread then (cmd.dataFor i).toList else []) ++ pendingOf t i queue' := by
  rw [pendingOf, takeFirst_cmdsOf h t, List.filterMap_append]
  by_cases ht : t = thread
  · rw [if_pos ht, if_pos ht]
    cases hd : cmd.dataFor i <;> simp [pendingOf, hd]
  · rw [if_neg ht, if_neg ht]
    rfl

section

variable {s s' : State}

/-- What a step does to the writes of a thread to a file: some are called for, and some are taken
out of the queue, of which `got` reach the file. -/
structure Moves (s s' : State) (t : ThreadId) (i : InfoId) (new taken got : List Data) : Prop where
  issued : dataOf t i s'.issued = dataOf t i s.issued ++ new
  pending : pendingOf t i s.queue ++ new = taken ++ pendingOf t i s'.queue
  reached : dataOf t i s'.reached = dataOf t i s.reached ++ got

theorem Moves.of_same (t : ThreadId) (i : InfoId) (hissued : s'.issued = s.issued)
    (hqueue : pendingOf t i s'.queue = pendingOf t i s.queue) (hreached : s'.reached = s.reached) :
    Moves s s' t i [] [] [] where
  issued := by rw [hissued, List.append_nil]
  pending := by rw [hqueue, List.append_nil, List.nil_append]
  reached := by rw [hreached, List.append_nil]

theorem moves_process (h : Inv s) {thread : ThreadId} {cmd : Cmd} {queue : Queue}
    (hq : takeFirst thread s.queue = some (cmd, queue)) (hs : s.process thread = some s')
    (t : ThreadId) (i : InfoId) :
    ∃ got, Moves s s' t i [] (if t = thread then (cmd.dataFor i).toList else []) got ∧
      ((∃ info, s.infos cmd.info = some info ∧ info.fdOpen = true) →
        got = if t = thread then (cmd.dataFor i).toList else []) ∧
      ((¬∃ info, s.infos cmd.info = some info ∧ info.fdOpen = true) → got = []) := by
  have hmem : cmd ∈ cmdsOf thread s.queue := by
    rw [takeFirst_cmdsOf hq thread, if_pos rfl]
    exact List.mem_cons_self
  obtain ⟨info, hinfo⟩ := h.info_isSome hmem
  have hpending := pendingOf_take hq t i
  unfold State.process at hs
  rw [hq, Option.bind_some] at hs
  -- a command that is no write reaches nothing, and has nothing to
  have hother : cmd.dataFor i = none → s'.issued = s.issued → s'.reached = s.reached →
      s'.queue = queue → ∃ got, Moves s s' t i [] (if t = thread then (cmd.dataFor i).toList else [])
        got ∧ ((∃ info, s.infos cmd.info = some info ∧ info.fdOpen = true) →
          got = if t = thread then (cmd.dataFor i).toList else []) ∧
        ((¬∃ info, s.infos cmd.info = some info ∧ info.fdOpen = true) → got = []) := by
    intro hdata hissued hreached hqueue
    have hnil : (if t = thread then (cmd.dataFor i).toList else []) = [] := by
      rw [hdata]
      exact ite_self _
    rw [hnil] at hpending ⊢
    refine ⟨[], Moves.of_same t i hissued ?_ hreached, fun _ => rfl, fun _ => rfl⟩
    rw [hqueue, hpending, List.nil_append]
  cases cmd with
  | «open» j =>
    have hj : s.infos j = some info := hinfo
    simp only [State.cmdInternal, hj, Option.map_some, Option.some_inj] at hs
    apply hother rfl
    all_goals
      subst hs
      split <;> rfl
  | close j =>
    have hj : s.infos j = some info := hinfo
    simp only [State.cmdInternal, hj, Option.bind_some] at hs
    split at hs
    · cases hs
      exact hother rfl rfl rfl rfl
    · split at hs
      · cases hs
      · split at hs
        · split at hs
          · cases hs
            exact hother rfl rfl rfl rfl
          · cases hs
        · cases hs
          exact hother rfl rfl rfl rfl
  | write j data =>
    have hj : s.infos j = some info := hinfo
    simp only [State.cmdInternal, hj, Option.map_some, Option.some_inj] at hs
    cases hfd : info.fdOpen with
    | false =>
      rw [hfd] at hs
      simp only [Bool.not_false, if_true] at hs
      subst hs
      refine ⟨[], ⟨?_, ?_, ?_⟩, ?_, fun _ => rfl⟩
      · rw [List.append_nil]
      · rw [List.append_nil, hpending]
      · rw [List.append_nil]
      · rintro ⟨info', hinfo', hopen⟩
        rw [show s.infos j = some info' from hinfo'] at hj
        cases hj
        rw [hfd] at hopen
        cases hopen
    | true =>
      rw [hfd] at hs
      simp only [Bool.not_true, Bool.false_eq_true, if_false] at hs
      have hopen : ∃ info, s.infos j = some info ∧ info.fdOpen = true := ⟨info, hj, hfd⟩
      split at hs
      · rename_i hempty
        subst hs
        have hdata : (Cmd.write j data).dataFor i = none := by
          rw [Cmd.dataFor, if_neg fun hne => hne.2 hempty]
        exact hother hdata rfl rfl rfl
      · subst hs
        refine ⟨_, ⟨?_, ?_, ?_⟩, fun _ => rfl, fun hnot => absurd hopen hnot⟩
        · rw [List.append_nil]
        · rw [List.append_nil, hpending]
        · change dataOf t i (s.reached ++ [(thread, j, data)]) = _
          rw [dataOf_append, dataOf_singleton]
          simp only [eq_comm (a := t)]

theorem openInfo_logs {path : String} {fresh : InfoId} {r : State × InfoId}
    (hr : s.openInfo path fresh = some r) :
    r.1.issued = s.issued ∧ r.1.reached = s.reached ∧ r.1.queue = s.queue := by
  unfold State.openInfo at hr
  split at hr
  · obtain ⟨info, -, rfl⟩ := Option.map_eq_some_iff.mp hr
    exact ⟨rfl, rfl, rfl⟩
  · split at hr
    · cases hr
    · cases hr
      exact ⟨rfl, rfl, rfl⟩

theorem moves_call {a : Action} (ha : ∀ thread, a ≠ .process thread) (hs : s.next a = some s')
    (t : ThreadId) (i : InfoId) : ∃ new, Moves s s' t i new [] [] := by
  cases a with
  | process thread => exact absurd rfl (ha thread)
  | fileNew thread =>
    cases hs
    exact ⟨[], Moves.of_same t i rfl rfl rfl⟩
  | fileOpen file path fresh =>
    obtain ⟨obj, -, hs⟩ := Option.bind_eq_some_iff.mp hs
    split at hs
    · cases hs
      exact ⟨[], Moves.of_same t i rfl rfl rfl⟩
    · obtain ⟨⟨u, j⟩, hr, rfl⟩ := Option.map_eq_some_iff.mp hs
      obtain ⟨hissued, hreached, hqueue⟩ := openInfo_logs hr
      refine ⟨[], Moves.of_same t i hissued ?_ hreached⟩
      change pendingOf t i (u.queue ++ [(obj.thread, .open j)]) = _
      rw [pendingOf_push, show u.queue = s.queue from hqueue]
      simp only [Cmd.dataFor, Option.toList_none, ite_self, List.append_nil]
  | fileWrite file data =>
    obtain ⟨obj, -, hs⟩ := Option.bind_eq_some_iff.mp hs
    split at hs
    · obtain ⟨j, -, rfl⟩ := Option.map_eq_some_iff.mp hs
      refine ⟨dataOf t i [(obj.thread, j, data)], ⟨?_, ?_, ?_⟩⟩
      · exact dataOf_append t i s.issued _
      · simp only [State.push, pendingOf_push, dataOf_singleton, List.nil_append]
      · exact (List.append_nil _).symm
    · cases hs
      exact ⟨[], Moves.of_same t i rfl rfl rfl⟩
  | fileClose file =>
    obtain ⟨obj, -, hs⟩ := Option.bind_eq_some_iff.mp hs
    split at hs
    · obtain ⟨j, -, rfl⟩ := Option.map_eq_some_iff.mp hs
      refine ⟨[], Moves.of_same t i rfl ?_ rfl⟩
      simp only [State.push, pendingOf_push, Cmd.dataFor, Option.toList_none, ite_self,
        List.append_nil]
    · cases hs
      exact ⟨[], Moves.of_same t i rfl rfl rfl⟩
  | fileClone file thread =>
    obtain ⟨src, -, hs⟩ := Option.bind_eq_some_iff.mp hs
    dsimp only at hs
    split at hs
    · split at hs
      · obtain ⟨info, -, rfl⟩ := Option.map_eq_some_iff.mp hs
        exact ⟨[], Moves.of_same t i rfl rfl rfl⟩
      · cases hs
        exact ⟨[], Moves.of_same t i rfl rfl rfl⟩
    · cases hs
      exact ⟨[], Moves.of_same t i rfl rfl rfl⟩

theorem next_moves (h : Inv s) {a : Action} (hs : s.next a = some s') (t : ThreadId) (i : InfoId) :
    ∃ new taken got, Moves s s' t i new taken got ∧ (got = taken ∨ got = []) ∧
      (Delivers s a → got = taken) := by
  by_cases ha : ∃ thread, a = .process thread
  · obtain ⟨thread, rfl⟩ := ha
    obtain ⟨⟨cmd, queue⟩, hq, -⟩ := Option.bind_eq_some_iff.mp hs
    obtain ⟨got, hmoves, hopen, hclosed⟩ := moves_process h hq hs t i
    refine ⟨[], _, got, hmoves, ?_, fun hd => ?_⟩
    · by_cases hfd : ∃ info, s.infos cmd.info = some info ∧ info.fdOpen = true
      · exact .inl (hopen hfd)
      · exact .inr (hclosed hfd)
    · by_cases hfd : ∃ info, s.infos cmd.info = some info ∧ info.fdOpen = true
      · exact hopen hfd
      · rw [hclosed hfd]
        cases cmd with
        | «open» j => exact (ite_self _).symm
        | close j => exact (ite_self _).symm
        | write j data =>
          have hempty : data = [] := by
            by_contra hne
            exact hfd (hd j data queue hq hne)
          have hdata : (Cmd.write j data).dataFor i = none := if_neg fun hne => hne.2 hempty
          rw [hdata]
          exact (ite_self _).symm
  · have ha' : ∀ thread, a ≠ .process thread := fun thread heq => ha ⟨thread, heq⟩
    obtain ⟨new, hmoves⟩ := moves_call ha' hs t i
    exact ⟨new, [], [], hmoves, .inl rfl, fun _ => rfl⟩

theorem next_loses (h : Inv s) {a : Action} (hs : s.next a = some s') (hnot : ¬Delivers s a) :
    ∃ t i taken, taken ≠ [] ∧ Moves s s' t i [] taken [] := by
  cases a with
  | process thread =>
    simp only [Delivers, not_forall] at hnot
    obtain ⟨i, data, queue, hq, hne, hfd⟩ := hnot
    obtain ⟨got, hmoves, -, hclosed⟩ := moves_process h hq hs thread i
    refine ⟨thread, i, _, ?_, hclosed hfd ▸ hmoves⟩
    rw [if_pos rfl, Cmd.dataFor, if_pos ⟨rfl, hne⟩]
    exact List.cons_ne_nil data []
  | fileNew thread => exact absurd trivial hnot
  | fileOpen file path fresh => exact absurd trivial hnot
  | fileWrite file data => exact absurd trivial hnot
  | fileClose file => exact absurd trivial hnot
  | fileClone file thread => exact absurd trivial hnot

/-! ## Runs -/

theorem Inv.pending_nil (h : Inv s) {i : InfoId} (hi : s.infos i = none) (t : ThreadId) :
    pendingOf t i s.queue = [] := by
  apply List.eq_nil_iff_forall_not_mem.mpr
  intro d hd
  obtain ⟨cmd, hcmd, hdata⟩ := List.mem_filterMap.mp hd
  obtain ⟨info, hinfo⟩ := h.info_isSome hcmd
  cases cmd with
  | «open» j => cases hdata
  | close j => cases hdata
  | write j data =>
    rw [Cmd.dataFor] at hdata
    split at hdata
    · rename_i hj
      rw [show s.infos i = some info from hj.1 ▸ hinfo] at hi
      cases hi
    · cases hdata

theorem kept_init : Kept .init where
  all _ _ := rfl
  closed _ _ _ := rfl

theorem kept_next (h : Inv s) (hk : Kept s) {a : Action} (hd : Delivers s a)
    (hs : s.next a = some s') : Kept s' where
  all t i := by
    obtain ⟨new, taken, got, hmoves, -, hgot⟩ := next_moves h hs t i
    calc dataOf t i s'.issued = dataOf t i s.issued ++ new := hmoves.issued
      _ = dataOf t i s.reached ++ (pendingOf t i s.queue ++ new) := by
        rw [hk.all t i, List.append_assoc]
      _ = dataOf t i s.reached ++ taken ++ pendingOf t i s'.queue := by
        rw [hmoves.pending, List.append_assoc]
      _ = dataOf t i s'.reached ++ pendingOf t i s'.queue := by
        rw [hmoves.reached, hgot hd]
  closed t _ hi := (inv_next h hs).pending_nil hi t

def lost (s : State) (t : ThreadId) (i : InfoId) : ℤ :=
  (dataOf t i s.issued).length - (dataOf t i s.reached).length - (pendingOf t i s.queue).length

theorem Moves.lost_eq {t : ThreadId} {i : InfoId} {new taken got : List Data}
    (h : Moves s s' t i new taken got) : lost s' t i = lost s t i + taken.length - got.length := by
  have hissued := congrArg List.length h.issued
  have hpending := congrArg List.length h.pending
  have hreached := congrArg List.length h.reached
  simp only [List.length_append] at hissued hpending hreached
  unfold lost
  omega

theorem lost_next_le (h : Inv s) {a : Action} (hs : s.next a = some s') (t : ThreadId) (i : InfoId) :
    lost s t i ≤ lost s' t i := by
  obtain ⟨new, taken, got, hmoves, hgot, -⟩ := next_moves h hs t i
  rw [hmoves.lost_eq]
  rcases hgot with rfl | rfl
  · omega
  · simp only [List.length_nil]
    omega

theorem lost_run_le {as : List Action} (h : Inv s) (hr : machine.run s as = some s') (t : ThreadId)
    (i : InfoId) : lost s t i ≤ lost s' t i := by
  induction as generalizing s with
  | nil =>
    cases hr
    exact le_refl _
  | cons a as ih =>
    obtain ⟨u, hu, hr⟩ := Option.bind_eq_some_iff.mp hr
    exact (lost_next_le h hu t i).trans (ih (inv_next h hu) hr)

theorem lost_run_lt {as : List Action} (h : Inv s) (hr : machine.run s as = some s')
    (hnot : ¬machine.Along Delivers s as) : ∃ t i, lost s t i < lost s' t i := by
  induction as generalizing s with
  | nil => exact absurd trivial hnot
  | cons a as ih =>
    obtain ⟨u, hu, hr⟩ := Option.bind_eq_some_iff.mp hr
    have hu' := inv_next h hu
    by_cases hd : Delivers s a
    · have hrest : ¬machine.Along Delivers u as := by
        intro hrest
        refine hnot ⟨hd, fun v hv => ?_⟩
        rw [hu] at hv
        cases hv
        exact hrest
      obtain ⟨t, i, hlt⟩ := ih hu' hr hrest
      exact ⟨t, i, (lost_next_le h hu t i).trans_lt hlt⟩
    · obtain ⟨t, i, taken, hne, hmoves⟩ := next_loses h hu hd
      refine ⟨t, i, ?_⟩
      have hpos := List.length_pos_iff.mpr hne
      have hle := lost_run_le hu' hr t i
      rw [hmoves.lost_eq] at hle
      simp only [List.length_nil] at hle
      omega

theorem inv_run {as : List Action} (h : Inv s) (hr : machine.run s as = some s') : Inv s' := by
  induction as generalizing s with
  | nil =>
    cases hr
    exact h
  | cons a as ih =>
    obtain ⟨u, hu, hr⟩ := Option.bind_eq_some_iff.mp hr
    exact ih (inv_next h hu) hr

end

end Hilti.File
