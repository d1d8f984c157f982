import Hilti.Scheduler.Model
import Mathlib.Data.List.Nodup

/-!
# Every job is in one place

`Located` says where each job is, and that its blockable and the counters of the resources fit.
A step takes a job out of its place and puts it into another one; unblocking does so with all the
jobs of a list.
-/

namespace Hilti.Scheduler

open Hilti.Lib

set_option autoImplicit false

/-- Where a job can be. -/
inductive Place where
  | queue (writer : WriterId)
  | blocked (resource : Resource)
  | running
  deriving DecidableEq

/-- How often the job is at the place. -/
def Worker.mult (thread : Worker) : Place → JobId → ℕ
  | .queue writer, job => (thread.queue writer).count job
  | .blocked resource, job => (thread.blockedOn resource).count job
  | .running, job => if thread.running = some job then 1 else 0

/-- The jobs are where `place` says, except for one that is being moved. -/
structure LocatedBut (hand : Option JobId) (thread : Worker) (place : JobId → Option Place) :
    Prop where
  mult_eq : ∀ p j, thread.mult p j = if place j = some p then 1 else 0
  allocated : ∀ j, (thread.jobs j).isSome = true ↔ (place j).isSome = true ∨ hand = some j
  in_hand : ∀ j, hand = some j → place j = none
  waits : ∀ j job r, thread.jobs j = some job → hand ≠ some j →
    (job.blockable = some r ↔ place j = some (.blocked r))
  counted : ∀ r, thread.numBlocked r = (thread.blockedOn r).length
  entry : ∀ r, thread.jobsBlocked r ≠ some []

abbrev Located : Worker → (JobId → Option Place) → Prop := LocatedBut none

section

variable {thread : Worker} {place : JobId → Option Place} {job : JobId}

theorem located_new (id : WriterId) : Located (.new id) fun _ => none where
  mult_eq p j := by cases p <;> rfl
  allocated j := by simp [Worker.new]
  in_hand := nofun
  waits := nofun
  counted _ := rfl
  entry _ := nofun

/-! ## Putting a job into a place -/

theorem mult_queueWrite (writer : WriterId) (p : Place) (j : JobId) :
    (thread.queueWrite writer job).mult p j =
      thread.mult p j + if p = .queue writer ∧ j = job then 1 else 0 := by
  cases p with
  | queue w =>
    by_cases hw : w = writer
    · subst hw
      by_cases hj : j = job
      · subst hj
        simp [Worker.mult, Worker.queueWrite]
      · simp [Worker.mult, Worker.queueWrite, hj, Ne.symm hj]
    · simp [Worker.mult, Worker.queueWrite, hw]
  | blocked r => simp [Worker.mult, Worker.queueWrite, Worker.blockedOn]
  | running =>
    rw [if_neg fun hp => nomatch hp.1, Nat.add_zero]
    rfl

theorem blockedOn_addToBlocked (resource r : Resource) :
    (thread.addToBlocked resource job).blockedOn r =
      if r = resource then job :: thread.blockedOn resource else thread.blockedOn r := by
  unfold Worker.addToBlocked Worker.blockedOn
  by_cases hr : r = resource
  · subst hr
    change Option.getD (Function.update thread.jobsBlocked r _ r) [] = _
    rw [if_pos rfl, Function.update_self]
    rfl
  · change Option.getD (Function.update thread.jobsBlocked resource _ r) [] = _
    rw [if_neg hr, Function.update_of_ne hr]

theorem mult_addToBlocked (resource : Resource) (p : Place) (j : JobId) :
    (thread.addToBlocked resource job).mult p j =
      thread.mult p j + if p = .blocked resource ∧ j = job then 1 else 0 := by
  cases p with
  | queue w => simp [Worker.mult, Worker.addToBlocked]
  | blocked r =>
    rw [Worker.mult, blockedOn_addToBlocked]
    by_cases hr : r = resource
    · subst hr
      by_cases hj : j = job
      · subst hj
        simp [Worker.mult]
      · simp [Worker.mult, hj, Ne.symm hj]
    · simp [Worker.mult, hr]
  | running =>
    rw [if_neg fun hp => nomatch hp.1, Nat.add_zero]
    rfl

theorem LocatedBut.put (h : LocatedBut (some job) thread place) {thread' : Worker} {q : Place}
    (hmult : ∀ p j, thread'.mult p j = thread.mult p j + if p = q ∧ j = job then 1 else 0)
    (hjobs : thread'.jobs = thread.jobs)
    (hwaits : ∀ jb, thread.jobs job = some jb → ∀ r, jb.blockable = some r ↔ q = .blocked r)
    (hcounted : ∀ r, thread'.numBlocked r = (thread'.blockedOn r).length)
    (hentry : ∀ r, thread'.jobsBlocked r ≠ some []) :
    Located thread' (Function.update place job (some q)) where
  mult_eq p j := by
    rw [hmult, h.mult_eq]
    by_cases hj : j = job
    · subst hj
      rw [h.in_hand j rfl, Function.update_self]
      by_cases hp : p = q
      · rw [if_neg nofun, if_pos ⟨hp, rfl⟩, if_pos (congrArg some hp.symm)]
      · rw [if_neg nofun, if_neg fun hpq => hp hpq.1, if_neg fun hqp => hp (Option.some.inj hqp).symm]
    · rw [Function.update_of_ne hj, if_neg fun (hpj : p = q ∧ j = job) => hj hpj.2, Nat.add_zero]
  allocated j := by
    rw [hjobs, h.allocated]
    by_cases hj : j = job
    · subst hj
      simp
    · rw [Function.update_of_ne hj]
      simp [Ne.symm hj]
  in_hand := nofun
  waits j jb r hjb _ := by
    rw [hjobs] at hjb
    by_cases hj : j = job
    · subst hj
      rw [Function.update_self, hwaits jb hjb, Option.some_inj]
    · rw [Function.update_of_ne hj]
      exact h.waits j jb r hjb fun heq => hj (Option.some.inj heq).symm
  counted := hcounted
  entry := hentry

theorem LocatedBut.queueWrite (h : LocatedBut (some job) thread place) {jb : Job}
    (hjb : thread.jobs job = some jb) (hready : jb.blockable = none) (writer : WriterId) :
    Located (thread.queueWrite writer job) (Function.update place job (some (.queue writer))) := by
  apply h.put (mult_queueWrite writer) rfl
  · intro jb' hjb' r
    rw [hjb] at hjb'
    cases hjb'
    rw [hready]
    exact iff_of_false nofun nofun
  · exact h.counted
  · exact h.entry

theorem LocatedBut.addToBlocked (h : LocatedBut (some job) thread place) {jb : Job} {resource : Resource}
    (hjb : thread.jobs job = some jb) (hwaits : jb.blockable = some resource) :
    Located (thread.addToBlocked resource job)
      (Function.update place job (some (.blocked resource))) := by
  apply h.put (mult_addToBlocked resource) rfl
  · intro jb' hjb' r
    rw [hjb] at hjb'
    cases hjb'
    rw [hwaits, Option.some_inj, Place.blocked.injEq]
  · intro r
    rw [blockedOn_addToBlocked]
    unfold Worker.addToBlocked
    by_cases hr : r = resource
    · subst hr
      rw [if_pos rfl, List.length_cons, ← h.counted r]
      exact Function.update_self r _ _
    · rw [if_neg hr, ← h.counted r]
      exact Function.update_of_ne hr _ _
  · intro r
    unfold Worker.addToBlocked
    by_cases hr : r = resource
    · subst hr
      change Function.update _ r _ r ≠ _
      rw [Function.update_self]
      exact nofun
    · change Function.update _ resource _ r ≠ _
      rw [Function.update_of_ne hr]
      exact h.entry r

theorem LocatedBut.scheduleJob (h : LocatedBut (some job) thread place) {current : WriterId}
    {thread' : Worker} (hs : thread.scheduleJob current job = some thread') :
    ∃ q, Located thread' (Function.update place job (some q)) := by
  obtain ⟨jb, hjb, rfl⟩ := Option.map_eq_some_iff.mp hs
  cases hb : jb.blockable with
  | none => exact ⟨_, h.queueWrite hjb hb current⟩
  | some resource => exact ⟨_, h.addToBlocked hjb hb⟩

/-! ## Taking a job out of its place -/

theorem LocatedBut.take (h : Located thread place) {thread' : Worker} {q : Place}
    (hq : place job = some q)
    (hmult : ∀ p j, thread'.mult p j + (if p = q ∧ j = job then 1 else 0) = thread.mult p j)
    (hjobs : ∀ j, j ≠ job → thread'.jobs j = thread.jobs j)
    (halloc : (thread'.jobs job).isSome = true)
    (hcounted : ∀ r, thread'.numBlocked r = (thread'.blockedOn r).length)
    (hentry : ∀ r, thread'.jobsBlocked r ≠ some []) :
    LocatedBut (some job) thread' (Function.update place job none) where
  mult_eq p j := by
    have heq := hmult p j
    rw [h.mult_eq] at heq
    by_cases hj : j = job
    · subst hj
      rw [hq] at heq
      rw [Function.update_self, if_neg nofun]
      by_cases hp : p = q
      · rw [if_pos ⟨hp, rfl⟩, if_pos (congrArg some hp.symm)] at heq
        omega
      · rw [if_neg fun hpq => hp hpq.1, if_neg fun hqp => hp (Option.some.inj hqp).symm] at heq
        omega
    · rw [if_neg fun hpj => hj hpj.2] at heq
      rw [Function.update_of_ne hj]
      exact heq
  allocated j := by
    by_cases hj : j = job
    · subst hj
      simp [halloc]
    · rw [hjobs j hj, h.allocated, Function.update_of_ne hj]
      simp [Ne.symm hj]
  in_hand j hj := by
    cases hj
    exact Function.update_self job none place
  waits j jb r hjb hne := by
    have hj : j ≠ job := fun heq => hne (congrArg some heq.symm)
    rw [hjobs j hj] at hjb
    rw [Function.update_of_ne hj]
    exact h.waits j jb r hjb nofun
  counted := hcounted
  entry := hentry

/-! ## The steps -/

theorem located_schedule (h : Located thread place) {current : WriterId} {vid : Vid}
    {thread' : Worker} (hs : thread.schedule current vid job = some thread') :
    ∃ place', Located thread' place' := by
  unfold Worker.schedule at hs
  cases hjob : thread.jobs job with
  | some _ =>
    rw [hjob] at hs
    cases hs
  | none =>
    rw [hjob] at hs
    have hplace : place job = none := by
      have hnot := mt (h.allocated job).mpr
      rw [hjob] at hnot
      cases hp : place job with
      | none => rfl
      | some p => exact absurd (.inl (by rw [hp]; rfl)) (hnot nofun)
    -- the memory of the new job is at no place
    have hhand : LocatedBut (some job)
        { thread with jobs := Function.update thread.jobs job (some ⟨vid, none⟩) } place := by
      refine ⟨fun p j => ?_, fun j => ?_, fun j hj => ?_, fun j jb r hjb hne => ?_, h.counted,
        h.entry⟩
      · rw [← h.mult_eq]
        cases p <;> rfl
      · by_cases hj : j = job
        · subst hj
          simp
        · simp only [Function.update_of_ne hj]
          rw [h.allocated]
          simp [Ne.symm hj]
      · cases hj
        exact hplace
      · have hj : j ≠ job := fun heq => hne (congrArg some heq.symm)
        simp only [Function.update_of_ne hj] at hjb
        exact h.waits j jb r hjb nofun
    obtain ⟨q, hq⟩ := hhand.scheduleJob hs
    exact ⟨_, hq⟩

theorem located_read (h : Located thread place) {writer : WriterId} {thread' : Worker}
    (hs : thread.read writer = some thread') : ∃ place', Located thread' place' := by
  unfold Worker.read at hs
  split at hs
  · rename_i job rest hrun hqueue
    obtain ⟨jb, hjb, hs⟩ := Option.map_eq_some_iff.mp hs
    have hcount : ∀ j, thread.mult (.queue writer) j = rest.count j + if j = job then 1 else 0 := by
      intro j
      rw [Worker.mult, hqueue, List.count_cons]
      by_cases hj : j = job
      · simp [hj]
      · simp [hj, Ne.symm hj]
    have hq : place job = some (.queue writer) := by
      have heq := h.mult_eq (.queue writer) job
      rw [hcount, if_pos rfl] at heq
      by_contra hne
      rw [if_neg hne] at heq
      omega
    have hhand : LocatedBut (some job)
        { thread with queue := Function.update thread.queue writer rest }
        (Function.update place job none) := by
      refine LocatedBut.take h hq ?_ (fun _ _ => rfl) ?_ h.counted h.entry
      · intro p j
        cases p with
        | queue w =>
          by_cases hw : w = writer
          · subst hw
            rw [hcount]
            simp [Worker.mult]
          · simp [Worker.mult, hw]
        | blocked r => simp [Worker.mult, Worker.blockedOn]
        | running => simp [Worker.mult]
      · change (thread.jobs job).isSome = true
        rw [show thread.jobs job = some jb from hjb]
        rfl
    -- a job in the queue waits for nothing
    have hready : jb.blockable = none := by
      cases hb : jb.blockable with
      | none => rfl
      | some r =>
        have hblocked := (h.waits job jb r hjb nofun).mp hb
        rw [hq] at hblocked
        cases hblocked
    rw [hready] at hs
    subst hs
    refine ⟨_, hhand.put (q := .running) ?_ rfl ?_ h.counted h.entry⟩
    · intro p j
      cases p with
      | queue w => simp [Worker.mult]
      | blocked r => simp [Worker.mult, Worker.blockedOn]
      | running => simp [Worker.mult, hrun, eq_comm]
    · intro jb' hjb' r
      have heq : thread.jobs job = some jb' := hjb'
      rw [show thread.jobs job = some jb from hjb] at heq
      cases heq
      rw [hready]
      exact iff_of_false nofun nofun
  · cases hs

theorem LocatedBut.place_running (h : Located thread place) (hrun : thread.running = some job) :
    place job = some .running := by
  have heq := h.mult_eq .running job
  rw [Worker.mult, if_pos hrun] at heq
  by_contra hne
  rw [if_neg hne] at heq
  omega

theorem located_setBlockable (h : Located thread place) {b : Option Resource} {thread' : Worker}
    (hs : thread.setBlockable b = some thread') : Located thread' place := by
  obtain ⟨job, hrun, hs⟩ := Option.bind_eq_some_iff.mp hs
  obtain ⟨jb, hjb, rfl⟩ := Option.map_eq_some_iff.mp hs
  refine ⟨fun p j => ?_, h.allocated, h.in_hand, h.waits, h.counted, h.entry⟩
  rw [← h.mult_eq]
  cases p <;> rfl

theorem located_yielded (h : Located thread place) {thread' : Worker}
    (hs : thread.yielded = some thread') : ∃ place', Located thread' place' := by
  obtain ⟨job, hrun, hs⟩ := Option.bind_eq_some_iff.mp hs
  obtain ⟨jb, hjb, hs⟩ := Option.bind_eq_some_iff.mp hs
  have hplace := h.place_running hrun
  have hmult : ∀ (jobs : JobId → Option Job) (ctx : Vid → Option Resource) (p : Place) (j : JobId),
      ({ thread with running := none, jobs := jobs, ctxBlockable := ctx } : Worker).mult p j +
        (if p = .running ∧ j = job then 1 else 0) = thread.mult p j := by
    intro jobs ctx p j
    cases p with
    | queue w => simp [Worker.mult]
    | blocked r => simp [Worker.mult, Worker.blockedOn]
    | running => simp [Worker.mult, hrun, eq_comm]
  dsimp only at hs
  split at hs
  · rename_i resource hctx
    have hhand : LocatedBut (some job) { thread with
        running := none
        jobs := Function.update thread.jobs job (some { jb with blockable := some resource })
        ctxBlockable := Function.update thread.ctxBlockable jb.vid none }
        (Function.update place job none) := LocatedBut.take h
      hplace (hmult _ _) (fun j hj => Function.update_of_ne hj _ _) (by simp) h.counted h.entry
    obtain ⟨q, hq⟩ := hhand.scheduleJob hs
    exact ⟨_, hq⟩
  · have hhand : LocatedBut (some job) { thread with running := none }
        (Function.update place job none) := LocatedBut.take h
      hplace (hmult _ _) (fun j _ => rfl) (by simp [hjb]) h.counted h.entry
    obtain ⟨q, hq⟩ := hhand.scheduleJob hs
    exact ⟨_, hq⟩

theorem located_completed (h : Located thread place) {thread' : Worker}
    (hs : thread.completed = some thread') : ∃ place', Located thread' place' := by
  obtain ⟨job, hrun, rfl⟩ := Option.map_eq_some_iff.mp hs
  have hplace := h.place_running hrun
  refine ⟨Function.update place job none, fun p j => ?_, fun j => ?_, nofun, fun j jb r hjb _ => ?_,
    h.counted, h.entry⟩
  · have heq := h.mult_eq p j
    by_cases hj : j = job
    · subst hj
      rw [hplace] at heq
      rw [Function.update_self, if_neg nofun]
      cases p with
      | queue w => exact heq.trans (if_neg nofun)
      | blocked r => exact heq.trans (if_neg nofun)
      | running => simp [Worker.mult]
    · rw [Function.update_of_ne hj, ← heq]
      cases p with
      | queue w => rfl
      | blocked r => rfl
      | running => simp [Worker.mult, hrun, Ne.symm hj]
  · by_cases hj : j = job
    · subst hj
      simp
    · simp only [Function.update_of_ne hj]
      exact h.allocated j
  · by_cases hj : j = job
    · subst hj
      simp at hjb
    · simp only [Function.update_of_ne hj] at hjb ⊢
      exact h.waits j jb r hjb nofun

/-! ## Unblocking -/

/-- What the loop of `_unblock_blocked` has done to a job of the list. -/
def Job.unblocked (job : Job) : Job := { job with blockable := none }

theorem unblockLoop_eq {resource : Resource} {l : List JobId} (hl : l.Nodup)
    (hwaits : ∀ j ∈ l, ∃ jb, thread.jobs j = some jb ∧ jb.blockable = some resource) :
    thread.unblockLoop resource l = some { thread with
      jobs := fun j => if j ∈ l then (thread.jobs j).map Job.unblocked else thread.jobs j
      queue := Function.update thread.queue thread.id (thread.queue thread.id ++ l)
      numBlocked := Function.update thread.numBlocked resource
        (thread.numBlocked resource - l.length) } := by
  induction l generalizing thread with
  | nil => simp [Worker.unblockLoop]
  | cons job l ih =>
    obtain ⟨hjob, hl⟩ := List.nodup_cons.mp hl
    obtain ⟨jb, hjb, hb⟩ := hwaits job List.mem_cons_self
    rw [Worker.unblockLoop, hjb, Option.bind_some, if_neg (not_not.mpr hb)]
    simp only [Worker.scheduleJob, Function.update_self, Option.map_some, Option.bind_some]
    rw [ih hl]
    · simp only [Worker.queueWrite, Function.update_self, Function.update_idem, Option.some_inj,
        Worker.mk.injEq, true_and, and_true, List.append_assoc, List.singleton_append,
        List.length_cons, Nat.sub_sub, Nat.add_comm 1]
      funext j
      by_cases hj : j = job
      · subst hj
        simp [hjob, hjb, Job.unblocked]
      · simp [hj]
    · intro j hj
      have hne : j ≠ job := fun heq => hjob (heq ▸ hj)
      obtain ⟨jb', hjb', hb'⟩ := hwaits j (List.mem_cons_of_mem job hj)
      exact ⟨jb', (Function.update_of_ne hne _ _).trans hjb', hb'⟩

theorem LocatedBut.mem_blockedOn (h : Located thread place) (resource : Resource) (j : JobId) :
    j ∈ thread.blockedOn resource ↔ place j = some (.blocked resource) := by
  rw [← List.count_pos_iff]
  have heq := h.mult_eq (.blocked resource) j
  rw [Worker.mult] at heq
  rw [heq]
  split
  · rename_i hp
    exact iff_of_true Nat.one_pos hp
  · rename_i hp
    exact iff_of_false (Nat.lt_irrefl 0) hp

theorem LocatedBut.nodup_blockedOn (h : Located thread place) (resource : Resource) :
    (thread.blockedOn resource).Nodup := by
  rw [List.nodup_iff_count_le_one]
  intro j
  have heq := h.mult_eq (.blocked resource) j
  rw [Worker.mult] at heq
  rw [heq]
  split
  · exact Nat.le_refl 1
  · exact Nat.zero_le 1

theorem LocatedBut.unblock_eq (h : Located thread place) (resource : Resource) :
    ∃ thread', thread.unblock resource = some thread' ∧
      thread'.jobs = (fun j => if j ∈ thread.blockedOn resource then (thread.jobs j).map Job.unblocked
        else thread.jobs j) ∧
      thread'.queue = Function.update thread.queue thread.id
        (thread.queue thread.id ++ thread.blockedOn resource) ∧
      thread'.jobsBlocked = Function.update thread.jobsBlocked resource none ∧
      thread'.numBlocked = Function.update thread.numBlocked resource 0 ∧
      thread'.running = thread.running := by
  unfold Worker.unblock
  by_cases hzero : thread.numBlocked resource = 0
  · rw [if_pos hzero]
    have hempty : thread.blockedOn resource = [] :=
      List.length_eq_zero_iff.mp ((h.counted resource).symm.trans hzero)
    have hentry : thread.jobsBlocked resource = none := by
      unfold Worker.blockedOn at hempty
      cases hl : thread.jobsBlocked resource with
      | none => rfl
      | some l =>
        rw [hl, Option.getD_some] at hempty
        exact absurd (hempty ▸ hl) (h.entry resource)
    refine ⟨thread, rfl, ?_, ?_, ?_, ?_, rfl⟩
    · simp [hempty]
    · rw [hempty, List.append_nil, Function.update_eq_self]
    · rw [← hentry, Function.update_eq_self]
    · rw [← hzero, Function.update_eq_self]
  · rw [if_neg hzero]
    obtain ⟨l, hl⟩ : ∃ l, thread.jobsBlocked resource = some l := by
      cases hl : thread.jobsBlocked resource with
      | some l => exact ⟨l, rfl⟩
      | none =>
        have hcount := h.counted resource
        rw [Worker.blockedOn, hl] at hcount
        exact absurd hcount hzero
    have hblocked : thread.blockedOn resource = l := by rw [Worker.blockedOn, hl, Option.getD_some]
    have hwaits : ∀ j ∈ l, ∃ jb, thread.jobs j = some jb ∧ jb.blockable = some resource := by
      intro j hj
      rw [← hblocked, h.mem_blockedOn] at hj
      obtain ⟨jb, hjb⟩ := Option.isSome_iff_exists.mp ((h.allocated j).mpr (.inl (by rw [hj]; rfl)))
      exact ⟨jb, hjb, (h.waits j jb resource hjb nofun).mpr hj⟩
    have hloop := unblockLoop_eq (hblocked ▸ h.nodup_blockedOn resource) hwaits
    rw [Worker.unblockBlocked, hl, Option.bind_some, hloop, Option.map_some]
    refine ⟨_, rfl, ?_, ?_, rfl, ?_, rfl⟩
    · rw [hblocked]
    · rw [hblocked]
    · rw [h.counted resource, hblocked, Nat.sub_self]

theorem located_unblock (h : Located thread place) {resource : Resource} {thread' : Worker}
    (hs : thread.unblock resource = some thread') :
    Located thread' fun j =>
      if place j = some (.blocked resource) then some (.queue thread.id) else place j := by
  obtain ⟨t, ht, hjobs, hqueue, hblocked, hnum, hrun⟩ := h.unblock_eq resource
  rw [ht] at hs
  cases hs
  have hon : ∀ r, thread'.blockedOn r = if r = resource then [] else thread.blockedOn r := by
    intro r
    unfold Worker.blockedOn
    rw [hblocked]
    by_cases hr : r = resource
    · subst hr
      rw [if_pos rfl, Function.update_self]
      rfl
    · rw [if_neg hr, Function.update_of_ne hr]
  refine ⟨fun p j => ?_, fun j => ?_, nofun, fun j jb r hjb _ => ?_, fun r => ?_, fun r => ?_⟩
  · have hone := h.mult_eq p j
    have hres := h.mult_eq (.blocked resource) j
    rw [Worker.mult] at hres
    cases p with
    | queue w =>
      rw [Worker.mult] at hone ⊢
      rw [hqueue]
      by_cases hw : w = thread.id
      · subst hw
        rw [Function.update_self, List.count_append, hone, hres]
        by_cases hj : place j = some (.blocked resource)
        · simp [hj]
        · simp [hj]
      · rw [Function.update_of_ne hw, hone]
        by_cases hj : place j = some (.blocked resource)
        · simp [hj, Ne.symm hw]
        · simp [hj]
    | blocked r =>
      rw [Worker.mult] at hone ⊢
      rw [hon]
      by_cases hr : r = resource
      · subst hr
        by_cases hj : place j = some (.blocked r)
        · simp [hj]
        · simp [hj]
      · rw [if_neg hr, hone]
        by_cases hj : place j = some (.blocked resource)
        · simp [hj, Ne.symm hr]
        · simp [hj]
    | running =>
      rw [Worker.mult] at hone ⊢
      rw [hrun, hone]
      by_cases hj : place j = some (.blocked resource)
      · simp [hj]
      · simp [hj]
  · rw [hjobs]
    have halloc := h.allocated j
    dsimp only
    split
    · rename_i hmem
      rw [if_pos ((h.mem_blockedOn resource j).mp hmem), Option.isSome_map, halloc,
        (h.mem_blockedOn resource j).mp hmem]
      exact Iff.rfl
    · rename_i hmem
      rw [if_neg fun hj => hmem ((h.mem_blockedOn resource j).mpr hj)]
      exact halloc
  · rw [hjobs] at hjb
    dsimp only at hjb
    by_cases hj : place j = some (.blocked resource)
    · rw [if_pos ((h.mem_blockedOn resource j).mpr hj)] at hjb
      obtain ⟨jb', -, rfl⟩ := Option.map_eq_some_iff.mp hjb
      rw [if_pos hj]
      exact iff_of_false nofun nofun
    · rw [if_neg fun hmem => hj ((h.mem_blockedOn resource j).mp hmem)] at hjb
      rw [if_neg hj]
      exact h.waits j jb r hjb nofun
  · rw [hnum, hon]
    by_cases hr : r = resource
    · subst hr
      rw [Function.update_self, if_pos rfl]
      rfl
    · rw [Function.update_of_ne hr, if_neg hr]
      exact h.counted r
  · rw [hblocked]
    by_cases hr : r = resource
    · subst hr
      rw [Function.update_self]
      exact nofun
    · rw [Function.update_of_ne hr]
      exact h.entry r

/-! ## Runs -/

/-- The step lemma. -/
theorem located_next (h : Located thread place) {a : Action} {thread' : Worker}
    (hs : thread.next a = some thread') : ∃ place', Located thread' place' := by
  cases a with
  | schedule current vid job => exact located_schedule h hs
  | read writer => exact located_read h hs
  | setBlockable b => exact ⟨place, located_setBlockable h hs⟩
  | yielded => exact located_yielded h hs
  | completed => exact located_completed h hs
  | unblock resource => exact ⟨_, located_unblock h hs⟩

theorem reachable_located {id : WriterId} (h : (machine id).Reachable thread) :
    ∃ place, Located thread place := by
  apply h.invariant
  · exact ⟨_, located_new id⟩
  · rintro s t a ⟨place, hs⟩ hn
    exact located_next hs hn

theorem scheduleJob_jobs {current : WriterId} {thread' : Worker}
    (hs : thread.scheduleJob current job = some thread') : thread'.jobs = thread.jobs := by
  obtain ⟨jb, -, rfl⟩ := Option.map_eq_some_iff.mp hs
  split <;> rfl

theorem next_jobs (h : Located thread place) {a : Action} {thread' : Worker}
    (hs : thread.next a = some thread') {j : JobId} (hj : (thread.jobs j).isSome = true) :
    (thread'.jobs j).isSome = true ∨ a = .completed ∧ thread.running = some j := by
  have hupdate : ∀ (job : JobId) (jb : Job),
      (Function.update thread.jobs job (some jb) j).isSome = true := by
    intro job jb
    by_cases hne : j = job
    · subst hne
      simp
    · rwa [Function.update_of_ne hne]
  cases a with
  | schedule current vid job =>
    left
    change thread.schedule current vid job = some thread' at hs
    unfold Worker.schedule at hs
    split at hs
    · cases hs
    · rw [scheduleJob_jobs hs]
      exact hupdate job _
  | read writer =>
    left
    change thread.read writer = some thread' at hs
    unfold Worker.read at hs
    split at hs
    · obtain ⟨jb, -, rfl⟩ := Option.map_eq_some_iff.mp hs
      split
      · exact hj
      · exact hj
    · cases hs
  | setBlockable b =>
    left
    obtain ⟨job, -, hs⟩ := Option.bind_eq_some_iff.mp hs
    obtain ⟨jb, -, rfl⟩ := Option.map_eq_some_iff.mp hs
    exact hj
  | yielded =>
    left
    obtain ⟨job, -, hs⟩ := Option.bind_eq_some_iff.mp hs
    obtain ⟨jb, -, hs⟩ := Option.bind_eq_some_iff.mp hs
    dsimp only at hs
    split at hs
    · rw [scheduleJob_jobs hs]
      exact hupdate job _
    · rw [scheduleJob_jobs hs]
      exact hj
  | completed =>
    obtain ⟨job, hrun, rfl⟩ := Option.map_eq_some_iff.mp hs
    by_cases hne : j = job
    · exact .inr ⟨rfl, hne ▸ hrun⟩
    · left
      change (Function.update thread.jobs job none j).isSome = true
      rwa [Function.update_of_ne hne]
  | unblock resource =>
    left
    obtain ⟨t, ht, hjobs, -⟩ := h.unblock_eq resource
    rw [show thread.unblock resource = some thread' from hs] at ht
    cases ht
    rw [hjobs]
    dsimp only
    split
    · simpa using hj
    · exact hj

end

end Hilti.Scheduler
