import Mathlib.Tactic.Push
import Mathlib.Data.List.Nodup
import Hilti.File.Model

/-!
# Whether writes reach the file

The count of writers of a record covers the objects that have it open and the close commands that
are still in the queue, and every command in the queue is followed by a close command of its thread,
or the thread still has the file open.  So the record lives until all its commands have been
processed.  A write is lost exactly where its command is processed before any open command has
been: a clone may write before the command of the thread that opened the file is processed.
-/

namespace Hilti.File

open Hilti.Lib

set_option autoImplicit false

/-! ## The queue -/

/-- The commands of a thread, in order. -/
def cmdsOf (thread : ThreadId) (queue : Queue) : List Cmd :=
  queue.filterMap fun x => if x.1 = thread then some x.2 else none

def closeCount (i : InfoId) (queue : Queue) : ℕ :=
  queue.countP fun x => x.2 = .close i

theorem cmdsOf_append (thread : ThreadId) (queue queue' : Queue) :
    cmdsOf thread (queue ++ queue') = cmdsOf thread queue ++ cmdsOf thread queue' :=
  List.filterMap_append

theorem cmdsOf_push (thread t : ThreadId) (queue : Queue) (cmd : Cmd) :
    cmdsOf thread (queue ++ [(t, cmd)]) =
      cmdsOf thread queue ++ if t = thread then [cmd] else [] := by
  rw [cmdsOf_append]
  by_cases ht : t = thread
  · simp [cmdsOf, ht]
  · simp [cmdsOf, ht]

theorem closeCount_push (i : InfoId) (t : ThreadId) (queue : Queue) (cmd : Cmd) :
    closeCount i (queue ++ [(t, cmd)]) = closeCount i queue + if cmd = .close i then 1 else 0 := by
  rw [closeCount, List.countP_append, List.countP_singleton]
  simp [closeCount]

theorem takeFirst_cmdsOf {thread : ThreadId} {queue queue' : Queue} {cmd : Cmd}
    (h : takeFirst thread queue = some (cmd, queue')) (t : ThreadId) :
    cmdsOf t queue = (if t = thread then [cmd] else []) ++ cmdsOf t queue' := by
  induction queue generalizing queue' with
  | nil => cases h
  | cons x queue ih =>
    unfold takeFirst at h
    split at h
    · rename_i hx
      cases h
      by_cases ht : t = thread
      · simp [cmdsOf, hx, ht]
      · simp [cmdsOf, hx, ht, Ne.symm ht]
    · rename_i hx
      obtain ⟨r, hr, heq⟩ := Option.map_eq_some_iff.mp h
      cases heq
      have hrest := ih hr
      by_cases hxt : x.1 = t
      · have hne : t ≠ thread := fun heq => hx (hxt.trans heq)
        rw [if_neg hne] at hrest ⊢
        simp only [cmdsOf, List.filterMap_cons, hxt, if_true] at hrest ⊢
        rw [hrest]
        rfl
      · simp only [cmdsOf, List.filterMap_cons, hxt, if_false] at hrest ⊢
        exact hrest

theorem takeFirst_closeCount {thread : ThreadId} {queue queue' : Queue} {cmd : Cmd}
    (h : takeFirst thread queue = some (cmd, queue')) (i : InfoId) :
    closeCount i queue = closeCount i queue' + if cmd = .close i then 1 else 0 := by
  induction queue generalizing queue' with
  | nil => cases h
  | cons x queue ih =>
    unfold takeFirst at h
    split at h
    · cases h
      simp [closeCount, List.countP_cons]
    · obtain ⟨r, hr, heq⟩ := Option.map_eq_some_iff.mp h
      cases heq
      have hrest := ih hr
      simp only [closeCount, List.countP_cons] at hrest ⊢
      omega

/-! ## What keeps a record alive -/

def FileObj.Has (obj : FileObj) (i : InfoId) : Prop :=
  obj.isOpen = true ∧ obj.info = some i

instance (obj : FileObj) (i : InfoId) : Decidable (obj.Has i) :=
  inferInstanceAs (Decidable (_ ∧ _))

def openCount (i : InfoId) (objects : List FileObj) : ℕ :=
  objects.countP fun obj => obj.Has i

def HasOpen (objects : List FileObj) (thread : ThreadId) (i : InfoId) : Prop :=
  ∃ obj ∈ objects, obj.thread = thread ∧ obj.Has i

/-- After each command there is one to close its file, or the thread has that still open. -/
def Backed (has : InfoId → Prop) : List Cmd → Prop
  | [] => True
  | cmd :: cmds => (has cmd.info ∨ .close cmd.info ∈ cmd :: cmds) ∧ Backed has cmds

theorem Backed.imp {has has' : InfoId → Prop} {cmds : List Cmd} (h : Backed has cmds)
    (hhas : ∀ i, has i → has' i) : Backed has' cmds := by
  induction cmds with
  | nil => trivial
  | cons cmd cmds ih => exact ⟨h.1.imp_left (hhas _), ih h.2⟩

theorem Backed.push {has has' : InfoId → Prop} {cmds : List Cmd} {cmd : Cmd} (h : Backed has cmds)
    (hhas : ∀ i, has i → has' i ∨ cmd = .close i) (hcmd : has' cmd.info ∨ cmd = .close cmd.info) :
    Backed has' (cmds ++ [cmd]) := by
  induction cmds with
  | nil =>
    refine ⟨hcmd.imp_right fun heq => ?_, trivial⟩
    rw [← heq]
    exact List.mem_singleton_self cmd
  | cons c cmds ih =>
    refine ⟨?_, ih h.2⟩
    rcases h.1 with hc | hmem
    · rcases hhas _ hc with hc | heq
      · exact .inl hc
      · exact .inr (by rw [← heq]; simp)
    · exact .inr (List.mem_append_left [cmd] hmem)

theorem Backed.mem {has : InfoId → Prop} {cmds : List Cmd} (h : Backed has cmds) {cmd : Cmd}
    (hcmd : cmd ∈ cmds) : has cmd.info ∨ .close cmd.info ∈ cmds := by
  induction cmds with
  | nil => cases hcmd
  | cons c cmds ih =>
    rcases List.mem_cons.mp hcmd with rfl | hcmd
    · exact h.1
    · exact (ih h.2 hcmd).imp_right (List.mem_cons_of_mem c)

/-- What holds in every state. -/
structure Inv (s : State) : Prop where
  writers : ∀ i info, s.infos i = some info →
    openCount i s.objects + closeCount i s.queue ≤ info.writers
  freed : ∀ i, s.infos i = none → openCount i s.objects + closeCount i s.queue = 0
  files : ∀ i, i ∈ s.files ↔ (s.infos i).isSome = true
  nodup : s.files.Nodup
  backed : ∀ t, Backed (HasOpen s.objects t) (cmdsOf t s.queue)

/-! ## Objects -/

theorem openCount_append (i : InfoId) (objects : List FileObj) (obj : FileObj) :
    openCount i (objects ++ [obj]) = openCount i objects + if obj.Has i then 1 else 0 := by
  rw [openCount, List.countP_append, List.countP_singleton]
  simp [openCount]

theorem openCount_set {objects : List FileObj} {k : ℕ} {obj : FileObj} (h : objects[k]? = some obj)
    (i : InfoId) (obj' : FileObj) :
    openCount i (objects.set k obj') + (if obj.Has i then 1 else 0) =
      openCount i objects + if obj'.Has i then 1 else 0 := by
  induction objects generalizing k with
  | nil => cases h
  | cons x objects ih =>
    cases k with
    | zero =>
      cases h
      simp only [openCount, List.set_cons_zero, List.countP_cons, decide_eq_true_eq]
      omega
    | succ k =>
      have hrest := ih (k := k) h
      simp only [openCount, List.set_cons_succ, List.countP_cons] at hrest ⊢
      omega

theorem HasOpen.append {objects : List FileObj} {t : ThreadId} {i : InfoId}
    (h : HasOpen objects t i) (obj : FileObj) : HasOpen (objects ++ [obj]) t i := by
  obtain ⟨o, ho, hspec⟩ := h
  exact ⟨o, List.mem_append_left _ ho, hspec⟩

theorem hasOpen_set {objects : List FileObj} {k : ℕ} {obj : FileObj} (h : objects[k]? = some obj)
    (obj' : FileObj) (ht : obj'.thread = obj.thread) {i : InfoId} (hi : obj'.Has i) :
    HasOpen (objects.set k obj') obj.thread i := by
  have hlt := (List.getElem?_eq_some_iff.mp h).1
  exact ⟨obj', List.mem_of_getElem? (List.getElem?_set_self hlt), ht, hi⟩

theorem HasOpen.set {objects : List FileObj} {k : ℕ} {obj : FileObj} (h : objects[k]? = some obj)
    {t : ThreadId} {i : InfoId} (hopen : HasOpen objects t i) (obj' : FileObj) :
    HasOpen (objects.set k obj') t i ∨ (obj.thread = t ∧ obj.Has i) := by
  obtain ⟨o, ho, ht, hi⟩ := hopen
  obtain ⟨l, hl⟩ := List.mem_iff_getElem?.mp ho
  by_cases hkl : k = l
  · subst hkl
    rw [h] at hl
    cases hl
    exact .inr ⟨ht, hi⟩
  · exact .inl ⟨o, List.mem_of_getElem? ((List.getElem?_set_ne hkl).trans hl), ht, hi⟩

theorem HasOpen.count_pos {objects : List FileObj} {t : ThreadId} {i : InfoId}
    (h : HasOpen objects t i) : 0 < openCount i objects := by
  obtain ⟨o, ho, -, hi⟩ := h
  exact List.countP_pos_iff.mpr ⟨o, ho, decide_eq_true hi⟩

theorem closeCount_pos {queue : Queue} {t : ThreadId} {i : InfoId}
    (h : .close i ∈ cmdsOf t queue) : 0 < closeCount i queue := by
  obtain ⟨x, hx, heq⟩ := List.mem_filterMap.mp h
  refine List.countP_pos_iff.mpr ⟨x, hx, decide_eq_true ?_⟩
  split at heq
  · exact Option.some.inj heq
  · cases heq

section

variable {s s' : State}

theorem Inv.count_pos (h : Inv s) {t : ThreadId} {cmd : Cmd} (hcmd : cmd ∈ cmdsOf t s.queue) :
    0 < openCount cmd.info s.objects + closeCount cmd.info s.queue := by
  rcases (h.backed t).mem hcmd with hopen | hclose
  · exact Nat.add_pos_left hopen.count_pos _
  · exact Nat.add_pos_right _ (closeCount_pos hclose)

theorem Inv.info_isSome (h : Inv s) {t : ThreadId} {cmd : Cmd} (hcmd : cmd ∈ cmdsOf t s.queue) :
    ∃ info, s.infos cmd.info = some info := by
  cases hinfo : s.infos cmd.info with
  | some info => exact ⟨info, rfl⟩
  | none =>
    have := h.count_pos hcmd
    have := h.freed _ hinfo
    omega

/-! ## The steps keep the invariant -/

theorem inv_init : Inv .init where
  writers _ _ := nofun
  freed _ _ := rfl
  files i := by simp [State.init]
  nodup := List.nodup_nil
  backed _ := trivial

theorem inv_fileNew (h : Inv s) (thread : ThreadId) : Inv (s.fileNew thread) where
  writers i info hi := by
    have := h.writers i info hi
    simpa [State.fileNew, openCount_append, FileObj.Has] using this
  freed i hi := by
    have := h.freed i hi
    simpa [State.fileNew, openCount_append, FileObj.Has] using this
  files := h.files
  nodup := h.nodup
  backed t := (h.backed t).imp fun _ hopen => hopen.append _

/-- One more writer, for an object that will have the file open. -/
structure OneMore (s s' : State) (i : InfoId) : Prop where
  objects_eq : s'.objects = s.objects
  queue_eq : s'.queue = s.queue
  writers : ∀ j info, s'.infos j = some info → openCount j s.objects + closeCount j s.queue +
    (if j = i then 1 else 0) ≤ info.writers
  freed : ∀ j, s'.infos j = none → j ≠ i ∧ s.infos j = none
  files : ∀ j, j ∈ s'.files ↔ (s'.infos j).isSome = true
  nodup : s'.files.Nodup

theorem oneMore_writers (h : Inv s) {i : InfoId} {info : Info} (hi : s.infos i = some info) :
    OneMore s (s.setInfo i (some { info with writers := info.writers + 1 })) i where
  objects_eq := rfl
  queue_eq := rfl
  writers j info' hj := by
    simp only [State.setInfo] at hj
    by_cases hji : j = i
    · subst hji
      rw [if_pos rfl] at hj
      cases hj
      have := h.writers j info hi
      rw [if_pos rfl]
      exact Nat.add_le_add_right this 1
    · rw [if_neg hji] at hj
      rw [if_neg hji]
      exact h.writers j info' hj
  freed j hj := by
    simp only [State.setInfo] at hj
    by_cases hji : j = i
    · rw [if_pos hji] at hj
      cases hj
    · rw [if_neg hji] at hj
      exact ⟨hji, hj⟩
  files j := by
    simp only [State.setInfo]
    rw [h.files j]
    by_cases hji : j = i
    · subst hji
      rw [hi, if_pos rfl]
      rfl
    · rw [if_neg hji]
  nodup := h.nodup

theorem oneMore_new (h : Inv s) {path : String} {fresh : InfoId} (hfresh : s.infos fresh = none) :
    OneMore s { s.setInfo fresh (some ⟨path, false, 1⟩) with files := fresh :: s.files } fresh where
  objects_eq := rfl
  queue_eq := rfl
  writers j info' hj := by
    simp only [State.setInfo] at hj
    by_cases hji : j = fresh
    · subst hji
      rw [if_pos rfl] at hj
      cases hj
      exact Nat.le_of_eq (by rw [if_pos rfl, h.freed j hfresh])
    · rw [if_neg hji] at hj
      rw [if_neg hji]
      exact h.writers j info' hj
  freed j hj := by
    simp only [State.setInfo] at hj
    by_cases hji : j = fresh
    · rw [if_pos hji] at hj
      cases hj
    · rw [if_neg hji] at hj
      exact ⟨hji, hj⟩
  files j := by
    simp only [State.setInfo, List.mem_cons]
    rw [h.files j]
    by_cases hji : j = fresh
    · simp [hji]
    · simp [hji]
  nodup := by
    refine List.nodup_cons.mpr ⟨fun hmem => ?_, h.nodup⟩
    have := (h.files fresh).mp hmem
    rw [hfresh] at this
    cases this

theorem openInfo_oneMore (h : Inv s) {path : String} {fresh : InfoId} {r : State × InfoId}
    (hr : s.openInfo path fresh = some r) : OneMore s r.1 r.2 := by
  unfold State.openInfo at hr
  split at hr
  · obtain ⟨info, hi, rfl⟩ := Option.map_eq_some_iff.mp hr
    exact oneMore_writers h hi
  · split at hr
    · cases hr
    · rename_i hfresh
      cases hr
      exact oneMore_new h hfresh

theorem inv_fileOpen (h : Inv s) {file : ℕ} {path : String} {fresh : InfoId}
    (hs : s.fileOpen file path fresh = some s') : Inv s' := by
  obtain ⟨obj, hobj, hs⟩ := Option.bind_eq_some_iff.mp hs
  split at hs
  · cases hs
    exact h
  · rename_i hclosed
    obtain ⟨⟨u, i⟩, hr, rfl⟩ := Option.map_eq_some_iff.mp hs
    have hone : OneMore s u i := openInfo_oneMore h hr
    have hhas : ∀ j, ¬obj.Has j := fun j hj => hclosed hj.1
    have hcount : ∀ j, openCount j (s.objects.set file ⟨obj.thread, some i, true⟩) =
        openCount j s.objects + if j = i then 1 else 0 := by
      intro j
      have hset := openCount_set hobj j ⟨obj.thread, some i, true⟩
      rw [if_neg (hhas j), Nat.add_zero] at hset
      rw [hset]
      simp [FileObj.Has, eq_comm]
    have hclose : ∀ j, closeCount j (s.queue ++ [(obj.thread, .open i)]) = closeCount j s.queue := by
      intro j
      rw [closeCount_push, if_neg nofun, Nat.add_zero]
    constructor
    · intro j info hj
      have hw := hone.writers j info hj
      simp only [State.push, hone.objects_eq, hone.queue_eq, hcount, hclose]
      omega
    · intro j hj
      obtain ⟨hne, hnone⟩ := hone.freed j hj
      have hf := h.freed j hnone
      simp only [State.push, hone.objects_eq, hone.queue_eq, hcount, hclose, if_neg hne]
      omega
    · exact hone.files
    · exact hone.nodup
    · intro t
      simp only [State.push, hone.objects_eq, hone.queue_eq, cmdsOf_push]
      have hkeep : ∀ j, HasOpen s.objects t j →
          HasOpen (s.objects.set file ⟨obj.thread, some i, true⟩) t j := by
        intro j hj
        rcases hj.set hobj ⟨obj.thread, some i, true⟩ with hj | ⟨-, hj⟩
        · exact hj
        · exact absurd hj (hhas j)
      by_cases ht : obj.thread = t
      · subst ht
        rw [if_pos rfl]
        exact (h.backed obj.thread).push (fun j hj => .inl (hkeep j hj))
          (.inl (hasOpen_set hobj ⟨obj.thread, some i, true⟩ rfl ⟨rfl, rfl⟩))
      · rw [if_neg ht, List.append_nil]
        exact (h.backed t).imp hkeep

theorem inv_fileWrite (h : Inv s) {file : ℕ} {data : Data} (hs : s.fileWrite file data = some s') :
    Inv s' := by
  obtain ⟨obj, hobj, hs⟩ := Option.bind_eq_some_iff.mp hs
  split at hs
  · rename_i hopen
    obtain ⟨i, hi, rfl⟩ := Option.map_eq_some_iff.mp hs
    have hclose : ∀ j, closeCount j (s.queue ++ [(obj.thread, .write i data)]) =
        closeCount j s.queue := by
      intro j
      rw [closeCount_push, if_neg nofun, Nat.add_zero]
    constructor
    · intro j info hj
      simp only [State.push, hclose]
      exact h.writers j info hj
    · intro j hj
      simp only [State.push, hclose]
      exact h.freed j hj
    · exact h.files
    · exact h.nodup
    · intro t
      simp only [State.push, cmdsOf_push]
      by_cases ht : obj.thread = t
      · rw [if_pos ht]
        exact (h.backed t).push (fun j hj => .inl hj)
          (.inl ⟨obj, List.mem_of_getElem? hobj, ht, hopen, hi⟩)
      · rw [if_neg ht, List.append_nil]
        exact h.backed t
  · cases hs
    exact h

theorem inv_fileClose (h : Inv s) {file : ℕ} (hs : s.fileClose file = some s') : Inv s' := by
  obtain ⟨obj, hobj, hs⟩ := Option.bind_eq_some_iff.mp hs
  split at hs
  · rename_i hopen
    obtain ⟨i, hi, rfl⟩ := Option.map_eq_some_iff.mp hs
    have hhas : ∀ j, obj.Has j ↔ j = i := by
      intro j
      constructor
      · rintro ⟨-, hj⟩
        exact Option.some.inj (hj.symm.trans hi)
      · rintro rfl
        exact ⟨hopen, hi⟩
    -- what the object stood for, the command does
    have hcount : ∀ j, openCount j (s.objects.set file { obj with isOpen := false }) +
        closeCount j (s.queue ++ [(obj.thread, .close i)]) =
        openCount j s.objects + closeCount j s.queue := by
      intro j
      have hset := openCount_set hobj j { obj with isOpen := false }
      have hnot : ¬({ obj with isOpen := false } : FileObj).Has j := fun hj => Bool.false_ne_true hj.1
      rw [if_neg hnot] at hset
      rw [closeCount_push]
      by_cases hji : j = i
      · subst hji
        rw [if_pos ((hhas j).mpr rfl)] at hset
        rw [if_pos rfl]
        omega
      · rw [if_neg (mt (hhas j).mp hji)] at hset
        rw [if_neg fun heq => hji (Cmd.close.inj heq).symm]
        omega
    constructor
    · intro j info hj
      simp only [State.push, hcount]
      exact h.writers j info hj
    · intro j hj
      simp only [State.push, hcount]
      exact h.freed j hj
    · exact h.files
    · exact h.nodup
    · intro t
      simp only [State.push, cmdsOf_push]
      by_cases ht : obj.thread = t
      · rw [if_pos ht]
        refine (h.backed t).push (fun j hj => ?_) (.inr rfl)
        rcases hj.set hobj { obj with isOpen := false } with hj | ⟨-, hj⟩
        · exact .inl hj
        · exact .inr (congrArg Cmd.close ((hhas j).mp hj).symm)
      · rw [if_neg ht, List.append_nil]
        refine (h.backed t).imp fun j hj => ?_
        rcases hj.set hobj { obj with isOpen := false } with hj | ⟨heq, -⟩
        · exact hj
        · exact absurd heq ht
  · cases hs
    exact h

theorem inv_clone_closed (h : Inv s) {obj : FileObj} (hobj : ∀ i, ¬obj.Has i) :
    Inv { s with objects := s.objects ++ [obj] } where
  writers i info hi := by
    simp only [openCount_append, if_neg (hobj i), Nat.add_zero]
    exact h.writers i info hi
  freed i hi := by
    simp only [openCount_append, if_neg (hobj i), Nat.add_zero]
    exact h.freed i hi
  files := h.files
  nodup := h.nodup
  backed t := (h.backed t).imp fun _ hopen => hopen.append _

theorem inv_fileClone (h : Inv s) {file : ℕ} {thread : ThreadId}
    (hs : s.fileClone file thread = some s') : Inv s' := by
  obtain ⟨src, hsrc, hs⟩ := Option.bind_eq_some_iff.mp hs
  dsimp only at hs
  split at hs
  · rename_i i hi
    split at hs
    · rename_i hopen
      obtain ⟨info, hinfo, rfl⟩ := Option.map_eq_some_iff.mp hs
      have hone := oneMore_writers h hinfo
      have hcount : ∀ j, openCount j (s.objects ++ [{ src with thread := thread }]) =
          openCount j s.objects + if j = i then 1 else 0 := by
        intro j
        rw [openCount_append]
        simp [FileObj.Has, hopen, hi, eq_comm]
      constructor
      · intro j info' hj
        have hw := hone.writers j info' hj
        simp only [State.setInfo, hcount]
        omega
      · intro j hj
        obtain ⟨hne, hnone⟩ := hone.freed j hj
        have hf := h.freed j hnone
        simp only [State.setInfo, hcount, if_neg hne]
        omega
      · exact hone.files
      · exact hone.nodup
      · exact fun t => (h.backed t).imp fun _ hj => hj.append _
    · rename_i hclosed
      cases hs
      exact inv_clone_closed h fun j hj => hclosed hj.1
  · rename_i hnone
    cases hs
    refine inv_clone_closed h fun j hj => ?_
    have := hj.2
    rw [hnone] at this
    cases this

theorem Inv.take (h : Inv s) {thread : ThreadId} {cmd : Cmd} {queue : Queue}
    (hq : takeFirst thread s.queue = some (cmd, queue)) :
    (∀ t, Backed (HasOpen s.objects t) (cmdsOf t queue)) ∧
      ∀ i, closeCount i s.queue = closeCount i queue + if cmd = .close i then 1 else 0 := by
  refine ⟨fun t => ?_, takeFirst_closeCount hq⟩
  have hb := h.backed t
  rw [takeFirst_cmdsOf hq t] at hb
  split at hb
  · exact hb.2
  · exact hb

theorem Inv.of_take (h : Inv s) {thread : ThreadId} {cmd : Cmd} {queue : Queue}
    (hq : takeFirst thread s.queue = some (cmd, queue)) (reached : Log) :
    Inv { s with queue := queue, reached := reached } := by
  obtain ⟨hbacked, hclose⟩ := h.take hq
  constructor
  · intro i info hi
    have hw := h.writers i info hi
    rw [hclose] at hw
    change openCount i s.objects + closeCount i queue ≤ info.writers
    omega
  · intro i hi
    have hf := h.freed i hi
    rw [hclose] at hf
    change openCount i s.objects + closeCount i queue = 0
    omega
  · exact h.files
  · exact h.nodup
  · exact hbacked

theorem Inv.setInfo (h : Inv s) {i : InfoId} {info info' : Info} (hi : s.infos i = some info)
    (hw : openCount i s.objects + closeCount i s.queue ≤ info'.writers) :
    Inv (s.setInfo i (some info')) where
  writers j info'' hj := by
    simp only [State.setInfo] at hj ⊢
    by_cases hji : j = i
    · subst hji
      rw [if_pos rfl] at hj
      cases hj
      exact hw
    · rw [if_neg hji] at hj
      exact h.writers j info'' hj
  freed j hj := by
    simp only [State.setInfo] at hj ⊢
    by_cases hji : j = i
    · rw [if_pos hji] at hj
      cases hj
    · rw [if_neg hji] at hj
      exact h.freed j hj
  files j := by
    simp only [State.setInfo]
    rw [h.files j]
    by_cases hji : j = i
    · subst hji
      rw [hi, if_pos rfl]
      rfl
    · rw [if_neg hji]
  nodup := h.nodup
  backed := h.backed

theorem process_spec (h : Inv s) {thread : ThreadId} {cmd : Cmd} {queue : Queue}
    (hq : takeFirst thread s.queue = some (cmd, queue)) :
    ∃ s', s.process thread = some s' ∧ Inv s' := by
  have hmem : cmd ∈ cmdsOf thread s.queue := by
    rw [takeFirst_cmdsOf hq thread, if_pos rfl]
    exact List.mem_cons_self
  obtain ⟨info, hinfo⟩ := h.info_isSome hmem
  have htake := h.of_take hq s.reached
  obtain ⟨-, hclose⟩ := h.take hq
  have hw := h.writers _ info hinfo
  unfold State.process
  rw [hq, Option.bind_some]
  cases cmd with
  | «open» i =>
    have hi : s.infos i = some info := hinfo
    simp only [State.cmdInternal, hi, Option.map_some]
    split
    · exact ⟨_, rfl, htake⟩
    · refine ⟨_, rfl, Inv.setInfo (s := { s with queue := queue }) htake hi ?_⟩
      exact htake.writers i info hi
  | write i data =>
    have hi : s.infos i = some info := hinfo
    simp only [State.cmdInternal, hi, Option.map_some]
    split
    · exact ⟨_, rfl, htake⟩
    · split
      · exact ⟨_, rfl, htake⟩
      · exact ⟨_, rfl, h.of_take hq _⟩
  | close i =>
    have hi : s.infos i = some info := hinfo
    have hwi : openCount i s.objects + closeCount i s.queue ≤ info.writers := hw
    rw [hclose i, if_pos rfl] at hwi
    simp only [State.cmdInternal, hi, Option.bind_some]
    split
    · exact ⟨_, rfl, htake⟩
    · rw [if_neg (by omega)]
      split
      · rename_i hlast
        have hfile : i ∈ s.files := (h.files i).mpr (by rw [hi]; rfl)
        rw [if_pos hfile]
        refine ⟨_, rfl, ?_⟩
        constructor
        · intro j info' hj
          simp only [State.setInfo] at hj ⊢
          by_cases hji : j = i
          · rw [if_pos hji] at hj
            cases hj
          · rw [if_neg hji] at hj
            exact htake.writers j info' hj
        · intro j hj
          simp only [State.setInfo] at hj ⊢
          by_cases hji : j = i
          · subst hji
            omega
          · rw [if_neg hji] at hj
            exact htake.freed j hj
        · intro j
          simp only [State.setInfo]
          rw [h.nodup.mem_erase_iff, h.files j]
          by_cases hji : j = i
          · simp [hji]
          · simp [hji]
        · exact h.nodup.erase i
        · exact htake.backed
      · refine ⟨_, rfl, Inv.setInfo (s := { s with queue := queue }) htake hi ?_⟩
        change openCount i s.objects + closeCount i queue ≤ info.writers - 1
        omega

theorem inv_next (h : Inv s) {a : Action} (hs : s.next a = some s') : Inv s' := by
  cases a with
  | fileNew thread =>
    cases hs
    exact inv_fileNew h thread
  | fileOpen file path fresh => exact inv_fileOpen h hs
  | fileWrite file data => exact inv_fileWrite h hs
  | fileClose file => exact inv_fileClose h hs
  | fileClone file thread => exact inv_fileClone h hs
  | process thread =>
    obtain ⟨⟨cmd, queue⟩, hq, -⟩ := Option.bind_eq_some_iff.mp hs
    obtain ⟨t, ht, hinv⟩ := process_spec h hq
    rw [show s.process thread = some s' from hs] at ht
    cases ht
    exact hinv

end

end Hilti.File
