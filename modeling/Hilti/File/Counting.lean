import Hilti.File.Model
import Hilti.Strings.Model
import Mathlib.Data.List.Nodup

/-!
# Counting who has a file open

The model of the records of open files (`file.c`) without threads, where commands are executed as
soon as they are pushed, and with what can go wrong: converting a path to a native string, opening in
the operating system, and writing.  A step has no result where a comparison of paths reads outside of
a string and where a null pointer is followed.

A record counts the objects that have its file open, as long as no object is closed whose file the
operating system has not opened: closing such a file leaves its record as it is.
-/

namespace Hilti.File.Single

open Hilti.Lib Hilti.Strings

set_option autoImplicit false

/-! ## State -/

/-- `__hlt_file_info`. -/
structure Info where
  path : HltString
  /-- `fd >= 0`. -/
  fdOpen : Bool
  writers : ℕ
  error : Bool
  deriving DecidableEq

/-- `hlt_file`. -/
structure FileObj where
  info : Option InfoId
  path : HltString
  isOpen : Bool
  deriving DecidableEq

structure State where
  objects : List FileObj
  infos : InfoId → Option Info
  /-- `__hlt_globals()->files`. -/
  files : List InfoId

/-- What comes of opening a file for the first time. -/
inductive Outcome where
  | pathNotConverted
  | openFails
  | opens
  deriving DecidableEq

namespace State

def init : State where
  objects := []
  infos _ := none
  files := []

def setInfo (s : State) (i : InfoId) (info : Option Info) : State :=
  { s with infos := Function.update s.infos i info }

/-! ## Commands -/

/-- `__hlt_file_cmd_internal` for opening. -/
def cmdOpen (s : State) (i : InfoId) (outcome : Outcome) : Option State :=
  (s.infos i).map fun info =>
    if info.error then s
    else if info.fdOpen then s
    else
      match outcome with
      | .pathNotConverted => s
      | .openFails => s.setInfo i (some { info with error := true })
      | .opens => s.setInfo i (some { info with fdOpen := true })

/-- `__hlt_file_cmd_internal` for writing. -/
def cmdWrite (s : State) (i : InfoId) (data : Data) (written : Bool) : Option State :=
  (s.infos i).map fun info =>
    if !info.fdOpen then s
    else if info.error then s
    else if data ≠ [] ∧ written = false then s.setInfo i (some { info with error := true })
    else s

/-- `__hlt_file_cmd_internal` for closing. -/
def cmdClose (s : State) (i : InfoId) : Option State :=
  (s.infos i).bind fun info =>
    -- `if ( cmd->info->fd < 0 ) return;`
    if !info.fdOpen then some s
    else if info.writers = 0 then none
    else if info.writers - 1 = 0 then
      if i ∈ s.files then some { s.setInfo i none with files := s.files.erase i } else none
    else some (s.setInfo i (some { info with writers := info.writers - 1 }))

/-! ## File objects -/

/-- `hlt_file_new`. -/
def fileNew (s : State) : State :=
  { s with objects := s.objects ++ [⟨none, none, false⟩] }

/-- `hlt_file_clone_init`. -/
def fileClone (s : State) (file : ℕ) : Option State :=
  s.objects[file]?.bind fun src =>
    match src.info, src.isOpen with
    | some i, true => (s.infos i).map fun info =>
      { s.setInfo i (some { info with writers := info.writers + 1 }) with
        objects := s.objects ++ [src] }
    | _, _ => some { s with objects := s.objects ++ [src] }

/-- Whether `hlt_string_cmp` returns 0, which it also does when it raises an exception. -/
def sameName (path path' : HltString) : Option Bool :=
  (stringCmp path path').map fun r =>
    match r with
    | .ok n => n = 0
    | .error _ => true

/-- The search of `hlt_file_open` for a record with the path. -/
def findInfo (s : State) (path : HltString) : List InfoId → Option (Option InfoId)
  | [] => some none
  | i :: rest =>
    (s.infos i).bind fun info =>
      (sameName path info.path).bind fun same =>
        if same then some (some i) else s.findInfo path rest

/-- The record that `hlt_file_open` finds or creates; `fresh` is new memory. -/
def openInfo (s : State) (path : HltString) (fresh : InfoId) : Option (State × InfoId) :=
  (s.findInfo path s.files).bind fun found =>
    match found with
    | some i => (s.infos i).map fun info =>
      (s.setInfo i (some { info with writers := info.writers + 1 }), i)
    | none =>
      match s.infos fresh, path with
      | none, some bytes =>
        some ({ s.setInfo fresh (some ⟨some bytes, false, 1, false⟩) with
          files := fresh :: s.files }, fresh)
      | _, _ => none

/-- `hlt_file_open`; for an object that is open it raises an exception. -/
def fileOpen (s : State) (file : ℕ) (path : HltString) (fresh : InfoId) (outcome : Outcome) :
    Option State :=
  s.objects[file]?.bind fun obj =>
    if obj.isOpen then some s
    else (s.openInfo path fresh).bind fun r =>
      { r.1 with objects := r.1.objects.set file ⟨some r.2, path, true⟩ }.cmdOpen r.2 outcome

/-- `hlt_file_write_bytes`; for an object that is not open it raises an exception. -/
def fileWrite (s : State) (file : ℕ) (data : Data) (written : Bool) : Option State :=
  s.objects[file]?.bind fun obj =>
    if !obj.isOpen then some s else obj.info.bind fun i => s.cmdWrite i data written

/-- `hlt_file_close`; for an object that is not open it raises an exception. -/
def fileClose (s : State) (file : ℕ) : Option State :=
  s.objects[file]?.bind fun obj =>
    if !obj.isOpen then some s
    else obj.info.bind fun i => (s.cmdClose i).map fun s =>
      { s with objects := s.objects.set file { obj with path := none, isOpen := false } }

end State

inductive Action where
  | fileNew
  | fileOpen (file : ℕ) (path : HltString) (fresh : InfoId) (outcome : Outcome)
  | fileClone (file : ℕ)
  | fileWrite (file : ℕ) (data : Data) (written : Bool)
  | fileClose (file : ℕ)

def State.next (s : State) : Action → Option State
  | .fileNew => some s.fileNew
  | .fileOpen file path fresh outcome => s.fileOpen file path fresh outcome
  | .fileClone file => s.fileClone file
  | .fileWrite file data written => s.fileWrite file data written
  | .fileClose file => s.fileClose file

/-- All sequences of calls. -/
def machine : Machine State Action where
  start := .init
  next := State.next

/-! ## What is expected -/

/-- The objects that have the file with a path open. -/
def State.openFor (s : State) (path : List UInt8) : ℕ :=
  s.objects.countP fun o => o.isOpen ∧ bytesOf o.path = path

/-- The records in the list count the open objects, and a path has one exactly if there are some. -/
structure Counted (s : State) : Prop where
  writers : ∀ i ∈ s.files, ∀ info, s.infos i = some info →
    info.writers = s.openFor (bytesOf info.path)
  listed : ∀ path, (∃ i ∈ s.files, ∃ info, s.infos i = some info ∧ bytesOf info.path = path) ↔
    0 < s.openFor path
  unique : ∀ i ∈ s.files, ∀ j ∈ s.files, ∀ info info', s.infos i = some info →
    s.infos j = some info' → bytesOf info.path = bytesOf info'.path → i = j

/-- Opening a file that no object has open starts with a new record, whose error flag is about
this call. -/
def StartsFresh (s : State) (a : Action) (t : State) : Prop :=
  match a with
  | .fileOpen file path fresh outcome =>
    ∀ obj, s.objects[file]? = some obj → obj.isOpen = false → s.openFor (bytesOf path) = 0 →
      s.infos fresh = none ∧ t.objects[file]? = some ⟨some fresh, path, true⟩ ∧
      t.infos fresh = some ⟨some (bytesOf path), outcome = .opens, 1, outcome = .openFails⟩
  | _ => True

/-- What every step of a run has to keep. -/
def Keeps (s : State) (a : Action) : Prop :=
  ∀ t, machine.next s a = some t → Counted t ∧ StartsFresh s a t

/-- The first record whose path compares equal to a path to open has this path, and an object to
close is one of a file that the operating system has opened. -/
def Sound (s : State) : Action → Prop
  | .fileOpen file path _ _ => ∀ obj, s.objects[file]? = some obj → obj.isOpen = false →
    ∀ before i after info, s.files = before ++ i :: after →
      (∀ j ∈ before, ∀ info', s.infos j = some info' → State.sameName path info'.path = some false) →
      s.infos i = some info → State.sameName path info.path = some true →
        bytesOf info.path = bytesOf path
  | .fileClose file => ∀ obj, s.objects[file]? = some obj → obj.isOpen = true →
    ∀ i, obj.info = some i → ∀ info, s.infos i = some info → info.fdOpen = true
  | _ => True

/-! ## Lists of objects -/

section

variable {s t : State}

@[simp] theorem setInfo_objects (i : InfoId) (info : Option Info) :
    (s.setInfo i info).objects = s.objects := rfl

@[simp] theorem setInfo_files (i : InfoId) (info : Option Info) :
    (s.setInfo i info).files = s.files := rfl

theorem setInfo_infos (i : InfoId) (info : Option Info) (j : InfoId) :
    (s.setInfo i info).infos j = if j = i then info else s.infos j :=
  Function.update_apply _ _ _ _

theorem setInfo_self {i : InfoId} {info : Info} (h : s.infos i = some info) :
    s.setInfo i (some info) = s := by
  rw [State.setInfo, ← h, Function.update_eq_self]

theorem countP_replace {objects : List FileObj} {file : ℕ} {obj : FileObj}
    (h : objects[file]? = some obj) (p : FileObj → Bool) (new : FileObj) :
    (objects.set file new).countP p + (if p obj then 1 else 0) =
      objects.countP p + if p new then 1 else 0 := by
  obtain ⟨hlt, rfl⟩ := List.getElem?_eq_some_iff.mp h
  have hpos : p objects[file] → 0 < objects.countP p := fun hp =>
    List.countP_pos_iff.mpr ⟨_, List.getElem_mem hlt, hp⟩
  rw [List.countP_set hlt]
  by_cases hp : p objects[file]
  · have := hpos hp
    simp only [hp, if_true]
    omega
  · simp only [hp]
    rfl

def openOn (objects : List FileObj) (i : InfoId) : ℕ :=
  objects.countP fun o => o.isOpen ∧ o.info = some i

theorem openOn_append (objects : List FileObj) (o : FileObj) (i : InfoId) :
    openOn (objects ++ [o]) i =
      openOn objects i + if o.isOpen ∧ o.info = some i then 1 else 0 := by
  rw [openOn, List.countP_append, List.countP_singleton, openOn]
  simp only [decide_eq_true_eq]

theorem openOn_replace {objects : List FileObj} {file : ℕ} {obj : FileObj}
    (h : objects[file]? = some obj) (new : FileObj) (i : InfoId) :
    openOn (objects.set file new) i + (if obj.isOpen ∧ obj.info = some i then 1 else 0) =
      openOn objects i + if new.isOpen ∧ new.info = some i then 1 else 0 := by
  have hcount := countP_replace h (fun o => decide (o.isOpen ∧ o.info = some i)) new
  simp only [decide_eq_true_eq] at hcount
  exact hcount

theorem record_before {i : InfoId} {info info' : Info} (hi : s.infos i = some info)
    (hpath : info'.path = info.path) {j : InfoId} {info₁ : Info}
    (hj : (s.setInfo i (some info')).infos j = some info₁) :
    ∃ info₂, s.infos j = some info₂ ∧ info₂.path = info₁.path := by
  rw [setInfo_infos] at hj
  by_cases hji : j = i
  · rw [if_pos hji] at hj
    cases hj
    exact ⟨info, hji ▸ hi, hpath.symm⟩
  · rw [if_neg hji] at hj
    exact ⟨info₁, hj, rfl⟩

/-! ## The invariant -/

def Linked (s : State) (o : FileObj) : Prop :=
  o.isOpen → ∃ i info, o.info = some i ∧ s.infos i = some info ∧ bytesOf info.path = bytesOf o.path

/-- The records there are in memory are those of the list; they count the objects that refer to
them. -/
structure Inv (s : State) : Prop where
  nodup : s.files.Nodup
  listed : ∀ i, i ∈ s.files ↔ (s.infos i).isSome
  writers : ∀ i info, s.infos i = some info → info.writers = openOn s.objects i
  positive : ∀ i info, s.infos i = some info → 0 < info.writers
  unique : ∀ i j info info', s.infos i = some info → s.infos j = some info' →
    bytesOf info.path = bytesOf info'.path → i = j
  linked : ∀ o ∈ s.objects, Linked s o

theorem Inv.mem (h : Inv s) {i : InfoId} {info : Info} (hi : s.infos i = some info) :
    i ∈ s.files :=
  (h.listed i).mpr (by rw [hi]; rfl)

theorem Inv.openOn_eq (h : Inv s) {i : InfoId} {info : Info} (hi : s.infos i = some info) :
    openOn s.objects i = s.openFor (bytesOf info.path) := by
  refine List.countP_congr fun o ho => ?_
  simp only [decide_eq_true_eq]
  refine and_congr_right fun hopen => ?_
  obtain ⟨j, info', hj, hinfo, hpath⟩ := h.linked o ho hopen
  constructor
  · intro hj'
    obtain rfl : j = i := Option.some.inj (hj.symm.trans hj')
    obtain rfl : info' = info := Option.some.inj (hinfo.symm.trans hi)
    exact hpath.symm
  · intro hpath'
    rw [hj, h.unique j i info' info hinfo hi (hpath.trans hpath')]

theorem Inv.exists_record (h : Inv s) {path : List UInt8} (hpos : 0 < s.openFor path) :
    ∃ i info, s.infos i = some info ∧ bytesOf info.path = path := by
  obtain ⟨o, ho, hopen⟩ := List.countP_pos_iff.mp hpos
  rw [decide_eq_true_eq] at hopen
  obtain ⟨i, info, _, hinfo, hpath⟩ := h.linked o ho hopen.1
  exact ⟨i, info, hinfo, hpath.trans hopen.2⟩

theorem Inv.counted (h : Inv s) : Counted s where
  writers i _ info hi := by rw [h.writers i info hi, h.openOn_eq hi]
  listed path := by
    constructor
    · rintro ⟨i, _, info, hi, rfl⟩
      rw [← h.openOn_eq hi, ← h.writers i info hi]
      exact h.positive i info hi
    · intro hpos
      obtain ⟨i, info, hi, hpath⟩ := h.exists_record hpos
      exact ⟨i, h.mem hi, info, hi, hpath⟩
  unique i _ j _ info info' hi hj hpath := h.unique i j info info' hi hj hpath

theorem inv_init : Inv .init where
  nodup := List.nodup_nil
  listed _ := by simp [State.init]
  writers _ _ h := nomatch h
  positive _ _ h := nomatch h
  unique _ _ _ _ h := nomatch h
  linked _ h := nomatch h

theorem Inv.append_closed (h : Inv s) {o : FileObj} (ho : o.isOpen = false) :
    Inv { s with objects := s.objects ++ [o] } where
  nodup := h.nodup
  listed := h.listed
  writers i info hi := by
    have hnot : ¬ (o.isOpen ∧ o.info = some i) := fun hopen => by simp [ho] at hopen
    rw [openOn_append, if_neg hnot, Nat.add_zero]
    exact h.writers i info hi
  positive := h.positive
  unique := h.unique
  linked o' ho' := by
    rcases List.mem_append.mp ho' with hmem | hmem
    · exact h.linked o' hmem
    · obtain rfl := List.mem_singleton.mp hmem
      intro hopen
      rw [ho] at hopen
      cases hopen

theorem Inv.change (h : Inv s) {i : InfoId} {info info' : Info} {objects : List FileObj}
    (hi : s.infos i = some info) (hpath : info'.path = info.path) (hpos : 0 < info'.writers)
    (hcount : info'.writers = openOn objects i)
    (hother : ∀ j, j ≠ i → openOn objects j = openOn s.objects j)
    (hlinked : ∀ o ∈ objects, Linked s o) :
    Inv { s.setInfo i (some info') with objects := objects } where
  nodup := h.nodup
  listed j := by
    refine (h.listed j).trans ?_
    simp only [setInfo_infos]
    by_cases hj : j = i
    · rw [if_pos hj, hj, hi]
      rfl
    · rw [if_neg hj]
  writers j info₁ hj₁ := by
    simp only [setInfo_infos] at hj₁
    by_cases hj : j = i
    · rw [if_pos hj] at hj₁
      cases hj₁
      rw [hj]
      exact hcount
    · rw [if_neg hj] at hj₁
      exact (h.writers j info₁ hj₁).trans (hother j hj).symm
  positive j info₁ hj₁ := by
    simp only [setInfo_infos] at hj₁
    by_cases hj : j = i
    · rw [if_pos hj] at hj₁
      cases hj₁
      exact hpos
    · rw [if_neg hj] at hj₁
      exact h.positive j info₁ hj₁
  unique j k info₁ info₂ hj₁ hk₂ heq := by
    obtain ⟨info₁', hj₁', heq₁⟩ := record_before hi hpath hj₁
    obtain ⟨info₂', hk₂', heq₂⟩ := record_before hi hpath hk₂
    exact h.unique j k info₁' info₂' hj₁' hk₂' (by rw [heq₁, heq₂, heq])
  linked o ho hopen := by
    obtain ⟨j, info₁, hj, hinfo, heq⟩ := hlinked o ho hopen
    by_cases hji : j = i
    · subst hji
      obtain rfl : info₁ = info := Option.some.inj (hinfo.symm.trans hi)
      refine ⟨j, info', hj, ?_, by rw [hpath, heq]⟩
      simp only [setInfo_infos, if_true]
    · refine ⟨j, info₁, hj, ?_, heq⟩
      simp only [setInfo_infos, if_neg hji, hinfo]

theorem Inv.remove (h : Inv s) {i : InfoId} {info : Info} {objects : List FileObj}
    (hi : s.infos i = some info) (hcount : openOn objects i = 0)
    (hother : ∀ j, j ≠ i → openOn objects j = openOn s.objects j)
    (hlinked : ∀ o ∈ objects, Linked s o) :
    Inv { s.setInfo i none with files := s.files.erase i, objects := objects } := by
  have hbefore : ∀ {j info₁}, (s.setInfo i none).infos j = some info₁ →
      j ≠ i ∧ s.infos j = some info₁ := by
    intro j info₁ hj
    rw [setInfo_infos] at hj
    by_cases hji : j = i
    · rw [if_pos hji] at hj
      cases hj
    · rw [if_neg hji] at hj
      exact ⟨hji, hj⟩
  constructor
  · exact h.nodup.erase i
  · intro j
    rw [h.nodup.mem_erase_iff, h.listed j]
    simp only [setInfo_infos]
    by_cases hj : j = i
    · simp [hj]
    · simp [hj]
  · intro j info₁ hj
    obtain ⟨hne, hj⟩ := hbefore hj
    exact (h.writers j info₁ hj).trans (hother j hne).symm
  · intro j info₁ hj
    exact h.positive j info₁ (hbefore hj).2
  · intro j k info₁ info₂ hj hk hpath
    exact h.unique j k info₁ info₂ (hbefore hj).2 (hbefore hk).2 hpath
  · intro o ho hopen
    obtain ⟨j, info₁, hj, hinfo, hpath⟩ := hlinked o ho hopen
    have hne : j ≠ i := by
      rintro rfl
      have hnone := List.countP_eq_zero.mp hcount o ho
      exact hnone (decide_eq_true ⟨hopen, hj⟩)
    refine ⟨j, info₁, hj, ?_, hpath⟩
    simp only [setInfo_infos, if_neg hne, hinfo]

/-! ## Commands -/

theorem cmdOpen_spec {i : InfoId} {outcome : Outcome} (h : s.cmdOpen i outcome = some t) :
    ∃ info fdOpen error, s.infos i = some info ∧
      t = s.setInfo i (some { info with fdOpen := fdOpen, error := error }) ∧
      (info.error = false → info.fdOpen = false →
        fdOpen = decide (outcome = .opens) ∧ error = decide (outcome = .openFails)) := by
  obtain ⟨info, hi, rfl⟩ := Option.map_eq_some_iff.mp h
  by_cases herror : info.error
  · refine ⟨info, info.fdOpen, info.error, hi, ?_, fun hfalse => ?_⟩
    · rw [if_pos herror, setInfo_self hi]
    · rw [herror] at hfalse
      cases hfalse
  · by_cases hfd : info.fdOpen
    · refine ⟨info, info.fdOpen, info.error, hi, ?_, fun _ hfalse => ?_⟩
      · rw [if_neg herror, if_pos hfd, setInfo_self hi]
      · rw [hfd] at hfalse
        cases hfalse
    · rw [if_neg herror, if_neg hfd]
      cases outcome with
      | pathNotConverted =>
        exact ⟨info, info.fdOpen, info.error, hi, (setInfo_self hi).symm,
          fun herror hfd => ⟨hfd, herror⟩⟩
      | openFails => exact ⟨info, info.fdOpen, true, hi, rfl, fun _ hfd => ⟨hfd, rfl⟩⟩
      | opens => exact ⟨info, true, info.error, hi, rfl, fun herror _ => ⟨rfl, herror⟩⟩

theorem cmdWrite_spec {i : InfoId} {data : Data} {written : Bool}
    (h : s.cmdWrite i data written = some t) :
    ∃ info error, s.infos i = some info ∧
      t = s.setInfo i (some { info with error := error }) := by
  obtain ⟨info, hi, rfl⟩ := Option.map_eq_some_iff.mp h
  refine ⟨info, ?_⟩
  split_ifs
  · exact ⟨info.error, hi, (setInfo_self hi).symm⟩
  · exact ⟨info.error, hi, (setInfo_self hi).symm⟩
  · exact ⟨true, hi, rfl⟩
  · exact ⟨info.error, hi, (setInfo_self hi).symm⟩

/-- The flags of a record do not matter to the invariant. -/
theorem Inv.flags (h : Inv s) {i : InfoId} {info : Info} (hi : s.infos i = some info)
    (fdOpen error : Bool) :
    Inv (s.setInfo i (some { info with fdOpen := fdOpen, error := error })) :=
  h.change hi rfl (h.positive i info hi) (h.writers i info hi) (fun _ _ => rfl) h.linked

theorem inv_fileWrite (h : Inv s) {file : ℕ} {data : Data} {written : Bool}
    (hn : s.fileWrite file data written = some t) : Inv t := by
  obtain ⟨obj, _, hn⟩ := Option.bind_eq_some_iff.mp hn
  by_cases hopen : obj.isOpen
  · rw [hopen] at hn
    obtain ⟨i, _, hn⟩ := Option.bind_eq_some_iff.mp hn
    obtain ⟨info, error, hi, rfl⟩ := cmdWrite_spec hn
    exact h.flags hi info.fdOpen error
  · rw [Bool.not_eq_true] at hopen
    rw [hopen] at hn
    cases hn
    exact h

/-! ## Cloning -/

theorem inv_fileClone (h : Inv s) {file : ℕ} (hn : s.fileClone file = some t) : Inv t := by
  obtain ⟨src, hsrc, hn⟩ := Option.bind_eq_some_iff.mp hn
  have hmem : src ∈ s.objects := List.mem_of_getElem? hsrc
  cases hopen : src.isOpen with
  | false =>
    simp only [hopen] at hn
    cases hinfo : src.info <;>
    · simp only [hinfo] at hn
      cases hn
      exact h.append_closed hopen
  | true =>
    obtain ⟨i, info, hinfo, hi, _⟩ := h.linked src hmem hopen
    simp only [hopen, hinfo, hi, Option.map_some, Option.some.injEq] at hn
    subst hn
    refine h.change hi rfl (Nat.succ_pos _) ?_ (fun j hj => ?_) fun o ho => ?_
    · rw [openOn_append, if_pos ⟨hopen, hinfo⟩, ← h.writers i info hi]
    · have hnot : ¬ (src.isOpen ∧ src.info = some j) := fun hsrc =>
        hj (Option.some.inj (hsrc.2.symm.trans hinfo))
      rw [openOn_append, if_neg hnot, Nat.add_zero]
    · rcases List.mem_append.mp ho with hmem' | hmem'
      · exact h.linked o hmem'
      · rw [List.mem_singleton.mp hmem']
        exact h.linked src hmem

/-! ## Opening -/

theorem findInfo_some {path : HltString} {files : List InfoId} {i : InfoId}
    (h : s.findInfo path files = some (some i)) :
    ∃ before after info, files = before ++ i :: after ∧
      (∀ j ∈ before, ∀ info', s.infos j = some info' →
        State.sameName path info'.path = some false) ∧
      s.infos i = some info ∧ State.sameName path info.path = some true := by
  induction files with
  | nil => cases h
  | cons j rest ih =>
    obtain ⟨info, hj, h⟩ := Option.bind_eq_some_iff.mp h
    obtain ⟨same, hsame, h⟩ := Option.bind_eq_some_iff.mp h
    cases same with
    | true =>
      cases h
      exact ⟨[], rest, info, rfl, fun _ hmem => absurd hmem List.not_mem_nil, hj, hsame⟩
    | false =>
      obtain ⟨before, after, info', rfl, hbefore, hi, hsame'⟩ := ih h
      refine ⟨j :: before, after, info', rfl, fun k hk info₁ hk₁ => ?_, hi, hsame'⟩
      rcases List.mem_cons.mp hk with rfl | hk
      · rw [← Option.some.inj (hj.symm.trans hk₁)]
        exact hsame
      · exact hbefore k hk info₁ hk₁

theorem findInfo_of_first {path : HltString} {before after : List InfoId} {i : InfoId}
    {info : Info} (hlisted : ∀ j ∈ before, (s.infos j).isSome)
    (hbefore : ∀ j ∈ before, ∀ info', s.infos j = some info' →
      State.sameName path info'.path = some false)
    (hi : s.infos i = some info) (hsame : State.sameName path info.path = some true) :
    s.findInfo path (before ++ i :: after) = some (some i) := by
  induction before with
  | nil => simp [State.findInfo, hi, hsame]
  | cons j before ih =>
    obtain ⟨info', hj⟩ := Option.isSome_iff_exists.mp (hlisted j List.mem_cons_self)
    have hne := hbefore j List.mem_cons_self info' hj
    rw [List.cons_append, State.findInfo, hj, Option.bind_some, hne, Option.bind_some]
    exact ih (fun k hk => hlisted k (List.mem_cons_of_mem _ hk))
      fun k hk => hbefore k (List.mem_cons_of_mem _ hk)

theorem findInfo_none {path : HltString} {files : List InfoId}
    (h : s.findInfo path files = some none) {i : InfoId} (hmem : i ∈ files) :
    ∃ info, s.infos i = some info ∧ State.sameName path info.path = some false := by
  induction files with
  | nil => cases hmem
  | cons j rest ih =>
    obtain ⟨info, hj, h⟩ := Option.bind_eq_some_iff.mp h
    obtain ⟨same, hsame, h⟩ := Option.bind_eq_some_iff.mp h
    cases same with
    | true => cases h
    | false =>
      rcases List.mem_cons.mp hmem with rfl | hmem
      · exact ⟨info, hj, hsame⟩
      · exact ih h hmem

theorem cmpLoop_self {len : ℕ} (fuel i : ℕ) (p : List UInt8) {r : ℤ}
    (h : cmpLoop len len fuel i p p = some (.ok r)) : r = 0 := by
  induction fuel generalizing i p with
  | zero => cases h
  | succ fuel ih =>
    obtain ⟨⟨n, cp⟩, hiter, h⟩ := Option.bind_eq_some_iff.mp h
    simp only [hiter, Option.bind_eq_bind, Option.bind_some, ne_eq, not_true, if_false, or_self,
      and_self] at h
    split_ifs at h
    · cases h
    · cases h
      rfl
    · exact ih _ _ h

theorem sameName_of_eq {path path' : HltString} (h : bytesOf path = bytesOf path') :
    State.sameName path path' ≠ some false := by
  intro hfalse
  obtain ⟨r, hr, hne⟩ := Option.map_eq_some_iff.mp hfalse
  cases r with
  | error _ => cases hne
  | ok r =>
    refine of_decide_eq_false hne ?_
    simp only [stringCmp, h] at hr
    split_ifs at hr with h₁ h₂
    · cases hr
      rfl
    · exact absurd ⟨h₂, h₂⟩ h₁
    · exact cmpLoop_self _ _ _ hr

theorem inv_open_known (h : Inv s) {file : ℕ} {obj : FileObj} (hobj : s.objects[file]? = some obj)
    (hclosed : obj.isOpen = false) {path : HltString} {i : InfoId} {info : Info}
    (hi : s.infos i = some info) (hpath : bytesOf info.path = bytesOf path) :
    Inv { s.setInfo i (some { info with writers := info.writers + 1 }) with
      objects := s.objects.set file ⟨some i, path, true⟩ } := by
  have hcount := openOn_replace hobj ⟨some i, path, true⟩
  simp only [hclosed, Bool.false_eq_true, false_and, if_false, Nat.add_zero, true_and,
    Option.some_inj] at hcount
  refine h.change hi rfl (Nat.succ_pos _) ?_ (fun j hj => ?_) fun o ho => ?_
  · rw [hcount, if_pos rfl, ← h.writers i info hi]
  · rw [hcount, if_neg (Ne.symm hj), Nat.add_zero]
  · rcases List.mem_or_eq_of_mem_set ho with hmem | rfl
    · exact h.linked o hmem
    · exact fun _ => ⟨i, info, rfl, hi, hpath⟩

theorem inv_open_new (h : Inv s) {file : ℕ} {obj : FileObj} (hobj : s.objects[file]? = some obj)
    (hclosed : obj.isOpen = false) {bytes : List UInt8} {fresh : InfoId}
    (hfresh : s.infos fresh = none)
    (hnew : ∀ j info, s.infos j = some info → bytesOf info.path ≠ bytes) :
    Inv { s.setInfo fresh (some ⟨some bytes, false, 1, false⟩) with
      objects := s.objects.set file ⟨some fresh, some bytes, true⟩, files := fresh :: s.files } := by
  have hcount := openOn_replace hobj ⟨some fresh, some bytes, true⟩
  simp only [hclosed, Bool.false_eq_true, false_and, if_false, Nat.add_zero, true_and,
    Option.some_inj] at hcount
  have hnone : openOn s.objects fresh = 0 := by
    refine List.countP_eq_zero.mpr fun o ho hopen => ?_
    rw [decide_eq_true_eq] at hopen
    obtain ⟨j, info, hj, hinfo, _⟩ := h.linked o ho hopen.1
    rw [Option.some.inj (hj.symm.trans hopen.2), hfresh] at hinfo
    cases hinfo
  have hother : ∀ {j info}, j ≠ fresh →
      (s.setInfo fresh (some ⟨some bytes, false, 1, false⟩)).infos j = some info →
      s.infos j = some info := by
    intro j info hj hinfo
    rwa [setInfo_infos, if_neg hj] at hinfo
  have hsame : (s.setInfo fresh (some ⟨some bytes, false, 1, false⟩)).infos fresh =
      some ⟨some bytes, false, 1, false⟩ := by
    rw [setInfo_infos, if_pos rfl]
  constructor
  · refine List.nodup_cons.mpr ⟨fun hmem => ?_, h.nodup⟩
    have hsome := (h.listed fresh).mp hmem
    rw [hfresh] at hsome
    cases hsome
  · intro j
    by_cases hj : j = fresh
    · simp [hj, hsame]
    · simp only [List.mem_cons, hj, false_or, h.listed j, setInfo_infos, if_false]
  · intro j info hinfo
    rw [hcount]
    by_cases hj : j = fresh
    · subst hj
      obtain rfl := Option.some.inj (hsame.symm.trans hinfo)
      rw [if_pos rfl, hnone]
    · rw [if_neg (Ne.symm hj), Nat.add_zero]
      exact h.writers j info (hother hj hinfo)
  · intro j info hinfo
    by_cases hj : j = fresh
    · subst hj
      obtain rfl := Option.some.inj (hsame.symm.trans hinfo)
      exact Nat.one_pos
    · exact h.positive j info (hother hj hinfo)
  · intro j k info info' hinfo hinfo' hpath
    by_cases hj : j = fresh
    · by_cases hk : k = fresh
      · rw [hj, hk]
      · rw [hj] at hinfo
        obtain rfl := Option.some.inj (hsame.symm.trans hinfo)
        exact absurd hpath.symm (hnew k info' (hother hk hinfo'))
    · by_cases hk : k = fresh
      · rw [hk] at hinfo'
        obtain rfl := Option.some.inj (hsame.symm.trans hinfo')
        exact absurd hpath (hnew j info (hother hj hinfo))
      · exact h.unique j k info info' (hother hj hinfo) (hother hk hinfo') hpath
  · intro o ho hopen
    rcases List.mem_or_eq_of_mem_set ho with hmem | rfl
    · obtain ⟨j, info, hj, hinfo, hpath⟩ := h.linked o hmem hopen
      have hne : j ≠ fresh := by
        rintro rfl
        rw [hfresh] at hinfo
        cases hinfo
      refine ⟨j, info, hj, ?_, hpath⟩
      simp only [setInfo_infos, if_neg hne, hinfo]
    · exact ⟨fresh, _, rfl, hsame, rfl⟩

theorem openInfo_cases {path : HltString} {fresh : InfoId} {r : State × InfoId}
    (h : s.openInfo path fresh = some r) :
    (∃ i info, s.findInfo path s.files = some (some i) ∧ s.infos i = some info ∧
      r = (s.setInfo i (some { info with writers := info.writers + 1 }), i)) ∨
    (∃ bytes, s.findInfo path s.files = some none ∧ path = some bytes ∧ s.infos fresh = none ∧
      r = ({ s.setInfo fresh (some ⟨some bytes, false, 1, false⟩) with
        files := fresh :: s.files }, fresh)) := by
  obtain ⟨found, hfound, h⟩ := Option.bind_eq_some_iff.mp h
  cases found with
  | some i =>
    obtain ⟨info, hi, rfl⟩ := Option.map_eq_some_iff.mp h
    exact .inl ⟨i, info, hfound, hi, rfl⟩
  | none =>
    cases hfresh : s.infos fresh with
    | some _ =>
      simp only [hfresh] at h
      cases h
    | none =>
      cases path with
      | none =>
        simp only [hfresh] at h
        cases h
      | some bytes =>
        simp only [hfresh] at h
        cases h
        exact .inr ⟨bytes, hfound, rfl, rfl, rfl⟩

theorem openInfo_known {path : HltString} (fresh : InfoId) {i : InfoId} {info : Info}
    (hfound : s.findInfo path s.files = some (some i)) (hi : s.infos i = some info) :
    s.openInfo path fresh =
      some (s.setInfo i (some { info with writers := info.writers + 1 }), i) := by
  unfold State.openInfo
  rw [hfound, Option.bind_some]
  dsimp only
  rw [hi, Option.map_some]

theorem fileOpen_closed {file : ℕ} {path : HltString} {fresh : InfoId} {outcome : Outcome}
    {obj : FileObj} (hobj : s.objects[file]? = some obj) (hclosed : obj.isOpen = false)
    (h : s.fileOpen file path fresh outcome = some t) :
    ∃ r, s.openInfo path fresh = some r ∧
      { r.1 with objects := r.1.objects.set file ⟨some r.2, path, true⟩ }.cmdOpen r.2 outcome =
        some t := by
  rw [State.fileOpen, hobj, Option.bind_some, hclosed] at h
  exact Option.bind_eq_some_iff.mp h

theorem fileOpen_open {file : ℕ} {path : HltString} {fresh : InfoId} {outcome : Outcome}
    {obj : FileObj} (hobj : s.objects[file]? = some obj) (hopen : obj.isOpen = true)
    (h : s.fileOpen file path fresh outcome = some t) : t = s := by
  rw [State.fileOpen, hobj, Option.bind_some, hopen, if_pos rfl] at h
  exact (Option.some.inj h).symm

theorem inv_fileOpen (h : Inv s) {file : ℕ} {path : HltString} {fresh : InfoId} {outcome : Outcome}
    (hsound : Sound s (.fileOpen file path fresh outcome))
    (hn : s.fileOpen file path fresh outcome = some t) : Inv t := by
  obtain ⟨obj, hobj, _⟩ := Option.bind_eq_some_iff.mp hn
  cases hclosed : obj.isOpen with
  | true =>
    rw [fileOpen_open hobj hclosed hn]
    exact h
  | false =>
    obtain ⟨r, hr, hcmd⟩ := fileOpen_closed hobj hclosed hn
    rcases openInfo_cases hr with ⟨i, info, hfound, hi, rfl⟩ | ⟨bytes, hfound, rfl, hfresh, rfl⟩
    · obtain ⟨before, after, info', hfiles, hbefore, hi', hsame⟩ := findInfo_some hfound
      obtain rfl : info' = info := Option.some.inj (hi'.symm.trans hi)
      have hpath := hsound obj hobj hclosed before i after info' hfiles hbefore hi hsame
      have hinv := inv_open_known h hobj hclosed hi hpath
      obtain ⟨info₁, fdOpen, error, hi₁, rfl, _⟩ := cmdOpen_spec hcmd
      exact hinv.flags hi₁ fdOpen error
    · have hnew : ∀ j info, s.infos j = some info → bytesOf info.path ≠ bytes := by
        intro j info hj heq
        obtain ⟨info', hj', hne⟩ := findInfo_none hfound (h.mem hj)
        obtain rfl : info = info' := Option.some.inj (hj.symm.trans hj')
        exact sameName_of_eq (Eq.symm heq) hne
      have hinv := inv_open_new h hobj hclosed hfresh hnew
      obtain ⟨info₁, fdOpen, error, hi₁, rfl, _⟩ := cmdOpen_spec hcmd
      exact hinv.flags hi₁ fdOpen error

theorem startsFresh_fileOpen (h : Inv s) {file : ℕ} {path : HltString} {fresh : InfoId}
    {outcome : Outcome} (hsound : Sound s (.fileOpen file path fresh outcome))
    (hn : s.fileOpen file path fresh outcome = some t) :
    StartsFresh s (.fileOpen file path fresh outcome) t := by
  intro obj hobj hclosed hzero
  obtain ⟨r, hr, hcmd⟩ := fileOpen_closed hobj hclosed hn
  rcases openInfo_cases hr with ⟨i, info, hfound, hi, rfl⟩ | ⟨bytes, hfound, rfl, hfresh, rfl⟩
  · -- A record with the path would have an object.
    obtain ⟨before, after, info', hfiles, hbefore, hi', hsame⟩ := findInfo_some hfound
    obtain rfl : info' = info := Option.some.inj (hi'.symm.trans hi)
    have hpath := hsound obj hobj hclosed before i after info' hfiles hbefore hi hsame
    have hpos := h.positive i info' hi
    rw [h.writers i info' hi, h.openOn_eq hi, hpath, hzero] at hpos
    exact absurd hpos (Nat.lt_irrefl 0)
  · obtain ⟨info₁, fdOpen, error, hi₁, rfl, hflags⟩ := cmdOpen_spec hcmd
    simp only [setInfo_infos, if_true, Option.some_inj] at hi₁
    subst hi₁
    obtain ⟨rfl, rfl⟩ := hflags rfl rfl
    have hlt : file < s.objects.length := (List.getElem?_eq_some_iff.mp hobj).1
    refine ⟨hfresh, ?_, ?_⟩
    · simp only [setInfo_objects]
      exact List.getElem?_set_self hlt
    · rw [setInfo_infos, if_pos rfl]
      rfl

theorem unsound_fileOpen (h : Inv s) {file : ℕ} {path : HltString} {fresh : InfoId}
    {outcome : Outcome} (hnot : ¬ Sound s (.fileOpen file path fresh outcome)) :
    ∃ t, s.fileOpen file path fresh outcome = some t ∧ ¬ Counted t := by
  simp only [Sound, not_forall] at hnot
  obtain ⟨obj, hobj, hclosed, before, i, after, info, hfiles, hbefore, hi, hsame, hpath⟩ := hnot
  have hlisted : ∀ j ∈ before, (s.infos j).isSome := fun j hj =>
    (h.listed j).mp (hfiles ▸ List.mem_append_left _ hj)
  have hfound : s.findInfo path s.files = some (some i) := by
    rw [hfiles]
    exact findInfo_of_first hlisted hbefore hi hsame
  set u : State := { s.setInfo i (some { info with writers := info.writers + 1 }) with
    objects := s.objects.set file ⟨some i, path, true⟩ } with hu
  have hui : u.infos i = some { info with writers := info.writers + 1 } := by
    simp only [hu, setInfo_infos, if_true]
  have hopen : s.fileOpen file path fresh outcome = u.cmdOpen i outcome := by
    rw [State.fileOpen, hobj, Option.bind_some, hclosed, if_neg Bool.false_ne_true,
      openInfo_known fresh hfound hi, Option.bind_some]
    rfl
  have hsome : (u.cmdOpen i outcome).isSome := by
    rw [State.cmdOpen, hui]
    rfl
  obtain ⟨t, ht⟩ := Option.isSome_iff_exists.mp hsome
  refine ⟨t, hopen.trans ht, fun hcounted => ?_⟩
  obtain ⟨info₁, fdOpen, error, hi₁, rfl, _⟩ := cmdOpen_spec ht
  obtain rfl := Option.some.inj (hui.symm.trans hi₁)
  have hti : (u.setInfo i (some { info with
      writers := info.writers + 1, fdOpen := fdOpen, error := error })).infos i =
      some { info with writers := info.writers + 1, fdOpen := fdOpen, error := error } := by
    rw [setInfo_infos, if_pos rfl]
  have hwriters := hcounted.writers i (h.mem hi) _ hti
  have hcount := countP_replace hobj
    (fun o => decide (o.isOpen ∧ bytesOf o.path = bytesOf info.path)) ⟨some i, path, true⟩
  simp only [hclosed, Bool.false_eq_true, false_and, decide_false, if_false, Nat.add_zero,
    true_and, Ne.symm hpath] at hcount
  have hbefore := h.writers i info hi
  rw [h.openOn_eq hi] at hbefore
  have hafter : (u.setInfo i (some { info with
      writers := info.writers + 1, fdOpen := fdOpen, error := error })).openFor
        (bytesOf info.path) = s.openFor (bytesOf info.path) := hcount
  rw [hafter, ← hbefore] at hwriters
  exact Nat.succ_ne_self _ hwriters

/-! ## Closing -/

theorem inv_fileClose (h : Inv s) {file : ℕ} (hsound : Sound s (.fileClose file))
    (hn : s.fileClose file = some t) : Inv t := by
  obtain ⟨obj, hobj, hn⟩ := Option.bind_eq_some_iff.mp hn
  cases hopen : obj.isOpen with
  | false =>
    simp only [hopen, Bool.not_false, if_true] at hn
    cases hn
    exact h
  | true =>
    have hmem : obj ∈ s.objects := List.mem_of_getElem? hobj
    obtain ⟨i, info, hinfo, hi, _⟩ := h.linked obj hmem hopen
    have hfd := hsound obj hobj hopen i hinfo info hi
    simp only [hopen, Bool.not_true, Bool.false_eq_true, if_false, hinfo, Option.bind_some] at hn
    obtain ⟨u, hu, rfl⟩ := Option.map_eq_some_iff.mp hn
    have hcount := openOn_replace hobj ⟨some i, none, false⟩
    simp only [hopen, hinfo, Bool.false_eq_true, false_and, if_false, Nat.add_zero, true_and,
      Option.some_inj] at hcount
    have hpos := h.positive i info hi
    have hwriters := h.writers i info hi
    have hcounti := hcount i
    rw [if_pos rfl] at hcounti
    have hother : ∀ j, j ≠ i →
        openOn (s.objects.set file ⟨some i, none, false⟩) j =
          openOn s.objects j := fun j hj => by
      have hcountj := hcount j
      rwa [if_neg (Ne.symm hj), Nat.add_zero] at hcountj
    have hlinked : ∀ o ∈ s.objects.set file ⟨some i, none, false⟩,
        Linked s o := by
      intro o ho
      rcases List.mem_or_eq_of_mem_set ho with hmem | rfl
      · exact h.linked o hmem
      · exact fun hfalse => nomatch hfalse
    simp only [State.cmdClose, hi, Option.bind_some, hfd, Bool.not_true, Bool.false_eq_true,
      if_false, if_neg hpos.ne'] at hu
    by_cases hlast : info.writers - 1 = 0
    · rw [if_pos hlast, if_pos (h.mem hi)] at hu
      cases hu
      have hzero : openOn (s.objects.set file ⟨some i, none, false⟩) i = 0 := by
        omega
      exact h.remove hi hzero hother hlinked
    · rw [if_neg hlast] at hu
      cases hu
      have hleft : info.writers - 1 = openOn (s.objects.set file ⟨some i, none, false⟩) i := by
        omega
      exact h.change hi rfl (Nat.pos_of_ne_zero hlast) hleft hother hlinked

theorem unsound_fileClose (h : Inv s) {file : ℕ} (hnot : ¬ Sound s (.fileClose file)) :
    ∃ t, s.fileClose file = some t ∧ ¬ Counted t := by
  simp only [Sound, not_forall] at hnot
  obtain ⟨obj, hobj, hopen, i, hinfo, info, hi, hfd⟩ := hnot
  rw [Bool.not_eq_true] at hfd
  have hmem : obj ∈ s.objects := List.mem_of_getElem? hobj
  obtain ⟨j, info', hj, hi', hpath⟩ := h.linked obj hmem hopen
  obtain rfl : j = i := Option.some.inj (hj.symm.trans hinfo)
  obtain rfl : info' = info := Option.some.inj (hi'.symm.trans hi)
  refine ⟨{ s with objects := s.objects.set file { obj with path := none, isOpen := false } }, ?_,
    fun hcounted => ?_⟩
  · simp [State.fileClose, State.cmdClose, hobj, hopen, hinfo, hi, hfd]
  · have hwriters := hcounted.writers j (h.mem hi) info' hi
    have hbefore := h.writers j info' hi
    rw [h.openOn_eq hi] at hbefore
    have hcount := countP_replace hobj
      (fun o => decide (o.isOpen ∧ bytesOf o.path = bytesOf info'.path))
      { obj with path := none, isOpen := false }
    simp only [hopen, hpath, Bool.false_eq_true, false_and, and_self, decide_false, decide_true,
      if_true, if_false, Nat.add_zero] at hcount
    simp only [State.openFor, hpath] at hwriters hbefore
    omega

/-! ## Runs -/

theorem inv_next (h : Inv s) {a : Action} (hsound : Sound s a) (hn : s.next a = some t) : Inv t := by
  cases a with
  | fileNew =>
    cases hn
    exact h.append_closed rfl
  | fileOpen file path fresh outcome => exact inv_fileOpen h hsound hn
  | fileClone file => exact inv_fileClone h hn
  | fileWrite file data written => exact inv_fileWrite h hn
  | fileClose file => exact inv_fileClose h hsound hn

theorem keeps_of_sound (h : Inv s) {a : Action} (hsound : Sound s a) : Keeps s a := by
  intro t hn
  refine ⟨(inv_next h hsound hn).counted, ?_⟩
  cases a with
  | fileOpen file path fresh outcome => exact startsFresh_fileOpen h hsound hn
  | _ => trivial

theorem not_keeps (h : Inv s) {a : Action} (hnot : ¬ Sound s a) : ¬ Keeps s a := by
  intro hkeeps
  cases a with
  | fileOpen file path fresh outcome =>
    obtain ⟨t, hn, hcounted⟩ := unsound_fileOpen h hnot
    exact hcounted (hkeeps t hn).1
  | fileClose file =>
    obtain ⟨t, hn, hcounted⟩ := unsound_fileClose h hnot
    exact hcounted (hkeeps t hn).1
  | _ => exact hnot trivial

theorem along_iff (h : Inv s) (as : List Action) :
    machine.Along Keeps s as ↔ machine.Along Sound s as := by
  induction as generalizing s with
  | nil => exact Iff.rfl
  | cons a as ih =>
    by_cases hsound : Sound s a
    · refine and_congr (iff_of_true (keeps_of_sound h hsound) hsound) ?_
      exact forall_congr' fun t => forall_congr' fun hn => ih (inv_next h hsound hn)
    · exact iff_of_false (fun halong => not_keeps h hsound halong.1) fun halong => hsound halong.1

end

/-- In every sequence of calls: the records count the open objects throughout, and files that no
object has open are opened afresh, if and only if no object is closed whose file the operating system
has not opened, and no path is taken for another one. -/
theorem counted_iff (as : List Action) :
    machine.Along Keeps .init as ↔ machine.Along Sound .init as :=
  along_iff inv_init as

/-- An object is closed after opening has failed; the record stays. -/
theorem failed_open_not_counted : ¬ ∀ as, machine.Along Keeps .init as := by
  intro h
  have hcounted := ((h [.fileNew, .fileOpen 0 (some [97]) 7 .openFails, .fileClose 0]).2 _ rfl).2 _
    rfl |>.1 _ rfl |>.1
  have hwriters := hcounted.writers 7 (by decide) _ rfl
  revert hwriters
  decide

end Hilti.File.Single
