import Hilti.Maps.Lookup

/-!
# Maps and sets

The model of the maps and sets of `libhilti/map_set.c` that have no timeout.  Elements are values,
so the copies that the code makes of them, and their reference counts, are left out, as are the
timers of entries and the exception for a null reference.  Abstractly a map is a list of entries,
with what to return for other keys.
-/

namespace Hilti.Maps

open Hilti.Lib

set_option autoImplicit false

inductive Excpt where
  | indexError
  | invalidIterator
  /-- One that a callable raises. -/
  | raised (n : ℕ)
  deriving DecidableEq

/-- `default_type` with `default_`. -/
inductive MapDefault (κ ν : Type) where
  | none
  | value (value : ν)
  | function (function : κ → Except Excpt ν)

/-- `__hlt_map`. -/
structure HltMap (κ ν : Type) where
  table : KhTable κ ν
  default : MapDefault κ ν

section

variable {κ ν : Type} (hash : κ → UInt64) (equal : κ → κ → Bool)

/-- `hlt_map_new`. -/
def hltMapNew (keys : ℕ → κ) (vals : ℕ → ν) : HltMap κ ν :=
  ⟨khInit keys vals, .none⟩

/-- What `hlt_map_get` makes of the default. -/
def MapDefault.result (default : MapDefault κ ν) (key : κ) : Except Excpt ν :=
  match default with
  | .none => .error .indexError
  | .value v => .ok v
  | .function f => f key

/-- `hlt_map_get`. -/
def hltMapGet (m : HltMap κ ν) (key : κ) : Option (Except Excpt ν) :=
  (khGet hash equal m.table key).map fun i =>
    if i = m.table.nBuckets then m.default.result key else .ok (m.table.vals i)

/-- `hlt_map_get_default`. -/
def hltMapGetDefault (m : HltMap κ ν) (key : κ) (default : ν) : Option ν :=
  (khGet hash equal m.table key).map fun i =>
    if i = m.table.nBuckets then default else m.table.vals i

/-- `hlt_map_insert`. -/
def hltMapInsert (m : HltMap κ ν) (key : κ) (value : ν) : Option (HltMap κ ν) :=
  (khPut hash equal m.table key).map fun r => { m with table := r.table.setVal r.x value }

/-- `hlt_map_exists`. -/
def hltMapExists (m : HltMap κ ν) (key : κ) : Option Bool :=
  (khGet hash equal m.table key).map fun i => if i = m.table.nBuckets then false else true

/-- `hlt_map_remove`. -/
def hltMapRemove (m : HltMap κ ν) (key : κ) : Option (HltMap κ ν) :=
  (khGet hash equal m.table key).map fun i =>
    if i ≠ m.table.nBuckets then { m with table := khDel m.table i } else m

/-- `hlt_map_size`. -/
def hltMapSize (m : HltMap κ ν) : ℕ :=
  m.table.size

/-- `hlt_map_clear`. -/
def hltMapClear (m : HltMap κ ν) : HltMap κ ν :=
  { m with table := khClear m.table }

/-- `hlt_map_default` and `hlt_map_default_callable`. -/
def hltMapDefault (m : HltMap κ ν) (default : MapDefault κ ν) : HltMap κ ν :=
  { m with default := default }

/-! ## Calls -/

inductive MapOp (κ ν : Type) where
  | get (key : κ)
  | getDefault (key : κ) (default : ν)
  | insert (key : κ) (value : ν)
  | exist (key : κ)
  | remove (key : κ)
  | size
  | clear
  | default (default : MapDefault κ ν)

inductive MapResult (ν : Type) where
  | nothing
  | value (value : Except Excpt ν)
  | flag (flag : Bool)
  | size (size : ℕ)

def HltMap.perform (m : HltMap κ ν) : MapOp κ ν → Option (HltMap κ ν × MapResult ν)
  | .get key => (hltMapGet hash equal m key).map fun v => (m, .value v)
  | .getDefault key default => (hltMapGetDefault hash equal m key default).map fun v => (m, .value (.ok v))
  | .insert key value => (hltMapInsert hash equal m key value).map fun m => (m, .nothing)
  | .exist key => (hltMapExists hash equal m key).map fun b => (m, .flag b)
  | .remove key => (hltMapRemove hash equal m key).map fun m => (m, .nothing)
  | .size => some (m, .size (hltMapSize m))
  | .clear => some (hltMapClear m, .nothing)
  | .default default => some (hltMapDefault m default, .nothing)

def HltMap.run (m : HltMap κ ν) : List (MapOp κ ν) → Option (HltMap κ ν × List (MapResult ν))
  | [] => some (m, [])
  | op :: ops => (m.perform hash equal op).bind fun r =>
    (r.1.run ops).map fun s => (s.1, r.2 :: s.2)

/-! ## What maps are for -/

/-- A finite map.  The order of its entries does not matter. -/
structure FiniteMap (κ ν : Type) where
  entries : List (κ × ν)
  default : MapDefault κ ν

def FiniteMap.get (a : FiniteMap κ ν) (key : κ) : Except Excpt ν :=
  match Assoc.find equal a.entries key with
  | some e => .ok e.2
  | none => a.default.result key

def FiniteMap.perform (a : FiniteMap κ ν) : MapOp κ ν → FiniteMap κ ν × MapResult ν
  | .get key => (a, .value (a.get equal key))
  | .getDefault key default =>
    (a, .value (.ok ((Assoc.find equal a.entries key).elim default Prod.snd)))
  | .insert key value => ({ a with entries := Assoc.insert equal a.entries key value }, .nothing)
  | .exist key => (a, .flag (Assoc.find equal a.entries key).isSome)
  | .remove key => ({ a with entries := Assoc.erase equal a.entries key }, .nothing)
  | .size => (a, .size a.entries.length)
  | .clear => ({ a with entries := [] }, .nothing)
  | .default default => ({ a with default := default }, .nothing)

def FiniteMap.run (a : FiniteMap κ ν) : List (MapOp κ ν) → FiniteMap κ ν × List (MapResult ν)
  | [] => (a, [])
  | op :: ops =>
    (((a.perform equal op).1.run ops).1, (a.perform equal op).2 :: ((a.perform equal op).1.run ops).2)

end

/-! ## Refinement -/

section

variable {κ ν : Type} {hash : κ → UInt64} {equal : κ → κ → Bool}

/-- The map holds the entries of the finite one. -/
structure Represents (hash : κ → UInt64) (equal : κ → κ → Bool) (m : HltMap κ ν)
    (a : FiniteMap κ ν) : Prop where
  sound : Sound hash equal m.table
  entries : m.table.entries.Perm a.entries
  default_eq : m.default = a.default

variable {m : HltMap κ ν} {a : FiniteMap κ ν}

theorem Represents.size_eq (h : Represents hash equal m a) : m.table.size = a.entries.length :=
  h.sound.size_eq.trans h.entries.length_eq

theorem Represents.khGet (hc : Coherent hash equal) (h : Represents hash equal m a) (key : κ) :
    ∃ i, khGet hash equal m.table key = some i ∧
      ((i = m.table.nBuckets ∧ Assoc.find equal a.entries key = none) ∨
        ∃ e, i ≠ m.table.nBuckets ∧ m.table.cell i = some e ∧
          Assoc.find equal a.entries key = some e) := by
  obtain ⟨i, hi, hcase⟩ := khGet_spec hc h.sound key
  have hfind := Assoc.find_perm hc.toEquality h.sound.distinct h.entries key
  rw [hfind] at hcase
  refine ⟨i, hi, ?_⟩
  cases hcase with
  | inl hnone => exact .inl hnone
  | inr hsome =>
    obtain ⟨e, hlt, hcell, hfound⟩ := hsome
    exact .inr ⟨e, hlt.ne, hcell, hfound⟩

theorem hltMapGet_spec (hc : Coherent hash equal) (h : Represents hash equal m a) (key : κ) :
    hltMapGet hash equal m key = some (a.get equal key) := by
  obtain ⟨i, hi, hcase⟩ := h.khGet hc key
  rw [hltMapGet, hi, Option.map_some, FiniteMap.get]
  cases hcase with
  | inl hnone => rw [if_pos hnone.1, hnone.2, h.default_eq]
  | inr hsome =>
    obtain ⟨e, hne, hcell, hfound⟩ := hsome
    rw [if_neg hne, hfound, ← (cell_eq_some.mp hcell).2]

theorem hltMapGetDefault_spec (hc : Coherent hash equal) (h : Represents hash equal m a) (key : κ)
    (default : ν) : hltMapGetDefault hash equal m key default =
      some ((Assoc.find equal a.entries key).elim default Prod.snd) := by
  obtain ⟨i, hi, hcase⟩ := h.khGet hc key
  rw [hltMapGetDefault, hi, Option.map_some]
  cases hcase with
  | inl hnone => rw [if_pos hnone.1, hnone.2, Option.elim_none]
  | inr hsome =>
    obtain ⟨e, hne, hcell, hfound⟩ := hsome
    rw [if_neg hne, hfound, Option.elim_some, ← (cell_eq_some.mp hcell).2]

theorem hltMapExists_spec (hc : Coherent hash equal) (h : Represents hash equal m a) (key : κ) :
    hltMapExists hash equal m key = some (Assoc.find equal a.entries key).isSome := by
  obtain ⟨i, hi, hcase⟩ := h.khGet hc key
  rw [hltMapExists, hi, Option.map_some]
  cases hcase with
  | inl hnone => rw [if_pos hnone.1, hnone.2, Option.isSome_none]
  | inr hsome =>
    obtain ⟨e, hne, hcell, hfound⟩ := hsome
    rw [if_neg hne, hfound, Option.isSome_some]

theorem hltMapInsert_spec (hc : Coherent hash equal) (h : Represents hash equal m a) (key : κ)
    (value : ν) (hroom : a.entries.length * 2 < 4294967291) :
    ∃ m', hltMapInsert hash equal m key value = some m' ∧
      Represents hash equal m' { a with entries := Assoc.insert equal a.entries key value } := by
  obtain ⟨r, hr, hs, hx, e, hcell, hcase⟩ := khPut_spec hc h.sound key (h.size_eq.symm ▸ hroom)
  obtain ⟨hs', rest, hbefore, hafter⟩ := setVal_spec hc hs hcell value
  have hperm := Assoc.insert_perm hc.toEquality h.sound.distinct h.entries key value
  refine ⟨{ m with table := r.table.setVal r.x value }, ?_, hs', ?_, h.default_eq⟩
  · rw [hltMapInsert, hr, Option.map_some]
  · refine List.Perm.trans ?_ hperm
    cases hcase with
    | inl hthere =>
      obtain ⟨-, hfound, hsame⟩ := hthere
      have hold := hsame.symm.trans hbefore
      have hkey := (Assoc.find_mem hfound).2
      have hinsert := Assoc.insert_perm hc.toEquality h.sound.distinct hold key value
      rw [Assoc.insert_cons hc.toEquality (h.sound.distinct.perm hc.toEquality hold) hkey] at hinsert
      exact hafter.trans hinsert.symm
    | inr hnew =>
      obtain ⟨-, hnone, rfl, hmore⟩ := hnew
      have hrest := (List.perm_cons e).mp (hmore.symm.trans hbefore)
      rw [Assoc.insert_of_none hnone]
      exact hafter.trans (hrest.symm.cons _)

theorem hltMapRemove_spec (hc : Coherent hash equal) (h : Represents hash equal m a) (key : κ) :
    ∃ m', hltMapRemove hash equal m key = some m' ∧
      Represents hash equal m' { a with entries := Assoc.erase equal a.entries key } := by
  obtain ⟨i, hi, hcase⟩ := h.khGet hc key
  cases hcase with
  | inl hnone =>
    refine ⟨m, ?_, h.sound, ?_, h.default_eq⟩
    · rw [hltMapRemove, hi, Option.map_some, if_neg (not_not.mpr hnone.1)]
    · rw [Assoc.erase_of_none hnone.2]
      exact h.entries
  | inr hsome =>
    obtain ⟨e, hne, hcell, hfound⟩ := hsome
    obtain ⟨hs, hperm, -, -⟩ := khDel_spec hc h.sound hcell
    refine ⟨{ m with table := khDel m.table i }, ?_, hs, ?_, h.default_eq⟩
    · rw [hltMapRemove, hi, Option.map_some, if_pos hne]
    · have herase := Assoc.erase_perm equal (h.entries.symm.trans hperm) key
      rw [Assoc.erase_cons hc.toEquality (h.sound.distinct.perm hc.toEquality hperm)
        (Assoc.find_mem hfound).2] at herase
      exact herase.symm

/-- The step lemma. -/
theorem perform_refines (hc : Coherent hash equal) (h : Represents hash equal m a) (op : MapOp κ ν)
    (hroom : a.entries.length * 2 < 4294967291) :
    ∃ m', m.perform hash equal op = some (m', (a.perform equal op).2) ∧
      Represents hash equal m' (a.perform equal op).1 ∧
      (a.perform equal op).1.entries.length ≤ a.entries.length + 1 := by
  cases op with
  | get key =>
    refine ⟨m, ?_, h, Nat.le_succ _⟩
    rw [HltMap.perform, hltMapGet_spec hc h, Option.map_some, FiniteMap.perform]
  | getDefault key default =>
    refine ⟨m, ?_, h, Nat.le_succ _⟩
    rw [HltMap.perform, hltMapGetDefault_spec hc h, Option.map_some, FiniteMap.perform]
  | insert key value =>
    obtain ⟨m', hm', h'⟩ := hltMapInsert_spec hc h key value hroom
    refine ⟨m', ?_, h', ?_⟩
    · rw [HltMap.perform, hm', Option.map_some, FiniteMap.perform]
    · change (Assoc.insert equal a.entries key value).length ≤ a.entries.length + 1
      unfold Assoc.insert
      split
      · rw [List.length_map]
        exact Nat.le_succ _
      · exact le_rfl
  | exist key =>
    refine ⟨m, ?_, h, Nat.le_succ _⟩
    rw [HltMap.perform, hltMapExists_spec hc h, Option.map_some, FiniteMap.perform]
  | remove key =>
    obtain ⟨m', hm', h'⟩ := hltMapRemove_spec hc h key
    refine ⟨m', ?_, h', (List.length_filter_le _ _).trans (Nat.le_succ _)⟩
    rw [HltMap.perform, hm', Option.map_some, FiniteMap.perform]
  | size =>
    refine ⟨m, ?_, h, Nat.le_succ _⟩
    rw [HltMap.perform, hltMapSize, h.size_eq, FiniteMap.perform]
  | clear =>
    obtain ⟨hs, hnil⟩ := khClear_spec h.sound
    refine ⟨hltMapClear m, rfl, ⟨hs, ?_, h.default_eq⟩, Nat.zero_le _⟩
    change (khClear m.table).entries.Perm []
    rw [hnil]
  | default default =>
    exact ⟨hltMapDefault m default, rfl, ⟨h.sound, h.entries, rfl⟩, Nat.le_succ _⟩

/-- The run lemma. -/
theorem run_represents (hc : Coherent hash equal) (ops : List (MapOp κ ν)) :
    ∀ {m : HltMap κ ν} {a : FiniteMap κ ν}, Represents hash equal m a →
      (a.entries.length + ops.length) * 2 < 4294967291 →
      ∃ m', m.run hash equal ops = some (m', (a.run equal ops).2) ∧
        Represents hash equal m' (a.run equal ops).1 := by
  induction ops with
  | nil => exact fun h _ => ⟨_, rfl, h⟩
  | cons op ops ih =>
    intro m a h hroom
    rw [List.length_cons] at hroom
    obtain ⟨m₁, hm₁, h₁, hlength⟩ := perform_refines hc h op (by omega)
    obtain ⟨m', hm', h'⟩ := ih h₁ (by omega)
    refine ⟨m', ?_, h'⟩
    rw [HltMap.run, hm₁, Option.bind_some, hm', Option.map_some, FiniteMap.run]

theorem represents_hltMapNew (keys : ℕ → κ) (vals : ℕ → ν) :
    Represents hash equal (hltMapNew keys vals) ⟨[], .none⟩ :=
  ⟨sound_khInit keys vals, List.Perm.refl _, rfl⟩

/-- Every run of calls on a new map comes to an end with the results of a finite map, and leaves the
entries of the finite map behind. -/
theorem map_refines (hc : Coherent hash equal) (keys : ℕ → κ) (vals : ℕ → ν)
    (ops : List (MapOp κ ν)) (hroom : ops.length * 2 < 4294967291) :
    ∃ m, (hltMapNew keys vals).run hash equal ops =
        some (m, (FiniteMap.run equal ⟨[], .none⟩ ops).2) ∧
      m.table.entries.Perm (FiniteMap.run equal ⟨[], .none⟩ ops).1.entries := by
  obtain ⟨m, hm, h⟩ := run_represents hc ops (represents_hltMapNew keys vals)
    (by rw [List.length_nil, Nat.zero_add]; exact hroom)
  exact ⟨m, hm, h.entries⟩

/-- What `kh_get` finds, as an entry. -/
def khEntry (hash : κ → UInt64) (equal : κ → κ → Bool) (h : KhTable κ ν) (key : κ) :
    Option (Option (κ × ν)) :=
  (khGet hash equal h key).map fun i => if i = h.nBuckets then none else h.cell i

theorem khEntry_eq (hc : Coherent hash equal) {h : KhTable κ ν} (hs : Sound hash equal h) (key : κ) :
    khEntry hash equal h key = some (Assoc.find equal h.entries key) := by
  obtain ⟨i, hi, hcase⟩ := khGet_spec hc hs key
  rw [khEntry, hi, Option.map_some]
  cases hcase with
  | inl hnone => rw [if_pos hnone.1, hnone.2]
  | inr hsome =>
    obtain ⟨e, hlt, hcell, hfound⟩ := hsome
    rw [if_neg hlt.ne, hcell, hfound]

/-- After every run of calls, a resizing to any number of buckets that the list of primes goes
beyond, more or less than there are, comes to an end, and every key has the entry that it had. -/
theorem resize_keeps (hc : Coherent hash equal) (keys : ℕ → κ) (vals : ℕ → ν)
    (ops : List (MapOp κ ν)) (hroom : ops.length * 2 < 4294967291) (newNBuckets : ℕ)
    (hnew : newNBuckets < 4294967291) :
    ∃ m rs h', (hltMapNew keys vals).run hash equal ops = some (m, rs) ∧
      khResize hash m.table newNBuckets = some h' ∧ h'.size = m.table.size ∧
      ∀ key, khEntry hash equal h' key = khEntry hash equal m.table key := by
  obtain ⟨m, hm, h⟩ := run_represents hc ops (represents_hltMapNew keys vals)
    (by rw [List.length_nil, Nat.zero_add]; exact hroom)
  obtain ⟨n, hnext, hpos⟩ := exists_next newNBuckets hnew
  by_cases hfits : m.table.size ≥ hashUpper n
  · refine ⟨m, _, m.table, hm, ?_, rfl, fun key => rfl⟩
    rw [khResize, hnext, Option.bind_some, if_pos hfits]
  · obtain ⟨h', hh', hs', hperm, -, -⟩ := khResize_spec hc h.sound hnext hpos (not_le.mp hfits)
    refine ⟨m, _, h', hm, hh', ?_, fun key => ?_⟩
    · rw [hs'.size_eq, h.sound.size_eq, hperm.length_eq]
    · rw [khEntry_eq hc hs', khEntry_eq hc h.sound,
        Assoc.find_perm hc.toEquality hs'.distinct hperm]

end

theorem coherent_numbers : Coherent UInt64.ofNat (fun a b : ℕ => a == b) where
  refl a := beq_self_eq_true a
  symm _ _ h := beq_iff_eq.mpr (beq_iff_eq.mp h).symm
  trans _ _ _ h h' := beq_iff_eq.mpr ((beq_iff_eq.mp h).trans (beq_iff_eq.mp h'))
  hash_eq _ _ h := congrArg UInt64.ofNat (beq_iff_eq.mp h)

/-- Two keys of one bucket. -/
theorem map_refines_two : ∃ m, (hltMapNew (fun _ => 0) (fun _ => 0)).run UInt64.ofNat (· == ·)
    [.insert 1 10, .insert 4 40, .remove 1, .size] =
      some (m, (FiniteMap.run (fun a b : ℕ => a == b) ⟨[], .none⟩
        [.insert 1 10, .insert 4 40, .remove 1, .size]).2) ∧ m.table.entries.Perm [(4, 40)] :=
  map_refines coherent_numbers (fun _ => 0) (fun _ => 0)
    [.insert 1 10, .insert 4 40, .remove 1, .size] (by decide)

/-- A table of eleven buckets becomes one of three. -/
theorem resize_keeps_three : ∃ m rs h', (hltMapNew (fun _ => 0) (fun _ => 0)).run UInt64.ofNat
    (fun a b : ℕ => a == b) [.insert 1 10, .insert 4 40, .insert 7 70, .remove 1, .remove 4] =
      some (m, rs) ∧ khResize UInt64.ofNat m.table 1 = some h' ∧ h'.size = m.table.size ∧
      ∀ key, khEntry UInt64.ofNat (fun a b : ℕ => a == b) h' key =
        khEntry UInt64.ofNat (fun a b : ℕ => a == b) m.table key :=
  resize_keeps coherent_numbers (fun _ => 0) (fun _ => 0)
    [.insert 1 10, .insert 4 40, .insert 7 70, .remove 1, .remove 4] (by decide) 1 (by decide)

end Hilti.Maps
