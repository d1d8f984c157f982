import Mathlib.Data.List.Basic
import Mathlib.Logic.Function.Basic

/-!
# Chains of filters

The model of `libspicy/filter.c`: a chain is a singly linked list that callers know by its head.  A
function without a result is one that follows a null pointer.  The function that decodes is a
parameter for each filter; instances of filters are told apart by their addresses.

Left out are reference counts, and that allocating a filter can fail.
-/

namespace Hilti.Filters

set_option autoImplicit false

/-! ## State -/

inductive Kind where
  | base64
  | gzip
  | zlib
  deriving DecidableEq

/-- `spicy_filter`. -/
structure Filter where
  kind : Kind
  next : Option ℕ

/-- The filters in memory, which are allocated one after the other. -/
structure World where
  heap : ℕ → Option Filter
  fresh : ℕ

inductive Excpt where
  | filterUnsupported
  deriving DecidableEq

/-- `hlt_bytes` with its flag. -/
structure Bytes where
  data : List UInt8
  frozen : Bool

/-- The table `filters`. -/
def filters : List (ℕ × Kind) :=
  [(1, .base64), (2, .gzip), (3, .zlib)]

/-- The entry of the table for a type. -/
def definition (ftype : ℕ) : Option Kind :=
  (filters.find? fun fd => fd.1 = ftype).map Prod.snd

/-! ## Adding -/

/-- The loop of `__spicyhilti_filter_add`. -/
def lastFrom (heap : ℕ → Option Filter) : ℕ → ℕ → Option ℕ
  | 0, _ => none
  | fuel + 1, head => do
    let f ← heap head
    match f.next with
    | none => some head
    | some next => lastFrom heap fuel next

/-- `__spicyhilti_filter_add`. -/
def filterAddIntern (w : World) (head : Option ℕ) (filter : ℕ) : Option (World × ℕ) :=
  match head with
  | none => some (w, filter)
  | some head => do
    let head ← lastFrom w.heap w.fresh head
    let f ← w.heap head
    some ({ w with heap := Function.update w.heap head (some { f with next := some filter }) }, head)

/-- `spicyhilti_filter_add`. -/
def filterAdd (w : World) (head : Option ℕ) (ftype : ℕ) : Option (World × Except Excpt ℕ) :=
  match definition ftype with
  | none => some (w, .error .filterUnsupported)
  | some kind => do
    let filter := w.fresh
    let w : World := ⟨Function.update w.heap filter (some ⟨kind, none⟩), w.fresh + 1⟩
    let (w, head) ← filterAddIntern w head filter
    some (w, .ok head)

/-- One call after the other, keeping the returned head each time. -/
def addAll : World → Option ℕ → List ℕ → Option (World × Option ℕ)
  | w, head, [] => some (w, head)
  | w, head, ftype :: ftypes => do
    let (w, result) ← filterAdd w head ftype
    match result with
    | .ok head => addAll w (some head) ftypes
    | .error _ => addAll w head ftypes

/-! ## Decoding and closing -/

/-- What a filter makes of data; the result is frozen if the data is. -/
def decodeOne (decode : ℕ → Kind → Bytes → Option Bytes) (filter : ℕ) (kind : Kind) (data : Bytes) :
    Option Bytes :=
  (decode filter kind data).map fun new => if data.frozen then { new with frozen := true } else new

/-- The loop of `spicyhilti_filter_decode`.  The inner option is missing when a filter raises an
exception. -/
def decodeLoop (decode : ℕ → Kind → Bytes → Option Bytes) (heap : ℕ → Option Filter) :
    ℕ → Option ℕ → Bytes → Option (Option Bytes)
  | _, none, data => some (some data)
  | 0, some _, _ => none
  | fuel + 1, some head, data => do
    let f ← heap head
    match decodeOne decode head f.kind data with
    | none => some none
    | some data => decodeLoop decode heap fuel f.next data

/-- `spicyhilti_filter_decode`. -/
def filterDecode (decode : ℕ → Kind → Bytes → Option Bytes) (w : World) (head : Option ℕ)
    (data : Bytes) : Option (Option Bytes) :=
  decodeLoop decode w.heap w.fresh head data

/-- The loop of `spicyhilti_filter_close`: the filters that it closes. -/
def closeLoop (heap : ℕ → Option Filter) : ℕ → Option ℕ → Option (List ℕ)
  | _, none => some []
  | 0, some _ => none
  | fuel + 1, some head => do
    let f ← heap head
    let closed ← closeLoop heap fuel f.next
    some (head :: closed)

/-- `spicyhilti_filter_close`. -/
def filterClose (w : World) (head : Option ℕ) : Option (List ℕ) :=
  closeLoop w.heap w.fresh head

/-! ## What chains are for -/

/-- The filters that calls add, in their order. -/
def added (ftypes : List ℕ) : List (Kind × ℕ) :=
  (ftypes.filterMap definition).zipIdx

/-- Data goes through one filter after the other. -/
def pipe (decode : ℕ → Kind → Bytes → Option Bytes) (data : Bytes) (chain : List (Kind × ℕ)) :
    Option Bytes :=
  chain.foldlM (fun data f => decodeOne decode f.2 f.1 data) data

/-- Data passes through the filters in the order in which they were added, and closing reaches
every one of them. -/
def InOrder (ftypes : List ℕ) : Prop :=
  ∃ w head, addAll ⟨fun _ => none, 0⟩ none ftypes = some (w, head) ∧
    (∀ decode data, filterDecode decode w head data = some (pipe decode data (added ftypes))) ∧
    ∃ closed, filterClose w head = some closed ∧ ∀ f ∈ added ftypes, f.2 ∈ closed

/-! ## The chain in memory -/

/-- The filters of these kinds are linked one to the next, and the head is the last but one. -/
structure Linked (w : World) (head : Option ℕ) (kinds : List Kind) : Prop where
  fresh : w.fresh = kinds.length
  heap : ∀ i (h : i < kinds.length),
    w.heap i = some ⟨kinds[i], if i + 1 < kinds.length then some (i + 1) else none⟩
  head : head = if kinds = [] then none else some (kinds.length - 2)

variable {w : World} {head : Option ℕ} {kinds : List Kind}

theorem lastFrom_linked (h : Linked w head kinds) (fuel a : ℕ) (ha : a < kinds.length)
    (hfuel : kinds.length ≤ a + fuel) : lastFrom w.heap fuel a = some (kinds.length - 1) := by
  induction fuel generalizing a with
  | zero => omega
  | succ fuel ih =>
    rw [lastFrom, h.heap a ha]
    by_cases hnext : a + 1 < kinds.length
    · simp only [hnext, if_true, Option.bind_eq_bind, Option.bind_some]
      exact ih (a + 1) hnext (by omega)
    · have hlast : a = kinds.length - 1 := by omega
      rw [if_neg hnext, ← hlast]
      rfl

theorem filterAdd_linked (h : Linked w head kinds) {ftype : ℕ} {kind : Kind}
    (hkind : definition ftype = some kind) :
    ∃ w' head', filterAdd w head ftype = some (w', .ok head') ∧
      Linked w' (some head') (kinds ++ [kind]) := by
  have hfresh := h.fresh
  have hnew : ∀ i (hi : i < (kinds ++ [kind]).length), (kinds ++ [kind])[i] =
      if h : i < kinds.length then kinds[i] else kind := by
    intro i hi
    rw [List.getElem_append]
    split <;> simp
  cases hkinds : kinds with
  | nil =>
    subst hkinds
    have hnone : head = none := h.head
    have hzero : w.fresh = 0 := hfresh
    refine ⟨⟨Function.update w.heap 0 (some ⟨kind, none⟩), 1⟩, 0, ?_, rfl, fun i hi => ?_, rfl⟩
    · simp [filterAdd, hkind, hnone, filterAddIntern, hzero]
    · have hi' : i = 0 := by simpa using hi
      subst hi'
      simp
  | cons k ks =>
    have hlen : 0 < kinds.length := by simp [hkinds]
    rw [← hkinds]
    have hhead : head = some (kinds.length - 2) := by rw [h.head, if_neg (by simp [hkinds])]
    have hold : Linked ⟨Function.update w.heap w.fresh (some ⟨kind, none⟩), w.fresh⟩ head kinds := by
      refine ⟨hfresh, fun i hi => ?_, h.head⟩
      dsimp only
      rw [Function.update_of_ne (by omega)]
      exact h.heap i hi
    have hlast := lastFrom_linked hold (w.fresh + 1) (kinds.length - 2) (by omega) (by omega)
    have hcell := hold.heap (kinds.length - 1) (by omega)
    rw [if_neg (by omega)] at hcell
    dsimp only at hlast hcell
    refine ⟨⟨Function.update (Function.update w.heap w.fresh (some ⟨kind, none⟩)) (kinds.length - 1)
      (some ⟨kinds[kinds.length - 1], some w.fresh⟩), w.fresh + 1⟩, kinds.length - 1, ?_, ?_,
      fun i hi => ?_, ?_⟩
    · simp [filterAdd, hkind, hhead, filterAddIntern, hlast, hcell]
    · simp [hfresh]
    · have hi' : i < kinds.length + 1 := by simpa using hi
      rw [hnew i (by simpa using hi'), List.length_append, List.length_singleton]
      by_cases hlt : i < kinds.length
      · by_cases heq : i = kinds.length - 1
        · subst heq
          have hsum : kinds.length - 1 + 1 = kinds.length := by omega
          simp [hlt, hsum, hfresh]
        · have hne : i ≠ w.fresh := by omega
          dsimp only
          rw [Function.update_of_ne heq, Function.update_of_ne hne, h.heap i hlt]
          simp [hlt, show i + 1 < kinds.length by omega]
      · have heq : i = kinds.length := by omega
        subst heq
        have hne : kinds.length ≠ kinds.length - 1 := by omega
        dsimp only
        rw [Function.update_of_ne hne, hfresh, Function.update_self]
        simp
    · rw [if_neg (by simp), List.length_append, List.length_singleton]
      congr 1

theorem addAll_linked (ftypes : List ℕ) (h : Linked w head kinds) :
    ∃ w' head', addAll w head ftypes = some (w', head') ∧
      Linked w' head' (kinds ++ ftypes.filterMap definition) := by
  induction ftypes generalizing w head kinds with
  | nil => exact ⟨w, head, rfl, by simpa using h⟩
  | cons ftype ftypes ih =>
    cases hkind : definition ftype with
    | none =>
      obtain ⟨w', head', hrun, h'⟩ := ih h
      refine ⟨w', head', ?_, ?_⟩
      · simp [addAll, filterAdd, hkind, hrun]
      · rw [List.filterMap_cons_none hkind]
        exact h'
    | some kind =>
      obtain ⟨w₁, head₁, hadd, h₁⟩ := filterAdd_linked h hkind
      obtain ⟨w', head', hrun, h'⟩ := ih h₁
      refine ⟨w', head', ?_, ?_⟩
      · simp [addAll, hadd, hrun]
      · rw [List.filterMap_cons_some hkind]
        rwa [List.append_assoc] at h'

theorem drop_zipIdx (kinds : List Kind) (a : ℕ) (ha : a < kinds.length) :
    kinds.zipIdx.drop a = (kinds[a], a) :: kinds.zipIdx.drop (a + 1) := by
  rw [List.drop_eq_getElem_cons (by simpa using ha)]
  simp

theorem decodeLoop_linked (h : Linked w head kinds) (decode : ℕ → Kind → Bytes → Option Bytes)
    (fuel a : ℕ) (data : Bytes) (ha : a ≤ kinds.length) (hfuel : kinds.length ≤ a + fuel) :
    decodeLoop decode w.heap fuel (if a < kinds.length then some a else none) data =
      some (pipe decode data (kinds.zipIdx.drop a)) := by
  induction fuel generalizing a data with
  | zero =>
    have hend : a = kinds.length := by omega
    subst hend
    rw [if_neg (Nat.lt_irrefl _), List.drop_eq_nil_of_le (by simp)]
    rfl
  | succ fuel ih =>
    by_cases hlt : a < kinds.length
    · rw [if_pos hlt, decodeLoop, h.heap a hlt, drop_zipIdx kinds a hlt, pipe, List.foldlM_cons]
      dsimp only [Option.bind_eq_bind, Option.bind_some]
      cases hone : decodeOne decode a kinds[a] data with
      | none => rfl
      | some data' => exact ih (a + 1) data' hlt (by omega)
    · rw [if_neg hlt, List.drop_eq_nil_of_le (by simpa using hlt)]
      rfl

theorem closeLoop_linked (h : Linked w head kinds) (fuel a : ℕ) (ha : a ≤ kinds.length)
    (hfuel : kinds.length ≤ a + fuel) :
    closeLoop w.heap fuel (if a < kinds.length then some a else none) =
      some ((kinds.zipIdx.drop a).map Prod.snd) := by
  induction fuel generalizing a with
  | zero =>
    have hend : a = kinds.length := by omega
    subst hend
    rw [if_neg (Nat.lt_irrefl _), List.drop_eq_nil_of_le (by simp)]
    rfl
  | succ fuel ih =>
    by_cases hlt : a < kinds.length
    · rw [if_pos hlt, closeLoop, h.heap a hlt, drop_zipIdx kinds a hlt, List.map_cons]
      dsimp only [Option.bind_eq_bind, Option.bind_some]
      rw [ih (a + 1) hlt (by omega)]
      rfl
    · rw [if_neg hlt, List.drop_eq_nil_of_le (by simpa using hlt)]
      rfl

theorem Linked.head_eq (h : Linked w head kinds) :
    head = if kinds.length - 2 < kinds.length then some (kinds.length - 2) else none := by
  rw [h.head]
  cases kinds with
  | nil => rfl
  | cons k ks =>
    have hlt : (k :: ks).length - 2 < (k :: ks).length := by simp only [List.length_cons]; omega
    rw [if_neg (List.cons_ne_nil _ _), if_pos hlt]

/-! ## When chains work -/

/-- The order of the filters is kept if and only if there are at most two of them. -/
theorem inOrder_iff (ftypes : List ℕ) :
    InOrder ftypes ↔ (ftypes.filterMap definition).length ≤ 2 := by
  have hinit : Linked ⟨fun _ => none, 0⟩ none [] := ⟨rfl, fun i hi => (nomatch hi), rfl⟩
  obtain ⟨w, head, hrun, h⟩ := addAll_linked ftypes hinit
  rw [List.nil_append] at h
  have hdecode : ∀ decode data, filterDecode decode w head data = some (pipe decode data
      ((added ftypes).drop ((ftypes.filterMap definition).length - 2))) := fun decode data => by
    rw [filterDecode, h.head_eq, h.fresh]
    exact decodeLoop_linked h decode _ _ data (by omega) (by omega)
  have hclose : filterClose w head =
      some (((added ftypes).drop ((ftypes.filterMap definition).length - 2)).map Prod.snd) := by
    rw [filterClose, h.head_eq, h.fresh]
    exact closeLoop_linked h _ _ (by omega) (by omega)
  constructor
  · rintro ⟨w', head', hrun', hpipe, -⟩
    cases hrun.symm.trans hrun'
    by_contra hlong
    rw [Nat.not_le] at hlong
    -- the first filter raises an exception for which the chain would have to reach it
    have hpassed := hpipe (fun filter _ data => if filter = 0 then none else some data) ⟨[], false⟩
    rw [hdecode, Option.some.injEq] at hpassed
    have hfirst : pipe (fun filter _ data => if filter = 0 then none else some data) ⟨[], false⟩
        (added ftypes) = none := by
      obtain ⟨k, ks, hkinds⟩ := List.exists_cons_of_length_pos (Nat.lt_trans (by decide) hlong)
      rw [added, hkinds, List.zipIdx_cons, pipe, List.foldlM_cons]
      rfl
    have hlater : ∀ (chain : List (Kind × ℕ)) (data : Bytes), data.frozen = false →
        (∀ f ∈ chain, f.2 ≠ 0) →
        pipe (fun filter _ data => if filter = 0 then none else some data) data chain = some data := by
      intro chain data hdata hchain
      induction chain with
      | nil => rfl
      | cons f fs ih =>
        rw [pipe, List.foldlM_cons, decodeOne, if_neg (hchain f List.mem_cons_self)]
        simp only [hdata, Option.map_some, Bool.false_eq_true, if_false, Option.bind_eq_bind,
          Option.bind_some]
        exact ih fun g hg => hchain g (List.mem_cons_of_mem _ hg)
    rw [hfirst, hlater _ _ rfl fun f hf => ?_] at hpassed
    · cases hpassed
    · obtain ⟨i, hi, rfl⟩ := List.mem_iff_getElem.mp hf
      simp only [added, List.getElem_drop, List.getElem_zipIdx]
      omega
  · intro hshort
    have hzero : (ftypes.filterMap definition).length - 2 = 0 := by omega
    rw [hzero, List.drop_zero] at hclose
    refine ⟨w, head, hrun, fun decode data => ?_, _, hclose, fun f hf => List.mem_map_of_mem hf⟩
    rw [hdecode, hzero, List.drop_zero]

/-- With three filters the first one is lost. -/
theorem three_not_inOrder : ¬ InOrder [1, 2, 3] := by
  rintro ⟨w, head, hrun, -, closed, hclosed, hall⟩
  have hrest : (addAll ⟨fun _ => none, 0⟩ none [1, 2, 3]).bind (fun r => filterClose r.1 r.2) =
      some [1, 2] := by decide
  rw [hrun, Option.bind_some, hclosed] at hrest
  cases hrest
  exact absurd (hall (.base64, 0) (by decide)) (by decide)

end Hilti.Filters
